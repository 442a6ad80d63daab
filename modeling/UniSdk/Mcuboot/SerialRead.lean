import UniSdk.Library.Runs
import UniSdk.Library.Streams

/-!
# The line readers of the boot serial ports

`tlk_boot_uart_read` and `tlk_boot_usb_read` share their loop over a receive buffer whose
position and count persist between calls, and differ in how the buffer is filled: the UART is
armed and reports a chunk later, the USB port is read when the buffer is empty. Either way the
bytes returned are the received ones in order, newlines replaced by NUL.
-/

namespace UniSdk.Mcuboot

open Library.Runs Library.Streams

/-- The receive buffer of a reader, its count and its position. -/
structure SerialRx where
  rxBuf : Nat → UInt8
  rxCount : Nat
  rxPos : Nat

/-- `BOOT_SERIAL_RX_BUF_SIZE`. -/
def bootSerialRxBufSize : Nat := 256

/-- `byte == '\n'`. -/
def isNewline (byte : UInt8) : Bool := byte == 10

/-- What is stored at `str` for a byte. -/
def lineByte (byte : UInt8) : UInt8 := if isNewline byte then 0 else byte

/-- The bytes stored at `str` by a call, whose number is its result, and `*newline`. -/
structure ReadResult where
  str : List UInt8
  newline : Bool
  deriving DecidableEq

/-- The loop of both readers, `str` being what has been stored. `fuel` bounds the rounds. -/
def bootReadLoop (cnt : Int) : Nat → List UInt8 → SerialRx → ReadResult × SerialRx
  | 0, str, rx => (⟨str, false⟩, rx)
  | fuel + 1, str, rx =>
    if (str.length : Int) < cnt ∧ rx.rxPos < rx.rxCount then
      let byte := rx.rxBuf rx.rxPos
      let rx := { rx with rxPos := rx.rxPos + 1 }
      if isNewline byte then (⟨str ++ [0], true⟩, rx)
      else bootReadLoop cnt fuel (str ++ [byte]) rx
    else (⟨str, false⟩, rx)

/-- The bytes received and not read. -/
def SerialRx.pending (rx : SerialRx) : List UInt8 :=
  (List.range (rx.rxCount - rx.rxPos)).map fun k => rx.rxBuf (rx.rxPos + k)

/-- The driver stores `chunk` at the start of the buffer. -/
def SerialRx.store (chunk : List UInt8) (rx : SerialRx) : SerialRx :=
  { rx with rxBuf := fun k => if h : k < chunk.length then chunk[k] else rx.rxBuf k }

section Loop

variable {rx : SerialRx}

theorem pending_nil (h : rx.rxCount ≤ rx.rxPos) : rx.pending = [] := by
  have hzero : rx.rxCount - rx.rxPos = 0 := by omega
  rw [SerialRx.pending, hzero]
  rfl

theorem pending_cons (h : rx.rxPos < rx.rxCount) :
    rx.pending =
      rx.rxBuf rx.rxPos :: ({ rx with rxPos := rx.rxPos + 1 } : SerialRx).pending := by
  have hsucc : rx.rxCount - rx.rxPos = rx.rxCount - (rx.rxPos + 1) + 1 := by omega
  rw [SerialRx.pending, hsucc, List.range_succ_eq_map, List.map_cons, List.map_map]
  simp only [SerialRx.pending, Nat.add_zero, List.cons.injEq, true_and]
  refine List.map_congr_left fun k _ => ?_
  simp only [Function.comp, Nat.succ_eq_add_one]
  congr 1
  omega

theorem pending_length (rx : SerialRx) : rx.pending.length = rx.rxCount - rx.rxPos := by
  rw [SerialRx.pending, List.length_map, List.length_range]

theorem pending_store (rx : SerialRx) (chunk : List UInt8) :
    ({ rx.store chunk with rxCount := chunk.length, rxPos := 0 } : SerialRx).pending = chunk := by
  apply List.ext_getElem
  · rw [pending_length]
    rfl
  · intro k hk hk'
    simp [SerialRx.pending, SerialRx.store, hk']

/-- What is left after `n` bytes. -/
theorem pending_drop (rx : SerialRx) (n : Nat) :
    ({ rx with rxPos := rx.rxPos + n } : SerialRx).pending = rx.pending.drop n := by
  induction n generalizing rx with
  | zero => rfl
  | succ n ih =>
    by_cases h : rx.rxPos < rx.rxCount
    · rw [pending_cons h, List.drop_succ_cons, ← ih]
      congr 1
      simp only [SerialRx.mk.injEq, true_and]
      omega
    · have hnil : rx.pending = [] := pending_nil (by omega)
      have hbehind : ({ rx with rxPos := rx.rxPos + (n + 1) } : SerialRx).pending = [] :=
        pending_nil (by dsimp only; omega)
      rw [hnil, hbehind, List.drop_nil]

/-- The loop takes the pending bytes through the first newline, as far as `cnt` allows. -/
theorem bootReadLoop_eq {cnt : Int} {fuel : Nat} (str : List UInt8)
    (h : rx.rxCount - rx.rxPos ≤ fuel) :
    bootReadLoop cnt fuel str rx =
      (let taken := upTo isNewline (cnt - str.length).toNat rx.pending
       (⟨str ++ taken.map lineByte, taken.any isNewline⟩,
         { rx with rxPos := rx.rxPos + taken.length })) := by
  induction fuel generalizing str rx with
  | zero =>
    rw [pending_nil (by omega)]
    cases (cnt - str.length).toNat <;> simp [bootReadLoop, upTo]
  | succ fuel ih =>
    rw [bootReadLoop]
    by_cases hcnt : (str.length : Int) < cnt
    · by_cases hpos : rx.rxPos < rx.rxCount
      · obtain ⟨n, hn⟩ : ∃ n : Nat, (cnt - str.length).toNat = n + 1 :=
          ⟨(cnt - str.length).toNat - 1, by omega⟩
        rw [if_pos ⟨hcnt, hpos⟩, hn, pending_cons hpos]
        dsimp only
        rw [upTo]
        by_cases hnl : isNewline (rx.rxBuf rx.rxPos) = true
        · rw [if_pos hnl, if_pos hnl]
          simp [lineByte, hnl]
        · rw [if_neg hnl, if_neg hnl]
          have hnext : (cnt - ((str ++ [rx.rxBuf rx.rxPos]).length : Int)).toNat = n := by
            rw [List.length_append, List.length_singleton]
            omega
          rw [ih (str ++ [rx.rxBuf rx.rxPos]) (by dsimp only; omega), hnext]
          simp only [List.append_assoc, List.singleton_append, List.map_cons, lineByte, hnl,
            Bool.false_eq_true, if_false, List.any_cons, List.length_cons, Bool.false_or,
            Prod.mk.injEq, true_and, SerialRx.mk.injEq]
          omega
      · rw [if_neg fun hand => hpos hand.2, pending_nil (by omega)]
        cases (cnt - str.length).toNat <;> simp [upTo]
    · have hzero : (cnt - str.length).toNat = 0 := by omega
      rw [if_neg fun hand => hcnt hand.1, hzero]
      simp [upTo]

end Loop

/-- A call within its limit, whose `*newline` is 1 exactly when the last byte it returned came
from a newline. `before` bytes of `received` were returned before it. -/
structure ReadResult.Faithful (cnt : Int) (received : List UInt8) (before : Nat)
    (r : ReadResult) : Prop where
  fits : (r.str.length : Int) ≤ cnt
  newline_iff : r.newline = true ↔
    r.str ≠ [] ∧ received[before + r.str.length - 1]?.any isNewline = true

/-- What a call does to the stream: the invariant step of both readers. -/
theorem loop_faithful (cnt : Int) {rx : SerialRx} {received returned rest : List UInt8}
    (h : Consumed lineByte received returned (rx.pending ++ rest)) :
    let res := bootReadLoop cnt (rx.rxCount - rx.rxPos) [] rx
    (0 < cnt → res.1.Faithful cnt received returned.length) ∧
      Consumed lineByte received (returned ++ res.1.str) (res.2.pending ++ rest) := by
  intro res
  have hres : res = _ := bootReadLoop_eq [] (Nat.le_refl _)
  generalize htaken : upTo isNewline (cnt - (([] : List UInt8).length : Int)).toNat rx.pending =
    taken at hres
  have hlength : taken.length ≤ cnt.toNat := by
    have hle := upTo_length_le isNewline (cnt - (([] : List UInt8).length : Int)).toNat rx.pending
    rw [htaken] at hle
    simpa using hle
  have hlast : taken.any isNewline = taken.getLast?.any isNewline := by
    rw [← htaken]
    exact upTo_any _ _ _
  have hsplit : taken ++ rx.pending.drop taken.length = rx.pending := by
    rw [← htaken]
    exact upTo_append_drop _ _ _
  rw [← hsplit, List.append_assoc] at h
  rw [hres]
  constructor
  · intro hcnt
    constructor
    · simp only [List.nil_append, List.length_map]
      omega
    · simp only [List.nil_append, List.length_map, ne_eq, List.map_eq_nil_iff]
      by_cases hnil : taken = []
      · simp [hnil]
      · rw [h.last_taken hnil, hlast]
        simp [hnil]
  · simp only [List.nil_append]
    rw [pending_drop]
    exact h.take taken

/-! ## The UART -/

def tlkUartRxHandler (count : Nat) (rx : SerialRx) : SerialRx := { rx with rxCount := count }

/-- `tlk_uart_rx_arm`, the call of `tlk_uart_receive_bytes` apart. -/
def tlkUartRxArm (rx : SerialRx) : SerialRx := { rx with rxCount := 0, rxPos := 0 }

/-- The last component tells whether the call has armed the receiver. -/
def tlkBootUartRead (cnt : Int) (rx : SerialRx) : ReadResult × SerialRx × Bool :=
  if rx.rxCount = 0 then (⟨[], false⟩, rx, false)
  else
    let (r, rx) := bootReadLoop cnt (rx.rxCount - rx.rxPos) [] rx
    if rx.rxCount ≤ rx.rxPos then (r, tlkUartRxArm rx, true) else (r, rx, false)

/-- The port. `received` and `returned` are history: the bytes the driver has delivered, and
those the calls have returned. -/
structure UartPort where
  rx : SerialRx
  armed : Bool
  received : List UInt8
  returned : List UInt8

/-- An armed driver stores a chunk and calls the handler once. -/
inductive UartAction
  | deliver (chunk : List UInt8)
  | read (cnt : Int)

def uartStep (s : UartPort) : UartAction → Option UartPort
  | .deliver chunk =>
    if s.armed = true ∧ 0 < chunk.length ∧ chunk.length ≤ bootSerialRxBufSize then
      some { s with
        rx := tlkUartRxHandler chunk.length (s.rx.store chunk)
        armed := false
        received := s.received ++ chunk }
    else none
  | .read cnt =>
    let (r, rx, armed) := tlkBootUartRead cnt s.rx
    some { s with rx, armed := s.armed || armed, returned := s.returned ++ r.str }

/-- After `tlk_mcuboot_serial_uart_init`. -/
def UartPort.init (rxBuf : Nat → UInt8) : UartPort where
  rx := tlkUartRxArm ⟨rxBuf, 0, 0⟩
  armed := true
  received := []
  returned := []

/-- The counters are zero exactly while the receiver is armed. -/
structure UartInv (s : UartPort) : Prop where
  stream : Consumed lineByte s.received s.returned s.rx.pending
  armed : s.armed = true → s.rx.rxCount = 0 ∧ s.rx.rxPos = 0
  filled : s.armed = false → s.rx.rxPos < s.rx.rxCount

/-- A call that returns nothing leaves the stream. -/
theorem nothing_faithful {cnt : Int} (hcnt : 0 < cnt) (received : List UInt8) (before : Nat) :
    (⟨[], false⟩ : ReadResult).Faithful cnt received before := by
  constructor
  · exact Int.le_of_lt hcnt
  · simp

/-- A receiver that holds bytes is read, and armed when it is empty. -/
theorem uart_read_filled (cnt : Int) {rx : SerialRx} (h : rx.rxPos < rx.rxCount) :
    tlkBootUartRead cnt rx =
      (let res := bootReadLoop cnt (rx.rxCount - rx.rxPos) [] rx
       (res.1, if res.2.rxCount ≤ res.2.rxPos then (tlkUartRxArm res.2, true)
        else (res.2, false))) := by
  rw [tlkBootUartRead, if_neg (by omega)]
  dsimp only
  split <;> rfl

theorem uart_read_faithful {s : UartPort} (h : UartInv s) (cnt : Int) :
    (0 < cnt → (tlkBootUartRead cnt s.rx).1.Faithful cnt s.received s.returned.length) ∧
      ∀ s', uartStep s (.read cnt) = some s' → UartInv s' := by
  cases harmed : s.armed with
  | true =>
    have hread : tlkBootUartRead cnt s.rx = (⟨[], false⟩, s.rx, false) := by
      rw [tlkBootUartRead, if_pos (h.armed harmed).1]
    constructor
    · intro hcnt
      rw [hread]
      exact nothing_faithful hcnt _ _
    · intro s' hs'
      simp only [uartStep, hread, List.append_nil, Bool.or_false] at hs'
      cases hs'
      exact h
  | false =>
    have hpos := h.filled harmed
    have hstream := h.stream
    rw [← List.append_nil s.rx.pending] at hstream
    obtain ⟨hfaithful, hconsumed⟩ := loop_faithful cnt hstream
    rw [List.append_nil] at hconsumed
    have hread := uart_read_filled cnt hpos
    constructor
    · intro hcnt
      rw [hread]
      exact hfaithful hcnt
    · intro s' hs'
      simp only [uartStep, hread] at hs'
      cases hs'
      split
      · next hempty =>
        rw [pending_nil hempty] at hconsumed
        exact ⟨hconsumed, fun _ => ⟨rfl, rfl⟩, fun hfalse => by simp at hfalse⟩
      · next hleft =>
        exact ⟨hconsumed, fun htrue => by simp [harmed] at htrue, fun _ => Nat.lt_of_not_le hleft⟩

theorem uartStep_inv {s s' : UartPort} {a : UartAction} (hstep : uartStep s a = some s')
    (h : UartInv s) : UartInv s' := by
  cases a with
  | deliver chunk =>
    simp only [uartStep] at hstep
    split at hstep
    · next hguard =>
      cases hstep
      obtain ⟨harmed, hpos, -⟩ := hguard
      obtain ⟨hcount, hzero⟩ := h.armed harmed
      have hpending : (tlkUartRxHandler chunk.length (s.rx.store chunk)).pending = chunk := by
        have hstored := pending_store s.rx chunk
        rw [← hzero] at hstored
        exact hstored
      have hbefore : s.rx.pending = [] := pending_nil (by omega)
      have hstream := h.stream.receive chunk
      rw [hbefore, List.nil_append] at hstream
      refine ⟨?_, nofun, fun _ => ?_⟩
      · rw [hpending]
        exact hstream
      · show s.rx.rxPos < chunk.length
        omega
    · cases hstep
  | read cnt => exact (uart_read_faithful h cnt).2 s' hstep

/-! ## The USB port -/

/-- `tlk_usb_rx_fill`, where `tud_cdc_read` returns `chunk`. -/
def tlkUsbRxFill (chunk : List UInt8) (rx : SerialRx) : SerialRx :=
  { rx.store chunk with rxCount := chunk.length, rxPos := 0 }

/-- `tud_cdc_read` of `n` bytes: what it returns and what is left to read. -/
def tudCdcRead (n : Nat) (fifo : List UInt8) : List UInt8 × List UInt8 := (fifo.take n, fifo.drop n)

/-- `fifo` are the bytes that the USB stack has received and not handed over; a fill reads `n` of
them. -/
def tlkBootUsbRead (cnt : Int) (n : Nat) (rx : SerialRx) (fifo : List UInt8) :
    ReadResult × SerialRx × List UInt8 :=
  if rx.rxCount ≤ rx.rxPos then
    if fifo = [] then (⟨[], false⟩, rx, fifo)
    else
      let (chunk, fifo) := tudCdcRead n fifo
      let rx := tlkUsbRxFill chunk rx
      let (r, rx) := bootReadLoop cnt (rx.rxCount - rx.rxPos) [] rx
      (r, rx, fifo)
  else
    let (r, rx) := bootReadLoop cnt (rx.rxCount - rx.rxPos) [] rx
    (r, rx, fifo)

structure UsbPort where
  rx : SerialRx
  fifo : List UInt8
  received : List UInt8
  returned : List UInt8

/-- `receive` is the arrival of bytes, in `tud_task` or between the calls. -/
inductive UsbAction
  | receive (bytes : List UInt8)
  | read (cnt : Int) (n : Nat)

def usbStep (s : UsbPort) : UsbAction → Option UsbPort
  | .receive bytes =>
    some { s with fifo := s.fifo ++ bytes, received := s.received ++ bytes }
  | .read cnt n =>
    if n ≤ bootSerialRxBufSize then
      let (r, rx, fifo) := tlkBootUsbRead cnt n s.rx s.fifo
      some { s with rx, fifo, returned := s.returned ++ r.str }
    else none

/-- The initial values. -/
def UsbPort.init (rxBuf : Nat → UInt8) : UsbPort where
  rx := ⟨rxBuf, 0, 0⟩
  fifo := []
  received := []
  returned := []

def UsbInv (s : UsbPort) : Prop :=
  Consumed lineByte s.received s.returned (s.rx.pending ++ s.fifo)

theorem usb_read_faithful {s : UsbPort} (h : UsbInv s) (cnt : Int) (n : Nat) :
    let res := tlkBootUsbRead cnt n s.rx s.fifo
    (0 < cnt → res.1.Faithful cnt s.received s.returned.length) ∧
      Consumed lineByte s.received (s.returned ++ res.1.str) (res.2.1.pending ++ res.2.2) := by
  unfold tlkBootUsbRead
  by_cases hempty : s.rx.rxCount ≤ s.rx.rxPos
  · rw [if_pos hempty]
    by_cases hfifo : s.fifo = []
    · rw [if_pos hfifo]
      constructor
      · intro hcnt
        exact nothing_faithful hcnt _ _
      · rw [List.append_nil]
        exact h
    · rw [if_neg hfifo]
      have hstream : Consumed lineByte s.received s.returned
          ((tlkUsbRxFill (s.fifo.take n) s.rx).pending ++ s.fifo.drop n) := by
        rw [tlkUsbRxFill, pending_store, List.take_append_drop]
        rw [UsbInv, pending_nil hempty, List.nil_append] at h
        exact h
      exact loop_faithful cnt hstream
  · rw [if_neg hempty]
    exact loop_faithful cnt h

theorem usbStep_inv {s s' : UsbPort} {a : UsbAction} (hstep : usbStep s a = some s')
    (h : UsbInv s) : UsbInv s' := by
  cases a with
  | receive bytes =>
    cases hstep
    have hstream := Consumed.receive h bytes
    rw [List.append_assoc] at hstream
    exact hstream
  | read cnt n =>
    rw [usbStep] at hstep
    split at hstep
    · cases hstep
      exact (usb_read_faithful h cnt n).2
    · cases hstep

/-- Whatever the chunks and the calls, both readers return the received stream in order, with
newlines replaced by NUL; what they have not returned is still in the buffer or, for the USB
port, with the stack. Each call keeps to its limit and reports a newline exactly when it ends
with one. -/
theorem serial_readers_faithful (rxBuf : Nat → UInt8) :
    (∀ acts s, Run uartStep (fun _ _ _ => True) (.init rxBuf) acts s →
      s.returned = (s.received.take s.returned.length).map lineByte ∧
      s.rx.pending = s.received.drop s.returned.length ∧
      ∀ cnt : Int, 0 < cnt →
        (tlkBootUartRead cnt s.rx).1.Faithful cnt s.received s.returned.length) ∧
    (∀ acts s, Run usbStep (fun _ _ _ => True) (.init rxBuf) acts s →
      s.returned = (s.received.take s.returned.length).map lineByte ∧
      s.rx.pending ++ s.fifo = s.received.drop s.returned.length ∧
      ∀ (cnt : Int) (n : Nat), 0 < cnt →
        (tlkBootUsbRead cnt n s.rx s.fifo).1.Faithful cnt s.received s.returned.length) := by
  constructor
  · intro acts s run
    have hinit : UartInv (.init rxBuf) := by
      constructor
      · exact Consumed.start
      · exact fun _ => ⟨rfl, rfl⟩
      · exact fun hfalse => by cases hfalse
    have hinv := run.invariant (P := UartInv) hinit fun _ _ _ hstep _ hi => uartStep_inv hstep hi
    exact ⟨hinv.stream.returned_eq, hinv.stream.rest_eq,
      fun cnt hcnt => (uart_read_faithful hinv cnt).1 hcnt⟩
  · intro acts s run
    have hinv := run.invariant (P := UsbInv) Consumed.start
      fun _ _ _ hstep _ hi => usbStep_inv hstep hi
    exact ⟨hinv.returned_eq, hinv.rest_eq,
      fun cnt n hcnt => (usb_read_faithful hinv cnt n).1 hcnt⟩

/-- A line that ends within a chunk, and a byte of the next one. -/
def uartLines : List UartAction :=
  [.deliver [97, 10, 98], .read 5, .read 5, .read 5, .deliver [99, 10], .read 1]

def usbLines : List UsbAction :=
  [.read 5 256, .receive [97, 10, 98], .read 5 256, .receive [99], .read 5 256, .read 1 256]

theorem serial_readers_faithful_lines :
    (∃ s, Run uartStep (fun _ _ _ => True) (.init fun _ => 0) uartLines s ∧
      s.returned = [97, 0, 98, 99] ∧ s.rx.pending = s.received.drop s.returned.length) ∧
    (∃ s, Run usbStep (fun _ _ _ => True) (.init fun _ => 0) usbLines s ∧
      s.returned = [97, 0, 98, 99] ∧
      s.rx.pending ++ s.fifo = s.received.drop s.returned.length) := by
  constructor
  · have hrun : ∃ s, Run uartStep (fun _ _ _ => True) (.init fun _ => 0) uartLines s ∧
        s.returned = [97, 0, 98, 99] := by
      apply exists_run_of_follow (fun s : UartPort => s.returned = [97, 0, 98, 99])
      decide +kernel
    obtain ⟨s, run, hreturned⟩ := hrun
    exact ⟨s, run, hreturned, ((serial_readers_faithful _).1 _ s run).2.1⟩
  · have hrun : ∃ s, Run usbStep (fun _ _ _ => True) (.init fun _ => 0) usbLines s ∧
        s.returned = [97, 0, 98, 99] := by
      apply exists_run_of_follow (fun s : UsbPort => s.returned = [97, 0, 98, 99])
      decide +kernel
    obtain ⟨s, run, hreturned⟩ := hrun
    exact ⟨s, run, hreturned, ((serial_readers_faithful _).2 _ s run).2.1⟩

end UniSdk.Mcuboot

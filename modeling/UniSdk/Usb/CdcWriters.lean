import UniSdk.Library.CharBuffers
import UniSdk.Library.Runs
import UniSdk.Library.Words

/-!
# The two writers over TinyUSB

`tlk_debug_log_usb_print_buffer` offers a buffer to the transmit queue of the USB device and gives
up after a few rounds without progress. `tlk_boot_usb_write` stages its bytes in a buffer of its
own and does not give up. Each call of TinyUSB is one step, and its result is whatever the action
says; of `tud_cdc_write` it is only known that it accepts no more than it is offered.
-/

namespace UniSdk.Usb

open Library.CharBuffers Library.Runs Library.Words

/-- What a call of TinyUSB returns; `done` is the return of `tud_task` and
`tud_cdc_write_flush`. -/
inductive TusbReply
  | mounted (yes : Bool)
  | connected (yes : Bool)
  | available (n : Nat)
  | accepted (n : Nat)
  | done
  deriving DecidableEq, Repr

theorem offered_append {offered : List (Nat × Nat)} {limit start n : Nat}
    (hoffered : ∀ range ∈ offered, range.1 + range.2 ≤ limit) (hnew : start + n ≤ limit) :
    ∀ range ∈ offered ++ [(start, n)], range.1 + range.2 ≤ limit := by
  intro range hrange
  rcases List.mem_append.mp hrange with hold | hlast
  · exact hoffered range hold
  · rw [List.mem_singleton.mp hlast]
    exact hnew

/-! ## The log backend -/

/-- `TLK_LOG_USB_DROP_IF_FULL` and `TLK_LOG_USB_MAX_SPINS`, which the 8-bit counter can reach. -/
structure UsbLogConfig where
  dropIfFull : Bool
  maxSpins : Nat
  maxSpins_lt : maxSpins < 256

/-- The call of `tlk_debug_log_usb_print_buffer` that returns next. -/
inductive PrintLoc
  | mounted
  | available
  | fullFlush
  | fullTask
  | fullMounted
  | fullConnected
  | write (chunk : Nat)
  | stallFlush
  | stallTask
  | lastFlush
  | returned (result : Nat)
  deriving DecidableEq, Repr

/-- A call in progress. The last two fields are history: the bytes that `tud_cdc_write` has
accepted, and the ranges of the buffer it has been offered, as start and length. -/
structure UsbPrint where
  loc : PrintLoc
  totalWritten : Nat
  spins : Nat
  accepted : List Nat
  offered : List (Nat × Nat)
  deriving DecidableEq, Repr

namespace UsbPrint

/-- Behind the loop. -/
def finish (s : UsbPrint) : UsbPrint :=
  if 0 < s.totalWritten then { s with loc := .lastFlush }
  else { s with loc := .returned s.totalWritten }

/-- The condition of the loop. -/
def loopHead (len : Nat) (s : UsbPrint) : UsbPrint :=
  if s.totalWritten < len then { s with loc := .available } else s.finish

/-- After the flush of a round without progress: give up, or go on with `next`. -/
def stall (c : UsbLogConfig) (next : PrintLoc) (s : UsbPrint) : UsbPrint :=
  if c.dropIfFull then s.finish
  else
    let s := { s with spins := (s.spins + 1) % 256 }
    if c.maxSpins ≤ s.spins then s.finish else { s with loc := next }

end UsbPrint

/-- `tlk_debug_log_usb_print_buffer` up to its first call of TinyUSB; `none` is the null pointer. -/
def usbPrintStart (buf : Option (List Nat)) (len : Nat) : UsbPrint :=
  if buf = none ∨ len = 0 then ⟨.returned 0, 0, 0, [], []⟩ else ⟨.mounted, 0, 0, [], []⟩

/-- From the return of one call of TinyUSB to the next call. -/
def usbPrintStep (c : UsbLogConfig) (buf : List Nat) (len : Nat) (s : UsbPrint) (r : TusbReply) :
    Option UsbPrint :=
  match s.loc, r with
  | .mounted, .mounted yes => some (if yes then s.loopHead len else { s with loc := .returned 0 })
  | .available, .available n =>
    if n = 0 then some { s with loc := .fullFlush }
    else
      let chunk := min (len - s.totalWritten) n
      some { s with loc := .write chunk, offered := s.offered ++ [(s.totalWritten, chunk)] }
  | .fullFlush, .done => some (s.stall c .fullTask)
  | .fullTask, .done => some { s with loc := .fullMounted }
  | .fullMounted, .mounted yes => some (if yes then { s with loc := .fullConnected } else s.finish)
  | .fullConnected, .connected yes => some (if yes then s.loopHead len else s.finish)
  | .write _, .accepted n =>
    let s := { s with accepted := s.accepted ++ (buf.drop s.totalWritten).take n }
    if n = 0 then some { s with loc := .stallFlush }
    else
      some ({ s with totalWritten := u16 (s.totalWritten + u16 n), spins := 0 }.loopHead len)
  | .stallFlush, .done => some (s.stall c .stallTask)
  | .stallTask, .done => some (s.loopHead len)
  | .lastFlush, .done => some { s with loc := .returned s.totalWritten }
  | _, _ => none

/-- `tud_cdc_write` accepts no more than it is offered. -/
def PrintContract (s : UsbPrint) (r : TusbReply) (_ : UsbPrint) : Prop :=
  match s.loc, r with
  | .write chunk, .accepted n => n ≤ chunk
  | _, _ => True

instance (s s' : UsbPrint) (r : TusbReply) : Decidable (PrintContract s r s') := by
  unfold PrintContract
  split <;> infer_instance

section Print

variable {c : UsbLogConfig} {buf : List Nat} {len : Nat}

/-- What holds of the bytes wherever the call is. -/
structure PrintBytes (buf : List Nat) (len : Nat) (s : UsbPrint) : Prop where
  total_le : s.totalWritten ≤ len
  accepted : s.accepted = buf.take s.totalWritten
  offered : ∀ range ∈ s.offered, range.1 + range.2 ≤ len

/-- The counter while the loop goes on. -/
def Spinning (c : UsbLogConfig) (s : UsbPrint) : Prop := s.spins < c.maxSpins ∨ s.spins = 0

/-- What holds besides, by the call that returns next. -/
def PrintAt (c : UsbLogConfig) (len : Nat) (s : UsbPrint) : Prop :=
  match s.loc with
  | .mounted => s.totalWritten = 0 ∧ Spinning c s
  | .write chunk => s.totalWritten + chunk ≤ len ∧ Spinning c s
  | .lastFlush => True
  | .returned result => result = s.totalWritten
  | _ => Spinning c s

/-- The place of a call in its round, counted from the end. -/
def roundRank : PrintLoc → Nat
  | .mounted => 6
  | .fullTask => 5
  | .fullMounted => 4
  | .fullConnected => 3
  | .stallTask => 3
  | .available => 2
  | .fullFlush => 1
  | .write _ => 1
  | _ => 0

/-- Bytes to go, then rounds left without progress, then the place in the round. -/
def callsFrom (c : UsbLogConfig) (len : Nat) (s : UsbPrint) (rank : Nat) : Nat :=
  2 + lexRank (c.maxSpins + 1) 6 (len - s.totalWritten) (c.maxSpins + 1 - s.spins) rank

/-- A bound for the calls that are still to come. -/
def callsLeft (c : UsbLogConfig) (len : Nat) (s : UsbPrint) : Nat :=
  match s.loc with
  | .returned _ => 0
  | .lastFlush => 1
  | loc => callsFrom c len s (roundRank loc)

/-- The first call and those of the loop. -/
def inRound : PrintLoc → Bool
  | .lastFlush => false
  | .returned _ => false
  | _ => true

theorem callsLeft_eq {s : UsbPrint} {loc : PrintLoc} (hloc : s.loc = loc)
    (hround : inRound loc = true) : callsLeft c len s = callsFrom c len s (roundRank loc) := by
  unfold callsLeft
  rw [hloc]
  split
  · cases hround
  · cases hround
  · rfl

theorem callsFrom_lt {s : UsbPrint} {rank rank' : Nat} (h : rank < rank') :
    callsFrom c len s rank < callsFrom c len s rank' :=
  Nat.add_lt_add_left (lexRank_lt_third h) 2

theorem one_lt_callsFrom (s : UsbPrint) (rank : Nat) : 1 < callsFrom c len s rank :=
  Nat.lt_of_lt_of_le (Nat.lt_succ_self 1) (Nat.le_add_right 2 _)

theorem finish_spec {s : UsbPrint} (h : PrintBytes buf len s) :
    (PrintBytes buf len s.finish ∧ PrintAt c len s.finish) ∧ callsLeft c len s.finish ≤ 1 := by
  unfold UsbPrint.finish
  split
  · exact ⟨⟨⟨h.total_le, h.accepted, h.offered⟩, trivial⟩, le_rfl⟩
  · exact ⟨⟨⟨h.total_le, h.accepted, h.offered⟩, rfl⟩, Nat.zero_le _⟩

theorem loopHead_spec {s : UsbPrint} (h : PrintBytes buf len s) (hspins : Spinning c s) :
    (PrintBytes buf len (s.loopHead len) ∧ PrintAt c len (s.loopHead len)) ∧
      callsLeft c len (s.loopHead len) ≤ callsFrom c len s 2 := by
  unfold UsbPrint.loopHead
  split
  · exact ⟨⟨⟨h.total_le, h.accepted, h.offered⟩, hspins⟩, le_rfl⟩
  · obtain ⟨hgood, hleft⟩ := @finish_spec c buf len s h
    exact ⟨hgood, hleft.trans (one_lt_callsFrom s 2).le⟩

/-- A round without progress costs one of the rounds that are left. -/
theorem stall_spec {s : UsbPrint} {next : PrintLoc} (h : PrintBytes buf len s)
    (hspins : Spinning c s) (hnext : next = .fullTask ∨ next = .stallTask) (rank : Nat) :
    (PrintBytes buf len (s.stall c next) ∧ PrintAt c len (s.stall c next)) ∧
      callsLeft c len (s.stall c next) < callsFrom c len s rank := by
  have hmax := c.maxSpins_lt
  have hwrap : (s.spins + 1) % 256 = s.spins + 1 := by
    rcases hspins with hlt | hzero <;> omega
  unfold UsbPrint.stall
  split
  · obtain ⟨hgood, hleft⟩ := @finish_spec c buf len s h
    exact ⟨hgood, hleft.trans_lt (one_lt_callsFrom s rank)⟩
  · dsimp only
    rw [hwrap]
    split
    · obtain ⟨hgood, hleft⟩ := @finish_spec c buf len { s with spins := s.spins + 1 }
        ⟨h.total_le, h.accepted, h.offered⟩
      exact ⟨hgood, hleft.trans_lt (one_lt_callsFrom s rank)⟩
    · next hmore =>
      have hagain : s.spins + 1 < c.maxSpins := Nat.lt_of_not_le hmore
      have hrounds : c.maxSpins + 1 - (s.spins + 1) < c.maxSpins + 1 - s.spins := by omega
      rcases hnext with rfl | rfl
      · exact ⟨⟨⟨h.total_le, h.accepted, h.offered⟩, Or.inl hagain⟩,
          Nat.add_lt_add_left (lexRank_lt_second hrounds (show 5 ≤ 6 by decide)) 2⟩
      · exact ⟨⟨⟨h.total_le, h.accepted, h.offered⟩, Or.inl hagain⟩,
          Nat.add_lt_add_left (lexRank_lt_second hrounds (show 3 ≤ 6 by decide)) 2⟩

/-- What `tud_cdc_write` accepts is the next piece of the buffer. -/
theorem write_spec (hlen : len < 2 ^ 16) {s s' : UsbPrint} {chunk n : Nat}
    (h : PrintBytes buf len s) (hchunk : s.totalWritten + chunk ≤ len) (hspins : Spinning c s)
    (hn : n ≤ chunk)
    (hstep : (let s := { s with accepted := s.accepted ++ (buf.drop s.totalWritten).take n }
      if n = 0 then some { s with loc := .stallFlush }
      else
        some ({ s with totalWritten := u16 (s.totalWritten + u16 n), spins := 0 }.loopHead len)) =
      some s') :
    (PrintBytes buf len s' ∧ PrintAt c len s') ∧ callsLeft c len s' < callsFrom c len s 1 := by
  have haccepted : s.accepted ++ (buf.drop s.totalWritten).take n =
      buf.take (s.totalWritten + n) := by
    rw [h.accepted, List.take_add]
  dsimp only at hstep
  split at hstep
  · next hzero =>
    obtain rfl := Option.some.inj hstep
    subst hzero
    exact ⟨⟨⟨h.total_le, haccepted, h.offered⟩, hspins⟩, callsFrom_lt (show 0 < 1 by decide)⟩
  · next hpos =>
    obtain rfl := Option.some.inj hstep
    have htotal : u16 (s.totalWritten + u16 n) = s.totalWritten + n := by
      unfold u16
      omega
    rw [htotal]
    obtain ⟨hgood, hnext⟩ := @loopHead_spec c buf len
      ⟨s.loc, s.totalWritten + n, 0, s.accepted ++ (buf.drop s.totalWritten).take n, s.offered⟩
      ⟨show s.totalWritten + n ≤ len by omega, haccepted, h.offered⟩ (Or.inr rfl)
    have hprogress : len - (s.totalWritten + n) < len - s.totalWritten := by omega
    exact ⟨hgood, hnext.trans_lt (Nat.add_lt_add_left
      (lexRank_lt_first hprogress (Nat.sub_le _ _) (show 2 ≤ 6 by decide)) 2)⟩

/-- Every return of a call keeps the bytes in order and brings the end nearer. -/
theorem usbPrintStep_spec (hlen : len < 2 ^ 16) {s s' : UsbPrint} {r : TusbReply}
    (hstep : usbPrintStep c buf len s r = some s') (hok : PrintContract s r s')
    (h : PrintBytes buf len s ∧ PrintAt c len s) :
    (PrintBytes buf len s' ∧ PrintAt c len s') ∧ callsLeft c len s' < callsLeft c len s := by
  obtain ⟨hbytes, hat⟩ := h
  have hsame : ∀ loc, PrintBytes buf len { s with loc } := fun _ =>
    ⟨hbytes.total_le, hbytes.accepted, hbytes.offered⟩
  unfold usbPrintStep at hstep
  split at hstep
  · -- `tud_mounted` before the loop
    next yes hloc =>
    simp only [PrintAt, hloc] at hat
    obtain rfl := Option.some.inj hstep
    rw [callsLeft_eq hloc rfl]
    cases yes with
    | false =>
      exact ⟨⟨hsame _, hat.1.symm⟩, Nat.zero_lt_of_lt (one_lt_callsFrom s 6)⟩
    | true =>
      obtain ⟨hgood, hnext⟩ := loopHead_spec hbytes hat.2
      exact ⟨hgood, hnext.trans_lt (callsFrom_lt (by decide))⟩
  · -- `tud_cdc_write_available`
    next n hloc =>
    simp only [PrintAt, hloc] at hat
    rw [callsLeft_eq hloc rfl]
    split at hstep
    · obtain rfl := Option.some.inj hstep
      exact ⟨⟨hsame _, hat⟩, callsFrom_lt (show 1 < 2 by decide)⟩
    · obtain rfl := Option.some.inj hstep
      have htotal := hbytes.total_le
      have hchunk : s.totalWritten + min (len - s.totalWritten) n ≤ len := by omega
      exact ⟨⟨⟨htotal, hbytes.accepted, offered_append hbytes.offered hchunk⟩, hchunk, hat⟩,
        callsFrom_lt (show 1 < 2 by decide)⟩
  · next hloc =>
    simp only [PrintAt, hloc] at hat
    obtain rfl := Option.some.inj hstep
    rw [callsLeft_eq hloc rfl]
    exact stall_spec hbytes hat (Or.inl rfl) 1
  · next hloc =>
    simp only [PrintAt, hloc] at hat
    obtain rfl := Option.some.inj hstep
    rw [callsLeft_eq hloc rfl]
    exact ⟨⟨hsame _, hat⟩, callsFrom_lt (show 4 < 5 by decide)⟩
  · -- `tud_mounted` after a round without progress
    next yes hloc =>
    simp only [PrintAt, hloc] at hat
    obtain rfl := Option.some.inj hstep
    rw [callsLeft_eq hloc rfl]
    cases yes with
    | false =>
      obtain ⟨hgood, hnext⟩ := @finish_spec c buf len s hbytes
      exact ⟨hgood, hnext.trans_lt (one_lt_callsFrom s 4)⟩
    | true => exact ⟨⟨hsame _, hat⟩, callsFrom_lt (show 3 < 4 by decide)⟩
  · next yes hloc =>
    simp only [PrintAt, hloc] at hat
    obtain rfl := Option.some.inj hstep
    rw [callsLeft_eq hloc rfl]
    cases yes with
    | false =>
      obtain ⟨hgood, hnext⟩ := @finish_spec c buf len s hbytes
      exact ⟨hgood, hnext.trans_lt (one_lt_callsFrom s 3)⟩
    | true =>
      obtain ⟨hgood, hnext⟩ := loopHead_spec hbytes hat
      exact ⟨hgood, hnext.trans_lt (callsFrom_lt (by decide))⟩
  · -- `tud_cdc_write`
    next chunk n hloc =>
    have hn : n ≤ chunk := by simpa [PrintContract, hloc] using hok
    simp only [PrintAt, hloc] at hat
    obtain ⟨hchunk, hspins⟩ := hat
    rw [callsLeft_eq hloc rfl]
    exact write_spec hlen hbytes hchunk hspins hn hstep
  · next hloc =>
    simp only [PrintAt, hloc] at hat
    obtain rfl := Option.some.inj hstep
    rw [callsLeft_eq hloc rfl]
    exact stall_spec hbytes hat (Or.inr rfl) 0
  · next hloc =>
    simp only [PrintAt, hloc] at hat
    obtain rfl := Option.some.inj hstep
    rw [callsLeft_eq hloc rfl]
    obtain ⟨hgood, hnext⟩ := loopHead_spec hbytes hat
    exact ⟨hgood, hnext.trans_lt (callsFrom_lt (by decide))⟩
  · next hloc =>
    have hleft : callsLeft c len s = 1 := by simp only [callsLeft, hloc]
    obtain rfl := Option.some.inj hstep
    rw [hleft]
    exact ⟨⟨hsame _, rfl⟩, Nat.one_pos⟩
  · cases hstep

/-- A call that has not returned waits for TinyUSB, which may answer. -/
theorem usbPrintStep_enabled (s : UsbPrint) :
    (∃ result, s.loc = .returned result) ∨
      ∃ r s', usbPrintStep c buf len s r = some s' ∧ PrintContract s r s' := by
  have enabled : ∀ r, (∀ n, r ≠ .accepted n) → (usbPrintStep c buf len s r).isSome = true →
      ∃ r s', usbPrintStep c buf len s r = some s' ∧ PrintContract s r s' := by
    intro r hr hsome
    obtain ⟨s', hs'⟩ := Option.isSome_iff_exists.mp hsome
    refine ⟨r, s', hs', ?_⟩
    unfold PrintContract
    split
    · next n _ => exact absurd rfl (hr n)
    · trivial
  cases hloc : s.loc with
  | mounted => exact Or.inr (enabled (.mounted true) (by simp) (by simp [usbPrintStep, hloc]))
  | available => exact Or.inr (enabled (.available 0) (by simp) (by simp [usbPrintStep, hloc]))
  | fullFlush => exact Or.inr (enabled .done (by simp) (by simp [usbPrintStep, hloc]))
  | fullTask => exact Or.inr (enabled .done (by simp) (by simp [usbPrintStep, hloc]))
  | fullMounted => exact Or.inr (enabled (.mounted true) (by simp) (by simp [usbPrintStep, hloc]))
  | fullConnected =>
    exact Or.inr (enabled (.connected true) (by simp) (by simp [usbPrintStep, hloc]))
  | write chunk =>
    refine Or.inr ⟨.accepted 0, { s with
      loc := .stallFlush
      accepted := s.accepted ++ (buf.drop s.totalWritten).take 0 }, ?_, ?_⟩
    · simp [usbPrintStep, hloc]
    · simp [PrintContract, hloc]
  | stallFlush => exact Or.inr (enabled .done (by simp) (by simp [usbPrintStep, hloc]))
  | stallTask => exact Or.inr (enabled .done (by simp) (by simp [usbPrintStep, hloc]))
  | lastFlush => exact Or.inr (enabled .done (by simp) (by simp [usbPrintStep, hloc]))
  | returned result => exact Or.inl ⟨result, rfl⟩

/-- Nothing happens after the return. -/
theorem run_of_returned {s s' : UsbPrint} {acts : List TusbReply} {result : Nat}
    (hloc : s.loc = .returned result) (run : Run (usbPrintStep c buf len) PrintContract s acts s') :
    s' = s := by
  cases run with
  | nil s => rfl
  | cons hstep hok rest => simp [usbPrintStep, hloc] at hstep

theorem usbPrintStart_spec (buf : Option (List Nat)) (len : Nat) :
    PrintBytes (buf.getD []) len (usbPrintStart buf len) ∧
      PrintAt c len (usbPrintStart buf len) := by
  unfold usbPrintStart
  split
  · exact ⟨⟨Nat.zero_le _, rfl, fun _ h => absurd h List.not_mem_nil⟩, rfl⟩
  · exact ⟨⟨Nat.zero_le _, rfl, fun _ h => absurd h List.not_mem_nil⟩, rfl, Or.inr rfl⟩

end Print

/-- How many calls of TinyUSB one call can make: in each round at most six, and at most
`maxSpins + 2` rounds for each byte. -/
def printCallBound (c : UsbLogConfig) (len : Nat) : Nat :=
  (len * (c.maxSpins + 2) + (c.maxSpins + 1)) * 7 + 8

theorem usbPrintStart_calls (c : UsbLogConfig) (buf : Option (List Nat)) (len : Nat) :
    callsLeft c len (usbPrintStart buf len) ≤ printCallBound c len := by
  unfold usbPrintStart printCallBound
  split
  · exact Nat.zero_le _
  · exact (Nat.add_comm 2 _).le

/-- Whatever TinyUSB does, a call ends: the number of its calls is bounded, and it only stops when
it returns. What is accepted is always the start of the buffer, every range that is offered lies
inside it, and the result is the number of bytes accepted. -/
theorem usbPrint_ends (c : UsbLogConfig) (buf : Option (List Nat)) (len : Nat)
    (hlen : len < 2 ^ 16) (hbuf : ∀ data, buf = some data → len ≤ data.length)
    {acts : List TusbReply} {s : UsbPrint}
    (run : Run (usbPrintStep c (buf.getD []) len) PrintContract (usbPrintStart buf len) acts s) :
    acts.length ≤ printCallBound c len ∧
      ((∃ result, s.loc = .returned result) ∨
        ∃ r s', usbPrintStep c (buf.getD []) len s r = some s' ∧ PrintContract s r s') ∧
      s.accepted <+: buf.getD [] ∧
      (∀ range ∈ s.offered, range.1 + range.2 ≤ (buf.getD []).length) ∧
      ∀ result, s.loc = .returned result → result = s.accepted.length := by
  have hroom : len ≤ (buf.getD []).length ∨ s.offered = [] ∧ s.totalWritten = 0 := by
    cases buf with
    | some data => exact Or.inl (hbuf data rfl)
    | none =>
      rw [run_of_returned rfl run]
      exact Or.inr ⟨rfl, rfl⟩
  have hspec : ∀ t a t', usbPrintStep c (buf.getD []) len t a = some t' → PrintContract t a t' →
      PrintBytes (buf.getD []) len t ∧ PrintAt c len t →
      (PrintBytes (buf.getD []) len t' ∧ PrintAt c len t') ∧
        callsLeft c len t' < callsLeft c len t :=
    fun t a t' => usbPrintStep_spec hlen
  have hstart := @usbPrintStart_spec c buf len
  obtain ⟨hbytes, hat⟩ :=
    run.invariant hstart fun t a t' hstep hok ht => (hspec t a t' hstep hok ht).1
  have hcalls := run.length_add_le hstart hspec
  have hbound := usbPrintStart_calls c buf len
  refine ⟨by omega, usbPrintStep_enabled s, ?_, ?_, ?_⟩
  · rw [hbytes.accepted]
    exact List.take_prefix _ _
  · intro range hrange
    rcases hroom with hle | hnone
    · exact (hbytes.offered range hrange).trans hle
    · rw [hnone.1] at hrange
      exact absurd hrange List.not_mem_nil
  · intro result hloc
    have htotal := hbytes.total_le
    simp only [PrintAt, hloc] at hat
    rw [hat, hbytes.accepted, List.length_take]
    omega

/-- A call that is cut off: the device takes two of four bytes, and then the terminal is closed. -/
theorem usbPrint_ends_closed :
    let c : UsbLogConfig := ⟨false, 4, by decide⟩
    ∃ s : UsbPrint, s.loc = .returned 2 ∧ 9 ≤ printCallBound c 4 ∧
      ((∃ result, s.loc = .returned result) ∨
        ∃ r s', usbPrintStep c [7, 8, 9, 10] 4 s r = some s' ∧ PrintContract s r s') ∧
      s.accepted <+: [7, 8, 9, 10] ∧
      (∀ range ∈ s.offered, range.1 + range.2 ≤ [7, 8, 9, 10].length) ∧
      ∀ result, s.loc = .returned result → result = s.accepted.length := by
  intro c
  have hrun : ∃ s, Run (usbPrintStep c [7, 8, 9, 10] 4) PrintContract
      (usbPrintStart (some [7, 8, 9, 10]) 4)
      [.mounted true, .available 3, .accepted 2, .available 0, .done, .done, .mounted true,
        .connected false, .done] s ∧ s.loc = .returned 2 :=
    exists_run_of_follow (fun s : UsbPrint => s.loc = .returned 2) (by decide +kernel)
  obtain ⟨s, run, hloc⟩ := hrun
  exact ⟨s, hloc, usbPrint_ends c (some [7, 8, 9, 10]) 4 (by decide)
    (fun data h => Option.some.inj h ▸ le_rfl) run⟩

/-! ## The MCUboot serial backend -/

/-- The call of `tlk_usb_tx_flush_now` that returns next. -/
inductive FlushLoc
  | task
  | available
  | write (chunk : Nat)
  | flush
  deriving DecidableEq, Repr

/-- The statement of `tlk_boot_usb_write` behind a flush: the store of a byte, or the loop head;
`todo` are the bytes of the call that the loop has not reached. -/
inductive FlushReturn
  | store (byte : Nat) (todo : List Nat)
  | head (todo : List Nat)
  deriving DecidableEq, Repr

/-- The statement of `tlk_boot_usb_write` that runs next, or the flush in progress with its `buf`,
as an index, and its `remaining`. -/
inductive BootTxLoc
  | idle
  | head (todo : List Nat)
  | store (byte : Nat) (todo : List Nat)
  | flushing (loc : FlushLoc) (pos remaining : Nat) (back : FlushReturn)
  deriving DecidableEq, Repr

/-- `tlk_usb_tx_buf` and `tlk_usb_tx_len`. The last three fields are history: all bytes that calls
were made with, the bytes accepted, and the ranges of the buffer that were offered. -/
structure BootTx where
  txBuf : CharBuf 256
  txLen : Nat
  loc : BootTxLoc
  written : List Nat
  accepted : List Nat
  offered : List (Nat × Nat)

/-- A call with `cnt` bytes at `ptr`, the next statement of the call, or an answer of TinyUSB. -/
inductive BootTxAction
  | call (ptr : List Nat) (cnt : Int)
  | step
  | tusb (r : TusbReply)

def FlushReturn.loc : FlushReturn → BootTxLoc
  | store byte todo => .store byte todo
  | head todo => .head todo

def FlushReturn.todo : FlushReturn → List Nat
  | store byte todo => byte :: todo
  | head todo => todo

namespace BootTx

def start : BootTx := ⟨CharBuf.zeros 256, 0, .idle, [], [], []⟩

/-- The condition of the flushing loop; behind the loop the buffer is empty. -/
def flushHead (pos remaining : Nat) (back : FlushReturn) (s : BootTx) : BootTx :=
  if 0 < remaining then { s with loc := .flushing .task pos remaining back }
  else { s with txLen := 0, loc := back.loc }

/-- `tlk_usb_tx_flush_now` -/
def flushNow (back : FlushReturn) (s : BootTx) : BootTx := s.flushHead 0 s.txLen back

/-- The bytes in the buffer. -/
def staged (s : BootTx) : List Nat := s.txBuf.contents.take s.txLen

end BootTx

/-- `tlk_boot_usb_write` and `tlk_usb_tx_flush_now`, one statement or call of TinyUSB at a time. -/
def bootTxStep (s : BootTx) (a : BootTxAction) : Option BootTx :=
  match s.loc, a with
  | .idle, .call ptr cnt =>
    let todo := ptr.take cnt.toNat
    some { s with loc := .head todo, written := s.written ++ todo }
  | .head [], .step => some { s with loc := .idle }
  | .head (byte :: todo), .step =>
    some (if 256 ≤ s.txLen then s.flushNow (.store byte todo)
      else { s with loc := .store byte todo })
  | .store byte todo, .step =>
    let s := { s with txBuf := s.txBuf.store s.txLen byte, txLen := u32 (s.txLen + 1) }
    some (if byte = 10 then s.flushNow (.head todo) else { s with loc := .head todo })
  | .flushing .task pos remaining back, .tusb .done =>
    some { s with loc := .flushing .available pos remaining back }
  | .flushing .available pos remaining back, .tusb (.available n) =>
    some (if n = 0 then s.flushHead pos remaining back
      else
        let chunk := min remaining n
        { s with
          loc := .flushing (.write chunk) pos remaining back
          offered := s.offered ++ [(pos, chunk)] })
  | .flushing (.write _) pos remaining back, .tusb (.accepted n) =>
    some { s with
      loc := .flushing .flush (pos + n) (u32 (remaining + 2 ^ 32 - n)) back
      accepted := s.accepted ++ (s.txBuf.contents.drop pos).take n }
  | .flushing .flush pos remaining back, .tusb .done => some (s.flushHead pos remaining back)
  | _, _ => none

/-- A call is made with the bytes it promises, and `tud_cdc_write` accepts no more than it is
offered. -/
def BootTxContract (s : BootTx) (a : BootTxAction) (_ : BootTx) : Prop :=
  match s.loc, a with
  | .idle, .call ptr cnt => cnt ≤ ptr.length
  | .flushing (.write chunk) _ _ _, .tusb (.accepted n) => n ≤ chunk
  | _, _ => True

instance (s s' : BootTx) (a : BootTxAction) : Decidable (BootTxContract s a s') := by
  unfold BootTxContract
  split <;> infer_instance

section BootTx

/-- Every byte that was written is accepted, staged or still to come, in this order. -/
def BootTxAt (s : BootTx) : Prop :=
  match s.loc with
  | .idle => s.written = s.accepted ++ s.staged ∧ 10 ∉ s.staged
  | .head todo => s.written = s.accepted ++ (s.staged ++ todo) ∧ 10 ∉ s.staged
  | .store byte todo =>
    s.written = s.accepted ++ (s.staged ++ byte :: todo) ∧ 10 ∉ s.staged ∧ s.txLen < 256
  | .flushing loc pos remaining back =>
    s.written = s.accepted ++ (s.staged.drop pos ++ back.todo) ∧ pos + remaining = s.txLen ∧
      ∀ chunk, loc = .write chunk → chunk ≤ remaining

/-- The buffer is only used inside its size. -/
structure BootTxBounds (s : BootTx) : Prop where
  inside : s.txBuf.inside = true
  len_le : s.txLen ≤ 256
  offered : ∀ range ∈ s.offered, range.1 + range.2 ≤ 256

/-- The loop of the flush goes on with what is left, or leaves an empty buffer. -/
theorem flushHead_spec {s : BootTx} {pos remaining : Nat} {back : FlushReturn}
    (h : BootTxBounds s) (hpos : pos + remaining = s.txLen)
    (hwritten : s.written = s.accepted ++ (s.staged.drop pos ++ back.todo)) :
    BootTxBounds (s.flushHead pos remaining back) ∧ BootTxAt (s.flushHead pos remaining back) := by
  unfold BootTx.flushHead
  split
  · exact ⟨⟨h.inside, h.len_le, h.offered⟩, hwritten, hpos, fun chunk hchunk => by cases hchunk⟩
  · next hempty =>
    have hend : s.staged.drop pos = [] := by
      apply List.drop_eq_nil_of_le
      rw [BootTx.staged, List.length_take]
      omega
    rw [hend, List.nil_append] at hwritten
    refine ⟨⟨h.inside, Nat.zero_le _, h.offered⟩, ?_⟩
    cases back with
    | store byte todo => exact ⟨hwritten, List.not_mem_nil, show 0 < 256 by decide⟩
    | head todo => exact ⟨hwritten, List.not_mem_nil⟩

/-- A byte is staged behind the others. -/
theorem staged_store {s : BootTx} (hlen : s.txLen < 256) (byte : Nat) :
    (s.txBuf.store s.txLen byte).contents.take (s.txLen + 1) = s.staged ++ [byte] := by
  have hroom : s.txLen + [byte].length ≤ 256 := hlen
  exact CharBuf.storeAll_take s.txBuf hroom (le_refl 1)

/-- The store of one byte: a newline empties the buffer, another byte stays in it. -/
theorem store_spec {s : BootTx} {byte : Nat} {todo : List Nat} (h : BootTxBounds s)
    (hwritten : s.written = s.accepted ++ (s.staged ++ byte :: todo)) (hlines : 10 ∉ s.staged)
    (hroom : s.txLen < 256) :
    let t := { s with txBuf := s.txBuf.store s.txLen byte, txLen := u32 (s.txLen + 1) }
    let s' := if byte = 10 then t.flushNow (.head todo) else { t with loc := .head todo }
    BootTxBounds s' ∧ BootTxAt s' := by
  intro t s'
  have hlen : u32 (s.txLen + 1) = s.txLen + 1 := u32_of_lt (by omega)
  have hstaged : t.staged = s.staged ++ [byte] := by
    rw [← staged_store hroom byte, ← hlen]
    rfl
  have hbounds : BootTxBounds t := by
    refine ⟨(CharBuf.store_inside_iff _ _ _).mpr ⟨h.inside, by omega, by omega⟩, ?_, h.offered⟩
    show u32 (s.txLen + 1) ≤ 256
    omega
  have hbytes : t.written = t.accepted ++ (t.staged ++ todo) := by
    rw [hstaged, List.append_assoc]
    exact hwritten
  by_cases hnewline : byte = 10
  · have hs' : s' = t.flushHead 0 t.txLen (.head todo) := if_pos hnewline
    rw [hs']
    exact flushHead_spec hbounds (Nat.zero_add _) hbytes
  · have hs' : s' = { t with loc := .head todo } := if_neg hnewline
    rw [hs']
    refine ⟨⟨hbounds.inside, hbounds.len_le, hbounds.offered⟩, hbytes, ?_⟩
    show 10 ∉ t.staged
    rw [hstaged, List.mem_append, List.mem_singleton]
    intro hmem
    rcases hmem with hold | hnew
    · exact hlines hold
    · exact hnewline hnew.symm

/-- What `tud_cdc_write` accepts is the next piece of the staged bytes. -/
theorem accept_spec {s : BootTx} {pos remaining n : Nat} {back : FlushReturn} (h : BootTxBounds s)
    (hwritten : s.written = s.accepted ++ (s.staged.drop pos ++ back.todo))
    (hpos : pos + remaining = s.txLen) (hn : n ≤ remaining) :
    let s' := { s with
      loc := .flushing .flush (pos + n) (u32 (remaining + 2 ^ 32 - n)) back
      accepted := s.accepted ++ (s.txBuf.contents.drop pos).take n }
    BootTxBounds s' ∧ BootTxAt s' := by
  intro s'
  have hlen := h.len_le
  have hleft : u32 (remaining + 2 ^ 32 - n) = remaining - n := by
    unfold u32
    omega
  have hpiece : (s.txBuf.contents.drop pos).take n = (s.staged.drop pos).take n := by
    rw [BootTx.staged, List.drop_take, List.take_take, Nat.min_eq_left (by omega)]
  refine ⟨⟨h.inside, hlen, h.offered⟩, ?_, ?_, fun chunk hchunk => by cases hchunk⟩
  · show s.written = s.accepted ++ (s.txBuf.contents.drop pos).take n ++
      (s.staged.drop (pos + n) ++ back.todo)
    rw [hpiece, ← List.drop_drop, List.append_assoc, ← List.append_assoc (List.take n _),
      List.take_append_drop]
    exact hwritten
  · show pos + n + u32 (remaining + 2 ^ 32 - n) = s.txLen
    omega

theorem bootTxStep_spec {s s' : BootTx} {a : BootTxAction} (hstep : bootTxStep s a = some s')
    (hok : BootTxContract s a s') (h : BootTxBounds s ∧ BootTxAt s) :
    BootTxBounds s' ∧ BootTxAt s' := by
  obtain ⟨hbounds, hat⟩ := h
  have hsame : ∀ loc, BootTxBounds { s with loc } := fun _ =>
    ⟨hbounds.inside, hbounds.len_le, hbounds.offered⟩
  unfold bootTxStep at hstep
  split at hstep
  · next ptr cnt hloc =>
    simp only [BootTxAt, hloc] at hat
    obtain rfl := Option.some.inj hstep
    refine ⟨⟨hbounds.inside, hbounds.len_le, hbounds.offered⟩, ?_, hat.2⟩
    rw [hat.1, List.append_assoc]
    rfl
  · next hloc =>
    simp only [BootTxAt, hloc] at hat
    obtain rfl := Option.some.inj hstep
    rw [List.append_nil] at hat
    exact ⟨hsame _, hat⟩
  · -- the test for a full buffer
    next byte todo hloc =>
    simp only [BootTxAt, hloc] at hat
    obtain rfl := Option.some.inj hstep
    split
    · exact flushHead_spec hbounds (Nat.zero_add _) hat.1
    · next hroom => exact ⟨hsame _, hat.1, hat.2, Nat.lt_of_not_le hroom⟩
  · -- the store, and the test for a newline
    next byte todo hloc =>
    simp only [BootTxAt, hloc] at hat
    obtain ⟨hwritten, hlines, hroom⟩ := hat
    obtain rfl := Option.some.inj hstep
    exact store_spec hbounds hwritten hlines hroom
  · next pos remaining back hloc =>
    simp only [BootTxAt, hloc] at hat
    obtain rfl := Option.some.inj hstep
    exact ⟨hsame _, hat.1, hat.2.1, fun chunk hchunk => by cases hchunk⟩
  · -- `tud_cdc_write_available`
    next pos remaining back n hloc =>
    simp only [BootTxAt, hloc] at hat
    obtain rfl := Option.some.inj hstep
    split
    · exact flushHead_spec hbounds hat.2.1 hat.1
    · have hlen := hbounds.len_le
      have hpos := hat.2.1
      have hrange : pos + min remaining n ≤ 256 := by omega
      refine ⟨⟨hbounds.inside, hlen, offered_append hbounds.offered hrange⟩, hat.1, hpos,
        fun chunk hchunk => ?_⟩
      obtain rfl := FlushLoc.write.inj hchunk
      exact Nat.min_le_left _ _
  · -- `tud_cdc_write`
    next chunk pos remaining back n hloc =>
    have hn : n ≤ chunk := by simpa [BootTxContract, hloc] using hok
    simp only [BootTxAt, hloc] at hat
    obtain ⟨hwritten, hpos, hchunk⟩ := hat
    obtain rfl := Option.some.inj hstep
    exact accept_spec hbounds hwritten hpos (hn.trans (hchunk chunk rfl))
  · next pos remaining back hloc =>
    simp only [BootTxAt, hloc] at hat
    obtain rfl := Option.some.inj hstep
    exact flushHead_spec hbounds hat.2.1 hat.1
  · cases hstep

/-- Where the call is, the bytes accepted are the first of those written. -/
theorem accepted_first {s : BootTx} (h : BootTxAt s) : s.accepted <+: s.written := by
  unfold BootTxAt at h
  split at h
  · exact ⟨_, h.1.symm⟩
  · exact ⟨_, h.1.symm⟩
  · exact ⟨_, h.1.symm⟩
  · exact ⟨_, h.1.symm⟩

end BootTx

/-- Over every sequence of calls and every schedule of TinyUSB: what is accepted is the start of
what was written, the staging buffer is only used inside its size, and after each call the bytes
that are not accepted are at most a full buffer without a newline. -/
theorem bootTx_in_order {acts : List BootTxAction} {s : BootTx}
    (run : Run bootTxStep BootTxContract BootTx.start acts s) :
    s.accepted <+: s.written ∧ s.txBuf.inside = true ∧
      (∀ range ∈ s.offered, range.1 + range.2 ≤ 256) ∧
      (s.loc = .idle → (s.written.drop s.accepted.length).length ≤ 256 ∧
        10 ∉ s.written.drop s.accepted.length) := by
  have hstart : BootTxBounds BootTx.start ∧ BootTxAt BootTx.start :=
    ⟨⟨rfl, Nat.zero_le _, fun _ h => absurd h List.not_mem_nil⟩, rfl, List.not_mem_nil⟩
  obtain ⟨hbounds, hat⟩ := run.invariant hstart fun t a t' => bootTxStep_spec
  refine ⟨accepted_first hat, hbounds.inside, hbounds.offered, fun hidle => ?_⟩
  simp only [BootTxAt, hidle] at hat
  have hrest : s.written.drop s.accepted.length = s.staged := by rw [hat.1, List.drop_left]
  rw [hrest]
  refine ⟨?_, hat.2⟩
  have hlen := hbounds.len_le
  rw [BootTx.staged, List.length_take]
  omega

/-- Two calls, a newline in the first of them, and a device that takes two bytes at a time. -/
theorem bootTx_in_order_example : ∃ s : BootTx, s.written = [65, 66, 10, 67] ∧
    s.accepted = [65, 66, 10] ∧ s.loc = .idle ∧ s.accepted <+: s.written ∧
    s.txBuf.inside = true ∧ (∀ range ∈ s.offered, range.1 + range.2 ≤ 256) ∧
    (s.loc = .idle → (s.written.drop s.accepted.length).length ≤ 256 ∧
      10 ∉ s.written.drop s.accepted.length) := by
  have hrun : ∃ s : BootTx, Run bootTxStep BootTxContract BootTx.start
      [.call [65, 66, 10, 67] 3, .step, .step, .step, .step, .step, .step, .tusb .done,
        .tusb (.available 0), .tusb .done, .tusb (.available 2), .tusb (.accepted 2), .tusb .done,
        .tusb .done, .tusb (.available 2), .tusb (.accepted 1), .tusb .done, .step,
        .call [67] 1, .step, .step, .step] s ∧
      (s.written = [65, 66, 10, 67] ∧ s.accepted = [65, 66, 10] ∧ s.loc = .idle) :=
    exists_run_of_follow
      (fun s : BootTx => s.written = [65, 66, 10, 67] ∧ s.accepted = [65, 66, 10] ∧ s.loc = .idle)
      (by decide +kernel)
  obtain ⟨s, run, hwritten, haccepted, hloc⟩ := hrun
  exact ⟨s, hwritten, haccepted, hloc, bootTx_in_order run⟩

end UniSdk.Usb

import UniSdk.Library.CharBuffers
import UniSdk.Log.EventQueue
import UniSdk.Log.Timestamp

/-!
# Log lines and their buffers

The formatting of `tlk_debug_log_queue`, `tlk_debug_log_blocking` and of the branch of
`tlk_debug_log_pump` for events of handlers. All three keep the length that `snprintf` reports, which
is the one of the whole output. The first two cut the text of a long line but not its length, and
the last one does neither.
-/

namespace UniSdk.Log

open Library.Words Library.CharBuffers Library.CharBuffers.CharBuf

/-- `CONFIG_TLK_DEBUG_LOG_BUFFER_SIZE`, the size of an object of C, and whether
`CONFIG_TLK_DEBUG_LOG_COLOR` is enabled. -/
structure LogFormatConfig where
  size : Nat
  size_lt : size < 2 ^ 31
  color : Bool

/-! ## Texts -/

/-- `COL_... text COL_RESET`. -/
def colored (c : LogFormatConfig) (col text : String) : String :=
  if c.color then col ++ text ++ "\x1b[0m" else text

def tlkDebugLogLevelStrGet (c : LogFormatConfig) : LogLevel → String
  | .error => colored c "\x1b[31m" "ERR"
  | .warn => colored c "\x1b[33m" "WARN"
  | .info => colored c "\x1b[32m" "INFO"
  | .debug => colored c "\x1b[36m" "DBG"
  | .none => "LOG"

/-- `[%05lu.%03u.%03u]`. -/
def stampText (s : LogStamp) : List Nat :=
  cString "[" ++ padded 5 s.seconds ++ cString "." ++ padded 3 s.millis ++ cString "." ++
    padded 3 s.micros ++ cString "]"

/-- `[%05lu.%03u.%03u]: [%s]: [%s]: `. -/
@[irreducible] def lineHead (c : LogFormatConfig) (s : LogStamp) (moduleName : String) (level : LogLevel) :
    List Nat :=
  stampText s ++ cString ": [" ++ cString moduleName ++ cString "]: [" ++
    cString (tlkDebugLogLevelStrGet c level) ++ cString "]: "

/-- `[%05lu.%03u.%03u]: [IRQ]: [%s]: [%s]: %s`. -/
@[irreducible] def irqLine (c : LogFormatConfig) (e : LogEvent) : List Nat :=
  stampText (pumpStamp e.tsUs) ++ cString ": [IRQ]: [" ++ cString e.moduleName ++ cString "]: [" ++
    cString (tlkDebugLogLevelStrGet c e.level) ++ cString "]: " ++ cString e.msg

/-! ## The functions -/

section Functions

variable (c : LogFormatConfig)

/-- CR, LF and NUL. -/
def endLine {n : Nat} (b : CharBuf n) (cr lf nul : Int) : CharBuf n :=
  ((b.store cr 13).store lf 10).store nul 0

/-- `log` and `msg` may be null pointers. -/
def tlkDebugLogIsr (tsUs : Nat) (log : Option String) (level : LogLevel) (msg : Option String) :
    LogEvent where
  tsUs := tsUs
  moduleName := log.getD "?"
  level := level
  isLiteral := true
  msg := msg.getD ""
  msgLen := u16 (cString (msg.getD "")).length
  msgBuf := List.replicate c.size 0

/-- The end of a line in `tlk_debug_log_queue`, and `msg_len`. Indices and `size` are 16 bits wide,
`sizeof` is unsigned. -/
def queueEnd (b : CharBuf c.size) (size : Int) : CharBuf c.size × Nat :=
  if uint16 size < uint32 (c.size - 2) then
    let lf := int16 (size + 1)
    let nul := int16 (lf + 1)
    (endLine b size lf nul, uint16 nul)
  else
    (endLine b (uint32 (c.size - 3)) (uint32 (c.size - 2)) (uint32 (c.size - 1)), uint16 size)

/-- `e.msg_buf` of `tlk_debug_log_queue` for a head and what `fmt` and its arguments print, and
`msg_len` unless the function returns before. -/
def queueFormat (head message : List Nat) : CharBuf c.size × Option Nat :=
  let line := (zeros c.size).snprintf 0 c.size head
  let off := int16 line.2
  if off < 0 then (line.1, none)
  else
    let line := line.1.snprintf off (uint32 (c.size - off)) message
    let size := int16 (off + line.2)
    if size < 0 then (line.1, none)
    else ((queueEnd c line.1 size).1, some (queueEnd c line.1 size).2)

/-- `e.msg_buf` and the event that is pushed. No consumer reads the `msg` of such an event. -/
def tlkDebugLogQueue (inIsr : Bool) (tsUs : Nat) (log : Option String) (level : LogLevel)
    (message : List Nat) : CharBuf c.size × Option LogEvent :=
  if inIsr then
    (zeros c.size,
      some (tlkDebugLogIsr c tsUs log level (some "tlk_log called from ISR (use tlk_log_isr)")))
  else
    let moduleName := log.getD "?"
    let line := queueFormat c (lineHead c (queueStamp tsUs) moduleName level) message
    (line.1, line.2.map fun size =>
      { tsUs := tsUs
        moduleName := moduleName
        level := level
        isLiteral := false
        msg := ""
        msgLen := size
        msgBuf := line.1.contents })

/-- The end of a line in `tlk_debug_log_blocking`, and `size`. -/
def blockingEnd (b : CharBuf c.size) (size : Int) : CharBuf c.size × Int :=
  if size < c.size - 2 then
    let lf := int32 (size + 1)
    let nul := int32 (lf + 1)
    (endLine b size lf nul, nul)
  else (endLine b (c.size - 3) (c.size - 2) (c.size - 1), size)

/-- The static `tlk_log_buffer` of `tlk_debug_log_blocking`, which holds `old` before, for a head and
what `fmt` and its arguments print, and the length that is sent. -/
def blockingFormat (old : Vector Nat c.size) (head message : List Nat) :
    CharBuf c.size × Option Nat :=
  let line := (CharBuf.mk old true).snprintf 0 c.size head
  let off := line.2
  if off < 0 ∨ c.size ≤ off then (line.1, none)
  else
    let line := line.1.snprintf off (uint32 (c.size - off)) message
    let line := blockingEnd c line.1 (int32 (line.2 + off))
    (line.1, if 0 < line.2 then some (uint32 line.2) else none)

def tlkDebugLogBlocking (old : Vector Nat c.size) (timestamp : Nat) (log : Option String)
    (level : LogLevel) (message : List Nat) : CharBuf c.size × Option Nat :=
  blockingFormat c old (lineHead c (blockingStamp timestamp) (log.getD "?") level) message

/-- The branch of `tlk_debug_log_pump` for literal events: the static `tlk_log_buffer`, which holds
`old` before, and the length that is sent. -/
def pumpLiteral (old : Vector Nat c.size) (e : LogEvent) : CharBuf c.size × Nat :=
  let line := (CharBuf.mk old true).snprintf 0 c.size (irqLine c e)
  (line.1, uint32 (int16 line.2))

end Functions

/-! ## Lines in a buffer -/

/-- The text, cut to what the buffer holds besides CR, LF and NUL, and CR LF. -/
def logLine (n : Nat) (text : List Nat) : List Nat := text.take (n - 3) ++ [13, 10]

/-- No store left the buffer, and `len` bytes of it are the line. -/
def Sends {n : Nat} (text : List Nat) (b : CharBuf n) (len : Nat) : Prop :=
  b.inside = true ∧ len ≤ n ∧ b.contents.take len = logLine n text

/-- What the characters at the front of the buffer are, up to the length `s`. -/
def Front {n : Nat} (b : CharBuf n) (written : List Nat) (s : Nat) : Prop :=
  s ≤ written.length ∧ ∀ k, k + 1 ≤ n → k ≤ s → b.contents.take k = written.take k

/-- With `size` for the length of the line, where `written` are the characters at the front of the
buffer: all of it and its end fit, or it ends with the last index. -/
def LineFits (n : Nat) (written text : List Nat) (size : Nat) : Prop :=
  3 ≤ n ∧
    (size + 2 < n ∧ (size = text.length ∨ size + 3 = n) ∧ written.take size = text.take size ∨
      size + 1 = n ∧ written.take (n - 3) = text.take (n - 3))

section Lines

variable {n : Nat} {b : CharBuf n} {written text : List Nat} {s : Nat}

theorem endLine_inside_iff (b : CharBuf n) (cr lf nul : Int) :
    (endLine b cr lf nul).inside = true ↔
      b.inside = true ∧ (0 ≤ cr ∧ cr + 1 ≤ n) ∧ (0 ≤ lf ∧ lf + 1 ≤ n) ∧ 0 ≤ nul ∧ nul + 1 ≤ n := by
  simp only [endLine, CharBuf.store_inside_iff, and_assoc]

theorem endLine_eq (b : CharBuf n) {i j k : Int} (hj : j = i + 1) (hk : k = i + 2) :
    endLine b i j k = b.storeAll i [13, 10, 0] := by
  subst hj hk
  simp only [endLine, CharBuf.storeAll, add_assoc]
  norm_num

/-- A short line is ended behind its last character. -/
theorem short_line_iff (hb : b.inside = true) (hs : s ≤ text.length) (hfront : Front b written s) :
    Sends text (endLine b s (s + 1) (s + 2)) (s + 2) ↔
      s + 2 < n ∧ (s = text.length ∨ s + 3 = n) ∧ written.take s = text.take s := by
  obtain ⟨hw, hbytes⟩ := hfront
  rw [endLine_eq b rfl rfl, Sends,
    CharBuf.storeAll_inside_iff (List.cons_ne_nil 13 [10, 0])]
  by_cases hin : s + 2 < n
  · have hline : (b.storeAll s [13, 10, 0]).contents.take (s + 2) = written.take s ++ [13, 10] := by
      rw [CharBuf.storeAll_take b (show s + [13, 10, 0].length ≤ n from hin) (by decide),
        hbytes s (by omega) le_rfl]
      rfl
    have hcut (h : s = text.length ∨ s + 3 = n) : text.take (n - 3) = text.take s := by
      rcases h with hall | hcut
      · rw [List.take_of_length_le (by omega), List.take_of_length_le (by omega)]
      · rw [show n - 3 = s by omega]
    rw [hline, logLine, List.append_left_inj]
    constructor
    · rintro ⟨-, -, he⟩
      have hlen := congrArg List.length he
      rw [List.length_take_of_le hw, List.length_take] at hlen
      have hend : s = text.length ∨ s + 3 = n := by omega
      exact ⟨hin, hend, he.trans (hcut hend)⟩
    · rintro ⟨-, hend, he⟩
      refine ⟨⟨hb, by omega, ?_⟩, by omega, he.trans (hcut hend).symm⟩
      simp only [List.length_cons, List.length_nil]
      omega
  · simp only [hin, false_and, iff_false]
    rintro ⟨⟨-, -, hle⟩, -⟩
    simp only [List.length_cons, List.length_nil] at hle
    omega

/-- A long line is cut and ended at the last three indices, and one byte of its length can be
right. -/
theorem cut_line_iff (hb : b.inside = true) (hn : 3 ≤ n) (hlong : n ≤ s + 2)
    (hs : s ≤ text.length) (hfront : Front b written s) :
    Sends text (endLine b (n - 3 : Nat) (n - 2 : Nat) (n - 1 : Nat)) s ↔
      s + 1 = n ∧ written.take (n - 3) = text.take (n - 3) := by
  obtain ⟨hw, hbytes⟩ := hfront
  have hstores : n - 3 + [13, 10, 0].length ≤ n := by
    simp only [List.length_cons, List.length_nil]
    omega
  rw [endLine_eq b (by omega) (by omega), Sends, logLine]
  have hinside := CharBuf.storeAll_inside hb hstores
  have hfront : b.contents.take (n - 3) = written.take (n - 3) := hbytes _ (by omega) (by omega)
  have hline (j : Nat) (hj : j ≤ 3) :
      (b.storeAll (n - 3 : Nat) [13, 10, 0]).contents.take (n - 3 + j) =
        written.take (n - 3) ++ [13, 10, 0].take j := by
    rw [CharBuf.storeAll_take b hstores hj, hfront]
  constructor
  · rintro ⟨-, hsn, he⟩
    obtain ⟨j, rfl⟩ : ∃ j, s = n - 3 + j := ⟨s - (n - 3), by omega⟩
    have hlen := congrArg List.length he
    rw [hline j (by omega)] at he hlen
    simp only [List.length_append, List.length_take, List.length_cons, List.length_nil] at hlen
    obtain rfl : j = 2 := by omega
    exact ⟨by omega, List.append_left_injective _ he⟩
  · rintro ⟨hsn, he⟩
    obtain rfl : s = n - 3 + 2 := by omega
    exact ⟨hinside, by omega, by rw [hline 2 (by decide), he]; rfl⟩

theorem lineFits_of_short (h : s + 2 < n) :
    LineFits n written text s ↔
      s + 2 < n ∧ (s = text.length ∨ s + 3 = n) ∧ written.take s = text.take s := by
  refine ⟨?_, fun hfits => ⟨by omega, .inl hfits⟩⟩
  rintro ⟨-, hfits | hlast⟩
  · exact hfits
  · exact absurd hlast.1 (by omega)

theorem lineFits_of_long (hn : 3 ≤ n) (h : n ≤ s + 2) :
    LineFits n written text s ↔ s + 1 = n ∧ written.take (n - 3) = text.take (n - 3) := by
  refine ⟨?_, fun hfits => ⟨hn, .inr hfits⟩⟩
  rintro ⟨-, hshort | hfits⟩
  · exact absurd hshort.1 (by omega)
  · exact hfits

end Lines

/-! ## The ends of the two functions -/

section Ends

variable {c : LogFormatConfig} {b : CharBuf c.size} {written text : List Nat} {s : Nat}

theorem inside_of_queueEnd {size : Int} (h : (queueEnd c b size).1.inside = true) :
    b.inside = true := by
  unfold queueEnd at h
  split at h <;> exact ((endLine_inside_iff ..).mp h).1

/-- The indices behind a short line, as 16 bits keep them. -/
theorem narrow_indices (h : s + 2 < 2 ^ 15) :
    int16 ((s : Int) + 1) = s + 1 ∧ int16 ((s : Int) + 1 + 1) = s + 2 ∧
      uint16 ((s : Int) + 2) = s + 2 :=
  ⟨int16_of_lt (by omega) (by omega), int16_of_lt (by omega) (by omega),
    uint16_natCast (n := s + 2) (by omega)⟩

/-- A buffer that is too small for the end of a line has no index for it. -/
theorem queueEnd_outside_of_small (h : c.size < 3) (hsize : s < 2 ^ 15) :
    (queueEnd c b s).1.inside ≠ true := by
  unfold queueEnd
  split <;> rw [Ne, endLine_inside_iff]
  · rintro ⟨-, ⟨-, hcr⟩, -, -, hnul⟩
    have hlf : int16 ((s : Int) + 1) = s + 1 := int16_of_lt (by omega) (by omega)
    rw [hlf, int16_of_lt (by omega) (by omega)] at hnul
    omega
  · rintro ⟨-, ⟨-, hcr⟩, -⟩
    unfold uint32 at hcr
    omega

/-- The index of the NUL is negative where it does not fit into 16 bits, or the one of LF is. -/
theorem endLine_outside_of_wide (hwide : 2 ^ 15 ≤ s + 2) (hsize : s < 2 ^ 15) :
    (endLine b s (int16 (s + 1)) (int16 (int16 (s + 1) + 1))).inside ≠ true := by
  rw [Ne, endLine_inside_iff]
  rintro ⟨-, -, ⟨hlf, -⟩, hnul, -⟩
  by_cases hlast : s + 1 < 2 ^ 15
  · have hexact : int16 ((s : Int) + 1) = s + 1 := int16_of_lt (by omega) (by omega)
    rw [hexact] at hnul
    unfold int16 at hnul
    omega
  · unfold int16 at hlf
    omega

/-- Three indices of 16 bits, or the last three of the buffer. -/
theorem queueEnd_sends_iff (hb : b.inside = true) (hs : s ≤ text.length)
    (hfront : Front b written s) (hsize : s < 2 ^ 15) :
    Sends text (queueEnd c b s).1 (queueEnd c b s).2 ↔
      (s + 2 < c.size → s + 2 < 2 ^ 15) ∧ LineFits c.size written text s := by
  have hn := c.size_lt
  have hword : uint16 (s : Int) = s := uint16_natCast (by omega)
  rcases Nat.lt_or_ge c.size 3 with hsmall | hthree
  · exact ⟨fun h => absurd h.1 (queueEnd_outside_of_small hsmall hsize),
      fun h => absurd h.2.1 (by omega)⟩
  have hlast (k : Nat) (hk : k ≤ 3) : uint32 ((c.size : Int) - k) = c.size - k := by
    unfold uint32
    omega
  have h1 := hlast 1 (by decide)
  have h2 := hlast 2 (by decide)
  have h3 := hlast 3 (by decide)
  push_cast at h1 h2 h3
  unfold queueEnd
  rw [hword, h1, h2, h3]
  by_cases hshort : s < c.size - 2
  · rw [if_pos hshort, lineFits_of_short (by omega)]
    by_cases hnarrow : s + 2 < 2 ^ 15
    · obtain ⟨hlf, hnul, hlen⟩ := narrow_indices hnarrow
      simp only [hlf, hnul, hlen]
      rw [short_line_iff hb hs hfront]
      exact ⟨fun h => ⟨fun _ => hnarrow, h⟩, fun h => h.2⟩
    · have hwide : 2 ^ 15 ≤ s + 2 := by omega
      have hout := endLine_outside_of_wide (b := b) hwide hsize
      exact ⟨fun h => absurd h.1 hout, fun h => absurd (h.1 (by omega)) hnarrow⟩
  · rw [if_neg hshort, lineFits_of_long hthree (by omega)]
    rw [cut_line_iff hb hthree (by omega) hs hfront]
    exact ⟨fun h => ⟨by omega, h⟩, fun h => h.2⟩

/-- A negative length is the index of the first store. -/
theorem blockingEnd_outside {size : Int} (h : size < 0) :
    (blockingEnd c b size).1.inside ≠ true := by
  unfold blockingEnd
  split <;> rw [Ne, endLine_inside_iff] <;> omega

/-- A buffer that is too small for the end of a line has no index for it. -/
theorem blockingEnd_outside_of_small (h : c.size < 3) :
    (blockingEnd c b s).1.inside ≠ true := by
  rw [blockingEnd, if_neg (by omega), Ne, endLine_inside_iff]
  omega

theorem blockingEnd_pos (hthree : 3 ≤ c.size) (hsize : s < 2 ^ 31) :
    0 < (blockingEnd c b s).2 := by
  have hn := c.size_lt
  unfold blockingEnd
  split
  · dsimp only
    unfold int32
    omega
  · dsimp only
    omega

theorem blockingEnd_sends_iff (hb : b.inside = true) (hs : s ≤ text.length)
    (hfront : Front b written s) (hsize : s < 2 ^ 31) :
    Sends text (blockingEnd c b s).1 (uint32 (blockingEnd c b s).2) ↔
      LineFits c.size written text s := by
  have hn := c.size_lt
  rcases Nat.lt_or_ge c.size 3 with hsmall | hthree
  · exact ⟨fun h => absurd h.1 (blockingEnd_outside_of_small hsmall),
      fun h => absurd h.1 (by omega)⟩
  unfold blockingEnd
  by_cases hshort : (s : Int) < c.size - 2
  · have hlf : int32 ((s : Int) + 1) = s + 1 := by unfold int32; omega
    have hnul : int32 ((s : Int) + 1 + 1) = s + 2 := by unfold int32; omega
    have hlen : uint32 ((s : Int) + 2) = s + 2 := by unfold uint32; omega
    simp only [if_pos hshort, hlf, hnul, hlen]
    rw [short_line_iff hb hs hfront, lineFits_of_short (by omega)]
  · have hlen : uint32 (s : Int) = s := by unfold uint32; omega
    have hlast (k : Nat) (hk : k ≤ 3) : (c.size : Int) - k = (c.size - k : Nat) := by omega
    have h1 := hlast 1 (by decide)
    have h2 := hlast 2 (by decide)
    have h3 := hlast 3 (by decide)
    push_cast at h1 h2 h3
    rw [if_neg hshort]
    simp only [hlen, h1, h2, h3]
    rw [lineFits_of_long hthree (by omega)]
    exact cut_line_iff hb hthree (by omega) hs hfront

end Ends

/-! ## Which lines keep their buffer -/

/-- No store left the buffer. If bytes and a length are given on, the length is at most the size of
the buffer and covers the line for the text. -/
def KeepsLine {n : Nat} (text : List Nat) (b : CharBuf n) (given : Option (List Nat × Nat)) : Prop :=
  b.inside = true ∧
    ∀ bytes len, given = some (bytes, len) → len ≤ n ∧ bytes.take len = logLine n text

section Keeps

variable {n : Nat} {text : List Nat} {b : CharBuf n}

theorem keepsLine_none (hb : b.inside = true) : KeepsLine text b none :=
  ⟨hb, nofun⟩

theorem keepsLine_some_iff (len : Nat) :
    KeepsLine text b (some (b.contents, len)) ↔ Sends text b len := by
  constructor
  · rintro ⟨hb, hgiven⟩
    exact ⟨hb, hgiven _ _ rfl⟩
  · rintro ⟨hb, hle, hbytes⟩
    refine ⟨hb, fun bytes len' he => ?_⟩
    obtain ⟨rfl, rfl⟩ := Prod.mk.inj (Option.some.inj he)
    exact ⟨hle, hbytes⟩

end Keeps

/-- `tlk_debug_log_queue` outside handlers keeps its buffer and queues the line. -/
def QueueKeeps (c : LogFormatConfig) (tsUs : Nat) (log : Option String) (level : LogLevel)
    (message : List Nat) : Prop :=
  let r := tlkDebugLogQueue c false tsUs log level message
  KeepsLine (lineHead c (queueStamp tsUs) (log.getD "?") level ++ message) r.1
    (r.2.map fun e => (e.msgBuf, e.msgLen))

/-- `tlk_debug_log_blocking` keeps its buffer and sends the line. -/
def BlockingKeeps (c : LogFormatConfig) (old : Vector Nat c.size) (timestamp : Nat)
    (log : Option String) (level : LogLevel) (message : List Nat) : Prop :=
  let r := tlkDebugLogBlocking c old timestamp log level message
  KeepsLine (lineHead c (blockingStamp timestamp) (log.getD "?") level ++ message) r.1
    (r.2.map fun len => (r.1.contents, len))

/-- The lengths of the head and of the line, narrowed to 16 bits, are negative or stay inside the
buffer, and the line fits with its length so narrowed. -/
def QueueFits (n : Nat) (head message : List Nat) : Prop :=
  let off := int16 (printed head.length)
  let size := int16 (off + printed message.length)
  0 ≤ off → off ≤ n ∧
    (0 ≤ size → (size + 2 < n → size + 2 < 2 ^ 15) ∧
      LineFits n (head.take off.toNat ++ message) (head ++ message) size.toNat)

/-- The head alone does not fit, or the line fits with its length as an `int32_t`. -/
def BlockingFits (n : Nat) (head message : List Nat) : Prop :=
  let size := int32 (printed message.length + printed head.length)
  0 ≤ printed head.length → printed head.length < n →
    0 ≤ size ∧ LineFits n (head ++ message) (head ++ message) size.toNat

/-- The 16 bits of the length, which is an `int`, are not negative and at most the size. -/
def PumpFits (n : Nat) (line : List Nat) : Prop :=
  line.length < 2 ^ 31 ∧ line.length % 2 ^ 16 < 2 ^ 15 ∧ line.length % 2 ^ 16 ≤ n

/-- The front of the buffer after the head and the message. -/
theorem front_snprintf {n off s : Nat} (b : CharBuf n) {head message : List Nat}
    (hoff : off ≤ head.length) (hin : off ≤ n) (hs : s ≤ off + message.length) :
    Front ((b.snprintf 0 n head).1.snprintf off (n - off) message).1
      (head.take off ++ message) s := by
  refine ⟨?_, fun k hk hks =>
    CharBuf.snprintf_snprintf_take b hoff hin hk (hks.trans hs)⟩
  rw [List.length_append, List.length_take_of_le hoff]
  exact hs

section Formats

variable {c : LogFormatConfig} {head message : List Nat}

theorem queueFormat_of_neg (h : int16 (printed head.length) < 0) :
    queueFormat c head message = (((zeros c.size).snprintf 0 c.size head).1, none) :=
  if_pos h

/-- The message behind the head, and the end of the line if the length is not negative. -/
theorem queueFormat_of_offset {o : Nat} (ho : int16 (printed head.length) = o) :
    queueFormat c head message =
      let line := (((zeros c.size).snprintf 0 c.size head).1.snprintf o
        (uint32 (c.size - o)) message).1
      let size := int16 (o + printed message.length)
      if size < 0 then (line, none) else ((queueEnd c line size).1, some (queueEnd c line size).2) := by
  have hpos : ¬ int16 (printed head.length) < 0 := by omega
  rw [← ho]
  exact if_neg hpos

/-- The lengths of the head and of the line are narrowed, and the rest follows from them. -/
theorem queueFormat_keeps_iff (c : LogFormatConfig) (head message : List Nat) :
    KeepsLine (head ++ message) (queueFormat c head message).1
      ((queueFormat c head message).2.map fun len => ((queueFormat c head message).1.contents, len))
      ↔ QueueFits c.size head message := by
  have hn := c.size_lt
  have hhead : ((zeros c.size).snprintf 0 c.size head).1.inside = true :=
    snprintf_inside (i := 0) rfl (Nat.zero_add c.size).le head
  have hmessage := printed_le message.length
  have hmessage' := neg_one_le_printed message.length
  have hoffLe := int16_le (neg_one_le_printed _) (printed_le head.length)
  unfold QueueFits
  by_cases hneg : int16 (printed head.length) < 0
  · rw [queueFormat_of_neg hneg]
    exact ⟨fun _ h => absurd h (not_le.mpr hneg), fun _ => keepsLine_none hhead⟩
  obtain ⟨o, ho⟩ := Int.eq_ofNat_of_zero_le (not_lt.mp hneg)
  rw [queueFormat_of_offset ho, ho]
  rw [ho] at hoffLe
  have hole : o ≤ head.length := by omega
  have hwidth := int16_lt (printed head.length)
  dsimp only
  by_cases hin : o ≤ c.size
  · have hrest : uint32 ((c.size : Int) - o) = c.size - o := by unfold uint32; omega
    have hbody := snprintf_inside hhead (show o + (c.size - o) ≤ c.size by omega) message
    have hsizeLe : 0 ≤ int16 (o + printed message.length) →
        int16 (o + printed message.length) ≤ (o + message.length : Nat) :=
      int16_le (by omega) (by omega)
    rw [hrest]
    by_cases hdrop : int16 (o + printed message.length) < 0
    · simp only [if_pos hdrop]
      exact ⟨fun _ _ => ⟨by omega, fun h => absurd h (not_le.mpr hdrop)⟩,
        fun _ => keepsLine_none hbody⟩
    · obtain ⟨s, hs⟩ := Int.eq_ofNat_of_zero_le (not_lt.mp hdrop)
      simp only [if_neg hdrop]
      have hnarrow := int16_lt (o + printed message.length)
      rw [hs] at hsizeLe hnarrow ⊢
      rw [Option.map_some, keepsLine_some_iff,
        queueEnd_sends_iff hbody (by rw [List.length_append]; omega)
          (front_snprintf _ hole hin (by omega)) (by omega)]
      have hnul : ((s : Int) + 2 < c.size → (s : Int) + 2 < 2 ^ 15) ↔
          (s + 2 < c.size → s + 2 < 2 ^ 15) := by omega
      rw [Int.toNat_natCast, Int.toNat_natCast, hnul]
      exact ⟨fun h _ => ⟨by omega, fun _ => h⟩, fun h => (h (by omega)).2 (by omega)⟩
  · have hout : uint32 ((c.size : Int) - o) ≠ 0 := by unfold uint32; omega
    have hbody := snprintf_outside ((zeros c.size).snprintf 0 c.size head).1
      (show (c.size : Int) < o by omega) hout message
    refine ⟨fun h => absurd h.1 ?_, fun h => absurd (h (by omega)).1 (by omega)⟩
    split
    · exact hbody
    · exact fun h => hbody (inside_of_queueEnd h)

theorem blockingFormat_of_large {old : Vector Nat c.size}
    (h : printed head.length < 0 ∨ c.size ≤ printed head.length) :
    blockingFormat c old head message = (((CharBuf.mk old true).snprintf 0 c.size head).1, none) :=
  if_pos h

theorem blockingFormat_of_offset {old : Vector Nat c.size} {o : Nat}
    (ho : printed head.length = o) (hin : o < c.size) :
    blockingFormat c old head message =
      let line := blockingEnd c
        (((CharBuf.mk old true).snprintf 0 c.size head).1.snprintf o (uint32 (c.size - o)) message).1
        (int32 (printed message.length + o))
      (line.1, if 0 < line.2 then some (uint32 line.2) else none) := by
  have hfits : ¬ (printed head.length < 0 ∨ c.size ≤ printed head.length) := by omega
  rw [← ho]
  exact if_neg hfits

theorem blockingFormat_keeps_iff (c : LogFormatConfig) (old : Vector Nat c.size)
    (head message : List Nat) :
    KeepsLine (head ++ message) (blockingFormat c old head message).1
      ((blockingFormat c old head message).2.map
        fun len => ((blockingFormat c old head message).1.contents, len))
      ↔ BlockingFits c.size head message := by
  have hn := c.size_lt
  have hhead : ((CharBuf.mk old true).snprintf 0 c.size head).1.inside = true :=
    snprintf_inside (i := 0) rfl (Nat.zero_add c.size).le head
  have hmessage := printed_le message.length
  have hmessage' := neg_one_le_printed message.length
  unfold BlockingFits
  by_cases hlarge : printed head.length < 0 ∨ c.size ≤ printed head.length
  · rw [blockingFormat_of_large hlarge]
    exact ⟨fun _ _ _ => by omega, fun _ => keepsLine_none hhead⟩
  obtain ⟨o, ho⟩ := Int.eq_ofNat_of_zero_le (show 0 ≤ printed head.length by omega)
  have hole := printed_le head.length
  rw [ho] at hole hlarge ⊢
  have hin : o < c.size := by omega
  have hrest : uint32 ((c.size : Int) - o) = c.size - o := by unfold uint32; omega
  have hbody := snprintf_inside hhead (show o + (c.size - o) ≤ c.size by omega) message
  have hsizeLe : 0 ≤ int32 (printed message.length + o) →
      int32 (printed message.length + o) ≤ (o + message.length : Nat) :=
    int32_le (by omega) (by omega)
  rw [blockingFormat_of_offset ho hin, hrest]
  dsimp only
  by_cases hneg : int32 (printed message.length + o) < 0
  · exact ⟨fun h => absurd h.1 (blockingEnd_outside hneg),
      fun h => absurd (h (by omega) (by omega)).1 (not_le.mpr hneg)⟩
  obtain ⟨s, hs⟩ := Int.eq_ofNat_of_zero_le (not_lt.mp hneg)
  have hwidth := int32_lt (printed message.length + o)
  rw [hs] at hsizeLe hwidth ⊢
  rcases Nat.lt_or_ge c.size 3 with hsmall | hthree
  · exact ⟨fun h => absurd h.1 (blockingEnd_outside_of_small hsmall),
      fun h => absurd (h (by omega) (by omega)).2.1 (by omega)⟩
  have hpos : 0 < (blockingEnd c (((CharBuf.mk old true).snprintf 0 c.size head).1.snprintf o
      (c.size - o) message).1 s).2 := blockingEnd_pos hthree (by omega)
  have hfront := front_snprintf (CharBuf.mk old true) (show o ≤ head.length by omega) hin.le
    (show s ≤ o + message.length by omega)
  rw [List.take_of_length_le (printed_eq ho).le] at hfront
  rw [if_pos hpos, Option.map_some, keepsLine_some_iff,
    blockingEnd_sends_iff hbody (by rw [List.length_append]; omega) hfront (by omega),
    Int.toNat_natCast]
  exact ⟨fun h _ _ => ⟨by omega, h⟩, fun h => (h (by omega) (by omega)).2⟩

/-- For lines of less than `2^15` bytes nothing is narrowed. -/
theorem queueFits_iff_of_short {n : Nat} (h : head.length + message.length + 2 < 2 ^ 15) :
    QueueFits n head message ↔
      3 ≤ n ∧ (head.length + message.length + 2 < n ∨ head.length + message.length + 1 = n) := by
  have hoff : int16 (printed head.length) = head.length := by
    rw [printed, if_pos (by omega)]
    unfold int16
    omega
  have hsize : int16 (head.length + printed message.length) =
      (head.length + message.length : Nat) := by
    rw [printed, if_pos (by omega)]
    unfold int16
    omega
  unfold QueueFits LineFits
  rw [hoff]
  dsimp only
  rw [hsize, Int.toNat_natCast, Int.toNat_natCast, List.take_length, List.length_append]
  simp only [and_true, true_or]
  omega

/-- For lines of less than `2^31` bytes nothing is narrowed. -/
theorem blockingFits_iff_of_int {n : Nat} (h : head.length + message.length + 2 < 2 ^ 31) :
    BlockingFits n head message ↔
      n ≤ head.length ∨
        3 ≤ n ∧ (head.length + message.length + 2 < n ∨ head.length + message.length + 1 = n) := by
  have hoff : printed head.length = head.length := if_pos (by omega)
  have hsize : int32 (printed message.length + head.length) =
      (head.length + message.length : Nat) := by
    rw [printed, if_pos (by omega)]
    unfold int32
    omega
  unfold BlockingFits LineFits
  rw [hoff]
  dsimp only
  rw [hsize, Int.toNat_natCast, List.length_append]
  simp only [and_true, true_or]
  omega

end Formats

/-! ## The three paths -/

theorem queue_keeps_iff (c : LogFormatConfig) (tsUs : Nat) (log : Option String)
    (level : LogLevel) (message : List Nat) :
    QueueKeeps c tsUs log level message ↔
      QueueFits c.size (lineHead c (queueStamp tsUs) (log.getD "?") level) message := by
  simp only [QueueKeeps, tlkDebugLogQueue, Bool.false_eq_true, if_false, Option.map_map]
  generalize lineHead c (queueStamp tsUs) (log.getD "?") level = head
  exact queueFormat_keeps_iff c head message

theorem blocking_keeps_iff (c : LogFormatConfig) (old : Vector Nat c.size) (timestamp : Nat)
    (log : Option String) (level : LogLevel) (message : List Nat) :
    BlockingKeeps c old timestamp log level message ↔
      BlockingFits c.size (lineHead c (blockingStamp timestamp) (log.getD "?") level) message := by
  simp only [BlockingKeeps, tlkDebugLogBlocking]
  generalize lineHead c (blockingStamp timestamp) (log.getD "?") level = head
  exact blockingFormat_keeps_iff c old head message

/-- The 16 bits are converted to the 32 that the UART takes, so a negative length is a large one. -/
theorem narrowed_le_iff {n len : Nat} (hn : n < 2 ^ 31) :
    uint32 (int16 (printed len)) ≤ n ↔ len < 2 ^ 31 ∧ len % 2 ^ 16 < 2 ^ 15 ∧ len % 2 ^ 16 ≤ n := by
  unfold printed uint32 int16
  split <;> omega

theorem pump_length_le_iff (c : LogFormatConfig) (old : Vector Nat c.size) (e : LogEvent) :
    (pumpLiteral c old e).2 ≤ c.size ↔ PumpFits c.size (irqLine c e) := by
  unfold pumpLiteral PumpFits
  generalize irqLine c e = line
  exact narrowed_le_iff c.size_lt

/-- **A line keeps its buffer exactly when its length fits.** Below `2^15` bytes the line has to end
before the last two bytes of the buffer, or one byte into them; the text alone is cut. In
`tlk_debug_log_blocking` a head that fills the buffer keeps it as well, as nothing is sent. -/
theorem log_formatting_iff (c : LogFormatConfig) (old : Vector Nat c.size) (tsUs : Nat)
    (log : Option String) (level : LogLevel) (message : List Nat) (msg : Option String) :
    (QueueKeeps c tsUs log level message ↔
        QueueFits c.size (lineHead c (queueStamp tsUs) (log.getD "?") level) message) ∧
      (BlockingKeeps c old tsUs log level message ↔
        BlockingFits c.size (lineHead c (blockingStamp tsUs) (log.getD "?") level) message) ∧
      ((pumpLiteral c old (tlkDebugLogIsr c tsUs log level msg)).2 ≤ c.size ↔
        PumpFits c.size (irqLine c (tlkDebugLogIsr c tsUs log level msg))) :=
  ⟨queue_keeps_iff c tsUs log level message, blocking_keeps_iff c old tsUs log level message,
    pump_length_le_iff c old _⟩

/-- Seventy-two bytes for a buffer of 64: the text is cut and 72 bytes are queued. -/
theorem log_formatting_overruns :
    ¬ ∀ (c : LogFormatConfig) (old : Vector Nat c.size) (tsUs : Nat) (log : Option String)
      (level : LogLevel) (message : List Nat) (msg : Option String), tsUs < 2 ^ 64 →
        QueueKeeps c tsUs log level message ∧ BlockingKeeps c old tsUs log level message ∧
          (pumpLiteral c old (tlkDebugLogIsr c tsUs log level msg)).2 ≤ c.size := by
  intro h
  have hkeeps := (h ⟨64, by decide, false⟩ (Vector.replicate 64 0) 0 (some "app") .info
    (List.replicate 40 120) none (by decide)).1
  rw [queue_keeps_iff, queueFits_iff_of_short (by decide +kernel)] at hkeeps
  exact absurd hkeeps (by decide +kernel)

end UniSdk.Log

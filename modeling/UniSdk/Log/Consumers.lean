import UniSdk.Log.Format

/-!
# The two consumers of log events

An event is popped by `tlk_debug_log_pump` or by the completion handler of the UART. The pump formats
a literal event, and the handler sends the buffer of every event, which holds zeros for a literal one.
For the others both send the buffer, and if the length is too large also what lies behind it, which
is not the same memory.
-/

namespace UniSdk.Log

open Library.Words Library.CharBuffers Library.CharBuffers.CharBuf

variable {c : LogFormatConfig} {e : LogEvent}

/-- What `tlk_debug_log_queue` and `tlk_debug_log_isr` push. -/
inductive Produced (c : LogFormatConfig) : LogEvent → Prop
  | queue {inIsr : Bool} {tsUs : Nat} {log : Option String} {level : LogLevel} {message : List Nat}
      {e : LogEvent} (h : (tlkDebugLogQueue c inIsr tsUs log level message).2 = some e) :
      Produced c e
  | isr (tsUs : Nat) (log : Option String) (level : LogLevel) (msg : Option String) :
      Produced c (tlkDebugLogIsr c tsUs log level msg)

/-- What `tlk_debug_log_tx_handle` hands to the UART, with `behind` behind its static `e.msg_buf`. -/
def txHandleBytes (e : LogEvent) (behind : Nat → Nat) : List Nat :=
  readOn e.msgBuf behind e.msgLen

/-- What `tlk_debug_log_pump` hands to the UART, with `behind` behind the buffer that it sends from,
and `old` in the static one. -/
def pumpBytes (c : LogFormatConfig) (old : Vector Nat c.size) (e : LogEvent)
    (behind : Nat → Nat) : List Nat :=
  if e.isLiteral then
    let line := pumpLiteral c old e
    readOn line.1.contents behind line.2
  else readOn e.msgBuf behind e.msgLen

/-- Both consumers hand on the same bytes, whatever lies behind their buffers. -/
def SameBytes (c : LogFormatConfig) (e : LogEvent) : Prop :=
  ∀ old behind behind', txHandleBytes e behind = pumpBytes c old e behind'

/-- A formatted event does not claim more than its buffer holds. For a literal one both lengths are
zero. (In a buffer of one byte, which is NUL, both may be one.) -/
def DrainsAlike (c : LogFormatConfig) (e : LogEvent) : Prop :=
  if e.isLiteral then
    (e.msgLen = 0 ∨ e.msgLen = 1 ∧ c.size = 1) ∧
      (irqLine c e).length < 2 ^ 31 ∧ (irqLine c e).length % 2 ^ 16 = e.msgLen
  else e.msgLen ≤ c.size

/-! ## Events and lines -/

theorem Produced.msgBuf_length (h : Produced c e) : e.msgBuf.length = c.size := by
  cases h with
  | isr => exact List.length_replicate
  | queue h =>
    unfold tlkDebugLogQueue at h
    split at h
    · cases h
      exact List.length_replicate
    · obtain ⟨len, -, rfl⟩ := Option.map_eq_some_iff.mp h
      exact length_contents _

theorem Produced.msgBuf_eq (h : Produced c e) (hlit : e.isLiteral = true) :
    e.msgBuf = List.replicate c.size 0 := by
  cases h with
  | isr => rfl
  | queue h =>
    unfold tlkDebugLogQueue at h
    split at h
    · cases h
      rfl
    · obtain ⟨len, -, rfl⟩ := Option.map_eq_some_iff.mp h
      exact absurd hlit Bool.false_ne_true

/-- Every line starts with a bracket. -/
theorem irqLine_head (c : LogFormatConfig) (e : LogEvent) : ∃ rest, irqLine c e = 91 :: rest := by
  have hopen : cString "[" = [91] := by decide
  simp only [irqLine, stampText, hopen, List.append_assoc]
  exact ⟨_, rfl⟩

/-- A number of 31 bits narrowed to 16 and widened to 32 is small only if it was not negative. -/
theorem narrowed_eq_iff {len k : Nat} (hk : k < 2 ^ 15) :
    uint32 (int16 (printed len)) = k ↔ len < 2 ^ 31 ∧ len % 2 ^ 16 = k := by
  unfold printed uint32 int16
  split <;> omega

/-- From two bytes on the first one of the buffer is the bracket. -/
theorem bracket_mem (old : Vector Nat c.size) (e : LogEvent) (hsize : 2 ≤ c.size) :
    91 ∈ (pumpLiteral c old e).1.contents.take 1 := by
  obtain ⟨rest, hline⟩ := irqLine_head c e
  have htake := snprintf_take (CharBuf.mk old true) (i := 0) (j := 1) (Nat.zero_add c.size).le hsize
    (show 1 ≤ (irqLine c e).length by rw [hline]; exact Nat.succ_pos _)
  have hfront : (irqLine c e).take 1 = [91] := by rw [hline]; rfl
  rw [Nat.zero_add, List.take_zero, List.nil_append, hfront] at htake
  rw [pumpLiteral]
  exact htake ▸ List.mem_singleton_self 91

/-! ## Literal events -/

/-- Zeros are the line only where there is no byte of either. -/
theorem literal_same_iff (hlit : e.isLiteral = true) (hbuf : e.msgBuf = List.replicate c.size 0) :
    SameBytes c e ↔
      (e.msgLen = 0 ∨ e.msgLen = 1 ∧ c.size = 1) ∧
        (irqLine c e).length < 2 ^ 31 ∧ (irqLine c e).length % 2 ^ 16 = e.msgLen := by
  have hlength (old : Vector Nat c.size) :
      (pumpLiteral c old e).2 = uint32 (int16 (printed (irqLine c e).length)) := rfl
  simp only [SameBytes, txHandleBytes, pumpBytes, if_pos hlit, hbuf]
  constructor
  · intro h
    -- zeros behind the buffer of the handler, ones behind the one of the pump
    have hbytes := h (Vector.replicate c.size 0) (fun _ => 0) (fun _ => 1)
    rw [readOn_zeros] at hbytes
    have hlen := congrArg List.length hbytes
    rw [List.length_replicate, length_readOn] at hlen
    have hzero : ∀ v ∈ readOn (pumpLiteral c (Vector.replicate c.size 0) e).1.contents
        (fun _ => 1) (pumpLiteral c (Vector.replicate c.size 0) e).2, v = 0 := by
      rw [← hbytes]
      exact fun v hv => List.eq_of_mem_replicate hv
    have hin : e.msgLen ≤ c.size := by
      by_contra hover
      have hmem := mem_readOn_behind
        (show (pumpLiteral c (Vector.replicate c.size 0) e).1.contents.length <
          (pumpLiteral c (Vector.replicate c.size 0) e).2 by rw [length_contents]; omega) 1
      exact absurd (hzero 1 hmem) (by decide)
    have hfirst : ¬ (1 ≤ e.msgLen ∧ 2 ≤ c.size) := by
      rintro ⟨hone, htwo⟩
      have hbracket := hzero 91
        (mem_readOn_of_mem_take (by omega) (bracket_mem (Vector.replicate c.size 0) e htwo))
      exact absurd hbracket (by decide)
    rw [hlength] at hlen
    exact ⟨by omega, (narrowed_eq_iff (by omega)).mp hlen.symm⟩
  · rintro ⟨hsmall, hline⟩ old behind behind'
    rw [hlength, (narrowed_eq_iff (by omega)).mpr hline]
    rcases hsmall with hnone | ⟨hone, hsize⟩
    · rw [hnone]
      rfl
    · have hnul := snprintf_take_one (CharBuf.mk old true) hsize.ge hsize (irqLine c e)
      have hzeros : (List.replicate c.size 0).take 1 = [0] := by
        rw [hsize]
        rfl
      rw [hone, readOn_of_le (by rw [List.length_replicate, hsize]),
        readOn_of_le (by rw [length_contents, hsize])]
      exact hzeros.trans hnul.symm

/-- **It does not matter which consumer pops an event exactly if it was formatted when it was pushed
and its length is at most the size of its buffer**, apart from literal events of no bytes at all. -/
theorem consumers_agree_iff (c : LogFormatConfig) (e : LogEvent) (h : Produced c e) :
    SameBytes c e ↔ DrainsAlike c e := by
  unfold DrainsAlike
  by_cases hlit : e.isLiteral = true
  · rw [if_pos hlit]
    exact literal_same_iff hlit (h.msgBuf_eq hlit)
  · rw [if_neg hlit, ← h.msgBuf_length, ← readOn_same_iff]
    simp only [SameBytes, txHandleBytes, pumpBytes, if_neg hlit]
    exact ⟨fun hsame => hsame (Vector.replicate c.size 0), fun hsame _ => hsame⟩

/-- The event of a handler. -/
theorem consumers_agree_iff_isr :
    Produced ⟨64, by decide, false⟩
        (tlkDebugLogIsr ⟨64, by decide, false⟩ 0 (some "app") .error (some "boot")) ∧
      ¬ SameBytes ⟨64, by decide, false⟩
        (tlkDebugLogIsr ⟨64, by decide, false⟩ 0 (some "app") .error (some "boot")) := by
  have hproduced := Produced.isr (c := ⟨64, by decide, false⟩) 0 (some "app") .error (some "boot")
  refine ⟨hproduced, fun h => ?_⟩
  have hdrains := ((consumers_agree_iff _ _ hproduced).mp h).1
  exact absurd hdrains (by decide +kernel)

/-- The handler sends four zeros for it, and the pump a line of 42 bytes. -/
theorem consumers_differ :
    ¬ ∀ (c : LogFormatConfig) (e : LogEvent), Produced c e → SameBytes c e := by
  intro h
  have hsame := h ⟨64, by decide, false⟩ _ (.isr 0 (some "app") .error (some "boot"))
  rw [literal_same_iff rfl rfl] at hsame
  exact absurd hsame.1 (by decide +kernel)

end UniSdk.Log

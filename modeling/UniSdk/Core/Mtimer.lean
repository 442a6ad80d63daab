import UniSdk.Library.Runs
import UniSdk.Library.Words

/-!
# Reading the machine timer

`tlk_mtimer_get_mtime` puts a 64-bit counter together from two 32-bit registers while the counter
runs: it reads the high word, the low word and the high word again, and starts over when the two
high words differ. The counter may advance by any amount between two reads. Every call that
returns has read the counter at one instant, that of its last low word, so callers may treat the
call as one reading of the clock.
-/

namespace UniSdk.Core

open Library.Words Library.Runs

/-- The statement of `tlk_mtimer_get_mtime` that runs next. `outside`: no call is in progress. -/
inductive GetMtimeLoc
  | outside
  | readH
  | readL (mtimeH : Nat)
  | testH (mtimeH mtimeL : Nat)
  deriving DecidableEq, Repr

/-- A call that has returned: the values that the counter held from the call to the return, and
the value returned. -/
structure GetMtimeCall where
  held : List Nat
  value : Nat
  deriving DecidableEq, Repr

/-- The counter and its reader. The last two fields are history: the values that the counter has
held since the last call, and the calls that have returned. -/
structure MtimeReader where
  mtime : Nat
  loc : GetMtimeLoc
  held : List Nat
  calls : List GetMtimeCall
  deriving DecidableEq, Repr

inductive MtimeAction
  | tick (d : Nat)
  | call
  | step
  deriving DecidableEq, Repr

namespace MtimeReader

def start (mtime : Nat) : MtimeReader := { mtime, loc := .outside, held := [], calls := [] }

/-- `tlk_mtimer_reg.time_h` and `tlk_mtimer_reg.time_l`. -/
def timeH (s : MtimeReader) : Nat := u32 (s.mtime / 2 ^ 32)

def timeL (s : MtimeReader) : Nat := u32 s.mtime

end MtimeReader

/-- One statement of `tlk_mtimer_get_mtime`. -/
def tlkMtimerGetMtimeStep (s : MtimeReader) : GetMtimeLoc → Option MtimeReader
  | .outside => none
  | .readH => some { s with loc := .readL s.timeH }
  | .readL mtimeH => some { s with loc := .testH mtimeH s.timeL }
  | .testH mtimeH mtimeL =>
    if mtimeH ≠ s.timeH then some { s with loc := .readH }
    else
      some { s with
        loc := .outside
        calls := s.calls ++ [⟨s.held, mtimeH * 2 ^ 32 + mtimeL⟩] }

def readerStep (s : MtimeReader) : MtimeAction → Option MtimeReader
  | .tick d => some { s with mtime := s.mtime + d, held := s.held ++ [s.mtime + d] }
  | .call =>
    if s.loc = .outside then some { s with loc := .readH, held := [s.mtime] } else none
  | .step => tlkMtimerGetMtimeStep s s.loc

/-- What the locals of a call stand for: readings of the counter in the order of the statements. -/
def GetMtimeLoc.Sampled (mtime : Nat) (held : List Nat) : GetMtimeLoc → Prop
  | .outside | .readH => True
  | .readL mtimeH => ∃ x ≤ mtime, mtimeH = x / 2 ^ 32
  | .testH mtimeH mtimeL =>
    ∃ x y, x ≤ y ∧ y ≤ mtime ∧ y ∈ held ∧ mtimeH = x / 2 ^ 32 ∧ mtimeL = y % 2 ^ 32

structure ReaderInv (s : MtimeReader) : Prop where
  width : s.mtime < 2 ^ 64
  sampled : s.loc.Sampled s.mtime s.held
  current : s.loc ≠ .outside → s.mtime ∈ s.held
  held_le : ∀ v ∈ s.held, v ≤ s.mtime
  returned : ∀ r ∈ s.calls, r.value ∈ r.held ∧ r.value ≤ s.mtime
  later : s.loc ≠ .outside → ∀ r ∈ s.calls, ∀ v ∈ s.held, r.value ≤ v
  sorted : s.calls.Pairwise fun r r' => r.value ≤ r'.value

namespace ReaderInv

variable {s : MtimeReader}

theorem tick (hi : ReaderInv s) (d : Nat) (hwidth : s.mtime + d < 2 ^ 64) :
    ReaderInv { s with mtime := s.mtime + d, held := s.held ++ [s.mtime + d] } where
  width := hwidth
  sampled := by
    have hold := hi.sampled
    cases hloc : s.loc with
    | outside => trivial
    | readH => trivial
    | readL mtimeH =>
      rw [hloc] at hold
      obtain ⟨x, hx, hh⟩ := hold
      exact ⟨x, Nat.le_add_right_of_le hx, hh⟩
    | testH mtimeH mtimeL =>
      rw [hloc] at hold
      obtain ⟨x, y, hxy, hy, hheld, hh, hl⟩ := hold
      exact ⟨x, y, hxy, Nat.le_add_right_of_le hy, List.mem_append_left _ hheld, hh, hl⟩
  current _ := List.mem_append_right _ List.mem_cons_self
  held_le v hv := by
    rcases List.mem_append.mp hv with hv | hv
    · exact Nat.le_add_right_of_le (hi.held_le v hv)
    · exact Nat.le_of_eq (List.mem_singleton.mp hv)
  returned r hr := ⟨(hi.returned r hr).1, Nat.le_add_right_of_le (hi.returned r hr).2⟩
  later hin r hr v hv := by
    rcases List.mem_append.mp hv with hv | hv
    · exact hi.later hin r hr v hv
    · rw [List.mem_singleton.mp hv]
      exact Nat.le_add_right_of_le (hi.returned r hr).2
  sorted := hi.sorted

theorem call (hi : ReaderInv s) : ReaderInv { s with loc := .readH, held := [s.mtime] } where
  width := hi.width
  sampled := trivial
  current _ := List.mem_cons_self
  held_le _ hv := Nat.le_of_eq (List.mem_singleton.mp hv)
  returned := hi.returned
  later _ r hr v hv := by
    rw [List.mem_singleton.mp hv]
    exact (hi.returned r hr).2
  sorted := hi.sorted

/-- A statement that goes on with the call. -/
theorem goto (hi : ReaderInv s) {loc : GetMtimeLoc} (hin : s.loc ≠ .outside)
    (hloc : loc.Sampled s.mtime s.held) : ReaderInv { s with loc } where
  width := hi.width
  sampled := hloc
  current _ := hi.current hin
  held_le := hi.held_le
  returned := hi.returned
  later _ := hi.later hin
  sorted := hi.sorted

/-- The return: the high words agree, so the counter was at the value returned when its low word
was read. -/
theorem ret (hi : ReaderInv s) {mtimeH mtimeL : Nat} (hloc : s.loc = .testH mtimeH mtimeL)
    (hsame : mtimeH = s.timeH) :
    ReaderInv { s with
      loc := .outside
      calls := s.calls ++ [⟨s.held, mtimeH * 2 ^ 32 + mtimeL⟩] } := by
  have hsampled := hi.sampled
  rw [hloc] at hsampled
  obtain ⟨x, y, hxy, hy, hheld, hh, hl⟩ := hsampled
  have hhigh : x / 2 ^ 32 = s.mtime / 2 ^ 32 := by
    rw [← hh, hsame, MtimeReader.timeH, u32_of_lt]
    exact Nat.div_lt_of_lt_mul hi.width
  have hvalue : mtimeH * 2 ^ 32 + mtimeL = y := by
    rw [hh, hl]
    exact join_words hxy hy hhigh
  rw [hvalue]
  refine ⟨hi.width, trivial, fun h => absurd rfl h, hi.held_le, fun r hr => ?_,
    fun h => absurd rfl h, ?_⟩
  · rcases List.mem_append.mp hr with hr | hr
    · exact hi.returned r hr
    · rw [List.mem_singleton.mp hr]
      exact ⟨hheld, hy⟩
  · refine List.pairwise_append.mpr ⟨hi.sorted, List.pairwise_singleton .., fun r hr r' hr' => ?_⟩
    rw [List.mem_singleton.mp hr']
    exact hi.later (by rw [hloc]; exact nofun) r hr y hheld

theorem step {s' : MtimeReader} (hi : ReaderInv s)
    (h : tlkMtimerGetMtimeStep s s.loc = some s') : ReaderInv s' := by
  have hin : s.loc ≠ .outside := by
    intro hloc
    rw [hloc] at h
    cases h
  have hsampled := hi.sampled
  cases hloc : s.loc with
  | outside => exact absurd hloc hin
  | readH =>
    rw [hloc] at h
    cases h
    refine hi.goto hin ⟨s.mtime, Nat.le_refl _, ?_⟩
    exact u32_of_lt (Nat.div_lt_of_lt_mul hi.width)
  | readL mtimeH =>
    rw [hloc] at h hsampled
    cases h
    obtain ⟨x, hx, hh⟩ := hsampled
    exact hi.goto hin ⟨x, s.mtime, hx, Nat.le_refl _, hi.current hin, hh, rfl⟩
  | testH mtimeH mtimeL =>
    rw [hloc] at h
    simp only [tlkMtimerGetMtimeStep] at h
    split at h
    · cases h
      exact hi.goto hin trivial
    · next hsame =>
      cases h
      exact hi.ret hloc (not_not.mp hsame)

end ReaderInv

theorem readerStep_inv {s s' : MtimeReader} {a : MtimeAction} (h : readerStep s a = some s')
    (hwidth : s'.mtime < 2 ^ 64) (hi : ReaderInv s) : ReaderInv s' := by
  cases a with
  | tick d =>
    cases h
    exact hi.tick d hwidth
  | call =>
    simp only [readerStep] at h
    split at h
    · cases h
      exact hi.call
    · cases h
  | step => exact hi.step h

/-- **Reading the machine timer is atomic.** However the counter advances below `2^64` between the
reads of a call, the value returned is one that it held between the call and the return, and calls
one after the other return values that do not decrease. -/
theorem get_mtime_linearizable (mtime : Nat) (hstart : mtime < 2 ^ 64) (acts : List MtimeAction)
    (s : MtimeReader)
    (run : Run readerStep (fun _ _ s' => s'.mtime < 2 ^ 64) (.start mtime) acts s) :
    (∀ r ∈ s.calls, r.value ∈ r.held) ∧ s.calls.Pairwise fun r r' => r.value ≤ r'.value := by
  have hload : ReaderInv (.start mtime) :=
    ⟨hstart, trivial, fun h => absurd rfl h, nofun, nofun, fun h => absurd rfl h, .nil⟩
  have hinv := run.invariant (P := ReaderInv) hload
    fun _ _ _ hstep hwidth hi => readerStep_inv hstep hwidth hi
  exact ⟨fun r hr => (hinv.returned r hr).1, hinv.sorted⟩

/-- Two carries into the high word during one call, which starts over once, and a second call after it. -/
def readAcrossCarries : List MtimeAction :=
  [.call, .step, .tick 1, .step, .tick (2 ^ 32), .step, .step, .step, .step, .call, .step, .tick 5,
    .step, .step]

theorem get_mtime_across_carries :
    ∃ s : MtimeReader,
      Run readerStep (fun _ _ s' => s'.mtime < 2 ^ 64) (.start (2 ^ 32 - 1)) readAcrossCarries s ∧
      s.calls.map GetMtimeCall.value = [2 ^ 33, 2 ^ 33 + 5] ∧
      (∀ r ∈ s.calls, r.value ∈ r.held) ∧
        s.calls.Pairwise fun r r' => r.value ≤ r'.value := by
  have hrun : ∃ s : MtimeReader,
      Run readerStep (fun _ _ s' => s'.mtime < 2 ^ 64) (.start (2 ^ 32 - 1)) readAcrossCarries s ∧
      s.calls.map GetMtimeCall.value = [2 ^ 33, 2 ^ 33 + 5] := by
    apply exists_run_of_follow (fun s : MtimeReader =>
      s.calls.map GetMtimeCall.value = [2 ^ 33, 2 ^ 33 + 5])
    decide +kernel
  obtain ⟨s, run, hvalues⟩ := hrun
  exact ⟨s, run, hvalues, get_mtime_linearizable _ (by decide) _ s run⟩

end UniSdk.Core

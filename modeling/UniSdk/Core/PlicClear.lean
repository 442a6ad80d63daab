import UniSdk.Library.Words
import Mathlib.Data.List.Basic

/-!
# Clearing the requests of the interrupt controller

`tlk_plic_clr_all_request` claims and completes until nothing is pending, and gives up after twice
the number of sources and one more. What the claim register delivers is arbitrary: a source may
become pending again while others are cleared.
-/

namespace UniSdk.Core

open Library.Words

/-- An access to the claim and complete register. -/
inductive PlicAccess
  | claim (src : Nat)
  | complete (src : Nat)
  deriving DecidableEq, Repr

/-- `(UNISDK_PLIC_IRQ_COUNT - 1) * 2`, which is compared with a `uint32_t`. -/
def claimLimit (irqCount : Nat) : Nat := u32 ((irqCount - 1) * 2)

/-- The loop with `claimCnt` claims made, and `claims` still to be delivered: the number of claims
at its end, and its accesses. -/
def clrAllLoop (limit : Nat) : Nat → (Nat → Nat) → Nat → Option (Nat × List PlicAccess)
  | 0, _, _ => none
  | fuel + 1, claims, claimCnt =>
    let curClaim := claims 0
    let claimCnt := u32 (claimCnt + 1)
    let accesses := [PlicAccess.claim curClaim, .complete curClaim]
    if curClaim ≠ 0 ∧ claimCnt ≤ limit then
      (clrAllLoop limit fuel (fun i => claims (i + 1)) claimCnt).map
        fun r => (r.1, accesses ++ r.2)
    else some (claimCnt, accesses)

/-- `tlk_plic_clr_all_request` -/
def tlkPlicClrAllRequest (irqCount : Nat) (fuel : Nat) (claims : Nat → Nat) :
    Option (Int × List PlicAccess) :=
  (clrAllLoop (claimLimit irqCount) fuel claims 0).map
    fun r => (if claimLimit irqCount < r.1 then 0 else 1, r.2)

/-- Each of the sources is claimed and completed, one after the other. -/
def served (sources : List Nat) : List PlicAccess :=
  sources.flatMap fun src => [.claim src, .complete src]

/-- What a caller expects: the function ends in time, it has completed every source that it
claimed, once and in order, and it returns 1 exactly when no request was left. -/
def ReportsTruthfully (irqCount : Nat) (claims : Nat → Nat) : Prop :=
  ∃ r claimed, (∀ fuel, 2 * (irqCount - 1) < fuel →
      tlkPlicClrAllRequest irqCount fuel claims = some (r, served claimed)) ∧
    claimed = (List.range claimed.length).map claims ∧
    claimed.length ≤ 2 * (irqCount - 1) + 1 ∧
    (r = 1 ↔ claimed.getLast? = some 0)

theorem claimLimit_le (irqCount : Nat) : claimLimit irqCount ≤ 2 * (irqCount - 1) := by
  rw [Nat.mul_comm]
  exact Nat.mod_le _ _

/-- The limit is even, so the counter does not wrap below it. -/
theorem claimLimit_lt (irqCount : Nat) : claimLimit irqCount + 1 < 2 ^ 32 := by
  unfold claimLimit u32
  omega

theorem served_cons (src : Nat) (sources : List Nat) :
    served (src :: sources) = [.claim src, .complete src] ++ served sources := rfl

theorem served_injective {sources others : List Nat} (h : served sources = served others) :
    sources = others := by
  induction sources generalizing others with
  | nil =>
    cases others with
    | nil => rfl
    | cons other others => cases h
  | cons src sources ih =>
    cases others with
    | nil => cases h
    | cons other others =>
      simp only [served_cons, List.cons_append, List.nil_append, List.cons.injEq,
        PlicAccess.claim.injEq] at h
      rw [h.1, ih h.2.2]

theorem range_map_succ (claims : Nat → Nat) (n : Nat) :
    (List.range (n + 1)).map claims =
      claims 0 :: (List.range n).map fun i => claims (i + 1) := by
  rw [List.range_succ_eq_map, List.map_cons, List.map_map]
  rfl

/-- The loop makes `n` claims that deliver a source and one more, which delivers none or is the
last one allowed. -/
theorem clrAllLoop_spec {limit : Nat} (hlimit : limit + 1 < 2 ^ 32) (claims : Nat → Nat)
    {claimCnt : Nat} (hcnt : claimCnt ≤ limit) :
    ∃ n, n ≤ limit - claimCnt ∧ (∀ i < n, claims i ≠ 0) ∧
      (claims n = 0 ∨ n = limit - claimCnt) ∧
      ∀ fuel, limit - claimCnt < fuel → clrAllLoop limit fuel claims claimCnt =
        some (claimCnt + n + 1, served ((List.range (n + 1)).map claims)) := by
  obtain ⟨left, hleft⟩ : ∃ left, left = limit - claimCnt := ⟨_, rfl⟩
  induction left generalizing claims claimCnt with
  | zero =>
    refine ⟨0, Nat.zero_le _, fun i hi => absurd hi (Nat.not_lt_zero i), Or.inr hleft, ?_⟩
    intro fuel hfuel
    obtain ⟨fuel, rfl⟩ : ∃ f, fuel = f + 1 := ⟨fuel - 1, by omega⟩
    have hwrap : u32 (claimCnt + 1) = claimCnt + 1 := u32_of_lt (by omega)
    rw [clrAllLoop, hwrap, if_neg (by omega)]
    rfl
  | succ left ih =>
    have hwrap : u32 (claimCnt + 1) = claimCnt + 1 := u32_of_lt (by omega)
    by_cases hzero : claims 0 = 0
    · refine ⟨0, Nat.zero_le _, fun i hi => absurd hi (Nat.not_lt_zero i), Or.inl hzero, ?_⟩
      intro fuel hfuel
      obtain ⟨fuel, rfl⟩ : ∃ f, fuel = f + 1 := ⟨fuel - 1, by omega⟩
      rw [clrAllLoop, hwrap, if_neg (fun h => h.1 hzero)]
      rfl
    · obtain ⟨n, hn, hall, hend, hloop⟩ :=
        @ih (fun i => claims (i + 1)) (claimCnt + 1) (by omega) (by omega)
      refine ⟨n + 1, by omega, ?_, ?_, ?_⟩
      · intro i hi
        cases i with
        | zero => exact hzero
        | succ i => exact hall i (by omega)
      · rcases hend with hlast | hfull
        · exact Or.inl hlast
        · exact Or.inr (by omega)
      · intro fuel hfuel
        obtain ⟨fuel, rfl⟩ : ∃ f, fuel = f + 1 := ⟨fuel - 1, by omega⟩
        have hcount : claimCnt + 1 + n + 1 = claimCnt + (n + 1) + 1 := by omega
        rw [clrAllLoop, hwrap, if_pos ⟨hzero, by omega⟩, hloop fuel (by omega), hcount,
          range_map_succ claims (n + 1), served_cons]
        rfl

/-- **The report is true unless the last claim that is allowed is the first to find nothing
pending.** Then everything has been cleared and the function returns 0. -/
theorem tlkPlicClrAllRequest_truthful (irqCount : Nat) (claims : Nat → Nat) :
    ReportsTruthfully irqCount claims ↔
      ((∀ i < claimLimit irqCount, claims i ≠ 0) → claims (claimLimit irqCount) ≠ 0) := by
  obtain ⟨n, hn, hall, hend, hloop⟩ :=
    clrAllLoop_spec (claimLimit_lt irqCount) claims (Nat.zero_le _)
  have hle := claimLimit_le irqCount
  rw [Nat.sub_zero] at hn hend hloop
  have hrun : ∀ fuel, 2 * (irqCount - 1) < fuel → tlkPlicClrAllRequest irqCount fuel claims =
      some (if claimLimit irqCount < n + 1 then 0 else 1,
        served ((List.range (n + 1)).map claims)) := by
    intro fuel hfuel
    rw [tlkPlicClrAllRequest, hloop fuel (by omega), Nat.zero_add]
    rfl
  have hlast : ((List.range (n + 1)).map claims).getLast? = some (claims n) := by
    rw [List.range_succ, List.map_append, List.map_singleton, List.getLast?_concat]
  have hresult : ((if claimLimit irqCount < n + 1 then (0 : Int) else 1) = 1 ↔
      ((List.range (n + 1)).map claims).getLast? = some 0) ↔
        ((∀ i < claimLimit irqCount, claims i ≠ 0) → claims (claimLimit irqCount) ≠ 0) := by
    rw [hlast, Option.some.injEq]
    by_cases hfull : n = claimLimit irqCount
    · have hfalse : ¬ (0 : Int) = 1 := by decide
      rw [if_pos (by omega), ← hfull]
      simp only [hfalse, false_iff]
      exact ⟨fun hlast _ => hlast, fun h => h hall⟩
    · have hzero : claims n = 0 := hend.resolve_right hfull
      rw [if_neg (by omega)]
      refine iff_of_true (iff_of_true rfl hzero) fun hnone => ?_
      exact absurd hzero (hnone n (by omega))
  rw [← hresult]
  constructor
  · intro h
    obtain ⟨r, claimed, hreturns, -, -, hreport⟩ := h
    have hsame := (hrun _ (Nat.lt_succ_self _)).symm.trans (hreturns _ (Nat.lt_succ_self _))
    obtain ⟨hr, hserved⟩ := Prod.mk.inj (Option.some.inj hsame)
    rw [hr, served_injective hserved]
    exact hreport
  · intro hreport
    refine ⟨_, _, hrun, ?_, ?_, hreport⟩
    · rw [List.length_map, List.length_range]
    · rw [List.length_map, List.length_range]
      omega

/-- Two sources, both cleared at the second claim: the third finds nothing pending, and the function
reports a failure. -/
theorem tlkPlicClrAllRequest_false_alarm :
    let claims : Nat → Nat := fun i => if i < 4 then 1 + i % 2 else 0
    tlkPlicClrAllRequest 3 5 claims = some (0, served [1, 2, 1, 2, 0]) ∧
      ¬ ReportsTruthfully 3 claims := by
  intro claims
  have hrun : tlkPlicClrAllRequest 3 5 claims = some (0, served [1, 2, 1, 2, 0]) := by decide
  refine ⟨hrun, fun h => ?_⟩
  obtain ⟨r, claimed, hreturns, -, -, hreport⟩ := h
  obtain ⟨hr, hserved⟩ := Prod.mk.inj (Option.some.inj (hrun.symm.trans (hreturns 5 (by decide))))
  rw [← hr, ← served_injective hserved] at hreport
  exact absurd (hreport.mpr rfl) (by decide)

end UniSdk.Core

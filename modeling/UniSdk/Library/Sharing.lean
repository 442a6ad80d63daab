import UniSdk.Library.Dict

/-!
# Values that more than one key holds

Some of the values of a dictionary belong under one key only. A key is shared when it holds such
a value and another key holds it too. Popping a key frees at most one other key, and setting a
new key makes at most one other key shared: the one that is left, or was there, alone.
-/

namespace UniSdk.Library.Dict

variable {κ ν : Type*} [DecidableEq κ]

/-- The key holds a value of the kind that another key holds. -/
def Shared (single : ν → Prop) (d : Dict κ ν) (k : κ) : Prop :=
  ∃ v, d.get? k = some v ∧ single v ∧ ∃ j, j ≠ k ∧ d.get? j = some v

variable {single : ν → Prop} {d : Dict κ ν} {k p : κ} {v : ν}

theorem not_shared_of_none (h : d.get? k = none) : ¬ Shared single d k := by
  intro hshared
  obtain ⟨v, hv, -⟩ := hshared
  rw [h] at hv
  cases hv

/-- Nothing is shared where no two keys hold one value of the kind. -/
theorem not_shared_of_exclusive
    (h : ∀ v, single v → ∀ j k, d.get? j = some v → d.get? k = some v → j = k) :
    ¬ Shared single d k := by
  intro hshared
  obtain ⟨v, hk, hv, j, hne, hj⟩ := hshared
  exact hne (h v hv j k hj hk)

/-- The key of a value that can be under several keys is not shared. -/
theorem not_shared_of_not_single (hk : d.get? k = some v) (hv : ¬ single v) :
    ¬ Shared single d k := by
  intro hshared
  obtain ⟨w, hw, hsingle, -⟩ := hshared
  rw [hk, Option.some.injEq] at hw
  exact hv (hw ▸ hsingle)

/-- Popping a key whose value can be under several keys changes nothing for the others. -/
theorem shared_pop_of_not_single (hne : k ≠ p) (h : ∀ v, d.get? p = some v → ¬ single v) :
    Shared single (d.pop p) k ↔ Shared single d k := by
  have hother : ∀ j, j ≠ p → (d.pop p).get? j = d.get? j := fun j hj => by
    rw [get?_pop, if_neg hj]
  unfold Shared
  refine exists_congr fun w => ?_
  rw [hother k hne]
  refine and_congr_right fun _ => and_congr_right fun hw => ⟨fun hj => ?_, fun hj => ?_⟩
  · obtain ⟨j, hjk, hj⟩ := hj
    rw [get?_pop] at hj
    split at hj
    · cases hj
    · exact ⟨j, hjk, hj⟩
  · obtain ⟨j, hjk, hj⟩ := hj
    refine ⟨j, hjk, ?_⟩
    rw [hother j fun hjp => h w (hjp ▸ hj) hw, hj]

/-- Setting a new key to a value that can be under several keys changes nothing for the others. -/
theorem shared_set_of_not_single (hne : k ≠ p) (hp : d.get? p = none) (h : ¬ single v) :
    Shared single (d.set p v) k ↔ Shared single d k := by
  have hpop : Shared single ((d.set p v).pop p) k ↔ Shared single (d.set p v) k :=
    shared_pop_of_not_single hne fun w hw => by
      rw [get?_set, if_pos rfl, Option.some.injEq] at hw
      exact hw ▸ h
  have hback : ∀ j, ((d.set p v).pop p).get? j = d.get? j := fun j => by
    rw [get?_pop, get?_set]
    by_cases hj : j = p
    · rw [if_pos hj, hj, hp]
    · rw [if_neg hj, if_neg (Ne.symm hj)]
  rw [← hpop]
  unfold Shared
  simp only [hback]

variable [DecidableEq ν] (single)

/-- A shared key has other holders beside it when it is popped. -/
theorem shared_iff_of_some (hv : d.get? p = some v) (hsingle : single v) :
    Shared single d p ↔ (d.pop p).holders v ≠ [] := by
  rw [ne_eq, holders_eq_nil]
  constructor
  · intro hshared hnone
    obtain ⟨w, hw, -, j, hne, hj⟩ := hshared
    obtain rfl := Option.some.inj (hv.symm.trans hw)
    exact hnone j (by rw [get?_pop, if_neg hne, hj])
  · intro h
    obtain ⟨j, hj⟩ := not_forall_not.mp h
    rw [get?_pop] at hj
    split at hj
    · cases hj
    · next hne => exact ⟨v, hv, hsingle, j, hne, hj⟩

/-- Popping a key leaves another one shared unless it is the last holder. -/
theorem shared_pop (hne : k ≠ p) (hv : d.get? p = some v) :
    Shared single (d.pop p) k ↔ Shared single d k ∧ (d.pop p).holders v ≠ [k] := by
  have hother : ∀ j, j ≠ p → (d.pop p).get? j = d.get? j := fun j hj => by
    rw [get?_pop, if_neg hj]
  constructor
  · intro hshared
    obtain ⟨w, hk, hw, j, hjk, hj⟩ := hshared
    rw [hother k hne] at hk
    rw [get?_pop] at hj
    split at hj
    · cases hj
    · next hjp =>
      refine ⟨⟨w, hk, hw, j, hjk, hj⟩, fun hlast => ?_⟩
      have hwv : v = w := by
        have hkv := (holders_eq_singleton.mp hlast k).mpr rfl
        rw [hother k hne, hk] at hkv
        exact (Option.some.inj hkv).symm
      exact hjk ((holders_eq_singleton.mp hlast j).mp (by rw [hother j hjp, hj, hwv]))
  · intro h
    obtain ⟨⟨w, hk, hw, j, hjk, hj⟩, hlast⟩ := h
    by_cases hjp : j = p
    · -- the key that goes is the other holder, and so is one more
      obtain rfl := Option.some.inj (hv.symm.trans (hjp ▸ hj))
      by_contra hnot
      refine hlast (holders_eq_singleton.mpr fun i => ⟨fun hi => ?_, fun hi => ?_⟩)
      · by_contra hik
        exact hnot ⟨v, by rw [hother k hne, hk], hw, i, hik, hi⟩
      · rw [hi, hother k hne, hk]
    · exact ⟨w, by rw [hother k hne, hk], hw, j, hjk, by rw [hother j hjp, hj]⟩

/-- A new key is shared when its value was held. -/
theorem shared_set_self (hp : d.get? p = none) (hsingle : single v) :
    Shared single (d.set p v) p ↔ d.holders v ≠ [] := by
  rw [ne_eq, holders_eq_nil]
  constructor
  · intro hshared hnone
    obtain ⟨w, hw, -, j, hjp, hj⟩ := hshared
    rw [get?_set, if_pos rfl] at hw
    rw [get?_set, if_neg (Ne.symm hjp), ← hw] at hj
    exact hnone j hj
  · intro h
    obtain ⟨j, hj⟩ := not_forall_not.mp h
    have hjp : j ≠ p := fun heq => by
      rw [heq, hp] at hj
      cases hj
    refine ⟨v, by rw [get?_set, if_pos rfl], hsingle, j, hjp, ?_⟩
    rw [get?_set, if_neg (Ne.symm hjp), hj]

/-- Setting a new key makes another one shared when that was the only holder. -/
theorem shared_set (hne : k ≠ p) (hp : d.get? p = none) (hsingle : single v) :
    Shared single (d.set p v) k ↔ Shared single d k ∨ d.holders v = [k] := by
  have hother : ∀ j, j ≠ p → (d.set p v).get? j = d.get? j := fun j hj => by
    rw [get?_set, if_neg (Ne.symm hj)]
  constructor
  · intro hshared
    obtain ⟨w, hk, hw, j, hjk, hj⟩ := hshared
    rw [hother k hne] at hk
    by_cases hjp : j = p
    · rw [hjp, get?_set, if_pos rfl, Option.some.injEq] at hj
      rw [or_iff_not_imp_left]
      refine fun hnot => holders_eq_singleton.mpr fun i => ⟨fun hi => ?_, fun hi => ?_⟩
      · by_contra hik
        exact hnot ⟨w, hk, hw, i, hik, hj ▸ hi⟩
      · rw [hi, hk, hj]
    · rw [hother j hjp] at hj
      exact Or.inl ⟨w, hk, hw, j, hjk, hj⟩
  · intro h
    rcases h with hshared | hlast
    · obtain ⟨w, hk, hw, j, hjk, hj⟩ := hshared
      have hjp : j ≠ p := fun heq => by
        rw [heq, hp] at hj
        cases hj
      exact ⟨w, by rw [hother k hne, hk], hw, j, hjk, by rw [hother j hjp, hj]⟩
    · refine ⟨v, ?_, hsingle, p, Ne.symm hne, by rw [get?_set, if_pos rfl]⟩
      rw [hother k hne, (holders_eq_singleton.mp hlast k).mpr rfl]

end UniSdk.Library.Dict

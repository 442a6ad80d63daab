import Mathlib.Data.List.Induction
import Mathlib.Data.List.Nodup

/-!
# Scans over a table

A scan visits the entries of a list one after the other, and a visit changes what belongs to its
own entry only. What the scan does to an entry is then what one visit does to it. Where entries
are visited repeatedly and a visit leaves a value of its own, the last visit decides.
-/

namespace UniSdk.Library.Scans

universe u v w

/- `f` visits an entry, and `g` reads what belongs to one. -/
variable {σ : Type u} {ι : Type v} {β : Type w} {f : σ → ι → σ} {g : σ → ι → β}

/-- `P` holds all along the scan, and each entry that it visits is changed as `R` says. -/
theorem foldl_own {P : σ → Prop} {R : β → β → Prop} (hP : ∀ s i, P s → P (f s i))
    (hself : ∀ s i, P s → R (g s i) (g (f s i) i))
    (hother : ∀ s i j, j ≠ i → g (f s i) j = g s j) {l : List ι} (hl : l.Nodup) {s : σ}
    (hs : P s) (j : ι) :
    (j ∈ l → R (g s j) (g (l.foldl f s) j)) ∧
      (j ∉ l → g (l.foldl f s) j = g s j) := by
  induction l generalizing s with
  | nil => exact ⟨fun h => absurd h List.not_mem_nil, fun _ => rfl⟩
  | cons i l ih =>
    obtain ⟨hi, hl⟩ := List.nodup_cons.mp hl
    obtain ⟨hin, hout⟩ := ih hl (hP s i hs)
    rw [List.foldl_cons]
    refine ⟨fun hj => ?_, fun hj => ?_⟩
    · rcases List.mem_cons.mp hj with rfl | hj
      · rw [hout hi]
        exact hself s j hs
      · have hne : j ≠ i := fun h => hi (h ▸ hj)
        rw [← hother s i j hne]
        exact hin hj
    · rw [hout (List.not_mem_of_not_mem_cons hj),
        hother s i j (List.ne_of_not_mem_cons hj)]

section Last

variable {κ : Type*} [DecidableEq κ] {key : ι → κ} {value : ι → β}

/-- The last visit of `k`. -/
def lastVisit (key : ι → κ) (k : κ) (l : List ι) : Option ι :=
  (l.filter fun i => key i = k).getLast?

/-- What is at `k` when nothing but the last visit counts. -/
def lastValue (key : ι → κ) (value : ι → β) (start : β) (k : κ) (l : List ι) : β :=
  ((lastVisit key k l).map value).getD start

theorem lastValue_concat (start : β) (k : κ) (l : List ι) (i : ι) :
    lastValue key value start k (l ++ [i]) =
      if k = key i then value i else lastValue key value start k l := by
  unfold lastValue lastVisit
  rw [List.filter_append]
  by_cases hk : k = key i
  · have hlast : [i].filter (fun j => key j = k) = [i] := by simp [hk]
    rw [if_pos hk, hlast, List.getLast?_concat]
    rfl
  · have hlast : [i].filter (fun j => key j = k) = [] := by simp [Ne.symm hk]
    rw [if_neg hk, hlast, List.append_nil]

/-- What is at `k` after a run in which every visit leaves its value at its own key. -/
theorem foldl_lastValue (key : ι → κ) (value : ι → β) (view : σ → κ → β) {f : σ → ι → σ} {s : σ}
    {l : List ι} (hvisit : ∀ l' i, l' ++ [i] <+: l → ∀ k, view (f (l'.foldl f s) i) k =
      if k = key i then value i else view (l'.foldl f s) k) (k : κ) :
    view (l.foldl f s) k = lastValue key value (view s k) k l := by
  induction l using List.reverseRecOn with
  | nil => rfl
  | append_singleton l i ih =>
    have hbefore := ih fun l' j hfront => hvisit l' j (hfront.trans (List.prefix_append l [i]))
    rw [List.foldl_append, List.foldl_cons, List.foldl_nil, hvisit l i (List.prefix_refl _),
      lastValue_concat, hbefore]

end Last

end UniSdk.Library.Scans

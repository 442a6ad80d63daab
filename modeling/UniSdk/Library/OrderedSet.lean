import Mathlib.Data.List.Nodup
import Mathlib.Data.List.Induction

/-!
# Sets in insertion order

A history of additions and removals, where adding a member and removing a stranger change
nothing. The members are listed in the order of the additions that last took effect.
-/

namespace UniSdk.Library.OrderedSet

variable {δ : Type*} [DecidableEq δ]

inductive Op (δ : Type*)
  | add (d : δ)
  | remove (d : δ)
  deriving DecidableEq

def step (members : List δ) : Op δ → List δ
  | .add d => if d ∈ members then members else members ++ [d]
  | .remove d => members.erase d

/-- The members after a history. -/
def members (ops : List (Op δ)) : List δ := ops.foldl step []

/-- The operation `i` of the history adds `d`, which is not a member before it. -/
def EffectiveAdd (ops : List (Op δ)) (d : δ) (i : Nat) : Prop :=
  ops[i]? = some (.add d) ∧ d ∉ members (ops.take i)

def LatestAdd (ops : List (Op δ)) (d : δ) (i : Nat) : Prop :=
  EffectiveAdd ops d i ∧ ∀ j, i < j → ¬ EffectiveAdd ops d j

theorem members_snoc (ops : List (Op δ)) (op : Op δ) :
    members (ops ++ [op]) = step (members ops) op := by
  rw [members, List.foldl_append]
  rfl

theorem members_nodup (ops : List (Op δ)) : (members ops).Nodup := by
  induction ops using List.reverseRecOn with
  | nil => exact List.nodup_nil
  | append_singleton ops op ih =>
    rw [members_snoc]
    cases op with
    | add d =>
      rw [step]
      split
      · exact ih
      · next hd =>
        apply ih.append (List.nodup_singleton d)
        intro e he hmem
        rw [List.mem_singleton] at hmem
        exact hd (hmem ▸ he)
    | remove d => exact ih.erase d

theorem mem_members_snoc (ops : List (Op δ)) (op : Op δ) (d : δ) :
    d ∈ members (ops ++ [op]) ↔ op = .add d ∨ (d ∈ members ops ∧ op ≠ .remove d) := by
  rw [members_snoc]
  cases op with
  | add e =>
    rw [step]
    split
    · next he =>
      constructor
      · exact fun h => .inr ⟨h, nofun⟩
      · rintro (h | h)
        · cases h
          exact he
        · exact h.1
    · rw [List.mem_append, List.mem_singleton]
      constructor
      · rintro (h | h)
        · exact .inr ⟨h, nofun⟩
        · exact .inl (by rw [h])
      · rintro (h | h)
        · cases h
          exact .inr rfl
        · exact .inl h.1
  | remove e =>
    rw [step, (members_nodup ops).mem_erase_iff]
    constructor
    · rintro ⟨hne, h⟩
      exact .inr ⟨h, fun he => by cases he; exact hne rfl⟩
    · rintro (h | ⟨h, hne⟩)
      · cases h
      · exact ⟨fun he => hne (by rw [he]), h⟩

omit [DecidableEq δ] in
/-- What one more operation does to an addition without a later removal. -/
theorem added_snoc (ops : List (Op δ)) (op : Op δ) (d : δ) :
    (∃ i : Nat, (ops ++ [op])[i]? = some (.add d) ∧
      ∀ j : Nat, i < j → (ops ++ [op])[j]? ≠ some (.remove d)) ↔
    op = .add d ∨ ((∃ i : Nat, ops[i]? = some (.add d) ∧
      ∀ j : Nat, i < j → ops[j]? ≠ some (.remove d)) ∧ op ≠ .remove d) := by
  constructor
  · rintro ⟨i, hi, hlater⟩
    have hlt := (List.getElem?_eq_some_iff.mp hi).1
    rw [List.length_append, List.length_singleton] at hlt
    by_cases h : i = ops.length
    · rw [h, List.getElem?_concat_length] at hi
      exact .inl (Option.some.inj hi)
    · have hi' : i < ops.length := by omega
      rw [List.getElem?_append_left hi'] at hi
      refine .inr ⟨⟨i, hi, fun j hj => ?_⟩, fun he => ?_⟩
      · by_cases hj' : j < ops.length
        · have hnot := hlater j hj
          rwa [List.getElem?_append_left hj'] at hnot
        · rw [List.getElem?_eq_none (by omega)]
          exact nofun
      · apply hlater ops.length hi'
        rw [he, List.getElem?_concat_length]
  · rintro (hop | ⟨⟨i, hi, hlater⟩, hop⟩)
    · refine ⟨ops.length, by rw [hop]; exact List.getElem?_concat_length, fun j hj => ?_⟩
      rw [List.getElem?_eq_none (by rw [List.length_append, List.length_singleton]; omega)]
      exact nofun
    · have hlt : i < ops.length := (List.getElem?_eq_some_iff.mp hi).1
      refine ⟨i, by rw [List.getElem?_append_left hlt, hi], fun j hj => ?_⟩
      rcases Nat.lt_trichotomy j ops.length with h | h | h
      · rw [List.getElem?_append_left h]
        exact hlater j hj
      · rw [h, List.getElem?_concat_length]
        exact fun he => hop (Option.some.inj he)
      · rw [List.getElem?_eq_none (by rw [List.length_append, List.length_singleton]; omega)]
        exact nofun

/-- The members are what was added and not removed since. -/
theorem mem_members_iff (ops : List (Op δ)) (d : δ) :
    d ∈ members ops ↔
      ∃ i : Nat, ops[i]? = some (.add d) ∧ ∀ j : Nat, i < j → ops[j]? ≠ some (.remove d) := by
  induction ops using List.reverseRecOn with
  | nil => simp [members]
  | append_singleton ops op ih => rw [mem_members_snoc, ih, added_snoc]

/-- The latest effective addition survives an operation that is none. -/
theorem LatestAdd.snoc {ops : List (Op δ)} {op : Op δ} {d : δ} {i : Nat} (h : LatestAdd ops d i)
    (hop : op = Op.add d → d ∈ members ops) : LatestAdd (ops ++ [op]) d i := by
  obtain ⟨⟨hi, hnew⟩, hlatest⟩ := h
  have hlt : i < ops.length := (List.getElem?_eq_some_iff.mp hi).1
  constructor
  · constructor
    · rw [List.getElem?_append_left hlt, hi]
    · rw [List.take_append_of_le_length (Nat.le_of_lt hlt)]
      exact hnew
  · rintro j hj ⟨hadd, hmem⟩
    have hj' := (List.getElem?_eq_some_iff.mp hadd).1
    rw [List.length_append, List.length_singleton] at hj'
    by_cases hend : j = ops.length
    · rw [hend, List.getElem?_concat_length] at hadd
      rw [hend, List.take_left] at hmem
      exact hmem (hop (Option.some.inj hadd))
    · have hlt' : j < ops.length := by omega
      rw [List.getElem?_append_left hlt'] at hadd
      rw [List.take_append_of_le_length (Nat.le_of_lt hlt')] at hmem
      exact hlatest j hj ⟨hadd, hmem⟩

theorem latestAdd_new {ops : List (Op δ)} {d : δ} (hd : d ∉ members ops) :
    LatestAdd (ops ++ [.add d]) d ops.length := by
  constructor
  · constructor
    · exact List.getElem?_concat_length
    · rw [List.take_left]
      exact hd
  · rintro j hj ⟨hadd, -⟩
    have hj' := (List.getElem?_eq_some_iff.mp hadd).1
    rw [List.length_append, List.length_singleton] at hj'
    omega

/-- Every member has an addition that took effect last, and the members are listed in the order
of these. -/
theorem members_ordered (ops : List (Op δ)) :
    (∀ d ∈ members ops, ∃ i, LatestAdd ops d i) ∧
      (members ops).Pairwise fun d e => ∃ i j, i < j ∧ LatestAdd ops d i ∧ LatestAdd ops e j := by
  induction ops using List.reverseRecOn with
  | nil => exact ⟨fun d hd => absurd hd List.not_mem_nil, List.Pairwise.nil⟩
  | append_singleton ops op ih =>
    obtain ⟨hlatest, hordered⟩ := ih
    -- members before the operation keep their additions
    have hkeep : ∀ d i, d ∈ members ops → LatestAdd ops d i → LatestAdd (ops ++ [op]) d i :=
      fun d i hd h => h.snoc fun _ => hd
    have hpairs : (members ops).Pairwise fun d e =>
        ∃ i j, i < j ∧ LatestAdd (ops ++ [op]) d i ∧ LatestAdd (ops ++ [op]) e j := by
      apply hordered.imp_of_mem
      rintro d e hd he ⟨i, j, hij, hi, hj⟩
      exact ⟨i, j, hij, hkeep d i hd hi, hkeep e j he hj⟩
    have hadded : ∀ d ∈ members ops, ∃ i, LatestAdd (ops ++ [op]) d i := by
      intro d hd
      obtain ⟨i, hi⟩ := hlatest d hd
      exact ⟨i, hkeep d i hd hi⟩
    rw [members_snoc]
    cases op with
    | add d =>
      rw [step]
      split
      · exact ⟨hadded, hpairs⟩
      · next hd =>
        constructor
        · intro e he
          rcases List.mem_append.mp he with hold | hnew
          · exact hadded e hold
          · rw [List.mem_singleton.mp hnew]
            exact ⟨ops.length, latestAdd_new hd⟩
        · rw [List.pairwise_append]
          refine ⟨hpairs, List.pairwise_singleton _ d, fun e he f hf => ?_⟩
          rw [List.mem_singleton.mp hf]
          obtain ⟨i, hi⟩ := hlatest e he
          have hlt : i < ops.length := (List.getElem?_eq_some_iff.mp hi.1.1).1
          exact ⟨i, ops.length, hlt, hkeep e i he hi, latestAdd_new hd⟩
    | remove d =>
      constructor
      · exact fun e he => hadded e (List.mem_of_mem_erase he)
      · exact hpairs.sublist List.erase_sublist

end UniSdk.Library.OrderedSet

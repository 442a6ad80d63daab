import Mathlib.Data.List.Nodup

/-!
# Dictionaries in insertion order

A dictionary is a list of entries whose keys are all different. Setting a key that is there
replaces its value in place, setting a new key appends an entry, so iteration follows the order
in which the keys came. Every operation is described by what a lookup finds after it.
-/

namespace UniSdk.Library

structure Dict (κ ν : Type*) where
  entries : List (κ × ν)
  nodup : (entries.map Prod.fst).Nodup

namespace Dict

variable {κ ν : Type*}

section Entries

variable [DecidableEq κ]

/-- The value under `k`. -/
def lookup (k : κ) : List (κ × ν) → Option ν
  | [] => none
  | (k', v) :: rest => if k' = k then some v else lookup k rest

def insert (k : κ) (v : ν) : List (κ × ν) → List (κ × ν)
  | [] => [(k, v)]
  | (k', v') :: rest => if k' = k then (k, v) :: rest else (k', v') :: insert k v rest

theorem lookup_insert (k j : κ) (v : ν) (l : List (κ × ν)) :
    lookup j (insert k v l) = if k = j then some v else lookup j l := by
  induction l with
  | nil => rfl
  | cons entry rest ih =>
    obtain ⟨k', v'⟩ := entry
    by_cases hk : k' = k
    · subst hk
      by_cases hj : k' = j <;> simp [insert, lookup, hj]
    · rw [insert, if_neg hk, lookup, lookup, ih]
      by_cases hj : k' = j
      · have hne : k ≠ j := fun h => hk (hj.trans h.symm)
        rw [if_pos hj, if_neg hne, if_pos hj]
      · rw [if_neg hj, if_neg hj]

theorem map_fst_insert (k : κ) (v : ν) (l : List (κ × ν)) :
    (insert k v l).map Prod.fst =
      if k ∈ l.map Prod.fst then l.map Prod.fst else l.map Prod.fst ++ [k] := by
  induction l with
  | nil => rfl
  | cons entry rest ih =>
    obtain ⟨k', v'⟩ := entry
    by_cases hk : k' = k
    · simp [insert, hk]
    · have hne : ¬ k = k' := Ne.symm hk
      rw [insert, if_neg hk, List.map_cons, ih, List.map_cons]
      by_cases hmem : k ∈ rest.map Prod.fst
      · rw [if_pos hmem, if_pos (List.mem_cons_of_mem _ hmem)]
      · have hcons : k ∉ k' :: rest.map Prod.fst :=
          fun h => (List.mem_cons.mp h).elim hne hmem
        rw [if_neg hmem, if_neg hcons, List.cons_append]

theorem insert_of_not_mem {k : κ} {v : ν} {l : List (κ × ν)} (h : k ∉ l.map Prod.fst) :
    insert k v l = l ++ [(k, v)] := by
  induction l with
  | nil => rfl
  | cons entry rest ih =>
    obtain ⟨k', v'⟩ := entry
    rw [List.map_cons, List.mem_cons, not_or] at h
    rw [insert, if_neg (Ne.symm h.1), ih h.2, List.cons_append]

theorem lookup_eq_none {k : κ} {l : List (κ × ν)} (h : k ∉ l.map Prod.fst) :
    lookup k l = none := by
  induction l with
  | nil => rfl
  | cons entry rest ih =>
    rw [List.map_cons, List.mem_cons, not_or] at h
    rw [lookup, if_neg (Ne.symm h.1), ih h.2]

/-- A lookup among the entries whose keys pass a test. -/
theorem lookup_filter (keep : κ → Bool) (k : κ) (l : List (κ × ν)) :
    lookup k (l.filter (fun entry => keep entry.1)) = if keep k then lookup k l else none := by
  induction l with
  | nil => simp [lookup]
  | cons entry rest ih =>
    obtain ⟨k', v'⟩ := entry
    by_cases hk : k' = k
    · subst hk
      cases hkeep : keep k' <;> simp_all [lookup]
    · cases hkeep : keep k' <;> simp [hkeep, lookup, hk, ih]

theorem mem_iff_lookup {l : List (κ × ν)} (h : (l.map Prod.fst).Nodup) {k : κ} {v : ν} :
    (k, v) ∈ l ↔ lookup k l = some v := by
  induction l with
  | nil => simp [lookup]
  | cons entry rest ih =>
    obtain ⟨k', v'⟩ := entry
    rw [List.map_cons, List.nodup_cons] at h
    by_cases hk : k' = k
    · subst hk
      have hrest : (k', v) ∉ rest := fun hmem => h.1 (List.mem_map.mpr ⟨_, hmem, rfl⟩)
      simp [lookup, hrest, eq_comm]
    · have hne : ¬ k = k' := Ne.symm hk
      simp [lookup, hk, hne, ih h.2]

/-- Entries that differ have different keys exactly when each of them is found under its key. -/
theorem nodup_iff_lookup {l : List (κ × ν)} (h : l.Nodup) :
    (l.map Prod.fst).Nodup ↔ ∀ entry ∈ l, lookup entry.1 l = some entry.2 := by
  refine ⟨fun hkeys entry hentry => (mem_iff_lookup hkeys).mp hentry, fun hfound => ?_⟩
  refine h.map_on fun entry hentry other hother hkey => Prod.ext hkey ?_
  have hvalue := hfound entry hentry
  rw [hkey, hfound other hother] at hvalue
  exact (Option.some.inj hvalue).symm

end Entries

/-! ### The operations -/

@[ext] theorem ext_entries {d e : Dict κ ν} (h : d.entries = e.entries) : d = e := by
  cases d
  cases e
  cases h
  rfl

def empty : Dict κ ν := ⟨[], List.nodup_nil⟩

/-- The entries whose keys pass a test, in their order. -/
def filterKeys (d : Dict κ ν) (keep : κ → Bool) : Dict κ ν where
  entries := d.entries.filter (fun entry => keep entry.1)
  nodup := d.nodup.sublist (List.filter_sublist.map Prod.fst)

def values (d : Dict κ ν) : List ν := d.entries.map Prod.snd

variable [DecidableEq κ]

def get? (d : Dict κ ν) (k : κ) : Option ν := lookup k d.entries

def set (d : Dict κ ν) (k : κ) (v : ν) : Dict κ ν where
  entries := insert k v d.entries
  nodup := by
    rw [map_fst_insert]
    split
    · exact d.nodup
    · next h =>
      exact d.nodup.append (List.nodup_singleton k)
        (fun j hj hmem => h (List.mem_singleton.mp hmem ▸ hj))

/-- `d.pop(k, None)`. -/
def pop (d : Dict κ ν) (k : κ) : Dict κ ν := d.filterKeys (fun j => j ≠ k)

/-- The keys that hold `v`. -/
def holders [DecidableEq ν] (d : Dict κ ν) (v : ν) : List κ :=
  (d.entries.filter (fun entry => entry.2 = v)).map Prod.fst

theorem mem_entries {d : Dict κ ν} {k : κ} {v : ν} : (k, v) ∈ d.entries ↔ d.get? k = some v :=
  mem_iff_lookup d.nodup

@[simp] theorem get?_empty (k : κ) : (empty : Dict κ ν).get? k = none := rfl

@[simp] theorem get?_set (d : Dict κ ν) (k j : κ) (v : ν) :
    (d.set k v).get? j = if k = j then some v else d.get? j := lookup_insert k j v d.entries

@[simp] theorem get?_filterKeys (d : Dict κ ν) (keep : κ → Bool) (k : κ) :
    (d.filterKeys keep).get? k = if keep k then d.get? k else none :=
  lookup_filter keep k d.entries

@[simp] theorem get?_pop (d : Dict κ ν) (k j : κ) :
    (d.pop k).get? j = if j = k then none else d.get? j := by
  by_cases h : j = k <;> simp [pop, h]

theorem mem_values {d : Dict κ ν} {v : ν} : v ∈ d.values ↔ ∃ k, d.get? k = some v := by
  simp only [values, List.mem_map, ← mem_entries]
  exact ⟨fun ⟨⟨k, v'⟩, hmem, heq⟩ => ⟨k, heq ▸ hmem⟩, fun ⟨k, hmem⟩ => ⟨(k, v), hmem, rfl⟩⟩

theorem mem_holders [DecidableEq ν] {d : Dict κ ν} {k : κ} {v : ν} :
    k ∈ d.holders v ↔ d.get? k = some v := by
  simp only [holders, List.mem_map, List.mem_filter, decide_eq_true_eq, ← mem_entries]
  exact ⟨fun ⟨⟨k', v'⟩, ⟨hmem, hv⟩, hk⟩ => hk ▸ hv ▸ hmem, fun hmem => ⟨(k, v), ⟨hmem, rfl⟩, rfl⟩⟩

theorem holders_eq_nil [DecidableEq ν] {d : Dict κ ν} {v : ν} :
    d.holders v = [] ↔ ∀ j, d.get? j ≠ some v := by
  simp only [List.eq_nil_iff_forall_not_mem, mem_holders, ne_eq]

theorem holders_eq_singleton [DecidableEq ν] {d : Dict κ ν} {k : κ} {v : ν} :
    d.holders v = [k] ↔ ∀ j, d.get? j = some v ↔ j = k := by
  have hnodup : (d.holders v).Nodup := d.nodup.sublist (List.filter_sublist.map Prod.fst)
  rw [← List.perm_singleton, List.perm_ext_iff_of_nodup hnodup (List.nodup_singleton k)]
  simp only [mem_holders, List.mem_singleton]

/-- What is left when a list of keys is popped. -/
theorem get?_foldl_pop (ks : List κ) (d : Dict κ ν) (j : κ) :
    (ks.foldl pop d).get? j = if j ∈ ks then none else d.get? j := by
  induction ks generalizing d with
  | nil => rfl
  | cons k ks ih =>
    rw [List.foldl_cons, ih, get?_pop]
    by_cases hj : j = k <;> by_cases hmem : j ∈ ks <;> simp [hj, hmem]

/-- The entry of a new key goes to the end. -/
theorem set_entries_of_none {d : Dict κ ν} {k : κ} {v : ν} (h : d.get? k = none) :
    (d.set k v).entries = d.entries ++ [(k, v)] := by
  refine insert_of_not_mem fun hmem => ?_
  obtain ⟨⟨k', v'⟩, hentry, rfl⟩ := List.mem_map.mp hmem
  rw [mem_entries.mp hentry] at h
  cases h

/-- Of several values for one key the last one is kept. -/
theorem get?_foldl_set (sets : List (κ × ν)) (d : Dict κ ν) (j : κ) :
    (sets.foldl (fun d s => d.set s.1 s.2) d).get? j =
      match (sets.filter (fun s => s.1 = j)).getLast? with
      | some s => some s.2
      | none => d.get? j := by
  induction sets generalizing d with
  | nil => rfl
  | cons s sets ih =>
    rw [List.foldl_cons, ih, get?_set]
    by_cases hs : s.1 = j
    · rw [List.filter_cons_of_pos (by simpa using hs), List.getLast?_cons, if_pos hs]
      cases (sets.filter (fun s => s.1 = j)).getLast? <;> rfl
    · rw [List.filter_cons_of_neg (by simpa using hs), if_neg hs]

/-- New keys, all different, are appended in their order. -/
theorem foldl_set_entries (sets : List (κ × ν)) (d : Dict κ ν)
    (h : ((d.entries ++ sets).map Prod.fst).Nodup) :
    (sets.foldl (fun d s => d.set s.1 s.2) d).entries = d.entries ++ sets := by
  induction sets generalizing d with
  | nil => exact (List.append_nil _).symm
  | cons s sets ih =>
    have hnew : d.get? s.1 = none := by
      refine lookup_eq_none fun hmem => ?_
      rw [List.map_append, List.nodup_append] at h
      exact h.2.2 s.1 hmem s.1 (by simp) rfl
    have hset := set_entries_of_none (v := s.2) hnew
    rw [List.foldl_cons, ih (d.set s.1 s.2), hset, List.append_assoc]
    · rfl
    · rw [hset, List.append_assoc]
      exact h

end Dict

end UniSdk.Library

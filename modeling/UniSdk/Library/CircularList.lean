import Mathlib.Data.List.Chain
import Mathlib.Data.List.Nodup
import Mathlib.Logic.Function.Basic

/-!
# Circular doubly linked lists

Nodes of any type with a `next` and a `prev` pointer each. A circular list through a head is a
chain of linked pairs that returns to the head; the two updates replace one pair by two and two
pairs by one, and a frame lemma keeps the rest of the chain.
-/

namespace UniSdk.Library.CircularList

variable {ν : Type*}

/-- The pointers of every node; `none` is a null pointer. -/
structure Links (ν : Type*) where
  next : ν → Option ν
  prev : ν → Option ν

/-- The pointers between two neighbours. -/
def Linked (m : Links ν) (a b : ν) : Prop := m.next a = some b ∧ m.prev b = some a

/-- The list `xs` through the head `l`: from each node to the next one and back, round to `l`. -/
structure Circular (m : Links ν) (l : ν) (xs : List ν) : Prop where
  linked : (l :: xs ++ [l]).IsChain (Linked m)
  nodup : (l :: xs).Nodup

/-- A chain depends on `next` of all its nodes but the last, and on `prev` of all but the first. -/
theorem chain_frame {m m' : Links ν} {nodes : List ν} (h : nodes.IsChain (Linked m))
    (hnext : ∀ a ∈ nodes.dropLast, m'.next a = m.next a)
    (hprev : ∀ b ∈ nodes.tail, m'.prev b = m.prev b) : nodes.IsChain (Linked m') := by
  induction nodes with
  | nil => exact .nil
  | cons a nodes ih =>
    cases nodes with
    | nil => exact .singleton a
    | cons b nodes =>
      rw [List.isChain_cons_cons] at h ⊢
      obtain ⟨hab, hrest⟩ := h
      rw [List.dropLast_cons_of_ne_nil (List.cons_ne_nil b nodes)] at hnext
      constructor
      · constructor
        · rw [hnext a List.mem_cons_self]
          exact hab.1
        · rw [hprev b List.mem_cons_self]
          exact hab.2
      · apply ih hrest
        · exact fun x hx => hnext x (List.mem_cons_of_mem _ hx)
        · exact fun x hx => hprev x (List.mem_cons_of_mem _ hx)

variable {m : Links ν} {l : ν} {xs : List ν}

/-- The last node of the list, or the head of an empty one. -/
theorem Circular.last (h : Circular m l xs) :
    ∃ front p, l :: xs = front ++ [p] ∧ Linked m p l := by
  have hne : l :: xs ≠ [] := List.cons_ne_nil l xs
  refine ⟨(l :: xs).dropLast, (l :: xs).getLast hne, (List.dropLast_append_getLast hne).symm, ?_⟩
  have hchain := h.linked
  rw [← List.dropLast_append_getLast hne, List.append_assoc] at hchain
  exact (List.isChain_append_cons_cons.mp hchain).2.1

/-- A node points to the one behind it, and the last one to the head. -/
theorem Circular.next_eq {front back : List ν} {a : ν} (h : Circular m l xs)
    (hsplit : l :: xs = front ++ a :: back) : m.next a = some (back.head?.getD l) := by
  have hchain := h.linked
  rw [hsplit] at hchain
  cases back with
  | nil =>
    rw [List.append_assoc] at hchain
    exact (List.isChain_append_cons_cons.mp hchain).2.1.1
  | cons b back =>
    rw [List.append_assoc] at hchain
    exact (List.isChain_append_cons_cons.mp hchain).2.1.1

/-- A node of the list lies between two neighbours, each the end of a chain. -/
theorem Circular.neighbours {x : ν} {before behind : List ν}
    (h : Circular m l (before ++ x :: behind)) :
    ∃ front p q back, l :: before = front ++ [p] ∧ behind ++ [l] = q :: back ∧
      (front ++ [p]).IsChain (Linked m) ∧ Linked m p x ∧ Linked m x q ∧
      (q :: back).IsChain (Linked m) := by
  obtain ⟨front, p, hfront⟩ : ∃ front p, l :: before = front ++ [p] :=
    ⟨_, _, (List.dropLast_append_getLast (List.cons_ne_nil l before)).symm⟩
  obtain ⟨q, back, hback⟩ : ∃ q back, behind ++ [l] = q :: back :=
    List.exists_cons_of_ne_nil (List.append_ne_nil_of_right_ne_nil _ (List.cons_ne_nil l []))
  have hcycle : l :: (before ++ x :: behind) ++ [l] = front ++ p :: x :: q :: back := by
    have hleft : l :: (before ++ x :: behind) ++ [l] = (l :: before) ++ x :: (behind ++ [l]) := by
      simp
    rw [hleft, hfront, hback]
    simp
  have hchain := h.linked
  rw [hcycle, List.isChain_append_cons_cons, List.isChain_cons_cons] at hchain
  exact ⟨front, p, q, back, hfront, hback, hchain⟩

/-- The parts of the cycle around a node have no node twice and none in common. -/
theorem Circular.nodup_parts {x : ν} {before behind : List ν}
    (h : Circular m l (before ++ x :: behind)) :
    x ∉ l :: before ∧ x ∉ behind ++ [l] ∧ (behind ++ [l]).Nodup ∧
      ((l :: before) ++ behind).Nodup := by
  have hnodup := h.nodup
  rw [← List.cons_append, List.nodup_append] at hnodup
  obtain ⟨hbefore, hbehind, hdisjoint⟩ := hnodup
  obtain ⟨hxbehind, hnodupBehind⟩ := List.nodup_cons.mp hbehind
  have hxbefore : x ∉ l :: before := fun hx => hdisjoint x hx x List.mem_cons_self rfl
  have hl : l ∉ behind := fun hmem =>
    hdisjoint l List.mem_cons_self l (List.mem_cons_of_mem _ hmem) rfl
  refine ⟨hxbefore, ?_, ?_, ?_⟩
  · intro hx
    rcases List.mem_append.mp hx with hmem | hhead
    · exact hxbehind hmem
    · rw [List.mem_singleton.mp hhead] at hxbefore
      exact hxbefore List.mem_cons_self
  · apply hnodupBehind.append (List.nodup_singleton l)
    intro b hb hhead
    rw [List.mem_singleton.mp hhead] at hb
    exact hl hb
  · rw [List.nodup_append]
    exact ⟨hbefore, hnodupBehind, fun a ha b hb => hdisjoint a ha b (List.mem_cons_of_mem _ hb)⟩

section Updates

variable [DecidableEq ν]

/-- `n` between the neighbours `p` and `q`. -/
def Links.inserted (m : Links ν) (p n q : ν) : Links ν where
  next := Function.update (Function.update m.next n (some q)) p (some n)
  prev := Function.update (Function.update m.prev n (some p)) q (some n)

/-- `x` taken out between its neighbours `p` and `q`. -/
def Links.unlinked (m : Links ν) (p x q : ν) : Links ν where
  next := Function.update (Function.update m.next p (some q)) x none
  prev := Function.update (Function.update m.prev q (some p)) x none

/-- An insertion leaves a chain whose last node it may put another one behind, and whose first
node it may put one before. -/
theorem chain_inserted {p n q : ν} {nodes : List ν} (h : nodes.IsChain (Linked m))
    (hn : n ∉ nodes) (hp : p ∉ nodes.dropLast) (hq : q ∉ nodes.tail) :
    nodes.IsChain (Linked (m.inserted p n q)) := by
  apply chain_frame h
  · intro a ha
    have hap : a ≠ p := fun he => hp (he ▸ ha)
    have han : a ≠ n := fun he => hn (he ▸ List.dropLast_subset _ ha)
    simp only [Links.inserted, Function.update_of_ne hap, Function.update_of_ne han]
  · intro b hb
    have hbq : b ≠ q := fun he => hq (he ▸ hb)
    have hbn : b ≠ n := fun he => hn (he ▸ List.mem_of_mem_tail hb)
    simp only [Links.inserted, Function.update_of_ne hbq, Function.update_of_ne hbn]

/-- A removal leaves a chain that ends before the node, or begins behind it. -/
theorem chain_unlinked {p x q : ν} {nodes : List ν} (h : nodes.IsChain (Linked m))
    (hx : x ∉ nodes) (hp : p ∉ nodes.dropLast) (hq : q ∉ nodes.tail) :
    nodes.IsChain (Linked (m.unlinked p x q)) := by
  apply chain_frame h
  · intro a ha
    have hap : a ≠ p := fun he => hp (he ▸ ha)
    have hax : a ≠ x := fun he => hx (he ▸ List.dropLast_subset _ ha)
    simp only [Links.unlinked, Function.update_of_ne hap, Function.update_of_ne hax]
  · intro b hb
    have hbq : b ≠ q := fun he => hq (he ▸ hb)
    have hbx : b ≠ x := fun he => hx (he ▸ List.mem_of_mem_tail hb)
    simp only [Links.unlinked, Function.update_of_ne hbq, Function.update_of_ne hbx]

theorem Circular.insert_last {n : ν} (h : Circular m l xs) (hn : n ∉ l :: xs) :
    ∃ p, m.prev l = some p ∧ p ≠ n ∧ Circular (m.inserted p n l) l (xs ++ [n]) := by
  obtain ⟨front, p, hsplit, hlast⟩ := h.last
  have hnodup := h.nodup
  have hpn : p ≠ n := by
    intro he
    apply hn
    rw [hsplit, ← he]
    exact List.mem_append_right _ List.mem_cons_self
  have hln : l ≠ n := fun he => hn (he ▸ List.mem_cons_self)
  refine ⟨p, hlast.2, hpn, ?_⟩
  constructor
  · have hcycle : l :: (xs ++ [n]) ++ [l] = front ++ p :: n :: [l] := by
      rw [← List.cons_append, hsplit]
      simp
    rw [hcycle, List.isChain_append_cons_cons, ← hsplit, List.isChain_pair]
    refine ⟨?_, ⟨?_, ?_⟩, ⟨?_, ?_⟩⟩
    · have hchain := h.linked
      rw [hsplit, List.append_assoc] at hchain
      have hfront := (List.isChain_append_cons_cons.mp hchain).1
      rw [← hsplit] at hfront
      apply chain_inserted hfront hn
      · rw [hsplit] at hnodup ⊢
        rw [List.dropLast_concat]
        exact fun hp => (List.nodup_append.mp hnodup).2.2 p hp p List.mem_cons_self rfl
      · exact (List.nodup_cons.mp hnodup).1
    · simp only [Links.inserted, Function.update_self]
    · simp only [Links.inserted, Function.update_of_ne hln.symm, Function.update_self]
    · simp only [Links.inserted, Function.update_of_ne hpn.symm, Function.update_self]
    · simp only [Links.inserted, Function.update_self]
  · rw [← List.cons_append]
    apply hnodup.append (List.nodup_singleton n)
    intro a ha hmem
    rw [List.mem_singleton] at hmem
    exact hn (hmem ▸ ha)

theorem Circular.remove {x : ν} (h : Circular m l xs) (hx : x ∈ xs) :
    ∃ p q, m.prev x = some p ∧ m.next x = some q ∧ p ≠ x ∧ q ≠ x ∧
      Circular (m.unlinked p x q) l (xs.erase x) := by
  obtain ⟨before, behind, rfl⟩ := List.append_of_mem hx
  obtain ⟨front, p, q, back, hfront, hback, hchainFront, hpx, hxq, hchainBack⟩ := h.neighbours
  obtain ⟨hxbefore, hxbehind, hnodupBehind, hnodup⟩ := h.nodup_parts
  obtain ⟨hnodupBefore, -, hdisjoint⟩ := List.nodup_append.mp hnodup
  have hp : p ∈ l :: before := by rw [hfront]; exact List.mem_append_right _ List.mem_cons_self
  have hq : q ∈ behind ++ [l] := by rw [hback]; exact List.mem_cons_self
  have hpx' : p ≠ x := fun he => hxbefore (he ▸ hp)
  have hqx' : q ≠ x := fun he => hxbehind (he ▸ hq)
  refine ⟨p, q, hpx.2, hxq.1, hpx', hqx', ?_⟩
  have herase : (before ++ x :: behind).erase x = before ++ behind := by
    have hxbefore' : x ∉ before := fun hmem => hxbefore (List.mem_cons_of_mem _ hmem)
    rw [List.erase_append_right _ hxbefore', List.erase_cons_head]
  rw [herase]
  constructor
  · have hcycle : l :: (before ++ behind) ++ [l] = front ++ p :: q :: back := by
      have hleft : l :: (before ++ behind) ++ [l] = (l :: before) ++ (behind ++ [l]) := by simp
      rw [hleft, hfront, hback]
      simp
    rw [hcycle, List.isChain_append_cons_cons]
    refine ⟨?_, ⟨?_, ?_⟩, ?_⟩
    · apply chain_unlinked hchainFront
      · rwa [← hfront]
      · rw [List.dropLast_concat]
        rw [hfront] at hnodupBefore
        exact fun hmem => (List.nodup_append.mp hnodupBefore).2.2 p hmem p List.mem_cons_self rfl
      · rw [← hfront, List.tail_cons]
        intro hmem
        rcases List.mem_append.mp hq with hbehind | hhead
        · exact hdisjoint q (List.mem_cons_of_mem _ hmem) q hbehind rfl
        · rw [List.mem_singleton.mp hhead] at hmem
          exact (List.nodup_cons.mp hnodupBefore).1 hmem
    · simp only [Links.unlinked, Function.update_of_ne hpx', Function.update_self]
    · simp only [Links.unlinked, Function.update_of_ne hqx', Function.update_self]
    · apply chain_unlinked hchainBack
      · rwa [← hback]
      · rw [← hback, List.dropLast_concat]
        exact fun hmem => hdisjoint p hp p hmem rfl
      · rw [List.tail_cons]
        rw [hback] at hnodupBehind
        exact (List.nodup_cons.mp hnodupBehind).1
  · exact hnodup

end Updates

end UniSdk.Library.CircularList

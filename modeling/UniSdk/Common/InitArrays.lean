import UniSdk.Library.Names

/-!
# The registered functions of `tlk_init.c`

A function is registered by a pointer in a section that is named after its level and its priority;
the linker script puts the sections of an array in the order of their names, which leaves the order
of equal names open, and the loops of `tlk_init.c` call what they find. Names are texts: numbers of
as many digits come in the order of the numbers, others need not.
-/

namespace UniSdk.Common

open Library.Names

variable {σ : Type*}

def TLK_INIT_LEVEL_SYSTEM : Nat := 2
def TLK_INIT_LEVEL_DRIVER : Nat := 5
def TLK_INIT_LEVEL_APPLICATION : Nat := 8

def TLK_INIT_PRIORITY_HIGH : Nat := 2
def TLK_INIT_PRIORITY_NORMAL : Nat := 5
def TLK_INIT_PRIORITY_LOW : Nat := 8

/-- The arrays whose functions have a level and a priority. -/
inductive InitArray
  | preInit
  | beforeSuspend
  | afterSuspend
  | beforeSleep
  | afterSleep
  deriving DecidableEq, Repr

/-- The part of the section names that an array shares. -/
def InitArray.stem : InitArray → List Char
  | .preInit => ".pre_init_array_".toList
  | .beforeSuspend => ".before_suspend_array_".toList
  | .afterSuspend => ".after_suspend_array_".toList
  | .beforeSleep => ".before_sleep_array_".toList
  | .afterSleep => ".after_sleep_array_".toList

/-- `TLK_REGISTER_PRE_INIT(fn, level, priority)` and its siblings. What a call does to the state
includes the interrupts that are handled up to the next one. -/
structure Registration (σ : Type*) where
  level : Nat
  priority : Nat
  fn : σ → σ

namespace Registration

/-- The section of the pointer. -/
def sectionName (array : InitArray) (r : Registration σ) : List Char :=
  array.stem ++ (Nat.toDigits 10 r.level ++ '_' :: Nat.toDigits 10 r.priority)

/-- The level comes first, then the priority. -/
def rankedBefore (level priority : Nat) (r : Registration σ) : Bool :=
  decide (r.level < level) || (decide (r.level = level) && decide (r.priority < priority))

end Registration

/-- An order in which `KEEP(*(SORT(...)))` may place what is registered. -/
structure Linked (array : InitArray) (registered placed : List (Registration σ)) : Prop where
  perm : placed.Perm registered
  sorted : placed.Pairwise fun a b => nameLe (a.sectionName array) (b.sectionName array) = true

/-- What the linker has placed between the two symbols of each array. -/
abbrev InitImage (σ : Type*) := InitArray → List (Registration σ)

/-- The loop over an array. -/
def performAll (placed : List (Registration σ)) (s : σ) : σ := placed.foldl (fun s r => r.fn s) s

def tlkPerformPreInit (image : InitImage σ) : σ → σ := performAll (image .preInit)

def tlkPerformBeforeSuspend (image : InitImage σ) : σ → σ := performAll (image .beforeSuspend)

def tlkPerformAfterSuspend (image : InitImage σ) : σ → σ := performAll (image .afterSuspend)

def tlkPerformBeforeSleep (image : InitImage σ) : σ → σ := performAll (image .beforeSleep)

def tlkPerformAfterSleep (image : InitImage σ) : σ → σ := performAll (image .afterSleep)

theorem performAll_append (early late : List (Registration σ)) (s : σ) :
    performAll (early ++ late) s = performAll late (performAll early s) := List.foldl_append

/-- The levels have as many digits, and so have the priorities. -/
def SameDigits (registered : List (Registration σ)) : Prop :=
  ∀ a ∈ registered, ∀ b ∈ registered,
    (Nat.toDigits 10 a.level).length = (Nat.toDigits 10 b.level).length ∧
    (Nat.toDigits 10 a.priority).length = (Nat.toDigits 10 b.priority).length

instance (registered : List (Registration σ)) : Decidable (SameDigits registered) :=
  inferInstanceAs (Decidable (∀ _ ∈ _, ∀ _ ∈ _, _ ∧ _))

/-- Names in order are levels in order, and priorities in order where the levels are equal. -/
theorem sectionName_le {a b : Registration σ} (array : InitArray)
    (hlevel : (Nat.toDigits 10 a.level).length = (Nat.toDigits 10 b.level).length)
    (hpriority : (Nat.toDigits 10 a.priority).length = (Nat.toDigits 10 b.priority).length) :
    nameLe (a.sectionName array) (b.sectionName array) = true ↔
      a.level < b.level ∨ (a.level = b.level ∧ a.priority ≤ b.priority) := by
  have hnumbers := nameLe_numbers hpriority [] []
  simp only [List.append_nil] at hnumbers
  have htail : nameLe ('_' :: Nat.toDigits 10 a.priority) ('_' :: Nat.toDigits 10 b.priority) =
      nameLe (Nat.toDigits 10 a.priority) (Nat.toDigits 10 b.priority) := nameLe_append ['_'] _ _
  rw [Registration.sectionName, Registration.sectionName, nameLe_append, nameLe_numbers hlevel,
    htail, hnumbers, Nat.le_iff_lt_or_eq]
  simp [nameLe]

/-- The calls are in the order of the levels and priorities. -/
theorem Linked.ranks {array : InitArray} {registered placed : List (Registration σ)}
    (linked : Linked array registered placed) (hdigits : SameDigits registered) :
    placed.Pairwise fun a b =>
      a.level < b.level ∨ (a.level = b.level ∧ a.priority ≤ b.priority) := by
  refine linked.sorted.imp_of_mem fun ha hb hle => ?_
  obtain ⟨hlevel, hpriority⟩ := hdigits _ (linked.perm.subset ha) _ (linked.perm.subset hb)
  exact (sectionName_le array hlevel hpriority).mp hle

/-- The calls before a level and priority, and the others. -/
theorem performAll_split {array : InitArray} {registered placed : List (Registration σ)}
    (linked : Linked array registered placed) (hdigits : SameDigits registered)
    (level priority : Nat) (s : σ) :
    ∃ early late, early.Perm (registered.filter (·.rankedBefore level priority)) ∧
      late.Perm (registered.filter fun r => !r.rankedBefore level priority) ∧
      performAll placed s = performAll late (performAll early s) := by
  have hsplit := sorted_split (p := fun r => r.rankedBefore level priority)
    (linked.ranks hdigits) fun a b hab hb => by
      simp only [Registration.rankedBefore, Bool.or_eq_true, Bool.and_eq_true, decide_eq_true_eq]
        at hb ⊢
      omega
  refine ⟨_, _, linked.perm.filter _, linked.perm.filter _, ?_⟩
  rw [← performAll_append, ← hsplit]

/-- What one function gives, and no function keeps from being so that is not called before it,
holds at the end. -/
theorem performAll_sets {β : Type*} {array : InitArray} {registered placed : List (Registration σ)}
    (linked : Linked array registered placed) (hdigits : SameDigits registered)
    {r : Registration σ} (hmem : r ∈ registered) (view : σ → β) (v : β)
    (hset : ∀ s, view (r.fn s) = v)
    (hkeeps : ∀ r' ∈ registered, r'.rankedBefore r.level r.priority = false →
      ∀ s, view s = v → view (r'.fn s) = v) (s : σ) : view (performAll placed s) = v := by
  obtain ⟨early, late, -, hlate, hrun⟩ :=
    performAll_split linked hdigits r.level r.priority s
  have hin : r ∈ late := hlate.mem_iff.mpr
    (List.mem_filter.mpr ⟨hmem, by simp [Registration.rankedBefore]⟩)
  have hall : ∀ r' ∈ late, ∀ s, view s = v → view (r'.fn s) = v := fun r' hr' => by
    obtain ⟨hreg, hrank⟩ := List.mem_filter.mp (hlate.subset hr')
    exact hkeeps r' hreg (by simpa using hrank)
  have hstays : ∀ l : List (Registration σ), (∀ r' ∈ l, r' ∈ late) → ∀ s, view s = v →
      view (performAll l s) = v := fun l hl => by
    induction l with
    | nil => exact fun s hs => hs
    | cons r' l ih =>
      exact fun s hs => ih (fun q hq => hl q (List.mem_cons_of_mem r' hq)) _
        (hall r' (hl r' List.mem_cons_self) s hs)
  obtain ⟨front, back, hsplit⟩ := List.append_of_mem hin
  rw [hrun, hsplit, performAll_append]
  exact hstays back (fun q hq => hsplit ▸ List.mem_append_right _ (List.mem_cons_of_mem r hq)) _
    (hset _)

/-- **Every level and priority is a barrier.** In whatever order the linker places what is
registered, the calls are in the order of the levels and priorities: all the functions of an array
that come before a given level and priority, and no others, are called before all the functions that
do not, each of them once. -/
theorem init_functions_in_order (array : InitArray) {registered placed : List (Registration σ)}
    (linked : Linked array registered placed) (hdigits : SameDigits registered) :
    (placed.Pairwise fun a b =>
      a.level < b.level ∨ (a.level = b.level ∧ a.priority ≤ b.priority)) ∧
    ∀ (level priority : Nat) (s : σ),
      ∃ early late, early.Perm (registered.filter (·.rankedBefore level priority)) ∧
        late.Perm (registered.filter fun r => !r.rankedBefore level priority) ∧
        performAll placed s = performAll late (performAll early s) :=
  ⟨linked.ranks hdigits, performAll_split linked hdigits⟩

/-- A driver's function and two of the application, registered in the opposite order. -/
theorem init_functions_in_order_drivers :
    let registered : List (Registration (List Nat)) :=
      [⟨TLK_INIT_LEVEL_APPLICATION, TLK_INIT_PRIORITY_NORMAL, (· ++ [3])⟩,
        ⟨TLK_INIT_LEVEL_APPLICATION, TLK_INIT_PRIORITY_HIGH, (· ++ [2])⟩,
        ⟨TLK_INIT_LEVEL_DRIVER, TLK_INIT_PRIORITY_LOW, (· ++ [1])⟩]
    registered.reverse.Pairwise (fun a b =>
      a.level < b.level ∨ (a.level = b.level ∧ a.priority ≤ b.priority)) ∧
    performAll registered.reverse [] = [1, 2, 3] := by
  intro registered
  have linked : Linked .preInit registered registered.reverse :=
    ⟨List.reverse_perm registered, by decide +kernel⟩
  exact ⟨(init_functions_in_order .preInit linked (by decide +kernel)).1, rfl⟩

/-- The tenth level is placed before the second. -/
example : Linked .preInit
    [(⟨2, 5, id⟩ : Registration Nat), ⟨10, 5, id⟩] [⟨10, 5, id⟩, ⟨2, 5, id⟩] :=
  ⟨List.Perm.swap _ _ _, by decide +kernel⟩

end UniSdk.Common

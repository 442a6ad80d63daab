import UniSdk.Library.Programs
import Mathlib.Data.Nat.Init

/-!
# Programs with jumps

Instructions at consecutive places, with jumps and branches to places relative to their own. A block
does the same wherever it stands in a program, so triples are about blocks: they compose as straight
programs do, and a loop has a triple where each turn keeps an invariant and makes a measure smaller.
-/

namespace UniSdk.Library.Jumps

open Library.Programs

universe u v w

/-- The code of a program, over its instructions and the conditions of its branches. -/
inductive Code (ι : Type v) (κ : Type w)
  | instr (i : ι)
  | jump (offset : Int)
  | branch (cond : κ) (offset : Int)
  deriving DecidableEq, Repr

/-- What instructions do, where they do not trap, and when branches are taken. -/
structure Semantics (σ : Type u) (ι : Type v) (κ : Type w) where
  exec : σ → ι → Option σ
  holds : σ → κ → Bool

variable {σ : Type u} {ι : Type v} {κ : Type w}

/-- Where a jump from `pc` leads. -/
def target (pc : Nat) (offset : Int) : Nat := (pc + offset).toNat

/-- One step; there is none behind the last place, and none that traps. -/
def step (M : Semantics σ ι κ) (prog : List (Code ι κ)) : Nat × σ → Option (Nat × σ)
  | (pc, s) =>
    match prog[pc]? with
    | none => none
    | some (.instr i) => (M.exec s i).map fun t => (pc + 1, t)
    | some (.jump offset) => some (target pc offset, s)
    | some (.branch cond offset) =>
      some (if M.holds s cond then target pc offset else pc + 1, s)

def steps (M : Semantics σ ι κ) (prog : List (Code ι κ)) : Nat → Nat × σ → Option (Nat × σ)
  | 0, c => some c
  | n + 1, c => (step M prog c).bind (steps M prog n)

/-- The program comes from one place and state to another. -/
def Goes (M : Semantics σ ι κ) (prog : List (Code ι κ)) (c c' : Nat × σ) : Prop :=
  ∃ n, steps M prog n c = some c'

variable {M : Semantics σ ι κ} {prog : List (Code ι κ)}

theorem Goes.refl (c : Nat × σ) : Goes M prog c c := ⟨0, rfl⟩

theorem Goes.head {c c' c'' : Nat × σ} (h : step M prog c = some c') (rest : Goes M prog c' c'') :
    Goes M prog c c'' := by
  obtain ⟨n, hn⟩ := rest
  exact ⟨n + 1, by rw [steps, h]; exact hn⟩

theorem Goes.trans {c c' c'' : Nat × σ} (h : Goes M prog c c') (h' : Goes M prog c' c'') :
    Goes M prog c c'' := by
  obtain ⟨n, hn⟩ := h
  induction n generalizing c with
  | zero =>
    cases hn
    exact h'
  | succ n ih =>
    obtain ⟨next, hstep, hrest⟩ := Option.bind_eq_some_iff.mp hn
    exact .head hstep (ih hrest)

/-! ## Single steps -/

theorem step_instr {pc : Nat} {i : ι} {s t : σ} (hcode : prog[pc]? = some (.instr i))
    (hexec : M.exec s i = some t) : step M prog (pc, s) = some (pc + 1, t) := by
  rw [step, hcode]
  dsimp only
  rw [hexec]
  rfl

theorem step_jump {pc : Nat} {offset : Int} (s : σ) (hcode : prog[pc]? = some (.jump offset)) :
    step M prog (pc, s) = some (target pc offset, s) := by
  rw [step, hcode]

theorem step_branch {pc : Nat} {cond : κ} {offset : Int} (s : σ)
    (hcode : prog[pc]? = some (.branch cond offset)) :
    step M prog (pc, s) = some (if M.holds s cond then target pc offset else pc + 1, s) := by
  rw [step, hcode]

theorem target_back (pc n : Nat) : target (pc + n) (-(n : Int)) = pc := by
  unfold target
  omega

theorem target_forward (pc n : Nat) : target pc (n : Int) = pc + n := rfl

/-! ## Blocks -/

/-- The block stands at `pc`. -/
def CodeAt (prog : List (Code ι κ)) : Nat → List (Code ι κ) → Prop
  | _, [] => True
  | pc, code :: block => prog[pc]? = some code ∧ CodeAt prog (pc + 1) block

theorem codeAt_append (block block' : List (Code ι κ)) (pc : Nat) :
    CodeAt prog pc (block ++ block') ↔
      CodeAt prog pc block ∧ CodeAt prog (pc + block.length) block' := by
  induction block generalizing pc with
  | nil => exact ⟨fun h => ⟨trivial, h⟩, fun h => h.2⟩
  | cons code block ih =>
    rw [List.cons_append, CodeAt, CodeAt, ih, List.length_cons, Nat.add_right_comm, Nat.add_assoc pc,
      and_assoc]

/-- Between a front and a back part. -/
theorem codeAt_between (front block back : List (Code ι κ)) :
    CodeAt (front ++ (block ++ back)) front.length block := by
  induction block generalizing front with
  | nil => trivial
  | cons code block ih =>
    have hrest := ih (front ++ [code])
    rw [List.append_assoc, List.singleton_append, List.length_append, List.length_singleton]
      at hrest
    exact ⟨by simp, hrest⟩

/-- From every state with `P` the block runs to its end wherever it stands, and `Q` holds there. -/
def BlockTriple (M : Semantics σ ι κ) (P : σ → Prop) (block : List (Code ι κ)) (Q : σ → Prop) :
    Prop :=
  ∀ prog pc s, CodeAt prog pc block → P s →
    ∃ t, Goes M prog (pc, s) (pc + block.length, t) ∧ Q t

variable {P R Q : σ → Prop} {block block' : List (Code ι κ)}

theorem BlockTriple.nil (P : σ → Prop) : BlockTriple M P [] P :=
  fun _ _ s _ hs => ⟨s, .refl _, hs⟩

theorem BlockTriple.weaken (h : BlockTriple M P block Q) {P' Q' : σ → Prop}
    (hP : ∀ s, P' s → P s) (hQ : ∀ s, Q s → Q' s) : BlockTriple M P' block Q' := by
  intro prog pc s hat hs
  obtain ⟨t, hgoes, ht⟩ := h prog pc s hat (hP s hs)
  exact ⟨t, hgoes, hQ t ht⟩

theorem BlockTriple.append (first : BlockTriple M P block R) (second : BlockTriple M R block' Q) :
    BlockTriple M P (block ++ block') Q := by
  intro prog pc s hat hs
  obtain ⟨hat, hat'⟩ := (codeAt_append ..).mp hat
  obtain ⟨t, hfirst, ht⟩ := first prog pc s hat hs
  obtain ⟨u, hsecond, hu⟩ := second prog _ t hat' ht
  rw [List.length_append, ← Nat.add_assoc]
  exact ⟨u, hfirst.trans hsecond, hu⟩

theorem goes_straight {instrs : List ι} {pc : Nat} {s t : σ}
    (hat : CodeAt prog pc (instrs.map .instr)) (hrun : instrs.foldlM M.exec s = some t) :
    Goes M prog (pc, s) (pc + instrs.length, t) := by
  induction instrs generalizing pc s with
  | nil =>
    cases hrun
    exact .refl _
  | cons i instrs ih =>
    obtain ⟨next, hexec, hrest⟩ := Option.bind_eq_some_iff.mp hrun
    have hthen := ih hat.2 hrest
    rw [Nat.add_assoc, Nat.add_comm 1] at hthen
    exact .head (step_instr hat.1 hexec) hthen

/-- Instructions that run one after the other. -/
theorem BlockTriple.straight {instrs : List ι} (h : Triple M.exec P instrs Q) :
    BlockTriple M P (instrs.map .instr) Q := by
  intro prog pc s hat hs
  obtain ⟨t, hrun, ht⟩ := h s hs
  rw [List.length_map]
  exact ⟨t, goes_straight hat hrun, ht⟩

/-- A loop that tests behind its body. -/
theorem BlockTriple.doWhile (body : List ι) (cond : κ) {I : σ → Prop} (measure : σ → Nat)
    (h : ∀ s, I s → ∃ t, body.foldlM M.exec s = some t ∧
      if M.holds t cond then I t ∧ measure t < measure s else Q t) :
    BlockTriple M I (body.map .instr ++ [.branch cond (-(body.length : Int))]) Q := by
  intro prog pc s hat hs
  obtain ⟨hbody, hbranch, -⟩ := (codeAt_append ..).mp hat
  rw [List.length_map] at hbranch
  rw [List.length_append, List.length_map, List.length_singleton, ← Nat.add_assoc]
  induction hm : measure s using Nat.strong_induction_on generalizing s with
  | _ m ih =>
    obtain ⟨t, hrun, ht⟩ := h s hs
    have hturn := goes_straight hbody hrun
    have htest := step_branch (M := M) t hbranch
    rw [target_back] at htest
    split at ht
    · next hagain =>
      rw [if_pos hagain] at htest
      obtain ⟨u, hrest, hu⟩ := ih (measure t) (hm ▸ ht.2) t ht.1 rfl
      exact ⟨u, hturn.trans (.head htest hrest), hu⟩
    · next hdone =>
      rw [if_neg hdone] at htest
      exact ⟨t, hturn.trans (.head htest (.refl _)), ht⟩

/-- A loop that tests before its body, and leaves when the condition holds. -/
theorem BlockTriple.untilDo (body : List ι) (cond : κ) {I : σ → Prop} (measure : σ → Nat)
    (h : ∀ s, I s → if M.holds s cond then Q s else
      ∃ t, body.foldlM M.exec s = some t ∧ I t ∧ measure t < measure s) :
    BlockTriple M I (.branch cond ((body.length + 2 : Nat) : Int) ::
      (body.map .instr ++ [.jump (-((1 + body.length : Nat) : Int))])) Q := by
  intro prog pc s hat hs
  obtain ⟨hbranch, hat⟩ := hat
  obtain ⟨hbody, hjump, -⟩ := (codeAt_append ..).mp hat
  rw [List.length_map, Nat.add_assoc] at hjump
  rw [List.length_cons, List.length_append, List.length_map, List.length_singleton]
  induction hm : measure s using Nat.strong_induction_on generalizing s with
  | _ m ih =>
    have hnext := h s hs
    have htest := step_branch (M := M) s hbranch
    rw [target_forward] at htest
    split at hnext
    · next hdone =>
      rw [if_pos hdone] at htest
      exact ⟨s, .head htest (.refl _), hnext⟩
    · next hagain =>
      rw [if_neg hagain] at htest
      obtain ⟨t, hrun, hI, hless⟩ := hnext
      have hturn := goes_straight hbody hrun
      have hback := step_jump (M := M) t hjump
      rw [target_back, ← Nat.add_assoc] at hback
      obtain ⟨u, hrest, hu⟩ := ih (measure t) (hm ▸ hless) t hI rfl
      exact ⟨u, .head htest (hturn.trans (.head hback hrest)), hu⟩

end UniSdk.Library.Jumps

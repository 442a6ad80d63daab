/-!
# Runs of a partial step function

A run follows a list of actions through `step` and meets a condition at every step. An
invariant that every such step preserves holds wherever a run ends.
-/

namespace UniSdk.Library.Runs

universe u v

variable {σ : Type u} {ι : Type v} {step : σ → ι → Option σ} {ok : σ → ι → σ → Prop}

/-- `Run step ok s acts s'`: the actions lead from `s` to `s'`, and each step meets `ok`. -/
inductive Run (step : σ → ι → Option σ) (ok : σ → ι → σ → Prop) : σ → List ι → σ → Prop
  | nil (s : σ) : Run step ok s [] s
  | cons {s t u : σ} {a : ι} {acts : List ι} (hstep : step s a = some t) (hok : ok s a t)
      (rest : Run step ok t acts u) : Run step ok s (a :: acts) u

/-- What every step that meets the condition preserves holds at the end of every run. -/
theorem Run.invariant {P : σ → Prop} {s s' : σ} {acts : List ι} (run : Run step ok s acts s')
    (hs : P s) (hstep : ∀ s a s', step s a = some s' → ok s a s' → P s → P s') : P s' := by
  induction run with
  | nil s => exact hs
  | cons h hok rest ih => exact ih (hstep _ _ _ h hok hs)

/-- Where an invariant makes each step that meets one condition meet another and go on to a state
with the invariant, so does the run. -/
theorem Run.imp {ok' : σ → ι → σ → Prop} {P : σ → Prop} {s s' : σ} {acts : List ι}
    (run : Run step ok s acts s') (hs : P s)
    (hstep : ∀ s a s', step s a = some s' → ok s a s' → P s → ok' s a s' ∧ P s') :
    Run step ok' s acts s' := by
  induction run with
  | nil s => exact .nil s
  | cons h hok rest ih =>
    obtain ⟨hok', hnext⟩ := hstep _ _ _ h hok hs
    exact .cons h hok' (ih hnext)

/-- A measure that every step makes smaller bounds the length of every run. -/
theorem Run.length_add_le {P : σ → Prop} {measure : σ → Nat} {s s' : σ} {acts : List ι}
    (run : Run step ok s acts s') (hs : P s)
    (hstep : ∀ s a s', step s a = some s' → ok s a s' → P s → P s' ∧ measure s' < measure s) :
    acts.length + measure s' ≤ measure s := by
  induction run with
  | nil s => simp
  | cons h hok rest ih =>
    obtain ⟨hnext, hlt⟩ := hstep _ _ _ h hok hs
    have hrest := ih hnext
    rw [List.length_cons]
    omega

/-- A response within bounds: where each step either answers or makes the measure smaller, if it
counts, and no larger, if it does not, a run with more steps that count than the measure at its
start has one that answers. -/
theorem Run.responds {P : σ → Prop} {answers : σ → σ → Prop} {counts : ι → Bool}
    {s s' : σ} {acts : List ι} (run : Run step ok s acts s') (measure : σ → Nat) (hs : P s)
    (hstep : ∀ s a s', step s a = some s' → ok s a s' → P s →
      answers s s' ∨ P s' ∧ measure s' + (if counts a then 1 else 0) ≤ measure s)
    (hlong : measure s < acts.countP counts) :
    ∃ before a after t u, acts = before ++ a :: after ∧ Run step ok s before t ∧
      step t a = some u ∧ ok t a u ∧ P t ∧ answers t u := by
  induction run with
  | nil s => exact absurd hlong (Nat.not_lt_zero _)
  | cons h hok rest ih =>
    rcases hstep _ _ _ h hok hs with hans | ⟨hnext, hle⟩
    · exact ⟨[], _, _, _, _, rfl, .nil _, h, hok, hs, hans⟩
    · rw [List.countP_cons] at hlong
      obtain ⟨before, a, after, t, u, rfl, run, hstep', hok', ht, hans⟩ := ih hnext (by omega)
      exact ⟨_ :: before, a, after, t, u, rfl, .cons h hok run, hstep', hok', ht, hans⟩

/-- Three components, the first one leading, with bounds for the second and the third. -/
def lexRank (B C a b c : Nat) : Nat := (a * (B + 1) + b) * (C + 1) + c

theorem lexRank_lt_third {B C a b c c' : Nat} (h : c' < c) :
    lexRank B C a b c' < lexRank B C a b c := Nat.add_lt_add_left h _

theorem lexRank_lt_second {B C a b b' c c' : Nat} (h : b' < b) (hc : c' ≤ C) :
    lexRank B C a b' c' < lexRank B C a b c := by
  have hle := Nat.mul_le_mul_right (C + 1) (show a * (B + 1) + b' + 1 ≤ a * (B + 1) + b by omega)
  rw [Nat.add_mul, Nat.one_mul] at hle
  unfold lexRank
  omega

theorem lexRank_lt_first {B C a a' b b' c c' : Nat} (h : a' < a) (hb : b' ≤ B) (hc : c' ≤ C) :
    lexRank B C a' b' c' < lexRank B C a b c := by
  have hfirst := Nat.mul_le_mul_right (B + 1) (show a' + 1 ≤ a by omega)
  rw [Nat.add_mul, Nat.one_mul] at hfirst
  have hle := Nat.mul_le_mul_right (C + 1) (show a' * (B + 1) + b' + 1 ≤ a * (B + 1) + b by omega)
  rw [Nat.add_mul, Nat.one_mul] at hle
  unfold lexRank
  omega

theorem Run.trans {s t u : σ} {acts acts' : List ι} (run : Run step ok s acts t)
    (run' : Run step ok t acts' u) : Run step ok s (acts ++ acts') u := by
  induction run with
  | nil s => exact run'
  | cons h hok rest ih => exact .cons h hok (ih run')

/-- Some run leads from `s` to `s'`. -/
def Leads (step : σ → ι → Option σ) (ok : σ → ι → σ → Prop) (s s' : σ) : Prop :=
  ∃ acts, Run step ok s acts s'

theorem Leads.refl (s : σ) : Leads step ok s s := ⟨[], .nil s⟩

theorem Leads.single {s s' : σ} (a : ι) (h : step s a = some s') (hok : ok s a s') :
    Leads step ok s s' := ⟨[a], .cons h hok (.nil s')⟩

theorem Leads.trans {s t u : σ} (h : Leads step ok s t) (h' : Leads step ok t u) :
    Leads step ok s u := by
  obtain ⟨acts, run⟩ := h
  obtain ⟨acts', run'⟩ := h'
  exact ⟨acts ++ acts', run.trans run'⟩

/-- Follow the actions as long as each step exists and meets the condition. -/
def follow (step : σ → ι → Option σ) (ok : σ → ι → σ → Prop) [∀ s a t, Decidable (ok s a t)] :
    σ → List ι → Option σ
  | s, [] => some s
  | s, a :: acts =>
    match step s a with
    | none => none
    | some t => if ok s a t then follow step ok t acts else none

variable [∀ s a t, Decidable (ok s a t)]

theorem run_of_follow {s s' : σ} {acts : List ι} (h : follow step ok s acts = some s') :
    Run step ok s acts s' := by
  induction acts generalizing s with
  | nil =>
    rw [follow, Option.some.injEq] at h
    rw [h]
    exact .nil s'
  | cons a acts ih =>
    rw [follow] at h
    cases hstep : step s a with
    | none => rw [hstep] at h; cases h
    | some t =>
      rw [hstep] at h
      dsimp only at h
      split at h
      · next hok => exact .cons hstep hok (ih h)
      · cases h

/-- A run to a state with the property `P`, found by evaluation. -/
theorem exists_run_of_follow {s : σ} {acts : List ι} (P : σ → Prop) [DecidablePred P]
    (h : (follow step ok s acts).any (fun t => decide (P t)) = true) :
    ∃ s', Run step ok s acts s' ∧ P s' := by
  obtain ⟨s', hs', hp⟩ := (Option.any_eq_true _ _).mp h
  exact ⟨s', run_of_follow hs', of_decide_eq_true hp⟩

end UniSdk.Library.Runs

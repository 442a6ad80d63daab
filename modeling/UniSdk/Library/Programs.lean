import Mathlib.Data.List.Basic

/-!
# Straight programs

Instructions that run one after the other, each of which may trap. A triple says that from every
state with the precondition the program runs to its end, and what holds there. Programs that treat
the entries of a table one after the other keep an invariant that says which entries are done.
-/

namespace UniSdk.Library.Programs

universe u v w

variable {σ : Type u} {ι : Type v} {α : Type w} {exec : σ → ι → Option σ}

/-- From every state with `P` the program runs to its end without a trap, and `Q` holds there. -/
def Triple (exec : σ → ι → Option σ) (P : σ → Prop) (prog : List ι) (Q : σ → Prop) : Prop :=
  ∀ s, P s → ∃ t, prog.foldlM exec s = some t ∧ Q t

theorem run_cons {i : ι} {prog : List ι} {s t : σ} (h : exec s i = some t) :
    (i :: prog).foldlM exec s = prog.foldlM exec t := by
  rw [List.foldlM_cons, h]
  rfl

theorem Triple.nil (P : σ → Prop) : Triple exec P [] P := fun s hs => ⟨s, rfl, hs⟩

theorem Triple.single {P Q : σ → Prop} {i : ι} (h : ∀ s, P s → ∃ t, exec s i = some t ∧ Q t) :
    Triple exec P [i] Q := by
  intro s hs
  obtain ⟨t, ht, hQ⟩ := h s hs
  exact ⟨t, run_cons ht, hQ⟩

theorem Triple.append {P R Q : σ → Prop} {prog prog' : List ι} (first : Triple exec P prog R)
    (second : Triple exec R prog' Q) : Triple exec P (prog ++ prog') Q := by
  intro s hs
  obtain ⟨t, ht, hR⟩ := first s hs
  obtain ⟨u, hu, hQ⟩ := second t hR
  refine ⟨u, ?_, hQ⟩
  rw [List.foldlM_append, ht]
  exact hu

theorem Triple.cons {P R Q : σ → Prop} {i : ι} {prog : List ι}
    (first : ∀ s, P s → ∃ t, exec s i = some t ∧ R t) (rest : Triple exec R prog Q) :
    Triple exec P (i :: prog) Q :=
  Triple.append (Triple.single first) rest

theorem Triple.weaken {P Q Q' : σ → Prop} {prog : List ι} (h : Triple exec P prog Q)
    (hQ : ∀ s, Q s → Q' s) : Triple exec P prog Q' := by
  intro s hs
  obtain ⟨t, ht, hq⟩ := h s hs
  exact ⟨t, ht, hQ t hq⟩

/-- A table treated entry by entry: the invariant names the entries that are done. -/
theorem Triple.table {I : List α → σ → Prop} {block : α → List ι} {entries : List α}
    (h : ∀ done, ∀ e ∈ entries, Triple exec (I done) (block e) (I (done ++ [e]))) :
    Triple exec (I []) (entries.flatMap block) (I entries) := by
  have hfrom : ∀ rest done, (∀ e ∈ rest, e ∈ entries) →
      Triple exec (I done) (rest.flatMap block) (I (done ++ rest)) := by
    intro rest
    induction rest with
    | nil =>
      intro done _
      rw [List.append_nil]
      exact Triple.nil _
    | cons e rest ih =>
      intro done hin
      have hrest := ih (done ++ [e]) fun x hx => hin x (List.mem_cons_of_mem e hx)
      rw [List.append_assoc, List.singleton_append] at hrest
      exact (h done e (hin e List.mem_cons_self)).append hrest
  exact hfrom entries [] fun e he => he

/-! ## Programs whose instructions never trap -/

/-- Before each instruction of the program `P` holds of it and of the state it is executed in. -/
def Throughout (exec : σ → ι → σ) (P : ι → σ → Prop) : List ι → σ → Prop
  | [], _ => True
  | i :: prog, s => P i s ∧ Throughout exec P prog (exec s i)

theorem throughout_append {exec : σ → ι → σ} {P : ι → σ → Prop} (prog prog' : List ι) (s : σ) :
    Throughout exec P (prog ++ prog') s ↔
      Throughout exec P prog s ∧ Throughout exec P prog' (prog.foldl exec s) := by
  induction prog generalizing s with
  | nil => exact ⟨fun h => ⟨trivial, h⟩, fun h => h.2⟩
  | cons i prog ih =>
    rw [List.cons_append, Throughout, Throughout, ih, List.foldl_cons, and_assoc]

end UniSdk.Library.Programs

import UniSdk.Library.Runs
import UniSdk.Planner.SwTimer

/-!
# Planner calls inside critical sections

Code that runs with MSTATUS.MIE clear and calls the planner. `tlk_task_work_submit` with a
function and `tlk_task_sw_timer_start` open their own closed section and end it with
`tlk_core_interrupt_enable`, which sets MIE whatever it was before; only a call that returns
before that keeps the caller's section closed.
-/

namespace UniSdk.Planner

open UniSdk.Core Library.Runs

variable {n : Nat} {φ α : Type}

/-- What a closed piece of code does, as far as MSTATUS and the planner are concerned:
`critical` is a body between `tlk_core_interrupt_disable` and the matching
`tlk_core_interrupt_restore`. -/
inductive Frag (n : Nat) (φ α : Type)
  | submit (fn : Option φ) (arg : α)
  | swTimerStart (i : Fin n) (d : Nat)
  | critical (body : List (Frag n φ α))

/-- A statement about to run. A call runs statement by statement once it is entered; `restore`
holds the value that the section's disable returned. -/
inductive Stmt (n : Nat) (φ α : Type)
  | frag (f : Frag n φ α)
  | restore (en : Bool)
  | interruptDisable
  | submitCore (fn : φ) (arg : α)
  | startCore (i : Fin n) (d : Nat)
  | enableMstatus
  | enableMeie

/-- The shared data and MSTATUS. -/
structure Cpu (n : Nat) (φ α : Type) where
  shared : PlannerState n φ α
  mstatus : Mstatus

/-- The two statements of `tlk_core_interrupt_enable`. -/
def interruptEnable : List (Stmt n φ α) := [.enableMstatus, .enableMeie]

/-- Execute a statement: the statements it enters, and what it does. The code between a
call's disable and its enable is one statement. -/
def Stmt.exec (c : QueueSize) (h : Cpu n φ α) : Stmt n φ α → List (Stmt n φ α) × Cpu n φ α
  | .frag (.submit none _) => ([], h)
  | .frag (.submit (some fn) arg) =>
    ([.interruptDisable, .submitCore fn arg] ++ interruptEnable, h)
  | .frag (.swTimerStart i d) => ([.interruptDisable, .startCore i d] ++ interruptEnable, h)
  | .frag (.critical body) =>
    let r := tlkCoreInterruptDisable h.mstatus
    (body.map .frag ++ [.restore r.1], { h with mstatus := r.2 })
  | .restore en => ([], { h with mstatus := tlkCoreInterruptRestore en h.mstatus })
  | .interruptDisable => ([], { h with mstatus := (tlkCoreInterruptDisable h.mstatus).2 })
  | .submitCore fn arg => ([], { h with shared := h.shared.submit c (some fn) arg })
  | .startCore i d => ([], { h with shared := tlkTaskSwTimerStart i d h.shared })
  | .enableMstatus => ([], { h with mstatus := { h.mstatus with mie := true } })
  | .enableMeie =>
    ([], { h with shared := { h.shared with work := { h.shared.work with
      mie := { h.shared.work.mie with meie := true } } } })

/-- A piece of code in execution. `taken` counts the interrupts taken so far. -/
structure Context (n : Nat) (φ α : Type) where
  cpu : Cpu n φ α
  mepc : Nat
  todo : List (Stmt n φ α)
  taken : Nat

/-- `interrupt` is one that is taken at the code address `pc` and returned from: its handler
makes the planner calls `calls`. -/
inductive ContextAction (n : Nat) (φ α : Type)
  | exec
  | tick (d : Nat)
  | interrupt (source : Interrupt) (pc : Nat) (calls : List (Call n φ α))

def contextStep (c : QueueSize) (s : Context n φ α) :
    ContextAction n φ α → Option (Context n φ α)
  | .exec =>
    match s.todo with
    | [] => none
    | st :: rest =>
      let r := st.exec c s.cpu
      some { s with cpu := r.2, todo := r.1 ++ rest }
  | .tick d => some { s with cpu := { s.cpu with shared := s.cpu.shared.tick d } }
  | .interrupt source pc calls =>
    if s.cpu.mstatus.mie && s.cpu.shared.work.mie.enabled source then
      some { s with
        cpu := {
          shared := runCalls c calls s.cpu.shared
          mstatus := (s.cpu.mstatus.trapEntry .machine).mret }
        mepc := pc
        taken := s.taken + 1 }
    else none

mutual

/-- The fragment starts no timer, and every submit in it lacks a function. -/
def Frag.quiet : Frag n φ α → Bool
  | .submit fn _ => fn.isNone
  | .swTimerStart .. => false
  | .critical body => Frag.allQuiet body

def Frag.allQuiet : List (Frag n φ α) → Bool
  | [] => true
  | f :: fs => f.quiet && Frag.allQuiet fs

end

theorem allQuiet_iff (fs : List (Frag n φ α)) :
    Frag.allQuiet fs = true ↔ ∀ f ∈ fs, f.quiet = true := by
  induction fs with
  | nil => simp [Frag.allQuiet]
  | cons f fs ih => simp [Frag.allQuiet, ih]

/-- Interrupts are masked still, none was taken, and MEPC is what it was. -/
structure Undisturbed (s s' : Context n φ α) : Prop where
  masked : s'.cpu.mstatus.mie = false
  untaken : s'.taken = s.taken
  mepc : s'.mepc = s.mepc

/-! ## Quiet code keeps its section closed -/

/-- Quiet code, or the end of a section that was entered with MIE clear. -/
def Stmt.harmless : Stmt n φ α → Bool
  | .frag f => f.quiet
  | .restore en => !en
  | _ => false

/-- A harmless statement enters harmless ones only, keeps MIE clear and leaves the planner's
data alone. -/
theorem exec_harmless (c : QueueSize) {h : Cpu n φ α} {st : Stmt n φ α}
    (hst : st.harmless = true) (hm : h.mstatus.mie = false) :
    (∀ st' ∈ (st.exec c h).1, st'.harmless = true) ∧ (st.exec c h).2.mstatus.mie = false ∧
      (st.exec c h).2.shared = h.shared := by
  cases st with
  | frag f =>
    cases f with
    | submit fn arg =>
      cases fn with
      | none => exact ⟨nofun, hm, rfl⟩
      | some fn => cases hst
    | swTimerStart i d => cases hst
    | critical body =>
      refine ⟨fun st' hmem => ?_, rfl, rfl⟩
      have hbody := (allQuiet_iff body).mp hst
      simp only [Stmt.exec, tlkCoreInterruptDisable, hm, List.mem_append, List.mem_map,
        List.mem_singleton] at hmem
      obtain ⟨f, hf, rfl⟩ | rfl := hmem
      · exact hbody f hf
      · rfl
  | restore en =>
    have hen : en = false := by simpa [Stmt.harmless] using hst
    rw [hen]
    exact ⟨nofun, hm, rfl⟩
  | _ => cases hst

theorem contextStep_undisturbed {c : QueueSize} {s₀ s s' : Context n φ α}
    {a : ContextAction n φ α} (h : contextStep c s a = some s')
    (hs : Undisturbed s₀ s ∧ ∀ st ∈ s.todo, st.harmless = true) :
    Undisturbed s₀ s' ∧ ∀ st ∈ s'.todo, st.harmless = true := by
  obtain ⟨hu, htodo⟩ := hs
  cases a with
  | exec =>
    simp only [contextStep] at h
    split at h
    · cases h
    · next st rest hlist =>
      cases h
      rw [hlist] at htodo
      obtain ⟨hnew, hm, -⟩ := exec_harmless c (htodo st List.mem_cons_self) hu.masked
      refine ⟨⟨hm, hu.untaken, hu.mepc⟩, fun st' hmem => ?_⟩
      rcases List.mem_append.mp hmem with hleft | hright
      · exact hnew st' hleft
      · exact htodo st' (List.mem_cons_of_mem _ hright)
  | tick d =>
    cases h
    exact ⟨⟨hu.masked, hu.untaken, hu.mepc⟩, htodo⟩
  | interrupt source pc calls =>
    simp only [contextStep, hu.masked, Bool.false_and, Bool.false_eq_true, if_false] at h
    cases h

/-! ## Any other code opens it -/

/-- Some run of the context leads from `s` to `s'`. -/
abbrev ContextLeads (c : QueueSize) (s s' : Context n φ α) : Prop :=
  Leads (contextStep c) (fun _ _ _ => True) s s'

theorem leads_exec {c : QueueSize} {s : Context n φ α} {st : Stmt n φ α}
    {rest : List (Stmt n φ α)} (h : s.todo = st :: rest) :
    ContextLeads c s { s with cpu := (st.exec c s.cpu).2, todo := (st.exec c s.cpu).1 ++ rest } :=
  .single .exec (by simp only [contextStep, h]) trivial

theorem leads_into_critical (c : QueueSize) {s : Context n φ α} {body : List (Frag n φ α)}
    {rest : List (Stmt n φ α)} (h : s.todo = .frag (.critical body) :: rest) :
    ∃ t, ContextLeads c s t ∧ t.todo = body.map .frag ++ (.restore s.cpu.mstatus.mie :: rest) :=
  ⟨_, leads_exec h, by simp [Stmt.exec, tlkCoreInterruptDisable]⟩

mutual

/-- Quiet code runs to its end. -/
theorem Frag.runs_through (c : QueueSize) (f : Frag n φ α) (hf : f.quiet = true)
    (s : Context n φ α) {rest : List (Stmt n φ α)} (h : s.todo = .frag f :: rest) :
    ∃ s', ContextLeads c s s' ∧ s'.todo = rest := by
  cases f with
  | submit fn arg =>
    cases fn with
    | none => exact ⟨_, leads_exec h, rfl⟩
    | some fn => cases hf
  | swTimerStart i d => cases hf
  | critical body =>
    have hbody : Frag.allQuiet body = true := hf
    obtain ⟨u, henter, hu⟩ := leads_into_critical c h
    obtain ⟨t, hthrough, ht⟩ := Frag.all_run_through c body hbody u hu
    exact ⟨_, (henter.trans hthrough).trans (leads_exec ht), rfl⟩

theorem Frag.all_run_through (c : QueueSize) (fs : List (Frag n φ α))
    (hfs : Frag.allQuiet fs = true) (s : Context n φ α) {rest : List (Stmt n φ α)}
    (h : s.todo = fs.map .frag ++ rest) : ∃ s', ContextLeads c s s' ∧ s'.todo = rest := by
  cases fs with
  | nil => exact ⟨s, .refl s, h⟩
  | cons f fs =>
    rw [Frag.allQuiet, Bool.and_eq_true] at hfs
    obtain ⟨t, hthrough, ht⟩ := Frag.runs_through c f hfs.1 s h
    obtain ⟨u, hrest, hu⟩ := Frag.all_run_through c fs hfs.2 t ht
    exact ⟨u, hthrough.trans hrest, hu⟩

end

/-- A call that enters its own section is led to the statement that sets MIE. -/
theorem leads_to_enable (c : QueueSize) {s : Context n φ α} {f : Frag n φ α}
    {core : Stmt n φ α} {rest : List (Stmt n φ α)} (h : s.todo = .frag f :: rest)
    (hf : ((Stmt.frag f).exec c s.cpu).1 = [.interruptDisable, core] ++ interruptEnable)
    (hcore : ∀ h, (core.exec c h).1 = []) :
    ∃ s', ContextLeads c s s' ∧ s'.cpu.mstatus.mie = true := by
  have h1 := leads_exec (c := c) h
  rw [hf] at h1
  have h2 := h1.trans (leads_exec rfl)
  have h3 := h2.trans (leads_exec rfl)
  rw [hcore] at h3
  exact ⟨_, h3.trans (leads_exec rfl), rfl⟩

mutual

/-- Code that is not quiet reaches a state in which MIE is set. -/
theorem Frag.reaches_open (c : QueueSize) (f : Frag n φ α) (hf : f.quiet = false)
    (s : Context n φ α) {rest : List (Stmt n φ α)} (h : s.todo = .frag f :: rest) :
    ∃ s', ContextLeads c s s' ∧ s'.cpu.mstatus.mie = true := by
  cases f with
  | submit fn arg =>
    cases fn with
    | none => cases hf
    | some fn => exact leads_to_enable c h rfl fun _ => rfl
  | swTimerStart i d => exact leads_to_enable c h rfl fun _ => rfl
  | critical body =>
    have hbody : Frag.allQuiet body = false := hf
    obtain ⟨u, henter, hu⟩ := leads_into_critical c h
    obtain ⟨t, hreach, ht⟩ := Frag.some_reaches_open c body hbody u hu
    exact ⟨t, henter.trans hreach, ht⟩

theorem Frag.some_reaches_open (c : QueueSize) (fs : List (Frag n φ α))
    (hfs : Frag.allQuiet fs = false) (s : Context n φ α) {rest : List (Stmt n φ α)}
    (h : s.todo = fs.map .frag ++ rest) : ∃ s', ContextLeads c s s' ∧ s'.cpu.mstatus.mie = true := by
  cases fs with
  | nil => cases hfs
  | cons f fs =>
    by_cases hf : f.quiet = true
    · have hrest : Frag.allQuiet fs = false := by simpa [Frag.allQuiet, hf] using hfs
      obtain ⟨t, hthrough, ht⟩ := Frag.runs_through c f hf s h
      obtain ⟨u, hreach, hu⟩ := Frag.some_reaches_open c fs hrest t ht
      exact ⟨u, hthrough.trans hreach, hu⟩
    · exact Frag.reaches_open c f (Bool.eq_false_iff.mpr hf) s h

end

/-- A fragment that begins with MIE clear keeps it clear throughout, takes no interrupt and
keeps MEPC, in every run and under every placement of interrupts, exactly when it starts no
timer and submits no function. -/
theorem critical_section_kept_iff (c : QueueSize) (fs : List (Frag n φ α)) (s : Context n φ α)
    (hs : s.cpu.mstatus.mie = false) :
    (∀ acts s', Run (contextStep c) (fun _ _ _ => True) { s with todo := fs.map .frag } acts s' →
      Undisturbed s s') ↔ Frag.allQuiet fs = true := by
  constructor
  · intro hkept
    by_contra hloud
    obtain ⟨t, ⟨acts, run⟩, ht⟩ := Frag.some_reaches_open c fs (Bool.eq_false_iff.mpr hloud)
      { s with todo := fs.map .frag } (List.append_nil _).symm
    have hmasked := (hkept acts t run).masked
    rw [ht] at hmasked
    cases hmasked
  · intro hquiet acts s' run
    have hstart : ∀ st ∈ fs.map (Stmt.frag (n := n) (φ := φ) (α := α)), st.harmless = true := by
      intro st hmem
      obtain ⟨f, hf, rfl⟩ := List.mem_map.mp hmem
      exact (allQuiet_iff fs).mp hquiet f hf
    exact (run.invariant (P := fun t => Undisturbed s t ∧ ∀ st ∈ t.todo, st.harmless = true)
      ⟨⟨hs, rfl, rfl⟩, hstart⟩ fun _ _ _ h _ hi => contextStep_undisturbed h hi).1

/-- A handler of the interrupted address 100, with a queue of two items. -/
def handlerContext : Context 0 Unit Unit where
  cpu := { shared := .load (bootAtZero 0), mstatus := ⟨false, true, .machine⟩ }
  mepc := 100
  todo := []
  taken := 0

theorem critical_section_kept_nested :
    ∃ s' : Context 0 Unit Unit,
      Run (contextStep smallQueue) (fun _ _ _ => True)
        { handlerContext with todo := [.critical [.submit none ()], .submit none ()].map .frag }
        (List.replicate 4 .exec) s' ∧
      Undisturbed handlerContext s' := by
  have hrun : ∃ s' : Context 0 Unit Unit,
      Run (contextStep smallQueue) (fun _ _ _ => True)
        { handlerContext with todo := [.critical [.submit none ()], .submit none ()].map .frag }
        (List.replicate 4 .exec) s' ∧ True := by
    apply exists_run_of_follow (fun _ : Context 0 Unit Unit => True)
    decide +kernel
  obtain ⟨s', run, -⟩ := hrun
  exact ⟨s', run, (critical_section_kept_iff _ _ handlerContext rfl).mpr (by decide) _ s' run⟩

/-- A handler submits work. MIE is set when the call returns, an external interrupt is taken
inside the handler, and MEPC no longer holds the address the handler returns to. -/
theorem critical_section_opened_by_submit :
    ∃ s' : Context 0 Unit Unit,
      Run (contextStep smallQueue) (fun _ _ _ => True)
        { handlerContext with todo := [Frag.submit (some ()) ()].map .frag }
        (List.replicate 5 .exec ++ [.interrupt .external 200 []]) s' ∧
      s'.cpu.mstatus.mie = true ∧ s'.taken = 1 ∧ s'.mepc = 200 := by
  apply exists_run_of_follow (fun s' : Context 0 Unit Unit =>
    s'.cpu.mstatus.mie = true ∧ s'.taken = 1 ∧ s'.mepc = 200)
  decide +kernel

end UniSdk.Planner

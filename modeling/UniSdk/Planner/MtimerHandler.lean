import UniSdk.Planner.Critical

/-!
# Re-entry of the machine timer handler

`tlk_mtimer_irq_handle` with the planner's interrupt as its callback, one statement at a
time, on a hart that takes an interrupt whenever MSTATUS.MIE, the MIE register and the source
allow it. With nesting, the closing plan enables the timer interrupt while MIE is set, so the
handler can be entered again; without it, a callback that submits work or starts a timer sets
MIE before its own timer has been advanced. Without nesting and with callbacks that do
neither, the handler is never entered twice and a one-shot timer fires once per start.
-/

namespace UniSdk.Planner

open UniSdk.Core Library.Words Library.Runs

variable {n : Nat} {φ α : Type}

/-- `CONFIG_TLK_MTIMER_IRQ_USE_NEST` and the interrupts that may nest. -/
structure HandlerConfig where
  queue : QueueSize
  useNest : Bool
  nestPlicSw : Bool
  nestPlic : Bool

/-- `TLK_MTIMER_MIE_MASK`. -/
def mtimerMieMask (c : HandlerConfig) : Mie := ⟨c.nestPlicSw, false, c.nestPlic⟩

/-- The statement of the handler that runs next: the entry with nesting, then
`tlk_task_planner_mtimer_irq` with its loop at timer `i` and the callback's statements, then
the exit with nesting and `mret`. -/
inductive HandlerLoc (n : Nat) (φ α : Type)
  | saveContext
  | maskMie
  | setMstatus
  | irqRead
  | loop (now k : Nat)
  | expireTest (now : Nat) (i : Fin n)
  | fire (now : Nat) (i : Fin n)
  | callback (now : Nat) (i : Fin n) (todo : List (Stmt n φ α))
  | advance (now : Nat) (i : Fin n)
  | lower (now : Nat) (i : Fin n)
  | planCompare
  | planMie
  | clearMstatus
  | restoreContext
  | mret

/-- The result of `tlk_core_save_nested_context`. -/
structure Saved where
  mepc : Nat
  mie : Mie
  mstatus : Mstatus
  mxstatus : Nat

/-- A handler in execution, the machine timer's or another. -/
inductive Frame (n : Nat) (φ α : Type)
  | mtimer (saved : Option Saved) (loc : HandlerLoc n φ α)
  | foreign

def Frame.isMtimer : Frame n φ α → Bool
  | .mtimer .. => true
  | .foreign => false

/-- The hart. The handler on top of `frames` runs, or the task context when there is none.
`fired` is history: how often each timer's callback has run in one-shot mode since its last
start. -/
structure Hart (n : Nat) (φ α : Type) where
  cpu : Cpu n φ α
  mepc : Nat
  mxstatus : Nat
  frames : List (Frame n φ α)
  fired : Fin n → Nat

/-- `fire` enters the callback of the timer that fires, which makes the calls `script`. The
`foreign` actions are code of the task context or of another handler: a statement of a planner
call, a write of a timer's fields, a write of the MIE register, a return. -/
inductive HartAction (n : Nat) (φ α : Type)
  | tick (d : Nat)
  | interrupt (source : Interrupt) (pc : Nat)
  | exec
  | fire (script : List (Frag n φ α))
  | foreignStmt (st : Stmt n φ α)
  | foreignStop (i : Fin n)
  | foreignSetPeriod (i : Fin n) (period : Nat)
  | foreignSetMode (i : Fin n) (mode : SwTimerMode)
  | foreignMie (mie : Mie)
  | foreignRet

namespace Hart

def onShared (f : PlannerState n φ α → PlannerState n φ α) (s : Hart n φ α) : Hart n φ α :=
  { s with cpu := { s.cpu with shared := f s.cpu.shared } }

def setMie (mie : Mie) (s : Hart n φ α) : Hart n φ α :=
  s.onShared fun p => { p with work := { p.work with mie } }

/-- The timer handler on top goes on at `loc`. -/
def goto (saved : Option Saved) (rest : List (Frame n φ α)) (loc : HandlerLoc n φ α)
    (s : Hart n φ α) : Hart n φ α := { s with frames := .mtimer saved loc :: rest }

/-- The effect of a statement on the hart, the statements it enters apart. -/
def run (c : QueueSize) (st : Stmt n φ α) (s : Hart n φ α) : Hart n φ α :=
  { s with
    cpu := (st.exec c s.cpu).2
    fired := match st with
      | .startCore i _ => Function.update s.fired i 0
      | _ => s.fired }

/-- A machine timer interrupt is pending once the clock has reached the compare value; other
sources may be pending at any time. -/
def pending (s : Hart n φ α) : Interrupt → Bool
  | .timer => decide (tlkMtimerGetMtimeCompare s.cpu.shared ≤ tlkMtimerGetMtime s.cpu.shared)
  | _ => true

/-- Code that is not the timer handler's runs. -/
def foreignRuns (s : Hart n φ α) : Bool :=
  match s.frames with
  | .mtimer .. :: _ => false
  | _ => true

/-- How many executions of the timer handler are open. -/
def openHandlers (s : Hart n φ α) : Nat := s.frames.countP Frame.isMtimer

end Hart

open Hart

/-- The first statement of the handler for an interrupt. -/
def handlerEntry (c : HandlerConfig) : Interrupt → Frame n φ α
  | .timer => .mtimer none (if c.useNest then .saveContext else .irqRead)
  | _ => .foreign

/-- One statement of the timer handler on top, the entry of a callback apart. -/
def handlerExec (c : HandlerConfig) (s : Hart n φ α) (saved : Option Saved)
    (rest : List (Frame n φ α)) : HandlerLoc n φ α → Option (Hart n φ α)
  | .saveContext =>
    some (s.goto (some ⟨s.mepc, s.cpu.shared.work.mie, s.cpu.mstatus, s.mxstatus⟩) rest .maskMie)
  | .maskMie =>
    some ((s.setMie ((mtimerMieMask c).and s.cpu.shared.work.mie)).goto saved rest .setMstatus)
  | .setMstatus =>
    some ({ s with cpu := { s.cpu with mstatus := { s.cpu.mstatus with mie := true } } }.goto
      saved rest .irqRead)
  | .irqRead =>
    some ((s.onShared fun p => { p with timerNextDeadline := UINT64_MAX }).goto saved rest
      (.loop (tlkMtimerGetMtime s.cpu.shared) 0))
  | .loop now k =>
    some (s.goto saved rest
      (if h : k < n then
        if (s.cpu.shared.timers ⟨k, h⟩).active then .expireTest now ⟨k, h⟩ else .loop now (k + 1)
      else .planCompare))
  | .expireTest now i =>
    some (s.goto saved rest
      (if notBefore now (s.cpu.shared.timers i).expire then .fire now i else .lower now i))
  | .fire .. => none
  | .callback now i [] => some (s.goto saved rest (.advance now i))
  | .callback now i (st :: todo) =>
    some ((s.run c.queue st).goto saved rest
      (.callback now i ((st.exec c.queue s.cpu).1 ++ todo)))
  | .advance now i => some ((s.onShared (irqAdvance i)).goto saved rest (.lower now i))
  | .lower now i => some ((s.onShared (irqLower i)).goto saved rest (.loop now (i.val + 1)))
  | .planCompare =>
    some ((s.onShared fun p =>
      { tlkMtimerSetMtimeCompare (planCompare (tlkMtimerGetMtime p) p.nextDeadline) p with
        planNow := tlkMtimerGetMtime p }).goto saved rest .planMie)
  | .planMie =>
    some ((s.onShared PlannerState.mieEnable).goto saved rest
      (if c.useNest then .clearMstatus else .mret))
  | .clearMstatus =>
    some ({ s with cpu := { s.cpu with mstatus := { s.cpu.mstatus with mie := false } } }.goto
      saved rest .restoreContext)
  | .restoreContext =>
    match saved with
    | none => none
    | some r =>
      some ({ s.setMie r.mie with
        cpu := { (s.setMie r.mie).cpu with mstatus := r.mstatus }
        mepc := r.mepc
        mxstatus := r.mxstatus }.goto saved rest .mret)
  | .mret =>
    some { s with cpu := { s.cpu with mstatus := s.cpu.mstatus.mret }, frames := rest }

/-- A callback is entered; a run in one-shot mode counts. -/
def handlerFire (s : Hart n φ α) (saved : Option Saved) (rest : List (Frame n φ α))
    (script : List (Frag n φ α)) : HandlerLoc n φ α → Option (Hart n φ α)
  | .fire now i =>
    some ({ s with
      fired := match (s.cpu.shared.timers i).mode with
        | .oneShot => Function.update s.fired i (s.fired i + 1)
        | .periodic => s.fired }.goto saved rest (.callback now i (script.map .frag)))
  | _ => none

def hartStep (c : HandlerConfig) (s : Hart n φ α) (a : HartAction n φ α) : Option (Hart n φ α) :=
  match a with
  | .tick d => some (s.onShared (·.tick d))
  | .interrupt source pc =>
    if s.cpu.mstatus.mie && s.cpu.shared.work.mie.enabled source && s.pending source then
      some { s with
        cpu := { s.cpu with mstatus := s.cpu.mstatus.trapEntry .machine }
        mepc := pc
        frames := handlerEntry c source :: s.frames }
    else none
  | .exec =>
    match s.frames with
    | .mtimer saved loc :: rest => handlerExec c s saved rest loc
    | _ => none
  | .fire script =>
    match s.frames with
    | .mtimer saved loc :: rest => handlerFire s saved rest script loc
    | _ => none
  | .foreignStmt st => if s.foreignRuns then some (s.run c.queue st) else none
  | .foreignStop i => if s.foreignRuns then some (s.onShared (tlkTaskSwTimerStop i)) else none
  | .foreignSetPeriod i period =>
    if s.foreignRuns then some (s.onShared (tlkTaskSwTimerSetPeriod i period)) else none
  | .foreignSetMode i mode =>
    if s.foreignRuns then some (s.onShared (tlkTaskSwTimerSetMode i mode)) else none
  | .foreignMie mie => if s.foreignRuns then some (s.setMie mie) else none
  | .foreignRet =>
    match s.frames with
    | .foreign :: rest =>
      some { s with cpu := { s.cpu with mstatus := s.cpu.mstatus.mret }, frames := rest }
    | _ => none

/-! ## The handler computes the interrupt's function -/

/-- Some run without an interruption leads from `s` to `s'`. -/
abbrev HandlerLeads (c : HandlerConfig) (s s' : Hart n φ α) : Prop :=
  Leads (hartStep c) (fun _ a _ => a = .exec ∨ a = .fire []) s s'

section Refines

variable {c : HandlerConfig} {s : Hart n φ α} {saved : Option Saved}
  {rest : List (Frame n φ α)}

theorem exec_leads {t : Hart n φ α} {loc : HandlerLoc n φ α}
    (h : s.frames = .mtimer saved loc :: rest) (hx : handlerExec c s saved rest loc = some t) :
    HandlerLeads c s t :=
  .single .exec (by simp only [hartStep, h, hx]) (.inl rfl)

/-- A round of the loop, with a callback that makes no call. -/
theorem visit_leads {now k : Nat} (h : s.frames = .mtimer saved (.loop now k) :: rest)
    (hk : k < n) :
    ∃ t, HandlerLeads c s t ∧ t.frames = .mtimer saved (.loop now (k + 1)) :: rest ∧
      t.cpu.shared = irqVisit now (fun _ p => p) s.cpu.shared ⟨k, hk⟩ := by
  by_cases ha : (s.cpu.shared.timers ⟨k, hk⟩).active = true
  · have htest : HandlerLeads c s (s.goto saved rest (.expireTest now ⟨k, hk⟩)) :=
      exec_leads h (by simp [handlerExec, hk, ha])
    by_cases he : notBefore now (s.cpu.shared.timers ⟨k, hk⟩).expire = true
    · have hfire : HandlerLeads c (s.goto saved rest (.expireTest now ⟨k, hk⟩))
          (s.goto saved rest (.fire now ⟨k, hk⟩)) :=
        exec_leads rfl (by simp [handlerExec, Hart.goto, he])
      have hcallback := (htest.trans hfire).trans (.single (.fire []) rfl (.inr rfl))
      have hadvance := (hcallback.trans (exec_leads rfl rfl)).trans (exec_leads rfl rfl)
      refine ⟨_, hadvance.trans (exec_leads rfl rfl), rfl, ?_⟩
      rw [irqVisit, if_pos ha, if_pos he]
      rfl
    · have hlower : HandlerLeads c (s.goto saved rest (.expireTest now ⟨k, hk⟩))
          (s.goto saved rest (.lower now ⟨k, hk⟩)) :=
        exec_leads rfl (by simp [handlerExec, Hart.goto, he])
      refine ⟨_, (htest.trans hlower).trans (exec_leads rfl rfl), rfl, ?_⟩
      rw [irqVisit, if_pos ha, if_neg he]
      rfl
  · refine ⟨s.goto saved rest (.loop now (k + 1)), exec_leads h ?_, rfl, ?_⟩
    · simp [handlerExec, hk, ha]
    · rw [irqVisit, if_neg ha]
      rfl

theorem loop_leads {now k : Nat} (h : s.frames = .mtimer saved (.loop now k) :: rest) :
    ∃ t, HandlerLeads c s t ∧ t.frames = .mtimer saved .planCompare :: rest ∧
      t.cpu.shared =
        ((List.finRange n).drop k).foldl (irqVisit now fun _ p => p) s.cpu.shared := by
  induction hm : n - k generalizing k s with
  | zero =>
    have hk : ¬ k < n := by omega
    refine ⟨s.goto saved rest .planCompare, exec_leads h ?_, rfl, ?_⟩
    · simp [handlerExec, hk]
    · rw [List.drop_eq_nil_of_le (by rw [List.length_finRange]; omega)]
      rfl
  | succ m ih =>
    have hk : k < n := by omega
    obtain ⟨t, hvisit, ht, hshared⟩ := visit_leads h hk
    obtain ⟨u, hloop, hu, hfinal⟩ := ih ht (by omega)
    have hdrop : (List.finRange n).drop k = ⟨k, hk⟩ :: (List.finRange n).drop (k + 1) := by
      rw [List.drop_eq_getElem_cons (by rw [List.length_finRange]; exact hk),
        List.getElem_finRange]
      rfl
    refine ⟨u, hvisit.trans hloop, hu, ?_⟩
    rw [hfinal, hshared, hdrop, List.foldl_cons]

/-- From its first statement to the end of the closing plan, the handler computes
`tlk_task_planner_mtimer_irq` when its callbacks make no call and nothing interrupts it. -/
theorem handler_computes_irq (h : s.frames = .mtimer saved .irqRead :: rest) :
    ∃ t, HandlerLeads c s t ∧
      t.frames = .mtimer saved (if c.useNest then .clearMstatus else .mret) :: rest ∧
      t.cpu.shared = tlkTaskPlannerMtimerIrq (fun _ p => p) 0 s.cpu.shared := by
  have hread := exec_leads (c := c) h rfl
  obtain ⟨t, hloop, ht, hshared⟩ := loop_leads (c := c) (s := (s.onShared fun p =>
    { p with timerNextDeadline := UINT64_MAX }).goto saved rest
      (.loop (tlkMtimerGetMtime s.cpu.shared) 0)) rfl
  have hplan := ((hread.trans hloop).trans (exec_leads ht rfl)).trans (exec_leads rfl rfl)
  refine ⟨_, hplan, rfl, ?_⟩
  unfold tlkTaskPlannerMtimerIrq
  dsimp only [Hart.goto, Hart.onShared]
  rw [hshared]
  rfl

end Refines

/-! ## Without nesting and with quiet callbacks -/

/-- A callback that starts no timer and submits no function. -/
def quietCallback : HartAction n φ α → Bool
  | .fire script => Frag.allQuiet script
  | _ => true

/-- The timer whose callback has been entered and that has not been advanced yet. -/
def HandlerLoc.firing : HandlerLoc n φ α → Option (Fin n)
  | .callback _ i _ | .advance _ i => some i
  | _ => none

/-- What holds of the locals when the handler does not nest: no statement of the nested entry
or exit is next, the timer about to fire is active, and its callback is quiet. -/
def HandlerLoc.Sound (timers : Fin n → SwTimer) : HandlerLoc n φ α → Prop
  | .saveContext | .maskMie | .setMstatus | .clearMstatus | .restoreContext => False
  | .expireTest _ i | .fire _ i => (timers i).active = true
  | .callback _ _ todo => ∀ st ∈ todo, st.harmless = true
  | _ => True

/-- An active timer has not fired since its start, unless it is the one that fires now. -/
def Fresh (timers : Fin n → SwTimer) (fired : Fin n → Nat) (firing : Option (Fin n)) : Prop :=
  ∀ i, fired i ≤ 1 ∧ ((timers i).active = true →
    fired i = 0 ∨ (firing = some i ∧ (timers i).mode = .oneShot))

/-- The timer handler is not open, or it is on top with interrupts masked. -/
inductive HandlerInv (s : Hart n φ α) : Prop
  | outside (frames : ∀ f ∈ s.frames, f = .foreign)
      (fresh : Fresh s.cpu.shared.timers s.fired none)
  | inside (saved : Option Saved) (loc : HandlerLoc n φ α) (rest : List (Frame n φ α))
      (top : s.frames = .mtimer saved loc :: rest) (below : ∀ f ∈ rest, f = .foreign)
      (masked : s.cpu.mstatus.mie = false) (sound : loc.Sound s.cpu.shared.timers)
      (fresh : Fresh s.cpu.shared.timers s.fired loc.firing)

theorem Fresh.mono {timers : Fin n → SwTimer} {fired : Fin n → Nat} (h : Fresh timers fired none)
    (firing : Option (Fin n)) : Fresh timers fired firing := by
  intro i
  refine ⟨(h i).1, fun ha => ?_⟩
  rcases (h i).2 ha with h0 | ⟨hnone, -⟩
  · exact .inl h0
  · cases hnone

/-- Replacing a timer keeps the others fresh. -/
theorem Fresh.update {timers : Fin n → SwTimer} {fired : Fin n → Nat} {firing : Option (Fin n)}
    (h : Fresh timers fired firing) (i : Fin n) (tm : SwTimer)
    (htm : tm.active = true → fired i = 0 ∨ (firing = some i ∧ tm.mode = .oneShot)) :
    Fresh (Function.update timers i tm) fired firing := by
  intro j
  by_cases hij : j = i
  · subst hij
    rw [Function.update_self]
    exact ⟨(h j).1, htm⟩
  · rw [Function.update_of_ne hij]
    exact h j

/-- A start makes its timer fresh, and the other statements concern no timer. -/
theorem Fresh.run {c : QueueSize} {s : Hart n φ α}
    (h : Fresh s.cpu.shared.timers s.fired none) (st : Stmt n φ α) :
    Fresh (s.run c st).cpu.shared.timers (s.run c st).fired none := by
  cases st with
  | startCore i d =>
    have hfired : Fresh s.cpu.shared.timers (Function.update s.fired i 0) none := by
      intro j
      by_cases hij : j = i
      · subst hij
        rw [Function.update_self]
        exact ⟨Nat.zero_le _, fun _ => .inl rfl⟩
      · rw [Function.update_of_ne hij]
        exact h j
    have hrun : Fresh (tlkTaskSwTimerStart i d s.cpu.shared).timers
        (Function.update s.fired i 0) none := by
      rw [start_timers]
      exact hfired.update i _ fun _ => .inl (Function.update_self ..)
    exact hrun
  | frag f =>
    cases f with
    | submit fn arg => cases fn <;> exact h
    | swTimerStart i d => exact h
    | critical body => exact h
  | _ => exact h

section Step

variable {c : HandlerConfig} {s s' : Hart n φ α} {saved : Option Saved}
  {rest : List (Frame n φ α)} {loc : HandlerLoc n φ α}

theorem advance_fresh {p : PlannerState n φ α} {fired : Fin n → Nat} {i : Fin n}
    (h : Fresh p.timers fired (some i)) : Fresh (irqAdvance i p).timers fired none := by
  have hothers : ∀ tm : SwTimer, (tm.active = true → fired i = 0) →
      Fresh (Function.update p.timers i tm) fired none := by
    intro tm htm j
    by_cases hij : j = i
    · subst hij
      rw [Function.update_self]
      exact ⟨(h j).1, fun ha => .inl (htm ha)⟩
    · rw [Function.update_of_ne hij]
      refine ⟨(h j).1, fun ha => ?_⟩
      rcases (h j).2 ha with h0 | ⟨hsome, -⟩
      · exact .inl h0
      · exact absurd (Option.some.inj hsome).symm hij
  unfold irqAdvance
  dsimp only
  split
  · next hmode =>
    refine hothers _ fun ha => ?_
    rcases (h i).2 ha with h0 | ⟨-, hone⟩
    · exact h0
    · rw [hmode] at hone; cases hone
  · exact hothers _ fun ha => by cases ha

/-- The handler's statements keep it on top with interrupts masked, or return. -/
theorem handlerExec_inv (hc : c.useNest = false) (below : ∀ f ∈ rest, f = .foreign)
    (masked : s.cpu.mstatus.mie = false) (sound : loc.Sound s.cpu.shared.timers)
    (fresh : Fresh s.cpu.shared.timers s.fired loc.firing)
    (h : handlerExec c s saved rest loc = some s') : HandlerInv s' := by
  cases loc with
  | irqRead =>
    cases h
    exact .inside saved _ rest rfl below masked trivial fresh
  | loop now k =>
    cases h
    refine .inside saved _ rest rfl below masked ?_ (Fresh.mono fresh _)
    split
    · split
      · next ha => exact ha
      · trivial
    · trivial
  | expireTest now i =>
    cases h
    refine .inside saved _ rest rfl below masked ?_ (Fresh.mono fresh _)
    split
    · exact sound
    · trivial
  | callback now i todo =>
    cases todo with
    | nil =>
      cases h
      exact .inside saved _ rest rfl below masked trivial fresh
    | cons st todo =>
      cases h
      obtain ⟨hnew, hm, hshared⟩ := exec_harmless c.queue (sound st List.mem_cons_self) masked
      have hfired : (s.run c.queue st).fired = s.fired := by
        have hst := sound st List.mem_cons_self
        cases st with
        | startCore i d => cases hst
        | _ => rfl
      refine .inside saved _ rest rfl below hm (fun st' hmem => ?_) ?_
      · rcases List.mem_append.mp hmem with hleft | hright
        · exact hnew st' hleft
        · exact sound st' (List.mem_cons_of_mem _ hright)
      · show Fresh (st.exec c.queue s.cpu).2.shared.timers (s.run c.queue st).fired (some i)
        rw [hshared, hfired]
        exact fresh
  | advance now i =>
    cases h
    exact .inside saved _ rest rfl below masked trivial (advance_fresh fresh)
  | lower now i =>
    cases h
    refine .inside saved _ rest rfl below masked trivial ?_
    show Fresh (irqLower i s.cpu.shared).timers s.fired none
    have htimers : (irqLower i s.cpu.shared).timers = s.cpu.shared.timers := by
      unfold irqLower
      split <;> rfl
    rw [htimers]
    exact fresh
  | planCompare =>
    cases h
    exact .inside saved _ rest rfl below masked trivial fresh
  | planMie =>
    cases h
    refine .inside saved _ rest rfl below masked ?_ ?_
    · rw [hc]; trivial
    · rw [hc]; exact fresh
  | mret =>
    cases h
    exact .outside below fresh
  | fire now i => cases h
  | saveContext | maskMie | setMstatus | clearMstatus | restoreContext => cases sound

/-- Entering a quiet callback: an active timer has not fired before, so this is its first run. -/
theorem handlerFire_inv {script : List (Frag n φ α)} (hquiet : Frag.allQuiet script = true)
    (below : ∀ f ∈ rest, f = .foreign) (masked : s.cpu.mstatus.mie = false)
    (sound : loc.Sound s.cpu.shared.timers)
    (fresh : Fresh s.cpu.shared.timers s.fired loc.firing)
    (h : handlerFire s saved rest script loc = some s') : HandlerInv s' := by
  cases loc with
  | fire now i =>
    cases h
    have hactive : (s.cpu.shared.timers i).active = true := sound
    have hzero : s.fired i = 0 := by
      rcases (fresh i).2 hactive with h0 | ⟨hnone, -⟩
      · exact h0
      · cases hnone
    refine .inside saved _ rest rfl below masked (fun st hmem => ?_) ?_
    · obtain ⟨f, hf, rfl⟩ := List.mem_map.mp hmem
      exact (allQuiet_iff script).mp hquiet f hf
    · dsimp only [Hart.goto]
      split
      · next hmode =>
        intro j
        by_cases hij : j = i
        · subst hij
          rw [Function.update_self, hzero]
          exact ⟨Nat.le_refl _, fun _ => .inr ⟨rfl, hmode⟩⟩
        · rw [Function.update_of_ne hij]
          exact Fresh.mono fresh _ j
      · exact Fresh.mono fresh _
  | _ => cases h

theorem hartStep_inv {a : HartAction n φ α} (hc : c.useNest = false)
    (h : hartStep c s a = some s') (hquiet : quietCallback a = true) (hi : HandlerInv s) :
    HandlerInv s' := by
  cases hi with
  | inside saved loc rest top below masked sound fresh =>
    have hforeign : s.foreignRuns = false := by simp [Hart.foreignRuns, top]
    cases a with
    | tick d =>
      cases h
      exact .inside saved loc rest top below masked sound fresh
    | exec =>
      simp only [hartStep, top] at h
      exact handlerExec_inv hc below masked sound fresh h
    | fire script =>
      simp only [hartStep, top] at h
      exact handlerFire_inv hquiet below masked sound fresh h
    | interrupt source pc => simp [hartStep, masked] at h
    | foreignRet => simp [hartStep, top] at h
    | _ => simp [hartStep, hforeign] at h
  | outside frames fresh =>
    have hnone : ∀ saved loc rest, s.frames ≠ .mtimer saved loc :: rest := by
      intro saved loc rest htop
      have := frames (.mtimer saved loc) (by rw [htop]; exact List.mem_cons_self)
      cases this
    cases a with
    | tick d =>
      cases h
      exact .outside frames fresh
    | interrupt source pc =>
      simp only [hartStep] at h
      split at h
      · cases h
        cases source with
        | timer =>
          refine .inside none .irqRead s.frames ?_ frames rfl trivial fresh
          simp [handlerEntry, hc]
        | software => exact .outside (List.forall_mem_cons.mpr ⟨rfl, frames⟩) fresh
        | external => exact .outside (List.forall_mem_cons.mpr ⟨rfl, frames⟩) fresh
      · cases h
    | exec =>
      simp only [hartStep] at h
      cases h
    | fire script =>
      simp only [hartStep] at h
      cases h
    | foreignStmt st =>
      simp only [hartStep] at h
      split at h
      · cases h; exact .outside frames (fresh.run st)
      · cases h
    | foreignStop i =>
      simp only [hartStep] at h
      split at h
      · cases h; exact .outside frames (fresh.update i _ fun ha => by cases ha)
      · cases h
    | foreignSetPeriod i period =>
      simp only [hartStep] at h
      split at h
      · cases h; exact .outside frames (fresh.update i _ (fresh i).2)
      · cases h
    | foreignSetMode i mode =>
      simp only [hartStep] at h
      split at h
      · cases h
        refine .outside frames (fresh.update i _ fun ha => ?_)
        rcases (fresh i).2 ha with h0 | ⟨hsome, -⟩
        · exact .inl h0
        · cases hsome
      · cases h
    | foreignMie mie =>
      simp only [hartStep] at h
      split at h
      · cases h; exact .outside frames fresh
      · cases h
    | foreignRet =>
      simp only [hartStep] at h
      split at h
      · next rest htop =>
        cases h
        rw [htop] at frames
        exact .outside (List.forall_mem_cons.mp frames).2 fresh
      · cases h

end Step

theorem no_mtimer_frame {frames : List (Frame n φ α)} (h : ∀ f ∈ frames, f = .foreign) :
    frames.countP Frame.isMtimer = 0 := by
  rw [List.countP_eq_zero]
  intro f hf
  rw [h f hf]
  exact Bool.false_ne_true

theorem HandlerInv.openHandlers_le {s : Hart n φ α} (h : HandlerInv s) : s.openHandlers ≤ 1 := by
  unfold Hart.openHandlers
  cases h with
  | outside frames fresh => rw [no_mtimer_frame frames]; exact Nat.zero_le _
  | inside saved loc rest top below masked sound fresh =>
    rw [top, List.countP_cons, no_mtimer_frame below]
    exact Nat.le_refl _

theorem HandlerInv.fired_le {s : Hart n φ α} (h : HandlerInv s) (i : Fin n) : s.fired i ≤ 1 := by
  cases h with
  | outside frames fresh => exact (fresh i).1
  | inside saved loc rest top below masked sound fresh => exact (fresh i).1

/-- The hart after the load of the image, in the task context. -/
def Hart.load [Inhabited α] (b : BootValues n) (mstatus : Mstatus) (mepc mxstatus : Nat) :
    Hart n φ α where
  cpu := { shared := .load b, mstatus }
  mepc := mepc
  mxstatus := mxstatus
  frames := []
  fired := fun _ => 0

/-- Without nesting, in every run whose callbacks start no timer and submit no function, the
timer handler is never open twice, and no callback runs twice in one-shot mode for one start. -/
theorem mtimer_handler_not_reentered [Inhabited α] (c : HandlerConfig) (b : BootValues n)
    (mstatus : Mstatus) (mepc mxstatus : Nat) (acts : List (HartAction n φ α)) (s : Hart n φ α)
    (hc : c.useNest = false)
    (run : Run (hartStep c) (fun _ a _ => quietCallback a = true) (.load b mstatus mepc mxstatus)
      acts s) : s.openHandlers ≤ 1 ∧ ∀ i, s.fired i ≤ 1 := by
  have hload : HandlerInv (.load b mstatus mepc mxstatus : Hart n φ α) :=
    .outside (fun _ hf => absurd hf List.not_mem_nil) fun _ => ⟨Nat.zero_le _, fun _ => .inl rfl⟩
  have hinv := run.invariant (P := HandlerInv) hload
    fun _ _ _ hstep hquiet hi => hartStep_inv hc hstep hquiet hi
  exact ⟨hinv.openHandlers_le, hinv.fired_le⟩

/-- A build without or with nesting of all sources. -/
def handlerBuild (useNest : Bool) : HandlerConfig := ⟨smallQueue, useNest, true, true⟩

/-- Runs of a build with one software timer from its load. -/
abbrev HandlerRun (useNest : Bool) (ok : HartAction 1 Unit Unit → Bool)
    (acts : List (HartAction 1 Unit Unit)) (s : Hart 1 Unit Unit) : Prop :=
  Run (hartStep (handlerBuild useNest)) (fun _ a _ => ok a = true)
    (.load (bootAtZero 1) ⟨false, true, .machine⟩ 0 0) acts s

/-- The task context starts the timer, and its interrupt is taken when it expires. -/
def startAndExpire : List (HartAction 1 Unit Unit) :=
  [.foreignStmt (.startCore 0 0), .foreignStmt .enableMstatus, .tick 11, .interrupt .timer 100]

theorem mtimer_handler_not_reentered_once :
    ∃ s : Hart 1 Unit Unit,
      HandlerRun false quietCallback
        (startAndExpire ++ List.replicate 3 .exec ++ [.fire [.critical [.submit none ()]]]) s ∧
      s.fired 0 = 1 ∧ s.openHandlers ≤ 1 ∧ s.fired 0 ≤ 1 := by
  have hrun : ∃ s : Hart 1 Unit Unit,
      HandlerRun false quietCallback
        (startAndExpire ++ List.replicate 3 .exec ++ [.fire [.critical [.submit none ()]]]) s ∧
      s.fired 0 = 1 := by
    apply exists_run_of_follow (fun s : Hart 1 Unit Unit => s.fired 0 = 1)
    decide +kernel
  obtain ⟨s, run, hfired⟩ := hrun
  have hsafe := mtimer_handler_not_reentered _ _ _ _ _ _ s rfl run
  exact ⟨s, run, hfired, hsafe.1, hsafe.2 0⟩

/-- The callback submits work, the interrupt is taken again, and the timer fires again. -/
def submitAndReenter : List (HartAction 1 Unit Unit) :=
  [.exec, .exec, .exec, .fire [.submit (some ()) ()], .exec, .exec, .exec, .exec,
    .interrupt .timer 200, .exec, .exec, .exec, .fire []]

/-- The nested entry, an empty callback, the closing plan, and one tick later the interrupt. -/
def planAndReenter : List (HartAction 1 Unit Unit) :=
  [.exec, .exec, .exec, .exec, .exec, .exec, .fire [], .exec, .exec, .exec, .exec, .exec, .exec,
    .tick 1, .interrupt .timer 200]

/-- Without nesting, a callback that submits work lets the pending interrupt in again, and the
one-shot timer's callback runs twice for one start. With nesting the closing plan does, one
tick later, although the callback makes no call. -/
theorem mtimer_handler_reentered :
    (∃ s : Hart 1 Unit Unit,
      HandlerRun false (fun _ => true) (startAndExpire ++ submitAndReenter) s ∧
      s.openHandlers = 2 ∧ s.fired 0 = 2) ∧
    (∃ s : Hart 1 Unit Unit,
      HandlerRun true quietCallback (startAndExpire ++ planAndReenter) s ∧
      s.openHandlers = 2) := by
  constructor
  · apply exists_run_of_follow (fun s : Hart 1 Unit Unit => s.openHandlers = 2 ∧ s.fired 0 = 2)
    decide +kernel
  · apply exists_run_of_follow (fun s : Hart 1 Unit Unit => s.openHandlers = 2)
    decide +kernel

end UniSdk.Planner

import UniSdk.Core.Interrupts
import UniSdk.Library.BoundedFifo
import UniSdk.Library.Words

/-!
# The deferred-work queue

`tlk_task_work_submit` and the pop of `tlk_task_work_queue_task`, each one atomic
step because the source runs both with interrupts disabled. The ring of work items
represents a bounded FIFO, and every history of submits and pops of the code is a
history of that FIFO.
-/

namespace UniSdk.Planner

open UniSdk.Core Library.Words Library.BoundedFifo

variable {φ α : Type}

/-- `tWorkItem`. A null function pointer is `none`. -/
structure WorkItem (φ α : Type) where
  fn : Option φ
  arg : α
  deriving DecidableEq, Repr

/-- `CONFIG_TLK_TASK_PLANNER_WORK_QUEUE_SIZE`: the length of an array that fits the
32-bit address space. -/
structure QueueSize where
  size : Nat
  size_pos : 0 < size
  size_lt : size < 2 ^ 32

/-- Room for two items. -/
def smallQueue : QueueSize := ⟨2, by decide, by decide⟩

/-- `tWork_Queue`. -/
structure WorkQueue (φ α : Type) where
  workQHead : Nat
  workQTail : Nat
  workQCount : Nat
  locked : Bool
  sWorkItem : Nat → WorkItem φ α

/-- What `tlk_task_work_submit` writes: the queue, `work_queue_task_obj.wake`, the MIE
register and the pending bit of the software interrupt. -/
structure WorkState (φ α : Type) where
  sWorkQueue : WorkQueue φ α
  wake : Nat
  mie : Mie
  swPending : Bool

def WorkQueue.init [Inhabited α] : WorkQueue φ α where
  workQHead := 0
  workQTail := 0
  workQCount := 0
  locked := false
  sWorkItem := fun _ => ⟨none, default⟩

def tlkTaskWorkQueueIsEmpty (q : WorkQueue φ α) : Bool := q.workQCount == 0

def tlkTaskWorkQueueIsFull (c : QueueSize) (q : WorkQueue φ α) : Bool :=
  decide (c.size ≤ q.workQCount)

def tlkTaskWorkIsPending (q : WorkQueue φ α) : Bool := !tlkTaskWorkQueueIsEmpty q

def tlkTaskWorkQueuePop (c : QueueSize) (q : WorkQueue φ α) :
    Option (WorkItem φ α) × WorkQueue φ α :=
  if tlkTaskWorkQueueIsEmpty q then (none, q)
  else
    (some (q.sWorkItem q.workQHead),
      { q with
        workQHead := u32 (q.workQHead + 1) % c.size
        workQCount := q.workQCount - 1 })

/-- The stores of a submit that found room: item, tail and count. -/
def WorkQueue.store (c : QueueSize) (fn : φ) (arg : α) (q : WorkQueue φ α) : WorkQueue φ α :=
  { q with
    sWorkItem := Function.update q.sWorkItem q.workQTail ⟨some fn, arg⟩
    workQTail := u32 (q.workQTail + 1) % c.size
    workQCount := u32 (q.workQCount + 1) }

/-- `tlk_task_work_submit` at machine time `mtime`, which `TASK_YIELD` reads. -/
def tlkTaskWorkSubmit (c : QueueSize) (mtime : Nat) (fn : Option φ) (arg : α)
    (w : WorkState φ α) : Bool × WorkState φ α :=
  match fn with
  | none => (false, w)
  | some fn =>
    if w.sWorkQueue.locked then (false, w)
    else
      let q := { w.sWorkQueue with locked := true }
      if tlkTaskWorkQueueIsFull c q then
        (false, { w with sWorkQueue := { q with locked := false } })
      else
        (true,
          { sWorkQueue := { q.store c fn arg with locked := false }
            wake := mtime
            mie := { w.mie with msie := true }
            swPending := true })

/-- The items in the ring, oldest first. -/
def WorkQueue.items (c : QueueSize) (q : WorkQueue φ α) : List (WorkItem φ α) :=
  ring c.size q.sWorkItem q.workQHead q.workQCount

@[simp] theorem WorkQueue.items_length (c : QueueSize) (q : WorkQueue φ α) :
    (q.items c).length = q.workQCount := ring_length ..

/-- The indices are in range and agree with the count, and the lock is free. -/
structure WorkQueue.Consistent (c : QueueSize) (q : WorkQueue φ α) : Prop where
  unlocked : q.locked = false
  head_lt : q.workQHead < c.size
  count_le : q.workQCount ≤ c.size
  tail_eq : (q.workQHead + q.workQCount) % c.size = q.workQTail

namespace WorkQueue

theorem init_consistent [Inhabited α] (c : QueueSize) :
    (init : WorkQueue φ α).Consistent c where
  unlocked := rfl
  head_lt := c.size_pos
  count_le := Nat.zero_le _
  tail_eq := Nat.zero_mod _

variable {c : QueueSize} {q : WorkQueue φ α}

theorem Consistent.tail_lt (h : q.Consistent c) : q.workQTail < c.size := by
  rw [← h.tail_eq]
  exact Nat.mod_lt _ c.size_pos

theorem Consistent.full_iff (h : q.Consistent c) :
    tlkTaskWorkQueueIsFull c q = true ↔ q.workQCount = c.size := by
  have hle := h.count_le
  rw [tlkTaskWorkQueueIsFull, decide_eq_true_eq]
  omega

/-- A store below capacity keeps the indices consistent and appends the item. -/
theorem Consistent.store (h : q.Consistent c) (hroom : q.workQCount < c.size)
    (fn : φ) (arg : α) :
    (q.store c fn arg).Consistent c ∧
      (q.store c fn arg).items c = q.items c ++ [⟨some fn, arg⟩] := by
  have hsize := c.size_lt
  have htail := h.tail_lt
  have hu : u32 (q.workQTail + 1) = q.workQTail + 1 := u32_of_lt (by omega)
  have hc : u32 (q.workQCount + 1) = q.workQCount + 1 := u32_of_lt (by omega)
  refine ⟨⟨h.unlocked, h.head_lt, ?_, ?_⟩, ?_⟩
  · rw [WorkQueue.store, hc]
    exact hroom
  · rw [WorkQueue.store, hu, hc]
    dsimp only
    rw [← h.tail_eq, Nat.mod_add_mod, Nat.add_assoc]
  · rw [items, WorkQueue.store, hc]
    dsimp only
    rw [← h.tail_eq]
    exact ring_push q.sWorkItem _ hroom

/-- A pop from a non-empty queue takes the oldest item. -/
theorem Consistent.pop (h : q.Consistent c) :
    (tlkTaskWorkQueuePop c q).2.Consistent c ∧
      (tlkTaskWorkQueuePop c q).1 = (Library.BoundedFifo.pop (q.items c)).1 ∧
      (tlkTaskWorkQueuePop c q).2.items c = (Library.BoundedFifo.pop (q.items c)).2 := by
  have hsize := c.size_lt
  have hhead := h.head_lt
  cases hcount : q.workQCount with
  | zero =>
    have hitems : q.items c = [] := by rw [items, hcount, ring_zero]
    have hpop : tlkTaskWorkQueuePop c q = (none, q) := by
      simp [tlkTaskWorkQueuePop, tlkTaskWorkQueueIsEmpty, hcount]
    rw [hpop, hitems]
    exact ⟨h, rfl, rfl⟩
  | succ n =>
    have hu : u32 (q.workQHead + 1) = q.workQHead + 1 := u32_of_lt (by omega)
    have hitems : q.items c =
        q.sWorkItem q.workQHead :: ring c.size q.sWorkItem ((q.workQHead + 1) % c.size) n := by
      rw [items, hcount]
      exact ring_pop q.sWorkItem hhead
    have hpop : tlkTaskWorkQueuePop c q = (some (q.sWorkItem q.workQHead),
        { q with workQHead := (q.workQHead + 1) % c.size, workQCount := n }) := by
      simp [tlkTaskWorkQueuePop, tlkTaskWorkQueueIsEmpty, hcount, hu]
    have hcap := h.count_le
    rw [hcount] at hcap
    rw [hpop, hitems]
    refine ⟨⟨h.unlocked, Nat.mod_lt _ c.size_pos, by dsimp only; omega, ?_⟩, rfl, rfl⟩
    dsimp only
    rw [← h.tail_eq, hcount, Nat.mod_add_mod]
    congr 1
    omega

end WorkQueue

/-- What a submit does to a consistent queue, guards included. -/
theorem submit_cases {c : QueueSize} {w : WorkState φ α} (h : w.sWorkQueue.Consistent c)
    (mtime : Nat) (fn : Option φ) (arg : α) :
    ((fn = none ∨ w.sWorkQueue.workQCount = c.size) ∧
      tlkTaskWorkSubmit c mtime fn arg w = (false, w)) ∨
    (∃ f, fn = some f ∧ w.sWorkQueue.workQCount < c.size ∧
      tlkTaskWorkSubmit c mtime fn arg w =
        (true,
          { sWorkQueue := w.sWorkQueue.store c f arg
            wake := mtime
            mie := { w.mie with msie := true }
            swPending := true })) := by
  have hlock : ∀ q : WorkQueue φ α, q.locked = false → { q with locked := false } = q := by
    intro q hq
    cases q
    cases hq
    rfl
  cases fn with
  | none => exact .inl ⟨.inl rfl, rfl⟩
  | some f =>
    have hfull := h.full_iff
    unfold tlkTaskWorkSubmit
    rw [h.unlocked]
    by_cases hc : w.sWorkQueue.workQCount = c.size
    · left
      refine ⟨.inr hc, ?_⟩
      have ht : tlkTaskWorkQueueIsFull c { w.sWorkQueue with locked := true } = true :=
        hfull.mpr hc
      simp only [Bool.false_eq_true, if_false, ht, if_true, hlock _ h.unlocked]
    · right
      have hle := h.count_le
      refine ⟨f, rfl, by omega, ?_⟩
      have ht : ¬ tlkTaskWorkQueueIsFull c { w.sWorkQueue with locked := true } = true :=
        fun e => hc (hfull.mp e)
      have hs : (w.sWorkQueue.store c f arg).locked = false := h.unlocked
      simp only [Bool.false_eq_true, if_false, ht]
      rw [← hlock _ hs]
      rfl

/-! ## Histories -/

/-- A submit at some machine time, or a pop of the work queue task. -/
inductive QueueOp (φ α : Type)
  | submit (mtime : Nat) (fn : Option φ) (arg : α)
  | pop

/-- The state of the code with what was accepted (a submit returned true) and what was
popped so far. -/
structure QueueRun (φ α : Type) where
  work : WorkState φ α
  accepted : List (WorkItem φ α)
  popped : List (WorkItem φ α)

/-- The initial values of `sWorkQueue`; the other fields are as other code left them. -/
def QueueRun.start [Inhabited α] (wake : Nat) (mie : Mie) (swPending : Bool) : QueueRun φ α where
  work := { sWorkQueue := .init, wake, mie, swPending }
  accepted := []
  popped := []

def QueueRun.step (c : QueueSize) (r : QueueRun φ α) : QueueOp φ α → QueueRun φ α
  | .submit mtime fn arg =>
    let res := tlkTaskWorkSubmit c mtime fn arg r.work
    { r with
      work := res.2
      accepted := if res.1 then r.accepted ++ [⟨fn, arg⟩] else r.accepted }
  | .pop =>
    let res := tlkTaskWorkQueuePop c r.work.sWorkQueue
    { r with
      work := { r.work with sWorkQueue := res.2 }
      popped := r.popped ++ res.1.toList }

def QueueRun.run (c : QueueSize) (r : QueueRun φ α) (ops : List (QueueOp φ α)) : QueueRun φ α :=
  ops.foldl (step c) r

/-- The abstract operation: a submit without a function asks nothing of the FIFO. -/
def QueueOp.toFifo : QueueOp φ α → Option (Op (WorkItem φ α))
  | .submit _ none _ => none
  | .submit _ (some fn) arg => some (.push ⟨some fn, arg⟩)
  | .pop => some .pop

/-- The code's state represents a history of the abstract FIFO. -/
structure Represents (c : QueueSize) (r : QueueRun φ α) (h : History (WorkItem φ α)) : Prop where
  consistent : r.work.sWorkQueue.Consistent c
  items_eq : r.work.sWorkQueue.items c = h.queue
  accepted_eq : r.accepted = h.accepted
  popped_eq : r.popped = h.popped

theorem start_represents [Inhabited α] (c : QueueSize) (wake : Nat) (mie : Mie) (swPending : Bool) :
    Represents c (QueueRun.start wake mie swPending : QueueRun φ α) .empty where
  consistent := WorkQueue.init_consistent c
  items_eq := rfl
  accepted_eq := rfl
  popped_eq := rfl

/-- One step of the code is the abstract operation, or leaves the FIFO alone. -/
theorem step_represents {c : QueueSize} {r : QueueRun φ α} {h : History (WorkItem φ α)}
    (hr : Represents c r h) (op : QueueOp φ α) :
    Represents c (r.step c op) (op.toFifo.elim h (h.step c.size)) := by
  have hcons := hr.consistent
  have hlen : h.queue.length = r.work.sWorkQueue.workQCount := by
    rw [← hr.items_eq, WorkQueue.items_length]
  cases op with
  | submit mtime fn arg =>
    obtain ⟨hcase, heq⟩ | ⟨f, rfl, hroom, heq⟩ := submit_cases hcons mtime fn arg
    · have hstep : r.step c (.submit mtime fn arg) = r := by simp [QueueRun.step, heq]
      rw [hstep]
      cases fn with
      | none => exact hr
      | some f =>
        have hfull : r.work.sWorkQueue.workQCount = c.size := hcase.resolve_left (by simp)
        have habs : h.step c.size (.push ⟨some f, arg⟩) = h := by
          simp [History.step, push, hlen, hfull]
        simpa only [QueueOp.toFifo, Option.elim, habs] using hr
    · have hpush : push c.size h.queue (⟨some f, arg⟩ : WorkItem φ α) =
          (true, h.queue ++ [⟨some f, arg⟩]) := by
        rw [push, if_pos (by omega)]
      obtain ⟨hst, hitems⟩ := hcons.store hroom f arg
      simp only [QueueRun.step, heq, QueueOp.toFifo, Option.elim, History.step, hpush, if_true]
      refine ⟨hst, ?_, ?_, hr.popped_eq⟩
      · rw [hitems, hr.items_eq]
      · rw [hr.accepted_eq]
  | pop =>
    obtain ⟨hst, hfst, hitems⟩ := hcons.pop
    rw [hr.items_eq] at hfst hitems
    simp only [QueueRun.step, QueueOp.toFifo, Option.elim, History.step]
    refine ⟨hst, hitems, hr.accepted_eq, ?_⟩
    rw [hfst, hr.popped_eq]

theorem run_represents {c : QueueSize} {r : QueueRun φ α} {h : History (WorkItem φ α)}
    (hr : Represents c r h) (ops : List (QueueOp φ α)) :
    Represents c (r.run c ops) ((ops.filterMap QueueOp.toFifo).foldl (History.step c.size) h) := by
  induction ops generalizing r h with
  | nil => exact hr
  | cons op ops ih =>
    have hstep := ih (step_represents hr op)
    rw [List.filterMap_cons]
    cases hop : op.toFifo with
    | none => rwa [hop] at hstep
    | some abstract => rwa [hop] at hstep

/-- The work queue is a bounded FIFO: over every history of submits and pops the counters
agree, a submit is refused exactly for a null function or a full queue and then changes
nothing, and the accepted items are the popped ones followed by the queued ones. -/
theorem work_queue_refines_fifo [Inhabited α] (c : QueueSize) (wake : Nat)
    (mie : Mie) (swPending : Bool) (ops : List (QueueOp φ α)) :
    let r := (QueueRun.start wake mie swPending : QueueRun φ α).run c ops
    let q := r.work.sWorkQueue
    let fifo := (ops.filterMap QueueOp.toFifo).foldl (History.step c.size) .empty
    (q.workQCount ≤ c.size ∧ (q.workQHead + q.workQCount) % c.size = q.workQTail) ∧
    (∀ mtime fn arg,
      ((tlkTaskWorkSubmit c mtime fn arg r.work).1 = false ↔
        fn = none ∨ q.workQCount = c.size) ∧
      ((tlkTaskWorkSubmit c mtime fn arg r.work).1 = false →
        (tlkTaskWorkSubmit c mtime fn arg r.work).2.sWorkQueue = q)) ∧
    (r.accepted = r.popped ++ q.items c ∧ (q.items c).length = q.workQCount) ∧
    (r.accepted = fifo.accepted ∧ r.popped = fifo.popped ∧ q.items c = fifo.queue) := by
  intro r q fifo
  have hr : Represents c r fifo := run_represents (start_represents c wake mie swPending) ops
  have hsound := History.run_sound (History.sound_empty c.size) (ops.filterMap QueueOp.toFifo)
  refine ⟨⟨hr.consistent.count_le, hr.consistent.tail_eq⟩, ?_, ⟨?_, ?_⟩,
    hr.accepted_eq, hr.popped_eq, hr.items_eq⟩
  · intro mtime fn arg
    obtain ⟨hcase, heq⟩ | ⟨f, hf, hroom, heq⟩ := submit_cases hr.consistent mtime fn arg
    · rw [heq]
      exact ⟨⟨fun _ => hcase, fun _ => rfl⟩, fun _ => rfl⟩
    · have hnot : ¬ (fn = none ∨ q.workQCount = c.size) := by
        rintro (h | h)
        · rw [hf] at h; cases h
        · exact Nat.ne_of_lt hroom h
      rw [heq]
      exact ⟨⟨fun h => absurd h (by simp), fun h => absurd h hnot⟩, fun h => absurd h (by simp)⟩
  · rw [hr.accepted_eq, hr.popped_eq, hr.items_eq]
    exact hsound.accounts
  · exact WorkQueue.items_length c q

end UniSdk.Planner

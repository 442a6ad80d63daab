import UniSdk.Core.Interrupts
import UniSdk.Library.BoundedFifo
import UniSdk.Library.Words

/-!
# The queue of log events

`tlk_debug_log_event_push` and `tlk_debug_log_event_pop`, each one atomic step because the
source runs its body with the three machine interrupts masked. Full and empty are told apart by
the two indices alone, so a ring of `n` cells holds at most `n - 1` events; the histories of
the code are histories of the bounded FIFO of that capacity.
-/

namespace UniSdk.Log

open UniSdk.Core Library.Words Library.BoundedFifo

/-- `tlk_log_level_t`. -/
inductive LogLevel
  | none
  | error
  | warn
  | info
  | debug
  deriving DecidableEq, Repr

/-- `tlk_log_event_t`. The strings are the ones that `module` and `msg` point to. -/
structure LogEvent where
  tsUs : Nat
  moduleName : String
  level : LogLevel
  isLiteral : Bool
  msg : String
  msgLen : Nat
  msgBuf : List Nat
  deriving DecidableEq

/-- `CONFIG_TLK_DEBUG_LOG_QUEUE_SIZE`: the length of an array that fits the 32-bit address
space. -/
structure LogQueueSize where
  size : Nat
  two_le : 2 ≤ size
  size_lt : size < 2 ^ 32

/-- `s_wr`, `s_rd` and `s_q`, with the MIE register. -/
structure LogQueue where
  mie : Mie
  sWr : Nat
  sRd : Nat
  sQ : Nat → LogEvent

/-- `TLK_FLD_MIE_MSIE | TLK_FLD_MIE_MTIE | TLK_FLD_MIE_MEIE`. -/
def logMieMask : Mie := ⟨true, true, true⟩

/-- No interrupt is enabled between the two accesses of MIE. -/
theorem log_masked (m : Mie) (i : Interrupt) :
    (tlkCoreMieDisable logMieMask m).2.enabled i = false := by
  cases i <;> simp [tlkCoreMieDisable, logMieMask, Mie.clear, Mie.enabled]

def tlkDebugLogEventPush (c : LogQueueSize) (e : LogEvent) (q : LogQueue) : Bool × LogQueue :=
  let (cs, mie) := tlkCoreMieDisable logMieMask q.mie
  let next := u32 (q.sWr + 1) % c.size
  if next = q.sRd then (false, { q with mie := tlkCoreMieEnable cs mie })
  else
    (true,
      { mie := tlkCoreMieEnable cs mie
        sWr := next
        sRd := q.sRd
        sQ := Function.update q.sQ q.sWr e })

/-- The event is the one copied to `*out`. -/
def tlkDebugLogEventPop (c : LogQueueSize) (q : LogQueue) : Option LogEvent × LogQueue :=
  let (cs, mie) := tlkCoreMieDisable logMieMask q.mie
  if q.sRd = q.sWr then (none, { q with mie := tlkCoreMieEnable cs mie })
  else
    (some (q.sQ q.sRd),
      { q with
        mie := tlkCoreMieEnable cs mie
        sRd := u32 (q.sRd + 1) % c.size })

namespace LogQueue

/-- The queue after `tlk_debug_log_init`. -/
def init (mie : Mie) (sQ : Nat → LogEvent) : LogQueue := ⟨mie, 0, 0, sQ⟩

/-- How many cells lie from `s_rd` up to `s_wr`. -/
def count (c : LogQueueSize) (q : LogQueue) : Nat := (q.sWr + (c.size - q.sRd)) % c.size

/-- The queued events, oldest first. -/
def events (c : LogQueueSize) (q : LogQueue) : List LogEvent :=
  ring c.size q.sQ q.sRd (q.count c)

@[simp] theorem events_length (c : LogQueueSize) (q : LogQueue) :
    (q.events c).length = q.count c := ring_length ..

structure InRange (c : LogQueueSize) (q : LogQueue) : Prop where
  wr_lt : q.sWr < c.size
  rd_lt : q.sRd < c.size

theorem init_inRange (c : LogQueueSize) (mie : Mie) (sQ : Nat → LogEvent) :
    (init mie sQ).InRange c := by
  have htwo := c.two_le
  exact ⟨by simp only [init]; omega, by simp only [init]; omega⟩

variable {c : LogQueueSize} {q : LogQueue}

theorem InRange.count_lt (h : q.InRange c) : q.count c < c.size :=
  Nat.mod_lt _ (Nat.zero_lt_of_lt h.wr_lt)

/-- The count without the modulus. -/
theorem InRange.count_eq (h : q.InRange c) :
    q.count c = if q.sRd ≤ q.sWr then q.sWr - q.sRd else q.sWr + c.size - q.sRd := by
  have hwr := h.wr_lt
  have hrd := h.rd_lt
  unfold count
  split
  · next hle =>
    have hsplit : q.sWr + (c.size - q.sRd) = q.sWr - q.sRd + c.size := by omega
    rw [hsplit, Nat.add_mod_right, Nat.mod_eq_of_lt (by omega)]
  · next hlt =>
    rw [Nat.mod_eq_of_lt (by omega)]
    omega

/-- `s_wr` is the cell behind the last event. -/
theorem InRange.wr_eq (h : q.InRange c) : (q.sRd + q.count c) % c.size = q.sWr := by
  have hrd := h.rd_lt
  unfold count
  have hsum : q.sRd + (q.sWr + (c.size - q.sRd)) = q.sWr + c.size := by omega
  rw [Nat.add_mod_mod, hsum, Nat.add_mod_right, Nat.mod_eq_of_lt h.wr_lt]

/-- An index advanced by one. -/
theorem next_index (c : LogQueueSize) {i : Nat} (hi : i < c.size) :
    u32 (i + 1) % c.size = if i + 1 = c.size then 0 else i + 1 := by
  have hsize := c.size_lt
  rw [u32_of_lt (by omega)]
  split
  · next he => rw [he, Nat.mod_self]
  · exact Nat.mod_eq_of_lt (by omega)

theorem InRange.full_iff (h : q.InRange c) :
    u32 (q.sWr + 1) % c.size = q.sRd ↔ q.count c = c.size - 1 := by
  have hwr := h.wr_lt
  have hrd := h.rd_lt
  rw [next_index c hwr, h.count_eq]
  split <;> split <;> omega

theorem InRange.empty_iff (h : q.InRange c) : q.sRd = q.sWr ↔ q.count c = 0 := by
  have hwr := h.wr_lt
  have hrd := h.rd_lt
  rw [h.count_eq]
  split <;> omega

/-- A push is refused by a full queue and leaves it, or appends the event. -/
theorem InRange.push_cases (h : q.InRange c) (e : LogEvent) :
    (q.count c = c.size - 1 ∧ tlkDebugLogEventPush c e q = (false, q)) ∨
    (q.count c < c.size - 1 ∧ ∃ q', tlkDebugLogEventPush c e q = (true, q') ∧ q'.InRange c ∧
      q'.events c = q.events c ++ [e]) := by
  have hwr := h.wr_lt
  have hrd := h.rd_lt
  have hlt := h.count_lt
  unfold tlkDebugLogEventPush
  simp only
  rw [mie_critical]
  by_cases hfull : u32 (q.sWr + 1) % c.size = q.sRd
  · rw [if_pos hfull]
    exact .inl ⟨h.full_iff.mp hfull, rfl⟩
  · rw [if_neg hfull]
    have hroom : q.count c ≠ c.size - 1 := fun hc => hfull (h.full_iff.mpr hc)
    refine .inr ⟨by omega, _, rfl, ⟨Nat.mod_lt _ (by omega), hrd⟩, ?_⟩
    have hcount : (u32 (q.sWr + 1) % c.size + (c.size - q.sRd)) % c.size = q.count c + 1 := by
      have hrange : ({ q with sWr := u32 (q.sWr + 1) % c.size } : LogQueue).InRange c :=
        ⟨Nat.mod_lt _ (by omega), hrd⟩
      have hnew := hrange.count_eq
      rw [h.count_eq] at hroom ⊢
      rw [next_index c hwr] at hnew
      rw [next_index c hwr]
      simp only [count] at hnew
      rw [hnew]
      split at hroom <;> split <;> split <;> omega
    unfold events
    rw [count, hcount]
    dsimp only
    have hcell := @ring_push LogEvent c.size q.sRd (q.count c) q.sQ e hlt
    rw [h.wr_eq] at hcell
    exact hcell

/-- A pop takes the oldest event, unmodified. -/
theorem InRange.pop (h : q.InRange c) :
    (tlkDebugLogEventPop c q).2.InRange c ∧
      (tlkDebugLogEventPop c q).1 = (Library.BoundedFifo.pop (q.events c)).1 ∧
      (tlkDebugLogEventPop c q).2.events c = (Library.BoundedFifo.pop (q.events c)).2 := by
  have hwr := h.wr_lt
  have hrd := h.rd_lt
  unfold tlkDebugLogEventPop
  simp only
  rw [mie_critical]
  by_cases hempty : q.sRd = q.sWr
  · rw [if_pos hempty]
    have hevents : q.events c = [] := by rw [events, h.empty_iff.mp hempty, ring_zero]
    rw [hevents]
    exact ⟨h, rfl, rfl⟩
  · rw [if_neg hempty]
    have hrange : ({ q with sRd := u32 (q.sRd + 1) % c.size } : LogQueue).InRange c :=
      ⟨hwr, Nat.mod_lt _ (by omega)⟩
    obtain ⟨n, hn⟩ := Nat.exists_eq_succ_of_ne_zero fun hzero => hempty (h.empty_iff.mpr hzero)
    have hevents : q.events c = q.sQ q.sRd :: ring c.size q.sQ ((q.sRd + 1) % c.size) n := by
      rw [events, hn]
      exact ring_pop q.sQ hrd
    have hcount : ({ q with sRd := u32 (q.sRd + 1) % c.size } : LogQueue).count c = n := by
      have hold := h.count_eq
      rw [hrange.count_eq]
      dsimp only
      rw [next_index c hrd]
      rw [hn] at hold
      split at hold <;> split <;> split <;> omega
    have hhead : u32 (q.sRd + 1) % c.size = (q.sRd + 1) % c.size := by
      have hsize := c.size_lt
      rw [u32_of_lt (by omega)]
    rw [hevents]
    refine ⟨hrange, rfl, ?_⟩
    rw [events, hcount]
    dsimp only
    rw [hhead]
    rfl

end LogQueue

/-! ## Histories -/

/-- The code's queue with what a push returned true for and what was popped so far. -/
structure LogRun where
  queue : LogQueue
  accepted : List LogEvent
  popped : List LogEvent

def LogRun.start (mie : Mie) (sQ : Nat → LogEvent) : LogRun := ⟨.init mie sQ, [], []⟩

def LogRun.step (c : LogQueueSize) (r : LogRun) : Op LogEvent → LogRun
  | .push e =>
    let res := tlkDebugLogEventPush c e r.queue
    { r with queue := res.2, accepted := if res.1 then r.accepted ++ [e] else r.accepted }
  | .pop =>
    let res := tlkDebugLogEventPop c r.queue
    { r with queue := res.2, popped := r.popped ++ res.1.toList }

def LogRun.run (c : LogQueueSize) (r : LogRun) (ops : List (Op LogEvent)) : LogRun :=
  ops.foldl (step c) r

/-- The code's state represents a history of the FIFO. -/
structure Represents (c : LogQueueSize) (r : LogRun) (h : History LogEvent) : Prop where
  inRange : r.queue.InRange c
  events_eq : r.queue.events c = h.queue
  accepted_eq : r.accepted = h.accepted
  popped_eq : r.popped = h.popped

theorem step_represents {c : LogQueueSize} {r : LogRun} {h : History LogEvent}
    (hr : Represents c r h) (op : Op LogEvent) :
    Represents c (r.step c op) (h.step (c.size - 1) op) := by
  have hlength : h.queue.length = r.queue.count c := by
    rw [← hr.events_eq, LogQueue.events_length]
  cases op with
  | push e =>
    obtain ⟨hfull, hpush⟩ | ⟨hroom, q', hpush, hrange, hevents⟩ := hr.inRange.push_cases e
    · have habs : push (c.size - 1) h.queue e = (false, h.queue) := by
        rw [push, if_neg (by omega)]
      simp only [LogRun.step, hpush, History.step, habs, Bool.false_eq_true, if_false]
      exact ⟨hr.inRange, hr.events_eq, hr.accepted_eq, hr.popped_eq⟩
    · have habs : push (c.size - 1) h.queue e = (true, h.queue ++ [e]) := by
        rw [push, if_pos (by omega)]
      simp only [LogRun.step, hpush, History.step, habs, if_true]
      refine ⟨hrange, ?_, ?_, hr.popped_eq⟩
      · rw [hevents, hr.events_eq]
      · rw [hr.accepted_eq]
  | pop =>
    obtain ⟨hrange, hfst, hevents⟩ := hr.inRange.pop
    rw [hr.events_eq] at hfst hevents
    refine ⟨hrange, hevents, hr.accepted_eq, ?_⟩
    simp only [LogRun.step, History.step]
    rw [hfst, hr.popped_eq]

theorem run_represents {c : LogQueueSize} {r : LogRun} {h : History LogEvent}
    (hr : Represents c r h) (ops : List (Op LogEvent)) :
    Represents c (r.run c ops) (ops.foldl (History.step (c.size - 1)) h) := by
  induction ops generalizing r h with
  | nil => exact hr
  | cons op ops ih => exact ih (step_represents hr op)

/-- The event queue is a bounded FIFO of one event less than its cells. -/
theorem log_queue_refines_fifo (c : LogQueueSize) (mie : Mie) (sQ : Nat → LogEvent)
    (ops : List (Op LogEvent)) :
    let r := (LogRun.start mie sQ).run c ops
    let q := r.queue
    let fifo := ops.foldl (History.step (c.size - 1)) .empty
    (q.sWr < c.size ∧ q.sRd < c.size) ∧
    (∀ e,
      ((tlkDebugLogEventPush c e q).1 = false ↔ (q.events c).length = c.size - 1) ∧
      ((tlkDebugLogEventPush c e q).1 = false → (tlkDebugLogEventPush c e q).2 = q)) ∧
    ((tlkDebugLogEventPop c q).1 = none ↔ q.events c = []) ∧
    r.accepted = r.popped ++ q.events c ∧
    (r.accepted = fifo.accepted ∧ r.popped = fifo.popped ∧ q.events c = fifo.queue) := by
  intro r q fifo
  have hstart : Represents c (.start mie sQ) .empty := by
    refine ⟨LogQueue.init_inRange c mie sQ, ?_, rfl, rfl⟩
    have hcount : (LogQueue.init mie sQ).count c = 0 :=
      (LogQueue.init_inRange c mie sQ).empty_iff.mp rfl
    show (LogQueue.init mie sQ).events c = []
    rw [LogQueue.events, hcount, ring_zero]
  have hr : Represents c r fifo := run_represents hstart ops
  have hsound := History.run_sound (History.sound_empty (c.size - 1)) ops
  refine ⟨⟨hr.inRange.wr_lt, hr.inRange.rd_lt⟩, fun e => ?_, ?_, ?_,
    hr.accepted_eq, hr.popped_eq, hr.events_eq⟩
  · rw [LogQueue.events_length]
    obtain ⟨hfull, hpush⟩ | ⟨hroom, q', hpush, -, -⟩ := hr.inRange.push_cases e
    · rw [hpush]
      exact ⟨⟨fun _ => hfull, fun _ => rfl⟩, fun _ => rfl⟩
    · rw [hpush]
      exact ⟨⟨nofun, fun h => absurd h (Nat.ne_of_lt hroom)⟩, nofun⟩
  · rw [hr.inRange.pop.2.1]
    cases q.events c with
    | nil => exact ⟨fun _ => rfl, fun _ => rfl⟩
    | cons e events => exact ⟨nofun, nofun⟩
  · rw [hr.accepted_eq, hr.popped_eq, hr.events_eq]
    exact hsound.accounts

end UniSdk.Log

import UniSdk.Library.Runs
import UniSdk.Log.EventQueue

/-!
# Log transmissions over the UART

The senders of `tlk_log.c`, one statement at a time: the draining loop of `tlk_debug_log_pump`,
the completion handler `tlk_debug_log_tx_handle`, and `tlk_debug_log_blocking` of the immediate
configuration. The UART records the buffer of a call and reports its completion once. The busy
flag is tested before the loop only, and the handler sends without setting it, so an event may
be taken while another one is still being sent; where that does not happen, transmissions do
not overlap and no buffer in flight is written.
-/

namespace UniSdk.Log

open Library.Runs

/-- `CONFIG_TLK_DEBUG_LOG_PRIO_...`. -/
inductive LogPrio
  | low
  | high
  | immediate
  deriving DecidableEq, Repr

structure LogTxConfig where
  queue : LogQueueSize
  prio : LogPrio

/-- `enum tlk_uart_status`. -/
inductive UartStatus
  | ok
  | timeout
  | error
  deriving DecidableEq, Repr

/-- The buffers that the logger sends from: `msg_buf` of the pump's `e`, the pump's static
`tlk_log_buffer`, `msg_buf` of the handler's static `e`, and the `tlk_log_buffer` of the
immediate configuration. -/
inductive TxBuffer
  | pumpEvent
  | literal
  | handlerEvent
  | immediate
  deriving DecidableEq, Repr

structure Transmission where
  buffer : TxBuffer
  len : Nat
  deriving DecidableEq, Repr

/-- The statement of `tlk_debug_log_pump` that runs next. -/
inductive PumpLoc
  | testLock
  | pop
  | format
  | lock (t : Transmission)
  | send (t : Transmission)
  | check (status : UartStatus)
  deriving DecidableEq, Repr

/-- The statement of `tlk_debug_log_tx_handle` that runs next. -/
inductive TxHandlerLoc
  | unlock
  | pop
  | send (len : Nat)
  deriving DecidableEq, Repr

/-- The statement of `tlk_debug_log_blocking` that runs next. -/
inductive BlockingLoc
  | head
  | body
  | send (t : Transmission)
  | wait
  | clear
  deriving DecidableEq, Repr

/-- The logger. `txHandlers` are the completion handlers in execution, the last one entered
first. `inFlight` are the transmissions that the UART has recorded and not completed. The rest
is history: a send while another was in flight, a write to a buffer in flight. -/
structure LogTx where
  queue : LogQueue
  txDone : Bool
  pumpE : LogEvent
  handlerE : LogEvent
  pump : Option PumpLoc
  txHandlers : List TxHandlerLoc
  blocking : Option BlockingLoc
  inFlight : List Transmission
  overlapped : Bool
  clobbered : Bool

/-- `off` and `size` are results of `snprintf`, `status` of `tlk_uart_send_bytes`. -/
inductive LogTxAction
  | push (e : LogEvent)
  | callPump
  | pump (off : Nat) (status : UartStatus)
  | complete (i : Nat)
  | handler (status : UartStatus)
  | callBlocking
  | blocking (fits : Bool) (size : Nat) (status : UartStatus)

namespace LogTx

def write (b : TxBuffer) (s : LogTx) : LogTx :=
  { s with clobbered := s.clobbered || s.inFlight.any (·.buffer == b) }

/-- `tlk_uart_send_bytes`: a call that fails records nothing. -/
def sendBytes (t : Transmission) (status : UartStatus) (s : LogTx) : LogTx :=
  { s with
    overlapped := s.overlapped || !s.inFlight.isEmpty
    inFlight := if status = .ok then t :: s.inFlight else s.inFlight }

end LogTx

open LogTx

def pumpExec (c : LogTxConfig) (off : Nat) (status : UartStatus) (s : LogTx) :
    PumpLoc → LogTx
  | .testLock => { s with pump := if s.txDone then some .pop else none }
  | .pop =>
    match tlkDebugLogEventPop c.queue s.queue with
    | (none, queue) => { s with queue, pump := none }
    | (some e, queue) =>
      { s.write .pumpEvent with
        queue
        pumpE := e
        pump := some (if e.isLiteral then .format else .lock ⟨.pumpEvent, e.msgLen⟩) }
  | .format => { s.write .literal with pump := some (.lock ⟨.literal, off⟩) }
  | .lock t => { s with txDone := false, pump := some (.send t) }
  | .send t => { s.sendBytes t status with pump := some (.check status) }
  | .check status =>
    { s with txDone := if status = .ok then s.txDone else true, pump := some .pop }

def txHandlerExec (c : LogTxConfig) (status : UartStatus) (rest : List TxHandlerLoc) (s : LogTx) :
    TxHandlerLoc → LogTx
  | .unlock =>
    { s with txDone := true, txHandlers := if c.prio = .high then .pop :: rest else rest }
  | .pop =>
    match tlkDebugLogEventPop c.queue s.queue with
    | (none, queue) => { s with queue, txHandlers := rest }
    | (some e, queue) =>
      { s.write .handlerEvent with queue, handlerE := e, txHandlers := .send e.msgLen :: rest }
  | .send len => { s.sendBytes ⟨.handlerEvent, len⟩ status with txHandlers := rest }

/-- `fits` tells whether the head of the line fits; `size` is the length of the whole line. -/
def blockingExec (fits : Bool) (size : Nat) (status : UartStatus) (s : LogTx) :
    BlockingLoc → LogTx
  | .head => { s.write .immediate with blocking := if fits then some .body else none }
  | .body =>
    { s.write .immediate with
      blocking := if 0 < size then some (.send ⟨.immediate, size⟩) else none }
  | .send t => { s.sendBytes t status with blocking := some .wait }
  | .wait => { s with blocking := some (if s.txDone then .clear else .wait) }
  | .clear => { s with txDone := false, blocking := none }

/-- The pump and the queue belong to two configurations, `tlk_debug_log_blocking` to the
third. -/
def logTxStep (c : LogTxConfig) (s : LogTx) : LogTxAction → Option LogTx
  | .push e =>
    if c.prio = .immediate then none
    else some { s with queue := (tlkDebugLogEventPush c.queue e s.queue).2 }
  | .callPump =>
    if c.prio = .immediate then none
    else
      match s.pump with
      | none => some { s with pump := some .testLock }
      | some _ => none
  | .pump off status => s.pump.map (pumpExec c off status s)
  | .complete i =>
    if i < s.inFlight.length then
      some { s with inFlight := s.inFlight.eraseIdx i, txHandlers := .unlock :: s.txHandlers }
    else none
  | .handler status =>
    match s.txHandlers with
    | loc :: rest => some (txHandlerExec c status rest s loc)
    | [] => none
  | .callBlocking =>
    if c.prio = .immediate then
      match s.blocking with
      | none => some { s with blocking := some .head }
      | some _ => none
    else none
  | .blocking fits size status => s.blocking.map (blockingExec fits size status s)

/-- The initial values; the cells of the queue are as the memory was. -/
def LogTx.init (queue : LogQueue) (e : LogEvent) : LogTx where
  queue := .init queue.mie queue.sQ
  txDone := true
  pumpE := e
  handlerE := e
  pump := none
  txHandlers := []
  blocking := none
  inFlight := []
  overlapped := false
  clobbered := false

/-! ## One event at a time -/

/-- An event has been taken and not been sent. -/
def PumpLoc.holds : PumpLoc → Bool
  | .format | .lock _ | .send _ => true
  | .testLock | .pop | .check _ => false

def TxHandlerLoc.holds : TxHandlerLoc → Bool
  | .send _ => true
  | .unlock | .pop => false

def BlockingLoc.holds : BlockingLoc → Bool
  | .head | .body | .send _ => true
  | .wait | .clear => false

/-- How many events are taken and not sent, or in flight. -/
def LogTx.busy (s : LogTx) : Nat :=
  s.inFlight.length + (s.pump.any PumpLoc.holds).toNat +
    s.txHandlers.countP TxHandlerLoc.holds + (s.blocking.any BlockingLoc.holds).toNat

/-- The action takes an event from the queue, or starts an immediate message. -/
def takesEvent (s : LogTx) : LogTxAction → Bool
  | .pump .. => s.pump == some .pop && s.queue.sRd != s.queue.sWr
  | .handler _ => s.txHandlers.head? == some .pop && s.queue.sRd != s.queue.sWr
  | .callBlocking => true
  | _ => false

/-- Events are taken only when every earlier one has been sent completely. -/
def OneAtATime (s : LogTx) (a : LogTxAction) : Prop := takesEvent s a = true → s.busy = 0

instance (s : LogTx) (a : LogTxAction) : Decidable (OneAtATime s a) :=
  inferInstanceAs (Decidable (_ → _))

structure TxInv (s : LogTx) : Prop where
  single : s.busy ≤ 1
  apart : s.overlapped = false
  stable : s.clobbered = false

section Step

variable {c : LogTxConfig} {s s' : LogTx}

theorem write_clean {b : TxBuffer} (h : s.clobbered = false) (hidle : s.inFlight = []) :
    (s.write b).clobbered = false := by
  simp [LogTx.write, h, hidle]

theorem sendBytes_apart (t : Transmission) (status : UartStatus) (h : s.overlapped = false)
    (hidle : s.inFlight = []) : (s.sendBytes t status).overlapped = false := by
  simp [LogTx.sendBytes, h, hidle]

theorem sendBytes_length (t : Transmission) (status : UartStatus) (s : LogTx) :
    (s.sendBytes t status).inFlight.length ≤ s.inFlight.length + 1 := by
  unfold LogTx.sendBytes
  dsimp only
  split
  · exact Nat.le_refl _
  · exact Nat.le_succ _

theorem pop_none {c : LogQueueSize} {q : LogQueue} (h : (tlkDebugLogEventPop c q).1 = none) :
    q.sRd = q.sWr := by
  unfold tlkDebugLogEventPop at h
  simp only at h
  split at h
  · assumption
  · cases h

theorem pop_some {c : LogQueueSize} {q : LogQueue} {e : LogEvent}
    (h : (tlkDebugLogEventPop c q).1 = some e) : q.sRd ≠ q.sWr := by
  unfold tlkDebugLogEventPop at h
  simp only at h
  split at h
  · cases h
  · assumption

theorem idle_of_busy (h : s.busy = 0) : s.inFlight = [] := by
  unfold LogTx.busy at h
  exact List.eq_nil_of_length_eq_zero (by omega)

/-- The one event taken is the pump's, so nothing is in flight. -/
theorem idle_of_pump {loc : PumpLoc} (h : s.busy ≤ 1) (hloc : s.pump = some loc)
    (hholds : loc.holds = true) : s.inFlight = [] := by
  simp only [LogTx.busy, hloc, Option.any_some, hholds, Bool.toNat_true] at h
  exact List.eq_nil_of_length_eq_zero (by omega)

theorem idle_of_handler {loc : TxHandlerLoc} {rest : List TxHandlerLoc} (h : s.busy ≤ 1)
    (hloc : s.txHandlers = loc :: rest) (hholds : loc.holds = true) : s.inFlight = [] := by
  simp only [LogTx.busy, hloc, List.countP_cons, hholds, if_true] at h
  exact List.eq_nil_of_length_eq_zero (by omega)

theorem idle_of_blocking {loc : BlockingLoc} (h : s.busy ≤ 1) (hloc : s.blocking = some loc)
    (hholds : loc.holds = true) : s.inFlight = [] := by
  simp only [LogTx.busy, hloc, Option.any_some, hholds, Bool.toNat_true] at h
  exact List.eq_nil_of_length_eq_zero (by omega)

/-- A statement of the pump. Taking an event makes the logger busy, sending it hands it over to
the UART. -/
theorem pumpExec_inv {loc : PumpLoc} (off : Nat) (status : UartStatus) (h : TxInv s)
    (hloc : s.pump = some loc)
    (htake : loc = .pop → s.queue.sRd ≠ s.queue.sWr → s.busy = 0) :
    TxInv (pumpExec c off status s loc) := by
  have hsingle := h.single
  simp only [LogTx.busy, hloc, Option.any_some] at hsingle
  cases loc with
  | testLock =>
    refine ⟨?_, h.apart, h.stable⟩
    simp only [pumpExec, LogTx.busy]
    split <;> simp only [Option.any_some, Option.any_none, PumpLoc.holds] at hsingle ⊢ <;> exact hsingle
  | pop =>
    rw [pumpExec]
    split
    · exact ⟨hsingle, h.apart, h.stable⟩
    · next e queue hpop =>
      have hnonempty := pop_some (by rw [hpop])
      have hbusy := htake rfl hnonempty
      refine ⟨?_, h.apart, write_clean h.stable (idle_of_busy hbusy)⟩
      simp only [LogTx.busy, hloc, Option.any_some, PumpLoc.holds, LogTx.write] at hbusy ⊢
      split <;> simp only [Bool.toNat_true, Bool.toNat_false] at hbusy ⊢ <;> omega
  | format =>
    have hidle := idle_of_pump h.single hloc rfl
    exact ⟨hsingle, h.apart, write_clean h.stable hidle⟩
  | lock t => exact ⟨hsingle, h.apart, h.stable⟩
  | send t =>
    have hidle := idle_of_pump h.single hloc rfl
    refine ⟨?_, sendBytes_apart t status h.apart hidle, h.stable⟩
    have hlength := sendBytes_length t status s
    simp only [PumpLoc.holds, Bool.toNat_true] at hsingle
    simp only [pumpExec, LogTx.busy, Option.any_some, PumpLoc.holds, Bool.toNat_false]
    simp only [LogTx.sendBytes] at hlength ⊢
    omega
  | check status' => exact ⟨hsingle, h.apart, h.stable⟩

theorem txHandlerExec_inv {loc : TxHandlerLoc} {rest : List TxHandlerLoc} (status : UartStatus)
    (h : TxInv s) (hloc : s.txHandlers = loc :: rest)
    (htake : loc = .pop → s.queue.sRd ≠ s.queue.sWr → s.busy = 0) :
    TxInv (txHandlerExec c status rest s loc) := by
  have hsingle := h.single
  simp only [LogTx.busy, hloc, List.countP_cons] at hsingle
  cases loc with
  | unlock =>
    refine ⟨?_, h.apart, h.stable⟩
    simp only [TxHandlerLoc.holds, Bool.false_eq_true, if_false] at hsingle
    simp only [txHandlerExec, LogTx.busy]
    split
    · simpa only [List.countP_cons, TxHandlerLoc.holds, Bool.false_eq_true, if_false] using hsingle
    · exact hsingle
  | pop =>
    simp only [TxHandlerLoc.holds, Bool.false_eq_true, if_false] at hsingle
    rw [txHandlerExec]
    split
    · exact ⟨hsingle, h.apart, h.stable⟩
    · next e queue hpop =>
      have hnonempty := pop_some (by rw [hpop])
      have hbusy := htake rfl hnonempty
      refine ⟨?_, h.apart, write_clean h.stable (idle_of_busy hbusy)⟩
      simp only [LogTx.busy, hloc, List.countP_cons] at hbusy
      simp only [LogTx.busy, List.countP_cons, TxHandlerLoc.holds, if_true, LogTx.write]
      omega
  | send len =>
    have hidle := idle_of_handler h.single hloc rfl
    refine ⟨?_, sendBytes_apart ⟨.handlerEvent, len⟩ status h.apart hidle, h.stable⟩
    have hlength := sendBytes_length ⟨.handlerEvent, len⟩ status s
    simp only [TxHandlerLoc.holds, if_true] at hsingle
    simp only [txHandlerExec, LogTx.busy]
    simp only [LogTx.sendBytes] at hlength ⊢
    omega

theorem blockingExec_inv {loc : BlockingLoc} (fits : Bool) (size : Nat) (status : UartStatus)
    (h : TxInv s) (hloc : s.blocking = some loc) : TxInv (blockingExec fits size status s loc) := by
  have hsingle := h.single
  simp only [LogTx.busy, hloc, Option.any_some] at hsingle
  cases loc with
  | head | body =>
    have hidle := idle_of_blocking h.single hloc rfl
    refine ⟨?_, h.apart, write_clean h.stable hidle⟩
    simp only [BlockingLoc.holds, Bool.toNat_true] at hsingle
    simp only [blockingExec, LogTx.busy, LogTx.write]
    split
    · simpa only [Option.any_some, BlockingLoc.holds, Bool.toNat_true] using hsingle
    · simp only [Option.any_none, Bool.toNat_false]
      omega
  | send t =>
    have hidle := idle_of_blocking h.single hloc rfl
    refine ⟨?_, sendBytes_apart t status h.apart hidle, h.stable⟩
    have hlength := sendBytes_length t status s
    simp only [BlockingLoc.holds, Bool.toNat_true] at hsingle
    simp only [blockingExec, LogTx.busy, Option.any_some, BlockingLoc.holds, Bool.toNat_false]
    simp only [LogTx.sendBytes] at hlength ⊢
    omega
  | wait =>
    refine ⟨?_, h.apart, h.stable⟩
    simp only [blockingExec, LogTx.busy]
    split <;> simpa only [Option.any_some, BlockingLoc.holds] using hsingle
  | clear => exact ⟨hsingle, h.apart, h.stable⟩

theorem logTxStep_inv {a : LogTxAction} (hstep : logTxStep c s a = some s')
    (hone : OneAtATime s a) (h : TxInv s) : TxInv s' := by
  cases a with
  | push e =>
    simp only [logTxStep] at hstep
    split at hstep
    · cases hstep
    · cases hstep
      exact ⟨h.single, h.apart, h.stable⟩
  | callPump =>
    simp only [logTxStep] at hstep
    split at hstep
    · cases hstep
    · split at hstep
      · next hpump =>
        cases hstep
        refine ⟨?_, h.apart, h.stable⟩
        have hsingle := h.single
        simp only [LogTx.busy, hpump] at hsingle
        exact hsingle
      · cases hstep
  | pump off status =>
    obtain ⟨loc, hloc, rfl⟩ := Option.map_eq_some_iff.mp hstep
    refine pumpExec_inv off status h hloc fun hpop hne => hone ?_
    subst hpop
    simp [takesEvent, hloc, hne]
  | complete i =>
    simp only [logTxStep] at hstep
    split at hstep
    · next hi =>
      cases hstep
      refine ⟨?_, h.apart, h.stable⟩
      have hsingle := h.single
      simp only [LogTx.busy, List.length_eraseIdx_of_lt hi, List.countP_cons, TxHandlerLoc.holds,
        Bool.false_eq_true, if_false] at hsingle ⊢
      omega
    · cases hstep
  | handler status =>
    simp only [logTxStep] at hstep
    split at hstep
    · next loc rest hloc =>
      cases hstep
      refine txHandlerExec_inv status h hloc fun hpop hne => hone ?_
      subst hpop
      simp [takesEvent, hloc, hne]
    · cases hstep
  | callBlocking =>
    have hbusy := hone rfl
    simp only [logTxStep] at hstep
    split at hstep
    · split at hstep
      · next hblocking =>
        cases hstep
        refine ⟨?_, h.apart, h.stable⟩
        simp only [LogTx.busy, hblocking] at hbusy
        simp only [LogTx.busy, Option.any_some, BlockingLoc.holds, Bool.toNat_true]
        simp only [Option.any_none, Bool.toNat_false] at hbusy
        omega
      · cases hstep
    · cases hstep
  | blocking fits size status =>
    obtain ⟨loc, hloc, rfl⟩ := Option.map_eq_some_iff.mp hstep
    exact blockingExec_inv fits size status h hloc

end Step

/-- Runs of the logger from its initial state. -/
abbrev LogTxRun (c : LogTxConfig) (ok : LogTx → LogTxAction → Prop) (queue : LogQueue)
    (e : LogEvent) (acts : List LogTxAction) (s : LogTx) : Prop :=
  Run (logTxStep c) (fun s a _ => ok s a) (.init queue e) acts s

section Early

variable {c : LogTxConfig} {s s' : LogTx}

/-- Some run leads from `s` to a send while a transmission is in flight. -/
def MayOverlap (c : LogTxConfig) (s : LogTx) : Prop :=
  ∃ t, Leads (logTxStep c) (fun _ _ _ => True) s t ∧ t.overlapped = true

theorem MayOverlap.of_step (a : LogTxAction) (hstep : logTxStep c s a = some s')
    (h : MayOverlap c s') : MayOverlap c s := by
  obtain ⟨t, hleads, ht⟩ := h
  exact ⟨t, (Leads.single a hstep trivial).trans hleads, ht⟩

theorem MayOverlap.now (h : s.overlapped = true) : MayOverlap c s := ⟨s, .refl s, h⟩

theorem sendBytes_overlaps (t : Transmission) (status : UartStatus) (h : s.inFlight ≠ []) :
    (s.sendBytes t status).overlapped = true := by
  simp [LogTx.sendBytes, h]

theorem pump_lock_overlaps {t : Transmission} (hloc : s.pump = some (.lock t))
    (h : s.inFlight ≠ []) : MayOverlap c s := by
  apply MayOverlap.of_step (.pump 0 .ok) (by simp only [logTxStep, hloc, Option.map_some]; rfl)
  apply MayOverlap.of_step (.pump 0 .ok) rfl
  exact .now (sendBytes_overlaps t .ok h)

/-- The condition leaves out only the branches that go wrong: an event taken while a
transmission is in flight can be sent while it still is. -/
theorem early_event_overlaps {a : LogTxAction} (hstep : logTxStep c s a = some s')
    (htake : takesEvent s a = true) (h : s.inFlight ≠ []) : MayOverlap c s' := by
  cases a with
  | pump off status =>
    obtain ⟨loc, hloc, rfl⟩ := Option.map_eq_some_iff.mp hstep
    simp only [takesEvent, hloc, Bool.and_eq_true, beq_iff_eq, Option.some.injEq, bne_iff_ne,
      ne_eq] at htake
    obtain ⟨rfl, hne⟩ := htake
    rw [pumpExec]
    split
    · next hpop => exact absurd (pop_none (by rw [hpop])) hne
    · next e queue hpop =>
      cases hliteral : e.isLiteral with
      | false => exact pump_lock_overlaps rfl h
      | true =>
        apply MayOverlap.of_step (.pump 0 .ok) rfl
        exact pump_lock_overlaps rfl h
  | handler status =>
    simp only [logTxStep] at hstep
    split at hstep
    · next loc rest hloc =>
      cases hstep
      simp only [takesEvent, hloc, List.head?_cons, Bool.and_eq_true, beq_iff_eq,
        Option.some.injEq, bne_iff_ne, ne_eq] at htake
      obtain ⟨rfl, hne⟩ := htake
      rw [txHandlerExec]
      split
      · next hpop => exact absurd (pop_none (by rw [hpop])) hne
      · next e queue hpop =>
        apply MayOverlap.of_step (.handler .ok) rfl
        exact .now (sendBytes_overlaps ⟨.handlerEvent, e.msgLen⟩ .ok h)
    · cases hstep
  | callBlocking =>
    simp only [logTxStep] at hstep
    split at hstep
    · split at hstep
      · cases hstep
        apply MayOverlap.of_step (.blocking true 1 .ok) rfl
        apply MayOverlap.of_step (.blocking true 1 .ok) rfl
        apply MayOverlap.of_step (.blocking true 1 .ok) rfl
        exact .now (sendBytes_overlaps ⟨.immediate, 1⟩ .ok h)
      · cases hstep
    · cases hstep
  | push e => cases htake
  | callPump => cases htake
  | complete i => cases htake
  | blocking fits size status => cases htake

end Early

/-- Four cells and a configuration. -/
def smallLog (prio : LogPrio) : LogTxConfig := ⟨⟨4, by decide, by decide⟩, prio⟩

/-- A message formatted in task context. -/
def queuedEvent : LogEvent := ⟨0, "app", .info, false, "", 1, [65]⟩

def idleQueue : LogQueue := ⟨⟨true, true, true⟩, 0, 0, fun _ => queuedEvent⟩

/-- An event is queued, taken by the pump and sent. -/
def sendOne : List LogTxAction :=
  [.push queuedEvent, .callPump, .pump 0 .ok, .pump 0 .ok, .pump 0 .ok, .pump 0 .ok, .pump 0 .ok]

/-- It completes, and the loop goes on with the next one. -/
def sendNext : List LogTxAction :=
  [.complete 0, .handler .ok, .push queuedEvent, .pump 0 .ok, .pump 0 .ok, .pump 0 .ok]

/-- A second event is queued before the loop comes round. -/
def drainTwo : List LogTxAction :=
  .push queuedEvent :: sendOne ++ [.pump 0 .ok, .pump 0 .ok, .pump 0 .ok]

/-- The handler sends a queued event, and the pump is called while it is sent. -/
def handlerThenPump : List LogTxAction :=
  sendOne ++
    [.pump 0 .ok, .push queuedEvent, .complete 0, .handler .ok, .handler .ok, .handler .ok,
      .push queuedEvent, .callPump, .pump 0 .ok, .pump 0 .ok, .pump 0 .ok, .pump 0 .ok]

/-- Two messages: the first does not wait, because the flag is set from the start. -/
def messageTwice : List LogTxAction :=
  [.callBlocking, .blocking true 9 .ok, .blocking true 9 .ok, .blocking true 9 .ok,
    .blocking true 9 .ok, .blocking true 9 .ok, .callBlocking, .blocking true 9 .ok,
    .blocking true 9 .ok, .blocking true 9 .ok]

end UniSdk.Log

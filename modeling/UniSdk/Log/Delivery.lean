import Mathlib
import UniSdk.Log.Transmit

/-!
# Delivery of log events

What the UART is handed against what the queue has accepted. The pump is the only consumer in the
low priority configuration; in the high one the completion handler is another, and the order holds
as long as an event is taken only when every earlier one has been sent.
-/

namespace UniSdk.Log

open Library.Runs

/-- A call of `tlk_uart_send_bytes`: the event whose line is in the buffer, the buffer with the
length, and the result. -/
structure Sent where
  event : LogEvent
  transmission : Transmission
  status : UartStatus
  deriving DecidableEq

/-- The logger with the events that a push returned true for, and the calls to the UART. -/
structure Delivery where
  tx : LogTx
  accepted : List LogEvent
  sent : List Sent

namespace LogTx

/-- The event that the queue accepts. -/
def accepts (c : LogTxConfig) (s : LogTx) : LogTxAction → List LogEvent
  | .push e => if (tlkDebugLogEventPush c.queue e s.queue).1 then [e] else []
  | _ => []

/-- The event that is handed to the UART. -/
def sends (s : LogTx) : LogTxAction → List Sent
  | .pump _ status =>
    match s.pump with
    | some (.send t) => [⟨s.pumpE, t, status⟩]
    | _ => []
  | .handler status =>
    match s.txHandlers with
    | .send len :: _ => [⟨s.handlerE, ⟨.handlerEvent, len⟩, status⟩]
    | _ => []
  | _ => []

/-- The event that the pump has taken and not sent. -/
def pumpTaken (s : LogTx) : List LogEvent := if s.pump.any PumpLoc.holds then [s.pumpE] else []

/-- The event that the handler has taken and not sent. -/
def handlerTaken (s : LogTx) : List LogEvent :=
  if s.txHandlers.any TxHandlerLoc.holds then [s.handlerE] else []

end LogTx

def deliveryStep (c : LogTxConfig) (d : Delivery) (a : LogTxAction) : Option Delivery :=
  (logTxStep c d.tx a).map fun tx =>
    ⟨tx, d.accepted ++ d.tx.accepts c a, d.sent ++ d.tx.sends a⟩

def Delivery.init (queue : LogQueue) (e : LogEvent) : Delivery := ⟨.init queue e, [], []⟩

/-- The pump is the only consumer, or events are taken one at a time. -/
def InTurn (c : LogTxConfig) (s : LogTx) (a : LogTxAction) : Prop :=
  c.prio = .low ∨ OneAtATime s a

instance (c : LogTxConfig) (s : LogTx) (a : LogTxAction) : Decidable (InTurn c s a) :=
  inferInstanceAs (Decidable (_ ∨ _))

/-- Runs of the logger from its initial state, with what it has accepted and sent. -/
abbrev DeliveryRun (c : LogTxConfig) (ok : LogTx → LogTxAction → Prop) (queue : LogQueue)
    (e : LogEvent) (acts : List LogTxAction) (d : Delivery) : Prop :=
  Run (deliveryStep c) (fun d a _ => ok d.tx a) (.init queue e) acts d

/-- A message formatted in task context is sent with its own length. -/
def Sent.Whole (sent : Sent) : Prop :=
  sent.event.isLiteral = false → sent.transmission.len = sent.event.msgLen

/-- The pump is about to send that many bytes, without formatting them first. -/
def PumpLoc.SendsWhole (len : Nat) : PumpLoc → Prop
  | .format => False
  | .lock t | .send t => t.len = len
  | .testLock | .pop | .check _ => True

structure DeliveryInv (c : LogTxConfig) (d : Delivery) : Prop where
  inRange : d.tx.queue.InRange c.queue
  accounts : d.accepted = d.sent.map Sent.event ++ d.tx.pumpTaken ++ d.tx.handlerTaken ++
    d.tx.queue.events c.queue
  whole : ∀ sent ∈ d.sent, sent.Whole
  pumpWhole : ∀ loc, d.tx.pump = some loc → d.tx.pumpE.isLiteral = false →
    loc.SendsWhole d.tx.pumpE.msgLen
  handlerWhole : ∀ len, .send len ∈ d.tx.txHandlers → len = d.tx.handlerE.msgLen
  unlocks : c.prio = .low → ∀ loc ∈ d.tx.txHandlers, loc = .unlock
  single : c.prio ≠ .low → TxInv d.tx

section Step

variable {c : LogTxConfig} {d : Delivery} {s : LogTx}

theorem handlerTaken_of_idle (h : s.txHandlers.countP TxHandlerLoc.holds = 0) :
    s.handlerTaken = [] := by
  rw [LogTx.handlerTaken, if_neg]
  rw [List.any_eq_true]
  exact fun ⟨loc, hmem, hholds⟩ => List.countP_eq_zero.mp h loc hmem hholds

/-- When an event is taken, no handler holds another one. -/
theorem DeliveryInv.handlers_idle (h : DeliveryInv c d) (hturn : c.prio = .low ∨ d.tx.busy = 0) :
    d.tx.txHandlers.countP TxHandlerLoc.holds = 0 := by
  by_cases hlow : c.prio = .low
  · refine List.countP_eq_zero.mpr fun loc hmem => ?_
    rw [h.unlocks hlow loc hmem]
    exact nofun
  · have hbusy := hturn.resolve_left hlow
    rw [LogTx.busy] at hbusy
    omega

theorem pumpTaken_of_idle (h : (s.pump.any PumpLoc.holds).toNat = 0) : s.pumpTaken = [] := by
  rw [LogTx.pumpTaken, Bool.toNat_eq_zero.mp h]
  rfl

theorem pumpExec_txHandlers (off : Nat) (status : UartStatus) (s : LogTx) (loc : PumpLoc) :
    (pumpExec c off status s loc).txHandlers = s.txHandlers := by
  cases loc with
  | pop =>
    rw [pumpExec]
    split <;> rfl
  | _ => rfl

/-- A statement of the pump that takes nothing and sends nothing. -/
theorem DeliveryInv.goes (h : DeliveryInv c d) {tx : LogTx} (hqueue : tx.queue = d.tx.queue)
    (hhandlers : tx.txHandlers = d.tx.txHandlers) (hhandlerE : tx.handlerE = d.tx.handlerE)
    (htaken : tx.pumpTaken = d.tx.pumpTaken)
    (hwhole : ∀ loc, tx.pump = some loc → tx.pumpE.isLiteral = false →
      loc.SendsWhole tx.pumpE.msgLen)
    (hsingle : c.prio ≠ .low → TxInv tx) : DeliveryInv c ⟨tx, d.accepted, d.sent⟩ where
  inRange := hqueue ▸ h.inRange
  accounts := by
    have haccounts := h.accounts
    simp only [LogTx.handlerTaken, hhandlers, hhandlerE, htaken, hqueue] at haccounts ⊢
    exact haccounts
  whole := h.whole
  pumpWhole := hwhole
  handlerWhole := fun len hlen => hhandlerE ▸ h.handlerWhole len (hhandlers ▸ hlen)
  unlocks := fun hlow loc hmem => h.unlocks hlow loc (hhandlers ▸ hmem)
  single := hsingle

/-- What a pop does to the queued events. -/
theorem pop_events {q : LogQueue} (h : q.InRange c.queue) {e : Option LogEvent} {q' : LogQueue}
    (hpop : tlkDebugLogEventPop c.queue q = (e, q')) :
    q'.InRange c.queue ∧ q.events c.queue = e.toList ++ q'.events c.queue := by
  obtain ⟨hrange, hfirst, hrest⟩ := h.pop
  rw [hpop] at hrange hfirst hrest
  refine ⟨hrange, ?_⟩
  dsimp only at hfirst hrest
  rw [hfirst, hrest]
  cases q.events c.queue <;> rfl

/-- The pump: what it takes leaves the queue, what it sends is what it has taken. -/
theorem DeliveryInv.pump {loc : PumpLoc} (h : DeliveryInv c d) (hloc : d.tx.pump = some loc)
    (off : Nat) (status : UartStatus)
    (hturn : loc = .pop → d.tx.queue.sRd ≠ d.tx.queue.sWr → c.prio = .low ∨ d.tx.busy = 0)
    (hsingle : c.prio ≠ .low → TxInv (pumpExec c off status d.tx loc)) :
    DeliveryInv c ⟨pumpExec c off status d.tx loc, d.accepted,
      d.sent ++ d.tx.sends (.pump off status)⟩ := by
  have haccounts := h.accounts
  cases loc with
  | testLock =>
    have hsends : d.tx.sends (.pump off status) = [] := by simp only [LogTx.sends, hloc]
    rw [hsends, List.append_nil]
    refine h.goes rfl rfl rfl ?_ (fun loc hpump _ => ?_) hsingle
    · rw [pumpTaken_of_idle (s := d.tx) (by rw [hloc]; rfl)]
      refine pumpTaken_of_idle ?_
      simp only [pumpExec]
      split <;> rfl
    · simp only [pumpExec] at hpump
      split at hpump
      · cases hpump
        trivial
      · cases hpump
  | pop =>
    have hsends : d.tx.sends (.pump off status) = [] := by simp only [LogTx.sends, hloc]
    have hidle : d.tx.pumpTaken = [] := pumpTaken_of_idle (by rw [hloc]; rfl)
    rw [hsends, List.append_nil]
    rw [hidle, List.append_nil] at haccounts
    simp only [pumpExec] at hsingle ⊢
    split at hsingle
    · next queue hpop =>
      obtain ⟨hrange, hevents⟩ := pop_events h.inRange hpop
      rw [hevents, Option.toList_none, List.nil_append] at haccounts
      refine ⟨hrange, ?_, h.whole, fun loc hpump => absurd hpump.symm (Option.some_ne_none loc),
        h.handlerWhole, h.unlocks, hsingle⟩
      simpa [LogTx.pumpTaken, LogTx.handlerTaken] using haccounts
    · next e queue hpop =>
      obtain ⟨hrange, hevents⟩ := pop_events h.inRange hpop
      have hhandlers : d.tx.handlerTaken = [] :=
        handlerTaken_of_idle (h.handlers_idle (hturn rfl (pop_some (by rw [hpop]))))
      rw [hevents, hhandlers, List.append_nil] at haccounts
      refine ⟨hrange, ?_, h.whole, fun loc hpump hliteral => ?_, h.handlerWhole, h.unlocks,
        hsingle⟩
      · have hholds : PumpLoc.holds
            (if e.isLiteral then .format else .lock ⟨.pumpEvent, e.msgLen⟩) = true := by
          split <;> rfl
        have hnew : (d.tx.write .pumpEvent).handlerTaken = [] := hhandlers
        simp only [LogTx.pumpTaken, LogTx.handlerTaken, Option.any_some, hholds, if_true] at hnew ⊢
        rw [haccounts, hnew]
        simp
      · cases hpump
        dsimp only at hliteral
        rw [hliteral]
        exact rfl
  | format =>
    have hsends : d.tx.sends (.pump off status) = [] := by simp only [LogTx.sends, hloc]
    rw [hsends, List.append_nil]
    refine h.goes rfl rfl rfl ?_ (fun loc hpump hliteral => ?_) hsingle
    · simp only [LogTx.pumpTaken, pumpExec, hloc, Option.any_some, PumpLoc.holds, LogTx.write]
    · exact absurd (h.pumpWhole .format hloc hliteral) id
  | lock t =>
    have hsends : d.tx.sends (.pump off status) = [] := by simp only [LogTx.sends, hloc]
    rw [hsends, List.append_nil]
    refine h.goes rfl rfl rfl ?_ (fun loc hpump => ?_) hsingle
    · simp only [LogTx.pumpTaken, pumpExec, hloc, Option.any_some, PumpLoc.holds]
    · cases hpump
      exact h.pumpWhole (.lock t) hloc
  | send t =>
    have hsends : d.tx.sends (.pump off status) = [⟨d.tx.pumpE, t, status⟩] := by
      simp only [LogTx.sends, hloc]
    have htaken : d.tx.pumpTaken = [d.tx.pumpE] := by
      simp only [LogTx.pumpTaken, hloc, Option.any_some, PumpLoc.holds, if_true]
    rw [hsends]
    refine ⟨h.inRange, ?_, fun sent hsent => ?_, fun loc hpump _ => ?_, h.handlerWhole,
      h.unlocks, hsingle⟩
    · have hnew : (pumpExec c off status d.tx (.send t)).pumpTaken = [] := rfl
      rw [hnew, List.append_nil, List.map_append]
      rw [htaken] at haccounts
      exact haccounts
    · rcases List.mem_append.mp hsent with hold | hnew
      · exact h.whole sent hold
      · rw [List.mem_singleton.mp hnew]
        exact h.pumpWhole (.send t) hloc
    · cases hpump
      trivial
  | check status' =>
    have hsends : d.tx.sends (.pump off status) = [] := by simp only [LogTx.sends, hloc]
    rw [hsends, List.append_nil]
    refine h.goes rfl rfl rfl ?_ (fun loc hpump _ => ?_) hsingle
    · rw [pumpTaken_of_idle (s := d.tx) (by rw [hloc]; rfl)]
      rfl
    · cases hpump
      trivial

/-- The completion handler of the high priority configuration. -/
theorem DeliveryInv.handler {loc : TxHandlerLoc} {rest : List TxHandlerLoc}
    (h : DeliveryInv c d) (hloc : d.tx.txHandlers = loc :: rest) (status : UartStatus)
    (hturn : loc = .pop → d.tx.queue.sRd ≠ d.tx.queue.sWr → c.prio = .low ∨ d.tx.busy = 0)
    (hsingle : c.prio ≠ .low → TxInv (txHandlerExec c status rest d.tx loc)) :
    DeliveryInv c ⟨txHandlerExec c status rest d.tx loc, d.accepted,
      d.sent ++ d.tx.sends (.handler status)⟩ := by
  have haccounts := h.accounts
  have hrest : ∀ loc' ∈ rest, loc' ∈ d.tx.txHandlers := fun loc' hmem =>
    hloc ▸ List.mem_cons_of_mem loc hmem
  have hhigh : loc ≠ .unlock → c.prio ≠ .low := fun hne hlow =>
    hne (h.unlocks hlow loc (hloc ▸ List.mem_cons_self))
  cases loc with
  | unlock =>
    have hsends : d.tx.sends (.handler status) = [] := by simp only [LogTx.sends, hloc]
    rw [hsends, List.append_nil]
    refine ⟨h.inRange, ?_, h.whole, h.pumpWhole, fun len hlen => ?_, fun hlow loc' hmem => ?_,
      hsingle⟩
    · have hnew : (txHandlerExec c status rest d.tx .unlock).handlerTaken = d.tx.handlerTaken := by
        simp only [LogTx.handlerTaken, txHandlerExec, hloc, List.any_cons, TxHandlerLoc.holds,
          Bool.false_or]
        split <;> simp [TxHandlerLoc.holds]
      simp only [hnew]
      exact haccounts
    · simp only [txHandlerExec] at hlen
      refine h.handlerWhole len (hrest _ ?_)
      split at hlen
      · exact (List.mem_cons.mp hlen).resolve_left (by simp)
      · exact hlen
    · simp only [txHandlerExec, hlow, reduceCtorEq, if_false] at hmem
      exact h.unlocks hlow loc' (hrest loc' hmem)
  | pop =>
    have hsends : d.tx.sends (.handler status) = [] := by simp only [LogTx.sends, hloc]
    rw [hsends, List.append_nil]
    simp only [txHandlerExec] at hsingle ⊢
    split at hsingle
    · next queue hpop =>
      obtain ⟨hrange, hevents⟩ := pop_events h.inRange hpop
      rw [hevents, Option.toList_none, List.nil_append] at haccounts
      refine ⟨hrange, ?_, h.whole, h.pumpWhole, fun len hlen => h.handlerWhole len (hrest _ hlen),
        fun hlow => absurd hlow (hhigh (by simp)), hsingle⟩
      simpa [LogTx.pumpTaken, LogTx.handlerTaken, hloc, TxHandlerLoc.holds] using haccounts
    · next e queue hpop =>
      obtain ⟨hrange, hevents⟩ := pop_events h.inRange hpop
      have hbusy := (hturn rfl (pop_some (by rw [hpop]))).resolve_left (hhigh (by simp))
      have hidle := h.handlers_idle (.inr hbusy)
      have hpump : d.tx.pumpTaken = [] := by
        rw [LogTx.busy] at hbusy
        exact pumpTaken_of_idle (by omega)
      rw [hevents, hpump, handlerTaken_of_idle hidle, List.append_nil, List.append_nil]
        at haccounts
      refine ⟨hrange, ?_, h.whole, h.pumpWhole, fun len hlen => ?_,
        fun hlow => absurd hlow (hhigh (by simp)), hsingle⟩
      · have hnew : (d.tx.write .handlerEvent).pumpTaken = [] := hpump
        simp only [LogTx.pumpTaken, LogTx.handlerTaken, List.any_cons, TxHandlerLoc.holds,
          Bool.true_or, if_true] at hnew ⊢
        rw [haccounts, hnew]
        simp
      · rcases List.mem_cons.mp hlen with heq | hmem
        · cases heq
          rfl
        · exact absurd rfl (List.countP_eq_zero.mp hidle _ (hrest _ hmem))
  | send len =>
    have hsends : d.tx.sends (.handler status) =
        [⟨d.tx.handlerE, ⟨.handlerEvent, len⟩, status⟩] := by simp only [LogTx.sends, hloc]
    have htaken : d.tx.handlerTaken = [d.tx.handlerE] := by
      simp only [LogTx.handlerTaken, hloc, List.any_cons, TxHandlerLoc.holds, Bool.true_or, if_true]
    have hbusy := (h.single (hhigh (by simp))).single
    simp only [LogTx.busy, hloc, List.countP_cons, TxHandlerLoc.holds, if_true] at hbusy
    have hpump : d.tx.pumpTaken = [] := pumpTaken_of_idle (by omega)
    rw [hsends]
    refine ⟨h.inRange, ?_, fun sent hsent => ?_, h.pumpWhole,
      fun len' hlen => h.handlerWhole len' (hrest _ hlen),
      fun hlow => absurd hlow (hhigh (by simp)), hsingle⟩
    · have hnew : (txHandlerExec c status rest d.tx (.send len)).handlerTaken = [] :=
        handlerTaken_of_idle (show rest.countP TxHandlerLoc.holds = 0 by omega)
      have hold : (txHandlerExec c status rest d.tx (.send len)).pumpTaken = [] := hpump
      rw [hnew, hold, List.append_nil, List.append_nil, List.map_append]
      rw [htaken, hpump, List.append_nil] at haccounts
      exact haccounts
    · rcases List.mem_append.mp hsent with hold | hnew
      · exact h.whole sent hold
      · rw [List.mem_singleton.mp hnew]
        exact fun _ => h.handlerWhole len (hloc ▸ List.mem_cons_self)

theorem deliveryStep_inv {d' : Delivery} {a : LogTxAction} (hstep : deliveryStep c d a = some d')
    (hturn : InTurn c d.tx a) (h : DeliveryInv c d) : DeliveryInv c d' := by
  obtain ⟨tx, htx, rfl⟩ := Option.map_eq_some_iff.mp hstep
  have hsingle : c.prio ≠ .low → TxInv tx := fun hne =>
    logTxStep_inv htx (hturn.resolve_left hne) (h.single hne)
  have haccounts := h.accounts
  cases a with
  | push e =>
    simp only [logTxStep] at htx
    split at htx
    · cases htx
    · cases htx
      simp only [LogTx.sends, List.append_nil]
      obtain ⟨-, hpush⟩ | ⟨-, q, hpush, hrange, hevents⟩ := h.inRange.push_cases e
      · simp only [LogTx.accepts, hpush, Bool.false_eq_true, if_false, List.append_nil] at hsingle ⊢
        exact ⟨h.inRange, haccounts, h.whole, h.pumpWhole, h.handlerWhole, h.unlocks, hsingle⟩
      · simp only [LogTx.accepts, hpush, if_true] at hsingle ⊢
        refine ⟨hrange, ?_, h.whole, h.pumpWhole, h.handlerWhole, h.unlocks, hsingle⟩
        dsimp only
        rw [hevents, haccounts, List.append_assoc]
        rfl
  | callPump =>
    simp only [logTxStep] at htx
    split at htx
    · cases htx
    · split at htx
      · next hpump =>
        cases htx
        simp only [LogTx.accepts, LogTx.sends, List.append_nil]
        refine h.goes rfl rfl rfl ?_ (fun loc hloc _ => ?_) hsingle
        · rw [pumpTaken_of_idle (s := d.tx) (by rw [hpump]; rfl)]
          rfl
        · cases hloc
          trivial
      · cases htx
  | pump off status =>
    obtain ⟨loc, hloc, rfl⟩ := Option.map_eq_some_iff.mp htx
    simp only [LogTx.accepts, List.append_nil]
    refine h.pump hloc off status (fun hpop hne => hturn.imp_right fun hone => hone ?_) hsingle
    subst hpop
    simp [takesEvent, hloc, hne]
  | complete i =>
    simp only [logTxStep] at htx
    split at htx
    · cases htx
      simp only [LogTx.accepts, LogTx.sends, List.append_nil]
      refine ⟨h.inRange, ?_, h.whole, h.pumpWhole, fun len hlen => ?_, fun hlow loc hmem => ?_,
        hsingle⟩
      · simpa [LogTx.pumpTaken, LogTx.handlerTaken, TxHandlerLoc.holds] using haccounts
      · exact h.handlerWhole len ((List.mem_cons.mp hlen).resolve_left (by simp))
      · exact (List.mem_cons.mp hmem).elim id (h.unlocks hlow loc)
    · cases htx
  | handler status =>
    simp only [logTxStep] at htx
    split at htx
    · next loc rest hloc =>
      cases htx
      simp only [LogTx.accepts, List.append_nil]
      refine h.handler hloc status (fun hpop hne => hturn.imp_right fun hone => hone ?_) hsingle
      subst hpop
      simp [takesEvent, hloc, hne]
    · cases htx
  | callBlocking =>
    simp only [logTxStep] at htx
    split at htx
    · split at htx
      · cases htx
        simp only [LogTx.accepts, LogTx.sends, List.append_nil]
        exact h.goes rfl rfl rfl rfl h.pumpWhole hsingle
      · cases htx
    · cases htx
  | blocking fits size status =>
    obtain ⟨loc, hloc, rfl⟩ := Option.map_eq_some_iff.mp htx
    simp only [LogTx.accepts, LogTx.sends, List.append_nil]
    cases loc <;> exact h.goes rfl rfl rfl rfl h.pumpWhole hsingle

end Step

/-- While the pump holds the second message, the handler takes the third and sends it first. -/
example : ∃ d, DeliveryRun (smallLog .high) (fun _ _ => True) idleQueue queuedEvent
    (sendOne ++ [.push { queuedEvent with tsUs := 1 }, .pump 0 .ok,
      .push { queuedEvent with tsUs := 2 }, .complete 0, .handler .ok, .handler .ok,
      .handler .ok, .pump 0 .ok, .pump 0 .ok]) d ∧
    d.sent.map (fun sent => sent.event.tsUs) = [0, 2, 1] := by
  apply exists_run_of_follow
    (fun d : Delivery => d.sent.map (fun sent => sent.event.tsUs) = [0, 2, 1])
  decide +kernel

end UniSdk.Log

import UniSdk.Core.Interrupts
import UniSdk.Core.PlicClear
import UniSdk.Library.Programs
import UniSdk.Library.Runs
import Mathlib.Logic.Function.Basic

/-!
# Waiting for selected interrupts

`tlk_plic_preprocess_irqs_for_wfi` and `tlk_plic_postprocess_irqs_for_wfi` around a wait, in which
the application enables the sources that are to end it. With the flag the wait runs with interrupts
disabled, and the second function claims and completes what has become pending. Sources become
pending at any time; a handler is taken as a whole, and leaves the registers as it finds them.
-/

namespace UniSdk.Core

open Library.Words Library.Programs Library.Runs

/-- The registers that the two functions write, and their statics. Of MSTATUS there is the MIE bit. -/
structure WfiRegs where
  irqEnL : BitVec 32
  irqEnH : BitVec 32
  mie : Mie
  mstatusMie : Bool
  irqSrc0Value : BitVec 32
  irqSrc1Value : BitVec 32
  mieValue : Mie
  mstatusValue : Bool
  wfiDisableInt : Bool
  deriving DecidableEq

namespace WfiRegs

def enabled (r : WfiRegs) (src : Nat) : Bool :=
  if src < 32 then r.irqEnL.getLsbD (src % 32) else r.irqEnH.getLsbD (src % 32)

/-- `tlk_plic_interrupt_enable` -/
def tlkPlicInterruptEnable (r : WfiRegs) (src : Nat) : WfiRegs :=
  if src < 32 then { r with irqEnL := r.irqEnL ||| BitVec.twoPow 32 (src % 32) }
  else { r with irqEnH := r.irqEnH ||| BitVec.twoPow 32 (src % 32) }

/-- `tlk_plic_interrupt_disable` -/
def tlkPlicInterruptDisable (r : WfiRegs) (src : Nat) : WfiRegs :=
  if src < 32 then { r with irqEnL := r.irqEnL &&& ~~~BitVec.twoPow 32 (src % 32) }
  else { r with irqEnH := r.irqEnH &&& ~~~BitVec.twoPow 32 (src % 32) }

end WfiRegs

/-- A statement of the application between the two calls. -/
inductive WaitStmt
  | enable (src : Nat)
  | disable (src : Nat)
  | wfi
  deriving DecidableEq, Repr

/-- A statement of the two functions, or of the application. `clearRequests` is the call of
`tlk_plic_clr_all_request` under its condition, `claim` a round of the loop in it. -/
inductive WfiStmt
  | noteFlag (flag : Bool)
  | interruptDisable
  | saveL
  | saveH
  | zeroL
  | zeroH
  | mieDisable
  | mieEnable (mie : Mie)
  | wait (stmt : WaitStmt)
  | clearRequests
  | claim (claimCnt : Nat)
  | restoreL
  | restoreH
  | mieRestore
  | interruptRestore
  deriving DecidableEq

def tlkPlicPreprocessIrqsForWfi (flag : Bool) (mie : Mie) : List WfiStmt :=
  (if flag then [.noteFlag true, .interruptDisable] else [.noteFlag false]) ++
  [.saveL, .saveH, .zeroL, .zeroH, .mieDisable, .mieEnable mie]

def tlkPlicPostprocessIrqsForWfi : List WfiStmt :=
  [.clearRequests, .restoreL, .restoreH, .mieRestore, .interruptRestore]

/-- What a statement does to the registers and the statics. -/
def WfiStmt.exec (r : WfiRegs) : WfiStmt → WfiRegs
  | .noteFlag flag => { r with wfiDisableInt := flag }
  | .interruptDisable => { r with mstatusValue := r.mstatusMie, mstatusMie := false }
  | .saveL => { r with irqSrc0Value := r.irqEnL }
  | .saveH => { r with irqSrc1Value := r.irqEnH }
  | .zeroL => { r with irqEnL := 0#32 }
  | .zeroH => { r with irqEnH := 0#32 }
  | .mieDisable =>
    { r with
      mieValue := (tlkCoreMieDisable ⟨true, true, true⟩ r.mie).1
      mie := (tlkCoreMieDisable ⟨true, true, true⟩ r.mie).2 }
  | .mieEnable mie => { r with mie := tlkCoreMieEnable mie r.mie }
  | .wait (.enable src) => r.tlkPlicInterruptEnable src
  | .wait (.disable src) => r.tlkPlicInterruptDisable src
  | .restoreL => { r with irqEnL := r.irqSrc0Value }
  | .restoreH => { r with irqEnH := r.irqSrc1Value }
  | .mieRestore => { r with mie := r.mieValue }
  | .interruptRestore =>
    { r with mstatusMie := r.mstatusMie || (r.wfiDisableInt && r.mstatusValue) }
  | .wait .wfi | .clearRequests | .claim _ => r

/-- The hart and the pending bits of the controller. The last three fields are history: the sources
that have become pending, those whose handlers have run, and those that were claimed and completed
without one. -/
structure WfiHart where
  regs : WfiRegs
  todo : List WfiStmt
  pending : Nat → Bool
  raised : List Nat
  served : List Nat
  dropped : List Nat

/-- `exec` is the next statement, and `claimed` what the claim register delivers where it is read. -/
inductive WfiAction
  | exec (claimed : Nat)
  | raise (src : Nat)
  | interrupt (src : Nat)
  deriving DecidableEq, Repr

namespace WfiHart

def start (r : WfiRegs) (pending : Nat → Bool) (todo : List WfiStmt) : WfiHart :=
  ⟨r, todo, pending, [], [], []⟩

/-- The controller offers the source. -/
def offers (s : WfiHart) (src : Nat) : Bool := s.pending src && s.regs.enabled src

/-- A claim ends the request. -/
def claim (s : WfiHart) (src : Nat) : WfiHart :=
  { s with pending := Function.update s.pending src false }

end WfiHart

/-- A claim delivers a source that the controller offers, or none. -/
def wfiStep (irqCount : Nat) (s : WfiHart) : WfiAction → Option WfiHart
  | .exec claimed =>
    match s.todo with
    | [] => none
    | .clearRequests :: rest =>
      some { s with todo := if s.regs.wfiDisableInt then .claim 0 :: rest else rest }
    | .claim claimCnt :: rest =>
      let claimCnt := u32 (claimCnt + 1)
      let todo := if claimed ≠ 0 ∧ claimCnt ≤ claimLimit irqCount then .claim claimCnt :: rest
        else rest
      if claimed = 0 then some { s with todo := todo }
      else if s.offers claimed then
        some { s.claim claimed with todo := todo, dropped := s.dropped ++ [claimed] }
      else none
    | stmt :: rest => some { s with regs := stmt.exec s.regs, todo := rest }
  | .raise src =>
    some { s with pending := Function.update s.pending src true, raised := s.raised ++ [src] }
  | .interrupt src =>
    if s.todo ≠ [] ∧ s.regs.mstatusMie ∧ s.regs.mie.meie ∧ s.offers src then
      some { s.claim src with served := s.served ++ [src] }
    else none

/-! ## Sources and their bits -/

/-- Both sources have the same enable bit; below 64 that is the same source. -/
def SameBit (a b : Nat) : Prop := (a < 32 ↔ b < 32) ∧ a % 32 = b % 32

/-- The application enables the source between the two calls. -/
def Selected (body : List WaitStmt) (src : Nat) : Prop :=
  ∃ chosen, .enable chosen ∈ body ∧ SameBit chosen src

theorem enabled_of_enable {r : WfiRegs} {src b : Nat}
    (h : (r.tlkPlicInterruptEnable src).enabled b = true) :
    r.enabled b = true ∨ SameBit src b := by
  have hbit : ∀ x : BitVec 32, (x ||| BitVec.twoPow 32 (src % 32)).getLsbD (b % 32) = true →
      x.getLsbD (b % 32) = true ∨ src % 32 = b % 32 := by
    intro x hx
    rw [BitVec.getLsbD_or, Bool.or_eq_true, BitVec.getLsbD_twoPow, Bool.and_eq_true,
      decide_eq_true_eq, decide_eq_true_eq] at hx
    exact hx.imp_right And.right
  unfold WfiRegs.tlkPlicInterruptEnable at h
  unfold WfiRegs.enabled at h ⊢
  by_cases hsrc : src < 32 <;> by_cases hb : b < 32 <;> simp only [hsrc, hb, if_true, if_false] at h ⊢
  · exact (hbit _ h).imp_right fun he => ⟨iff_of_true hsrc hb, he⟩
  · exact .inl h
  · exact .inl h
  · exact (hbit _ h).imp_right fun he => ⟨iff_of_false hsrc hb, he⟩

theorem enabled_of_disable {r : WfiRegs} {src b : Nat}
    (h : (r.tlkPlicInterruptDisable src).enabled b = true) : r.enabled b = true := by
  have hbit : ∀ x : BitVec 32, (x &&& ~~~BitVec.twoPow 32 (src % 32)).getLsbD (b % 32) = true →
      x.getLsbD (b % 32) = true := by
    intro x hx
    rw [BitVec.getLsbD_and, Bool.and_eq_true] at hx
    exact hx.1
  unfold WfiRegs.tlkPlicInterruptDisable at h
  unfold WfiRegs.enabled at h ⊢
  by_cases hsrc : src < 32 <;> by_cases hb : b < 32 <;> simp only [hsrc, hb, if_true, if_false] at h ⊢
  · exact hbit _ h
  · exact h
  · exact h
  · exact hbit _ h

/-- Each of the two words is that of one of two states. -/
theorem enabled_of_words {a b r : WfiRegs} {src : Nat}
    (hL : r.irqEnL = a.irqEnL ∨ r.irqEnL = b.irqEnL)
    (hH : r.irqEnH = a.irqEnH ∨ r.irqEnH = b.irqEnH) (h : r.enabled src = true) :
    a.enabled src = true ∨ b.enabled src = true := by
  unfold WfiRegs.enabled at h ⊢
  by_cases hsrc : src < 32 <;> simp only [hsrc, if_true, if_false] at h ⊢
  · exact hL.imp (fun (he : r.irqEnL = a.irqEnL) => he ▸ h) fun (he : r.irqEnL = b.irqEnL) => he ▸ h
  · exact hH.imp (fun (he : r.irqEnH = a.irqEnH) => he ▸ h) fun (he : r.irqEnH = b.irqEnH) => he ▸ h

theorem not_enabled_of_zero {r : WfiRegs} (hL : r.irqEnL = 0#32) (hH : r.irqEnH = 0#32)
    (src : Nat) : ¬ r.enabled src = true := by
  simp [WfiRegs.enabled, hL, hH]

/-! ## The statements one by one -/

/-- Only selected sources are enabled, and interrupts are off. -/
structure Clears (flag : Bool) (body : List WaitStmt) (r : WfiRegs) : Prop where
  flagged : flag = true
  selected : ∀ src, r.enabled src = true → Selected body src

/-- A handler of the source may run: interrupts were enabled, and the source was, or it is selected
and the wait is one that takes interrupts. -/
def MayServe (flag : Bool) (body : List WaitStmt) (m : WfiRegs) (src : Nat) : Prop :=
  m.mstatusMie = true ∧ (m.enabled src = true ∨ (flag = false ∧ Selected body src))

/-- What holds before a statement, when the registers were those of `m` before the first one: which
interrupts may be taken, and what a claim may deliver. -/
def Guarded (flag : Bool) (body : List WaitStmt) (m : WfiRegs) (stmt : WfiStmt) (r : WfiRegs) :
    Prop :=
  (r.mstatusMie = true → ∀ src, r.enabled src = true → MayServe flag body m src) ∧
  match stmt with
  | .clearRequests => r.wfiDisableInt = true → Clears flag body r
  | .claim _ => Clears flag body r
  | _ => True

/-- During the wait. -/
structure Waiting (flag : Bool) (body : List WaitStmt) (m r : WfiRegs) : Prop where
  src0 : r.irqSrc0Value = m.irqEnL
  src1 : r.irqSrc1Value = m.irqEnH
  mieValue : r.mieValue = m.mie
  noted : r.wfiDisableInt = flag
  mstatusMie : r.mstatusMie = (m.mstatusMie && !flag)
  mstatusValue : flag = true → r.mstatusValue = m.mstatusMie
  selected : ∀ src, r.enabled src = true → Selected body src

section Statements

variable {flag : Bool} {mie : Mie} {body : List WaitStmt} {m r : WfiRegs}

/-- With the flag no interrupt is taken, and the enables are arbitrary. -/
theorem guarded_masked {stmt : WfiStmt} (hmasked : r.mstatusMie = false)
    (hclear : match stmt with
      | .clearRequests => r.wfiDisableInt = true → Clears flag body r
      | .claim _ => Clears flag body r
      | _ => True) : Guarded flag body m stmt r :=
  ⟨fun hopen => absurd hopen (Bool.eq_false_iff.mp hmasked), hclear⟩

theorem preprocess_guarded :
    Throughout WfiStmt.exec (Guarded flag body m) (tlkPlicPreprocessIrqsForWfi flag mie) m := by
  have hold : m.mstatusMie = true → ∀ src, m.enabled src = true → MayServe flag body m src :=
    fun hopen _ h => ⟨hopen, .inl h⟩
  cases flag with
  | true =>
    exact ⟨⟨hold, trivial⟩, ⟨hold, trivial⟩, guarded_masked rfl trivial,
      guarded_masked rfl trivial, guarded_masked rfl trivial, guarded_masked rfl trivial,
      guarded_masked rfl trivial, guarded_masked rfl trivial, trivial⟩
  | false =>
    -- the low word is zero already, the high one is not yet
    have hhalf : ∀ src, ({ m with irqEnL := 0#32 } : WfiRegs).enabled src = true →
        m.enabled src = true := by
      intro src h
      have hwords := enabled_of_words (r := { m with irqEnL := 0#32 }) (a := m)
        (b := { m with irqEnL := 0#32, irqEnH := 0#32 }) (.inr rfl) (.inl rfl) h
      exact hwords.resolve_right (not_enabled_of_zero rfl rfl src)
    have hnone : ∀ src, ¬ ({ m with irqEnL := 0#32, irqEnH := 0#32 } : WfiRegs).enabled src = true :=
      not_enabled_of_zero rfl rfl
    exact ⟨⟨hold, trivial⟩, ⟨hold, trivial⟩, ⟨hold, trivial⟩, ⟨hold, trivial⟩,
      ⟨fun hopen src h => ⟨hopen, .inl (hhalf src h)⟩, trivial⟩,
      ⟨fun _ src h => absurd h (hnone src), trivial⟩,
      ⟨fun _ src h => absurd h (hnone src), trivial⟩, trivial⟩

theorem preprocess_waiting :
    Waiting flag body m ((tlkPlicPreprocessIrqsForWfi flag mie).foldl WfiStmt.exec m) := by
  have hnone : ∀ {r : WfiRegs}, r.irqEnL = 0#32 → r.irqEnH = 0#32 →
      ∀ src, r.enabled src = true → Selected body src :=
    fun hL hH src h => absurd h (not_enabled_of_zero hL hH src)
  cases flag with
  | true => exact ⟨rfl, rfl, rfl, rfl, (Bool.and_false _).symm, fun _ => rfl, hnone rfl rfl⟩
  | false =>
    exact ⟨rfl, rfl, rfl, rfl, (Bool.and_true _).symm, fun hflag => absurd hflag Bool.false_ne_true,
      hnone rfl rfl⟩

theorem Waiting.enable (h : Waiting flag body m r) {src : Nat} (hsrc : .enable src ∈ body) :
    Waiting flag body m (r.tlkPlicInterruptEnable src) := by
  have hselected : ∀ b, (r.tlkPlicInterruptEnable src).enabled b = true → Selected body b := by
    intro b hb
    rcases enabled_of_enable hb with hold | hsame
    · exact h.selected b hold
    · exact ⟨src, hsrc, hsame⟩
  unfold WfiRegs.tlkPlicInterruptEnable at hselected ⊢
  split <;> split at hselected <;>
    first
    | contradiction
    | exact ⟨h.src0, h.src1, h.mieValue, h.noted, h.mstatusMie, h.mstatusValue, hselected⟩

theorem Waiting.disable (h : Waiting flag body m r) (src : Nat) :
    Waiting flag body m (r.tlkPlicInterruptDisable src) := by
  have hselected : ∀ b, (r.tlkPlicInterruptDisable src).enabled b = true → Selected body b :=
    fun b hb => h.selected b (enabled_of_disable hb)
  unfold WfiRegs.tlkPlicInterruptDisable at hselected ⊢
  split <;> split at hselected <;>
    first
    | contradiction
    | exact ⟨h.src0, h.src1, h.mieValue, h.noted, h.mstatusMie, h.mstatusValue, hselected⟩

theorem Waiting.opened (h : Waiting flag body m r) (hopen : r.mstatusMie = true) :
    m.mstatusMie = true ∧ flag = false := by
  rwa [h.mstatusMie, Bool.and_eq_true, Bool.not_eq_true'] at hopen

theorem Waiting.step (h : Waiting flag body m r) {stmt : WaitStmt} (hstmt : stmt ∈ body) :
    Waiting flag body m (WfiStmt.exec r (.wait stmt)) := by
  cases stmt with
  | enable src => exact h.enable hstmt
  | disable src => exact h.disable src
  | wfi => exact h

theorem wait_guarded {stmts : List WaitStmt} (hstmts : ∀ stmt ∈ stmts, stmt ∈ body)
    (h : Waiting flag body m r) :
    Throughout WfiStmt.exec (Guarded flag body m) (stmts.map .wait) r ∧
      Waiting flag body m ((stmts.map .wait).foldl WfiStmt.exec r) := by
  induction stmts generalizing r with
  | nil => exact ⟨trivial, h⟩
  | cons stmt stmts ih =>
    obtain ⟨hrest, hend⟩ := ih (fun x hx => hstmts x (List.mem_cons_of_mem _ hx))
      (h.step (hstmts stmt List.mem_cons_self))
    refine ⟨⟨⟨fun hopen src hsrc => ?_, trivial⟩, hrest⟩, hend⟩
    exact ⟨(h.opened hopen).1, .inr ⟨(h.opened hopen).2, h.selected src hsrc⟩⟩

theorem postprocess_guarded (h : Waiting flag body m r) :
    Throughout WfiStmt.exec (Guarded flag body m) tlkPlicPostprocessIrqsForWfi r := by
  -- while the words are restored each of them is the old one or that of the wait
  have hmixed : ∀ {q : WfiRegs}, q.mstatusMie = r.mstatusMie →
      (q.irqEnL = m.irqEnL ∨ q.irqEnL = r.irqEnL) → (q.irqEnH = m.irqEnH ∨ q.irqEnH = r.irqEnH) →
      q.mstatusMie = true → ∀ src, q.enabled src = true → MayServe flag body m src := by
    intro q hmie hL hH hopen src hsrc
    obtain ⟨hmasked, htakes⟩ := h.opened (hmie ▸ hopen)
    exact ⟨hmasked, (enabled_of_words hL hH hsrc).imp_right fun hwait =>
      ⟨htakes, h.selected src hwait⟩⟩
  exact ⟨⟨hmixed rfl (.inr rfl) (.inr rfl), fun hnoted => ⟨h.noted ▸ hnoted, h.selected⟩⟩,
    ⟨hmixed rfl (.inr rfl) (.inr rfl), trivial⟩, ⟨hmixed rfl (.inl h.src0) (.inr rfl), trivial⟩,
    ⟨hmixed rfl (.inl h.src0) (.inl h.src1), trivial⟩,
    ⟨hmixed rfl (.inl h.src0) (.inl h.src1), trivial⟩, trivial⟩

/-- The registers are those of `m` again. -/
structure Restored (m r : WfiRegs) : Prop where
  irqEnL : r.irqEnL = m.irqEnL
  irqEnH : r.irqEnH = m.irqEnH
  mie : r.mie = m.mie
  mstatusMie : r.mstatusMie = m.mstatusMie

theorem postprocess_restores (h : Waiting flag body m r) :
    Restored m (tlkPlicPostprocessIrqsForWfi.foldl WfiStmt.exec r) where
  irqEnL := h.src0
  irqEnH := h.src1
  mie := h.mieValue
  mstatusMie := by
    show (r.mstatusMie || (r.wfiDisableInt && r.mstatusValue)) = _
    have hvalue := h.mstatusValue
    rw [h.mstatusMie, h.noted]
    cases flag with
    | true => rw [hvalue rfl]; simp
    | false => simp

/-- The two calls with the wait between them. -/
def waitFor (flag : Bool) (mie : Mie) (body : List WaitStmt) : List WfiStmt :=
  tlkPlicPreprocessIrqsForWfi flag mie ++ (body.map .wait ++ tlkPlicPostprocessIrqsForWfi)

theorem waitFor_guarded (flag : Bool) (mie : Mie) (body : List WaitStmt) (m : WfiRegs) :
    Throughout WfiStmt.exec (Guarded flag body m) (waitFor flag mie body) m := by
  have hwaiting : Waiting flag body m
      ((tlkPlicPreprocessIrqsForWfi flag mie).foldl WfiStmt.exec m) := preprocess_waiting
  obtain ⟨hwait, hend⟩ := wait_guarded (fun _ h => h) hwaiting
  exact (throughout_append _ _ _).mpr
    ⟨preprocess_guarded, (throughout_append _ _ _).mpr ⟨hwait, postprocess_guarded hend⟩⟩

theorem waitFor_restores (flag : Bool) (mie : Mie) (body : List WaitStmt) (m : WfiRegs) :
    Restored m ((waitFor flag mie body).foldl WfiStmt.exec m) := by
  have hwaiting : Waiting flag body m
      ((tlkPlicPreprocessIrqsForWfi flag mie).foldl WfiStmt.exec m) := preprocess_waiting
  obtain ⟨-, hend⟩ := wait_guarded (fun _ h => h) hwaiting
  rw [waitFor, List.foldl_append, List.foldl_append]
  exact postprocess_restores hend

/-! ## Runs -/

/-- After some steps from the registers `m` with the sources `pending`. -/
structure WfiInv (flag : Bool) (mie : Mie) (body : List WaitStmt) (m : WfiRegs)
    (pending : Nat → Bool) (s : WfiHart) : Prop where
  /-- The statements that are left end where all of them would have. -/
  regs : s.todo.foldl WfiStmt.exec s.regs = (waitFor flag mie body).foldl WfiStmt.exec m
  guarded : Throughout WfiStmt.exec (Guarded flag body m) s.todo s.regs
  served : ∀ src ∈ s.served, MayServe flag body m src
  dropped : ∀ src ∈ s.dropped, flag = true ∧ Selected body src
  kept : ∀ src, pending src = true ∨ src ∈ s.raised →
    s.pending src = true ∨ src ∈ s.served ∨ src ∈ s.dropped

/-- What executing the next statement does: it is done with, or a round of the loop is left. -/
theorem wfiStep_exec {irqCount claimed : Nat} {s s' : WfiHart}
    (h : wfiStep irqCount s (.exec claimed) = some s') :
    ∃ stmt rest, s.todo = stmt :: rest ∧
      (s' = { s with regs := stmt.exec s.regs, todo := rest } ∨
        (stmt = .clearRequests ∧ s.regs.wfiDisableInt = true ∧
          s' = { s with todo := .claim 0 :: rest }) ∨
        ∃ claimCnt todo, stmt = .claim claimCnt ∧ s.offers claimed = true ∧
          ((∃ n, todo = .claim n :: rest) ∨ todo = rest) ∧
          s' = { s.claim claimed with todo := todo, dropped := s.dropped ++ [claimed] }) := by
  rw [wfiStep] at h
  cases htodo : s.todo with
  | nil => rw [htodo] at h; cases h
  | cons stmt rest =>
    rw [htodo] at h
    refine ⟨stmt, rest, rfl, ?_⟩
    cases stmt with
    | clearRequests =>
      obtain rfl := Option.some.inj h
      by_cases hnoted : s.regs.wfiDisableInt = true
      · exact .inr (.inl ⟨rfl, hnoted, by rw [if_pos hnoted]⟩)
      · exact .inl (by rw [if_neg hnoted]; rfl)
    | claim claimCnt =>
      dsimp only at h
      split at h
      · next hzero =>
        obtain rfl := Option.some.inj h
        exact .inl (by rw [if_neg fun hon => hon.1 hzero]; rfl)
      · split at h
        · next hoffers =>
          refine .inr (.inr ⟨claimCnt, _, rfl, hoffers, ?_, (Option.some.inj h).symm⟩)
          split
          · exact .inl ⟨_, rfl⟩
          · exact .inr rfl
        · cases h
    | _ => exact .inl (Option.some.inj h).symm

theorem offers_enabled {s : WfiHart} {src : Nat} (h : s.offers src = true) :
    s.regs.enabled src = true := (Bool.and_eq_true _ _ ▸ h).2

/-- A source that is claimed leaves the pending ones; the others stay. -/
theorem claim_kept {s : WfiHart} {src : Nat} (claimed : Nat) (h : s.pending src = true) :
    (s.claim claimed).pending src = true ∨ src = claimed := by
  by_cases heq : src = claimed
  · exact .inr heq
  · exact .inl ((Function.update_of_ne heq _ _).trans h)

theorem wfiStep_inv {irqCount : Nat} {pending : Nat → Bool} {s s' : WfiHart} {act : WfiAction}
    (h : wfiStep irqCount s act = some s') (hs : WfiInv flag mie body m pending s) :
    WfiInv flag mie body m pending s' := by
  cases act with
  | exec claimed =>
    obtain ⟨stmt, rest, htodo, hdo⟩ := wfiStep_exec h
    have hregs := hs.regs
    have hguarded := hs.guarded
    rw [htodo] at hregs hguarded
    obtain ⟨hstmt, hrest⟩ := hguarded
    rcases hdo with rfl | ⟨rfl, hnoted, rfl⟩ | ⟨claimCnt, todo, rfl, hoffers, htodo', rfl⟩
    · exact ⟨hregs, hrest, hs.served, hs.dropped, hs.kept⟩
    · exact ⟨hregs, ⟨⟨hstmt.1, hstmt.2 hnoted⟩, hrest⟩, hs.served, hs.dropped, hs.kept⟩
    · have hclears : Clears flag body s.regs := hstmt.2
      have hdropped : ∀ src ∈ s.dropped ++ [claimed], flag = true ∧ Selected body src := by
        intro src hsrc
        rcases List.mem_append.mp hsrc with hold | hnew
        · exact hs.dropped src hold
        · obtain rfl := List.mem_singleton.mp hnew
          exact ⟨hclears.flagged, hclears.selected src (offers_enabled hoffers)⟩
      have hkept : ∀ src, pending src = true ∨ src ∈ s.raised →
          (s.claim claimed).pending src = true ∨ src ∈ s.served ∨ src ∈ s.dropped ++ [claimed] := by
        intro src hsrc
        rcases hs.kept src hsrc with hpending | hserved | hdone
        · rcases claim_kept claimed hpending with hleft | heq
          · exact .inl hleft
          · exact .inr (.inr (List.mem_append_right _ (List.mem_singleton.mpr heq)))
        · exact .inr (.inl hserved)
        · exact .inr (.inr (List.mem_append_left _ hdone))
      rcases htodo' with ⟨n, rfl⟩ | rfl
      · exact ⟨hregs, ⟨⟨hstmt.1, hclears⟩, hrest⟩, hs.served, hdropped, hkept⟩
      · exact ⟨hregs, hrest, hs.served, hdropped, hkept⟩
  | raise src =>
    obtain rfl := Option.some.inj h
    refine ⟨hs.regs, hs.guarded, hs.served, hs.dropped, fun other hother => ?_⟩
    by_cases heq : other = src
    · exact .inl (heq ▸ Function.update_self _ _ _)
    · have hold : pending other = true ∨ other ∈ s.raised := by
        refine hother.imp_right fun hin => ?_
        exact (List.mem_append.mp hin).resolve_right fun hnew => heq (List.mem_singleton.mp hnew)
      exact (hs.kept other hold).imp_left fun hp => (Function.update_of_ne heq _ _).trans hp
  | interrupt src =>
    rw [wfiStep] at h
    split at h
    · next htaken =>
      obtain ⟨hleft, hopen, -, hoffers⟩ := htaken
      obtain rfl := Option.some.inj h
      have hmay : MayServe flag body m src := by
        obtain ⟨stmt, rest, htodo⟩ := List.exists_cons_of_ne_nil hleft
        have hguarded := hs.guarded
        rw [htodo] at hguarded
        exact hguarded.1.1 hopen src (offers_enabled hoffers)
      refine ⟨hs.regs, hs.guarded, fun other hother => ?_, hs.dropped, fun other hother => ?_⟩
      · rcases List.mem_append.mp hother with hold | hnew
        · exact hs.served other hold
        · exact List.mem_singleton.mp hnew ▸ hmay
      · rcases hs.kept other hother with hpending | hserved | hdone
        · rcases claim_kept src hpending with hstill | heq
          · exact .inl hstill
          · exact .inr (.inl (List.mem_append_right _ (List.mem_singleton.mpr heq)))
        · exact .inr (.inl (List.mem_append_left _ hserved))
        · exact .inr (.inr hdone)
    · cases h

/-- **A wait ends with the registers as they were, and loses no request but those it selected.**
However sources become pending and interrupts are taken meanwhile: a handler runs only for a source
that was enabled, or for a selected one where the flag is off; only with the flag is a request
claimed without a handler, and then for a selected source; every other request is still pending. -/
theorem wfi_bracket (irqCount : Nat) (flag : Bool) (mie : Mie) (body : List WaitStmt)
    (m : WfiRegs) (pending : Nat → Bool) {acts : List WfiAction} {s : WfiHart}
    (run : Run (wfiStep irqCount) (fun _ _ _ => True)
      (.start m pending (waitFor flag mie body)) acts s) :
    (s.todo = [] → Restored m s.regs) ∧
      (∀ src ∈ s.served, MayServe flag body m src) ∧
      (∀ src ∈ s.dropped, flag = true ∧ Selected body src) ∧
      ∀ src, pending src = true ∨ src ∈ s.raised →
        s.pending src = true ∨ src ∈ s.served ∨ src ∈ s.dropped := by
  have hstart : WfiInv flag mie body m pending (.start m pending (waitFor flag mie body)) :=
    ⟨rfl, waitFor_guarded flag mie body m, List.forall_mem_nil _, List.forall_mem_nil _,
      fun src hsrc => .inl (hsrc.resolve_right List.not_mem_nil)⟩
  have hend := run.invariant hstart fun s act s' h _ hs => wfiStep_inv h hs
  refine ⟨fun hdone => ?_, hend.served, hend.dropped, hend.kept⟩
  have hregs := hend.regs
  rw [hdone, List.foldl_nil] at hregs
  rw [hregs]
  exact waitFor_restores flag mie body m

end Statements

/-- A wait for the source 3 with interrupts disabled: it is raised and dropped, while 5 stays
pending. -/
theorem wfi_bracket_masked :
    let m : WfiRegs := ⟨0x20#32, 0#32, ⟨true, true, true⟩, true, 0#32, 0#32, ⟨false, false, false⟩,
      false, false⟩
    ∃ acts s, Run (wfiStep 64) (fun _ _ _ => True)
        (.start m (fun _ => false) (waitFor true ⟨false, false, true⟩ [.enable 3, .wfi])) acts s ∧
      (s.todo = [] ∧ s.raised = [3, 5] ∧ s.dropped = [3] ∧ s.served = []) ∧
      Restored m s.regs ∧ s.pending 5 = true := by
  intro m
  have hrun : ∃ s, Run (wfiStep 64) (fun _ _ _ => True)
      (.start m (fun _ => false) (waitFor true ⟨false, false, true⟩ [.enable 3, .wfi]))
      (List.replicate 9 (.exec 0) ++ [.raise 3, .raise 5, .exec 0, .exec 0, .exec 3] ++
        List.replicate 5 (.exec 0)) s ∧
      (s.todo = [] ∧ s.raised = [3, 5] ∧ s.dropped = [3] ∧ s.served = []) :=
    exists_run_of_follow _ (by decide +kernel)
  obtain ⟨s, run, hs⟩ := hrun
  obtain ⟨hrestored, -, -, hkept⟩ := wfi_bracket 64 true ⟨false, false, true⟩ [.enable 3, .wfi] m
    (fun _ => false) run
  refine ⟨_, s, run, hs, hrestored hs.1, ?_⟩
  obtain ⟨-, hraised, hdropped, hserved⟩ := hs
  rw [hraised, hdropped, hserved] at hkept
  exact (hkept 5 (.inr (by decide))).resolve_right (by decide)

end UniSdk.Core

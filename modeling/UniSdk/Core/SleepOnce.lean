import UniSdk.Core.SleepInterrupts

/-!
# One timer interrupt for a sleep

An enable of MTIE is good for one timer interrupt: the enable is one token, which is in MIE itself or
in the context of a handler that has saved and masked it, and the callback takes it out. That holds
in the builds in which no handler saves MIE, lets the timer interrupt through and then restores what
it has saved. In every other build a run takes two interrupts for one enable.
-/

namespace UniSdk.Core

open Library.Words Library.Runs

/-! ## Enables of the timer interrupt -/

/-- MTIE in a saved context. -/
def savedMtie : Option Csrs → Nat
  | some csrs => csrs.mie.mtie.toNat
  | none => 0

/-- The handler has saved MTIE and masked it, and will restore it. -/
def IsrFrame.token (f : IsrFrame) : Nat :=
  match f.loc with
  | .saveContext | .maskMie | .mret => 0
  | _ => savedMtie f.saved

/-- The enables of the timer interrupt that are left. -/
def SleepHart.tokens (s : SleepHart) : Nat :=
  s.csrs.mie.mtie.toNat + (s.frames.map IsrFrame.token).sum

/-- The interrupts taken since the last enable by a call. -/
def SleepHart.spent (s : SleepHart) : Nat := s.windows.headD 0

/-- The timer's handler has been entered and has not disabled MTIE yet. -/
def SleepHart.Serving (s : SleepHart) : Prop :=
  (∃ saved rest, s.frames = ⟨.timer, saved, .mieDisable⟩ :: rest) ∧
    s.csrs.mstatus.mie = false ∧ s.csrs.mie.mtie = true

/-- The statements of a nested entry that come before the mask. -/
def IsrLoc.entry : IsrLoc → Bool
  | .saveContext | .maskMie => true
  | _ => false

/-- Interrupts are off up to the mask, and the saved MIE is the current one. -/
def IsrFrame.Entering (csrs : Csrs) (f : IsrFrame) : Prop :=
  (f.loc.entry = true → csrs.mstatus.mie = false) ∧
    (f.loc = .maskMie → f.saved.map (·.mie) = some csrs.mie)

/-- No handler saves MIE before a timer interrupt and restores it after. -/
def SleepConfig.OneShot (c : SleepConfig) : Prop :=
  c.useNest .timer = false ∧
    ∀ source, c.useNest source = true → (isrMieMask c source).mtie = false

section Tokens

variable {c : SleepConfig} {s s' : SleepHart} {f : IsrFrame} {rest : List IsrFrame}

theorem entering_of_not_entry {csrs : Csrs} (h : f.loc.entry = false) : f.Entering csrs := by
  refine ⟨fun he => ?_, fun hm => ?_⟩
  · rw [h] at he
    cases he
  · rw [hm] at h
    cases h

theorem isrBody_entry (source : Interrupt) : (isrBody source).entry = false := by
  cases source <;> rfl

theorem isrExit_entry (c : SleepConfig) (source : Interrupt) :
    (isrExit c source).entry = false := by
  unfold isrExit
  split <;> rfl

theorem token_body (source : Interrupt) (saved : Option Csrs) :
    IsrFrame.token ⟨source, saved, isrBody source⟩ = savedMtie saved := by
  cases source <;> rfl

theorem token_exit {source : Interrupt} {saved : Option Csrs}
    (hsaved : saved.isSome = c.useNest source) :
    IsrFrame.token ⟨source, saved, isrExit c source⟩ = savedMtie saved := by
  unfold isrExit
  rw [← hsaved]
  cases saved <;> rfl

/-- A handler starts without a token of its own. -/
theorem token_entry (source : Interrupt) :
    IsrFrame.token ⟨source, none, isrEntry c source⟩ = 0 := by
  unfold isrEntry
  split
  · rfl
  · exact token_body source none

theorem tokens_trap (source : Interrupt) (pc : Nat) : (s.trap c source pc).tokens = s.tokens := by
  show s.csrs.mie.mtie.toNat + (IsrFrame.token ⟨source, none, isrEntry c source⟩ +
    (s.frames.map IsrFrame.token).sum) = s.tokens
  rw [token_entry, Nat.zero_add]
  rfl

/-- A trap turns interrupts off, and its handler has saved nothing yet. -/
theorem entering_entry (source : Interrupt) (pc : Nat) :
    IsrFrame.Entering (s.csrs.trapEntry c.hw .machine pc) ⟨source, none, isrEntry c source⟩ := by
  refine ⟨fun _ => rfl, fun hmask => ?_⟩
  dsimp only at hmask
  unfold isrEntry at hmask
  split at hmask
  · cases hmask
  · cases source <;> cases hmask

/-- A statement of a handler makes no token, and the callback's first one takes one out. -/
theorem isrStep_tokens (hc : c.OneShot) (hf : f.Sound c) (hentering : f.Entering s.csrs)
    (hframes : s.frames = f :: rest) (h : isrStep c s f rest f.loc = some s') :
    s'.tokens ≤ s.tokens ∧
      (f.loc = .mieDisable → s.csrs.mie.mtie = true → s'.tokens + 1 ≤ s.tokens) := by
  unfold SleepHart.tokens
  rw [hframes]
  obtain ⟨source, saved, loc⟩ := f
  cases loc with
  | saveContext =>
    cases h
    exact ⟨Nat.le_refl _, nofun⟩
  | maskMie =>
    obtain ⟨r, rfl⟩ := Option.isSome_iff_exists.mp hf.1
    have hcopied : r.mie = s.csrs.mie := Option.some.inj (hentering.2 rfl)
    have hmask : (isrMieMask c source).mtie = false := hc.2 source hf.2
    cases h
    refine ⟨?_, nofun⟩
    -- The token goes from MIE to the saved context.
    show ((isrMieMask c source).mtie && s.csrs.mie.mtie).toNat +
      (r.mie.mtie.toNat + (rest.map IsrFrame.token).sum) ≤ _
    rw [hmask, hcopied, List.map_cons, List.sum_cons]
    show 0 + _ ≤ s.csrs.mie.mtie.toNat + (0 + _)
    omega
  | setMstatus =>
    cases h
    refine ⟨?_, nofun⟩
    rw [List.map_cons, List.sum_cons, List.map_cons, List.sum_cons, token_body]
    exact Nat.le_refl _
  | callback =>
    have hsaved : saved.isSome = c.useNest source := hf.2
    cases h
    refine ⟨?_, nofun⟩
    rw [List.map_cons, List.sum_cons, List.map_cons, List.sum_cons, token_exit hsaved]
    exact Nat.le_refl _
  | mieDisable =>
    cases h
    have hoff : (tlkCoreMieDisable tlkFldMieMtie s.csrs.mie).2.mtie = false := Bool.and_false _
    dsimp only [SleepHart.setMie]
    rw [List.map_cons, List.sum_cons, List.map_cons, List.sum_cons, hoff]
    refine ⟨Nat.add_le_add_right (Nat.zero_le _) _, fun _ hon => ?_⟩
    rw [hon]
    show 0 + (savedMtie saved + _) + 1 ≤ 1 + (savedMtie saved + _)
    omega
  | getMtime =>
    cases h
    exact ⟨Nat.le_refl _, nofun⟩
  | setCompare loc =>
    have hsaved : saved.isSome = c.useNest source := hf.2
    cases h
    refine ⟨?_, nofun⟩
    rw [List.map_cons, List.sum_cons, List.map_cons, List.sum_cons]
    cases loc with
    | low time =>
      show s.csrs.mie.mtie.toNat +
        (IsrFrame.token ⟨source, saved, isrExit c source⟩ + _) ≤ _
      rw [token_exit hsaved]
      exact Nat.le_refl _
    | _ => exact Nat.le_refl _
  | clearMstatus =>
    cases h
    exact ⟨Nat.le_refl _, nofun⟩
  | restoreContext =>
    obtain ⟨r, rfl⟩ := Option.isSome_iff_exists.mp hf.1
    cases h
    refine ⟨?_, nofun⟩
    -- The token goes back to MIE, whatever was there.
    show r.mie.mtie.toNat + (0 + (rest.map IsrFrame.token).sum) ≤
      s.csrs.mie.mtie.toNat + (r.mie.mtie.toNat + (rest.map IsrFrame.token).sum)
    omega
  | mret =>
    cases h
    refine ⟨?_, nofun⟩
    show s.csrs.mie.mtie.toNat + (rest.map IsrFrame.token).sum ≤
      s.csrs.mie.mtie.toNat + (0 + (rest.map IsrFrame.token).sum)
    omega

/-- The frame that goes on is past the mask, or has just saved its context. -/
theorem isrStep_entering (hentering : f.Entering s.csrs) (hbelow : ∀ g ∈ rest, g.loc.entry = false)
    (h : isrStep c s f rest f.loc = some s') {g : IsrFrame} {below : List IsrFrame}
    (hframes : s'.frames = g :: below) :
    g.Entering s'.csrs ∧ ∀ g' ∈ below, g'.loc.entry = false := by
  obtain ⟨source, saved, loc⟩ := f
  cases loc with
  | saveContext =>
    cases h
    cases hframes
    exact ⟨⟨fun _ => hentering.1 rfl, fun _ => rfl⟩, hbelow⟩
  | setMstatus =>
    cases h
    cases hframes
    exact ⟨entering_of_not_entry (isrBody_entry source), hbelow⟩
  | callback =>
    cases h
    cases hframes
    exact ⟨entering_of_not_entry (isrExit_entry c source), hbelow⟩
  | setCompare loc =>
    cases h
    cases hframes
    refine ⟨entering_of_not_entry ?_, hbelow⟩
    cases loc with
    | low time => exact isrExit_entry c source
    | _ => rfl
  | restoreContext =>
    simp only [isrStep] at h
    split at h
    · cases h
    · cases h
      cases hframes
      exact ⟨entering_of_not_entry rfl, hbelow⟩
  | mret =>
    cases h
    dsimp only at hframes
    rw [hframes] at hbelow
    obtain ⟨hg, hrest⟩ := List.forall_mem_cons.mp hbelow
    exact ⟨entering_of_not_entry hg, hrest⟩
  | _ =>
    cases h
    cases hframes
    exact ⟨entering_of_not_entry rfl, hbelow⟩

end Tokens

/-- Every enable is good for one interrupt: those taken and the tokens left are one at most, but for
the interrupt that is about to take its token out. -/
structure OnceInv (c : SleepConfig) (s : SleepHart) : Prop where
  sound : ∀ f ∈ s.frames, f.Sound c
  entering : ∀ f rest, s.frames = f :: rest →
    f.Entering s.csrs ∧ ∀ g ∈ rest, g.loc.entry = false
  budget : s.spent + s.tokens ≤ 1 ∨ s.Serving ∧ s.spent + s.tokens ≤ 2
  once : ∀ w ∈ s.windows, w ≤ 1

section Once

variable {c : SleepConfig} {s s' : SleepHart}

theorem spent_countInterrupt (windows : List Nat) :
    (SleepHart.countInterrupt windows).headD 0 ≤ windows.headD 0 + 1 := by
  cases windows with
  | nil => exact Nat.zero_le _
  | cons w ws => exact Nat.le_refl _

theorem once_countInterrupt {windows : List Nat} (hzero : windows.headD 0 = 0)
    (h : ∀ w ∈ windows, w ≤ 1) : ∀ w ∈ SleepHart.countInterrupt windows, w ≤ 1 := by
  cases windows with
  | nil => exact h
  | cons w ws =>
    refine List.forall_mem_cons.mpr ⟨?_, (List.forall_mem_cons.mp h).2⟩
    rw [show w = 0 from hzero]

/-- With interrupts on no handler is about to mask. -/
theorem OnceInv.past_entry (hi : OnceInv c s) (hon : s.csrs.mstatus.mie = true) :
    ∀ g ∈ s.frames, g.loc.entry = false := by
  cases hframes : s.frames with
  | nil => exact fun g hg => absurd hg List.not_mem_nil
  | cons f rest =>
    obtain ⟨hentering, hrest⟩ := hi.entering f rest hframes
    refine List.forall_mem_cons.mpr ⟨?_, hrest⟩
    cases hentry : f.loc.entry with
    | false => rfl
    | true =>
      have hoff := hentering.1 hentry
      rw [hon] at hoff
      cases hoff

/-- And none is about to take a token. -/
theorem OnceInv.budget_open (hi : OnceInv c s) (hon : s.csrs.mstatus.mie = true) :
    s.spent + s.tokens ≤ 1 := by
  refine hi.budget.resolve_right fun hserving => ?_
  have hoff := hserving.1.2.1
  rw [hon] at hoff
  cases hoff

/-- A trap is entered with interrupts on. -/
theorem OnceInv.interrupt {source : Interrupt} (hc : c.OneShot) (hi : OnceInv c s)
    (htakes : s.takes source = true) (pc : Nat) : OnceInv c (s.trap c source pc) := by
  obtain ⟨htakes, -⟩ := Bool.and_eq_true_iff.mp htakes
  obtain ⟨hmstatus, henabled⟩ := Bool.and_eq_true_iff.mp htakes
  have hbudget := hi.budget_open hmstatus
  have htokens := tokens_trap (c := c) (s := s) source pc
  have hentering : ∀ f rest, IsrFrame.mk source none (isrEntry c source) :: s.frames = f :: rest →
      f.Entering (s.csrs.trapEntry c.hw .machine pc) ∧ ∀ g ∈ rest, g.loc.entry = false := by
    rintro f rest h
    cases h
    exact ⟨entering_entry source pc, hi.past_entry hmstatus⟩
  have hsound := List.forall_mem_cons.mpr ⟨isrEntry_sound (c := c) source, hi.sound⟩
  cases source with
  | timer =>
    have hon : s.csrs.mie.mtie = true := henabled
    have hzero : s.windows.headD 0 = 0 := by
      have hone : 1 ≤ s.tokens := by
        rw [SleepHart.tokens, hon]
        exact Nat.le_add_right 1 _
      have : s.spent = 0 := by omega
      exact this
    refine ⟨hsound, hentering, .inr ⟨⟨⟨none, s.frames, ?_⟩, rfl, hon⟩, ?_⟩,
      once_countInterrupt hzero hi.once⟩
    · show IsrFrame.mk .timer none (isrEntry c .timer) :: s.frames = _
      rw [isrEntry, hc.1]
      rfl
    · rw [htokens]
      have hspent : (SleepHart.countInterrupt s.windows).headD 0 ≤ s.spent + 1 :=
        spent_countInterrupt s.windows
      show (SleepHart.countInterrupt s.windows).headD 0 + s.tokens ≤ 2
      omega
  | software =>
    refine ⟨hsound, hentering, .inl ?_, hi.once⟩
    rw [htokens]
    exact hbudget
  | external =>
    refine ⟨hsound, hentering, .inl ?_, hi.once⟩
    rw [htokens]
    exact hbudget

/-- A statement of the call. The enable makes the one token of its window. -/
theorem OnceInv.call (hi : OnceInv c s) {ms : Nat} {stmt : SleepStmt} (hframes : s.frames = []) :
    OnceInv c (tlkApiSleepStep c s ms stmt) := by
  have hnone : (tlkApiSleepStep c s ms stmt).frames = [] := by cases stmt <;> exact hframes
  have htokens : ∀ t : SleepHart, t.frames = [] → t.tokens = t.csrs.mie.mtie.toNat := by
    intro t ht
    rw [SleepHart.tokens, ht]
    rfl
  have hbudget : s.spent + s.tokens ≤ 1 := by
    refine hi.budget.resolve_right fun hserving => ?_
    obtain ⟨⟨⟨saved, rest, htop⟩, -⟩, -⟩ := hserving
    rw [hframes] at htop
    cases htop
  rw [htokens s hframes] at hbudget
  refine ⟨fun f hf => ?_, fun f rest h => ?_, .inl ?_, ?_⟩
  · rw [hnone] at hf
    exact absurd hf List.not_mem_nil
  · rw [hnone] at h
    cases h
  · rw [htokens _ hnone]
    cases stmt with
    | mieEnable => exact Nat.le_trans (Nat.zero_add _).le (Bool.toNat_le _)
    | meieEnable =>
      show s.spent + (s.csrs.mie.mtie || false).toNat ≤ 1
      rw [Bool.or_false]
      exact hbudget
    | _ => exact hbudget
  · cases stmt with
    | mieEnable => exact List.forall_mem_cons.mpr ⟨Nat.zero_le _, hi.once⟩
    | _ => exact hi.once

theorem OnceInv.isr (hc : c.OneShot) (hi : OnceInv c s) {f : IsrFrame} {rest : List IsrFrame}
    (hframes : s.frames = f :: rest) (h : isrStep c s f rest f.loc = some s') : OnceInv c s' := by
  have hall := hi.sound
  rw [hframes] at hall
  obtain ⟨hf, hrest⟩ := List.forall_mem_cons.mp hall
  obtain ⟨hentering, hbelow⟩ := hi.entering f rest hframes
  obtain ⟨htokens, htaken⟩ := isrStep_tokens hc hf hentering hframes h
  have hwindows := (isrStep_frame h).2.1
  have hspent : s'.spent = s.spent := congrArg (·.headD 0) hwindows
  refine ⟨?_, fun g below hg => isrStep_entering hentering hbelow h hg, .inl ?_, ?_⟩
  · rcases isrStep_sound hf h with hret | ⟨saved, loc, hgo, hloc⟩
    · rw [hret]; exact hrest
    · rw [hgo]; exact List.forall_mem_cons.mpr ⟨hloc, hrest⟩
  · rcases hi.budget with hleft | ⟨⟨⟨saved, below, htop⟩, -, hon⟩, htwo⟩
    · omega
    · rw [hframes] at htop
      have hloc : f.loc = .mieDisable := by
        rw [(List.cons.inj htop).1]
      have := htaken hloc hon
      omega
  · rw [hwindows]
    exact hi.once

theorem sleepStep_once {a : SleepAction} (hc : c.OneShot) (h : sleepStep c s a = some s')
    (hi : OnceInv c s) : OnceInv c s' := by
  cases a with
  | tick d =>
    cases h
    exact ⟨hi.sound, hi.entering, hi.budget, hi.once⟩
  | interrupt source pc =>
    simp only [sleepStep] at h
    split at h
    · next htakes =>
      cases h
      exact hi.interrupt hc htakes pc
    · cases h
  | sleep durationMs =>
    simp only [sleepStep] at h
    split at h
    · cases h
      exact ⟨hi.sound, hi.entering, hi.budget, hi.once⟩
    · cases h
  | exec =>
    simp only [sleepStep] at h
    split at h
    · next f rest hframes => exact hi.isr hc hframes h
    · next ms stmt hframes htask =>
      cases h
      exact hi.call hframes
    · cases h
  | write msie meie en =>
    simp only [sleepStep] at h
    split at h
    · next hforeign =>
      cases h
      have hcallback : ∀ f rest, s.frames = f :: rest → f.loc = .callback := by
        intro f rest hframes
        rw [SleepHart.foreignRuns, hframes] at hforeign
        exact of_decide_eq_true hforeign
      refine ⟨hi.sound, fun f rest hframes => ⟨?_, (hi.entering f rest hframes).2⟩, .inl ?_,
        hi.once⟩
      · exact entering_of_not_entry (by rw [hcallback f rest hframes]; rfl)
      · refine hi.budget.resolve_right fun hserving => ?_
        obtain ⟨⟨⟨saved, below, htop⟩, -⟩, -⟩ := hserving
        cases hcallback _ _ htop
    · cases h

end Once

/-! ## Two interrupts for one enable -/

/-- Some run leads from `s` to `s'`. -/
abbrev SleepLeads (c : SleepConfig) (s s' : SleepHart) : Prop :=
  Leads (sleepStep c) (fun _ _ _ => True) s s'

section Twice

variable {c : SleepConfig} {s : SleepHart} {source : Interrupt} {saved : Option Csrs}
  {rest : List IsrFrame}

theorem tick_leads (d : Nat) : SleepLeads c s { s with mtime := s.mtime + d } :=
  .single (.tick d) rfl trivial

theorem trap_leads (htakes : s.takes source = true) (pc : Nat) :
    SleepLeads c s (s.trap c source pc) :=
  .single (.interrupt source pc) (by rw [sleepStep, if_pos htakes]) trivial

theorem nested_entry_leads (hframes : s.frames = ⟨source, none, .saveContext⟩ :: rest) :
    SleepLeads c s { (s.setMie ((isrMieMask c source).and s.csrs.mie)).setMstatusMie true with
      frames := ⟨source, some s.csrs, isrBody source⟩ :: rest } := by
  obtain ⟨mtime, compare, csrs, currentTime, task, frames, windows, rearmed⟩ := s
  cases hframes
  exact ⟨List.replicate 3 .exec,
    .cons rfl trivial (.cons rfl trivial (.cons rfl trivial (.nil _)))⟩

theorem nested_exit_leads {csrs : Csrs}
    (hframes : s.frames = ⟨source, some csrs, .clearMstatus⟩ :: rest) :
    SleepLeads c s { s with csrs := csrs.mret c.hw, frames := rest } := by
  obtain ⟨mtime, compare, csrs, currentTime, task, frames, windows, rearmed⟩ := s
  cases hframes
  exact ⟨List.replicate 3 .exec,
    .cons rfl trivial (.cons rfl trivial (.cons rfl trivial (.nil _)))⟩

theorem mret_leads (hframes : s.frames = ⟨source, saved, .mret⟩ :: rest) :
    SleepLeads c s { s with csrs := s.csrs.mret c.hw, frames := rest } := by
  obtain ⟨mtime, compare, csrs, currentTime, task, frames, windows, rearmed⟩ := s
  cases hframes
  exact .single .exec rfl trivial

/-- `tlk_api_time_handle_mtimer_callback`. -/
theorem callback_leads (hframes : s.frames = ⟨.timer, saved, .mieDisable⟩ :: rest) :
    SleepLeads c s { s.setMie (tlkCoreMieDisable tlkFldMieMtie s.csrs.mie).2 with
      compare := .ofTime (u64 (s.getMtime + 1))
      frames := ⟨.timer, saved, isrExit c .timer⟩ :: rest } := by
  obtain ⟨mtime, compare, csrs, currentTime, task, frames, windows, rearmed⟩ := s
  cases hframes
  exact ⟨List.replicate 5 .exec, .cons rfl trivial (.cons rfl trivial (.cons rfl trivial
    (.cons rfl trivial (.cons rfl trivial (.nil _)))))⟩

/-- What a handled timer interrupt leaves: the frames, a compare value one tick ahead, interrupts
on, and with nesting the MIE of before. -/
structure Handled (c : SleepConfig) (s t : SleepHart) : Prop where
  leads : SleepLeads c s t
  mtime : t.mtime = s.mtime
  frames : t.frames = s.frames
  compare : t.compare = .ofTime (u64 (s.getMtime + 1))
  mstatus : t.csrs.mstatus.mie = true
  windows : t.windows = SleepHart.countInterrupt s.windows
  mie : c.useNest .timer = true → t.csrs.mie = s.csrs.mie

theorem timer_handled (c : SleepConfig) (htakes : s.takes .timer = true) :
    ∃ t, Handled c s t := by
  have hmstatus : s.csrs.mstatus.mie = true :=
    (Bool.and_eq_true_iff.mp (Bool.and_eq_true_iff.mp htakes).1).1
  have htrap := trap_leads (c := c) htakes 0
  cases hnest : c.useNest .timer with
  | true =>
    have hentry : (s.trap c .timer 0).frames = ⟨.timer, none, .saveContext⟩ :: s.frames := by
      show IsrFrame.mk .timer none (isrEntry c .timer) :: s.frames = _
      rw [isrEntry, hnest]
      rfl
    have hexit : isrExit c .timer = .clearMstatus := by
      rw [isrExit, hnest]
      rfl
    have hcallback := (htrap.trans (nested_entry_leads hentry)).trans (callback_leads rfl)
    rw [hexit] at hcallback
    exact ⟨_, hcallback.trans (nested_exit_leads rfl), rfl, rfl, rfl, hmstatus, rfl, fun _ => rfl⟩
  | false =>
    have hentry : (s.trap c .timer 0).frames = ⟨.timer, none, .mieDisable⟩ :: s.frames := by
      show IsrFrame.mk .timer none (isrEntry c .timer) :: s.frames = _
      rw [isrEntry, hnest]
      rfl
    have hexit : isrExit c .timer = .mret := by
      rw [isrExit, hnest]
      rfl
    have hcallback := htrap.trans (callback_leads hentry)
    rw [hexit] at hcallback
    exact ⟨_, hcallback.trans (mret_leads rfl), rfl, rfl, rfl, hmstatus, rfl,
      fun h => by rw [hnest] at h; cases h⟩

/-- One tick after the callback the interrupt is pending again, and with MTIE on it is taken. -/
theorem taken_again {windows : List Nat} {w : Nat} (hmtie : s.csrs.mie.mtie = true)
    (hmstatus : s.csrs.mstatus.mie = true)
    (hcompare : s.compare = .ofTime (u64 (s.getMtime + 1))) (hwindows : s.windows = w :: windows) :
    ∃ t, SleepLeads c s t ∧ t.windows = (w + 1) :: windows := by
  have htakes : SleepHart.takes { s with mtime := s.mtime + 1 } .timer = true := by
    have hdue : s.compare.value ≤ u64 (s.mtime + 1) := by
      rw [hcompare, value_ofTime]
      unfold SleepHart.getMtime u64
      omega
    simp only [SleepHart.takes, hmstatus, Mie.enabled, hmtie, SleepHart.pending, SleepHart.getMtime,
      hdue, decide_true, Bool.and_self]
  refine ⟨_, (tick_leads 1).trans (trap_leads htakes 0), ?_⟩
  show SleepHart.countInterrupt s.windows = _
  rw [hwindows]
  rfl

/-- A call has enabled the interrupt, and it is due. -/
structure Due (s : SleepHart) : Prop where
  frames : s.frames = []
  mie : s.csrs.mie = ⟨true, true, true⟩
  mstatus : s.csrs.mstatus.mie = true
  windows : s.windows = [0]
  pending : s.pending .timer = true

/-- The statements of a call up to its enable of MTIE. -/
theorem enable_leads {ms : Nat} (hframes : s.frames = []) (htask : s.task = some (ms, .readTime)) :
    SleepLeads c s { s.setMie (tlkCoreMieEnable tlkFldMieMtie s.csrs.mie) with
      compare := .ofTime (u64 (s.getMtime + tlkApiConvertMsDelayToTicks c ms))
      currentTime := s.getMtime
      task := some (ms, .mstatusEnable)
      windows := 0 :: s.windows
      rearmed := false } := by
  obtain ⟨mtime, compare, csrs, currentTime, task, frames, windows, rearmed⟩ := s
  cases hframes
  cases htask
  exact ⟨List.replicate 5 .exec, .cons rfl trivial (.cons rfl trivial (.cons rfl trivial
    (.cons rfl trivial (.cons rfl trivial (.nil _)))))⟩

theorem exists_due (c : SleepConfig) : ∃ s, SleepLeads c (.idle 0) s ∧ Due s := by
  have hcall : SleepLeads c (.idle 0) (.calling 0 1) := .single (.sleep 1) rfl trivial
  refine ⟨_, (hcall.trans (enable_leads rfl rfl)).trans (tick_leads (2 ^ 32)), rfl, rfl, rfl, rfl,
    decide_eq_true ?_⟩
  have hticks := convert_ms_lt c 1
  rw [value_ofTime]
  show u64 (u64 (u64 0 + _)) ≤ u64 (0 + 2 ^ 32)
  unfold u64
  omega

theorem Due.takes (h : Due s) (source : Interrupt) : s.takes source = true := by
  cases source with
  | timer => simp only [SleepHart.takes, h.mstatus, h.mie, Mie.enabled, h.pending, Bool.and_self]
  | software => simp [SleepHart.takes, h.mstatus, h.mie, Mie.enabled, SleepHart.pending]
  | external => simp [SleepHart.takes, h.mstatus, h.mie, Mie.enabled, SleepHart.pending]

/-- The nested entry of a handler that lets the timer interrupt through. -/
theorem nested_open (h : Due s) (hsource : source ≠ .timer) (hnest : c.useNest source = true)
    (hmask : (isrMieMask c source).mtie = true) :
    ∃ t csrs, SleepLeads c s t ∧ t.takes .timer = true ∧ t.windows = [0] ∧
      t.frames = [⟨source, some csrs, .callback⟩] ∧ csrs.mie.mtie = true ∧
      csrs.mstatus.mpie = true := by
  have hentry : (s.trap c source 0).frames = ⟨source, none, .saveContext⟩ :: s.frames := by
    show IsrFrame.mk source none (isrEntry c source) :: s.frames = _
    rw [isrEntry, if_pos hnest]
  have hopen := (trap_leads (h.takes source) 0).trans (nested_entry_leads (c := c) hentry)
  have hmtie : ((isrMieMask c source).and s.csrs.mie).mtie = true := by
    rw [h.mie]
    exact Bool.and_eq_true_iff.mpr ⟨hmask, rfl⟩
  have hpending : decide (s.compare.value ≤ s.getMtime) = true := h.pending
  have hmie : s.csrs.mie.mtie = true := by rw [h.mie]
  rw [h.frames] at hopen
  cases source with
  | timer => exact absurd rfl hsource
  | _ =>
    refine ⟨_, _, hopen, ?_, h.windows, rfl, hmie, h.mstatus⟩
    exact Bool.and_eq_true_iff.mpr ⟨Bool.and_eq_true_iff.mpr ⟨rfl, hmtie⟩, hpending⟩

/-- A handler that lets the timer interrupt through restores MTIE after it. -/
theorem restored_after_timer (h : Due s) (hsource : source ≠ .timer)
    (hnest : c.useNest source = true) (hmask : (isrMieMask c source).mtie = true) :
    ∃ t, SleepLeads c s t ∧ t.csrs.mie.mtie = true ∧ t.csrs.mstatus.mie = true ∧
      t.compare = .ofTime (u64 (t.getMtime + 1)) ∧ t.windows = [1] := by
  obtain ⟨u, csrs, hopen, htakes, hwindows, hframes, hmtie, hmpie⟩ :=
    nested_open h hsource hnest hmask
  obtain ⟨v, hv⟩ := timer_handled c htakes
  have hcallback : sleepStep c v .exec =
      some { v with frames := [⟨source, some csrs, .clearMstatus⟩] } := by
    simp only [sleepStep, hv.frames, hframes, isrStep, isrExit, if_pos hnest]
  have hreturn := ((hopen.trans hv.leads).trans (.single .exec hcallback trivial)).trans
    (nested_exit_leads rfl)
  refine ⟨_, hreturn, hmtie, hmpie, ?_, ?_⟩
  · show v.compare = .ofTime (u64 (u64 v.mtime + 1))
    rw [hv.compare, hv.mtime]
    rfl
  · show v.windows = [1]
    rw [hv.windows, hwindows]
    rfl

/-- In a build that is not one-shot, a run takes two timer interrupts for one enable. -/
theorem exists_two_interrupts (hc : ¬ c.OneShot) :
    ∃ s, SleepLeads c (.idle 0) s ∧ s.windows = [2] := by
  obtain ⟨s, hs, hdue⟩ := exists_due c
  suffices h : ∃ t, SleepLeads c s t ∧ t.csrs.mie.mtie = true ∧ t.csrs.mstatus.mie = true ∧
      t.compare = .ofTime (u64 (t.getMtime + 1)) ∧ t.windows = [1] by
    obtain ⟨t, ht, hmtie, hmstatus, hcompare, hwindows⟩ := h
    obtain ⟨u, hu, htwo⟩ := taken_again (c := c) hmtie hmstatus hcompare hwindows
    exact ⟨u, (hs.trans ht).trans hu, htwo⟩
  by_cases htimer : c.useNest .timer = true
  · -- The timer's own handler restores the MIE that it saved.
    obtain ⟨t, ht⟩ := timer_handled c (hdue.takes .timer)
    refine ⟨t, ht.leads, ?_, ht.mstatus, ?_, ?_⟩
    · rw [ht.mie htimer, hdue.mie]
    · rw [ht.compare, SleepHart.getMtime, SleepHart.getMtime, ht.mtime]
    · rw [ht.windows, hdue.windows]
      rfl
  · have hother : ∃ source, c.useNest source = true ∧ (isrMieMask c source).mtie = true := by
      by_contra hnone
      push Not at hnone
      exact hc ⟨Bool.eq_false_iff.mpr htimer, fun source hnest =>
        Bool.eq_false_iff.mpr (hnone source hnest)⟩
    obtain ⟨source, hnest, hmask⟩ := hother
    have hsource : source ≠ .timer := fun h => htimer (h ▸ hnest)
    exact restored_after_timer hdue hsource hnest hmask

end Twice

/-- **An enable of MTIE is good for one timer interrupt exactly in the one-shot builds.** -/
theorem sleep_interrupt_once_iff (c : SleepConfig) :
    (∀ s₀ acts s, s₀.task = none → s₀.frames = [] → s₀.windows = [] →
      Run (sleepStep c) (fun _ _ _ => True) s₀ acts s → ∀ w ∈ s.windows, w ≤ 1) ↔
    c.useNest .timer = false ∧
      ∀ source, c.useNest source = true → (isrMieMask c source).mtie = false := by
  constructor
  · intro h
    by_contra hc
    obtain ⟨s, ⟨acts, run⟩, htwo⟩ := exists_two_interrupts hc
    have hone := h _ _ _ rfl rfl rfl run 2 (by rw [htwo]; exact List.mem_cons_self)
    exact absurd hone (by decide)
  · intro hc s₀ acts s htask hframes hwindows run
    have hload : OnceInv c s₀ := by
      refine ⟨fun f hf => ?_, fun f rest h => ?_, .inl ?_, fun w hw => ?_⟩
      · rw [hframes] at hf
        exact absurd hf List.not_mem_nil
      · rw [hframes] at h
        cases h
      · rw [SleepHart.spent, SleepHart.tokens, hwindows, hframes]
        show 0 + (s₀.csrs.mie.mtie.toNat + 0) ≤ 1
        have := Bool.toNat_le s₀.csrs.mie.mtie
        omega
      · rw [hwindows] at hw
        exact absurd hw List.not_mem_nil
    exact (run.invariant (P := OnceInv c) hload fun _ _ _ h _ hi => sleepStep_once hc h hi).once

/-- With `CONFIG_TLK_MTIMER_IRQ_USE_NEST` a sleep of one millisecond takes a second interrupt one
tick after the first. -/
theorem sleep_interrupt_twice :
    ¬ ∀ (c : SleepConfig) (s₀ s : SleepHart) (acts : List SleepAction),
      s₀.task = none → s₀.frames = [] → s₀.windows = [] →
      Run (sleepStep c) (fun _ _ _ => True) s₀ acts s → ∀ w ∈ s.windows, w ≤ 1 := by
  intro h
  have hrun : ∃ s : SleepHart,
      Run (sleepStep (sleepBuild 24000000 fun source => source == .timer)) (fun _ _ _ => True)
        (.idle 0) (sleepToWfi ++ .tick 24000 :: .interrupt .timer 100 ::
          List.replicate 11 .exec ++ [.tick 1, .interrupt .timer 100]) s ∧
      s.windows = [2] := by
    apply exists_run_of_follow (fun s : SleepHart => s.windows = [2])
    decide +kernel
  obtain ⟨s, run, htwo⟩ := hrun
  have hone := h _ _ s _ rfl rfl rfl run 2 (by rw [htwo]; exact List.mem_cons_self)
  exact absurd hone (by decide)

end UniSdk.Core

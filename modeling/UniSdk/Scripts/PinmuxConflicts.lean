import UniSdk.Library.Sharing
import UniSdk.Scripts.PinmuxSave

/-!
# Conflict marks

`PinData.select_function` moves the pin in the assignment and corrects the marks as it goes: the
other pins with the old function lose a conflict when one of them is left, and the pins with the
new function get one when there was one. The marks are those of a function that must not be
repeated on two pins, after every selection.
-/

namespace UniSdk.Scripts.Pinmux

open UniSdk.Library

/-- A `PinData`, by the names of its port and of itself. -/
structure PinKey where
  port : Char
  pin : Char
  deriving DecidableEq

/-- `PinData.full_name`. -/
def PinKey.fullName (key : PinKey) : PortPinName := ⟨'P', key.port, key.pin⟩

structure PinState where
  selectedFunction : Option FunctionName
  hasConflict : Bool

/-- The assignment and what every `PinData` of the context holds. -/
structure PinmuxState where
  pinmux : PinmuxData
  pins : PinKey → PinState

section Selecting

variable (context : PinmuxContext)

/-- `PortPinName.get`. -/
def PortPinName.get (name : PortPinName) : Option PinKey :=
  if context.HasPin name then some ⟨name.port, name.pin⟩ else none

def PinmuxState.setFunction (state : PinmuxState) (key : PinKey) (function : Option FunctionName) :
    PinmuxState :=
  { state with pins := fun other =>
      if other = key then { state.pins other with selectedFunction := function }
      else state.pins other }

def PinmuxState.setConflict (state : PinmuxState) (key : PinKey) (mark : Bool) : PinmuxState :=
  { state with pins := fun other =>
      if other = key then { state.pins other with hasConflict := mark } else state.pins other }

/-- `PinmuxContext.apply_pinmux`; `none` where it raises. -/
def applyPinmux (state : PinmuxState) : Option PinmuxState :=
  state.pinmux.entries.foldlM
    (fun state entry => (entry.1.get context).map (state.setFunction · (some entry.2))) state

/-- One of the two corrections of `select_function`: the pin and the only other pin with the
function get the mark. `none` where a lookup raises. -/
def PinmuxState.correct (state : PinmuxState) (self : PinKey) (function : Option FunctionName)
    (mark : Bool) : Option PinmuxState :=
  match function with
  | none => some state
  | some function =>
    match context.functions.get? function with
    | none => none
    | some data =>
      if data.repeatable then some state
      else
        match state.pinmux.holders function with
        | [] => some state
        | [other] =>
          (other.get context).map fun key => (state.setConflict key mark).setConflict self mark
        | _ :: _ :: _ => some (state.setConflict self mark)

/-- The first steps of `select_function`: the pin has its new function and no entry. -/
def PinmuxState.detach (state : PinmuxState) (self : PinKey) (function : Option FunctionName) :
    PinmuxState :=
  { state.setFunction self function with pinmux := state.pinmux.pop self.fullName }

/-- `PinData.select_function`. -/
def PinmuxState.selectFunction (state : PinmuxState) (self : PinKey)
    (newFunction : Option FunctionName) : Option PinmuxState := do
  let oldFunction := (state.pins self).selectedFunction
  let state ← (state.detach self newFunction).correct context self oldFunction false
  let state ← state.correct context self newFunction true
  match newFunction with
  | none => some state
  | some function => some { state with pinmux := state.pinmux.set self.fullName function }

/-- Any sequence of selections. -/
def PinmuxState.selectAll (state : PinmuxState) (actions : List (PinKey × Option FunctionName)) :
    Option PinmuxState :=
  actions.foldlM (fun state action => state.selectFunction context action.1 action.2) state

end Selecting

/-! ### One correction -/

theorem PinKey.fullName_inj {key other : PinKey} : key.fullName = other.fullName ↔ key = other := by
  cases key
  cases other
  simp [PinKey.fullName]

/-- The pins of an assignment are pins of the context. -/
def PinsExist (context : PinmuxContext) (data : PinmuxData) : Prop :=
  ∀ name function, data.get? name = some function → name.lead = 'P' ∧ context.HasPin name

def Single (context : PinmuxContext) (function : FunctionName) : Prop :=
  context.repeatable function = false

/-- The function of the pin must not be repeated, and another pin holds it as well. -/
def Conflicted (context : PinmuxContext) (data : PinmuxData) (key : PinKey) : Prop :=
  Dict.Shared (Single context) data key.fullName

def MarksExact (context : PinmuxContext) (data : PinmuxData) (pins : PinKey → PinState) : Prop :=
  ∀ key, (pins key).hasConflict = true ↔ Conflicted context data key

section Correcting

variable {context : PinmuxContext}

theorem PinsExist.pop {data : PinmuxData} (h : PinsExist context data) (name : PortPinName) :
    PinsExist context (data.pop name) := by
  intro other function hget
  rw [Dict.get?_pop] at hget
  split at hget
  · cases hget
  · exact h other function hget

theorem get_fullName {name : PortPinName} (hlead : name.lead = 'P') (hpin : context.HasPin name) :
    ∃ key : PinKey, name.get context = some key ∧ key.fullName = name := by
  refine ⟨⟨name.port, name.pin⟩, if_pos hpin, ?_⟩
  rw [PinKey.fullName, ← hlead]

@[simp] theorem setFunction_hasConflict (state : PinmuxState) (self : PinKey)
    (function : Option FunctionName) (key : PinKey) :
    ((state.setFunction self function).pins key).hasConflict = (state.pins key).hasConflict := by
  unfold PinmuxState.setFunction
  dsimp only
  split <;> rfl

@[simp] theorem setFunction_selectedFunction (state : PinmuxState) (self : PinKey)
    (function : Option FunctionName) (key : PinKey) :
    ((state.setFunction self function).pins key).selectedFunction =
      if key = self then function else (state.pins key).selectedFunction := by
  unfold PinmuxState.setFunction
  dsimp only
  split <;> rfl

@[simp] theorem setConflict_selectedFunction (state : PinmuxState) (self : PinKey) (mark : Bool)
    (key : PinKey) : ((state.setConflict self mark).pins key).selectedFunction =
      (state.pins key).selectedFunction := by
  unfold PinmuxState.setConflict
  dsimp only
  split <;> rfl

@[simp] theorem setConflict_hasConflict (state : PinmuxState) (self : PinKey) (mark : Bool)
    (key : PinKey) : ((state.setConflict self mark).pins key).hasConflict =
      if key = self then mark else (state.pins key).hasConflict := by
  unfold PinmuxState.setConflict
  dsimp only
  split <;> rfl

/-- What a correction does: it never raises on a known function, and it touches marks only. -/
theorem correct_spec {state : PinmuxState} {function : FunctionName}
    (hknown : context.Known function) (hpins : PinsExist context state.pinmux) (self : PinKey)
    (mark : Bool) :
    ∃ state', state.correct context self (some function) mark = some state' ∧
      state'.pinmux = state.pinmux ∧
      (∀ key, (state'.pins key).selectedFunction = (state.pins key).selectedFunction) ∧
      ∀ key, (state'.pins key).hasConflict =
        if context.repeatable function = false ∧
            (key = self ∧ state.pinmux.holders function ≠ [] ∨
              state.pinmux.holders function = [key.fullName]) then mark
        else (state.pins key).hasConflict := by
  obtain ⟨data, hdata⟩ := Option.isSome_iff_exists.mp hknown
  unfold PinmuxState.correct PinmuxContext.repeatable
  dsimp only
  rw [hdata]
  dsimp only
  by_cases hrep : data.repeatable = true
  · refine ⟨state, if_pos hrep, rfl, fun _ => rfl, fun key => ?_⟩
    rw [if_neg fun h => by simp [hrep] at h]
  · rw [if_neg hrep]
    cases hholders : state.pinmux.holders function with
    | nil => exact ⟨state, rfl, rfl, fun _ => rfl, fun key => by simp⟩
    | cons other others =>
      cases others with
      | nil =>
        have hget : state.pinmux.get? other = some function :=
          Dict.mem_holders.mp (hholders ▸ List.mem_singleton_self other)
        obtain ⟨hlead, hpin⟩ := hpins other function hget
        obtain ⟨key', hkey', rfl⟩ := get_fullName hlead hpin
        refine ⟨(state.setConflict key' mark).setConflict self mark, ?_, rfl, fun key => by simp,
          fun key => ?_⟩
        · dsimp only
          rw [hkey', Option.map_some]
        · have hlast : [key'.fullName] = [key.fullName] ↔ key = key' := by
            rw [List.singleton_inj, PinKey.fullName_inj, eq_comm]
          simp only [setConflict_hasConflict, hlast, hrep]
          by_cases hself : key = self
          · simp [hself]
          · simp [hself]
      | cons next rest =>
        refine ⟨state.setConflict self mark, rfl, rfl, fun key => by simp, fun key => ?_⟩
        simp [hrep]

/-- The first correction makes the marks exact for the assignment without the pin. -/
theorem correct_old (state : PinmuxState) {self : PinKey} {data : PinmuxData}
    {function : FunctionName} (hknown : context.Known function) (hpins : PinsExist context data)
    (hdata : state.pinmux = data.pop self.fullName)
    (hold : data.get? self.fullName = some function)
    (hmarks : MarksExact context data state.pins) :
    ∃ state', state.correct context self (some function) false = some state' ∧
      state'.pinmux = state.pinmux ∧
      (∀ key, (state'.pins key).selectedFunction = (state.pins key).selectedFunction) ∧
      MarksExact context state.pinmux state'.pins := by
  have hpins' : PinsExist context state.pinmux := hdata ▸ hpins.pop self.fullName
  obtain ⟨state', hstate', hpinmux, hselected, hconflict⟩ := correct_spec hknown hpins' self false
  refine ⟨state', hstate', hpinmux, hselected, fun key => ?_⟩
  have hnone : (data.pop self.fullName).get? self.fullName = none := by
    rw [Dict.get?_pop, if_pos rfl]
  rw [hconflict key, hdata]
  by_cases hkey : key = self
  · -- the pin itself is unmarked already when there is no other holder
    subst hkey
    refine iff_of_false (fun hmark => ?_) (Dict.not_shared_of_none hnone)
    split at hmark
    · cases hmark
    · next hkept =>
      have hshared := (hmarks key).mp hmark
      by_cases hrep : context.repeatable function = false
      · exact hkept ⟨hrep, Or.inl ⟨rfl, (Dict.shared_iff_of_some (Single context) hold hrep).mp hshared⟩⟩
      · exact Dict.not_shared_of_not_single hold hrep hshared
  · have hne : key.fullName ≠ self.fullName := fun h => hkey (PinKey.fullName_inj.mp h)
    have hpop := Dict.shared_pop (Single context) hne hold
    split
    · next hlost =>
      have hlast := hlost.2.resolve_left fun h => hkey h.1
      exact iff_of_false Bool.false_ne_true fun hshared => (hpop.mp hshared).2 hlast
    · next hkept =>
      rw [hmarks key]
      by_cases hrep : context.repeatable function = false
      · exact ⟨fun hshared => hpop.mpr ⟨hshared, fun hlast => hkept ⟨hrep, Or.inr hlast⟩⟩,
          fun hshared => (hpop.mp hshared).1⟩
      · refine (Dict.shared_pop_of_not_single hne fun f hf => ?_).symm
        rwa [← Option.some.inj (hold.symm.trans hf)]

/-- The second one makes them exact for the assignment with the new function on the pin. -/
theorem correct_new {state : PinmuxState} {self : PinKey} {function : FunctionName}
    (hknown : context.Known function) (hpins : PinsExist context state.pinmux)
    (hnone : state.pinmux.get? self.fullName = none)
    (hmarks : MarksExact context state.pinmux state.pins) :
    ∃ state', state.correct context self (some function) true = some state' ∧
      state'.pinmux = state.pinmux ∧
      (∀ key, (state'.pins key).selectedFunction = (state.pins key).selectedFunction) ∧
      MarksExact context (state.pinmux.set self.fullName function) state'.pins := by
  obtain ⟨state', hstate', hpinmux, hselected, hconflict⟩ := correct_spec hknown hpins self true
  refine ⟨state', hstate', hpinmux, hselected, fun key => ?_⟩
  rw [hconflict key]
  by_cases hrep : context.repeatable function = false
  · by_cases hkey : key = self
    · subst hkey
      have hset := Dict.shared_set_self (Single context) hnone hrep
      split
      · next hmarked =>
        refine iff_of_true rfl (hset.mpr fun hnil => ?_)
        rcases hmarked.2 with hself | hlast
        · exact hself.2 hnil
        · rw [hnil] at hlast
          cases hlast
      · next hkept =>
        rw [hmarks key]
        refine iff_of_false (Dict.not_shared_of_none hnone) fun hshared => ?_
        exact hkept ⟨hrep, Or.inl ⟨rfl, hset.mp hshared⟩⟩
    · have hne : key.fullName ≠ self.fullName := fun h => hkey (PinKey.fullName_inj.mp h)
      have hset := Dict.shared_set (Single context) hne hnone hrep
      split
      · next hmarked =>
        exact iff_of_true rfl (hset.mpr (Or.inr (hmarked.2.resolve_left fun h => hkey h.1)))
      · next hkept =>
        rw [hmarks key]
        refine ⟨fun hshared => hset.mpr (Or.inl hshared), fun hshared => ?_⟩
        exact (hset.mp hshared).resolve_right fun hlast => hkept ⟨hrep, Or.inr hlast⟩
  · rw [if_neg fun h => hrep h.1, hmarks key]
    by_cases hkey : key = self
    · subst hkey
      refine iff_of_false (Dict.not_shared_of_none hnone)
        (Dict.not_shared_of_not_single (v := function) ?_ hrep)
      rw [Dict.get?_set, if_pos rfl]
    · have hne : key.fullName ≠ self.fullName := fun h => hkey (PinKey.fullName_inj.mp h)
      exact (Dict.shared_set_of_not_single hne hnone hrep).symm

/-! ### Runs -/

/-- The assignment says what the pins have selected, and the marks are exact. -/
structure Marked (context : PinmuxContext) (state : PinmuxState) : Prop where
  known : ∀ name function, state.pinmux.get? name = some function → context.Known function
  pins : PinsExist context state.pinmux
  selected : ∀ key, (state.pins key).selectedFunction = state.pinmux.get? key.fullName
  marks : MarksExact context state.pinmux state.pins

/-- The state between the two corrections: the pin has its new function and no entry. -/
structure Detached (context : PinmuxContext) (state : PinmuxState) (pin : PinKey)
    (function : Option FunctionName) : Prop where
  known : ∀ name f, state.pinmux.get? name = some f → context.Known f
  pins : PinsExist context state.pinmux
  absent : state.pinmux.get? pin.fullName = none
  pinned : (state.pins pin).selectedFunction = function
  others : ∀ key, key ≠ pin →
    (state.pins key).selectedFunction = state.pinmux.get? key.fullName
  marks : MarksExact context state.pinmux state.pins

/-- The first correction: where the pin had no function there is nothing to correct. -/
theorem Marked.corrected {state : PinmuxState} (h : Marked context state) (self : PinKey)
    (newFunction : Option FunctionName) :
    ∃ state', (state.detach self newFunction).correct context self
        (state.pins self).selectedFunction false = some state' ∧
      state'.pinmux = state.pinmux.pop self.fullName ∧
      (∀ key, (state'.pins key).selectedFunction =
        if key = self then newFunction else (state.pins key).selectedFunction) ∧
      MarksExact context state'.pinmux state'.pins := by
  have hmarks : MarksExact context state.pinmux (state.setFunction self newFunction).pins :=
    fun key => by rw [setFunction_hasConflict]; exact h.marks key
  cases hold : (state.pins self).selectedFunction with
  | none =>
    refine ⟨_, rfl, rfl, setFunction_selectedFunction state self newFunction, fun key => ?_⟩
    have hnone : state.pinmux.get? self.fullName = none := (h.selected self).symm.trans hold
    have hpop : ∀ name, (state.pinmux.pop self.fullName).get? name = state.pinmux.get? name := by
      intro name
      rw [Dict.get?_pop]
      split
      · next heq => rw [heq, hnone]
      · rfl
    refine (hmarks key).trans ?_
    show Dict.Shared _ _ _ ↔ Dict.Shared _ (state.pinmux.pop self.fullName) _
    unfold Dict.Shared
    simp only [hpop]
  | some function =>
    have hget : state.pinmux.get? self.fullName = some function :=
      (h.selected self).symm.trans hold
    obtain ⟨state', hstate', hpinmux, hselected, hexact⟩ :=
      correct_old (state.detach self newFunction) (h.known _ _ hget) h.pins rfl hget hmarks
    refine ⟨state', hstate', hpinmux, fun key => ?_, hpinmux ▸ hexact⟩
    exact (hselected key).trans (setFunction_selectedFunction state self newFunction key)

theorem Marked.detached {state : PinmuxState} (h : Marked context state) (self : PinKey)
    (newFunction : Option FunctionName) :
    ∃ state', (state.detach self newFunction).correct context self
        (state.pins self).selectedFunction false = some state' ∧
      state'.pinmux = state.pinmux.pop self.fullName ∧
      Detached context state' self newFunction := by
  obtain ⟨state', hstate', hpinmux, hselected, hmarks⟩ := h.corrected self newFunction
  refine ⟨state', hstate', hpinmux, fun name f hget => ?_, ?_, ?_, ?_, fun key hkey => ?_, hmarks⟩
  · rw [hpinmux, Dict.get?_pop] at hget
    split at hget
    · cases hget
    · exact h.known name f hget
  · exact hpinmux ▸ h.pins.pop self.fullName
  · rw [hpinmux, Dict.get?_pop, if_pos rfl]
  · rw [hselected self, if_pos rfl]
  · have hne : key.fullName ≠ self.fullName := fun heq => hkey (PinKey.fullName_inj.mp heq)
    rw [hselected key, if_neg hkey, hpinmux, Dict.get?_pop, if_neg hne, h.selected key]

/-- A pin that is deselected is done. -/
theorem Detached.deselected {state : PinmuxState} {self : PinKey}
    (h : Detached context state self none) : Marked context state := by
  refine ⟨h.known, h.pins, fun key => ?_, h.marks⟩
  by_cases hkey : key = self
  · rw [hkey, h.pinned, h.absent]
  · exact h.others key hkey

/-- The second correction and the new entry. -/
theorem Detached.assigned {state : PinmuxState} {self : PinKey} {function : FunctionName}
    (h : Detached context state self (some function)) (hself : context.HasPin self.fullName)
    (hknown : context.Known function) :
    ∃ state', state.correct context self (some function) true = some state' ∧
      state'.pinmux = state.pinmux ∧
      Marked context { state' with pinmux := state'.pinmux.set self.fullName function } := by
  obtain ⟨state', hstate', hpinmux, hselected, hmarks⟩ :=
    correct_new hknown h.pins h.absent h.marks
  refine ⟨state', hstate', hpinmux, ?_⟩
  rw [hpinmux]
  refine ⟨fun name f hget => ?_, fun name f hget => ?_, fun key => ?_, hmarks⟩
  · rw [Dict.get?_set] at hget
    split at hget
    · exact Option.some.inj hget ▸ hknown
    · exact h.known name f hget
  · rw [Dict.get?_set] at hget
    split at hget
    · next heq => exact heq ▸ ⟨rfl, hself⟩
    · exact h.pins name f hget
  · rw [hselected key, Dict.get?_set]
    by_cases hkey : key = self
    · rw [hkey, h.pinned, if_pos rfl]
    · rw [h.others key hkey, if_neg fun heq => hkey (PinKey.fullName_inj.mp heq).symm]

/-- **One selection** on a pin of the context never raises. -/
theorem Marked.selectFunction {state : PinmuxState} (h : Marked context state) {self : PinKey}
    (hself : context.HasPin self.fullName) {newFunction : Option FunctionName}
    (hnew : ∀ function, newFunction = some function → context.Known function) :
    ∃ state', state.selectFunction context self newFunction = some state' ∧
      Marked context state' ∧
      Pinmux.selectFunction context self.fullName newFunction state.pinmux =
        some state'.pinmux := by
  obtain ⟨middle, hmiddle, hpinmux, hdetached⟩ := h.detached self newFunction
  unfold PinmuxState.selectFunction
  dsimp only
  rw [hmiddle]
  cases newFunction with
  | none =>
    refine ⟨middle, rfl, hdetached.deselected, ?_⟩
    rw [hpinmux]
    rfl
  | some function =>
    obtain ⟨state', hstate', hpinmux', hmarked⟩ := hdetached.assigned hself (hnew function rfl)
    refine ⟨{ state' with pinmux := state'.pinmux.set self.fullName function }, ?_, hmarked, ?_⟩
    · rw [Option.bind_eq_bind, Option.bind_some, hstate']
      rfl
    · rw [Pinmux.selectFunction, hpinmux', hpinmux]
      exact if_pos (hnew function rfl)

theorem Marked.selectAll {state : PinmuxState} (h : Marked context state)
    {actions : List (PinKey × Option FunctionName)}
    (hactions : ∀ action ∈ actions, context.HasPin action.1.fullName ∧
      ∀ function, action.2 = some function → context.Known function) :
    ∃ state', state.selectAll context actions = some state' ∧ Marked context state' := by
  induction actions generalizing state with
  | nil => exact ⟨state, rfl, h⟩
  | cons action actions ih =>
    obtain ⟨hself, hnew⟩ := hactions action List.mem_cons_self
    obtain ⟨next, hnext, hmarked, -⟩ := h.selectFunction hself hnew
    obtain ⟨state', hstate', hmarked'⟩ :=
      ih hmarked fun other hmem => hactions other (List.mem_cons_of_mem _ hmem)
    refine ⟨state', ?_, hmarked'⟩
    rw [PinmuxState.selectAll, List.foldlM_cons, hnext]
    exact hstate'

/-! ### The start -/

/-- The context as it was read, before any function is selected. -/
def freshPins : PinKey → PinState := fun _ => { selectedFunction := none, hasConflict := false }

/-- Applying a list of entries selects the function of each; no mark is set. -/
theorem foldlM_apply {entries : List (PortPinName × FunctionName)} (state : PinmuxState)
    (hkeys : (entries.map Prod.fst).Nodup)
    (hpins : ∀ entry ∈ entries, entry.1.lead = 'P' ∧ context.HasPin entry.1) :
    ∃ state', entries.foldlM (fun state entry =>
        (entry.1.get context).map (PinmuxState.setFunction state · (some entry.2))) state =
          some state' ∧
      state'.pinmux = state.pinmux ∧
      (∀ key, (state'.pins key).hasConflict = (state.pins key).hasConflict) ∧
      ∀ key, (state'.pins key).selectedFunction =
        match Dict.lookup key.fullName entries with
        | some function => some function
        | none => (state.pins key).selectedFunction := by
  induction entries generalizing state with
  | nil => exact ⟨state, rfl, rfl, fun _ => rfl, fun _ => rfl⟩
  | cons entry entries ih =>
    obtain ⟨hlead, hpin⟩ := hpins entry List.mem_cons_self
    obtain ⟨key', hkey', hname⟩ := get_fullName hlead hpin
    rw [List.map_cons, List.nodup_cons] at hkeys
    obtain ⟨state', hstate', hpinmux, hconflict, hselected⟩ :=
      ih (state.setFunction key' (some entry.2)) hkeys.2
        fun other hmem => hpins other (List.mem_cons_of_mem _ hmem)
    refine ⟨state', ?_, hpinmux, fun key => ?_, fun key => ?_⟩
    · rw [List.foldlM_cons, hkey']
      exact hstate'
    · rw [hconflict key, setFunction_hasConflict]
    · rw [hselected key, setFunction_selectedFunction]
      obtain ⟨name, function⟩ := entry
      dsimp only at hname hkeys ⊢
      subst hname
      rw [Dict.lookup]
      by_cases hkey : key = key'
      · subst hkey
        rw [Dict.lookup_eq_none hkeys.1, if_pos rfl, if_pos rfl]
      · rw [if_neg hkey, if_neg fun heq => hkey (PinKey.fullName_inj.mp heq).symm]

/-- An assignment without conflicts is applied with every mark exact: there is none. -/
theorem applyPinmux_marked {start : PinmuxData}
    (hknown : ∀ name function, start.get? name = some function → context.Known function)
    (hpins : PinsExist context start) (hfree : Exclusive context start) :
    ∃ state, applyPinmux context ⟨start, freshPins⟩ = some state ∧ state.pinmux = start ∧
      Marked context state := by
  obtain ⟨state, hstate, hpinmux, hconflict, hselected⟩ :=
    foldlM_apply ⟨start, freshPins⟩ start.nodup
      fun entry hmem => hpins entry.1 entry.2 (Dict.mem_entries.mp hmem)
  refine ⟨state, hstate, hpinmux, ?_, ?_, fun key => ?_, fun key => ?_⟩
  · exact hpinmux ▸ hknown
  · exact hpinmux ▸ hpins
  · rw [hselected key, hpinmux]
    show _ = Dict.lookup key.fullName start.entries
    cases Dict.lookup key.fullName start.entries <;> rfl
  · rw [hconflict key, hpinmux]
    exact iff_of_false Bool.false_ne_true (Dict.not_shared_of_exclusive hfree)

/-- **The marks are exact after every sequence of selections.** No step of it raises, the
assignment holds the selected functions of the pins of the context and nothing else, and a pin is
marked exactly when its function must not be repeated and another pin of the context has it. -/
theorem conflict_marks_exact (context : PinmuxContext) (start : PinmuxData)
    (actions : List (PinKey × Option FunctionName))
    (hknown : ∀ name function, start.get? name = some function → context.Known function)
    (hpins : PinsExist context start) (hfree : Exclusive context start)
    (hactions : ∀ action ∈ actions, context.HasPin action.1.fullName ∧
      ∀ function, action.2 = some function → context.Known function) :
    ∃ applied state, applyPinmux context ⟨start, freshPins⟩ = some applied ∧
      applied.selectAll context actions = some state ∧
      (∀ name function, state.pinmux.get? name = some function ↔
        ∃ key : PinKey, key.fullName = name ∧ context.HasPin name ∧
          (state.pins key).selectedFunction = some function) ∧
      ∀ key : PinKey, (state.pins key).hasConflict = true ↔
        ∃ function, (state.pins key).selectedFunction = some function ∧
          context.repeatable function = false ∧
          ∃ other : PinKey, other ≠ key ∧ context.HasPin other.fullName ∧
            (state.pins other).selectedFunction = some function := by
  obtain ⟨applied, happlied, -, hmarked⟩ := applyPinmux_marked hknown hpins hfree
  obtain ⟨state, hstate, hmarked⟩ := hmarked.selectAll hactions
  refine ⟨applied, state, happlied, hstate, fun name function => ?_, fun key => ?_⟩
  · constructor
    · intro hget
      obtain ⟨hlead, hpin⟩ := hmarked.pins name function hget
      obtain ⟨key, -, rfl⟩ := get_fullName hlead hpin
      exact ⟨key, rfl, hpin, (hmarked.selected key).trans hget⟩
    · intro h
      obtain ⟨key, rfl, -, hselected⟩ := h
      exact (hmarked.selected key).symm.trans hselected
  · rw [hmarked.marks key]
    constructor
    · intro h
      obtain ⟨function, hget, hrep, name, hne, hother⟩ := h
      obtain ⟨hlead, hpin⟩ := hmarked.pins name function hother
      obtain ⟨other, -, rfl⟩ := get_fullName hlead hpin
      refine ⟨function, (hmarked.selected key).trans hget, hrep, other, fun heq => ?_, hpin,
        (hmarked.selected other).trans hother⟩
      exact hne (congrArg PinKey.fullName heq)
    · intro h
      obtain ⟨function, hselected, hrep, other, hne, -, hother⟩ := h
      refine ⟨function, (hmarked.selected key).symm.trans hselected, hrep, other.fullName,
        fun heq => hne (PinKey.fullName_inj.mp heq), ?_⟩
      exact (hmarked.selected other).symm.trans hother

/-- A console function is put on a second pin and then taken off the first one. -/
theorem conflict_marks_console :
    ∃ applied state, applyPinmux consoleContext ⟨consoleStart, freshPins⟩ = some applied ∧
      applied.selectAll consoleContext [(⟨'B', '1'⟩, some "UART_TX".toList),
        (⟨'B', '0'⟩, none)] = some state ∧
      (∀ name function, state.pinmux.get? name = some function ↔
        ∃ key : PinKey, key.fullName = name ∧ consoleContext.HasPin name ∧
          (state.pins key).selectedFunction = some function) ∧
      ∀ key : PinKey, (state.pins key).hasConflict = true ↔
        ∃ function, (state.pins key).selectedFunction = some function ∧
          consoleContext.repeatable function = false ∧
          ∃ other : PinKey, other ≠ key ∧ consoleContext.HasPin other.fullName ∧
            (state.pins other).selectedFunction = some function := by
  have hentries : ∀ name function, consoleStart.get? name = some function →
      (name, function) ∈ consoleStart.entries := fun name function => Dict.mem_entries.mpr
  have hpins : ∀ entry ∈ consoleStart.entries, consoleContext.Known entry.2 ∧
      entry.1.lead = 'P' ∧ consoleContext.HasPin entry.1 := by decide
  refine conflict_marks_exact consoleContext consoleStart _
    (fun name function hget => (hpins _ (hentries name function hget)).1)
    (fun name function hget => (hpins _ (hentries name function hget)).2) ?_ ?_
  · intro function hrep left right hl hr
    have hall : ∀ entry ∈ consoleStart.entries, ∀ other ∈ consoleStart.entries,
      entry.1 = other.1 := by decide
    exact hall _ (hentries left function hl) _ (hentries right function hr)
  · intro action hmem
    rw [List.mem_cons, List.mem_singleton] at hmem
    rcases hmem with rfl | rfl
    · refine ⟨by decide, fun function heq => ?_⟩
      rw [← Option.some.inj heq]
      decide
    · exact ⟨by decide, fun function heq => absurd heq.symm (Option.some_ne_none function)⟩

end Correcting

end UniSdk.Scripts.Pinmux

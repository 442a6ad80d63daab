import UniSdk.Scripts.PinmuxFile

/-!
# Saving a pin assignment and loading it back

The file in the build directory is the top layer of the next load. It lists what is assigned and
says nothing of a pin that was deselected, so a pin that a lower layer assigns comes back unless
its function is one that moved away.
-/

namespace UniSdk.Scripts.Pinmux

open UniSdk.Library

/-! ### Selecting and saving -/

/-- `PinData.select_function` on the assignment; `none` where the new function is not in the
context. The flags of the widgets are no part of it. -/
def selectFunction (context : PinmuxContext) (fullName : PortPinName)
    (newFunction : Option FunctionName) (data : PinmuxData) : Option PinmuxData :=
  let data := data.pop fullName
  match newFunction with
  | none => some data
  | some function => if context.Known function then some (data.set fullName function) else none

/-- A sequence of selections, each on a pin that has a `PinData`. -/
def selections (context : PinmuxContext) :
    List (PortPinName × Option FunctionName) → PinmuxData → Option PinmuxData
  | [], data => some data
  | action :: actions, data =>
    if action.1.lead = 'P' ∧ context.HasPin action.1 then
      match selectFunction context action.1 action.2 data with
      | some data => selections context actions data
      | none => none
    else none

inductive PinmuxError
  | unknownFunction
  | conflictedPins (conflicted : List (FunctionName × List PortPinName))
  | unassignedFunction (left : List FunctionName)
  deriving DecidableEq

/-- `PinmuxData.reversed`. -/
def reversed (data : PinmuxData) : List (FunctionName × List PortPinName) :=
  data.values.eraseDups.map (fun function => (function, data.holders function))

/-- `PinmuxData.validate`. -/
def validate (context : PinmuxContext) (data : PinmuxData) : Except PinmuxError Unit :=
  if ∃ entry ∈ reversed data, ¬ context.Known entry.1 then .error .unknownFunction
  else
    let conflicted := (reversed data).filter
      (fun entry => context.repeatable entry.1 = false ∧ 1 < entry.2.length)
    if conflicted ≠ [] then .error (.conflictedPins conflicted)
    else
      let left := (context.functions.entries.filter (fun entry => !entry.2.optional)).map Prod.fst
        |>.filter (fun function => !((reversed data).map Prod.fst).contains function)
      if left ≠ [] then .error (.unassignedFunction left) else .ok ()

section Reload

variable {context : PinmuxContext}

/-! ### Merging a layer -/

theorem foldl_overrideEntry_get? {entries : List (PortPinName × FunctionName)}
    {data : PinmuxData} (hknown : ∀ entry ∈ entries, context.Known entry.2)
    (hsep : Separate context entries) (name : PortPinName) :
    (entries.foldl (overrideEntry context) data).get? name =
      match Dict.lookup name entries with
      | some function => some function
      | none => (data.get? name).filter (fun function =>
          ¬ (context.repeatable function = false ∧ function ∈ entries.map Prod.snd)) := by
  induction entries generalizing data with
  | nil => cases h : data.get? name <;> simp [Dict.lookup, h, Option.filter_some]
  | cons entry entries ih =>
    obtain ⟨pin, function⟩ := entry
    obtain ⟨hkeys, hfunctions⟩ := hsep
    rw [List.map_cons, List.nodup_cons] at hkeys
    rw [List.pairwise_cons] at hfunctions
    have hgone : context.repeatable function = false → function ∉ entries.map Prod.snd := by
      intro hrep hmem
      obtain ⟨other, hother, heq⟩ := List.mem_map.mp hmem
      exact hfunctions.1 other hother hrep heq.symm
    rw [List.foldl_cons, ih (fun other hmem => hknown other (List.mem_cons_of_mem _ hmem))
      ⟨hkeys.2, hfunctions.2⟩, overrideEntry_get? data (hknown _ List.mem_cons_self), Dict.lookup]
    by_cases hpin : pin = name
    · subst hpin
      have hlast : ¬ (context.repeatable function = false ∧ function ∈ entries.map Prod.snd) :=
        fun h => hgone h.1 h.2
      rw [Dict.lookup_eq_none hkeys.1, if_pos rfl, if_pos rfl, Option.filter_some,
        if_pos (decide_eq_true hlast)]
    · rw [if_neg hpin, if_neg hpin]
      cases Dict.lookup name entries with
      | some found => rfl
      | none =>
        cases hdata : data.get? name with
        | none => simp
        | some held =>
          by_cases hsame : held = function
          · subst hsame
            cases hrep : context.repeatable held <;> simp [hrep, Option.filter_some]
          · have hne : ¬ some held = some function := fun h => hsame (Option.some.inj h)
            have hcons : held ∈ ((pin, function) :: entries).map Prod.snd ↔
                held ∈ entries.map Prod.snd := by
              rw [List.map_cons, List.mem_cons]
              exact or_iff_right hsame
            rw [if_neg (fun h => hne h.2)]
            show Option.filter _ _ = Option.filter _ _
            simp only [Option.filter_some, hcons]

/-- Under a pin that the higher layer leaves alone, the lower layer's function stays unless the
higher layer puts it elsewhere. -/
theorem overrideBy_get? {data other : PinmuxData}
    (hknown : ∀ name function, other.get? name = some function → context.Known function)
    (hex : Exclusive context other) (name : PortPinName) :
    (overrideBy context data other).get? name =
      match other.get? name with
      | some function => some function
      | none => (data.get? name).filter (fun function =>
          ¬ (context.repeatable function = false ∧ function ∈ other.values)) :=
  foldl_overrideEntry_get?
    (fun entry hmem => hknown entry.1 entry.2 (Dict.mem_entries.mp hmem)) hex.separate name

/-! ### What is known of a saved assignment -/

theorem mem_reversed {data : PinmuxData} {function : FunctionName} {names : List PortPinName} :
    (function, names) ∈ reversed data ↔ function ∈ data.values ∧ names = data.holders function := by
  simp only [reversed, List.mem_map, List.mem_eraseDups, Prod.mk.injEq]
  constructor
  · intro h
    obtain ⟨other, hvalue, rfl, rfl⟩ := h
    exact ⟨hvalue, rfl⟩
  · intro h
    exact ⟨function, h.1, rfl, h.2.symm⟩

/-- A valid assignment uses functions of the context and has no conflict. -/
theorem validate_ok {data : PinmuxData} (h : validate context data = .ok ()) :
    (∀ name function, data.get? name = some function → context.Known function) ∧
      Exclusive context data := by
  unfold validate at h
  split at h
  · cases h
  · next hknown =>
    dsimp only at h
    split at h
    · cases h
    · next hconflict =>
      have hvalue : ∀ name function, data.get? name = some function →
          (function, data.holders function) ∈ reversed data :=
        fun name function hget => mem_reversed.mpr ⟨Dict.mem_values.mpr ⟨name, hget⟩, rfl⟩
      refine ⟨fun name function hget => ?_, fun function hrep left right hl hr => ?_⟩
      · by_contra hunknown
        exact hknown ⟨_, hvalue name function hget, hunknown⟩
      · by_contra hne
        have hlong : 1 < (data.holders function).length := by
          have hleft := Dict.mem_holders.mpr hl
          have hright := Dict.mem_holders.mpr hr
          match hholders : data.holders function with
          | [] => rw [hholders] at hleft; cases hleft
          | [only] =>
            rw [hholders, List.mem_singleton] at hleft hright
            exact absurd (hleft.trans hright.symm) hne
          | _ :: _ :: rest => exact Nat.succ_lt_succ (Nat.succ_pos rest.length)
        rw [ne_eq, not_not, List.filter_eq_nil_iff] at hconflict
        exact hconflict _ (hvalue left function hl) (decide_eq_true ⟨hrep, hlong⟩)

/-- After a completed load every assigned pin has its `PinData`, and selecting keeps that. -/
theorem selections_hasPin {actions : List (PortPinName × Option FunctionName)}
    {start saved : PinmuxData} (h : selections context actions start = some saved)
    (hstart : ∀ name function, start.get? name = some function → context.HasPin name) :
    ∀ name function, saved.get? name = some function → context.HasPin name := by
  induction actions generalizing start with
  | nil => exact Option.some.inj h ▸ hstart
  | cons action actions ih =>
    unfold selections at h
    split at h
    · next hpin =>
      split at h
      · next data hdata =>
        refine ih h fun name function hget => ?_
        have hpopped : ∀ other f, (start.pop action.1).get? other = some f →
            context.HasPin other := by
          intro other f hother
          rw [Dict.get?_pop] at hother
          split at hother
          · cases hother
          · exact hstart other f hother
        unfold selectFunction at hdata
        dsimp only at hdata
        split at hdata
        · exact hpopped name function (Option.some.inj hdata ▸ hget)
        · split at hdata
          · rw [← Option.some.inj hdata, Dict.get?_set] at hget
            split at hget
            · next heq => exact heq ▸ hpin.2
            · exact hpopped name function hget
          · cases hdata
      · cases h
    · cases h

theorem managerRead_eq_some {project : ProjectFiles} {build : Option (List Char)}
    {current : PinmuxData} : managerRead context project build = some current ↔
      currentPinmux context project build = current ∧
        ∀ name function, current.get? name = some function → context.HasPin name := by
  unfold managerRead
  dsimp only
  constructor
  · intro h
    split at h
    · next hpins =>
      obtain rfl := Option.some.inj h
      exact ⟨rfl, fun name function hget => hpins (name, function) (Dict.mem_entries.mpr hget)⟩
    · cases h
  · rintro ⟨rfl, hpins⟩
    exact if_pos (fun (entry : PortPinName × FunctionName) hmem =>
      hpins entry.1 entry.2 (Dict.mem_entries.mp hmem))

/-! ### The round trip -/

/-- What has to hold for an assignment to survive: a pin that a lower layer assigns is assigned,
or its function cannot be repeated and is saved on a pin that is read back; and a pin that is not
read back has its function from the lower layers. -/
structure Keeps (context : PinmuxContext) (lower saved : PinmuxData) : Prop where
  selected : ∀ name function, lower.get? name = some function → saved.get? name = none →
    context.repeatable function = false ∧
      ∃ other, saved.get? other = some function ∧ Readable context other
  unread : ∀ name function, saved.get? name = some function → ¬ Readable context name →
    lower.get? name = some function

/-- The functions of the entries that are read back. -/
theorem mem_readable_values {saved : PinmuxData} {function : FunctionName} :
    function ∈ (saved.filterKeys (Readable context)).values ↔
      ∃ other, saved.get? other = some function ∧ Readable context other := by
  rw [Dict.mem_values]
  refine exists_congr fun other => ?_
  rw [Dict.get?_filterKeys]
  split <;> simp_all

/-- What a new process loads: the entries that are read back, and from the lower layers those
whose function they do not take away. -/
theorem reloaded_get? {project : ProjectFiles} {saved : PinmuxData} (hwords : WordNames saved)
    (hknown : ∀ name function, saved.get? name = some function → context.Known function)
    (hex : Exclusive context saved) (name : PortPinName) :
    (currentPinmux context project (some (writePinmux saved))).get? name =
      match if Readable context name then saved.get? name else none with
      | some function => some function
      | none => ((lowerLayers context project).get? name).filter (fun function =>
          ¬ (context.repeatable function = false ∧
            function ∈ (saved.filterKeys (Readable context)).values)) := by
  rw [← Dict.get?_filterKeys]
  show (overrideBy context _ _).get? name = _
  rw [readFile_write hwords hknown hex]
  refine overrideBy_get? (fun other function hget => ?_) ?_ name
  · rw [Dict.get?_filterKeys] at hget
    split at hget
    · exact hknown other function hget
    · cases hget
  · intro function hrep left right hl hr
    rw [Dict.get?_filterKeys] at hl hr
    split at hl
    · split at hr
      · exact hex function hrep left right hl hr
      · cases hr
    · cases hl

theorem keeps_of_reloaded {project : ProjectFiles} {saved : PinmuxData} (hwords : WordNames saved)
    (hknown : ∀ name function, saved.get? name = some function → context.Known function)
    (hex : Exclusive context saved)
    (hsame : ∀ name, (currentPinmux context project (some (writePinmux saved))).get? name =
      saved.get? name) :
    Keeps context (lowerLayers context project) saved := by
  refine ⟨fun name function hl hs => ?_, fun name function hs hunread => ?_⟩
  · have hback := (reloaded_get? hwords hknown hex name).symm.trans (hsame name)
    rw [hs, hl, ite_self, Option.filter_some] at hback
    rw [← mem_readable_values]
    by_contra hstays
    rw [if_pos (decide_eq_true hstays)] at hback
    cases hback
  · have hback := (reloaded_get? hwords hknown hex name).symm.trans (hsame name)
    rw [if_neg hunread, hs] at hback
    exact (Option.filter_eq_some_iff.mp hback).1

theorem reloaded_of_keeps {project : ProjectFiles} {saved : PinmuxData} (hwords : WordNames saved)
    (hknown : ∀ name function, saved.get? name = some function → context.Known function)
    (hex : Exclusive context saved) (hkeeps : Keeps context (lowerLayers context project) saved)
    (name : PortPinName) :
    (currentPinmux context project (some (writePinmux saved))).get? name = saved.get? name := by
  rw [reloaded_get? hwords hknown hex]
  cases hs : saved.get? name with
  | some function =>
    by_cases hreadable : Readable context name
    · rw [if_pos hreadable]
    · -- a function that is read back elsewhere would be on two pins
      have hstays : ¬ (context.repeatable function = false ∧
          function ∈ (saved.filterKeys (Readable context)).values) := by
        intro hmoved
        obtain ⟨other, hother, hback⟩ := mem_readable_values.mp hmoved.2
        exact hreadable (hex function hmoved.1 _ _ hother hs ▸ hback)
      rw [if_neg hreadable, hkeeps.unread name function hs hreadable]
      show Option.filter _ _ = _
      rw [Option.filter_some, if_pos (decide_eq_true hstays)]
  | none =>
    rw [ite_self]
    cases hl : (lowerLayers context project).get? name with
    | none => rfl
    | some function =>
      have hmoved := hkeeps.selected name function hl hs
      rw [← mem_readable_values] at hmoved
      show Option.filter _ _ = _
      rw [Option.filter_some, if_neg (by rw [decide_eq_true_eq]; exact not_not_intro hmoved)]

/-- **Exactly when a saved assignment is loaded back.** -/
theorem reload_iff (context : PinmuxContext) (project : ProjectFiles)
    (build : Option (List Char)) (start saved : PinmuxData)
    (actions : List (PortPinName × Option FunctionName))
    (hwords : WordNames saved)
    (hread : managerRead context project build = some start)
    (hselect : selections context actions start = some saved)
    (hvalid : validate context saved = .ok ()) :
    (∃ again, managerRead context project (some (writePinmux saved)) = some again ∧
        ∀ name, again.get? name = saved.get? name) ↔
      Keeps context (lowerLayers context project) saved := by
  obtain ⟨hknown, hex⟩ := validate_ok hvalid
  have hpins := selections_hasPin hselect (managerRead_eq_some.mp hread).2
  constructor
  · intro hagain
    obtain ⟨again, hagain, hsame⟩ := hagain
    obtain ⟨rfl, -⟩ := managerRead_eq_some.mp hagain
    exact keeps_of_reloaded hwords hknown hex hsame
  · intro hkeeps
    have hsame := reloaded_of_keeps hwords hknown hex hkeeps
    refine ⟨_, managerRead_eq_some.mpr ⟨rfl, fun name function hget => ?_⟩, hsame⟩
    exact hpins name function ((hsame name).symm.trans hget)

end Reload

/-! ### A pin that comes back -/

/-- A port with two pins and an optional function whose default is the first. -/
def consoleContext : PinmuxContext where
  id := { name := "TL721X".toList, type := .soc }
  ports := Dict.empty.set 'B' { disabled := false, pins := ['0', '1'] }
  functions := Dict.empty.set "UART_TX".toList
    { default := some ⟨'P', 'B', '0'⟩, optional := true, repeatable := false }

def noFiles : ProjectFiles := { generic := none, specific := none }

/-- The default, and the assignment after the function has moved to the second pin. -/
def consoleStart : PinmuxData := Dict.empty.set ⟨'P', 'B', '0'⟩ "UART_TX".toList

def consoleMoved : PinmuxData := Dict.empty.set ⟨'P', 'B', '1'⟩ "UART_TX".toList

/-- A function that was moved to another pin stays there. -/
theorem reload_moved :
    ∃ again, managerRead consoleContext noFiles (some (writePinmux consoleMoved)) = some again ∧
      ∀ name, again.get? name = consoleMoved.get? name := by
  refine (reload_iff consoleContext noFiles none consoleStart consoleMoved
    [(⟨'P', 'B', '0'⟩, none), (⟨'P', 'B', '1'⟩, some "UART_TX".toList)] ?_ ?_ ?_ ?_).mpr ?_
  · intro name function hget
    rw [consoleMoved, Dict.get?_set, Dict.get?_empty] at hget
    split at hget
    · obtain rfl := Option.some.inj hget
      exact ⟨List.cons_ne_nil _ _, List.all_eq_true.mp rfl⟩
    · cases hget
  · rfl
  · rfl
  · rfl
  · have hlower : lowerLayers consoleContext noFiles = consoleStart := by rfl
    rw [hlower]
    refine ⟨fun name function hl _ => ?_, fun name function hs hunread => ?_⟩
    · rw [consoleStart, Dict.get?_set, Dict.get?_empty] at hl
      split at hl
      · obtain rfl := Option.some.inj hl
        exact ⟨rfl, ⟨'P', 'B', '1'⟩, rfl, rfl⟩
      · cases hl
    · rw [consoleMoved, Dict.get?_set, Dict.get?_empty] at hs
      split at hs
      · next heq => exact absurd (heq ▸ rfl : Readable consoleContext name = true) hunread
      · cases hs

/-- A function that was deselected is back on its default pin after the next load. -/
theorem reload_deselected :
    managerRead consoleContext noFiles none = some consoleStart ∧
      selections consoleContext [(⟨'P', 'B', '0'⟩, none)] consoleStart = some Dict.empty ∧
      validate consoleContext Dict.empty = .ok () ∧
      managerRead consoleContext noFiles (some (writePinmux Dict.empty)) = some consoleStart ∧
      consoleStart.get? ⟨'P', 'B', '0'⟩ = some "UART_TX".toList ∧
      (Dict.empty : PinmuxData).get? ⟨'P', 'B', '0'⟩ = none :=
  ⟨by rfl, by rfl, by rfl, by rfl, by rfl, by rfl⟩

end UniSdk.Scripts.Pinmux

import UniSdk.Scripts.PinmuxConflicts

/-!
# Assignments that can be applied

A line of a `.pinmux` file is accepted when its function is known and its port enabled. Whether the
port has the pin, and the pin the function, is not looked at before the assignment is applied.
-/

namespace UniSdk.Scripts.Pinmux

open UniSdk.Library

/-- The contents that `PinmuxManager.read` reads: those of files whose names are accepted. -/
def filesRead (context : PinmuxContext) (project : ProjectFiles) (build : Option (List Char)) :
    List (List Char) :=
  project.generic.toList ++
    if matchFileName (pinmuxFileName context.id) then project.specific.toList ++ build.toList
    else []

section Accept

-- `supported` is what `PinData.supported_functions` of every pin holds
variable (context : PinmuxContext) (supported : PortPinName → List FunctionName)

/-- The line passes the checks of the reader, but its pin is not on the chip or does not support
its function. -/
def Slips (data : PinmuxData) (line : List Char) : Prop :=
  ∃ name function, matchLine (strip line) = some (name, function) ∧ context.Known function ∧
    ¬ (function ∈ data.values ∧ context.repeatable function = false) ∧
    context.portEnabled name.port = true ∧
    ¬ (context.HasPin name ∧ function ∈ supported name)

/-- The pins that are assigned are valid ones and support their functions. -/
def EntriesValid (data : PinmuxData) : Prop :=
  ∀ name function, data.get? name = some function →
    context.isValidPin name = true ∧ function ∈ supported name

/-- Everything that is assigned at any point while a file is read is valid. -/
def ReadsValid (content : List Char) : Prop :=
  ∀ front back, splitLines content = front ++ back →
    EntriesValid context supported (front.foldl (readLine context) Dict.empty)

/-- The files are read as they should be, and `read` can apply what it has assembled. -/
def Applies (project : ProjectFiles) (build : Option (List Char)) : Prop :=
  (∀ content ∈ filesRead context project build, ReadsValid context supported content) ∧
    (managerRead context project build).isSome = true

variable {context supported}

/-! ### One line -/

theorem matchLine_lead {line : List Char} {name : PortPinName} {function : FunctionName}
    (h : matchLine line = some (name, function)) : name.lead = 'P' := by
  unfold matchLine at h
  split at h
  · split at h
    · split at h
      · dsimp only at h
        split at h
        · cases h
        · rw [Option.some.injEq, Prod.mk.injEq] at h
          rw [← h.1]
      · cases h
    · cases h
  · cases h

/-- A line that passes the checks is stored. -/
theorem readLine_of_accepted {data : PinmuxData} {line : List Char} {name : PortPinName}
    {function : FunctionName} (hmatch : matchLine (strip line) = some (name, function))
    (hknown : context.Known function)
    (hnew : ¬ (function ∈ data.values ∧ context.repeatable function = false))
    (hport : context.portEnabled name.port = true) :
    readLine context data line = data.set name function := by
  have hdisabled : ¬ context.portEnabled name.port = false := by simp [hport]
  rw [readLine, hmatch]
  dsimp only
  rw [if_neg (not_not_intro hknown), if_neg hnew, if_neg hdisabled]

/-- A line that is stored and does not slip through leaves the entries valid. -/
theorem EntriesValid.readLine {data : PinmuxData} (h : EntriesValid context supported data)
    {line : List Char} (hline : ¬ Slips context supported data line) :
    EntriesValid context supported (readLine context data line) := by
  cases hmatch : matchLine (strip line) with
  | none =>
    rw [Pinmux.readLine, hmatch]
    exact h
  | some entry =>
    obtain ⟨name, function⟩ := entry
    by_cases haccepted : context.Known function ∧
        ¬ (function ∈ data.values ∧ context.repeatable function = false) ∧
        context.portEnabled name.port = true
    · obtain ⟨hknown, hnew, hport⟩ := haccepted
      have hfits : context.HasPin name ∧ function ∈ supported name := by
        by_contra hnot
        exact hline ⟨name, function, hmatch, hknown, hnew, hport, hnot⟩
      rw [readLine_of_accepted hmatch hknown hnew hport]
      intro other f hget
      rw [Dict.get?_set] at hget
      split at hget
      · next heq =>
        obtain rfl := Option.some.inj hget
        subst heq
        exact ⟨decide_eq_true ⟨matchLine_lead hmatch, hport, hfits.1⟩, hfits.2⟩
      · exact h other f hget
    · have hskip : Pinmux.readLine context data line = data := by
        rw [Pinmux.readLine, hmatch]
        dsimp only
        split
        · rfl
        · next hknown =>
          split
          · rfl
          · next hnew =>
            split
            · rfl
            · next hport =>
              exact absurd ⟨not_not.mp hknown, hnew, by simpa using hport⟩ haccepted
      rw [hskip]
      exact h

/-! ### One file -/

/-- **A file is read as it should be exactly when none of its lines slips through.** -/
theorem readsValid_iff (content : List Char) :
    ReadsValid context supported content ↔
      ∀ front line back, splitLines content = front ++ line :: back →
        ¬ Slips context supported (front.foldl (readLine context) Dict.empty) line := by
  constructor
  · intro h front line back hlines hslips
    obtain ⟨name, function, hmatch, hknown, hnew, hport, hnot⟩ := hslips
    have hafter := h (front ++ [line]) back (by rw [hlines, List.append_cons])
    rw [List.foldl_concat, readLine_of_accepted hmatch hknown hnew hport] at hafter
    obtain ⟨hvalid, hsupported⟩ := hafter name function (by rw [Dict.get?_set, if_pos rfl])
    exact hnot ⟨(of_decide_eq_true hvalid).2.2, hsupported⟩
  · intro h front
    induction front using List.reverseRecOn with
    | nil => exact fun back _ name function hget => by cases hget
    | append_singleton front line ih =>
      intro back hlines
      rw [List.append_assoc, List.singleton_append] at hlines
      rw [List.foldl_concat]
      exact (ih (line :: back) hlines).readLine (h front line back hlines)

/-! ### The layers -/

theorem PinsExist.set {data : PinmuxData} (h : PinsExist context data) {name : PortPinName}
    (hname : name.lead = 'P' ∧ context.HasPin name) (function : FunctionName) :
    PinsExist context (data.set name function) := by
  intro other f hget
  rw [Dict.get?_set] at hget
  split at hget
  · next heq => exact heq ▸ hname
  · exact h other f hget

theorem defaultPinmuxData_pinsExist (context : PinmuxContext) :
    PinsExist context (defaultPinmuxData context) := by
  have hfold : ∀ (functions : List (FunctionName × PinmuxFunction)) (data : PinmuxData),
      PinsExist context data → PinsExist context (functions.foldl (defaultEntry context) data) := by
    intro functions
    induction functions with
    | nil => exact fun data h => h
    | cons function functions ih =>
      intro data h
      refine ih _ ?_
      unfold defaultEntry
      split
      · split
        · next hvalid =>
          have hpin := of_decide_eq_true hvalid
          exact h.set ⟨hpin.1, hpin.2.2⟩ function.1
        · exact h
      · exact h
  exact hfold _ _ fun name function hget => by cases hget

theorem PinsExist.overrideBy {data other : PinmuxData} (h : PinsExist context data)
    (hother : PinsExist context other) : PinsExist context (overrideBy context data other) := by
  have hentries : ∀ entry ∈ other.entries, entry.1.lead = 'P' ∧ context.HasPin entry.1 :=
    fun entry hmem => hother entry.1 entry.2 (Dict.mem_entries.mp hmem)
  unfold Pinmux.overrideBy
  generalize other.entries = entries at hentries
  induction entries generalizing data with
  | nil => exact h
  | cons entry entries ih =>
    refine ih ?_ fun later hmem => hentries later (List.mem_cons_of_mem _ hmem)
    intro name function hget
    by_cases hknown : context.Known entry.2
    · rw [overrideEntry_get? data hknown] at hget
      split at hget
      · next heq => exact heq ▸ hentries entry List.mem_cons_self
      · split at hget
        · cases hget
        · exact h name function hget
    · rw [overrideEntry, if_neg hknown] at hget
      exact h name function hget

/-- A file that is read as it should be assigns pins of the context. -/
theorem ReadsValid.pinsExist {content : List Char} (h : ReadsValid context supported content) :
    PinsExist context ((splitLines content).foldl (readLine context) Dict.empty) := by
  intro name function hget
  have hvalid := of_decide_eq_true (h _ [] (List.append_nil _).symm name function hget).1
  exact ⟨hvalid.1, hvalid.2.2⟩

theorem pinsExist_readFile {fileName content : List Char}
    (h : matchFileName fileName = true → ReadsValid context supported content) :
    PinsExist context (readFile context Dict.empty fileName content) := by
  unfold readFile
  split
  · next hname => exact (h hname).pinsExist
  · exact fun name function hget => by cases hget

/-- When all files are read as they should be, what `read` assembles can be applied. -/
theorem managerRead_isSome {project : ProjectFiles} {build : Option (List Char)}
    (h : ∀ content ∈ filesRead context project build, ReadsValid context supported content) :
    (managerRead context project build).isSome = true := by
  have hgeneric : ∀ content, project.generic = some content →
      ReadsValid context supported content := fun content hcontent =>
    h content (List.mem_append_left _ (by simp [hcontent]))
  have hnamed : ∀ content, project.specific = some content ∨ build = some content →
      matchFileName (pinmuxFileName context.id) = true → ReadsValid context supported content := by
    intro content hcontent hname
    refine h content (List.mem_append_right _ ?_)
    rw [if_pos hname]
    rcases hcontent with hcontent | hcontent <;> simp [hcontent]
  have hempty : PinsExist context Dict.empty := fun name function hget => by cases hget
  have hproject : PinsExist context (projectPinmux context project) := by
    unfold projectPinmux
    cases hfirst : project.generic with
    | none =>
      cases hsecond : project.specific with
      | none => exact hempty
      | some content =>
        exact hempty.overrideBy (pinsExist_readFile (hnamed content (Or.inl hsecond)))
    | some generic =>
      have hread : PinsExist context (readFile context Dict.empty ".pinmux".toList generic) :=
        pinsExist_readFile fun _ => hgeneric generic hfirst
      cases hsecond : project.specific with
      | none => exact hread
      | some content =>
        exact hread.overrideBy (pinsExist_readFile (hnamed content (Or.inl hsecond)))
  have hlower : PinsExist context (lowerLayers context project) :=
    (defaultPinmuxData_pinsExist context).overrideBy hproject
  have hcurrent : PinsExist context (currentPinmux context project build) := by
    unfold currentPinmux
    split
    · next content =>
      exact hlower.overrideBy (pinsExist_readFile (hnamed content (Or.inr rfl)))
    · exact hlower
  rw [managerRead_eq_some.mpr ⟨rfl, fun name function hget => (hcurrent name function hget).2⟩]
  rfl

end Accept

/-- **Exactly when every assignment that is read can be applied**: no line of a file that is read
slips through the checks, given what the lines before it have assigned. -/
theorem accepted_applies_iff (context : PinmuxContext)
    (supported : PortPinName → List FunctionName) (project : ProjectFiles)
    (build : Option (List Char)) :
    Applies context supported project build ↔
      ∀ content ∈ filesRead context project build, ∀ front line back,
        splitLines content = front ++ line :: back →
          ¬ Slips context supported (front.foldl (readLine context) Dict.empty) line := by
  constructor
  · intro h content hmem
    exact (readsValid_iff content).mp (h.1 content hmem)
  · intro h
    have hreads : ∀ content ∈ filesRead context project build,
        ReadsValid context supported content := fun content hmem =>
      (readsValid_iff content).mpr (h content hmem)
    exact ⟨hreads, managerRead_isSome hreads⟩

/-- A port with one pin, and a file that puts the console on another one. -/
def onePinContext : PinmuxContext where
  id := { name := "TL721X".toList, type := .soc }
  ports := Dict.empty.set 'B' { disabled := false, pins := ['0'] }
  functions := Dict.empty.set "UART_TX".toList
    { default := none, optional := true, repeatable := false }

/-- The line is stored and `read` fails when it applies it, although the pin that is there supports
the function. -/
theorem accepted_absent_pin :
    readFile onePinContext Dict.empty ".pinmux".toList "PB1=UART_TX".toList =
        Dict.empty.set ⟨'P', 'B', '1'⟩ "UART_TX".toList ∧
      onePinContext.isValidPin ⟨'P', 'B', '1'⟩ = false ∧
      managerRead onePinContext ⟨some "PB1=UART_TX".toList, none⟩ none = none ∧
      ¬ Applies onePinContext (fun _ => ["UART_TX".toList])
        ⟨some "PB1=UART_TX".toList, none⟩ none := by
  have hfails : managerRead onePinContext ⟨some "PB1=UART_TX".toList, none⟩ none = none := by rfl
  refine ⟨by rfl, by rfl, hfails, fun h => ?_⟩
  have hread := h.2
  rw [hfails] at hread
  cases hread

end UniSdk.Scripts.Pinmux

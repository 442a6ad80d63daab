import UniSdk.Library.Dict

/-!
# Loading a pin assignment

`PinmuxManager.read` merges up to four layers: the defaults of the functions, the generic and
the specific file of the project, and the file in the build directory. A file is read line by
line; two layers are merged entry by entry, and an entry with a function that is not repeatable
takes the function away from the pins that hold it. A function that is not repeatable is
therefore on one pin at most in every layer and in every intermediate state of a merge.
-/

namespace UniSdk.Scripts.Pinmux

open UniSdk.Library

/-- `PinmuxFunctionName`. -/
abbrev FunctionName := List Char

/-- `PortPinName`: three characters, like `PB0`. -/
structure PortPinName where
  lead : Char
  port : Char
  pin : Char
  deriving DecidableEq, Repr

def PortPinName.chars (name : PortPinName) : List Char := [name.lead, name.port, name.pin]

structure PinmuxFunction where
  default : Option PortPinName
  optional : Bool
  repeatable : Bool
  deriving DecidableEq

/-- `PortData`, with the names of its pins. -/
structure PortData where
  disabled : Bool
  pins : List Char
  deriving DecidableEq

inductive PinmuxType
  | soc
  | board
  deriving DecidableEq

/-- `PinmuxIdentifier.name` and `.type`. -/
structure PinmuxIdentifier where
  name : List Char
  type : PinmuxType

structure PinmuxContext where
  id : PinmuxIdentifier
  ports : Dict Char PortData
  functions : Dict FunctionName PinmuxFunction

/-- `PinmuxData.pinmux`. -/
abbrev PinmuxData := Dict PortPinName FunctionName

section Context

variable (context : PinmuxContext)

/-- `function in context.function_names`. -/
def PinmuxContext.Known (function : FunctionName) : Prop :=
  (context.functions.get? function).isSome

instance (function : FunctionName) : Decidable (context.Known function) :=
  inferInstanceAs (Decidable (_ = true))

/-- `context.functions[function].repeatable`, asked of known functions only. -/
def PinmuxContext.repeatable (function : FunctionName) : Bool :=
  match context.functions.get? function with
  | some data => data.repeatable
  | none => false

/-- The port is in the context and not disabled. -/
def PinmuxContext.portEnabled (port : Char) : Bool :=
  match context.ports.get? port with
  | some data => !data.disabled
  | none => false

/-- `PortPinName.get(context)` finds a `PinData`. -/
def PinmuxContext.HasPin (name : PortPinName) : Prop :=
  ∃ data, context.ports.get? name.port = some data ∧ name.pin ∈ data.pins

instance (name : PortPinName) : Decidable (context.HasPin name) :=
  match h : context.ports.get? name.port with
  | some data => decidable_of_iff (name.pin ∈ data.pins)
      ⟨fun hmem => ⟨data, h, hmem⟩, fun ⟨_, hd, hmem⟩ => by
        rw [h] at hd; cases hd; exact hmem⟩
  | none => .isFalse (fun ⟨_, hd, _⟩ => by rw [h] at hd; cases hd)

/-- `PortPinName.is_valid`. -/
def PinmuxContext.isValidPin (name : PortPinName) : Bool :=
  name.lead = 'P' ∧ context.portEnabled name.port ∧ context.HasPin name

/-- One function of `default_pinmux_data`. -/
def defaultEntry (data : PinmuxData) (function : FunctionName × PinmuxFunction) : PinmuxData :=
  match function.2.default with
  | some name => if context.isValidPin name then data.set name function.1 else data
  | none => data

/-- `PinmuxContext.default_pinmux_data`. -/
def defaultPinmuxData : PinmuxData :=
  context.functions.entries.foldl (defaultEntry context) Dict.empty

/-- One entry of `PinmuxData.override_by`. -/
def overrideEntry (data : PinmuxData) (entry : PortPinName × FunctionName) : PinmuxData :=
  if context.Known entry.2 then
    let data :=
      if context.repeatable entry.2 = false ∧ entry.2 ∈ data.values then
        (data.holders entry.2).foldl Dict.pop data
      else data
    data.set entry.1 entry.2
  else data

/-- `PinmuxData.override_by`. -/
def overrideBy (data other : PinmuxData) : PinmuxData :=
  other.entries.foldl (overrideEntry context) data

end Context

/-! ### Files -/

/-- `str.isspace` and `\s`. -/
def isSpace (c : Char) : Bool :=
  let n := c.toNat
  (0x09 ≤ n ∧ n ≤ 0x0D) ∨ (0x1C ≤ n ∧ n ≤ 0x20) ∨ n = 0x85 ∨ n = 0xA0 ∨ n = 0x1680 ∨
    (0x2000 ≤ n ∧ n ≤ 0x200A) ∨ n = 0x2028 ∨ n = 0x2029 ∨ n = 0x202F ∨ n = 0x205F ∨ n = 0x3000

/-- `str.strip`. -/
def strip (line : List Char) : List Char :=
  ((line.dropWhile isSpace).reverse.dropWhile isSpace).reverse

/-- `[A-Z]`. -/
def isUpperLetter (c : Char) : Bool := 'A' ≤ c ∧ c ≤ 'Z'

/-- `[0-7]`. -/
def isOctal (c : Char) : Bool := '0' ≤ c ∧ c ≤ '7'

/-- `[A-Z0-9_]`. -/
def isNameChar (c : Char) : Bool := isUpperLetter c ∨ ('0' ≤ c ∧ c ≤ '9') ∨ c = '_'

/-- `^(P[A-Z][0-7])\s*=\s*([A-Z0-9_]+)`. -/
def matchLine : List Char → Option (PortPinName × FunctionName)
  | 'P' :: port :: pin :: rest =>
    if isUpperLetter port ∧ isOctal pin then
      match rest.dropWhile isSpace with
      | '=' :: rest =>
        let function := (rest.dropWhile isSpace).takeWhile isNameChar
        if function = [] then none else some (⟨'P', port, pin⟩, function)
      | _ => none
    else none
  | _ => none

/-- The lines of a text file, without their ends. A `\r\n` leaves an empty line in between,
which is skipped like any other. -/
def splitLines : List Char → List (List Char)
  | [] => [[]]
  | c :: rest =>
    if c = '\n' ∨ c = '\r' then [] :: splitLines rest
    else match splitLines rest with
      | [] => [[c]]
      | line :: lines => (c :: line) :: lines

/-- `[A-Za-z0-9_]`. -/
def isWordChar (c : Char) : Bool := c.isAlphanum || c = '_'

/-- `PinmuxIdentifier.prefix`, then `.pinmux`. -/
def pinmuxFileName (id : PinmuxIdentifier) : List Char :=
  id.name ++ (match id.type with
    | .board => ".board".toList
    | .soc => ".soc".toList) ++ ".pinmux".toList

/-- `^((\w+)\.(board|soc))?\.pinmux$`. -/
def matchFileName (fileName : List Char) : Bool :=
  fileName = ".pinmux".toList ∨
    (fileName.takeWhile isWordChar ≠ [] ∧
      (fileName.dropWhile isWordChar = ".board.pinmux".toList ∨
        fileName.dropWhile isWordChar = ".soc.pinmux".toList))

section Read

variable (context : PinmuxContext)

/-- One line of `PinmuxData.read`: what is skipped leaves the assignment as it is. -/
def readLine (data : PinmuxData) (line : List Char) : PinmuxData :=
  match matchLine (strip line) with
  | none => data
  | some (name, function) =>
    if ¬ context.Known function then data
    else if function ∈ data.values ∧ context.repeatable function = false then data
    else if context.portEnabled name.port = false then data
    else data.set name function

/-- `PinmuxData.read` on a file's name and content. -/
def readFile (data : PinmuxData) (fileName content : List Char) : PinmuxData :=
  if matchFileName fileName then (splitLines content).foldl (readLine context) data else data

/-- The `.pinmux` files of the project, where they exist. -/
structure ProjectFiles where
  generic : Option (List Char)
  specific : Option (List Char)

/-- `self.project_pinmux`. -/
def projectPinmux (project : ProjectFiles) : PinmuxData :=
  let data := match project.generic with
    | some content => readFile context Dict.empty ".pinmux".toList content
    | none => Dict.empty
  match project.specific with
  | some content =>
    overrideBy context data (readFile context Dict.empty (pinmuxFileName context.id) content)
  | none => data

/-- The assignment of the defaults and the project files. -/
def lowerLayers (project : ProjectFiles) : PinmuxData :=
  overrideBy context (defaultPinmuxData context) (projectPinmux context project)

/-- `current_pinmux` after `PinmuxManager.read`, up to `apply_pinmux`. -/
def currentPinmux (project : ProjectFiles) (build : Option (List Char)) : PinmuxData :=
  match build with
  | some content =>
    overrideBy context (lowerLayers context project)
      (readFile context Dict.empty (pinmuxFileName context.id) content)
  | none => lowerLayers context project

/-- `PinmuxManager.read`. `apply_pinmux` raises on a pin that has no `PinData`. -/
def managerRead (project : ProjectFiles) (build : Option (List Char)) : Option PinmuxData :=
  let current := currentPinmux context project build
  if ∀ entry ∈ current.entries, context.HasPin entry.1 then some current else none

end Read

/-! ### One pin for a function that is not repeatable -/

/-- Every function that is not repeatable is assigned to one pin at most. -/
def Exclusive (context : PinmuxContext) (data : PinmuxData) : Prop :=
  ∀ function, context.repeatable function = false →
    ∀ left right, data.get? left = some function → data.get? right = some function → left = right

variable {context : PinmuxContext}

theorem exclusive_empty : Exclusive context Dict.empty := by
  intro function _ left right hl
  cases hl

/-- A pin may be given a function that can be repeated or that no pin holds. -/
theorem Exclusive.set {data : PinmuxData} (h : Exclusive context data) {name : PortPinName}
    {function : FunctionName}
    (hfree : context.repeatable function = false → ∀ other, data.get? other ≠ some function) :
    Exclusive context (data.set name function) := by
  intro f hf left right hl hr
  rw [Dict.get?_set] at hl hr
  by_cases hleft : name = left <;> by_cases hright : name = right
  · exact hleft.symm.trans hright
  · rw [if_pos hleft, Option.some.injEq] at hl
    rw [if_neg hright] at hr
    subst hl
    exact absurd hr (hfree hf right)
  · rw [if_neg hleft] at hl
    rw [if_pos hright, Option.some.injEq] at hr
    subst hr
    exact absurd hl (hfree hf left)
  · rw [if_neg hleft] at hl
    rw [if_neg hright] at hr
    exact h f hf left right hl hr

theorem Exclusive.foldl_pop {data : PinmuxData} (h : Exclusive context data)
    (names : List PortPinName) : Exclusive context (names.foldl Dict.pop data) := by
  intro f hf left right hl hr
  rw [Dict.get?_foldl_pop] at hl hr
  split at hl
  · cases hl
  · split at hr
    · cases hr
    · exact h f hf left right hl hr

/-- What an entry of a higher layer leaves under a pin. -/
theorem overrideEntry_get? (data : PinmuxData) {entry : PortPinName × FunctionName}
    (hknown : context.Known entry.2) (name : PortPinName) :
    (overrideEntry context data entry).get? name =
      if entry.1 = name then some entry.2
      else if context.repeatable entry.2 = false ∧ data.get? name = some entry.2 then none
      else data.get? name := by
  rw [overrideEntry, if_pos hknown, Dict.get?_set]
  by_cases hname : entry.1 = name
  · rw [if_pos hname, if_pos hname]
  · rw [if_neg hname, if_neg hname]
    by_cases hrep : context.repeatable entry.2 = false
    · by_cases hmem : entry.2 ∈ data.values
      · rw [if_pos ⟨hrep, hmem⟩, Dict.get?_foldl_pop]
        simp only [Dict.mem_holders, hrep, true_and]
      · have hnot : data.get? name ≠ some entry.2 := fun h => hmem (Dict.mem_values.mpr ⟨name, h⟩)
        rw [if_neg (fun h => hmem h.2), if_neg (fun h => hnot h.2)]
    · rw [if_neg (fun h => hrep h.1), if_neg (fun h => hrep h.1)]

theorem Exclusive.overrideEntry {data : PinmuxData} (h : Exclusive context data)
    (entry : PortPinName × FunctionName) :
    Exclusive context (overrideEntry context data entry) := by
  unfold Pinmux.overrideEntry
  split
  · by_cases hclash : context.repeatable entry.2 = false ∧ entry.2 ∈ data.values
    · rw [if_pos hclash]
      refine (h.foldl_pop _).set fun _ other hother => ?_
      rw [Dict.get?_foldl_pop] at hother
      split at hother
      · cases hother
      · next hnot => exact hnot (Dict.mem_holders.mpr hother)
    · rw [if_neg hclash]
      refine h.set fun hrep other hother => hclash ⟨hrep, Dict.mem_values.mpr ⟨other, hother⟩⟩
  · exact h

/-- Merging a layer keeps the lower one exclusive, whatever the higher one holds. -/
theorem Exclusive.overrideBy {data : PinmuxData} (h : Exclusive context data)
    (other : PinmuxData) : Exclusive context (overrideBy context data other) := by
  unfold Pinmux.overrideBy
  generalize other.entries = entries
  induction entries generalizing data with
  | nil => exact h
  | cons entry entries ih => exact ih (h.overrideEntry entry)

/-- A line is skipped where it would repeat a function that must not be repeated. -/
theorem Exclusive.readLine {data : PinmuxData} (h : Exclusive context data) (line : List Char) :
    Exclusive context (readLine context data line) := by
  unfold Pinmux.readLine
  split
  · exact h
  · next name function _ =>
    split
    · exact h
    · split
      · exact h
      · next hnot =>
        split
        · exact h
        · refine h.set fun hrep other hother => ?_
          exact hnot ⟨Dict.mem_values.mpr ⟨other, hother⟩, hrep⟩

theorem Exclusive.readFile {data : PinmuxData} (h : Exclusive context data)
    (fileName content : List Char) : Exclusive context (readFile context data fileName content) := by
  unfold Pinmux.readFile
  split
  · generalize splitLines content = lines
    induction lines generalizing data with
    | nil => exact h
    | cons line lines ih => exact ih (h.readLine line)
  · exact h

/-- While the defaults are collected, every pin taken so far holds a function whose turn has
come, so a function is never met a second time. -/
theorem defaults_exclusive {functions : List (FunctionName × PinmuxFunction)} {data : PinmuxData}
    (hnodup : (functions.map Prod.fst).Nodup) (h : Exclusive context data)
    (hnew : ∀ function ∈ functions.map Prod.fst, ∀ name, data.get? name ≠ some function) :
    Exclusive context (functions.foldl (defaultEntry context) data) := by
  induction functions generalizing data with
  | nil => exact h
  | cons entry functions ih =>
    rw [List.map_cons, List.nodup_cons] at hnodup
    have hrest : ∀ function ∈ functions.map Prod.fst, ∀ name, data.get? name ≠ some function :=
      fun function hmem => hnew function (List.mem_cons_of_mem _ hmem)
    rw [List.foldl_cons]
    unfold defaultEntry
    split
    · next name _ =>
      split
      · refine ih hnodup.2 (h.set fun _ => hnew entry.1 List.mem_cons_self) ?_
        intro function hmem other hother
        rw [Dict.get?_set] at hother
        split at hother
        · rw [Option.some.injEq] at hother
          exact hnodup.1 (hother ▸ hmem)
        · exact hrest function hmem other hother
      · exact ih hnodup.2 h hrest
    · exact ih hnodup.2 h hrest

theorem defaultPinmuxData_exclusive (context : PinmuxContext) :
    Exclusive context (defaultPinmuxData context) :=
  defaults_exclusive context.functions.nodup exclusive_empty (fun _ _ _ h => nomatch h)

theorem lowerLayers_exclusive (context : PinmuxContext) (project : ProjectFiles) :
    Exclusive context (lowerLayers context project) :=
  (defaultPinmuxData_exclusive context).overrideBy _

/-- **Loading never creates a conflict**, whatever the four layers contain: neither in the
assignment that is built nor in the one a completed `read` leaves. -/
theorem currentPinmux_exclusive (context : PinmuxContext) (project : ProjectFiles)
    (build : Option (List Char)) :
    Exclusive context (currentPinmux context project build) ∧
      ∀ current, managerRead context project build = some current →
        Exclusive context current := by
  have hcurrent : Exclusive context (currentPinmux context project build) := by
    cases build with
    | none => exact lowerLayers_exclusive context project
    | some content => exact (lowerLayers_exclusive context project).overrideBy _
  refine ⟨hcurrent, fun current hread => ?_⟩
  unfold managerRead at hread
  dsimp only at hread
  split at hread
  · exact Option.some.inj hread ▸ hcurrent
  · cases hread

end UniSdk.Scripts.Pinmux

import UniSdk.Scripts.ConfigReader
import UniSdk.Scripts.Pinmux
import Mathlib.Data.Finset.Basic

/-!
# Reading a pinmux context

`PinmuxContext` is filled in three steps: the identifier from the chip configuration, the functions
from `function.yaml` and the ports from `pinmux.yaml`. Each step is what it enters, in its order,
whatever was there before.
-/

namespace UniSdk.Scripts.PinmuxRead

open UniSdk.Library
open UniSdk.Scripts.Pinmux (FunctionName PinmuxType)
open UniSdk.Scripts.ConfigReader (Value)

/-! ### YAML -/

/-- A value that `yaml.safe_load` returns. Numbers, booleans and dates come with their truth and
what `str` makes of them. -/
inductive Yaml
  | null
  | str (text : List Char)
  | scalar (truth : Bool) (text : List Char)
  | list (items : List Yaml)
  | dict (entries : List (Yaml × Yaml))

abbrev YamlDict := List (Yaml × Yaml)

def Yaml.truth : Yaml → Bool
  | null => false
  | str text => text ≠ []
  | scalar truth _ => truth
  | list items => !items.isEmpty
  | dict entries => !entries.isEmpty

def Yaml.asDict : Yaml → Option YamlDict
  | dict entries => some entries
  | _ => none

/-- The value is the given string. -/
def Yaml.isText (value : Yaml) (text : List Char) : Bool :=
  match value with
  | str other => other = text
  | _ => false

/-- `entries.get(key)` for a string. -/
def YamlDict.get (entries : YamlDict) (key : List Char) : Option Yaml :=
  (entries.find? fun entry => entry.1.isText key).map Prod.snd

/-- `data.get("pinmux", {}).get(key, {})`; `none` where it raises. -/
def YamlDict.nested (data : YamlDict) (key : List Char) : Option Yaml :=
  (((YamlDict.get data "pinmux".toList).getD (.dict [])).asDict).map
    fun entries => (YamlDict.get entries key).getD (.dict [])

/-- What the code uses of Python and of benedict: `str` of a list or a dict, the case mappings, and
`merge`, which is `none` where it raises. -/
structure Runtime where
  strOf : Yaml → List Char
  upper : List Char → List Char
  lower : List Char → List Char
  merge : YamlDict → YamlDict → Option YamlDict

/-- `str(value)`. -/
def Runtime.str (runtime : Runtime) : Yaml → List Char
  | .null => "None".toList
  | .str text => text
  | .scalar _ text => text
  | value => runtime.strOf value

/-! ### The data -/

/-- What one context object is created with: the configurations, and the YAML file under a path
below `packages`, which is empty where it cannot be read. -/
structure Source where
  chipConfig : Dict (List Char) Value
  buildConfig : Dict (List Char) Value
  yaml : List (List Char) → YamlDict

/-- `PinmuxIdentifier`. -/
structure Identifier where
  case : Value
  board : Option Value
  soc : Value
  socSeries : Value
  core : Value
  deriving DecidableEq

/-- `PinmuxIdentifier.type`. -/
def Identifier.type (id : Identifier) : PinmuxType := if id.board.isSome then .board else .soc

/-- `PinmuxFunction`, with the values as the file has them. -/
structure FunctionData where
  regValue : Yaml
  dependsOn : Yaml
  default : Option (List Char)
  optional : Yaml
  repeatable : Yaml

structure PinData where
  supportedFunctions : Finset FunctionName

structure PortData where
  disabled : Bool
  pins : Dict (List Char) PinData

/-! ### The identifier -/

/-- `if not value`. -/
def valueTruth : Value → Bool
  | .bool b => b
  | .int n => n ≠ 0
  | .str text => text ≠ []

/-- `configs.get(key, default)`, used as a condition. -/
def enabled (configs : Dict (List Char) Value) (key : List Char) : Bool :=
  match configs.get? key with
  | some value => valueTruth value
  | none => false

def emptyText : Value := .str []

/-- `PinmuxContext.read_id`: it returns at the first value that is missing. -/
def readId (source : Source) (id : Identifier) : Identifier :=
  let config key := (source.chipConfig.get? key).getD emptyText
  let id := if enabled source.chipConfig "TLK_BOARD_IS_SELECTED".toList then
    { id with board := source.chipConfig.get? "TLK_BOARD".toList } else id
  let id := { id with socSeries := config "TLK_SOC_SERIES".toList }
  if valueTruth id.socSeries = false then id
  else
    let id := { id with core := config "TLK_CORE".toList }
    if valueTruth id.core = false then id
    else
      let id := { id with soc := config "TLK_SOC".toList }
      if valueTruth id.soc = false then id
      else { id with case := config "TLK_CASE".toList }

/-- A part of a path; `none` where joining it raises. -/
def pathPart : Value → Option (List Char)
  | .str text => some text
  | _ => none

/-- `soc_pinmux_dir`. -/
def socPinmuxDir (id : Identifier) : Option (List (List Char)) :=
  match pathPart id.core, pathPart id.socSeries with
  | some core, some socSeries => some [core, "soc".toList, socSeries, "pinmux".toList]
  | _, _ => none

/-- `board_pinmux_dir` where a board is selected. -/
def boardPinmuxDir (id : Identifier) (board : Value) : Option (List (List Char)) :=
  match pathPart id.core, pathPart board with
  | some core, some board => some [core, "boards".toList, board, "pinmux".toList]
  | _, _ => none

/-! ### The functions -/

section Functions

variable (runtime : Runtime) (source : Source)

/-- `self.build_config.configs.get(function.depends_on, None)` as a condition; `none` where the key
cannot be hashed. -/
def dependsOnEnabled : Yaml → Option Bool
  | .str key => some (enabled source.buildConfig key)
  | .null => some false
  | .scalar _ _ => some false
  | _ => none

/-- The attributes of one function. -/
def functionData (fields : YamlDict) : FunctionData where
  regValue := (YamlDict.get fields "reg_value".toList).getD .null
  dependsOn := (YamlDict.get fields "depends_on".toList).getD (.str "GPIO".toList)
  default := match YamlDict.get fields "default".toList with
    | none => none
    | some .null => none
    | some value => some (runtime.str value)
  optional := (YamlDict.get fields "optional".toList).getD (.scalar false "False".toList)
  repeatable := (YamlDict.get fields "repeatable".toList).getD (.scalar false "False".toList)

/-- The loop over one group: the entries it makes, and whether it ends without raising. -/
def readGroup (group : Yaml) : YamlDict → List (FunctionName × FunctionData) × Bool
  | [] => ([], true)
  | (subname, data) :: rest =>
    match data.asDict with
    | none => ([], false)
    | some fields =>
      let function := functionData runtime fields
      match dependsOnEnabled source function.dependsOn with
      | none => ([], false)
      | some false => readGroup group rest
      | some true =>
        let name := runtime.upper (runtime.str group ++ '_' :: runtime.str subname)
        let (entries, finished) := readGroup group rest
        ((name, function) :: entries, finished)

/-- The loop over the groups. -/
def readGroups : YamlDict → List (FunctionName × FunctionData) × Bool
  | [] => ([], true)
  | (group, functions) :: rest =>
    match functions.asDict with
    | none => ([], false)
    | some functions =>
      let (entries, finished) := readGroup runtime source group functions
      if finished then
        let (others, finished) := readGroups rest
        (entries ++ others, finished)
      else (entries, false)

/-- The functions of the series, with those of the board merged in; `none` where it raises. -/
def functionYaml (id : Identifier) : Option YamlDict :=
  match socPinmuxDir id with
  | none => none
  | some dir =>
    let yaml := source.yaml (dir ++ ["function.yaml".toList])
    match id.board with
    | none => some yaml
    | some board =>
      match boardPinmuxDir id board with
      | none => none
      | some dir => runtime.merge yaml (source.yaml (dir ++ ["function.yaml".toList]))

/-- `PinmuxContext.read_functions`, as the entries that it makes. -/
def readFunctions (id : Identifier) : List (FunctionName × FunctionData) × Bool :=
  match (functionYaml runtime source id).bind fun yaml =>
      YamlDict.nested yaml "function".toList with
  | none => ([], false)
  | some nested =>
    if nested.truth = false then ([], true)
    else match nested.asDict with
      | none => ([], false)
      | some groups => readGroups runtime source groups

end Functions

/-! ### The ports -/

section Ports

variable (runtime : Runtime) (source : Source) (functionNames : Finset FunctionName)

def listify : Option Yaml → List (List Char)
  | none => []
  | some .null => []
  | some (.str text) => [text]
  | some (.list items) => items.map runtime.str
  | some value => [runtime.str value]

/-- `get_functions_starting_with`. -/
def functionsStartingWith (parts : List (List Char)) : Finset FunctionName :=
  functionNames.filter fun function => parts.any fun part => (runtime.upper part).isPrefixOf function

/-- `port_functions`. -/
def portFunctions (portEntry : YamlDict) : Finset FunctionName :=
  let portEx := listify runtime (YamlDict.get portEntry "exclude".toList)
  if portEx.contains "all".toList then ∅
  else functionNames \ functionsStartingWith runtime functionNames portEx

/-- `pin_functions`; `none` where the entry is skipped. -/
def pinFunctions (ofPort : Finset FunctionName) (pinEntry : Yaml) : Option (Finset FunctionName) :=
  match pinEntry with
  | .null => some ofPort
  | .dict fields =>
    let pinEx := listify runtime (YamlDict.get fields "exclude".toList)
    let pinIn := listify runtime (YamlDict.get fields "include".toList)
    let functions := if pinEx.contains "all".toList then ∅
      else ofPort \ functionsStartingWith runtime functionNames pinEx
    some (if pinIn.contains "all".toList then functionNames
      else functions ∪ functionsStartingWith runtime functionNames pinIn)
  | _ => none

/-- One pin of a port. -/
def readPin (ofPort : Finset FunctionName) (pins : Dict (List Char) PinData)
    (entry : Yaml × Yaml) : Dict (List Char) PinData :=
  match entry.1 with
  | .str ['p', c] =>
    if entry.2.isText "delete".toList then pins
    else match pinFunctions runtime functionNames ofPort entry.2 with
      | none => pins
      | some functions => pins.set (runtime.upper [c]) ⟨functions⟩
  | _ => pins

/-- One port; `none` where it is skipped or has no pins. -/
def readPort (entry : Yaml × Yaml) : Option (List Char × PortData) :=
  match entry.1 with
  | .str ['p', c] =>
    if entry.2.isText "delete".toList then none
    else match entry.2.asDict with
      | none => none
      | some portEntry =>
        let name := runtime.upper [c]
        let disabled := !enabled source.buildConfig ("TLK_GPIO_PORT_".toList ++ name)
        match ((YamlDict.get portEntry "pins".toList).getD (.dict [])).asDict with
        | none => none
        | some entries =>
          let pins := entries.foldl
            (readPin runtime functionNames (portFunctions runtime functionNames portEntry))
            Dict.empty
          if pins.entries.isEmpty then none else some (name, ⟨disabled, pins⟩)
  | _ => none

/-- The ports of the series with those of the case merged in: what the loop goes over, or where
there is no loop whether the function returns. -/
def portYaml (id : Identifier) : Except Bool YamlDict :=
  match socPinmuxDir id with
  | none => .error false
  | some dir =>
    match YamlDict.nested (source.yaml (dir ++ ["pinmux.yaml".toList])) "port".toList with
    | none => .error false
    | some (.dict ports) =>
      match pathPart id.case with
      | none => .error false
      | some case =>
        let file := "pinmux_".toList ++ runtime.lower case ++ ".yaml".toList
        match YamlDict.nested (source.yaml (dir ++ [file])) "port".toList with
        | none => .error false
        | some (.dict portsOverride) =>
          if portsOverride.isEmpty then .ok ports
          else match runtime.merge ports portsOverride with
            | none => .error false
            | some ports => .ok ports
        | some _ => .ok ports
    | some _ => .error true

/-- `PinmuxContext.read_ports`, as the entries that it makes. -/
def readPorts (id : Identifier) : List (List Char × PortData) × Bool :=
  match portYaml runtime source id with
  | .error finished => ([], finished)
  | .ok ports => (ports.filterMap (readPort runtime source functionNames), true)

end Ports

end UniSdk.Scripts.PinmuxRead

import UniSdk.Library.Text
import UniSdk.Scripts.Pinmux
import Mathlib

/-!
# The target of `chip_config_gen.py`

The script resolves three optional requests against a Kconfig tree and an existing chip.config.
The tree is kconfiglib's: for a symbol it gives the items of its dependency expressions, of its
choice's and of their menu nodes', in the order in which they are iterated. The rule of the
header is stated on the names that chip.config enables, read off the lines without the pattern
of the script, and on the SoC and the series a symbol depends on.
-/

namespace UniSdk.Scripts.ChipConfig

open UniSdk.Library.Text (afterLead)
open UniSdk.Scripts.Pinmux (strip splitLines)

abbrev Name := List Char

/-! ### The Kconfig tree -/

/-- `kconfiglib.Symbol`, by its name. A quoted value in an expression is a constant symbol. -/
structure Symbol where
  name : Name
  isConstant : Bool
  deriving DecidableEq, Repr

/-- An item of an expression: a symbol or a choice. -/
inductive Item
  | symbol (sym : Symbol)
  | choice
  deriving DecidableEq

structure Choice where
  directDep : List Item
  nodes : List (List Item)

/-- What the script asks of `kconfiglib.Kconfig`. An expression is given by its items. -/
structure Kconf where
  syms : Name → Option Symbol
  name_of_syms : ∀ name sym, syms name = some sym → sym.name = name
  directDep : Symbol → List Item
  choice : Symbol → Option Choice
  nodes : Symbol → List (List Item)

/-- `str.upper`: what it returns has no lower-case letter. -/
structure Upper where
  apply : Name → Name
  no_lower : ∀ text, ∀ c ∈ apply text, c.isLower = false

section Script

variable (kconf : Kconf) (upper : Upper)

/-- `deps` of `get_parent`. -/
def deps (sym : Symbol) : List Item :=
  let items := kconf.directDep sym
  let items := match kconf.choice sym with
    | some choice => items ++ choice.directDep ++ choice.nodes.flatten
    | none => items
  items ++ (kconf.nodes sym).flatten

/-- The symbols among the items. -/
def symbols (items : List Item) : List Symbol :=
  items.filterMap (fun item => match item with
    | .symbol sym => some sym
    | .choice => none)

/-- `get_parent`. -/
def getParent (sym : Symbol) (lead : String) : Option Symbol :=
  (symbols (deps kconf sym)).find? (fun item => item.name ≠ [] ∧ lead.toList.isPrefixOf item.name)

/-! ### chip.config -/

/-- `_KEY_BY_PREFIX`: the alternatives of `_ENABLED_RE` and the keys they stand for. -/
inductive Family
  | series
  | soc
  | board
  deriving DecidableEq

def Family.lead : Family → Name
  | .series => "SOC_SERIES_".toList
  | .soc => "SOC_".toList
  | .board => "BOARD_".toList

/-- The text before a final `=y`. -/
def beforeYes (text : Name) : Option Name :=
  match text.reverse with
  | 'y' :: '=' :: rest => some rest.reverse
  | _ => none

/-- `_ENABLED_RE.match`: the alternatives are tried in their order. -/
def matchEnabled (line : Name) : Option (Family × Name) :=
  (afterLead "CONFIG_TLK_".toList line).bind fun rest =>
    [Family.series, .soc, .board].findSome? fun family =>
      (((afterLead family.lead rest).bind beforeYes).filter (· ≠ [])).map (Prod.mk family)

structure Current where
  series : Option Name
  soc : Option Name
  board : Option Name
  deriving DecidableEq

/-- `curr[_KEY_BY_PREFIX[prefix]] = name`. -/
def Current.set (curr : Current) (family : Family) (name : Name) : Current :=
  match family with
  | .series => { curr with series := some name }
  | .soc => { curr with soc := some name }
  | .board => { curr with board := some name }

/-- One line in `read_current_config`. -/
def readLine (curr : Current) (line : Name) : Current :=
  match matchEnabled (strip line) with
  | some (family, name) => curr.set family name
  | none => curr

/-- `read_current_config`; `none` where the file does not exist. -/
def readCurrentConfig (config : Option Name) : Current :=
  match config with
  | none => ⟨none, none, none⟩
  | some text => (splitLines text).foldl readLine ⟨none, none, none⟩

/-! ### The script -/

/-- The options, as they were given. -/
structure Args where
  socSeries : Option Name
  soc : Option Name
  board : Option Name

/-- An option in an f-string. -/
def shown (name : Option Name) : String := String.ofList (name.getD "None".toList)

/-- `lookup_symbol`. -/
def lookupSymbol (lead : String) (name : Option Name) (label : String) :
    Except String (Option Symbol) :=
  match name with
  | none => .ok none
  | some name =>
    if name = [] then .ok none
    else match kconf.syms (lead.toList ++ upper.apply name) with
      | some sym => .ok (some sym)
      | none => .error ("Error: Unknown " ++ label ++ " '" ++ String.ofList name ++ "'")

/-- `req_series`, `req_soc` and `req_board`. -/
structure Request where
  series : Option Symbol
  soc : Option Symbol
  board : Option Symbol

/-- The three lookups of `main`. -/
def requested (args : Args) : Except String Request := do
  let series ← lookupSymbol kconf upper "TLK_SOC_SERIES_" args.socSeries "SOC_SERIES"
  let soc ← lookupSymbol kconf upper "TLK_SOC_" args.soc "SOC"
  let board ← lookupSymbol kconf upper "TLK_BOARD_" args.board "BOARD"
  return ⟨series, soc, board⟩

/-- What is selected before chip.config is written. -/
structure Target where
  series : Option Symbol
  soc : Option Symbol
  board : Option Symbol
  deriving DecidableEq

/-- `f"{lead}{name}"`, where `name` may be `None`. -/
def fullName (lead : String) (name : Option Name) : Name :=
  lead.toList ++ name.getD "None".toList

/-- `changed`. -/
def changed (configExists : Bool) (curr : Current) (req : Request) : Bool :=
  configExists &&
    ((match req.soc with
      | some soc => soc.name ≠ fullName "TLK_SOC_" curr.soc
      | none => false) ||
    (match req.series with
      | some series => series.name ≠ fullName "TLK_SOC_SERIES_" curr.series
      | none => false))

/-- `kconf.syms.get(f"{lead}{name}") if name else None`. -/
def currentSymbol (lead : String) (name : Option Name) : Option Symbol :=
  name.bind (fun name => if name = [] then none else kconf.syms (lead.toList ++ name))

/-- `target_board` without `--board`. -/
def keptBoard (configExists : Bool) (curr : Current) (req : Request) : Option Symbol :=
  if configExists && !changed configExists curr req then
    currentSymbol kconf "TLK_BOARD_" curr.board
  else none

/-- `main` from the lookups to the selection. -/
def resolve (args : Args) (configExists : Bool) (curr : Current) (req : Request) :
    Except String Target :=
  match req.board with
  | some board =>
    let boardSoc := getParent kconf board "TLK_SOC_"
    let boardSeries := boardSoc.bind (getParent kconf · "TLK_SOC_SERIES_")
    if req.soc.isSome ∧ boardSoc ≠ req.soc then
      .error ("Error: BOARD '" ++ shown args.board ++ "' is incompatible with SOC '" ++
        shown args.soc ++ "'")
    else if req.series.isSome ∧ boardSeries ≠ req.series then
      .error ("Error: BOARD '" ++ shown args.board ++ "' is incompatible with SOC_SERIES '" ++
        shown args.socSeries ++ "'")
    else .ok ⟨boardSeries, boardSoc, some board⟩
  | none =>
    let kept := keptBoard kconf configExists curr req
    match req.soc with
    | some soc =>
      let socSeries := getParent kconf soc "TLK_SOC_SERIES_"
      if req.series.isSome ∧ socSeries ≠ req.series then
        .error ("Error: SOC '" ++ shown args.soc ++ "' is incompatible with SOC_SERIES '" ++
          shown args.socSeries ++ "'")
      else .ok ⟨socSeries.or req.series, some soc, kept⟩
    | none =>
      match req.series with
      | some series => .ok ⟨some series, none, kept⟩
      | none =>
        .ok ⟨currentSymbol kconf "TLK_SOC_SERIES_" curr.series,
          currentSymbol kconf "TLK_SOC_" curr.soc, kept⟩

/-- `main`, up to the calls of `select`. -/
def main (args : Args) (config : Option Name) : Except String Target := do
  let req ← requested kconf upper args
  resolve kconf args config.isSome (readCurrentConfig config) req

end Script

/-! ### What the header documents -/

/-- `lead*`, where the star stands for something. -/
def Within (lead : String) (name : Name) : Bool :=
  lead.toList.isPrefixOf name && name ≠ lead.toList

def isSeries (name : Name) : Bool := Within "TLK_SOC_SERIES_" name

def isSoc (name : Name) : Bool := Within "TLK_SOC_" name && !isSeries name

def isBoard (name : Name) : Bool :=
  Within "TLK_BOARD_" name && name ≠ "TLK_BOARD_IS_SELECTED".toList

/-- The symbol that a line `CONFIG_<name>=y` enables. -/
def enabledName (line : Name) : Option Name := (afterLead "CONFIG_".toList line).bind beforeYes

/-- The symbols that chip.config enables, in the order of its lines. -/
def enabledNames (text : Name) : List Name :=
  (splitLines text).filterMap (fun line => enabledName (strip line))

/-- The enabled symbol of a kind. A choice enables one member at most; of several lines
kconfiglib takes the last. -/
def enabled (kind : Name → Bool) (text : Name) : Option Name :=
  ((enabledNames text).filter kind).getLast?

def currentSeries (text : Name) : Option Name := enabled isSeries text

def currentSoc (text : Name) : Option Name := enabled isSoc text

def currentBoard (text : Name) : Option Name := enabled isBoard text

section Documented

variable (kconf : Kconf)

/-- The SoC a board depends on: a board depends on exactly one. -/
def ownSoc (board : Symbol) : Option Symbol :=
  (symbols (deps kconf board)).find? (fun item =>
    "TLK_SOC_".toList.isPrefixOf item.name && !"TLK_SOC_SERIES_".toList.isPrefixOf item.name)

/-- The series a SoC depends on. -/
def ownSeries (soc : Symbol) : Option Symbol :=
  (symbols (deps kconf soc)).find? (fun item => "TLK_SOC_SERIES_".toList.isPrefixOf item.name)

/-- The requested SoC and series, where given, are the SoC `soc` and its series. -/
def FitsChip (soc : Option Symbol) (req : Request) : Prop :=
  (∀ sym ∈ req.soc, soc = some sym) ∧ ∀ sym ∈ req.series, soc.bind (ownSeries kconf) = some sym

/-- What is given besides the board, or besides the SoC, agrees with its own. -/
def Compatible (req : Request) : Prop :=
  match req.board, req.soc with
  | some board, _ => FitsChip kconf (ownSoc kconf board) req
  | none, some soc => ∀ series ∈ req.series, ownSeries kconf soc = some series
  | none, none => True

/-- The series and the SoC, in the order of priority of the header. -/
def ruleChip (text : Name) (req : Request) : Option Symbol × Option Symbol :=
  match req.board, req.soc, req.series with
  | some board, _, _ => ((ownSoc kconf board).bind (ownSeries kconf), ownSoc kconf board)
  | none, some soc, _ => (ownSeries kconf soc, some soc)
  | none, none, some series => (some series, none)
  | none, none, none => ((currentSeries text).bind kconf.syms, (currentSoc text).bind kconf.syms)

/-- The current board stays exactly when the series and the SoC are the ones in chip.config. -/
def rule (text : Name) (req : Request) : Target :=
  let chip := ruleChip kconf text req
  { series := chip.1
    soc := chip.2
    board := match req.board with
      | some board => some board
      | none =>
        if chip.1.map Symbol.name = currentSeries text ∧
            chip.2.map Symbol.name = currentSoc text then
          (currentBoard text).bind kconf.syms
        else none }

/-- The outcome is the target of the rule, or an error for a request that does not fit. -/
def Documented (text : Name) (req : Request) (outcome : Except String Target) : Prop :=
  match outcome with
  | .ok target => Compatible kconf req ∧ target = rule kconf text req
  | .error _ => ¬ Compatible kconf req

/-! ### When the script follows the rule -/

/-- The first symbol with the lead of a SoC that the board depends on, where it is a series. -/
def seriesInFront (board : Symbol) : Option Symbol :=
  ((symbols (deps kconf board)).find? (fun item => "TLK_SOC_".toList.isPrefixOf item.name)).filter
    (fun item => "TLK_SOC_SERIES_".toList.isPrefixOf item.name)

/-- The last enabled symbol with the lead of a board. -/
def lastBoardLine (text : Name) : Option Name := enabled (Within "TLK_BOARD_") text

/-- Every requested value is the one in chip.config. -/
def Repeats (text : Name) (req : Request) : Prop :=
  (∀ soc ∈ req.soc, currentSoc text = some soc.name) ∧
    ∀ series ∈ req.series, currentSeries text = some series.name

/-- What is not requested is the one in chip.config too: the series of a requested SoC, no SoC
for a series alone, and with no request the current symbols, which the tree has to know. -/
def Settled (text : Name) (req : Request) : Prop :=
  match req.soc, req.series with
  | some soc, _ => (ownSeries kconf soc).map Symbol.name = currentSeries text
  | none, some _ => currentSoc text = none
  | none, none => (∀ name ∈ currentSeries text, (kconf.syms name).isSome) ∧
      ∀ name ∈ currentSoc text, (kconf.syms name).isSome

def HoldsWhen (text : Name) (req : Request) : Prop :=
  match req.board with
  | some board => match seriesInFront kconf board with
    | none => True
    | some series => ¬ Compatible kconf req ∧ ¬ FitsChip kconf (some series) req
  | none => Compatible kconf req → Repeats text req →
      (Settled kconf text req ∧ lastBoardLine text ≠ some "TLK_BOARD_IS_SELECTED".toList) ∨
        ((lastBoardLine text).bind kconf.syms = none ∧
          (Settled kconf text req → (currentBoard text).bind kconf.syms = none))

end Documented

end UniSdk.Scripts.ChipConfig

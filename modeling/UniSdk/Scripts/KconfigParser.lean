import UniSdk.Library.Text
import Mathlib.Data.List.Nodup

/-!
# Boards and SoCs of `kconfig_parser.py`

`KconfigParser` collects, for every SoC and board symbol, the symbols its dependency mentions
and the symbols it selects, and decides from that list whether a board supports a SoC. An
expression is the one kconfiglib builds: a symbol, or a tuple of an operator and one or two
operands. `_extract_symbols_from_expr` replaces a tuple by its second element, so all it ever
sees is the first operand; the specification below it is the set of all names that occur.
-/

namespace UniSdk.Scripts.KconfigParser

open UniSdk.Library.Text

/-- The operators of kconfiglib. -/
inductive Op where
  | and | or | not | equal | unequal | less | lessEqual | greater | greaterEqual
  deriving DecidableEq, Repr

/-- An expression: a symbol, `(op, operand)` or `(op, operand, operand)`. -/
inductive Expr where
  | symbol (name : String)
  | unary (op : Op) (operand : Expr)
  | binary (op : Op) (left right : Expr)
  deriving DecidableEq, Repr

/-- `_extract_symbols_from_expr`. A tuple has no `name`, `left`, `right` or `items`: where
`expr[1]` is one again, no branch of the source applies. -/
def extractSymbolsFromExpr (expr : Expr) : List String :=
  let inner : Expr := match expr with
    | .symbol name => .symbol name
    | .unary _ operand => operand
    | .binary _ left _ => left
  match inner with
  | .symbol name => [name]
  | .unary _ _ => []
  | .binary _ _ _ => []

/-- An item of `selects`: the symbol it names and its printed form. -/
structure Select where
  target : String
  shown : String

/-- A menu node: its prompt's text, where it has a prompt, and the file that defines it. -/
structure MenuNode where
  prompt : Option String
  filename : String

structure Symbol where
  name : String
  isBool : Bool
  nodes : List MenuNode
  directDep : Expr
  selects : List Select

/-- `kconf.syms`: a dictionary, so no name occurs twice. -/
structure Kconf where
  syms : List Symbol
  nodup : (syms.map Symbol.name).Nodup

/-- `_is_soc_config`. -/
def isSocConfig (symbol : Symbol) : Bool :=
  startsWith symbol.name "TLK_SOC_" && !startsWith symbol.name "TLK_SOC_SERIES_" && symbol.isBool

/-- `_get_prompt`: the first prompt of its nodes. -/
def getPrompt (symbol : Symbol) : String := (symbol.nodes.findSome? MenuNode.prompt).getD ""

/-- The directory after `soc` in a path that is cut at its slashes. -/
def seriesOfParts : List String → Option String
  | part :: seriesDir :: rest =>
    if part = "soc" ∧ startsWith seriesDir "TL" then some ("TLK_SOC_SERIES_" ++ seriesDir)
    else seriesOfParts (seriesDir :: rest)
  | _ => none

/-- `_get_soc_series_dependency`. A menu node has no attribute `if`, so the walk up its parents
finds nothing and the path of the first node decides. -/
def getSocSeriesDependency (symbol : Symbol) : Option String :=
  match symbol.nodes with
  | [] => none
  | node :: _ =>
    if contains node.filename "soc" then
      seriesOfParts ((node.filename.replace "\\" "/").splitOn "/")
    else none

/-- `_get_dependencies`. -/
def getDependencies (symbol : Symbol) : List String :=
  let deps := extractSymbolsFromExpr symbol.directDep
  let deps := deps ++ symbol.selects.map Select.target
  let deps := if isSocConfig symbol then deps ++ (getSocSeriesDependency symbol).toList else deps
  deps.filter (fun dep => dep ≠ "" ∧ dep ≠ "TLK_BOARD_IS_SELECTED")

/-- `_is_board_config`. -/
def isBoardConfig (symbol : Symbol) : Bool :=
  if !startsWith symbol.name "TLK_BOARD_" || !symbol.isBool || getPrompt symbol == "" then false
  else
    let hasSocDep := (getDependencies symbol).any (fun dep => startsWith dep "TLK_SOC_")
    let hasBoardSelect :=
      symbol.selects.any (fun item => contains item.shown "TLK_BOARD_IS_SELECTED")
    hasSocDep || hasBoardSelect

/-- The symbols `_parse_symbols` does not skip. -/
def parsed (kconf : Kconf) : List Symbol :=
  kconf.syms.filter
    (fun symbol => !(startsWith symbol.name "_" || startsWith symbol.name "MODULE_"))

/-- `self.socs`, its keys. -/
def socs (kconf : Kconf) : List String :=
  ((parsed kconf).filter isSocConfig).map Symbol.name

/-- `self.boards`, the symbols behind its entries. -/
def boards (kconf : Kconf) : List Symbol :=
  (parsed kconf).filter (fun symbol => !isSocConfig symbol && isBoardConfig symbol)

/-- `self.boards[name]['depends_on']`, where the key is there. -/
def boardDependsOn (kconf : Kconf) (name : String) : Option (List String) :=
  ((boards kconf).find? (fun symbol => symbol.name == name)).map getDependencies

/-- `validate_soc_board_combination`. A name that is empty or `None` is not looked up. -/
def validateSocBoardCombination (kconf : Kconf) (socName boardName : String) : Bool × String :=
  let socConfigName := "TLK_SOC_" ++ socName
  let boardConfigName := "TLK_BOARD_" ++ boardName
  if socName ≠ "" ∧ socConfigName ∉ socs kconf then (false, "SOC not found: " ++ socName)
  else if boardName = "" then (true, "")
  else match boardDependsOn kconf boardConfigName with
    | none => (false, "BOARD not found: " ++ boardName)
    | some boardDeps =>
      if socName ≠ "" ∧ socConfigName ∉ boardDeps then
        let supportedSocs := (boardDeps.filter (fun dep => startsWith dep "TLK_SOC_")).map
          (fun dep => dep.replace "TLK_SOC_" "")
        if supportedSocs ≠ [] then
          (false, "BOARD " ++ boardName ++ " does not support SOC " ++ socName ++
            ", supported SOCs: " ++ String.intercalate ", " supportedSocs)
        else (false, "BOARD " ++ boardName ++ " does not depend on any SOC configuration")
      else (true, "")

/-! ### What the extraction finds -/

/-- The names of all symbols that occur in an expression. -/
def Expr.names : Expr → List String
  | .symbol name => [name]
  | .unary _ operand => operand.names
  | .binary _ left right => left.names ++ right.names

/-- The expression is the symbol, or a tuple whose first operand is it. -/
def Expr.LedBy (expr : Expr) (name : String) : Prop :=
  expr = .symbol name ∨ (∃ op, expr = .unary op (.symbol name)) ∨
    ∃ op right, expr = .binary op (.symbol name) right

theorem mem_extract_iff {expr : Expr} {name : String} :
    name ∈ extractSymbolsFromExpr expr ↔ expr.LedBy name := by
  unfold Expr.LedBy
  cases expr with
  | symbol other => simp [extractSymbolsFromExpr, eq_comm]
  | unary op operand => cases operand <;> simp [extractSymbolsFromExpr, eq_comm]
  | binary op left right => cases left <;> simp [extractSymbolsFromExpr, eq_comm]

theorem Expr.LedBy.mem_names {expr : Expr} {name : String} (h : expr.LedBy name) :
    name ∈ expr.names := by
  rcases h with rfl | ⟨op, rfl⟩ | ⟨op, right, rfl⟩ <;> simp [Expr.names]

/-- Every expression mentions a symbol. -/
theorem Expr.names_ne_nil (expr : Expr) : expr.names ≠ [] := by
  induction expr with
  | symbol name => simp [Expr.names]
  | unary op operand ih => exact ih
  | binary op left right ihl ihr => simp [Expr.names, ihl]

/-- The extraction finds exactly the names that occur. -/
def ExtractsAll (expr : Expr) : Prop :=
  ∀ name, name ∈ extractSymbolsFromExpr expr ↔ name ∈ expr.names

/-- Some symbol leads the expression and no other name occurs in it. -/
def Expr.OneName (expr : Expr) : Prop :=
  ∃ name, expr.LedBy name ∧ ∀ other ∈ expr.names, other = name

/-- A tuple is searched for one symbol only, so two names are never both found. -/
theorem Expr.LedBy.unique {expr : Expr} {left right : String} (hl : expr.LedBy left)
    (hr : expr.LedBy right) : left = right := by
  rcases hl with rfl | ⟨op, rfl⟩ | ⟨op, rest, rfl⟩ <;> simpa [Expr.LedBy] using hr

theorem extractsAll_iff (expr : Expr) : ExtractsAll expr ↔ expr.OneName := by
  constructor
  · intro h
    obtain ⟨name, hname⟩ := List.exists_mem_of_ne_nil _ expr.names_ne_nil
    have hled := mem_extract_iff.mp ((h name).mpr hname)
    refine ⟨name, hled, fun other hother => ?_⟩
    exact (mem_extract_iff.mp ((h other).mpr hother)).unique hled
  · rintro ⟨name, hled, honly⟩ other
    rw [mem_extract_iff]
    refine ⟨Expr.LedBy.mem_names, fun hother => ?_⟩
    rw [honly other hother]
    exact hled

/-! ### What the validation accepts -/

/-- A SoC the parser lists. The empty name stands for no SoC. -/
def KnownSoc (kconf : Kconf) (socName : String) : Prop :=
  socName ≠ "" ∧ "TLK_SOC_" ++ socName ∈ socs kconf

/-- A board the parser lists, with its symbol. -/
def KnownBoard (kconf : Kconf) (boardName : String) (board : Symbol) : Prop :=
  boardName ≠ "" ∧ board ∈ boards kconf ∧ board.name = "TLK_BOARD_" ++ boardName

/-- The symbol occurs in the board's dependency or is selected by the board. -/
def Supports (board : Symbol) (name : String) : Prop :=
  name ∈ board.directDep.names ∨ name ∈ board.selects.map Select.target

theorem nodup_boards (kconf : Kconf) : ((boards kconf).map Symbol.name).Nodup := by
  have hsub : (boards kconf).Sublist kconf.syms :=
    List.filter_sublist.trans List.filter_sublist
  exact kconf.nodup.sublist (hsub.map Symbol.name)

/-- A board's name leads to its own dependencies. -/
theorem boardDependsOn_known {kconf : Kconf} {boardName : String} {board : Symbol}
    (h : KnownBoard kconf boardName board) :
    boardDependsOn kconf ("TLK_BOARD_" ++ boardName) = some (getDependencies board) := by
  obtain ⟨-, hmem, hname⟩ := h
  have hfind : (boards kconf).find? (fun symbol => symbol.name == "TLK_BOARD_" ++ boardName) =
      some board := by
    have hsome : ((boards kconf).find?
        (fun symbol => symbol.name == "TLK_BOARD_" ++ boardName)).isSome := by
      rw [List.find?_isSome]
      exact ⟨board, hmem, beq_iff_eq.mpr hname⟩
    obtain ⟨found, hfound⟩ := Option.isSome_iff_exists.mp hsome
    have hkey : (found.name == "TLK_BOARD_" ++ boardName) = true :=
      List.find?_some (p := fun symbol : Symbol => symbol.name == "TLK_BOARD_" ++ boardName) hfound
    have hsame : found.name = board.name := (beq_iff_eq.mp hkey).trans hname.symm
    rw [hfound, List.inj_on_of_nodup_map (nodup_boards kconf)
      (List.mem_of_find?_eq_some hfound) hmem hsame]
  rw [boardDependsOn, hfind]
  rfl

/-- The symbol of a board is never taken for a SoC. -/
theorem not_isSocConfig_of_board {kconf : Kconf} {board : Symbol} (h : board ∈ boards kconf) :
    isSocConfig board = false := by
  have hboard := (List.mem_filter.mp h).2
  rw [Bool.and_eq_true, Bool.not_eq_true'] at hboard
  exact hboard.1

/-- The filter at the end of `_get_dependencies` lets every SoC symbol through. -/
theorem mem_getDependencies {kconf : Kconf} {board : Symbol} (h : board ∈ boards kconf)
    (socName : String) :
    "TLK_SOC_" ++ socName ∈ getDependencies board ↔
      board.directDep.LedBy ("TLK_SOC_" ++ socName) ∨
        "TLK_SOC_" ++ socName ∈ board.selects.map Select.target := by
  have hempty : "TLK_SOC_" ++ socName ≠ "" := by
    intro heq
    simpa using congrArg String.toList heq
  have hselected : "TLK_SOC_" ++ socName ≠ "TLK_BOARD_IS_SELECTED" := by
    intro heq
    simpa using congrArg String.toList heq
  simp only [getDependencies, not_isSocConfig_of_board h, Bool.false_eq_true, if_false,
    List.mem_filter, List.mem_append, mem_extract_iff, decide_eq_true_eq]
  exact ⟨And.left, fun hmem => ⟨hmem, hempty, hselected⟩⟩

/-- A known pair is accepted when the SoC is among the names collected for the board. -/
theorem validate_known {kconf : Kconf} {socName boardName : String} {board : Symbol}
    (hsoc : KnownSoc kconf socName) (hboard : KnownBoard kconf boardName board) :
    (validateSocBoardCombination kconf socName boardName).1 = true ↔
      board.directDep.LedBy ("TLK_SOC_" ++ socName) ∨
        "TLK_SOC_" ++ socName ∈ board.selects.map Select.target := by
  obtain ⟨hne, hin⟩ := hsoc
  rw [← mem_getDependencies hboard.2.1]
  simp only [validateSocBoardCombination, boardDependsOn_known hboard, hne, hboard.1, hin,
    ne_eq, not_true_eq_false, not_false_eq_true, and_false, true_and, if_false]
  by_cases hdep : "TLK_SOC_" ++ socName ∈ getDependencies board
  · simp [hdep]
  · rw [if_pos hdep]
    split <;> simp [hdep]

/-- The validation of a known pair says what it should. -/
def ValidatesRight (kconf : Kconf) (socName boardName : String) (board : Symbol) : Prop :=
  (validateSocBoardCombination kconf socName boardName).1 = true ↔
    Supports board ("TLK_SOC_" ++ socName)

/-- **Where the whole expression is taken into account.** The extraction is complete on an
expression led by a symbol and without a second name; the validation of a known pair is right
unless the SoC occurs in the dependency, does not lead it and is not selected. -/
theorem whole_dependency_iff (expr : Expr) :
    (ExtractsAll expr ↔ expr.OneName) ∧
      ∀ kconf socName boardName board, KnownSoc kconf socName →
        KnownBoard kconf boardName board →
        (ValidatesRight kconf socName boardName board ↔
          ("TLK_SOC_" ++ socName ∈ board.directDep.names →
            board.directDep.LedBy ("TLK_SOC_" ++ socName) ∨
              "TLK_SOC_" ++ socName ∈ board.selects.map Select.target)) := by
  refine ⟨extractsAll_iff expr, fun kconf socName boardName board hsoc hboard => ?_⟩
  unfold ValidatesRight Supports
  rw [validate_known hsoc hboard]
  constructor
  · exact fun h hmem => h.mpr (Or.inl hmem)
  · refine fun h => ⟨fun haccept => haccept.imp_left Expr.LedBy.mem_names, fun hsupport => ?_⟩
    exact hsupport.elim h Or.inr

/-- A board that depends on either of two SoCs. -/
def evkBoard : Symbol where
  name := "TLK_BOARD_EVK"
  isBool := true
  nodes := [{ prompt := some "EVK", filename := "boards/EVK/Kconfig" }]
  directDep := .binary .or (.symbol "TLK_SOC_TL321X") (.symbol "TLK_SOC_TL721X")
  selects := [{ target := "TLK_BOARD_IS_SELECTED", shown := "<symbol TLK_BOARD_IS_SELECTED>" }]

def evkSoc (name : String) : Symbol where
  name := name
  isBool := true
  nodes := [{ prompt := some name, filename := "soc/Kconfig" }]
  directDep := .symbol "y"
  selects := []

def evkKconf : Kconf where
  syms := [evkSoc "TLK_SOC_TL321X", evkSoc "TLK_SOC_TL721X", evkBoard]
  nodup := by decide

theorem evk_boards : boards evkKconf = [evkBoard] := by rfl

theorem evk_known :
    KnownSoc evkKconf "TL321X" ∧ KnownSoc evkKconf "TL721X" ∧ KnownBoard evkKconf "EVK" evkBoard := by
  refine ⟨?_, ?_, by decide, ?_, by decide⟩
  · unfold KnownSoc; decide +kernel
  · unfold KnownSoc; decide +kernel
  · rw [evk_boards]
    exact List.mem_singleton.mpr rfl

/-- The first operand is seen. -/
theorem first_operand_found : ValidatesRight evkKconf "TL321X" "EVK" evkBoard :=
  ((whole_dependency_iff evkBoard.directDep).2 evkKconf "TL321X" "EVK" evkBoard evk_known.1
    evk_known.2.2).mpr (fun _ => Or.inl (Or.inr (Or.inr ⟨.or, .symbol "TLK_SOC_TL721X", rfl⟩)))

/-- The second operand of a disjunction is neither extracted nor supported. -/
theorem second_operand_lost :
    ¬ ExtractsAll (.binary .or (.symbol "TLK_SOC_TL321X") (.symbol "TLK_SOC_TL721X")) ∧
      KnownSoc evkKconf "TL721X" ∧ KnownBoard evkKconf "EVK" evkBoard ∧
      Supports evkBoard ("TLK_SOC_" ++ "TL721X") ∧
      (validateSocBoardCombination evkKconf "TL721X" "EVK").1 = false := by
  refine ⟨fun h => ?_, evk_known.2.1, evk_known.2.2, ?_, ?_⟩
  · have hmem : "TLK_SOC_TL721X" ∈ extractSymbolsFromExpr
        (.binary .or (.symbol "TLK_SOC_TL321X") (.symbol "TLK_SOC_TL721X")) :=
      (h "TLK_SOC_TL721X").mpr (by decide)
    revert hmem
    decide
  · unfold Supports; decide
  · decide +kernel

end UniSdk.Scripts.KconfigParser

import UniSdk.Library.Scans
import UniSdk.Scripts.PinmuxRead

/-!
# Contexts that share their data

The identifier, the functions and the ports of `PinmuxContext` are attributes of the class, and
reading enters into them what it finds. What an earlier context has entered is still there when the
next one is read.
-/

namespace UniSdk.Scripts.PinmuxRead

open UniSdk.Library
open UniSdk.Library.Scans
open UniSdk.Scripts.Pinmux (FunctionName)
open UniSdk.Scripts.ConfigReader (Value)

/-- The attributes of the class. -/
structure Shared where
  id : Identifier
  functions : Dict FunctionName FunctionData
  ports : Dict (List Char) PortData

/-- As the module is imported. -/
def imported : Shared where
  id := { case := emptyText, board := none, soc := emptyText, socSeries := emptyText,
          core := emptyText }
  functions := Dict.empty
  ports := Dict.empty

/-- Entries that are set one after the other. -/
def enter {ν : Type*} (entries : List (List Char × ν)) (data : Dict (List Char) ν) :
    Dict (List Char) ν :=
  entries.foldl (fun data entry => data.set entry.1 entry.2) data

def names {ν : Type*} (data : Dict (List Char) ν) : Finset (List Char) :=
  (data.entries.map Prod.fst).toFinset

section Reading

variable (runtime : Runtime)

/-- `read_id`, `read_functions` and `read_ports` of one object, and whether none of them raises. -/
def read (source : Source) (shared : Shared) : Shared × Bool :=
  let id := readId source shared.id
  let (entries, finished) := readFunctions runtime source id
  let functions := enter entries shared.functions
  if finished then
    let (entries, finished) := readPorts runtime source (names functions) id
    ({ id, functions, ports := enter entries shared.ports }, finished)
  else ({ id, functions, ports := shared.ports }, false)

/-- Objects that are read one after the other in one process. -/
def readAll (sources : List Source) (shared : Shared) : Shared :=
  sources.foldl (fun shared source => (read runtime source shared).1) shared

/-- Equal as Python compares an identifier's attributes and two dictionaries. -/
structure Same (left right : Shared) : Prop where
  id : left.id = right.id
  functions : ∀ name, left.functions.get? name = right.functions.get? name
  ports : ∀ name, left.ports.get? name = right.ports.get? name

/-! ### What is left over -/

/-- The identifier that a configuration gives by itself. -/
def ownId (source : Source) : Identifier := readId source imported.id

/-- The ports that a configuration enters, which are none where its functions raise. -/
def portEntries (source : Source) (id : Identifier) (functionNames : Finset FunctionName) :
    List (List Char × PortData) :=
  if (readFunctions runtime source id).2 then (readPorts runtime source functionNames id).1 else []

/-- The names of the functions that a configuration enters by itself, and of its ports. -/
def ownFunctions (source : Source) : List FunctionName :=
  (readFunctions runtime source (ownId source)).1.map Prod.fst

def ownPorts (source : Source) : List (List Char) :=
  (portEntries runtime source (ownId source) (ownFunctions runtime source).toFinset).map Prod.fst

/-- `read_id` overwrites what it finds: the board where one is selected, and every attribute up to
the first one that the configuration does not have. The others have to be empty. -/
structure IdFresh (source : Source) (id : Identifier) : Prop where
  board : enabled source.chipConfig "TLK_BOARD_IS_SELECTED".toList = false → id.board = none
  core : enabled source.chipConfig "TLK_SOC_SERIES".toList = false → id.core = emptyText
  soc : enabled source.chipConfig "TLK_SOC_SERIES".toList = false ∨
    enabled source.chipConfig "TLK_CORE".toList = false → id.soc = emptyText
  case : enabled source.chipConfig "TLK_SOC_SERIES".toList = false ∨
    enabled source.chipConfig "TLK_CORE".toList = false ∨
    enabled source.chipConfig "TLK_SOC".toList = false → id.case = emptyText

/-- Nothing is left that the configuration does not overwrite. -/
structure NothingLeft (source : Source) (shared : Shared) : Prop where
  id : IdFresh source shared.id
  functions : ∀ name ∈ names shared.functions, name ∈ ownFunctions runtime source
  ports : ∀ name ∈ names shared.ports, name ∈ ownPorts runtime source

end Reading

/-! ### Entering -/

section Enter

variable {ν : Type*}

theorem mem_names {data : Dict (List Char) ν} {name : List Char} :
    name ∈ names data ↔ data.get? name ≠ none := by
  rw [names, List.mem_toFinset, Option.ne_none_iff_exists']
  simp only [List.mem_map, ← Dict.mem_entries, Prod.exists, exists_and_right, exists_eq_right]

theorem enter_get? (entries : List (List Char × ν)) (data : Dict (List Char) ν)
    (name : List Char) : (enter entries data).get? name =
      lastValue Prod.fst (fun entry => some entry.2) (data.get? name) name entries := by
  refine foldl_lastValue Prod.fst (fun entry : List Char × ν => some entry.2) Dict.get? ?_ name
  intro front entry _ name
  rw [Dict.get?_set]
  simp only [eq_comm]

theorem enter_get?_of_mem {entries : List (List Char × ν)} {name : List Char}
    (h : name ∈ entries.map Prod.fst) :
    ∃ value, ∀ data, (enter entries data).get? name = some value := by
  obtain ⟨entry, hentry, rfl⟩ := List.mem_map.mp h
  have hfilter : entries.filter (fun other => other.1 = entry.1) ≠ [] :=
    List.ne_nil_of_mem (List.mem_filter.mpr ⟨hentry, by simp⟩)
  obtain ⟨last, hlast⟩ := Option.ne_none_iff_exists'.mp
    fun hnone => hfilter (List.getLast?_eq_none_iff.mp hnone)
  refine ⟨last.2, fun data => ?_⟩
  rw [enter_get?, lastValue, lastVisit, hlast]
  rfl

theorem enter_get?_of_not_mem {entries : List (List Char × ν)} {name : List Char}
    (h : name ∉ entries.map Prod.fst) (data : Dict (List Char) ν) :
    (enter entries data).get? name = data.get? name := by
  have hfilter : entries.filter (fun other => other.1 = name) = [] := by
    refine List.filter_eq_nil_iff.mpr fun other hother heq => h ?_
    exact List.mem_map.mpr ⟨other, hother, of_decide_eq_true heq⟩
  rw [enter_get?, lastValue, lastVisit, hfilter]
  rfl

/-- **Entries give the same in a dictionary as in an empty one exactly when they set every name
that is in it.** -/
theorem enter_agree_iff {entries : List (List Char × ν)} {data : Dict (List Char) ν} :
    (∀ name, (enter entries data).get? name = (enter entries Dict.empty).get? name) ↔
      ∀ name ∈ names data, name ∈ entries.map Prod.fst := by
  refine forall_congr' fun name => ?_
  by_cases hmem : name ∈ entries.map Prod.fst
  · obtain ⟨value, hvalue⟩ := enter_get?_of_mem hmem
    exact iff_of_true ((hvalue data).trans (hvalue Dict.empty).symm) fun _ => hmem
  · rw [enter_get?_of_not_mem hmem, enter_get?_of_not_mem hmem, mem_names, Dict.get?_empty]
    exact ⟨fun hnone hsome => absurd hnone hsome, fun h => by_contra fun hsome => hmem (h hsome)⟩

/-- The names in a dictionary are those of what it finds. -/
theorem names_congr {data data' : Dict (List Char) ν}
    (h : ∀ name, data.get? name = data'.get? name) : names data = names data' := by
  ext name
  rw [mem_names, mem_names, h name]

theorem names_enter_empty (entries : List (List Char × ν)) :
    names (enter entries Dict.empty) = (entries.map Prod.fst).toFinset := by
  ext name
  rw [mem_names, List.mem_toFinset]
  by_cases hmem : name ∈ entries.map Prod.fst
  · obtain ⟨value, hvalue⟩ := enter_get?_of_mem hmem
    rw [hvalue]
    exact iff_of_true (Option.some_ne_none value) hmem
  · rw [enter_get?_of_not_mem hmem]
    exact iff_of_false (fun h => h rfl) hmem

end Enter

/-! ### The identifier -/

theorem valueTruth_getD (configs : Dict (List Char) Value) (key : List Char) :
    valueTruth ((configs.get? key).getD emptyText) = enabled configs key := by
  unfold enabled
  cases configs.get? key <;> rfl

/-- What `read_id` leaves in each attribute. -/
theorem readId_eq (source : Source) (id : Identifier) :
    readId source id =
      { board := if enabled source.chipConfig "TLK_BOARD_IS_SELECTED".toList then
          source.chipConfig.get? "TLK_BOARD".toList else id.board
        socSeries := (source.chipConfig.get? "TLK_SOC_SERIES".toList).getD emptyText
        core := if enabled source.chipConfig "TLK_SOC_SERIES".toList then
          (source.chipConfig.get? "TLK_CORE".toList).getD emptyText else id.core
        soc := if enabled source.chipConfig "TLK_SOC_SERIES".toList ∧
            enabled source.chipConfig "TLK_CORE".toList then
          (source.chipConfig.get? "TLK_SOC".toList).getD emptyText else id.soc
        case := if enabled source.chipConfig "TLK_SOC_SERIES".toList ∧
            enabled source.chipConfig "TLK_CORE".toList ∧
            enabled source.chipConfig "TLK_SOC".toList then
          (source.chipConfig.get? "TLK_CASE".toList).getD emptyText else id.case } := by
  unfold readId
  dsimp only
  simp only [valueTruth_getD]
  generalize enabled source.chipConfig "TLK_BOARD_IS_SELECTED".toList = board
  generalize enabled source.chipConfig "TLK_SOC_SERIES".toList = series
  generalize enabled source.chipConfig "TLK_CORE".toList = core
  generalize enabled source.chipConfig "TLK_SOC".toList = soc
  cases board <;> cases series <;> cases core <;> cases soc <;> rfl

/-- **The identifier is the configuration's own exactly when nothing is left over in it.** -/
theorem readId_eq_iff (source : Source) (id : Identifier) :
    readId source id = ownId source ↔ IdFresh source id := by
  have hkeep : ∀ {α : Type} (p : Prop) [Decidable p] (value kept fresh : α),
      (if p then value else kept) = (if p then value else fresh) ↔ (¬ p → kept = fresh) := by
    intro α p _ value kept fresh
    by_cases hp : p <;> simp [hp]
  rw [ownId, readId_eq, readId_eq, Identifier.mk.injEq, hkeep, hkeep, hkeep, hkeep]
  simp only [not_and_or, Bool.not_eq_true]
  constructor
  · intro h
    obtain ⟨hcase, hboard, hsoc, -, hcore⟩ := h
    exact ⟨hboard, hcore, hsoc, hcase⟩
  · intro h
    exact ⟨h.case, h.board, h.soc, trivial, h.core⟩

/-! ### Reading -/

section Reading

variable {runtime : Runtime}

theorem read_fst (source : Source) (shared : Shared) :
    (read runtime source shared).1 =
      let id := readId source shared.id
      let functions := enter (readFunctions runtime source id).1 shared.functions
      { id, functions,
        ports := enter (portEntries runtime source id (names functions)) shared.ports } := by
  unfold read portEntries
  dsimp only
  split <;> rfl

/-- **What the last object reads is what it would read alone exactly when nothing is left that it
does not overwrite.** -/
theorem read_same_iff (source : Source) (shared : Shared) :
    Same (read runtime source shared).1 (read runtime source imported).1 ↔
      NothingLeft runtime source shared := by
  rw [read_fst, read_fst]
  dsimp only
  by_cases hid : readId source shared.id = ownId source
  · have hempty : imported.functions = Dict.empty ∧ imported.ports = Dict.empty := ⟨rfl, rfl⟩
    have hown : readId source imported.id = ownId source := rfl
    rw [hid, hown, hempty.1, hempty.2]
    -- the functions that the ports refer to are the same once the dictionaries agree
    have hnames : (∀ name ∈ names shared.functions, name ∈ ownFunctions runtime source) →
        names (enter (readFunctions runtime source (ownId source)).1 shared.functions) =
          (ownFunctions runtime source).toFinset := fun hfunctions =>
      (names_congr (enter_agree_iff.mpr hfunctions)).trans (names_enter_empty _)
    constructor
    · intro h
      have hfunctions := enter_agree_iff.mp h.functions
      have hports := h.ports
      dsimp only at hports
      rw [hnames hfunctions, names_enter_empty] at hports
      exact ⟨(readId_eq_iff source shared.id).mp hid, hfunctions, enter_agree_iff.mp hports⟩
    · intro h
      refine ⟨rfl, enter_agree_iff.mpr h.functions, ?_⟩
      dsimp only
      rw [hnames h.functions, names_enter_empty]
      exact enter_agree_iff.mpr h.ports
  · refine iff_of_false (fun h => hid h.id) fun h => hid ?_
    exact (readId_eq_iff source shared.id).mpr h.id

end Reading

/-- **Exactly when the last context read in a process is independent of the earlier ones.** -/
theorem contexts_independent_iff (runtime : Runtime) (earlier : List Source) (last : Source) :
    Same (read runtime last (readAll runtime earlier imported)).1
        (read runtime last imported).1 ↔
      NothingLeft runtime last (readAll runtime earlier imported) :=
  read_same_iff last (readAll runtime earlier imported)

/-- ASCII names, and a `merge` that nothing here needs. -/
def asciiRuntime : Runtime where
  strOf := fun _ => []
  upper := fun text => text.map Char.toUpper
  lower := fun text => text.map Char.toLower
  merge := fun entries others => some (entries ++ others)

/-- A chip with one function, `uart` with `tx`, that depends on GPIO. -/
def consoleSource (gpio : Bool) : Source where
  chipConfig := ((Dict.empty.set "TLK_SOC_SERIES".toList (.str "A".toList)).set
    "TLK_CORE".toList (.str "B".toList))
  buildConfig := Dict.empty.set "GPIO".toList (.bool gpio)
  yaml := fun path =>
    if path = ["B".toList, "soc".toList, "A".toList, "pinmux".toList, "function.yaml".toList] then
      [(.str "pinmux".toList, .dict [(.str "function".toList,
        .dict [(.str "uart".toList, .dict [(.str "tx".toList, .dict [])])])])]
    else []

/-- The function of a build with GPIO is still there when a build without it is read. -/
theorem contexts_share_function :
    ((read asciiRuntime (consoleSource false) imported).1.functions.get? "UART_TX".toList).isSome =
        false ∧
      ((read asciiRuntime (consoleSource false)
        (readAll asciiRuntime [consoleSource true] imported)).1.functions.get?
          "UART_TX".toList).isSome = true ∧
      ¬ Same (read asciiRuntime (consoleSource false)
          (readAll asciiRuntime [consoleSource true] imported)).1
        (read asciiRuntime (consoleSource false) imported).1 := by
  have halone : ((read asciiRuntime (consoleSource false) imported).1.functions.get?
      "UART_TX".toList).isSome = false := by decide
  have hafter : ((read asciiRuntime (consoleSource false)
      (readAll asciiRuntime [consoleSource true] imported)).1.functions.get?
        "UART_TX".toList).isSome = true := by decide
  refine ⟨halone, hafter, fun h => ?_⟩
  rw [h.functions, halone] at hafter
  cases hafter

end UniSdk.Scripts.PinmuxRead

import UniSdk.Library.Macros

/-!
# The properties of a chip

The YAML documents of the properties and the header that `properties_gen.py` makes of one. The path
to every scalar becomes the name of a macro, and a list also defines its length. A path goes through
dictionaries by keys and through lists by positions.
-/

namespace UniSdk.Scripts.Properties

open UniSdk.Library.Defines (isIdentChar)
open UniSdk.Library.Lines
open UniSdk.Library.Macros
open UniSdk.Library.Text (afterLead)

/-- A key of a dictionary. Keys that are no strings are known by their `str`. -/
inductive Key
  | str (text : Line)
  | other (text : Line)
  deriving DecidableEq

def Key.text : Key → Line
  | .str text | .other text => text

/-- A document. A scalar that YAML takes for an integer keeps its text; what is neither that nor a
boolean nor null is known by its `str`. -/
inductive Yaml
  | null
  | bool (value : Bool)
  | int (text : Line)
  | text (value : Line)
  | list (items : List Yaml)
  | dict (entries : List (Key × Yaml))

/-- One step of a path. -/
inductive Step
  | key (k : Key)
  | index (i : Nat)

namespace Yaml

/-- Neither a list nor a dictionary. -/
def isScalar : Yaml → Bool
  | .list _ | .dict _ => false
  | _ => true

/-- The path leads from the document to the value. -/
inductive Reaches : Yaml → List Step → Yaml → Prop
  | here (value : Yaml) : Reaches value [] value
  | key {entries : List (Key × Yaml)} {k : Key} {value target : Yaml} {path : List Step}
      (hmem : (k, value) ∈ entries) (rest : Reaches value path target) :
      Reaches (.dict entries) (.key k :: path) target
  | index {items : List Yaml} {i : Nat} {value target : Yaml} {path : List Step}
      (hget : items[i]? = some value) (rest : Reaches value path target) :
      Reaches (.list items) (.index i :: path) target

end Yaml

/-! ### The header -/

/-- `0x` and hexadecimal digits. -/
def isHex (text : Line) : Bool :=
  match afterLead ['0', 'x'] text with
  | some digits => digits ≠ [] && digits.all (fun c =>
      c.isDigit || ('a' ≤ c && c ≤ 'f') || ('A' ≤ c && c ≤ 'F'))
  | none => false

/-- What `str` makes of the scalars; `intValue` is what YAML reads from an integer. Integers in
hexadecimal are kept as they are written. -/
def headerText (intValue : Line → Int) : Yaml → Line
  | .bool value => if value then "true".toList else "false".toList
  | .int text => if isHex text then text else (toString (intValue text)).toList
  | .text value => value
  | _ => "None".toList

/-- `str(p).upper()` of a key or a position, in ASCII. -/
def Step.part : Step → Line
  | .key k => k.text.map Char.toUpper
  | .index i => (toString i).toList

/-- `"UNISDK_" + "_".join(...)` -/
def macroName (path : List Step) : Line :=
  "UNISDK_".toList ++ List.intercalate ['_'] (path.map Step.part)

section Header

variable (intValue : Line → Int)

mutual

/-- `emit_defines`: the names and the values, in the order in which they are appended. -/
def emitDefines (path : List Step) : Yaml → List (Line × Line)
  | .dict entries => emitEntries path entries
  | .list items =>
    (macroName path ++ "_COUNT".toList, (toString items.length).toList) :: emitItems path 0 items
  | .null => [(macroName path, headerText intValue .null)]
  | .bool value => [(macroName path, headerText intValue (.bool value))]
  | .int text => [(macroName path, headerText intValue (.int text))]
  | .text value => [(macroName path, headerText intValue (.text value))]

def emitEntries (path : List Step) : List (Key × Yaml) → List (Line × Line)
  | [] => []
  | (k, value) :: rest => emitDefines (path ++ [.key k]) value ++ emitEntries path rest

def emitItems (path : List Step) (i : Nat) : List Yaml → List (Line × Line)
  | [] => []
  | item :: rest => emitDefines (path ++ [.index i]) item ++ emitItems path (i + 1) rest

end

/-- `generate_header` of a dictionary. -/
def generateHeader (entries : List (Key × Yaml)) : List Char :=
  joinLines (["// Auto-generated from YAML".toList, []] ++
    (emitEntries intValue [] entries).map defineLine ++ [[]])

end Header

/-! ### The macros of a document -/

section Macros

variable {intValue : Line → Int}

/-- What a document defines under a prefix: a macro for every scalar and one for every list. -/
def Defines (intValue : Line → Int) (path : List Step) (data : Yaml) (define : Line × Line) :
    Prop :=
  (∃ more leaf, data.Reaches more leaf ∧ leaf.isScalar = true ∧
    define = (macroName (path ++ more), headerText intValue leaf)) ∨
  ∃ more items, data.Reaches more (.list items) ∧
    define = (macroName (path ++ more) ++ "_COUNT".toList, (toString items.length).toList)

theorem defines_scalar {path : List Step} {data : Yaml} (h : data.isScalar = true)
    (define : Line × Line) :
    Defines intValue path data define ↔ define = (macroName path, headerText intValue data) := by
  have hhere : ∀ more target, data.Reaches more target → more = [] ∧ target = data := by
    intro more target hreach
    cases hreach with
    | here => exact ⟨rfl, rfl⟩
    | key => cases h
    | index => cases h
  constructor
  · rintro (⟨more, leaf, hreach, -, rfl⟩ | ⟨more, items, hreach, -⟩)
    · obtain ⟨rfl, rfl⟩ := hhere more leaf hreach
      rw [List.append_nil]
    · obtain ⟨-, rfl⟩ := hhere more _ hreach
      cases h
  · rintro rfl
    exact .inl ⟨[], data, .here data, h, by rw [List.append_nil]⟩

/-- A dictionary defines what its values do. -/
theorem defines_dict {path : List Step} {entries : List (Key × Yaml)} (define : Line × Line) :
    Defines intValue path (.dict entries) define ↔
      ∃ entry ∈ entries, Defines intValue (path ++ [.key entry.1]) entry.2 define := by
  constructor
  · rintro (⟨more, leaf, hreach, hleaf, rfl⟩ | ⟨more, items, hreach, rfl⟩)
    · cases hreach with
      | here => cases hleaf
      | key hmem rest =>
        exact ⟨_, hmem, .inl ⟨_, leaf, rest, hleaf, by rw [List.append_assoc]; rfl⟩⟩
    · cases hreach with
      | key hmem rest =>
        exact ⟨_, hmem, .inr ⟨_, items, rest, by rw [List.append_assoc]; rfl⟩⟩
  · rintro ⟨entry, hmem, ⟨more, leaf, hreach, hleaf, rfl⟩ | ⟨more, items, hreach, rfl⟩⟩
    · exact .inl ⟨.key entry.1 :: more, leaf, .key hmem hreach, hleaf, by
        rw [List.append_assoc]; rfl⟩
    · exact .inr ⟨.key entry.1 :: more, items, .key hmem hreach, by rw [List.append_assoc]; rfl⟩

/-- A list defines its length and what its items do. -/
theorem defines_list {path : List Step} {items : List Yaml} (define : Line × Line) :
    Defines intValue path (.list items) define ↔
      define = (macroName path ++ "_COUNT".toList, (toString items.length).toList) ∨
        ∃ i item, items[i]? = some item ∧ Defines intValue (path ++ [.index i]) item define := by
  constructor
  · rintro (⟨more, leaf, hreach, hleaf, rfl⟩ | ⟨more, inner, hreach, rfl⟩)
    · cases hreach with
      | here => cases hleaf
      | index hget rest =>
        exact .inr ⟨_, _, hget, .inl ⟨_, leaf, rest, hleaf, by rw [List.append_assoc]; rfl⟩⟩
    · cases hreach with
      | here => exact .inl (by rw [List.append_nil])
      | index hget rest =>
        exact .inr ⟨_, _, hget, .inr ⟨_, inner, rest, by rw [List.append_assoc]; rfl⟩⟩
  · rintro (rfl | ⟨i, item, hget, ⟨more, leaf, hreach, hleaf, rfl⟩ | ⟨more, inner, hreach, rfl⟩⟩)
    · exact .inr ⟨[], items, .here _, by rw [List.append_nil]⟩
    · exact .inl ⟨.index i :: more, leaf, .index hget hreach, hleaf, by
        rw [List.append_assoc]; rfl⟩
    · exact .inr ⟨.index i :: more, inner, .index hget hreach, by rw [List.append_assoc]; rfl⟩

mutual

theorem mem_emitDefines (path : List Step) (define : Line × Line) : ∀ data : Yaml,
    define ∈ emitDefines intValue path data ↔ Defines intValue path data define
  | .dict entries => by
    rw [emitDefines, defines_dict]
    exact mem_emitEntries path define entries
  | .list items => by
    rw [emitDefines, defines_list, List.mem_cons, mem_emitItems path define 0 items]
    simp only [Nat.zero_add]
  | .null => by rw [emitDefines, List.mem_singleton, defines_scalar rfl]
  | .bool value => by rw [emitDefines, List.mem_singleton, defines_scalar rfl]
  | .int text => by rw [emitDefines, List.mem_singleton, defines_scalar rfl]
  | .text value => by rw [emitDefines, List.mem_singleton, defines_scalar rfl]

theorem mem_emitEntries (path : List Step) (define : Line × Line) :
    ∀ entries : List (Key × Yaml), define ∈ emitEntries intValue path entries ↔
      ∃ entry ∈ entries, Defines intValue (path ++ [.key entry.1]) entry.2 define
  | [] => by simp [emitEntries]
  | (k, value) :: rest => by
    rw [emitEntries, List.mem_append, mem_emitDefines _ define value,
      mem_emitEntries path define rest]
    simp only [List.mem_cons, exists_eq_or_imp]

theorem mem_emitItems (path : List Step) (define : Line × Line) (first : Nat) :
    ∀ items : List Yaml, define ∈ emitItems intValue path first items ↔
      ∃ i item, items[i]? = some item ∧
        Defines intValue (path ++ [.index (first + i)]) item define
  | [] => by simp [emitItems]
  | item :: rest => by
    rw [emitItems, List.mem_append, mem_emitDefines _ define item,
      mem_emitItems path define (first + 1) rest]
    constructor
    · rintro (h | ⟨i, found, hget, h⟩)
      · exact ⟨0, item, rfl, h⟩
      · refine ⟨i + 1, found, hget, ?_⟩
        rwa [← Nat.add_assoc, Nat.add_right_comm]
    · rintro ⟨i, found, hget, h⟩
      cases i with
      | zero =>
        cases hget
        exact .inl h
      | succ i =>
        refine .inr ⟨i, found, hget, ?_⟩
        rwa [Nat.add_right_comm, Nat.add_assoc]

end

end Macros

/-! ### Reading the header -/

/-- The parts of a path are identifiers where the keys are. -/
def IdentSteps (path : List Step) : Prop := ∀ step ∈ path, ∀ c ∈ step.part, isIdentChar c = true

theorem identChar_macroName {path : List Step} (h : IdentSteps path) :
    ∀ c ∈ macroName path, isIdentChar c = true := by
  have hlead : ∀ c ∈ "UNISDK_".toList, isIdentChar c = true :=
    List.all_eq_true.mp (by decide)
  intro c hc
  unfold macroName at hc
  rcases List.mem_append.mp hc with hc | hc
  · exact hlead c hc
  · refine all_intercalate (p := fun c => isIdentChar c = true) ?_ ?_ c hc
    · exact fun c hc => by rw [List.mem_singleton.mp hc]; decide
    · intro part hpart
      obtain ⟨step, hstep, rfl⟩ := List.mem_map.mp hpart
      exact h step hstep

/-- The keys of the dictionaries are identifiers, and no scalar goes over several lines. -/
structure Printable (intValue : Line → Int) (data : Yaml) : Prop where
  keys : ∀ path entries entry, data.Reaches path (.dict entries) → entry ∈ entries →
    ∀ c ∈ entry.1.text, isIdentChar c = true
  scalars : ∀ path leaf, data.Reaches path leaf → leaf.isScalar = true →
    Unbroken (headerText intValue leaf)

theorem Yaml.reaches_append {data middle target : Yaml} {path more : List Step}
    (h : data.Reaches path middle) (h' : middle.Reaches more target) :
    data.Reaches (path ++ more) target := by
  induction h with
  | here value => exact h'
  | key hmem rest ih => exact .key hmem (ih h')
  | index hget rest ih => exact .index hget (ih h')

section Read

variable {intValue : Line → Int} {data : Yaml}

theorem Printable.identSteps (hprint : Printable intValue data) {path : List Step}
    {target : Yaml} (h : data.Reaches path target) : IdentSteps path := by
  suffices hfrom : ∀ front middle, data.Reaches front middle → middle.Reaches path target →
      IdentSteps path from hfrom [] data (.here data) h
  clear h
  induction path with
  | nil => exact fun _ _ _ _ => nofun
  | cons step path ih =>
    intro front middle hfront hmiddle
    cases hmiddle with
    | @key entries k value _ _ hmem rest =>
      have hnext := ih (front ++ [.key k]) value
        (Yaml.reaches_append hfront (.key hmem (.here value))) rest
      intro step hstep
      rcases List.mem_cons.mp hstep with rfl | hstep
      · intro c hc
        obtain ⟨d, hd, rfl⟩ := List.mem_map.mp hc
        exact identChar_toUpper (hprint.keys front entries (k, value) hfront hmem d hd)
      · exact hnext step hstep
    | @index items i value _ _ hget rest =>
      have hnext := ih (front ++ [.index i]) value
        (Yaml.reaches_append hfront (.index hget (.here value))) rest
      intro step hstep
      rcases List.mem_cons.mp hstep with rfl | hstep
      · exact identChar_toString i
      · exact hnext step hstep

/-- The macros that a document defines have identifiers for names and values of one line. -/
theorem Printable.defines (hprint : Printable intValue data) {define : Line × Line}
    (h : Defines intValue [] data define) :
    (∀ c ∈ define.1, isIdentChar c = true) ∧ Unbroken define.2 := by
  rcases h with ⟨path, leaf, hreach, hleaf, rfl⟩ | ⟨path, items, hreach, rfl⟩
  · exact ⟨identChar_macroName (hprint.identSteps hreach), hprint.scalars path leaf hreach hleaf⟩
  · have hcount : ∀ c ∈ "_COUNT".toList, isIdentChar c = true :=
      List.all_eq_true.mp (by decide)
    refine ⟨fun c hc => ?_, identChar_unbroken (identChar_toString items.length)⟩
    rcases List.mem_append.mp hc with hc | hc
    · exact identChar_macroName (hprint.identSteps hreach) c hc
    · exact hcount c hc

theorem mem_emitEntries_iff {entries : List (Key × Yaml)} (define : Line × Line) :
    define ∈ emitEntries intValue [] entries ↔ Defines intValue [] (.dict entries) define := by
  rw [← mem_emitDefines, emitDefines]

theorem readHeader_generateHeader {entries : List (Key × Yaml)}
    (hprint : Printable intValue (.dict entries)) :
    readHeader (generateHeader intValue entries) = emitEntries intValue [] entries := by
  refine readHeader_joinLines (fun line hline => ?_)
    fun define h => hprint.defines ((mem_emitEntries_iff define).mp h)
  simp only [List.mem_cons, List.not_mem_nil, or_false] at hline
  rcases hline with rfl | rfl
  · exact ⟨unbroken_of_any (by decide +kernel), by decide +kernel⟩
  · exact ⟨nofun, rfl⟩

end Read

/-- Two buses with a pin each, one of them in hexadecimal. -/
def busProperties : List (Key × Yaml) :=
  [(.str ['b', 'u', 's'], .list [.dict [(.str ['p', 'i', 'n'], .int ['0', 'x', '1', '0'])],
    .dict [(.str ['p', 'i', 'n'], .int ['5'])]])]

def busValue (text : Line) : Int := if text = ['5'] then 5 else 16

theorem busProperties_reaches {path : List Step} {value : Yaml}
    (h : (Yaml.dict busProperties).Reaches path value) :
    value = .dict busProperties ∨
      value = .list [.dict [(.str ['p', 'i', 'n'], .int ['0', 'x', '1', '0'])],
        .dict [(.str ['p', 'i', 'n'], .int ['5'])]] ∨
      (∃ text, value = .dict [(.str ['p', 'i', 'n'], .int text)]) ∨
      value = .int ['0', 'x', '1', '0'] ∨ value = .int ['5'] := by
  have hpin : ∀ {text : Line} {path : List Step} {value : Yaml},
      (Yaml.dict [(.str ['p', 'i', 'n'], .int text)]).Reaches path value →
      value = .dict [(.str ['p', 'i', 'n'], .int text)] ∨ value = .int text := by
    intro text path value h
    cases h with
    | here => exact .inl rfl
    | key hmem rest =>
      cases List.mem_singleton.mp hmem
      cases rest
      exact .inr rfl
  cases h with
  | here => exact .inl rfl
  | key hmem rest =>
    cases List.mem_singleton.mp hmem
    cases rest with
    | here => exact .inr (.inl rfl)
    | @index _ i _ _ _ hget rest =>
      match i, hget with
      | 0, hget =>
        cases hget
        rcases hpin rest with rfl | rfl
        · exact .inr (.inr (.inl ⟨_, rfl⟩))
        · exact .inr (.inr (.inr (.inl rfl)))
      | 1, hget =>
        cases hget
        rcases hpin rest with rfl | rfl
        · exact .inr (.inr (.inl ⟨_, rfl⟩))
        · exact .inr (.inr (.inr (.inr rfl)))

theorem busProperties_printable : Printable busValue (.dict busProperties) where
  keys := by
    intro path entries entry h hentry
    rcases busProperties_reaches h with heq | heq | ⟨text, heq⟩ | heq | heq
    · cases heq
      cases List.mem_singleton.mp hentry
      exact List.all_eq_true.mp (by decide)
    · cases heq
    · cases heq
      cases List.mem_singleton.mp hentry
      exact List.all_eq_true.mp (show ['p', 'i', 'n'].all isIdentChar = true by decide)
    · cases heq
    · cases heq
  scalars := by
    intro path leaf h hleaf
    rcases busProperties_reaches h with rfl | rfl | ⟨text, rfl⟩ | rfl | rfl
    · cases hleaf
    · cases hleaf
    · cases hleaf
    · exact unbroken_of_any (by decide +kernel)
    · exact unbroken_of_any (by decide +kernel)

example : emitEntries busValue [] busProperties =
    [("UNISDK_BUS_COUNT".toList, ['2']), ("UNISDK_BUS_0_PIN".toList, "0x10".toList),
      ("UNISDK_BUS_1_PIN".toList, ['5'])] := by decide +kernel

end UniSdk.Scripts.Properties

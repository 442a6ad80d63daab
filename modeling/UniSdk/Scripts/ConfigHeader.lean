import Mathlib
import UniSdk.Library.Dict
import UniSdk.Library.Macros
import UniSdk.Scripts.ConfigReader
import UniSdk.Scripts.ForLoops

/-!
# The two readers of a configuration

`config_h_gen.py` turns the assignments of the configuration files into macros, and `ConfigReader`
turns one file into Python values. The first one looks at assignments only, and a later one takes
the place of an earlier one; what the configuration tool writes means the same to both.
-/

namespace UniSdk.Scripts.ConfigHeader

open UniSdk.Library
open UniSdk.Library.Defines (isIdentChar)
open UniSdk.Library.Lines
open UniSdk.Library.Macros
open UniSdk.Library.Text (afterLead afterLead_eq_some)
open UniSdk.Scripts.ConfigReader
open UniSdk.Scripts.Pinmux (isSpace strip)

def lead : Line := ['C', 'O', 'N', 'F', 'I', 'G', '_']

def notSet : Line := ['i', 's', ' ', 'n', 'o', 't', ' ', 's', 'e', 't']

/-- `^CONFIG_([A-Za-z0-9_]+)=(.*)$` -/
def matchAssign (line : Line) : Option (Line × Line) :=
  (afterLead lead line).bind fun rest =>
    match rest.takeWhile isIdentChar, rest.dropWhile isIdentChar with
    | c :: name, '=' :: value => some (c :: name, value)
    | _, _ => none

/-- `^#\s*CONFIG_([A-Za-z0-9_]+)\s+is not set$` -/
def matchUnset : Line → Option Line
  | '#' :: rest => (afterLead lead (rest.dropWhile isSpace)).bind fun rest =>
    match rest.takeWhile isIdentChar, rest.dropWhile isIdentChar with
    | c :: name, d :: after =>
      if isSpace d ∧ after.dropWhile isSpace = notSet then some (c :: name) else none
    | _, _ => none
  | _ => none

/-! ### `config_h_gen.py` -/

/-- The value of a macro: 1 and 0 for `y` and `n`, and a string without its quotes. -/
def macroValue (value : Line) : Line :=
  if value = ['y'] then ['1']
  else if value = ['n'] then ['0']
  else if 2 ≤ value.length ∧ value.head? = some '"' ∧ value.getLast? = some '"' then
    (value.drop 1).dropLast
  else value

/-- `parse_config_file`, on the lines of a file that is there. -/
def parseConfigFile (lines : List Line) (values : Dict Line Line) : Dict Line Line :=
  lines.foldl (fun values line =>
    match matchAssign (strip line) with
    | none => values
    | some (name, value) => values.set (lead ++ name) (macroValue value)) values

/-- `values` of `main` after all files. -/
def configValues (files : List (List Line)) : Dict Line Line :=
  files.foldl (fun values lines => parseConfigFile lines values) Dict.empty

/-- What `main` writes. -/
def configHeader (files : List (List Line)) : List Char :=
  joinLines (["/* Auto-generated from .config */".toList] ++
    (configValues files).entries.map defineLine ++ [[]])

/-! ### `ConfigReader` -/

/-- `ConfigReader._load`, on the lines of a file that is there. -/
def load (toInt : Line → Option Int) (lines : List Line) : Dict Line Value :=
  lines.foldl (fun configs line =>
    let line := strip line
    if line = [] ∨ line.head? = some '#' ∧ ¬ notSet <:+: line then configs
    else
      match matchUnset line with
      | some name => configs.set name (.bool false)
      | none =>
        match matchAssign line with
        | none => configs
        | some (name, value) =>
          match parseValue toInt (strip value) with
          | none => configs
          | some value => configs.set name value) Dict.empty

/-! ### What the configuration tool writes -/

/-- The setting of a symbol: booleans, numbers as they are written, strings. -/
inductive Setting
  | yes
  | no
  | number (text : Line)
  | string (text : Line)

/-- A comment, or the setting of a symbol. -/
inductive Item
  | comment (line : Line)
  | setting (name : Line) (setting : Setting)

def Setting.line (name : Line) : Setting → Line
  | .yes => lead ++ name ++ ['=', 'y']
  | .no => ['#', ' '] ++ lead ++ name ++ ' ' :: notSet
  | .number text => lead ++ name ++ '=' :: text
  | .string text => lead ++ name ++ '=' :: quoted text

def Item.line : Item → Line
  | .comment text => text
  | .setting name value => Setting.line name value

/-- The symbols of a file with their settings. -/
def settings (items : List Item) : List (Line × Setting) :=
  items.filterMap fun
    | .comment _ => none
    | .setting name value => some (name, value)

/-- The macro of a setting. A symbol that is not set has none. -/
def Setting.header : Setting → Option Line
  | .yes => some ['1']
  | .no => none
  | .number text => some text
  | .string text => some (escape text)

/-- The Python value of a setting. -/
def Setting.value (toInt : Line → Option Int) : Setting → Option Value
  | .yes => some (.bool true)
  | .no => some (.bool false)
  | .number text => (toInt text).map .int
  | .string text => some (.str (restored text))

/-- A number is one word, which no rule takes for a boolean or a string; a string is of one line. -/
def Setting.Good (toInt : Line → Option Int) : Setting → Prop
  | .number text => text ≠ ['y'] ∧ text ≠ ['n'] ∧ (toInt text).isSome = true ∧
      ∀ c ∈ text, isSpace c = false ∧ c ≠ '"' ∧ c ≠ '\''
  | .string text => Unbroken text
  | _ => True

/-- Comments set nothing, and every symbol is written once. -/
structure Tidy (toInt : Line → Option Int) (items : List Item) : Prop where
  comments : ∀ text, .comment text ∈ items →
    (strip text = [] ∨ (strip text).head? = some '#') ∧ matchUnset (strip text) = none
  names : ∀ p ∈ settings items,
    p.1 ≠ [] ∧ (∀ c ∈ p.1, isIdentChar c = true) ∧ p.2.Good toInt
  once : ((settings items).map Prod.fst).Nodup

/-! ### Single lines -/

section Lines

variable {toInt : Line → Option Int} {name : Line}

theorem takeWhile_name (hname : ∀ c ∈ name, isIdentChar c = true) {d : Char}
    (hd : isIdentChar d = false) (rest : Line) :
    (name ++ d :: rest).takeWhile isIdentChar = name ∧
      (name ++ d :: rest).dropWhile isIdentChar = d :: rest := by
  rw [List.takeWhile_append_of_pos hname, List.dropWhile_append_of_pos hname,
    List.takeWhile_cons_of_neg (by simp [hd]), List.dropWhile_cons_of_neg (by simp [hd]),
    List.append_nil]
  exact ⟨rfl, rfl⟩

theorem matchAssign_line (hne : name ≠ []) (hname : ∀ c ∈ name, isIdentChar c = true)
    (value : Line) : matchAssign (lead ++ name ++ '=' :: value) = some (name, value) := by
  have hlead : afterLead lead (lead ++ name ++ '=' :: value) = some (name ++ '=' :: value) :=
    afterLead_eq_some.mpr (List.append_assoc ..)
  obtain ⟨htake, hdrop⟩ := takeWhile_name hname (d := '=') (by decide) value
  obtain ⟨c, rest, rfl⟩ := List.exists_cons_of_ne_nil hne
  rw [matchAssign, hlead, Option.bind_some, htake, hdrop]
  rfl

theorem matchAssign_none {text : Line} (h : text = [] ∨ text.head? = some '#') :
    matchAssign text = none := by
  have hlead : afterLead lead text = none := by
    cases hm : afterLead lead text with
    | none => rfl
    | some rest =>
      rw [afterLead_eq_some.mp hm] at h
      simp [lead] at h
  rw [matchAssign, hlead, Option.bind_none]

theorem matchUnset_none {text : Line} (h : text.head? ≠ some '#') : matchUnset text = none := by
  cases text with
  | nil => rfl
  | cons c rest =>
    unfold matchUnset
    split
    · next heq =>
      cases heq
      exact absurd rfl h
    · rfl

theorem matchUnset_line (hne : name ≠ []) (hname : ∀ c ∈ name, isIdentChar c = true) :
    matchUnset (['#', ' '] ++ lead ++ name ++ ' ' :: notSet) = some name := by
  have hlead : afterLead lead (lead ++ name ++ ' ' :: notSet) = some (name ++ ' ' :: notSet) :=
    afterLead_eq_some.mpr (List.append_assoc ..)
  obtain ⟨htake, hdrop⟩ := takeWhile_name hname (d := ' ') (by decide) notSet
  obtain ⟨c, rest, rfl⟩ := List.exists_cons_of_ne_nil hne
  have hblank : (' ' :: (lead ++ (c :: rest) ++ ' ' :: notSet)).dropWhile isSpace =
      lead ++ (c :: rest) ++ ' ' :: notSet := by
    rw [List.dropWhile_cons_of_pos (by decide)]
    exact List.dropWhile_cons_of_neg (by decide)
  have hline : ['#', ' '] ++ lead ++ (c :: rest) ++ ' ' :: notSet =
      '#' :: ' ' :: (lead ++ (c :: rest) ++ ' ' :: notSet) := rfl
  rw [hline, matchUnset, hblank, hlead, Option.bind_some, htake, hdrop]
  rfl

/-- A text between two characters that are no spaces is not stripped. -/
theorem strip_eq_self {c d : Char} (hc : isSpace c = false) (hd : isSpace d = false)
    (text : Line) : strip (c :: text ++ [d]) = c :: text ++ [d] := by
  have hfirst : (c :: text ++ [d]).dropWhile isSpace = c :: text ++ [d] :=
    List.dropWhile_cons_of_neg (by simp [hc])
  rw [strip, hfirst, List.reverse_append, List.reverse_singleton, List.singleton_append,
    List.dropWhile_cons_of_neg (by simp [hd]), List.reverse_cons, List.reverse_reverse]

theorem strip_of_no_space {text : Line} (h : ∀ c ∈ text, isSpace c = false) : strip text = text := by
  have hdrop : ∀ l : Line, (∀ c ∈ l, isSpace c = false) → l.dropWhile isSpace = l := by
    intro l hl
    cases l with
    | nil => rfl
    | cons c rest => exact List.dropWhile_cons_of_neg (by simp [hl c List.mem_cons_self])
  rw [strip, hdrop text h, hdrop text.reverse fun c hc => h c (List.mem_reverse.mp hc),
    List.reverse_reverse]

/-- What a line sets in the header. -/
def headerEntry (line : Line) : Option (Line × Line) :=
  (matchAssign (strip line)).map fun p => (lead ++ p.1, macroValue p.2)

/-- What a line sets in the reader. -/
def readerEntry (toInt : Line → Option Int) (line : Line) : Option (Line × Value) :=
  if strip line = [] ∨ (strip line).head? = some '#' ∧ ¬ notSet <:+: strip line then none
  else
    match matchUnset (strip line) with
    | some name => some (name, .bool false)
    | none => (matchAssign (strip line)).bind fun p =>
      (parseValue toInt (strip p.2)).map fun value => (p.1, value)

theorem parseConfigFile_eq (lines : List Line) (values : Dict Line Line) :
    parseConfigFile lines values =
      (lines.filterMap headerEntry).foldl (fun d s => d.set s.1 s.2) values := by
  rw [List.foldl_filterMap, parseConfigFile]
  congr 1
  funext d line
  rw [headerEntry]
  cases matchAssign (strip line) <;> rfl

theorem load_eq (toInt : Line → Option Int) (lines : List Line) :
    load toInt lines =
      (lines.filterMap (readerEntry toInt)).foldl (fun d s => d.set s.1 s.2) Dict.empty := by
  rw [List.foldl_filterMap, load]
  congr 1
  funext d line
  unfold readerEntry
  dsimp only
  split
  · rfl
  · cases matchUnset (strip line) with
    | some name => rfl
    | none =>
      cases matchAssign (strip line) with
      | none => rfl
      | some p =>
        dsimp only [Option.bind_some]
        cases parseValue toInt (strip p.2) <;> rfl

variable (toInt) in
/-- A line that starts with the lead is read as an assignment by both. -/
theorem entries_assign {line value : Line} (hne : name ≠ [])
    (hname : ∀ c ∈ name, isIdentChar c = true)
    (hstrip : strip line = lead ++ name ++ '=' :: value) :
    headerEntry line = some (lead ++ name, macroValue value) ∧
      readerEntry toInt line =
        (parseValue toInt (strip value)).map fun value => (name, value) := by
  have hassign := matchAssign_line hne hname value
  have hhead : (lead ++ name ++ '=' :: value).head? = some 'C' := rfl
  have hfirst : ¬ (lead ++ name ++ '=' :: value = [] ∨
      (lead ++ name ++ '=' :: value).head? = some '#' ∧
        ¬ notSet <:+: lead ++ name ++ '=' :: value) := by
    rintro (h | h)
    · rw [h] at hhead
      cases hhead
    · rw [hhead] at h
      exact absurd h.1 (by decide)
  constructor
  · rw [headerEntry, hstrip, hassign]
    rfl
  · rw [readerEntry, hstrip, if_neg hfirst, matchUnset_none (by rw [hhead]; decide), hassign]
    rfl

theorem isSpace_identChar {c : Char} (h : isIdentChar c = true) : isSpace c = false := by
  have hrange := identChar_range h
  rw [isSpace, decide_eq_false_iff_not]
  omega

theorem strip_assign {value : Line} (hname : ∀ c ∈ name, isIdentChar c = true)
    (hvalue : ∀ c ∈ value, isSpace c = false) :
    strip (lead ++ name ++ '=' :: value) = lead ++ name ++ '=' :: value := by
  have hlead : ∀ c ∈ lead, isIdentChar c = true := List.all_eq_true.mp (by decide)
  refine strip_of_no_space fun c hc => ?_
  rw [List.mem_append, List.mem_append, List.mem_cons] at hc
  rcases hc with (hc | hc) | rfl | hc
  · exact isSpace_identChar (hlead c hc)
  · exact isSpace_identChar (hname c hc)
  · rfl
  · exact hvalue c hc

theorem entries_yes (hne : name ≠ []) (hname : ∀ c ∈ name, isIdentChar c = true) :
    headerEntry (Setting.yes.line name) = some (lead ++ name, ['1']) ∧
      readerEntry toInt (Setting.yes.line name) = some (name, .bool true) :=
  entries_assign toInt hne hname (strip_assign hname fun c hc => by
    rw [List.mem_singleton.mp hc]
    decide)

theorem entries_number {text : Line} (hne : name ≠ []) (hname : ∀ c ∈ name, isIdentChar c = true)
    (hgood : (Setting.number text).Good toInt) :
    headerEntry ((Setting.number text).line name) = some (lead ++ name, text) ∧
      readerEntry toInt ((Setting.number text).line name) =
        ((toInt text).map .int).map fun value => (name, value) := by
  obtain ⟨hy, hn, -, hchars⟩ := hgood
  have hspace : ∀ c ∈ text, isSpace c = false := fun c hc => (hchars c hc).1
  have hquote : text.head? ≠ some '"' ∧ text.head? ≠ some '\'' := by
    cases text with
    | nil => exact ⟨nofun, nofun⟩
    | cons c rest =>
      have hc := hchars c List.mem_cons_self
      exact ⟨fun h => hc.2.1 (Option.some.inj h), fun h => hc.2.2 (Option.some.inj h)⟩
  obtain ⟨hheader, hreader⟩ := entries_assign toInt hne hname
    (strip_assign hname hspace)
  have hkept : macroValue text = text := by
    rw [macroValue, if_neg hy, if_neg hn, if_neg fun h => hquote.1 h.2.1]
  have hparse : parseValue toInt text = (toInt text).map .int := by
    rw [parseValue, if_neg hy, if_neg hn, if_neg fun h => h.2.elim (fun h => hquote.1 h.1)
      fun h => hquote.2 h.1]
  rw [hkept] at hheader
  rw [strip_of_no_space hspace, hparse] at hreader
  exact ⟨hheader, hreader⟩

theorem entries_string {text : Line} (hne : name ≠ [])
    (hname : ∀ c ∈ name, isIdentChar c = true) :
    headerEntry ((Setting.string text).line name) = some (lead ++ name, escape text) ∧
      readerEntry toInt ((Setting.string text).line name) = some (name, .str (restored text)) := by
  have hquoted : quoted text = '"' :: escape text ++ ['"'] := rfl
  have hline : strip ((Setting.string text).line name) = lead ++ name ++ '=' :: quoted text := by
    have hends : lead ++ name ++ '=' :: quoted text =
        'C' :: (lead.tail ++ name ++ '=' :: '"' :: escape text) ++ ['"'] := by
      simp [quoted, lead]
    show strip (lead ++ name ++ '=' :: quoted text) = _
    rw [hends]
    exact strip_eq_self (by decide) (by decide) _
  have hkept : macroValue (quoted text) = escape text := by
    have hy : quoted text ≠ ['y'] := fun h => absurd (List.cons.inj h).1 (by decide)
    have hn : quoted text ≠ ['n'] := fun h => absurd (List.cons.inj h).1 (by decide)
    have hlast : (quoted text).getLast? = some '"' := List.getLast?_concat
    have hinner : ((quoted text).drop 1).dropLast = escape text := List.dropLast_concat
    rw [macroValue, if_neg hy, if_neg hn,
      if_pos ⟨by simp [quoted], rfl, hlast⟩, hinner]
  obtain ⟨hheader, hreader⟩ := entries_assign toInt hne hname hline
  have hstrip : strip (quoted text) = quoted text := by
    rw [hquoted]
    exact strip_eq_self (by decide) (by decide) _
  rw [hkept] at hheader
  rw [hstrip, parseValue_quoted] at hreader
  exact ⟨hheader, hreader⟩

theorem entries_no (hne : name ≠ []) (hname : ∀ c ∈ name, isIdentChar c = true) :
    headerEntry (Setting.no.line name) = none ∧
      readerEntry toInt (Setting.no.line name) = some (name, .bool false) := by
  have hstrip : strip (Setting.no.line name) = Setting.no.line name := by
    have hends : Setting.no.line name = '#' :: (' ' :: lead ++ name ++ ' ' :: notSet.dropLast) ++
        ['t'] := by simp [Setting.line, lead, notSet]
    rw [hends]
    exact strip_eq_self (by decide) (by decide) _
  have hcontains : notSet <:+: Setting.no.line name :=
    ⟨['#', ' '] ++ lead ++ name ++ [' '], [], by simp [Setting.line]⟩
  have hunset : matchUnset (Setting.no.line name) = some name := matchUnset_line hne hname
  constructor
  · rw [headerEntry, hstrip, matchAssign_none (.inr rfl)]
    rfl
  · rw [readerEntry, hstrip, hunset, if_neg]
    rintro (h | h)
    · cases h
    · exact h.2 hcontains

theorem entries_comment {text : Line} (hstart : strip text = [] ∨ (strip text).head? = some '#')
    (hunset : matchUnset (strip text) = none) :
    headerEntry text = none ∧ readerEntry toInt text = none := by
  have hassign := matchAssign_none hstart
  constructor
  · rw [headerEntry, hassign]
    rfl
  · rw [readerEntry, hunset, hassign]
    exact ite_self none

end Lines

/-! ### The written file -/

section Written

variable {toInt : Line → Option Int} {items : List Item}

/-- Every line sets what is meant by it, in the header and in the reader. -/
theorem Tidy.entries (tidy : Tidy toInt items) :
    (items.map Item.line).filterMap headerEntry =
        (settings items).filterMap (fun p => p.2.header.map fun value => (lead ++ p.1, value)) ∧
      (items.map Item.line).filterMap (readerEntry toInt) =
        (settings items).filterMap (fun p => (p.2.value toInt).map fun value => (p.1, value)) := by
  rw [List.filterMap_map, List.filterMap_map, settings, List.filterMap_filterMap,
    List.filterMap_filterMap]
  have hitem : ∀ item ∈ items, headerEntry item.line =
        (match item with
          | .comment _ => none
          | .setting name value => some (name, value)).bind
          (fun p : Line × Setting => p.2.header.map fun value => (lead ++ p.1, value)) ∧
      readerEntry toInt item.line =
        (match item with
          | .comment _ => none
          | .setting name value => some (name, value)).bind
          (fun p : Line × Setting => (p.2.value toInt).map fun value => (p.1, value)) := by
    intro item hmem
    cases item with
    | comment text =>
      obtain ⟨hstart, hunset⟩ := tidy.comments text hmem
      exact entries_comment hstart hunset
    | setting name value =>
      have hsetting : (name, value) ∈ settings items := List.mem_filterMap.mpr ⟨_, hmem, rfl⟩
      obtain ⟨hne, hname, hgood⟩ := tidy.names _ hsetting
      cases value with
      | yes => exact entries_yes hne hname
      | no => exact entries_no hne hname
      | number text => exact entries_number hne hname hgood
      | string text => exact entries_string hne hname
  exact ⟨List.filterMap_congr fun item hmem => (hitem item hmem).1,
    List.filterMap_congr fun item hmem => (hitem item hmem).2⟩

theorem keys_sublist {α κ ν : Type} {f : α → Option (κ × ν)} {key : α → κ}
    (h : ∀ a p, f a = some p → p.1 = key a) (l : List α) :
    ((l.filterMap f).map Prod.fst).Sublist (l.map key) := by
  induction l with
  | nil => exact List.Sublist.refl _
  | cons a l ih =>
    rw [List.filterMap_cons, List.map_cons]
    cases hf : f a with
    | none => exact ih.cons _
    | some p =>
      show (p.1 :: _).Sublist _
      rw [h a p hf]
      exact ih.cons_cons _

theorem lineEnd_isSpace {c : Char} (h : isSpace c = false) : isLineEnd c = false := by
  rw [isSpace, decide_eq_false_iff_not] at h
  rw [isLineEnd, decide_eq_false_iff_not]
  omega

theorem unbroken_escape {text : Line} (h : Unbroken text) : Unbroken (escape text) := by
  induction text with
  | nil => exact nofun
  | cons c text ih =>
    have hc := h c List.mem_cons_self
    have hrest := ih fun d hd => h d (List.mem_cons_of_mem _ hd)
    rw [escape]
    split
    · intro d hd
      rcases List.mem_cons.mp hd with rfl | hd
      · rfl
      · exact (List.mem_cons.mp hd).elim (fun heq => heq ▸ hc) (hrest d)
    · exact fun d hd => (List.mem_cons.mp hd).elim (fun heq => heq ▸ hc) (hrest d)

theorem Tidy.unbroken_header (tidy : Tidy toInt items) {p : Line × Setting}
    (hp : p ∈ settings items) {value : Line} (h : p.2.header = some value) : Unbroken value := by
  obtain ⟨name, setting⟩ := p
  have hgood := (tidy.names _ hp).2.2
  cases setting with
  | yes =>
    cases h
    exact unbroken_of_any (by decide)
  | no => cases h
  | number text =>
    cases h
    exact fun c hc => lineEnd_isSpace (hgood.2.2.2 c hc).1
  | string text =>
    cases h
    exact unbroken_escape hgood

end Written

/-- A boolean, a symbol that is not set, a number and a string, under a comment. -/
def radioItems : List Item :=
  [.comment "# Radio".toList, .setting ['R', 'F'] .yes, .setting ['B', 'T'] .no,
    .setting ['C', 'H'] (.number ['7']), .setting ['I', 'D'] (.string ['a', '"'])]

def radioInt (text : Line) : Option Int := if text = ['7'] then some 7 else none

example : readHeader (configHeader [radioItems.map Item.line]) =
    [("CONFIG_RF".toList, ['1']), ("CONFIG_CH".toList, ['7']),
      ("CONFIG_ID".toList, "a\\\"".toList)] := by decide +kernel

/-- **The last assignment decides.** Whatever lines the files have, a symbol's macro has the value of
the last assignment to it in all of them, and a line that unsets it takes nothing back. -/
theorem configValues_last (files : List (List Line)) (name : Line) :
    (configValues files).get? (lead ++ name) =
      (((files.flatten.filterMap fun line => matchAssign (strip line)).filter
        (fun p => p.1 = name)).getLast?).map fun p => macroValue p.2 := by
  have hfold : configValues files =
      (files.flatten.filterMap headerEntry).foldl (fun d s => d.set s.1 s.2) Dict.empty := by
    suffices h : ∀ d, files.foldl (fun values lines => parseConfigFile lines values) d =
        (files.flatten.filterMap headerEntry).foldl (fun d s => d.set s.1 s.2) d from h Dict.empty
    induction files with
    | nil => exact fun d => rfl
    | cons lines files ih =>
      intro d
      rw [List.foldl_cons, ih, parseConfigFile_eq, List.flatten_cons, List.filterMap_append,
        List.foldl_append]
  have hentries : files.flatten.filterMap headerEntry =
      (files.flatten.filterMap fun line => matchAssign (strip line)).map
        (fun p => (lead ++ p.1, macroValue p.2)) := by
    rw [List.map_filterMap]
    rfl
  have hfilter : ∀ assigns : List (Line × Line),
      (assigns.map fun p => (lead ++ p.1, macroValue p.2)).filter
          (fun s => s.1 = lead ++ name) =
        (assigns.filter (fun p => p.1 = name)).map (fun p => (lead ++ p.1, macroValue p.2)) := by
    intro assigns
    rw [List.filter_map]
    congr 1
    refine List.filter_congr fun p _ => ?_
    simp
  rw [hfold, Dict.get?_foldl_set, hentries, hfilter, List.getLast?_map]
  cases ((files.flatten.filterMap fun line => matchAssign (strip line)).filter
    (fun p => p.1 = name)).getLast? <;> rfl

end UniSdk.Scripts.ConfigHeader

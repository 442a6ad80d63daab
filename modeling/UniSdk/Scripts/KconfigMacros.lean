import UniSdk.Library.Dict
import UniSdk.Scripts.ForLoopsRun
import UniSdk.Scripts.Properties

/-!
# The macros of `parse_kconfig.py`

`expand_macros` replaces every `${key}` by what the properties hold under the key. A macro never goes
over the end of a line, so the lines of an expanded text are the expanded lines; `process_kconfig`
expands before and after the loops are run.
-/

namespace UniSdk.Scripts.KconfigMacros

open UniSdk.Library.Defines (isIdentChar)
open UniSdk.Library.Lines
open UniSdk.Library.Macros
open UniSdk.Scripts.ForLoops (CharClass Template expandForLoops hasText)
open UniSdk.Scripts.Properties

/-! ### The properties -/

/-- `(\d+)\]$`, as an integer. -/
def matchIndex (rest : Line) : Option Nat :=
  match rest.takeWhile Char.isDigit, rest.dropWhile Char.isDigit with
  | d :: digits, [']'] => some (Nat.ofDigitChars 10 (d :: digits) 0)
  | _, _ => none

/-- `(\w+)\[(\d+)\]$`, for the characters that a key may have. -/
def matchIndexed (part : Line) : Option (Line × Nat) :=
  match part.takeWhile isIdentChar, part.dropWhile isIdentChar with
  | c :: name, '[' :: rest => (matchIndex rest).map fun idx => (c :: name, idx)
  | _, _ => none

/-- `val[name]` where there is one. -/
def entry (val : Yaml) (name : Line) : Option Yaml :=
  match val with
  | .dict entries => Library.Dict.lookup (.str name) entries
  | _ => none

/-- The loop body of `get_yaml_value`. -/
def followPart (val : Yaml) (part : Line) : Option Yaml :=
  match matchIndexed part with
  | some (name, idx) =>
    match entry val name with
    | some (.list items) => items[idx]?
    | _ => none
  | none => entry val part

/-- `get_yaml_value` -/
def getYamlValue (properties : Yaml) (key : Line) : Option Yaml :=
  (key.splitOn '.').foldlM followPart properties

/-! ### The expansion -/

/-- What the script takes from Python: the value of an integer scalar, and `str` of a list or a
dictionary. -/
structure Python where
  intValue : Line → Int
  container : Yaml → Line

/-- `str` -/
def Python.str (py : Python) : Yaml → Line
  | .null => "None".toList
  | .bool value => if value then "True".toList else "False".toList
  | .int text => (toString (py.intValue text)).toList
  | .text value => value
  | val => py.container val

/-- `[A-Za-z0-9_.\[\]]` -/
def isKeyChar (c : Char) : Bool := isIdentChar c || c = '.' || c = '[' || c = ']'

/-- The key of a macro at the head of a text. -/
def macroAt : Line → Option Line
  | '$' :: '{' :: rest =>
    match rest.takeWhile isKeyChar, rest.dropWhile isKeyChar with
    | c :: key, '}' :: _ => some (c :: key)
    | _, _ => none
  | _ => none

/-- `match.group(0)` -/
def macroText (key : Line) : Line := ['$', '{'] ++ key ++ ['}']

def countSuffix : Line := ['.', 'c', 'o', 'u', 'n', 't']

/-- The value of a key that is no count. -/
def plainText (py : Python) (properties : Yaml) (key : Line) : Line :=
  match getYamlValue properties key with
  | some (.list items) => List.intercalate [','] (items.map py.str)
  | some (.bool value) => if value then ['y'] else ['n']
  | none | some .null => macroText key
  | some val => py.str val

/-- `repl` -/
def repl (py : Python) (properties : Yaml) (key : Line) : Line :=
  if countSuffix.isSuffixOf key then
    match getYamlValue properties (key.take (key.length - 6)) with
    | some (.list items) => (toString items.length).toList
    | _ => plainText py properties key
  else plainText py properties key

/-- `re.sub`, from left to right; `skip` characters belong to the last match. -/
def subFrom (replace : Line → Line) : Nat → List Char → List Char
  | _, [] => []
  | skip + 1, _ :: rest => subFrom replace skip rest
  | 0, c :: rest =>
    match macroAt (c :: rest) with
    | some key => replace key ++ subFrom replace (key.length + 2) rest
    | none => c :: subFrom replace 0 rest

/-- `expand_macros` -/
def expandMacros (py : Python) (text : List Char) (properties : Yaml) : List Char :=
  subFrom (repl py properties) 0 text

/-- The text that `process_kconfig` writes. -/
def processKconfig (chars : CharClass) (py : Python) (properties : Yaml) (text : List Char) :
    List Char :=
  expandMacros py (expandForLoops chars (expandMacros py text properties)) properties

/-! ### One match -/

theorem macroAt_eq_some {text key : Line} :
    macroAt text = some key ↔
      key ≠ [] ∧ (∀ c ∈ key, isKeyChar c = true) ∧ macroText key <+: text := by
  have hclose : isKeyChar '}' = false := by decide
  constructor
  · intro h
    unfold macroAt at h
    split at h
    · next rest =>
      split at h
      · next c name after htake hdrop =>
        cases h
        refine ⟨List.cons_ne_nil _ _, ?_, after, ?_⟩
        · rw [← htake]
          exact fun c hc => List.mem_takeWhile_imp hc
        · have hrest := List.takeWhile_append_dropWhile (p := isKeyChar) (l := rest)
          rw [htake, hdrop] at hrest
          rw [← hrest]
          simp [macroText]
      · cases h
    · cases h
  · rintro ⟨hne, hchars, after, rfl⟩
    have htake : (key ++ '}' :: after).takeWhile isKeyChar = key := by
      rw [List.takeWhile_append_of_pos hchars, List.takeWhile_cons_of_neg (by simp [hclose]),
        List.append_nil]
    have hdrop : (key ++ '}' :: after).dropWhile isKeyChar = '}' :: after := by
      rw [List.dropWhile_append_of_pos hchars, List.dropWhile_cons_of_neg (by simp [hclose])]
    have htext : macroText key ++ after = '$' :: '{' :: (key ++ '}' :: after) := by
      simp [macroText]
    rw [htext, macroAt, htake, hdrop]
    cases key with
    | nil => exact absurd rfl hne
    | cons c name => rfl

theorem length_macroText (key : Line) : (macroText key).length = key.length + 3 := by
  simp [macroText]

/-- A character that is in a macro only as its `$`. -/
def isBreak (c : Char) : Bool := !isKeyChar c && c ≠ '{' && c ≠ '}'

/-- A macro does not reach over such a character. -/
theorem macroAt_append_break {c d : Char} (hc : isBreak c = true) (front back : List Char) :
    macroAt (d :: front ++ c :: back) = macroAt (d :: front) := by
  have hsame : ∀ key, (∀ e ∈ key, isKeyChar e = true) →
      (macroText key <+: d :: front ++ c :: back ↔ macroText key <+: d :: front) := by
    intro key hkey
    refine ⟨fun h => ?_, fun h => h.trans (List.prefix_append _ _)⟩
    by_cases hlength : (macroText key).length ≤ (d :: front).length
    · exact List.prefix_of_prefix_length_le h (List.prefix_append _ _) hlength
    · -- the character is behind the `$` of the macro
      exfalso
      have hpos : (d :: front).length < (macroText key).length := by omega
      have hget := h.getElem hpos
      rw [List.getElem_append_right (le_refl _)] at hget
      simp only [Nat.sub_self, List.getElem_cons_zero] at hget
      have hin : c ∈ '{' :: (key ++ ['}']) := by
        rw [← hget]
        simp only [macroText, List.length_cons, List.cons_append, List.nil_append,
          List.getElem_cons_succ]
        exact List.getElem_mem _
      have hcases : c = '{' ∨ c ∈ key ∨ c = '}' := by simpa using hin
      simp only [isBreak, Bool.and_eq_true, Bool.not_eq_true', decide_eq_true_eq] at hc
      rcases hcases with heq | hmem | heq
      · exact hc.1.2 heq
      · exact absurd (hkey c hmem) (by simp [hc.1.1])
      · exact hc.2 heq
  cases h : macroAt (d :: front) with
  | some key =>
    obtain ⟨hne, hchars, hp⟩ := macroAt_eq_some.mp h
    exact macroAt_eq_some.mpr ⟨hne, hchars, (hsame key hchars).mpr hp⟩
  | none =>
    cases h' : macroAt (d :: front ++ c :: back) with
    | none => rfl
    | some key =>
      obtain ⟨hne, hchars, hp⟩ := macroAt_eq_some.mp h'
      rw [macroAt_eq_some.mpr ⟨hne, hchars, (hsame key hchars).mp hp⟩] at h
      cases h

/-! ### The text around the matches -/

section Sub

variable {replace : Line → Line}

theorem subFrom_append_break {c : Char} (hc : isBreak c = true) (back : List Char) :
    ∀ (front : List Char) (skip : Nat), skip ≤ front.length →
      subFrom replace skip (front ++ c :: back) =
        subFrom replace skip front ++ subFrom replace 0 (c :: back)
  | [], 0, _ => rfl
  | d :: front, skip + 1, h => subFrom_append_break hc back front skip (by simpa using h)
  | d :: front, 0, _ => by
    have hmacroAt := macroAt_append_break (d := d) hc front back
    rw [List.cons_append] at hmacroAt
    rw [List.cons_append, subFrom, subFrom, hmacroAt]
    cases h : macroAt (d :: front) with
    | none =>
      show d :: subFrom replace 0 (front ++ c :: back) = _
      rw [subFrom_append_break hc back front 0 (Nat.zero_le _)]
      rfl
    | some key =>
      have hlength := (macroAt_eq_some.mp h).2.2.length_le
      rw [length_macroText, List.length_cons] at hlength
      show replace key ++ subFrom replace (key.length + 2) (front ++ c :: back) = _
      rw [subFrom_append_break hc back front (key.length + 2) (by omega), List.append_assoc]

theorem subFrom_skip (text rest : List Char) :
    subFrom replace text.length (text ++ rest) = subFrom replace 0 rest := by
  induction text with
  | nil => rfl
  | cons c text ih => exact ih

/-- A macro is replaced wherever it stands. -/
theorem subFrom_macro {key : Line} (hne : key ≠ []) (hchars : ∀ c ∈ key, isKeyChar c = true)
    (front back : List Char) :
    subFrom replace 0 (front ++ macroText key ++ back) =
      subFrom replace 0 front ++ (replace key ++ subFrom replace 0 back) := by
  have htext : front ++ macroText key ++ back = front ++ '$' :: ('{' :: key ++ ['}'] ++ back) := by
    simp [macroText]
  rw [htext, subFrom_append_break (by decide) _ front 0 (Nat.zero_le _), subFrom]
  have hmacroAt : macroAt ('$' :: ('{' :: key ++ ['}'] ++ back)) = some key :=
    macroAt_eq_some.mpr ⟨hne, hchars, back, by simp [macroText]⟩
  rw [hmacroAt]
  have hlength : key.length + 2 = ('{' :: key ++ ['}']).length := by simp
  show _ ++ (replace key ++ subFrom replace (key.length + 2) _) = _
  rw [hlength, subFrom_skip]

theorem subFrom_of_no_dollar {text : List Char} (h : '$' ∉ text) : subFrom replace 0 text = text := by
  induction text with
  | nil => rfl
  | cons c text ih =>
    rw [List.mem_cons, not_or] at h
    have hnone : macroAt (c :: text) = none := by
      cases hm : macroAt (c :: text) with
      | none => rfl
      | some key =>
        obtain ⟨after, hafter⟩ := (macroAt_eq_some.mp hm).2.2
        exact absurd (List.cons.inj hafter).1 h.1
    rw [subFrom, hnone]
    show c :: subFrom replace 0 text = _
    rw [ih h.2]

end Sub

/-! ### The lines of an expanded text -/

section Lines

variable {replace : Line → Line}

theorem lineEnd_isBreak {c : Char} (hc : isLineEnd c = true) : isBreak c = true := by
  have hkey : isKeyChar c = false := by
    rw [← Bool.not_eq_true]
    intro h
    simp only [isKeyChar, Bool.or_eq_true, decide_eq_true_eq] at h
    rcases h with ((h | rfl) | rfl) | rfl
    · have hunbroken : Unbroken [c] :=
        identChar_unbroken fun d hd => by rwa [List.mem_singleton.mp hd]
      have hin := hunbroken c List.mem_cons_self
      rw [hc] at hin
      cases hin
    · cases hc
    · cases hc
    · cases hc
  have hopen : c ≠ '{' := by
    rintro rfl
    cases hc
  have hclose : c ≠ '}' := by
    rintro rfl
    cases hc
  simp [isBreak, hkey, hopen, hclose]

theorem subFrom_append_end {c : Char} (hc : isLineEnd c = true) (line rest : List Char) :
    subFrom replace 0 (line ++ c :: rest) = subFrom replace 0 line ++ c :: subFrom replace 0 rest := by
  rw [subFrom_append_break (lineEnd_isBreak hc) rest line 0 (Nat.zero_le _)]
  congr 1
  have hnone : macroAt (c :: rest) = none := by
    cases hm : macroAt (c :: rest) with
    | none => rfl
    | some key =>
      obtain ⟨after, hafter⟩ := (macroAt_eq_some.mp hm).2.2
      rw [← (List.cons.inj hafter).1] at hc
      cases hc
  rw [subFrom, hnone]

theorem unbroken_subFrom (hreplace : ∀ key, (∀ c ∈ key, isKeyChar c = true) → Unbroken (replace key))
    {line : List Char} (h : Unbroken line) (skip : Nat) : Unbroken (subFrom replace skip line) := by
  induction line generalizing skip with
  | nil =>
    rw [subFrom]
    exact h
  | cons c line ih =>
    have hline : Unbroken line := fun d hd => h d (List.mem_cons_of_mem _ hd)
    cases skip with
    | succ skip => exact ih hline skip
    | zero =>
      rw [subFrom]
      cases hm : macroAt (c :: line) with
      | none =>
        intro d hd
        rcases List.mem_cons.mp hd with rfl | hd
        · exact h d List.mem_cons_self
        · exact ih hline 0 d hd
      | some key =>
        exact (hreplace key (macroAt_eq_some.mp hm).2.1).append (ih hline (key.length + 2))

/-- The lines of an expanded text that are not blank are the expanded lines. -/
theorem content_subFrom
    (hreplace : ∀ key, (∀ c ∈ key, isKeyChar c = true) → Unbroken (replace key))
    (text : List Char) :
    content hasText (subFrom replace 0 text) =
      ((splitlines text).map (subFrom replace 0)).filter hasText := by
  have hblank : hasText [] = false := rfl
  induction text using lines_induction with
  | line line hline =>
    have hsub := unbroken_subFrom hreplace hline 0
    by_cases hnil : line = []
    · subst hnil
      rfl
    · rw [content_of_unbroken hblank hsub, splitlines_of_unbroken hline hnil, List.map_singleton,
        List.filter_singleton]
      cases hasText (subFrom replace 0 line) <;> rfl
  | append line c rest hline hc ih =>
    obtain ⟨lines, hlines, hrest⟩ := splitlines_end hc rest
    obtain ⟨lines', hlines', hrest'⟩ := splitlines_end hc (subFrom replace 0 rest)
    have hcontent : lines'.filter hasText = content hasText (subFrom replace 0 rest) := by
      rcases hrest' with heq | heq
      · rw [content, heq]
      · rw [content, heq, List.filter_cons_of_neg (by simp [hblank])]
    have hmap : (lines.map (subFrom replace 0)).filter hasText =
        ((splitlines rest).map (subFrom replace 0)).filter hasText := by
      rcases hrest with heq | heq
      · rw [heq]
      · have hempty : hasText (subFrom replace 0 []) = false := rfl
        rw [heq, List.map_cons, List.filter_cons_of_neg (by simp [hempty])]
    rw [subFrom_append_end hc, content,
      splitlines_append_end (unbroken_subFrom hreplace hline 0) hlines',
      splitlines_append_end hline hlines, List.map_cons, List.filter_cons, List.filter_cons,
      hcontent, ih, hmap]

theorem blank_subFrom {line : Line} (h : hasText line = false) :
    subFrom replace 0 line = line := by
  refine subFrom_of_no_dollar fun hmem => ?_
  have hspace := ForLoops.hasText_eq_false_iff.mp h '$' hmem
  cases hspace

theorem filter_map_subFrom (lines : List Line) :
    (lines.map (subFrom replace 0)).filter hasText =
      ((lines.filter hasText).map (subFrom replace 0)).filter hasText := by
  induction lines with
  | nil => rfl
  | cons line lines ih =>
    cases h : hasText line with
    | true => rw [List.filter_cons_of_pos h, List.map_cons, List.map_cons, List.filter_cons,
        List.filter_cons, ih]
    | false =>
      rw [List.filter_cons_of_neg (by simp [h]), List.map_cons, blank_subFrom h,
        List.filter_cons_of_neg (by simp [h]), ih]

end Lines

/-! ### Keys and paths -/

theorem entry_eq_some {val value : Yaml} {name : Line} (h : entry val name = some value) :
    ∃ entries, val = .dict entries ∧ Library.Dict.lookup (.str name) entries = some value := by
  cases val with
  | dict entries => exact ⟨entries, rfl, h⟩
  | _ => cases h

theorem mem_of_lookup {name : Line} {value : Yaml} {entries : List (Key × Yaml)}
    (h : Library.Dict.lookup (.str name) entries = some value) : (.str name, value) ∈ entries := by
  induction entries with
  | nil => cases h
  | cons e entries ih =>
    obtain ⟨k, v⟩ := e
    rw [Library.Dict.lookup] at h
    split at h
    · next hk =>
      cases h
      rw [hk]
      exact List.mem_cons_self
    · exact List.mem_cons_of_mem _ (ih h)

/-- What a part of a key finds can be reached. -/
theorem followPart_reaches {val value : Yaml} {part : Line} (h : followPart val part = some value) :
    ∃ path, val.Reaches path value := by
  unfold followPart at h
  split at h
  · next name idx hpart =>
    split at h
    · next items hentry =>
      obtain ⟨entries, rfl, hlookup⟩ := entry_eq_some hentry
      exact ⟨_, .key (mem_of_lookup hlookup) (.index h (.here value))⟩
    · cases h
  · obtain ⟨entries, rfl, hlookup⟩ := entry_eq_some h
    exact ⟨_, .key (mem_of_lookup hlookup) (.here value)⟩

theorem getYamlValue_reaches {properties value : Yaml} {key : Line}
    (h : getYamlValue properties key = some value) : ∃ path, properties.Reaches path value := by
  have hfold : ∀ (parts : List Line) (val : Yaml), parts.foldlM followPart val = some value →
      ∃ path, val.Reaches path value := by
    intro parts
    induction parts with
    | nil =>
      intro val hval
      cases hval
      exact ⟨[], .here _⟩
    | cons part parts ih =>
      intro val hval
      rw [List.foldlM_cons, Option.bind_eq_bind, Option.bind_eq_some_iff] at hval
      obtain ⟨next, hnext, hrest⟩ := hval
      obtain ⟨path, hpath⟩ := followPart_reaches hnext
      obtain ⟨more, hmore⟩ := ih next hrest
      exact ⟨path ++ more, Yaml.reaches_append hpath hmore⟩
  exact hfold _ _ h

/-- A part of a key: a name, and a position in the list that is there. -/
structure Part where
  name : Line
  index : Option Nat

def Part.text (part : Part) : Line :=
  part.name ++ match part.index with
    | none => []
    | some i => '[' :: (toString i).toList ++ [']']

def Part.steps (part : Part) : List Step :=
  .key (.str part.name) :: match part.index with
    | none => []
    | some i => [.index i]

def Part.Good (part : Part) : Prop :=
  part.name ≠ [] ∧ ∀ c ∈ part.name, isIdentChar c = true

def keyText (parts : List Part) : Line := List.intercalate ['.'] (parts.map Part.text)

def keySteps (parts : List Part) : List Step := parts.flatMap Part.steps

/-- The keys of every dictionary are different. -/
def Distinct (data : Yaml) : Prop :=
  ∀ path entries, data.Reaches path (.dict entries) → (entries.map Prod.fst).Nodup

theorem isDigit_toString {n : Nat} {c : Char} (h : c ∈ (toString n).toList) :
    c.isDigit = true := by
  rw [Nat.toString_eq_repr, Nat.toList_repr] at h
  exact Nat.isDigit_of_mem_toDigits (by decide) (by decide) h

theorem matchIndex_toString (i : Nat) : matchIndex ((toString i).toList ++ [']']) = some i := by
  have hdigits : ∀ c ∈ (toString i).toList, c.isDigit = true := fun c hc => isDigit_toString hc
  have hclose : ¬ Char.isDigit ']' = true := by decide
  have htake : ((toString i).toList ++ [']']).takeWhile Char.isDigit = (toString i).toList := by
    rw [List.takeWhile_append_of_pos hdigits, List.takeWhile_cons_of_neg hclose, List.append_nil]
  have hdrop : ((toString i).toList ++ [']']).dropWhile Char.isDigit = [']'] := by
    rw [List.dropWhile_append_of_pos hdigits, List.dropWhile_cons_of_neg hclose]
  have hvalue : Nat.ofDigitChars 10 (toString i).toList 0 = i := by
    rw [Nat.toString_eq_repr, Nat.toList_repr, Nat.ofDigitChars_ten_toDigits]
  have hne : (toString i).toList ≠ [] := by
    rw [Nat.toString_eq_repr, Nat.toList_repr]
    exact Nat.toDigits_ne_nil
  obtain ⟨d, digits, hd⟩ := List.exists_cons_of_ne_nil hne
  rw [hd] at hvalue
  rw [matchIndex, htake, hdrop, hd]
  exact congrArg some hvalue

theorem matchIndexed_text {part : Part} (h : part.Good) :
    matchIndexed part.text = part.index.map fun i => (part.name, i) := by
  obtain ⟨name, index⟩ := part
  obtain ⟨hne, hchars⟩ := h
  obtain ⟨first, more, hname⟩ : ∃ first more, name = first :: more :=
    List.exists_cons_of_ne_nil hne
  have hopen : ¬ isIdentChar '[' = true := by decide
  cases index with
  | none =>
    have htext : Part.text ⟨name, none⟩ = name ++ [] := rfl
    rw [htext, matchIndexed, List.takeWhile_append_of_pos hchars,
      List.dropWhile_append_of_pos hchars, hname]
    rfl
  | some i =>
    have htext : Part.text ⟨name, some i⟩ = name ++ '[' :: ((toString i).toList ++ [']']) := rfl
    rw [htext, matchIndexed, List.takeWhile_append_of_pos hchars,
      List.dropWhile_append_of_pos hchars, List.takeWhile_cons_of_neg hopen,
      List.dropWhile_cons_of_neg hopen, List.append_nil, hname]
    show (matchIndex ((toString i).toList ++ [']'])).map _ = _
    rw [matchIndex_toString]

/-- One part of a key goes where its steps go. -/
theorem followPart_text {val value : Yaml} {part : Part} (hgood : part.Good)
    (hdistinct : ∀ entries, val = .dict entries → (entries.map Prod.fst).Nodup) :
    followPart val part.text = some value ↔ val.Reaches part.steps value := by
  have hentry : ∀ target, entry val part.name = some target ↔
      val.Reaches [.key (.str part.name)] target := by
    intro target
    constructor
    · intro h
      obtain ⟨entries, rfl, hlookup⟩ := entry_eq_some h
      exact .key (mem_of_lookup hlookup) (.here _)
    · intro h
      cases h with
      | key hmem rest =>
        cases rest
        exact (Library.Dict.mem_iff_lookup (hdistinct _ rfl)).mp hmem
  rw [followPart, matchIndexed_text hgood]
  obtain ⟨name, index⟩ := part
  cases index with
  | none =>
    have htext : Part.text ⟨name, none⟩ = name := List.append_nil name
    rw [htext]
    exact hentry value
  | some i =>
    show (match entry val name with
      | some (.list items) => items[i]?
      | _ => none) = some value ↔ val.Reaches [.key (.str name), .index i] value
    constructor
    · intro h
      split at h
      · next items hitems =>
        have hlist := (hentry _).mp hitems
        exact Yaml.reaches_append hlist (.index h (.here value))
      · cases h
    · intro h
      cases h with
      | key hmem rest =>
        cases rest with
        | @index items _ _ _ _ hget rest =>
          cases rest
          rw [(hentry (.list items)).mpr (.key hmem (.here _))]
          exact hget

theorem reaches_append_iff {data target : Yaml} {path more : List Step} :
    data.Reaches (path ++ more) target ↔
      ∃ middle, data.Reaches path middle ∧ middle.Reaches more target := by
  refine ⟨fun h => ?_, fun ⟨middle, h, h'⟩ => Yaml.reaches_append h h'⟩
  induction path generalizing data with
  | nil => exact ⟨data, .here data, h⟩
  | cons step path ih =>
    cases h with
    | key hmem rest =>
      obtain ⟨middle, hpath, hmore⟩ := ih rest
      exact ⟨middle, .key hmem hpath, hmore⟩
    | index hget rest =>
      obtain ⟨middle, hpath, hmore⟩ := ih rest
      exact ⟨middle, .index hget hpath, hmore⟩

theorem no_dot_text {part : Part} (h : part.Good) : '.' ∉ part.text := by
  obtain ⟨name, index⟩ := part
  obtain ⟨-, hchars⟩ := h
  intro hdot
  rcases List.mem_append.mp hdot with hname | hindex
  · exact absurd (hchars '.' hname) (by decide)
  · cases index with
    | none => cases hindex
    | some i =>
      have hcases : '.' ∈ (toString i).toList := by simpa using hindex
      exact absurd (isDigit_toString hcases) (by decide)

/-- A key finds what its path leads to, and nothing else. -/
theorem getYamlValue_keyText {data value : Yaml} {parts : List Part} (hne : parts ≠ [])
    (hgood : ∀ part ∈ parts, part.Good) (hdistinct : Distinct data) :
    getYamlValue data (keyText parts) = some value ↔ data.Reaches (keySteps parts) value := by
  have hsplit : (keyText parts).splitOn '.' = parts.map Part.text := by
    refine List.splitOn_intercalate '.' (fun text htext => ?_) (by simpa using hne)
    obtain ⟨part, hpart, rfl⟩ := List.mem_map.mp htext
    exact no_dot_text (hgood part hpart)
  rw [getYamlValue, hsplit]
  clear hsplit hne
  induction parts generalizing data with
  | nil =>
    constructor
    · intro h
      cases h
      exact .here _
    · intro h
      cases h
      rfl
  | cons part parts ih =>
    have hpart : ∀ next, followPart data part.text = some next ↔ data.Reaches part.steps next :=
      fun next => followPart_text (hgood part List.mem_cons_self)
        (fun entries hdata => hdistinct [] entries (hdata ▸ .here data))
    have hrest : ∀ next, data.Reaches part.steps next →
        ((parts.map Part.text).foldlM followPart next = some value ↔
          next.Reaches (keySteps parts) value) := by
      intro next hnext
      exact ih (fun p hp => hgood p (List.mem_cons_of_mem _ hp))
        (fun path entries h => hdistinct _ entries (Yaml.reaches_append hnext h))
    have hsteps : keySteps (part :: parts) = part.steps ++ keySteps parts := rfl
    rw [List.map_cons, List.foldlM_cons, Option.bind_eq_bind, Option.bind_eq_some_iff, hsteps,
      reaches_append_iff]
    refine exists_congr fun next => ?_
    rw [hpart]
    exact and_congr_right fun hnext => hrest next hnext

/-! ### The macros of Kconfig and those of C -/

/-- The two texts of one scalar, in the header and for `${key}`. -/
inductive SameScalar (py : Python) (key : Line) : Yaml → Line → Line → Prop
  | text (value : Line) : SameScalar py key (.text value) value value
  | decimal (text : Line) (h : isHex text = false) :
      SameScalar py key (.int text) (py.str (.int text)) (py.str (.int text))
  | hex (text : Line) (h : isHex text = true) :
      SameScalar py key (.int text) text (py.str (.int text))
  | yes : SameScalar py key (.bool true) "true".toList ['y']
  | no : SameScalar py key (.bool false) "false".toList ['n']
  | null : SameScalar py key .null "None".toList (macroText key)

section Agreement

variable {py : Python} {data value : Yaml} {key : Line}

theorem expandMacros_single (hne : key ≠ []) (hchars : ∀ c ∈ key, isKeyChar c = true) :
    expandMacros py (macroText key) data = repl py data key := by
  have hsub : subFrom (repl py data) 0 ([] ++ macroText key ++ []) = _ :=
    subFrom_macro hne hchars [] []
  rw [List.nil_append, List.append_nil] at hsub
  rw [expandMacros, hsub]
  exact List.append_nil _

/-- A count is taken of lists only, and under a list there is no key. -/
theorem repl_of_found (hfound : getYamlValue data key = some value) :
    repl py data key = plainText py data key := by
  unfold repl
  split
  · next hsuffix =>
    split
    · next items hitems =>
      exfalso
      obtain ⟨pre, hpre⟩ := List.isSuffixOf_iff_suffix.mp hsuffix
      have htake : key.take (key.length - 6) = pre := by
        rw [← hpre, List.length_append]
        exact List.take_left' (by simp [countSuffix])
      have hsplit : key.splitOn '.' = pre.splitOn '.' ++ [countSuffix.tail] := by
        rw [← hpre]
        exact List.splitOn_append_cons_self pre countSuffix.tail
      rw [htake] at hitems
      rw [getYamlValue, hsplit, List.foldlM_append, ← getYamlValue, hitems] at hfound
      have hnone : followPart (.list items) countSuffix.tail = none := rfl
      rw [Option.bind_eq_bind, Option.bind_some, List.foldlM_cons, hnone] at hfound
      cases hfound
    · rfl
  · rfl

theorem plainText_scalar (hfound : getYamlValue data key = some value)
    (hscalar : value.isScalar = true) :
    SameScalar py key value (headerText py.intValue value) (plainText py data key) := by
  rw [plainText, hfound]
  cases value with
  | null => exact .null
  | bool value =>
    cases value with
    | false => exact .no
    | true => exact .yes
  | int text =>
    show SameScalar py key (.int text) (headerText py.intValue (.int text)) (py.str (.int text))
    rw [headerText]
    split
    · next hhex => exact .hex text hhex
    · next hdec => exact .decimal text (by simpa using hdec)
  | text value => exact .text value
  | list items => cases hscalar
  | dict entries => cases hscalar

theorem repl_count {items : List Yaml} (hfound : getYamlValue data key = some (.list items)) :
    repl py data (key ++ countSuffix) = (toString items.length).toList := by
  have hsuffix : countSuffix.isSuffixOf (key ++ countSuffix) = true :=
    List.isSuffixOf_iff_suffix.mpr (List.suffix_append _ _)
  have htake : (key ++ countSuffix).take ((key ++ countSuffix).length - 6) = key := by
    rw [List.length_append]
    exact List.take_left' (by simp [countSuffix])
  rw [repl, if_pos hsuffix, htake, hfound]

theorem keyChar_text {part : Part} (h : part.Good) : ∀ c ∈ part.text, isKeyChar c = true := by
  obtain ⟨name, index⟩ := part
  obtain ⟨-, hchars⟩ := h
  intro c hc
  rcases List.mem_append.mp hc with hname | hindex
  · rw [isKeyChar, hchars c hname]
    rfl
  · cases index with
    | none => cases hindex
    | some i =>
      have hcases : c = '[' ∨ c ∈ (toString i).toList ∨ c = ']' := by simpa using hindex
      rcases hcases with rfl | hdigit | rfl
      · rfl
      · rw [isKeyChar, identChar_toString i c hdigit]
        rfl
      · rfl

theorem keyText_good {parts : List Part} (hne : parts ≠ []) (hgood : ∀ part ∈ parts, part.Good) :
    keyText parts ≠ [] ∧ ∀ c ∈ keyText parts, isKeyChar c = true := by
  refine ⟨fun hnil => ?_, ?_⟩
  · obtain ⟨part, rest, rfl⟩ := List.exists_cons_of_ne_nil hne
    have hpart := (hgood part List.mem_cons_self).1
    by_cases hrest : rest = []
    · subst hrest
      rw [keyText, List.map_singleton, List.intercalate_singleton] at hnil
      exact hpart (List.append_eq_nil_iff.mp hnil).1
    · rw [keyText, List.map_cons, List.intercalate_cons_of_ne_nil (by simpa using hrest)] at hnil
      have htext := (List.append_eq_nil_iff.mp (List.append_eq_nil_iff.mp hnil).1).1
      exact hpart (List.append_eq_nil_iff.mp htext).1
  · refine all_intercalate (p := fun c => isKeyChar c = true) ?_ ?_
    · exact fun c hc => by rw [List.mem_singleton.mp hc]; rfl
    · intro text htext
      obtain ⟨part, hpart, rfl⟩ := List.mem_map.mp htext
      exact keyChar_text (hgood part hpart)

end Agreement

theorem busProperties_distinct : Distinct (.dict busProperties) := by
  intro path entries h
  rcases busProperties_reaches h with heq | heq | ⟨text, heq⟩ | heq | heq <;> cases heq
  · decide
  · exact List.nodup_singleton _

def busPython : Python where
  intValue := busValue
  container := fun _ => []

/-- No value of the properties goes over several lines. -/
def OneLine (py : Python) (properties : Yaml) : Prop :=
  ∀ path value, properties.Reaches path value → Unbroken (py.str value)

section Process

variable {py : Python} {properties : Yaml}

theorem unbroken_macroText {key : Line} (h : ∀ c ∈ key, isKeyChar c = true) :
    Unbroken (macroText key) := by
  intro c hc
  have hcases : c = '$' ∨ c = '{' ∨ c ∈ key ∨ c = '}' := by simpa [macroText] using hc
  rw [← Bool.not_eq_true]
  intro hend
  rcases hcases with rfl | rfl | hkey | rfl
  · cases hend
  · cases hend
  · have hbreak := lineEnd_isBreak hend
    simp [isBreak, h c hkey] at hbreak
  · cases hend

theorem unbroken_plainText (hone : OneLine py properties) {key : Line}
    (h : ∀ c ∈ key, isKeyChar c = true) : Unbroken (plainText py properties key) := by
  unfold plainText
  split
  · next items hget =>
    obtain ⟨path, hpath⟩ := getYamlValue_reaches hget
    refine all_intercalate (p := fun c => isLineEnd c = false) ?_ ?_
    · exact fun c hc => by rw [List.mem_singleton.mp hc]; rfl
    · intro text htext
      obtain ⟨item, hitem, rfl⟩ := List.mem_map.mp htext
      obtain ⟨i, hi, hget⟩ := List.getElem_of_mem hitem
      exact hone _ item (Yaml.reaches_append hpath
        (.index (List.getElem?_eq_some_iff.mpr ⟨hi, hget⟩) (.here item)))
  · next value _ =>
    intro c hc
    cases value <;> (rw [List.mem_singleton.mp hc]; rfl)
  · exact unbroken_macroText h
  · exact unbroken_macroText h
  · next val _ _ _ hget =>
    obtain ⟨path, hpath⟩ := getYamlValue_reaches hget
    exact hone path val hpath

theorem unbroken_repl (hone : OneLine py properties) (key : Line)
    (h : ∀ c ∈ key, isKeyChar c = true) : Unbroken (repl py properties key) := by
  unfold repl
  split
  · split
    · exact ForLoops.unbroken_toString _
    · exact unbroken_plainText hone h
  · exact unbroken_plainText hone h

end Process

theorem busProperties_oneLine : OneLine busPython (.dict busProperties) := by
  intro path value h
  rcases busProperties_reaches h with rfl | rfl | ⟨text, rfl⟩ | rfl | rfl
  · exact nofun
  · exact nofun
  · exact nofun
  · exact unbroken_of_any (by decide +kernel)
  · exact unbroken_of_any (by decide +kernel)

/-- A loop over the buses, whose body takes the pin of each. -/
def busTemplate : Template :=
  .loop "for i in range 0 2".toList (.plain " default ${bus[{i}].pin}".toList .nil)
    "endfor".toList .nil

theorem busTemplate_text :
    splitlines (expandMacros busPython
      "for i in range 0 ${bus.count}\n default ${bus[{i}].pin}\nendfor".toList
      (.dict busProperties)) = busTemplate.lines := by decide +kernel

example : ((ForLoops.run ForLoops.asciiClass [] busTemplate).map fun line =>
    expandMacros busPython line (.dict busProperties)) =
      [" default 16".toList, " default 5".toList] := by decide +kernel

end UniSdk.Scripts.KconfigMacros

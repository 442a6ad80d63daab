import UniSdk.Library.Lines
import UniSdk.Library.Text
import UniSdk.Scripts.Pinmux
import Mathlib.Data.List.TakeWhile

/-!
# The loops of `parse_kconfig.py`

`expand_for_loops` finds a header by its pattern, takes the lines up to what it counts as the
matching `endfor`, writes them once for every value with the value put in for the variable, and
expands the result. `extract_block` counts the headers of inner blocks before anything is put in.
A template is a tree of lines and loops; the reference runs it from the outermost loop inward.
-/

namespace UniSdk.Scripts.ForLoops

open UniSdk.Library.Lines
open UniSdk.Library.Text (afterLead afterLead_eq_some)
open UniSdk.Scripts.Pinmux (isSpace strip)

/-- `\w`, and `\d` with the value that `int` gives a digit. -/
structure CharClass where
  isWord : Char → Bool
  decimal : Char → Option Nat

/-! ### The headers -/

section Patterns

variable (chars : CharClass)

/-- `\s+`. -/
def afterSpaces : Line → Option Line
  | [] => none
  | c :: rest => if isSpace c then some (rest.dropWhile isSpace) else none

/-- A group of one or more characters, and what follows. -/
def takeSome (p : Char → Bool) (text : Line) : Option (Line × Line) :=
  if text.takeWhile p = [] then none else some (text.takeWhile p, text.dropWhile p)

/-- `for\s+(\w+)\s+in`, and what follows. -/
def matchFor (text : Line) : Option (Line × Line) := do
  let rest ← afterLead "for".toList text
  let rest ← afterSpaces rest
  let (var, rest) ← takeSome chars.isWord rest
  let rest ← afterSpaces rest
  let rest ← afterLead "in".toList rest
  return (var, rest)

/-- `int` of a group of digits. -/
def toInt (digits : Line) : Nat :=
  digits.foldl (fun n c => 10 * n + (chars.decimal c).getD 0) 0

/-- The variable and what follows `\s+range\s+`. -/
def matchRangeFor (text : Line) : Option (Line × Line) := do
  let (var, rest) ← matchFor chars text
  let rest ← afterSpaces rest
  let rest ← afterLead "range".toList rest
  let rest ← afterSpaces rest
  return (var, rest)

/-- `m_range.groups()`, the bounds as integers. -/
def matchRange (text : Line) : Option (Line × Nat × Nat) := do
  let (var, rest) ← matchRangeFor chars text
  let (start, rest) ← takeSome (fun c => (chars.decimal c).isSome) rest
  let rest ← afterSpaces rest
  let (stop, _) ← takeSome (fun c => (chars.decimal c).isSome) rest
  return (var, toInt chars start, toInt chars stop)

/-- `(.+)\]`: the text before the last bracket. -/
def beforeBracket (text : Line) : Option Line :=
  match text.reverse.dropWhile (· ≠ ']') with
  | _ :: c :: rest => some (c :: rest).reverse
  | _ => none

/-- `m_list.groups()`. -/
def matchList (text : Line) : Option (Line × Line) := do
  let (var, rest) ← matchFor chars text
  let inner ← afterLead "[".toList (rest.dropWhile isSpace)
  let values ← beforeBracket inner
  return (var, values)

/-- `str.split(',')`. -/
def splitCommas : Line → List Line
  | [] => [[]]
  | c :: rest =>
    if c = ',' then [] :: splitCommas rest
    else match splitCommas rest with
      | [] => [[c]]
      | value :: values => (c :: value) :: values

/-- The variable of a header and the values it takes, as they are put in. -/
def matchHeader (text : Line) : Option (Line × List Line) :=
  match matchRange chars text with
  | some (var, start, stop) =>
    some (var, (List.range' start (stop - start)).map (fun val => (toString val).toList))
  | none => (matchList chars text).map (fun groups =>
      (groups.1, (splitCommas groups.2).map strip))

def isHeader (line : Line) : Bool := (matchHeader chars (strip line)).isSome

end Patterns

def isEndfor (line : Line) : Bool := "endfor".toList.isPrefixOf (strip line)

/-! ### The expansion -/

/-- `str.replace`, from left to right; `skip` characters belong to the last occurrence. -/
def replaceFrom (old new : Line) : Nat → Line → Line
  | _, [] => []
  | skip + 1, _ :: rest => replaceFrom old new skip rest
  | 0, c :: rest =>
    if old.isPrefixOf (c :: rest) then new ++ replaceFrom old new (old.length - 1) rest
    else c :: replaceFrom old new 0 rest

/-- `bl.replace(f"{{{var_name}}}", val)`. -/
def putIn (var val : Line) (line : Line) : Line :=
  replaceFrom ('{' :: var ++ ['}']) val 0 line

section Expansion

variable (chars : CharClass)

/-- `extract_block` from a line on, with the level of nesting: the lines of the block, and the
lines from the one at which it stops. -/
def extractBlock : Nat → List Line → List Line × List Line
  | _, [] => ([], [])
  | level, line :: rest =>
    if isHeader chars line then
      let found := extractBlock (level + 1) rest
      (line :: found.1, found.2)
    else if isEndfor line then
      match level with
      | 0 => ([], line :: rest)
      | level + 1 =>
        let found := extractBlock level rest
        (line :: found.1, found.2)
    else
      let found := extractBlock level rest
      (line :: found.1, found.2)

/-- `output_lines` of `expand_for_loops`. The fuel bounds the number of lines. -/
def outputLines : Nat → List Line → List (List Char)
  | 0, _ => []
  | _ + 1, [] => []
  | fuel + 1, line :: rest =>
    match matchHeader chars (strip line) with
    | some (var, vals) =>
      let found := extractBlock chars 0 rest
      vals.map (fun val => joinLines (outputLines fuel
        (splitlines (joinLines (found.1.map (putIn var val)))))) ++
        outputLines fuel (found.2.drop 1)
    | none =>
      if isEndfor line then outputLines fuel rest else line :: outputLines fuel rest

/-- `expand_for_loops`. Its second argument is not used. -/
def expandForLoops (templateText : List Char) : List Char :=
  let lines := splitlines templateText
  joinLines (outputLines chars lines.length lines)

end Expansion

/-! ### Templates -/

/-- Plain lines and loops in their order. -/
inductive Template
  | nil
  | plain (line : Line) (rest : Template)
  | loop (header : Line) (body : Template) (endfor : Line) (rest : Template)

namespace Template

def lines : Template → List Line
  | nil => []
  | plain line rest => line :: rest.lines
  | loop header body endfor rest => header :: (body.lines ++ endfor :: rest.lines)

end Template

/-- The variables of the enclosing loops with their values, the outermost first. -/
abbrev Env := List (Line × Line)

/-- A line with the values put in, the outermost first. -/
def fill (env : Env) (line : Line) : Line :=
  env.foldl (fun line binding => putIn binding.1 binding.2 line) line

section Reference

variable (chars : CharClass)

/-- The lines that the loops give when they are run from the outermost inward. -/
def run (env : Env) : Template → List Line
  | .nil => []
  | .plain line rest => fill env line :: run env rest
  | .loop header body _ rest =>
    (match matchHeader chars (strip (fill env header)) with
      | some (var, vals) => vals.flatMap (fun val => run (env ++ [(var, val)]) body)
      | none => []) ++ run env rest

/-- A bound of digits and variables in braces. -/
def boundFrom (inside : Bool) : Line → Bool
  | [] => !inside
  | c :: rest =>
    if inside then (c = '}' && boundFrom false rest) || (chars.isWord c && boundFrom true rest)
    else (c = '{' && boundFrom true rest) || ((chars.decimal c).isSome && boundFrom false rest)

/-- A range header whose bounds may still mention variables. -/
def isRangeForm (line : Line) : Bool :=
  match matchRangeFor chars (strip line) with
  | none => false
  | some (_, bounds) =>
    let start := bounds.takeWhile (fun c => !isSpace c)
    let rest := (bounds.dropWhile (fun c => !isSpace c)).dropWhile isSpace
    let stop := rest.takeWhile (fun c => !isSpace c)
    start ≠ [] && boundFrom chars false start && stop ≠ [] && boundFrom chars false stop

def isPlain (line : Line) : Bool := !isHeader chars line && !isEndfor line

/-- Every line reads as what it is in the tree while only the values of `env` are put in. -/
def Readable (env : Env) : Template → Prop
  | .nil => True
  | .plain line rest => isPlain chars (fill env line) = true ∧ Readable env rest
  | .loop header body endfor rest =>
    (isHeader chars (fill env header) || isRangeForm chars (fill env header)) = true ∧
      isEndfor (fill env endfor) = true ∧ Readable env body ∧ Readable env rest

/-- A properly nested template, which stays one as the loops are run. -/
def Proper (env : Env) : Template → Prop
  | .nil => True
  | .plain line rest => isPlain chars (fill env line) = true ∧ Proper env rest
  | .loop header body endfor rest =>
    isEndfor (fill env endfor) = true ∧ Readable chars env body ∧ Proper env rest ∧
      match matchHeader chars (strip (fill env header)) with
      | some (var, vals) => ∀ val ∈ vals, Proper (env ++ [(var, val)]) body
      | none => False

/-! ### Where a loop is cut -/

/-- The line is not blank. -/
def hasText (line : Line) : Bool := strip line ≠ []

/-- Nothing is lost with these lines. -/
def Loose (lines : List Line) : Prop :=
  ∀ line ∈ lines, hasText line = false ∨ isEndfor line = true

/-- What holds of every loop that is run, with the values of the enclosing ones put in. -/
def EveryLoop (Φ : Env → Template → Line → Prop) (env : Env) : Template → Prop
  | .nil => True
  | .plain _ rest => EveryLoop Φ env rest
  | .loop header body endfor rest => Φ env body endfor ∧ EveryLoop Φ env rest ∧
      match matchHeader chars (strip (fill env header)) with
      | some (var, vals) => ∀ val ∈ vals, EveryLoop Φ (env ++ [(var, val)]) body
      | none => True

/-- What is cut for a loop leaves nothing but `endfor` and blank lines of its body outside. -/
def Whole (env : Env) (body : Template) (endfor : Line) : Prop :=
  ∃ left, body.lines.map (fill env) =
    (extractBlock chars 0 ((body.lines ++ [endfor]).map (fill env))).1 ++ left ∧ Loose left

/-- The inner loops whose headers the patterns do not find. -/
def unseen (env : Env) : Template → Nat
  | .nil => 0
  | .plain _ rest => unseen env rest
  | .loop header body _ rest =>
    (!isHeader chars (fill env header)).toNat + unseen env body + unseen env rest

/-- In front of a header or a plain line with text, no more unseen loops have been closed than
seen loops are open. -/
def Covered (env : Env) (opened closed : Nat) : Template → Prop
  | .nil => True
  | .plain line rest =>
    (hasText (fill env line) = true → closed ≤ opened) ∧ Covered env opened closed rest
  | .loop header body _ rest =>
    closed ≤ opened ∧
      Covered env (opened + (isHeader chars (fill env header)).toNat) closed body ∧
      Covered env opened
        (closed + unseen chars env body + (!isHeader chars (fill env header)).toNat) rest

/-- The expansion gives the lines of the run, and no line is left outside its loop. -/
def Expands (templateText : List Char) (template : Template) : Prop :=
  content hasText (expandForLoops chars templateText) =
      (run chars [] template).filter hasText ∧
    EveryLoop chars (Whole chars) [] template

end Reference

/-! ### Lines of the three kinds -/

section Kinds

variable {chars : CharClass}

theorem matchFor_lead {text : Line} (h : (matchFor chars text).isSome) :
    "for".toList <+: text := by
  cases hlead : afterLead "for".toList text with
  | none => rw [matchFor, hlead] at h; cases h
  | some rest => exact ⟨rest, (afterLead_eq_some.mp hlead).symm⟩

theorem matchFor_of_matchRangeFor {text : Line} (h : (matchRangeFor chars text).isSome) :
    (matchFor chars text).isSome := by
  cases hfor : matchFor chars text with
  | none => rw [matchRangeFor, hfor] at h; cases h
  | some found => rfl

theorem matchFor_of_matchHeader {text : Line} (h : (matchHeader chars text).isSome) :
    (matchFor chars text).isSome := by
  cases hfor : matchFor chars text with
  | none =>
    have hrange : matchRange chars text = none := by
      rw [matchRange, matchRangeFor, hfor]
      rfl
    have hlist : matchList chars text = none := by
      rw [matchList, hfor]
      rfl
    rw [matchHeader, hrange, hlist] at h
    cases h
  | some found => rfl

/-- A header of either kind begins with `for`. -/
theorem header_lead {line : Line} (h : (isHeader chars line || isRangeForm chars line) = true) :
    "for".toList <+: strip line := by
  apply matchFor_lead
  rcases Bool.or_eq_true_iff.mp h with hheader | hrange
  · exact matchFor_of_matchHeader hheader
  · apply matchFor_of_matchRangeFor
    cases hfound : matchRangeFor chars (strip line) with
    | none => rw [isRangeForm, hfound] at hrange; cases hrange
    | some found => rfl

theorem header_not_endfor {line : Line}
    (h : (isHeader chars line || isRangeForm chars line) = true) : isEndfor line = false := by
  obtain ⟨rest, hrest⟩ := header_lead h
  rw [isEndfor, ← hrest]
  rfl

theorem header_hasText {line : Line}
    (h : (isHeader chars line || isRangeForm chars line) = true) : hasText line = true := by
  obtain ⟨rest, hrest⟩ := header_lead h
  rw [hasText, ← hrest]
  rfl

theorem endfor_not_header {line : Line} (h : isEndfor line = true) :
    isHeader chars line = false := by
  rw [Bool.eq_false_iff]
  intro hheader
  have hnot := @header_not_endfor chars line (by rw [hheader, Bool.true_or])
  rw [hnot] at h
  cases h

/-- A blank line is plain. -/
theorem blank_plain {line : Line} (h : hasText line = false) :
    isHeader chars line = false ∧ isEndfor line = false := by
  have hstrip : strip line = [] := by simpa [hasText] using h
  refine ⟨?_, by rw [isEndfor, hstrip]; rfl⟩
  rw [Bool.eq_false_iff]
  intro hheader
  obtain ⟨rest, hrest⟩ := @header_lead chars line (by rw [hheader, Bool.true_or])
  rw [hstrip] at hrest
  cases hrest

end Kinds

/-! ### Putting a value in -/

theorem replaceFrom_append {old new front back : Line}
    (h : ∀ c ∈ front, old.head? ≠ some c) (hold : old ≠ []) :
    replaceFrom old new 0 (front ++ back) = front ++ replaceFrom old new 0 back := by
  induction front with
  | nil => rfl
  | cons c front ih =>
    have hnot : old.isPrefixOf (c :: (front ++ back)) = false := by
      cases old with
      | nil => exact absurd rfl hold
      | cons o old =>
        have hne : o ≠ c := fun heq => h c List.mem_cons_self (by rw [heq]; rfl)
        simp [List.isPrefixOf, hne]
    rw [List.cons_append, replaceFrom, if_neg (by rw [hnot]; decide),
      ih (fun d hd => h d (List.mem_cons_of_mem _ hd)), List.cons_append]

/-- Nothing happens in front of the first brace. -/
theorem putIn_append {var val front back : Line} (h : '{' ∉ front) :
    putIn var val (front ++ back) = front ++ putIn var val back := by
  refine replaceFrom_append (fun c hc heq => h ?_) (List.cons_ne_nil _ _)
  cases heq
  exact hc

theorem putIn_of_no_brace {var val line : Line} (h : '{' ∉ line) : putIn var val line = line := by
  have happend := @putIn_append var val line [] h
  have hnil : putIn var val [] = [] := rfl
  rwa [List.append_nil, hnil, List.append_nil] at happend

theorem unbroken_replaceFrom {old new line : Line} (hnew : Unbroken new) (h : Unbroken line)
    (skip : Nat) : Unbroken (replaceFrom old new skip line) := by
  induction line generalizing skip with
  | nil =>
    cases skip <;> exact nofun
  | cons c line ih =>
    have hline : Unbroken line := fun d hd => h d (List.mem_cons_of_mem _ hd)
    cases skip with
    | succ skip => exact ih hline skip
    | zero =>
      rw [replaceFrom]
      split
      · exact hnew.append (ih hline _)
      · exact fun d hd => (List.mem_cons.mp hd).elim
          (fun heq => heq ▸ h c List.mem_cons_self) (ih hline 0 d)

theorem unbroken_putIn {var val line : Line} (hval : Unbroken val) (h : Unbroken line) :
    Unbroken (putIn var val line) := unbroken_replaceFrom hval h 0

theorem not_space_brace {line : Line} (h : ∀ c ∈ line, isSpace c = true) : '{' ∉ line :=
  fun hmem => absurd (h _ hmem) (by decide)

/-! ### What is stripped -/

theorem strip_eq_nil_iff {line : Line} : strip line = [] ↔ ∀ c ∈ line, isSpace c = true := by
  rw [strip, List.reverse_eq_nil_iff, List.dropWhile_eq_nil_iff]
  simp only [List.mem_reverse]
  constructor
  · intro h
    rw [← List.takeWhile_append_dropWhile (p := isSpace) (l := line)]
    intro c hc
    exact (List.mem_append.mp hc).elim (fun hfront => List.mem_takeWhile_imp hfront) (h c)
  · exact fun h c hc => h c ((List.dropWhile_sublist isSpace).subset hc)

theorem strip_sublist (line : Line) : (strip line).Sublist line := by
  rw [strip, ← List.reverse_sublist, List.reverse_reverse]
  exact (List.dropWhile_sublist isSpace).trans
    (List.reverse_sublist.mpr (List.dropWhile_sublist isSpace))

/-- An `endfor` line is one behind its indentation. -/
theorem isEndfor_iff {line : Line} :
    isEndfor line = true ↔ "endfor".toList <+: line.dropWhile isSpace := by
  rw [isEndfor, List.isPrefixOf_iff_prefix, strip]
  constructor
  · intro h
    refine h.trans ?_
    rw [← List.reverse_suffix, List.reverse_reverse]
    exact List.dropWhile_suffix _
  · rintro ⟨rest, hrest⟩
    rw [← hrest, List.reverse_append, List.dropWhile_append]
    split
    · exact ⟨[], rfl⟩
    · rw [List.reverse_append, List.reverse_reverse]
      exact List.prefix_append _ _

theorem isEndfor_putIn {var val line : Line} (h : isEndfor line = true) :
    isEndfor (putIn var val line) = true := by
  obtain ⟨rest, hrest⟩ := isEndfor_iff.mp h
  have hline : line = line.takeWhile isSpace ++ ("endfor".toList ++ rest) := by
    rw [hrest, List.takeWhile_append_dropWhile]
  have hspaces : ∀ c ∈ line.takeWhile isSpace, isSpace c = true :=
    fun c hc => List.mem_takeWhile_imp hc
  rw [isEndfor_iff, hline, putIn_append (not_space_brace hspaces), putIn_append (by decide),
    List.dropWhile_append_of_pos hspaces]
  exact ⟨_, rfl⟩

theorem hasText_eq_false_iff {line : Line} :
    hasText line = false ↔ ∀ c ∈ line, isSpace c = true := by
  rw [← strip_eq_nil_iff, hasText, decide_eq_false_iff_not, not_not]

/-- What is loose stays so when a value is put in. -/
theorem Loose.putIn {lines : List Line} (h : Loose lines) (var val : Line) :
    Loose (lines.map (putIn var val)) := by
  intro line hline
  obtain ⟨old, hold, rfl⟩ := List.mem_map.mp hline
  refine (h old hold).imp (fun hblank => ?_) isEndfor_putIn
  rwa [putIn_of_no_brace (not_space_brace (hasText_eq_false_iff.mp hblank))]

/-! ### Lines without line ends -/

section UnbrokenLines

variable {chars : CharClass}

theorem takeSome_sublist {p : Char → Bool} {text taken rest : Line}
    (h : takeSome p text = some (taken, rest)) : rest.Sublist text := by
  rw [takeSome] at h
  split at h
  · cases h
  · cases h
    exact List.dropWhile_sublist p

theorem afterSpaces_sublist {text rest : Line} (h : afterSpaces text = some rest) :
    rest.Sublist text := by
  cases text with
  | nil => cases h
  | cons c text =>
    rw [afterSpaces] at h
    split at h
    · cases h
      exact (List.dropWhile_sublist isSpace).trans (List.sublist_cons_self _ _)
    · cases h

theorem afterLead_sublist {lead text rest : Line} (h : afterLead lead text = some rest) :
    rest.Sublist text := by
  rw [afterLead_eq_some.mp h]
  exact List.sublist_append_right _ _

theorem matchFor_sublist {text var rest : Line} (h : matchFor chars text = some (var, rest)) :
    rest.Sublist text := by
  simp only [matchFor, Option.bind_eq_bind, Option.bind_eq_some_iff, Option.pure_def,
    Option.some.injEq, Prod.mk.injEq, Prod.exists] at h
  obtain ⟨r₁, h₁, r₂, h₂, v, r₃, h₃, r₄, h₄, r₅, h₅, -, rfl⟩ := h
  exact (afterLead_sublist h₅).trans <| (afterSpaces_sublist h₄).trans <|
    (takeSome_sublist h₃).trans <| (afterSpaces_sublist h₂).trans (afterLead_sublist h₁)

theorem beforeBracket_sublist {text values : Line} (h : beforeBracket text = some values) :
    values.Sublist text := by
  unfold beforeBracket at h
  split at h
  · next b c rest heq =>
    cases h
    have hsub : (c :: rest).Sublist text.reverse :=
      (List.sublist_cons_self b (c :: rest)).trans (heq ▸ List.dropWhile_sublist _)
    rw [← List.reverse_reverse text]
    exact hsub.reverse
  · cases h

theorem unbroken_splitCommas {text value : Line} (h : Unbroken text)
    (hvalue : value ∈ splitCommas text) : Unbroken value := by
  induction text generalizing value with
  | nil =>
    rw [splitCommas, List.mem_singleton] at hvalue
    subst hvalue
    exact nofun
  | cons c text ih =>
    have htext : Unbroken text := fun d hd => h d (List.mem_cons_of_mem _ hd)
    have hc := h c List.mem_cons_self
    rw [splitCommas] at hvalue
    split at hvalue
    · rcases List.mem_cons.mp hvalue with rfl | hmem
      · exact nofun
      · exact ih htext hmem
    · split at hvalue
      · rw [List.mem_singleton] at hvalue
        subst hvalue
        simpa [Unbroken] using hc
      · next first values hsplit =>
        rcases List.mem_cons.mp hvalue with rfl | hmem
        · have hfirst : Unbroken first := ih htext (hsplit ▸ List.mem_cons_self)
          exact fun d hd => (List.mem_cons.mp hd).elim (fun heq => heq ▸ hc) (hfirst d)
        · exact ih htext (hsplit ▸ List.mem_cons_of_mem _ hmem)

/-- A number has no line end. -/
theorem unbroken_toString (n : Nat) : Unbroken (toString n).toList := by
  intro c hc
  rw [Nat.toString_eq_repr, Nat.repr, String.toList_ofList] at hc
  have hdigit := Nat.isDigit_of_mem_toDigits (by decide) (by decide) hc
  rw [Char.isDigit, Bool.and_eq_true, decide_eq_true_eq, decide_eq_true_eq] at hdigit
  have hlow : 48 ≤ c.toNat := hdigit.1
  have hhigh : c.toNat ≤ 57 := hdigit.2
  rw [isLineEnd, decide_eq_false_iff_not]
  omega

/-- The values of a header have no line end. -/
theorem unbroken_of_matchHeader {text var val : Line} {vals : List Line} (h : Unbroken text)
    (hmatch : matchHeader chars text = some (var, vals)) (hval : val ∈ vals) : Unbroken val := by
  unfold matchHeader at hmatch
  split at hmatch
  · cases hmatch
    obtain ⟨n, -, rfl⟩ := List.mem_map.mp hval
    exact unbroken_toString n
  · obtain ⟨⟨v, values⟩, hlist, heq⟩ := Option.map_eq_some_iff.mp hmatch
    cases heq
    obtain ⟨item, hitem, rfl⟩ := List.mem_map.mp hval
    simp only [matchList, Option.bind_eq_bind, Option.bind_eq_some_iff, Option.pure_def,
      Option.some.injEq, Prod.mk.injEq, Prod.exists] at hlist
    obtain ⟨v', rest, hfor, inner, hinner, found, hfound, -, rfl⟩ := hlist
    have hsub : found.Sublist text := (beforeBracket_sublist hfound).trans <|
      (afterLead_sublist hinner).trans <|
        (List.dropWhile_sublist isSpace).trans (matchFor_sublist hfor)
    exact (unbroken_splitCommas (h.sublist hsub) hitem).sublist (strip_sublist item)

end UnbrokenLines

end UniSdk.Scripts.ForLoops

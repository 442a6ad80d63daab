import UniSdk.Library.Text

/-!
# String values of a configuration file

kconfiglib writes a string in double quotes, with a backslash in front of every backslash and
double quote. `ConfigReader._parse_value` takes the quotes off and replaces four pairs of
characters one after the other, and none of them is the pair of two backslashes.
-/

namespace UniSdk.Scripts.ConfigReader

open Library.Text

/-- What a value becomes in Python; `none` beside it is `None`. -/
inductive Value
  | bool (b : Bool)
  | int (n : Int)
  | str (text : List Char)
  deriving DecidableEq, Repr

/-- The chain of `replace` calls. -/
def unescape (inner : List Char) : List Char :=
  let inner := replacePair '\\' '\'' '\'' (replacePair '\\' '"' '"' inner)
  replacePair '\\' 't' '\t' (replacePair '\\' 'n' '\n' inner)

/-- `ConfigReader._parse_value`; `toInt` is `int(raw, 0)`, `none` where it raises. -/
def parseValue (toInt : List Char → Option Int) (raw : List Char) : Option Value :=
  if raw = ['y'] then some (.bool true)
  else if raw = ['n'] then some (.bool false)
  else if 2 ≤ raw.length ∧ (raw.head? = some '"' ∧ raw.getLast? = some '"' ∨
      raw.head? = some '\'' ∧ raw.getLast? = some '\'') then
    some (.str (unescape (raw.drop 1).dropLast))
  else (toInt raw).map .int

/-! ## What is written -/

def escape : List Char → List Char
  | [] => []
  | c :: s => if c = '\\' ∨ c = '"' then '\\' :: c :: escape s else c :: escape s

/-- A string value in the file. -/
def quoted (s : List Char) : List Char := '"' :: escape s ++ ['"']

/-- What the chain makes of an escaped string: a backslash stays doubled unless a single quote, an
`n` or a `t` follows. -/
def restored : List Char → List Char
  | [] => []
  | [c] => if c = '\\' then ['\\', '\\'] else [c]
  | c :: d :: s =>
    if c ≠ '\\' then c :: restored (d :: s)
    else if d = '\'' then '\\' :: '\'' :: restored s
    else if d = 'n' then '\\' :: '\n' :: restored s
    else if d = 't' then '\\' :: '\t' :: restored s
    else '\\' :: '\\' :: restored (d :: s)

/-- Every backslash is directly followed by a single quote. -/
def QuotesAfterBackslashes (s : List Char) : Prop :=
  ∀ i, s[i]? = some '\\' → s[i + 1]? = some '\''

theorem unescape_cons {c : Char} (h : c ≠ '\\') (text : List Char) :
    unescape (c :: text) = c :: unescape text := by
  unfold unescape
  simp only [replacePair_cons_of_ne h]

theorem unescape_quote (text : List Char) : unescape ('\\' :: '"' :: text) = '"' :: unescape text := by
  have hquote : '"' ≠ '\\' := by decide
  unfold unescape
  simp only [replacePair_hit, replacePair_cons_of_ne hquote]

/-- Two backslashes in front of a character that none of the pairs ends with. -/
theorem unescape_pair {d : Char} (hquote : d ≠ '"') (hsingle : d ≠ '\'') (hn : d ≠ 'n')
    (ht : d ≠ 't') (text : List Char) :
    unescape ('\\' :: '\\' :: d :: text) = '\\' :: '\\' :: unescape (d :: text) := by
  obtain ⟨e₁, text₁, hpass₁, he₁⟩ := replacePair_head '\\' '"' '"' d text
  obtain ⟨e₂, text₂, hpass₂, he₂⟩ := replacePair_head '\\' '\'' '\'' e₁ text₁
  obtain ⟨e₃, text₃, hpass₃, he₃⟩ := replacePair_head '\\' 'n' '\n' e₂ text₂
  have hne₁ : e₁ ≠ '\'' ∧ e₁ ≠ 'n' ∧ e₁ ≠ 't' := by
    rcases he₁ with rfl | rfl
    · exact ⟨hsingle, hn, ht⟩
    · decide
  have hne₂ : e₂ ≠ 'n' ∧ e₂ ≠ 't' := by
    rcases he₂ with rfl | rfl
    · exact hne₁.2
    · decide
  have hne₃ : e₃ ≠ 't' := by
    rcases he₃ with rfl | rfl
    · exact hne₂.2
    · decide
  unfold unescape
  dsimp only
  rw [replacePair_miss (by decide), replacePair_miss hquote, hpass₁,
    replacePair_miss (by decide), replacePair_miss hne₁.1, hpass₂, replacePair_miss (by decide),
    replacePair_miss hne₂.1, hpass₃, replacePair_miss (by decide), replacePair_miss hne₃]

theorem escape_cons_of_plain {c : Char} (hslash : c ≠ '\\') (hquote : c ≠ '"') (s : List Char) :
    escape (c :: s) = c :: escape s :=
  if_neg fun h => h.elim hslash hquote

/-- The chain acts on one character of an escaped string that is no backslash. -/
theorem unescape_escape_cons {c : Char} (h : c ≠ '\\') (s : List Char) :
    unescape (escape (c :: s)) = c :: unescape (escape s) := by
  by_cases hquote : c = '"'
  · subst hquote
    exact unescape_quote (escape s)
  · rw [escape_cons_of_plain h hquote, unescape_cons h]

/-- An escaped string starts with its first character or with the backslash in front of it. -/
theorem escape_head {d : Char} (hsingle : d ≠ '\'') (hn : d ≠ 'n') (ht : d ≠ 't')
    (s : List Char) :
    ∃ e text, escape (d :: s) = e :: text ∧ e ≠ '"' ∧ e ≠ '\'' ∧ e ≠ 'n' ∧ e ≠ 't' := by
  rw [escape]
  split
  · exact ⟨'\\', _, rfl, by decide⟩
  · next h => exact ⟨d, _, rfl, fun hquote => h (Or.inr hquote), hsingle, hn, ht⟩

/-- Two backslashes in front of a character that one of the last three pairs ends with. -/
theorem unescape_hit (text : List Char) :
    unescape ('\\' :: '\\' :: '\'' :: text) = '\\' :: '\'' :: unescape text ∧
      unescape ('\\' :: '\\' :: 'n' :: text) = '\\' :: '\n' :: unescape text ∧
      unescape ('\\' :: '\\' :: 't' :: text) = '\\' :: '\t' :: unescape text := by
  have hmiss : ∀ b d r : Char, d ≠ b → ∀ text, replacePair '\\' b r ('\\' :: d :: text) =
      '\\' :: replacePair '\\' b r (d :: text) := fun b d r h text => replacePair_miss h text
  have hkeep : ∀ b c r : Char, c ≠ '\\' → ∀ text, replacePair '\\' b r (c :: text) =
      c :: replacePair '\\' b r text := fun b c r h text => replacePair_cons_of_ne h text
  unfold unescape
  refine ⟨?_, ?_, ?_⟩
  · simp (disch := decide) only [hmiss, hkeep, replacePair_hit]
  · simp (disch := decide) only [hmiss, hkeep, replacePair_hit]
  · simp (disch := decide) only [hmiss, hkeep, replacePair_hit]

/-- **What the chain makes of an escaped string.** -/
theorem unescape_escape (s : List Char) : unescape (escape s) = restored s := by
  fun_induction restored s with
  | case1 => rfl
  | case2 => rfl
  | case3 c h =>
    rw [unescape_escape_cons h]
    rfl
  | case4 c d s h ih => rw [unescape_escape_cons h, ih]
  | case5 c s h ih =>
    rw [not_not.mp h, ← ih]
    exact (unescape_hit (escape s)).1
  | case6 c s h hsingle ih =>
    rw [not_not.mp h, ← ih]
    exact (unescape_hit (escape s)).2.1
  | case7 c s h hsingle hn ih =>
    rw [not_not.mp h, ← ih]
    exact (unescape_hit (escape s)).2.2
  | case8 c d s h hsingle hn ht ih =>
    obtain ⟨e, text, hescape, hplain⟩ := escape_head hsingle hn ht s
    rw [not_not.mp h, ← ih, hescape]
    have hpair : escape ('\\' :: d :: s) = '\\' :: '\\' :: e :: text := by
      rw [← hescape]
      rfl
    rw [hpair]
    exact unescape_pair hplain.1 hplain.2.1 hplain.2.2.1 hplain.2.2.2 text

/-- The chain never makes an escaped string shorter than it was. -/
theorem length_le_restored (s : List Char) : s.length ≤ (restored s).length := by
  fun_induction restored s with
  | case1 => exact Nat.le_refl _
  | case2 => exact Nat.le_succ _
  | case3 => exact Nat.le_refl _
  | case4 c d s h ih => exact Nat.succ_le_succ ih
  | case5 c s h ih => exact Nat.succ_le_succ (Nat.succ_le_succ ih)
  | case6 c s h hsingle ih => exact Nat.succ_le_succ (Nat.succ_le_succ ih)
  | case7 c s h hsingle hn ih => exact Nat.succ_le_succ (Nat.succ_le_succ ih)
  | case8 c d s h hsingle hn ht ih => exact Nat.succ_le_succ (Nat.le_succ_of_le ih)

theorem quotesAfterBackslashes_nil : QuotesAfterBackslashes [] := by
  simp [QuotesAfterBackslashes]

theorem quotesAfterBackslashes_cons {c : Char} {s : List Char} :
    QuotesAfterBackslashes (c :: s) ↔
      (c = '\\' → s.head? = some '\'') ∧ QuotesAfterBackslashes s := by
  unfold QuotesAfterBackslashes
  constructor
  · intro h
    refine ⟨fun hc => ?_, fun i hi => ?_⟩
    · rw [List.head?_eq_getElem?]
      exact h 0 (congrArg some hc)
    · exact h (i + 1) hi
  · intro h i hi
    cases i with
    | zero =>
      have hhead := h.1 (Option.some.inj hi)
      rwa [List.head?_eq_getElem?] at hhead
    | succ i => exact h.2 i hi

theorem restored_eq_self (s : List Char) : restored s = s ↔ QuotesAfterBackslashes s := by
  fun_induction restored s with
  | case1 => exact iff_of_true rfl quotesAfterBackslashes_nil
  | case2 => simp [quotesAfterBackslashes_cons]
  | case3 c h =>
    rw [quotesAfterBackslashes_cons]
    exact iff_of_true rfl ⟨fun heq => absurd heq h, quotesAfterBackslashes_nil⟩
  | case4 c d s h ih =>
    rw [quotesAfterBackslashes_cons, List.cons_inj_right, ih]
    simp [h]
  | case5 c s h ih =>
    rw [not_not.mp h, quotesAfterBackslashes_cons, quotesAfterBackslashes_cons,
      List.cons_inj_right, List.cons_inj_right, ih]
    simp
  | case6 c s h hsingle ih =>
    rw [not_not.mp h, quotesAfterBackslashes_cons]
    simp
  | case7 c s h hsingle hn ih =>
    rw [not_not.mp h, quotesAfterBackslashes_cons]
    simp
  | case8 c d s h hsingle hn ht ih =>
    have hlonger : restored (d :: s) ≠ s := by
      intro heq
      have hlen := length_le_restored (d :: s)
      rw [heq] at hlen
      exact Nat.not_succ_le_self s.length hlen
    rw [not_not.mp h, quotesAfterBackslashes_cons]
    refine iff_of_false (fun heq => hlonger ?_) (fun hquotes => hsingle ?_)
    · exact (List.cons.inj (List.cons.inj heq).2).2
    · exact Option.some.inj (hquotes.1 rfl)

/-- What is read back of a string, whatever its characters. -/
theorem parseValue_quoted (toInt : List Char → Option Int) (s : List Char) :
    parseValue toInt (quoted s) = some (.str (restored s)) := by
  have hlast : (quoted s).getLast? = some '"' := List.getLast?_concat
  have hlong : 2 ≤ (quoted s).length := by simp [quoted]
  have hinner : ((quoted s).drop 1).dropLast = escape s := List.dropLast_concat
  have hy : quoted s ≠ ['y'] := fun h => absurd (List.cons.inj h).1 (by decide)
  have hn : quoted s ≠ ['n'] := fun h => absurd (List.cons.inj h).1 (by decide)
  rw [parseValue, if_neg hy, if_neg hn, if_pos ⟨hlong, Or.inl ⟨rfl, hlast⟩⟩, hinner,
    unescape_escape]

/-- **A string survives exactly when each of its backslashes has a single quote behind it.** -/
theorem parseValue_quoted_iff (toInt : List Char → Option Int) (s : List Char) :
    parseValue toInt (quoted s) = some (.str s) ↔ QuotesAfterBackslashes s := by
  rw [parseValue_quoted, ← restored_eq_self, Option.some.injEq, Value.str.injEq]

/-- The letter behind the backslash of a path becomes a line break. -/
theorem parseValue_quoted_path (toInt : List Char → Option Int) :
    parseValue toInt (quoted "C:\\new".toList) = some (.str "C:\\\new".toList) := by
  rfl

/-- So that path, which has no line break itself, is not what is read back. -/
theorem parseValue_quoted_path_changed : '\n' ∉ "C:\\new".toList ∧
    ¬ ∀ toInt, parseValue toInt (quoted "C:\\new".toList) = some (.str "C:\\new".toList) := by
  refine ⟨by decide, fun hsame => ?_⟩
  have hread := (parseValue_quoted_path fun _ => none).symm.trans (hsame fun _ => none)
  exact absurd (Value.str.inj (Option.some.inj hread)) (by decide)

end UniSdk.Scripts.ConfigReader

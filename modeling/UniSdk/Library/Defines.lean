import UniSdk.Library.Text

/-!
# Headers of macro definitions

A header whose lines are definitions of one word by one word: how a definition is written, and how
the lines are read back. A line that was ended is read by itself. A line that was not ended runs
into what follows, and the value is no word any more.
-/

namespace UniSdk.Library.Defines

open Library.Text

/-- A character of an identifier or a number. -/
def isIdentChar (c : Char) : Bool := c.isAlphanum || c = '_'

def directive : List Char := ['#', 'd', 'e', 'f', 'i', 'n', 'e', ' ']

structure Define where
  name : List Char
  value : List Char
  deriving DecidableEq, Repr

def Define.line (define : Define) : List Char :=
  directive ++ define.name ++ ' ' :: define.value

/-- The name is an identifier and the value is one word. -/
structure Define.WellFormed (define : Define) : Prop where
  name_start : ∃ c rest, define.name = c :: rest ∧ c.isDigit = false
  name_chars : ∀ c ∈ define.name, isIdentChar c = true
  value_ne_nil : define.value ≠ []
  value_chars : ∀ c ∈ define.value, isIdentChar c = true

/-- One line of the header. -/
def readDefine (line : List Char) : Option Define :=
  match afterLead directive line with
  | none => none
  | some rest =>
    match rest.dropWhile isIdentChar with
    | ' ' :: value =>
      if (rest.takeWhile isIdentChar).head?.any (fun c => !c.isDigit) ∧ value ≠ [] ∧
          value.all isIdentChar then
        some ⟨rest.takeWhile isIdentChar, value⟩
      else none
    | _ => none

/-- The definitions of a header; `none` where a line that is not empty is none. -/
def readDefines (text : List Char) : Option (List Define) :=
  ((text.splitOn '\n').filter (fun line => line ≠ [])).mapM readDefine

/-- The lines of the definitions, each with its end. -/
def ended (defines : List Define) : List Char :=
  defines.flatMap fun define => define.line ++ ['\n']

/-! ### Words -/

/-- Two texts of words that are joined by a character which is not in the last one. -/
theorem joined_inj {α : Type*} {c : α} {l l' s s' : List α} (hs : c ∉ s) (hs' : c ∉ s')
    (h : l ++ c :: s = l' ++ c :: s') : l = l' ∧ s = s' := by
  rcases List.append_eq_append_iff.mp h with ⟨m, rfl, hm⟩ | ⟨m, rfl, hm⟩
  · cases m with
    | nil =>
      rw [List.append_nil]
      exact ⟨rfl, (List.cons.inj hm).2⟩
    | cons d m =>
      refine absurd ?_ hs
      rw [(List.cons.inj hm).2]
      exact List.mem_append_right _ List.mem_cons_self
  · cases m with
    | nil =>
      rw [List.append_nil]
      exact ⟨rfl, (List.cons.inj hm).2.symm⟩
    | cons d m =>
      refine absurd ?_ hs'
      rw [(List.cons.inj hm).2]
      exact List.mem_append_right _ List.mem_cons_self

theorem newline_not_mem {word : List Char} (h : ∀ c ∈ word, isIdentChar c = true) :
    '\n' ∉ word := fun hmem => absurd (h '\n' hmem) (by decide)

theorem Define.WellFormed.newline_not_mem_line {define : Define} (h : define.WellFormed) :
    '\n' ∉ define.line := by
  have hlead : '\n' ∉ directive := by decide
  have hspace : '\n' ≠ ' ' := by decide
  simp only [Define.line, List.mem_append, List.mem_cons, hlead, hspace, false_or, not_or]
  exact ⟨newline_not_mem h.name_chars, newline_not_mem h.value_chars⟩

theorem Define.line_ne_nil (define : Define) : define.line ≠ [] := List.cons_ne_nil _ _

/-! ### One line -/

/-- What is read behind a name and a blank. -/
theorem readDefine_named {name : List Char} (hstart : ∃ c rest, name = c :: rest ∧ c.isDigit = false)
    (hname : ∀ c ∈ name, isIdentChar c = true) (value : List Char) :
    readDefine (directive ++ name ++ ' ' :: value) =
      if value ≠ [] ∧ value.all isIdentChar then some ⟨name, value⟩ else none := by
  have hlead : afterLead directive (directive ++ name ++ ' ' :: value) =
      some (name ++ ' ' :: value) := afterLead_eq_some.mpr (List.append_assoc _ _ _)
  have hblank : isIdentChar ' ' = false := by decide
  have htake : (name ++ ' ' :: value).takeWhile isIdentChar = name := by
    rw [List.takeWhile_append_of_pos hname, List.takeWhile_cons_of_neg (by simp [hblank]),
      List.append_nil]
  have hdrop : (name ++ ' ' :: value).dropWhile isIdentChar = ' ' :: value := by
    rw [List.dropWhile_append_of_pos hname, List.dropWhile_cons_of_neg (by simp [hblank])]
  obtain ⟨c, rest, rfl, hdigit⟩ := hstart
  rw [readDefine, hlead]
  dsimp only
  rw [hdrop, htake]
  simp [hdigit]

theorem readDefine_line {define : Define} (h : define.WellFormed) :
    readDefine define.line = some define := by
  rw [Define.line, readDefine_named h.name_start h.name_chars,
    if_pos ⟨h.value_ne_nil, List.all_eq_true.mpr h.value_chars⟩]

/-- A line with anything but a word behind its name is no definition. -/
theorem readDefine_line_append {define : Define} (h : define.WellFormed) {c : Char}
    (hc : isIdentChar c = false) (rest : List Char) :
    readDefine (define.line ++ c :: rest) = none := by
  have hline : define.line ++ c :: rest =
      directive ++ define.name ++ ' ' :: (define.value ++ c :: rest) := by
    rw [Define.line, List.append_assoc, List.cons_append]
  rw [hline, readDefine_named h.name_start h.name_chars, if_neg]
  intro hall
  have hword := List.all_eq_true.mp hall.2 c (List.mem_append_right _ List.mem_cons_self)
  rw [hc] at hword
  cases hword

theorem readDefine_wellFormed {line : List Char} {define : Define}
    (h : readDefine line = some define) : define.WellFormed := by
  unfold readDefine at h
  split at h
  · cases h
  · next rest _ =>
    split at h
    · next value _ =>
      split at h
      · next hshape =>
        obtain ⟨hstart, hne, hvalue⟩ := hshape
        obtain rfl := Option.some.inj h
        refine ⟨?_, fun c hc => List.all_eq_true.mp List.all_takeWhile c hc, hne, List.all_eq_true.mp hvalue⟩
        cases hname : rest.takeWhile isIdentChar with
        | nil => simp [hname] at hstart
        | cons c name => exact ⟨c, name, rfl, by simpa [hname] using hstart⟩
      · cases h
    · cases h

/-! ### A header -/

theorem readDefines_nil : readDefines [] = some [] := by rfl

theorem readDefines_line {define : Define} (h : define.WellFormed) :
    readDefines define.line = some [define] := by
  rw [readDefines, List.splitOn_eq_singleton h.newline_not_mem_line,
    List.filter_cons_of_pos (by simp [define.line_ne_nil]), List.filter_nil, List.mapM_cons,
    readDefine_line h]
  rfl

/-- A line that was ended is read by itself. -/
theorem readDefines_ended_append {defines : List Define} (h : ∀ define ∈ defines, define.WellFormed)
    (text : List Char) :
    readDefines (ended defines ++ text) = (readDefines text).map (defines ++ ·) := by
  induction defines with
  | nil => cases hread : readDefines text <;> simp [ended, hread]
  | cons define defines ih =>
    have hdefine := h define List.mem_cons_self
    have hsplit : ended (define :: defines) ++ text =
        define.line ++ '\n' :: (ended defines ++ text) := by
      simp [ended]
    rw [hsplit, readDefines, List.splitOn_append_cons_self_of_not_mem hdefine.newline_not_mem_line,
      List.filter_cons_of_pos (by simp [define.line_ne_nil]), List.mapM_cons,
      readDefine_line hdefine]
    show (readDefines (ended defines ++ text)).bind _ = _
    rw [ih fun other hmem => h other (List.mem_cons_of_mem _ hmem)]
    cases readDefines text <;> rfl

/-- A line that was not ended is read together with what follows. -/
theorem readDefines_line_append {define : Define} (h : define.WellFormed) {c : Char}
    (hc : isIdentChar c = false) (hnl : c ≠ '\n') (rest : List Char) :
    readDefines (define.line ++ c :: rest) = none := by
  have hsplit : ∀ front : List Char, '\n' ∉ front → ∀ text : List Char,
      (front ++ text).splitOn '\n' = (text.splitOn '\n').modifyHead (front ++ ·) := by
    intro front hfront text
    induction front with
    | nil => cases htext : text.splitOn '\n' <;> simp [htext]
    | cons d front ih =>
      rw [List.mem_cons, not_or] at hfront
      rw [List.cons_append, List.splitOn_cons_eq_if_modifyHead, ih hfront.2,
        if_neg (by simpa using Ne.symm hfront.1)]
      cases text.splitOn '\n' <;> rfl
  have hfirst : ∃ back lines, (c :: rest).splitOn '\n' = (c :: back) :: lines := by
    rw [List.splitOn_cons_eq_if_modifyHead, if_neg (by simpa using hnl)]
    cases hlines : rest.splitOn '\n' with
    | nil => exact absurd hlines (List.splitOn_ne_nil _ _)
    | cons back lines => exact ⟨back, lines, rfl⟩
  obtain ⟨back, lines, hlines⟩ := hfirst
  rw [readDefines, hsplit _ h.newline_not_mem_line, hlines, List.modifyHead_cons,
    List.filter_cons_of_pos (by simp [define.line_ne_nil]), List.mapM_cons,
    readDefine_line_append h hc]
  rfl

theorem readDefines_wellFormed {text : List Char} {defines : List Define}
    (h : readDefines text = some defines) : ∀ define ∈ defines, define.WellFormed := by
  unfold readDefines at h
  generalize (text.splitOn '\n').filter (fun line => line ≠ []) = lines at h
  induction lines generalizing defines with
  | nil =>
    obtain rfl := Option.some.inj h
    exact fun define hmem => absurd hmem List.not_mem_nil
  | cons line lines ih =>
    rw [List.mapM_cons] at h
    obtain ⟨define, hline, h⟩ := Option.bind_eq_some_iff.mp h
    obtain ⟨others, hlines, h⟩ := Option.bind_eq_some_iff.mp h
    obtain rfl := Option.some.inj h
    intro other hmem
    rcases List.mem_cons.mp hmem with rfl | hmem
    · exact readDefine_wellFormed hline
    · exact ih hlines other hmem

end UniSdk.Library.Defines

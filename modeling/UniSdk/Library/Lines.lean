import Mathlib.Data.List.Basic

/-!
# Texts and their lines

A text is cut into lines at every line end; a final line end opens no line. Lines joined by a
newline are the lines of the joined text, except that a last line that is empty is lost. What is
left of a text when its blank lines are dropped does not depend on how pieces were joined.
-/

namespace UniSdk.Library.Lines

abbrev Line := List Char

/-- The characters at which `str.splitlines` cuts. -/
def isLineEnd (c : Char) : Bool :=
  let n := c.toNat
  (0x0A ≤ n ∧ n ≤ 0x0D) ∨ (0x1C ≤ n ∧ n ≤ 0x1E) ∨ n = 0x85 ∨ n = 0x2028 ∨ n = 0x2029

/-- `str.splitlines`. -/
def splitlines : List Char → List Line
  | [] => []
  | '\r' :: '\n' :: rest => [] :: splitlines rest
  | c :: rest =>
    if isLineEnd c then [] :: splitlines rest
    else match splitlines rest with
      | [] => [[c]]
      | line :: lines => (c :: line) :: lines

/-- `"\n".join`. -/
def joinLines (lines : List Line) : List Char := List.intercalate ['\n'] lines

/-- No line end is in the text. -/
def Unbroken (line : List Char) : Prop := ∀ c ∈ line, isLineEnd c = false

theorem Unbroken.append {l₁ l₂ : List Char} (h₁ : Unbroken l₁) (h₂ : Unbroken l₂) :
    Unbroken (l₁ ++ l₂) := fun c hc => (List.mem_append.mp hc).elim (h₁ c) (h₂ c)

theorem Unbroken.sublist {l₁ l₂ : List Char} (h : Unbroken l₂) (hsub : l₁.Sublist l₂) :
    Unbroken l₁ := fun c hc => h c (hsub.subset hc)

theorem unbroken_of_any {line : List Char} (h : line.any isLineEnd = false) : Unbroken line :=
  fun c hc => eq_false_of_ne_true (List.any_eq_false.mp h c hc)

theorem splitlines_ne_nil {text : List Char} (h : text ≠ []) : splitlines text ≠ [] := by
  induction text using splitlines.induct with
  | case1 => exact absurd rfl h
  | case2 rest ih => simp [splitlines]
  | case3 c rest hne hend ih => simp [splitlines, hend]
  | case4 c rest hne hend hnil ih => simp [splitlines, hend, hnil]
  | case5 c rest hne hend line lines hcons ih => simp [splitlines, hend, hcons]

theorem splitlines_cons_of_not_end {c : Char} (h : isLineEnd c = false) (rest : List Char) :
    splitlines (c :: rest) = match splitlines rest with
      | [] => [[c]]
      | line :: lines => (c :: line) :: lines := by
  rw [splitlines, if_neg (by simp [h])]
  rintro rest' rfl
  cases h

theorem splitlines_cons_of_end {c : Char} (h : isLineEnd c = true) {rest : List Char}
    (hrest : c = '\r' → rest.head? ≠ some '\n') :
    splitlines (c :: rest) = [] :: splitlines rest := by
  rw [splitlines, if_pos h]
  rintro rest' rfl rfl
  exact hrest rfl rfl

/-- Behind a newline the lines start anew. -/
theorem splitlines_append_newline (front back : List Char) :
    splitlines (front ++ '\n' :: back) = splitlines (front ++ ['\n']) ++ splitlines back := by
  induction front using splitlines.induct with
  | case1 => rfl
  | case2 rest ih =>
    show [] :: splitlines (rest ++ '\n' :: back) = [] :: splitlines (rest ++ ['\n']) ++ _
    rw [ih, List.cons_append]
  | case3 c rest hne hend ih =>
    cases rest with
    | nil =>
      by_cases hr : c = '\r'
      · subst hr
        rfl
      · have hback := fun text : List Char => @splitlines_cons_of_end c hend ('\n' :: text)
          (fun heq => absurd heq hr)
        rw [List.cons_append, List.nil_append, List.cons_append, List.nil_append, hback, hback]
        rfl
    | cons d rest =>
      have hhead : ∀ text : List Char, c = '\r' → (d :: rest ++ text).head? ≠ some '\n' := by
        rintro text rfl hd
        cases hd
        exact hne _ rfl rfl
      have hsplit : ∀ text : List Char, splitlines ((c :: d :: rest) ++ text) =
          [] :: splitlines (d :: rest ++ text) := fun text => splitlines_cons_of_end hend (hhead text)
      rw [hsplit, hsplit, ih]
      rfl
  | case4 c rest hne hend hnil ih =>
    have hrest : rest = [] := Classical.byContradiction (fun h => splitlines_ne_nil h hnil)
    rw [Bool.not_eq_true] at hend
    subst hrest
    rw [List.cons_append, List.cons_append, splitlines_cons_of_not_end hend,
      splitlines_cons_of_not_end hend]
    rfl
  | case5 c rest hne hend line lines hcons ih =>
    rw [Bool.not_eq_true] at hend
    rw [List.cons_append, List.cons_append, splitlines_cons_of_not_end hend,
      splitlines_cons_of_not_end hend, ih]
    cases hlines : splitlines (rest ++ ['\n']) with
    | nil => exact absurd hlines (splitlines_ne_nil (by simp))
    | cons first others => rfl

/-- A final newline closes the last line, or an empty one. -/
theorem splitlines_concat_newline (text : List Char) :
    splitlines (text ++ ['\n']) = splitlines text ∨
      splitlines (text ++ ['\n']) = splitlines text ++ [[]] := by
  induction text using splitlines.induct with
  | case1 => exact .inr rfl
  | case2 rest ih =>
    refine ih.imp (fun h => ?_) (fun h => ?_)
    · exact congrArg (List.cons []) h
    · exact congrArg (List.cons []) h
  | case3 c rest hne hend ih =>
    cases rest with
    | nil =>
      by_cases hr : c = '\r'
      · subst hr
        exact .inl rfl
      · right
        rw [List.cons_append, List.nil_append, splitlines_cons_of_end hend (by simp [hr]),
          splitlines_cons_of_end hend (by simp)]
        rfl
    | cons d rest =>
      have hhead : ∀ text : List Char, c = '\r' → (d :: rest ++ text).head? ≠ some '\n' := by
        rintro text rfl hd
        cases hd
        exact hne _ rfl rfl
      have hsplit := splitlines_cons_of_end hend (hhead [])
      rw [List.append_nil] at hsplit
      rw [List.cons_append, splitlines_cons_of_end hend (hhead _), hsplit]
      exact ih.imp (congrArg (List.cons [])) (congrArg (List.cons []))
  | case4 c rest hne hend hnil ih =>
    have hrest : rest = [] := Classical.byContradiction (fun h => splitlines_ne_nil h hnil)
    rw [Bool.not_eq_true] at hend
    subst hrest
    left
    rw [List.cons_append, splitlines_cons_of_not_end hend, splitlines_cons_of_not_end hend]
    rfl
  | case5 c rest hne hend line lines hcons ih =>
    rw [Bool.not_eq_true] at hend
    rw [List.cons_append, splitlines_cons_of_not_end hend, splitlines_cons_of_not_end hend, hcons]
    rw [hcons] at ih
    refine ih.imp (fun h => ?_) (fun h => ?_)
    · rw [h]
    · rw [h]
      rfl

/-! ### Joined lines -/

theorem joinLines_cons {line : Line} {lines : List Line} (h : lines ≠ []) :
    joinLines (line :: lines) = line ++ '\n' :: joinLines lines := by
  rw [joinLines, List.intercalate_cons_of_ne_nil h]
  simp [joinLines]

theorem splitlines_of_unbroken {line : Line} (h : Unbroken line) (hne : line ≠ []) :
    splitlines line = [line] := by
  induction line with
  | nil => exact absurd rfl hne
  | cons c line ih =>
    rw [splitlines_cons_of_not_end (h c List.mem_cons_self)]
    cases line with
    | nil => rfl
    | cons d line =>
      rw [ih (fun e he => h e (List.mem_cons_of_mem _ he)) (List.cons_ne_nil _ _)]

theorem splitlines_line_newline {line : Line} (h : Unbroken line) (back : List Char) :
    splitlines (line ++ '\n' :: back) = line :: splitlines back := by
  induction line with
  | nil => rfl
  | cons c line ih =>
    rw [List.cons_append, splitlines_cons_of_not_end (h c List.mem_cons_self),
      ih (fun e he => h e (List.mem_cons_of_mem _ he))]

/-- The lines of joined lines are these lines, less a last one that is empty. -/
theorem splitlines_joinLines {lines : List Line} (h : ∀ line ∈ lines, Unbroken line) :
    ∃ lost, lines = splitlines (joinLines lines) ++ lost ∧ ∀ line ∈ lost, line = [] := by
  induction lines with
  | nil => exact ⟨[], rfl, nofun⟩
  | cons line lines ih =>
    have hline := h line List.mem_cons_self
    by_cases hnil : lines = []
    · subst hnil
      by_cases hempty : line = []
      · subst hempty
        exact ⟨[[]], rfl, fun line hmem => List.mem_singleton.mp hmem⟩
      · refine ⟨[], ?_, nofun⟩
        rw [joinLines, List.intercalate_singleton, splitlines_of_unbroken hline hempty]
        rfl
    · obtain ⟨lost, hlost, hall⟩ := ih (fun l hl => h l (List.mem_cons_of_mem _ hl))
      refine ⟨lost, ?_, hall⟩
      rw [joinLines_cons hnil, splitlines_line_newline hline, List.cons_append, ← hlost]

theorem unbroken_of_mem_splitlines {text : List Char} {line : Line}
    (h : line ∈ splitlines text) : Unbroken line := by
  induction text using splitlines.induct generalizing line with
  | case1 => cases h
  | case2 rest ih =>
    rcases List.mem_cons.mp h with rfl | h
    · exact nofun
    · exact ih h
  | case3 c rest hne hend ih =>
    rw [splitlines, if_pos hend] at h
    · rcases List.mem_cons.mp h with rfl | h
      · exact nofun
      · exact ih h
    · exact hne
  | case4 c rest hne hend hnil ih =>
    rw [Bool.not_eq_true] at hend
    rw [splitlines_cons_of_not_end hend, hnil, List.mem_singleton] at h
    subst h
    simpa [Unbroken] using hend
  | case5 c rest hne hend first lines hcons ih =>
    rw [Bool.not_eq_true] at hend
    rw [splitlines_cons_of_not_end hend, hcons] at h
    rcases List.mem_cons.mp h with rfl | h
    · have hfirst : Unbroken first := ih (hcons ▸ List.mem_cons_self)
      exact fun d hd => (List.mem_cons.mp hd).elim (fun heq => heq ▸ hend) (hfirst d)
    · exact ih (hcons ▸ List.mem_cons_of_mem _ h)

/-- A text is one line, or a line and its end before another text. -/
theorem lines_induction {P : List Char → Prop} (line : ∀ line, Unbroken line → P line)
    (append : ∀ line c rest, Unbroken line → isLineEnd c = true → P rest → P (line ++ c :: rest))
    (text : List Char) : P text := by
  suffices h : ∀ (front : List Char), Unbroken front → P (front ++ text) from h [] nofun
  induction text with
  | nil =>
    intro front hfront
    rw [List.append_nil]
    exact line front hfront
  | cons c text ih =>
    intro front hfront
    cases hc : isLineEnd c with
    | true => exact append front c text hfront hc (ih [] nofun)
    | false =>
      have hsnoc : front ++ c :: text = (front ++ [c]) ++ text := by simp
      rw [hsnoc]
      exact ih (front ++ [c]) (hfront.append fun d hd => by rwa [List.mem_singleton.mp hd])

/-- What follows a line end, up to an empty line where the end is of two characters. -/
theorem splitlines_end {c : Char} (hc : isLineEnd c = true) (back : List Char) :
    ∃ lines, splitlines (c :: back) = [] :: lines ∧
      (splitlines back = lines ∨ splitlines back = [] :: lines) := by
  by_cases hpair : c = '\r' ∧ back.head? = some '\n'
  · obtain ⟨rfl, hback⟩ := hpair
    cases back with
    | nil => cases hback
    | cons d rest =>
      cases hback
      exact ⟨splitlines rest, rfl, .inr (splitlines_cons_of_end rfl nofun)⟩
  · exact ⟨splitlines back, splitlines_cons_of_end hc fun h h' => hpair ⟨h, h'⟩, .inl rfl⟩

/-- A line takes what stands in front of a line end. -/
theorem splitlines_append_end {line text : List Char} (h : Unbroken line) {lines : List Line}
    (htext : splitlines text = [] :: lines) : splitlines (line ++ text) = line :: lines := by
  induction line with
  | nil => exact htext
  | cons c line ih =>
    rw [List.cons_append, splitlines_cons_of_not_end (h c List.mem_cons_self),
      ih fun e he => h e (List.mem_cons_of_mem _ he)]

/-! ### The lines that count -/

section Content

variable {keep : Line → Bool}

/-- The lines of a text that pass a test. -/
def content (keep : Line → Bool) (text : List Char) : List Line := (splitlines text).filter keep

theorem content_append_newline (hkeep : keep [] = false) (front back : List Char) :
    content keep (front ++ '\n' :: back) = content keep front ++ content keep back := by
  rw [content, splitlines_append_newline, List.filter_append]
  congr 1
  rcases splitlines_concat_newline front with hsplit | hsplit
  · rw [hsplit, content]
  · rw [hsplit, List.filter_append]
    simp [content, hkeep]

/-- Where an empty line does not count, joined pieces count as the pieces do. -/
theorem content_joinLines (hkeep : keep [] = false) (pieces : List (List Char)) :
    content keep (joinLines pieces) = pieces.flatMap (content keep) := by
  induction pieces with
  | nil => rfl
  | cons piece pieces ih =>
    by_cases hnil : pieces = []
    · subst hnil
      simp [joinLines]
    · rw [joinLines_cons hnil, content_append_newline hkeep, ih, List.flatMap_cons]

theorem content_of_unbroken (hkeep : keep [] = false) {line : Line} (h : Unbroken line) :
    content keep line = if keep line then [line] else [] := by
  by_cases hempty : line = []
  · subst hempty
    rw [if_neg (by simp [hkeep])]
    rfl
  · rw [content, splitlines_of_unbroken h hempty, List.filter_singleton]
    cases keep line <;> rfl

end Content

end UniSdk.Library.Lines

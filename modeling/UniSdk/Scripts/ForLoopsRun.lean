import UniSdk.Scripts.ForLoops

/-!
# What the expansion of a template gives

Counting over the lines of a body, `extract_block` stops at the first `endfor` that closes more
than what it saw opened. The body is covered when nothing but `endfor` and blank lines follows
there; then the lines that are left over do nothing, and a block without its last `endfor` lines
expands as if it had them.
-/

namespace UniSdk.Scripts.ForLoops

open UniSdk.Library.Lines
open UniSdk.Scripts.Pinmux (strip)

/-! ### Counting over a body -/

section Counting

variable {chars : CharClass} {env : Env}

/-- A header is kept and opens a level where the pattern finds it. -/
theorem extractBlock_header {line : Line}
    (h : (isHeader chars line || isRangeForm chars line) = true) (level : Nat) (rest : List Line) :
    extractBlock chars level (line :: rest) =
      (line :: (extractBlock chars (level + (isHeader chars line).toNat) rest).1,
        (extractBlock chars (level + (isHeader chars line).toNat) rest).2) := by
  have hendfor := header_not_endfor h
  cases hheader : isHeader chars line <;> cases level <;> simp [extractBlock, hheader, hendfor]

theorem extractBlock_plain {line : Line} (h : isPlain chars line = true) (level : Nat)
    (rest : List Line) : extractBlock chars level (line :: rest) =
      (line :: (extractBlock chars level rest).1, (extractBlock chars level rest).2) := by
  obtain ⟨hheader, hendfor⟩ := Bool.and_eq_true_iff.mp h
  rw [Bool.not_eq_true'] at hheader hendfor
  cases level <;> simp [extractBlock, hheader, hendfor]

theorem extractBlock_endfor_zero {line : Line} (h : isEndfor line = true) (rest : List Line) :
    extractBlock chars 0 (line :: rest) = ([], line :: rest) := by
  rw [extractBlock, endfor_not_header h, h]
  rfl

theorem extractBlock_endfor_succ {line : Line} (h : isEndfor line = true) (level : Nat)
    (rest : List Line) : extractBlock chars (level + 1) (line :: rest) =
      (line :: (extractBlock chars level rest).1, (extractBlock chars level rest).2) := by
  rw [extractBlock, endfor_not_header h, h]
  rfl

theorem Loose.append {l₁ l₂ : List Line} (h₁ : Loose l₁) (h₂ : Loose l₂) : Loose (l₁ ++ l₂) :=
  fun line hline => (List.mem_append.mp hline).elim (h₁ line) (h₂ line)

theorem Loose.of_append {l₁ l₂ : List Line} (h : Loose (l₁ ++ l₂)) : Loose l₁ ∧ Loose l₂ :=
  ⟨fun line hline => h line (List.mem_append_left _ hline),
    fun line hline => h line (List.mem_append_right _ hline)⟩

theorem loose_cons_endfor {line : Line} {lines : List Line} (h : isEndfor line = true) :
    Loose (line :: lines) ↔ Loose lines :=
  ⟨fun hloose l hl => hloose l (List.mem_cons_of_mem _ hl),
    fun hloose l hl => (List.mem_cons.mp hl).elim (fun heq => .inr (heq ▸ h)) (hloose l)⟩

/-- A line that is a header is neither blank nor an `endfor`. -/
theorem not_loose_header {line : Line} {lines : List Line}
    (h : (isHeader chars line || isRangeForm chars line) = true) : ¬ Loose (line :: lines) := by
  intro hloose
  rcases hloose _ List.mem_cons_self with hblank | hend
  · rw [header_hasText h] at hblank
    cases hblank
  · rw [header_not_endfor h] at hend
    cases hend

/-- A plain line that does nothing is blank. -/
theorem Loose.blank_of_plain {line : Line} {lines : List Line} (hloose : Loose (line :: lines))
    (hplain : isPlain chars line = true) : hasText line = false := by
  refine (hloose _ List.mem_cons_self).resolve_right fun hendfor => ?_
  rw [isPlain, hendfor, Bool.not_true, Bool.and_false] at hplain
  cases hplain

theorem map_fill_loop (env : Env) (header : Line) (body : Template) (endfor : Line)
    (rest : Template) :
    (Template.loop header body endfor rest).lines.map (fill env) =
      fill env header :: (body.lines.map (fill env) ++
        fill env endfor :: rest.lines.map (fill env)) := by
  rw [Template.lines, List.map_cons, List.map_append, List.map_cons]

/-- Once more is closed than is open, only blank lines are covered. -/
theorem covered_iff_loose {template : Template} (hread : Readable chars env template)
    {opened closed : Nat} (h : opened < closed) :
    Covered chars env opened closed template ↔ Loose (template.lines.map (fill env)) := by
  induction template with
  | nil => exact iff_of_true trivial nofun
  | plain line rest ih =>
    obtain ⟨hplain, hrest⟩ := hread
    rw [Covered, ih hrest]
    constructor
    · rintro ⟨hblank, hloose⟩ l hl
      rcases List.mem_cons.mp hl with rfl | hl
      · exact .inl (Bool.eq_false_iff.mpr fun htext => absurd (hblank htext) (by omega))
      · exact hloose l hl
    · intro hloose
      refine ⟨fun htext => ?_, fun l hl => hloose l (List.mem_cons_of_mem _ hl)⟩
      rw [Loose.blank_of_plain hloose hplain] at htext
      cases htext
  | loop header body endfor rest ihb ihr =>
    exact iff_of_false (fun hcovered => absurd hcovered.1 (by omega)) (not_loose_header hread.1)

/-- Either all of the template is taken, or it is cut at an `endfor` and covered exactly when
nothing is left behind. -/
theorem extractBlock_lines {template : Template} (hread : Readable chars env template)
    {opened closed : Nat} (hle : closed ≤ opened) (after : List Line) :
    let lines := template.lines.map (fill env)
    let found := extractBlock chars (opened - closed) (lines ++ after)
    (closed + unseen chars env template ≤ opened ∧
        Covered chars env opened closed template ∧
        found = (lines ++ (extractBlock chars (opened - (closed + unseen chars env template)) after).1,
          (extractBlock chars (opened - (closed + unseen chars env template)) after).2)) ∨
      opened < closed + unseen chars env template ∧
        ∃ block stop left, lines = block ++ stop :: left ∧ isEndfor stop = true ∧
          found = (block, stop :: left ++ after) ∧
          (Covered chars env opened closed template ↔ Loose left) := by
  induction template generalizing opened closed after with
  | nil => exact .inl ⟨hle, trivial, rfl⟩
  | plain line rest ih =>
    obtain ⟨hplain, hrest⟩ := hread
    have hstep := extractBlock_plain hplain (opened - closed)
      (rest.lines.map (fill env) ++ after)
    have hcovered : Covered chars env opened closed (.plain line rest) ↔
        Covered chars env opened closed rest := and_iff_right (fun _ => hle)
    rcases ih hrest hle after with
      ⟨hall, hcov, hfound⟩ | ⟨hcut, block, stop, left, hlines, hstop, hfound, hiff⟩
    · refine .inl ⟨hall, hcovered.mpr hcov, ?_⟩
      exact hstep.trans (by rw [hfound]; rfl)
    · refine .inr ⟨hcut, fill env line :: block, stop, left, ?_, hstop, ?_, hcovered.trans hiff⟩
      · exact congrArg (List.cons _) hlines
      · exact hstep.trans (by rw [hfound])
  | loop header body endfor rest ihb ihr =>
    obtain ⟨hheader, hendfor, hbody, hrest⟩ := hread
    have hone : (isHeader chars (fill env header)).toNat +
        (!isHeader chars (fill env header)).toNat = 1 := by
      cases isHeader chars (fill env header) <;> rfl
    generalize hs : (isHeader chars (fill env header)).toNat = s at hone
    generalize hu : (!isHeader chars (fill env header)).toNat = u at hone
    have hlines : (Template.loop header body endfor rest).lines.map (fill env) ++ after =
        fill env header :: (body.lines.map (fill env) ++
          (fill env endfor :: (rest.lines.map (fill env) ++ after))) := by
      rw [map_fill_loop, List.cons_append, List.append_assoc, List.cons_append]
    have hstep := extractBlock_header hheader (opened - closed) (body.lines.map (fill env) ++
      (fill env endfor :: (rest.lines.map (fill env) ++ after)))
    have hlevel : opened - closed + s = opened + s - closed := by omega
    have hunseen : unseen chars env (.loop header body endfor rest) =
        u + unseen chars env body + unseen chars env rest := by rw [unseen, hu]
    have hcovered : Covered chars env opened closed (.loop header body endfor rest) ↔
        Covered chars env (opened + s) closed body ∧
          Covered chars env opened (closed + unseen chars env body + u) rest := by
      rw [Covered, hs, hu]
      exact and_iff_right hle
    rw [hs, hlevel] at hstep
    dsimp only
    rw [hlines, hstep, hunseen]
    have hle' : closed ≤ opened + s := by omega
    rcases ihb hbody hle' (fill env endfor :: (rest.lines.map (fill env) ++ after)) with
      ⟨hall, hcov, hfound⟩ | ⟨hcut, block, stop, left, hsplit, hstop, hfound, hiff⟩
    · rw [hfound]
      have hclose : opened + s - (closed + unseen chars env body) =
          opened + 1 - (closed + unseen chars env body + u) := by omega
      rw [hclose]
      by_cases hopen : closed + unseen chars env body + u ≤ opened
      · have hsucc : opened + 1 - (closed + unseen chars env body + u) =
            opened - (closed + unseen chars env body + u) + 1 := by omega
        rw [hsucc, extractBlock_endfor_succ hendfor]
        rcases ihr hrest hopen after with
          ⟨hall', hcov', hfound'⟩ | ⟨hcut, block, stop, left, hsplit, hstop, hfound', hiff⟩
        · rw [hfound']
          have hcount : closed + (u + unseen chars env body + unseen chars env rest) =
              closed + unseen chars env body + u + unseen chars env rest := by omega
          refine .inl ⟨by omega, hcovered.mpr ⟨hcov, hcov'⟩, ?_⟩
          rw [hcount, map_fill_loop]
          simp
        · rw [hfound']
          refine .inr ⟨by omega, fill env header :: (body.lines.map (fill env) ++
            fill env endfor :: block), stop, left, ?_, hstop, rfl, ?_⟩
          · rw [map_fill_loop, hsplit, List.cons_append, List.append_assoc, List.cons_append]
          · exact hcovered.trans ((and_iff_right hcov).trans hiff)
      · -- the loop's own `endfor` closes one too many
        have hzero : opened + 1 - (closed + unseen chars env body + u) = 0 := by omega
        rw [hzero, extractBlock_endfor_zero hendfor]
        refine .inr ⟨by omega, fill env header :: body.lines.map (fill env), fill env endfor,
          rest.lines.map (fill env), ?_, hendfor, ?_, ?_⟩
        · rw [map_fill_loop, List.cons_append]
        · simp
        · exact hcovered.trans ((and_iff_right hcov).trans
            (covered_iff_loose hrest (by omega)))
    · rw [hfound]
      refine .inr ⟨by omega, fill env header :: block, stop,
        left ++ fill env endfor :: rest.lines.map (fill env), ?_, hstop, ?_, ?_⟩
      · rw [map_fill_loop, hsplit, List.append_assoc, List.cons_append, List.cons_append]
      · simp
      · rw [hcovered, hiff, covered_iff_loose hrest (by omega)]
        constructor
        · exact fun ⟨hleft, hloose⟩ => hleft.append ((loose_cons_endfor hendfor).mpr hloose)
        · exact fun hloose => ⟨hloose.of_append.1,
            (loose_cons_endfor hendfor).mp hloose.of_append.2⟩

/-- The block of a loop: what is left of its body behind the cut is `left`, and the cut is at an
`endfor`. -/
theorem extractBlock_body {body : Template} (hread : Readable chars env body) {endfor : Line}
    (hendfor : isEndfor (fill env endfor) = true) (after : List Line) :
    ∃ block stop left more, body.lines.map (fill env) = block ++ left ∧
      left ++ [fill env endfor] = stop :: more ∧ isEndfor stop = true ∧
      extractBlock chars 0 (body.lines.map (fill env) ++ fill env endfor :: after) =
        (block, stop :: (more ++ after)) ∧
      (Covered chars env 0 0 body ↔ Loose left) := by
  rcases extractBlock_lines hread (le_refl 0) (fill env endfor :: after) with
    ⟨hall, hcov, hfound⟩ | ⟨hcut, block, stop, left, hlines, hstop, hfound, hiff⟩
  · have hzero : unseen chars env body = 0 := by omega
    rw [hzero, extractBlock_endfor_zero hendfor, List.append_nil] at hfound
    exact ⟨_, _, [], [], (List.append_nil _).symm, rfl, hendfor, hfound, iff_of_true hcov nofun⟩
  · refine ⟨block, stop, stop :: left, left ++ [fill env endfor], hlines, rfl, hstop, ?_,
      hiff.trans (loose_cons_endfor hstop).symm⟩
    rw [List.append_assoc]
    exact hfound

/-- A loop is cut whole exactly when its body is covered. -/
theorem whole_iff {body : Template} (hread : Readable chars env body) {endfor : Line}
    (hendfor : isEndfor (fill env endfor) = true) :
    Whole chars env body endfor ↔ Covered chars env 0 0 body := by
  obtain ⟨block, stop, left, more, hlines, -, -, hfound, hiff⟩ :=
    extractBlock_body hread hendfor []
  rw [hiff, Whole, List.map_append, List.map_singleton, hfound, hlines]
  constructor
  · rintro ⟨left', heq, hloose⟩
    rwa [List.append_cancel_left heq]
  · exact fun hloose => ⟨left, rfl, hloose⟩

theorem everyLoop_congr {Φ Ψ : Env → Template → Line → Prop}
    (h : ∀ env body endfor, Readable chars env body → isEndfor (fill env endfor) = true →
      (Φ env body endfor ↔ Ψ env body endfor)) {template : Template}
    (hproper : Proper chars env template) :
    EveryLoop chars Φ env template ↔ EveryLoop chars Ψ env template := by
  induction template generalizing env with
  | nil => exact Iff.rfl
  | plain line rest ih => exact ih hproper.2
  | loop header body endfor rest ihb ihr =>
    obtain ⟨hendfor, hread, hrest, hruns⟩ := hproper
    rw [EveryLoop, EveryLoop]
    refine and_congr (h _ _ _ hread hendfor) (and_congr (ihr hrest) ?_)
    cases hmatch : matchHeader chars (strip (fill env header)) with
    | none => exact Iff.rfl
    | some found =>
      rw [hmatch] at hruns
      exact forall₂_congr fun val hval => ihb (hruns val hval)

end Counting

/-! ### Blocks without their last lines -/

section Truncated

variable {chars : CharClass}

theorem extractBlock_append_snd (level : Nat) (lines : List Line) :
    (extractBlock chars level lines).1 ++ (extractBlock chars level lines).2 = lines := by
  induction lines generalizing level with
  | nil => cases level <;> rfl
  | cons line lines ih =>
    cases hheader : isHeader chars line with
    | true => cases level <;> simp [extractBlock, hheader, ih]
    | false =>
      cases hendfor : isEndfor line with
      | true => cases level <;> simp [extractBlock, hheader, hendfor, ih]
      | false => cases level <;> simp [extractBlock, hheader, hendfor, ih]

/-- Where lines are missing at the end, the block is the same or takes all there is. -/
theorem extractBlock_truncated (level : Nat) (kept cut : List Line) :
    ((extractBlock chars level kept).2 = [] ∧
        ∃ more, (extractBlock chars level (kept ++ cut)).1 = kept ++ more) ∨
      ∃ stop more, (extractBlock chars level kept).2 = stop :: more ∧
        extractBlock chars level (kept ++ cut) =
          ((extractBlock chars level kept).1, stop :: (more ++ cut)) := by
  induction kept generalizing level with
  | nil => exact .inl ⟨by cases level <;> rfl, _, rfl⟩
  | cons line kept ih =>
    cases hheader : isHeader chars line with
    | true =>
      rcases ih (level + 1) with ⟨hnil, more, hmore⟩ | ⟨stop, more, hstop, hmore⟩
      · left
        cases level <;> simp [extractBlock, hheader, hnil, hmore]
      · right
        cases level <;> simp [extractBlock, hheader, hstop, hmore]
    | false =>
      cases hendfor : isEndfor line with
      | true =>
        cases level with
        | zero => right; simp [extractBlock, hheader, hendfor]
        | succ level =>
          rcases ih level with ⟨hnil, more, hmore⟩ | ⟨stop, more, hstop, hmore⟩
          · left; simp [extractBlock, hheader, hendfor, hnil, hmore]
          · right; simp [extractBlock, hheader, hendfor, hstop, hmore]
      | false =>
        rcases ih level with ⟨hnil, more, hmore⟩ | ⟨stop, more, hstop, hmore⟩
        · left
          cases level <;> simp [extractBlock, hheader, hendfor, hnil, hmore]
        · right
          cases level <;> simp [extractBlock, hheader, hendfor, hstop, hmore]

end Truncated

/-! ### The lines of the output -/

section Output

variable {chars : CharClass}

/-- The lines with text that the expansion of `lines` gives. -/
def outputContent (chars : CharClass) (fuel : Nat) (lines : List Line) : List Line :=
  (outputLines chars fuel lines).flatMap (content hasText)

theorem outputContent_nil (fuel : Nat) : outputContent chars fuel [] = [] := by
  cases fuel <;> rfl

theorem outputContent_header {header var : Line} {vals : List Line}
    (h : matchHeader chars (strip header) = some (var, vals)) (fuel : Nat) (rest : List Line) :
    outputContent chars (fuel + 1) (header :: rest) =
      vals.flatMap (fun val => outputContent chars fuel
        (splitlines (joinLines ((extractBlock chars 0 rest).1.map (putIn var val))))) ++
      outputContent chars fuel ((extractBlock chars 0 rest).2.drop 1) := by
  rw [outputContent, outputLines, h]
  dsimp only
  rw [List.flatMap_append, List.flatMap_map]
  simp only [content_joinLines (show hasText [] = false from rfl)]
  rfl

theorem outputContent_plain {line : Line} (h : isPlain chars line = true)
    (hunbroken : Unbroken line) (fuel : Nat) (rest : List Line) :
    outputContent chars (fuel + 1) (line :: rest) =
      (if hasText line then [line] else []) ++ outputContent chars fuel rest := by
  obtain ⟨hheader, hendfor⟩ := Bool.and_eq_true_iff.mp h
  rw [Bool.not_eq_true'] at hheader hendfor
  have hmatch : matchHeader chars (strip line) = none := by
    simpa [isHeader] using hheader
  rw [outputContent, outputLines, hmatch]
  dsimp only
  rw [hendfor, if_neg Bool.false_ne_true, List.flatMap_cons,
    content_of_unbroken (show hasText [] = false from rfl) hunbroken]
  rfl

theorem outputContent_endfor {line : Line} (h : isEndfor line = true) (fuel : Nat)
    (rest : List Line) :
    outputContent chars (fuel + 1) (line :: rest) = outputContent chars fuel rest := by
  have hmatch : matchHeader chars (strip line) = none := by
    simpa [isHeader] using @endfor_not_header chars line h
  rw [outputContent, outputLines, hmatch]
  dsimp only
  rw [h, if_pos rfl]
  rfl

/-- Loose lines give nothing. -/
theorem outputContent_loose {lines : List Line} (h : Loose lines)
    (hunbroken : ∀ line ∈ lines, Unbroken line) (fuel : Nat) (rest : List Line) :
    outputContent chars (lines.length + fuel) (lines ++ rest) = outputContent chars fuel rest := by
  induction lines with
  | nil => rw [List.length_nil, Nat.zero_add, List.nil_append]
  | cons line lines ih =>
    have hstep := ih (fun l hl => h l (List.mem_cons_of_mem _ hl))
      (fun l hl => hunbroken l (List.mem_cons_of_mem _ hl))
    rw [List.length_cons, Nat.add_right_comm, List.cons_append]
    rcases h line List.mem_cons_self with hblank | hendfor
    · have hplain : isPlain chars line = true := by
        obtain ⟨hheader, hendfor⟩ := @blank_plain chars line hblank
        rw [isPlain, hheader, hendfor]
        rfl
      rw [outputContent_plain hplain (hunbroken line List.mem_cons_self), hblank,
        if_neg Bool.false_ne_true, List.nil_append, hstep]
    · rw [outputContent_endfor hendfor, hstep]

/-- The lines of a block and those behind its end are lines of the text. -/
theorem extractBlock_unbroken {lines : List Line} (h : ∀ line ∈ lines, Unbroken line) :
    (∀ line ∈ (extractBlock chars 0 lines).1, Unbroken line) ∧
      ∀ line ∈ (extractBlock chars 0 lines).2.drop 1, Unbroken line := by
  have hsum := @extractBlock_append_snd chars 0 lines
  constructor
  · intro line hline
    exact h line (hsum ▸ List.mem_append_left _ hline)
  · intro line hline
    exact h line (hsum ▸ List.mem_append_right _ (List.mem_of_mem_drop hline))

/-- A value that stands in a header breaks no line. -/
theorem unbroken_block {header : Line} {var : Line} {vals : List Line} {val : Line}
    {block : List Line} (hheader : Unbroken header)
    (hmatch : matchHeader chars (strip header) = some (var, vals)) (hval : val ∈ vals)
    (hblock : ∀ line ∈ block, Unbroken line) :
    ∀ line ∈ block.map (putIn var val), Unbroken line := by
  intro line hline
  obtain ⟨old, hold, rfl⟩ := List.mem_map.mp hline
  exact unbroken_putIn
    (unbroken_of_matchHeader (hheader.sublist (strip_sublist _)) hmatch hval) (hblock old hold)

/-- The fuel is enough: more of it changes nothing. -/
theorem outputLines_fuel {lines : List Line} (hunbroken : ∀ line ∈ lines, Unbroken line)
    {fuel fuel' : Nat} (h : lines.length ≤ fuel) (h' : lines.length ≤ fuel') :
    outputLines chars fuel lines = outputLines chars fuel' lines := by
  induction fuel generalizing fuel' lines with
  | zero =>
    obtain rfl := List.length_eq_zero_iff.mp (Nat.le_zero.mp h)
    cases fuel' <;> rfl
  | succ fuel ih =>
    cases lines with
    | nil => cases fuel' <;> rfl
    | cons line rest =>
      obtain ⟨fuel', rfl⟩ := Nat.exists_eq_add_of_lt (Nat.lt_of_lt_of_le (Nat.succ_pos _) h')
      rw [Nat.zero_add] at h' ⊢
      rw [List.length_cons, Nat.add_le_add_iff_right] at h h'
      have hrest : ∀ l ∈ rest, Unbroken l := fun l hl => hunbroken l (List.mem_cons_of_mem _ hl)
      rw [outputLines, outputLines]
      cases hmatch : matchHeader chars (strip line) with
      | none =>
        dsimp only
        rw [ih hrest h h']
      | some found =>
        obtain ⟨var, vals⟩ := found
        dsimp only
        have hlength := congrArg List.length (@extractBlock_append_snd chars 0 rest)
        rw [List.length_append] at hlength
        obtain ⟨hblock, hafter⟩ := @extractBlock_unbroken chars rest hrest
        congr 1
        · refine List.map_congr_left fun val hval => congrArg joinLines ?_
          obtain ⟨lost, hlost, -⟩ := splitlines_joinLines
            (unbroken_block (hunbroken _ List.mem_cons_self) hmatch hval hblock)
          have hshort := congrArg List.length hlost
          rw [List.length_append, List.length_map] at hshort
          exact ih (fun l hl => unbroken_of_mem_splitlines hl) (by omega) (by omega)
        · refine ih hafter ?_ ?_
          · rw [List.length_drop]; omega
          · rw [List.length_drop]; omega

theorem fill_concat (env : Env) (var val line : Line) :
    fill (env ++ [(var, val)]) line = putIn var val (fill env line) := by
  rw [fill, List.foldl_append]
  rfl

/-- What is cut for a covered loop, also where lines are missing at the end, and what follows. -/
theorem extractBlock_covered {env : Env} {body : Template} (hread : Readable chars env body)
    {endfor : Line} (hendfor : isEndfor (fill env endfor) = true)
    (hcovered : Covered chars env 0 0 body) {after kept cut : List Line}
    (hsplit : body.lines.map (fill env) ++ fill env endfor :: after = kept ++ cut)
    (hcut : Loose cut) :
    ∃ left more others, body.lines.map (fill env) = (extractBlock chars 0 kept).1 ++ left ∧
      Loose left ∧ (extractBlock chars 0 kept).2.drop 1 = more ++ others ∧ Loose more ∧
      ∃ cut', after = others ++ cut' ∧ Loose cut' := by
  obtain ⟨block, stop, left, more, hlines, hmore, hstop, hfound, hiff⟩ :=
    extractBlock_body hread hendfor after
  have hleft : Loose left := hiff.mp hcovered
  have hloose : Loose (stop :: more) := hmore ▸ hleft.append
    ((loose_cons_endfor hendfor).mpr nofun)
  rw [hsplit] at hfound
  rcases extractBlock_truncated 0 kept cut with ⟨hnil, extra, hextra⟩ | ⟨stop', more', hsnd, hall⟩
  · -- the lines end before the cut
    rw [hfound] at hextra
    dsimp only at hextra
    have hkept : (extractBlock chars 0 kept).1 = kept := by
      have := @extractBlock_append_snd chars 0 kept
      rwa [hnil, List.append_nil] at this
    have hrest : cut = extra ++ (left ++ fill env endfor :: after) := by
      rw [hlines, hextra, List.append_assoc, List.append_assoc, List.append_cancel_left_eq] at hsplit
      exact hsplit.symm
    rw [hrest] at hcut
    refine ⟨extra ++ left, [], [], ?_, hcut.of_append.1.append hleft, by rw [hnil]; rfl, nofun,
      after, rfl, ?_⟩
    · rw [hkept, hlines, hextra, List.append_assoc]
    · exact (loose_cons_endfor hendfor).mp hcut.of_append.2.of_append.2
  · rw [hall] at hfound
    simp only [Prod.mk.injEq, List.cons.injEq] at hfound
    obtain ⟨hblock, -, heq⟩ := hfound
    have hmore' : Loose more := (loose_cons_endfor hstop).mp hloose
    refine ⟨left, ?_⟩
    rw [hblock, hsnd, List.drop_succ_cons, List.drop_zero]
    rcases List.append_eq_append_iff.mp heq with ⟨others, hmore_eq, hcut_eq⟩ | ⟨others, hmore_eq, hafter⟩
    · -- the rest of the lines is left over from the body
      rw [hcut_eq] at hcut
      rw [hmore_eq] at hmore'
      exact ⟨more', [], hlines, hleft, (List.append_nil _).symm, hmore'.of_append.1, after, rfl,
        hcut.of_append.2⟩
    · exact ⟨more, others, hlines, hleft, hmore_eq, hmore', cut, hafter, hcut⟩

/-- The lines of a block with the value put in, joined and cut again, are those of the body up to
blank lines and what the block left behind. -/
theorem filled_block {env : Env} {var val : Line} {body block left : List Line}
    (hblock : body.map (fill env) = block ++ left)
    (hunbroken : ∀ l ∈ block.map (putIn var val), Unbroken l) (hleft : Loose left) :
    ∃ cut, body.map (fill (env ++ [(var, val)])) =
        splitlines (joinLines (block.map (putIn var val))) ++ cut ∧ Loose cut ∧
      (splitlines (joinLines (block.map (putIn var val)))).length ≤ block.length := by
  obtain ⟨lost, hlost, hempty⟩ := splitlines_joinLines hunbroken
  refine ⟨lost ++ left.map (putIn var val), ?_, Loose.append ?_ (hleft.putIn var val), ?_⟩
  · rw [← List.append_assoc, ← hlost, ← List.map_append, ← hblock, List.map_map]
    exact List.map_congr_left fun l _ => fill_concat env var val l
  · intro l hl
    rw [hempty l hl]
    exact .inl rfl
  · have hlength := congrArg List.length hlost
    rw [List.length_append, List.length_map] at hlength
    omega

/-- The expansion of a covered template, its last loose lines missing or not, is its run. -/
theorem outputContent_eq_run {template : Template} {env : Env} {fuel : Nat}
    {kept cut : List Line} (hsplit : template.lines.map (fill env) = kept ++ cut)
    (hcut : Loose cut) (hunbroken : ∀ line ∈ kept, Unbroken line) (hfuel : kept.length ≤ fuel)
    (hproper : Proper chars env template)
    (hcovered : EveryLoop chars (fun env body _ => Covered chars env 0 0 body) env template) :
    outputContent chars fuel kept = (run chars env template).filter hasText := by
  induction template generalizing env fuel kept cut with
  | nil =>
    obtain ⟨rfl, -⟩ := List.append_eq_nil_iff.mp hsplit.symm
    exact outputContent_nil fuel
  | plain line rest ih =>
    obtain ⟨hplain, hrest⟩ := hproper
    rw [run, List.filter_cons]
    cases kept with
    | nil =>
      have hlines : Loose (fill env line :: rest.lines.map (fill env)) := by
        rw [← List.map_cons]
        exact hsplit ▸ hcut
      rw [Loose.blank_of_plain hlines hplain, if_neg Bool.false_ne_true, outputContent_nil, ← @outputContent_nil chars 0]
      exact ih (List.nil_append _).symm (fun l hl => hlines l (List.mem_cons_of_mem _ hl)) nofun
        (le_refl 0) hrest hcovered
    | cons first kept =>
      obtain ⟨rfl, htail⟩ := List.cons.inj hsplit
      obtain ⟨fuel, rfl⟩ := Nat.exists_eq_add_of_lt (Nat.lt_of_lt_of_le (Nat.succ_pos _) hfuel)
      rw [Nat.zero_add, outputContent_plain hplain (hunbroken _ List.mem_cons_self),
        ih htail hcut (fun l hl => hunbroken l (List.mem_cons_of_mem _ hl))
          (by simpa using hfuel) hrest hcovered]
      split <;> rfl
  | loop header body endfor rest ihb ihr =>
    obtain ⟨hendfor, hread, hrest, hruns⟩ := hproper
    obtain ⟨hbody, hcoveredRest, hcoveredRuns⟩ := hcovered
    rw [map_fill_loop] at hsplit
    cases hmatch : matchHeader chars (strip (fill env header)) with
    | none =>
      rw [hmatch] at hruns
      exact hruns.elim
    | some found =>
      obtain ⟨var, vals⟩ := found
      rw [hmatch] at hruns hcoveredRuns
      have hheader : (isHeader chars (fill env header) ||
          isRangeForm chars (fill env header)) = true := by
        rw [isHeader, hmatch]
        rfl
      cases kept with
      | nil =>
        rw [List.nil_append] at hsplit
        rw [← hsplit] at hcut
        exact absurd hcut (not_loose_header hheader)
      | cons first kept =>
        obtain ⟨rfl, htail⟩ := List.cons.inj hsplit
        obtain ⟨left, more, others, hblock, hleft, hmore, hmoreLoose, cut', hafter, hcut'⟩ :=
          extractBlock_covered hread hendfor hbody htail hcut
        obtain ⟨hblockMem, hafterMem⟩ := @extractBlock_unbroken chars kept
          fun l hl => hunbroken l (List.mem_cons_of_mem _ hl)
        rw [hmore] at hafterMem
        have hlength : (extractBlock chars 0 kept).1.length +
            (extractBlock chars 0 kept).2.length = kept.length := by
          rw [← List.length_append, extractBlock_append_snd]
        obtain ⟨fuel, rfl⟩ := Nat.exists_eq_add_of_lt (Nat.lt_of_lt_of_le (Nat.succ_pos _) hfuel)
        rw [Nat.zero_add] at hfuel ⊢
        rw [List.length_cons, Nat.add_le_add_iff_right] at hfuel
        rw [outputContent_header hmatch, run, hmatch, List.filter_append, List.filter_flatMap]
        congr 1
        · refine List.flatMap_congr fun val hval => ?_
          have hputIn := unbroken_block (hunbroken _ List.mem_cons_self) hmatch hval hblockMem
          obtain ⟨cut, hbodySplit, hbodyCut, hshort⟩ := filled_block hblock hputIn hleft
          exact ihb hbodySplit hbodyCut (fun l hl => unbroken_of_mem_splitlines hl) (by omega)
            (hruns val hval) (hcoveredRuns val hval)
        · have hothers := congrArg List.length hmore
          rw [List.length_append, List.length_drop] at hothers
          obtain ⟨spare, hspare⟩ := Nat.exists_eq_add_of_le (show more.length ≤ fuel by omega)
          rw [hmore, hspare, outputContent_loose hmoreLoose
            (fun l hl => hafterMem l (List.mem_append_left _ hl))]
          exact ihr hafter hcut' (fun l hl => hafterMem l (List.mem_append_right _ hl)) (by omega)
            hrest hcoveredRest

end Output

/-- The ASCII part of the classes. -/
def asciiClass : CharClass where
  isWord := fun c => c.isAlphanum || c = '_'
  decimal := fun c => if '0' ≤ c ∧ c ≤ '9' then some (c.toNat - 48) else none

/-- A loop whose inner loop runs up to its variable, and what follows the inner loop. -/
def triangle (rest : Template) : Template :=
  .loop "for i in range 0 2".toList
    (.loop "for j in range 0 {i}".toList (.plain "x{i}{j}".toList .nil) "endfor".toList rest)
    "endfor".toList .nil

theorem triangle_proper (rest : Template) (hread : Readable asciiClass [] rest)
    (hrest : ∀ val ∈ ["0".toList, "1".toList], Proper asciiClass [("i".toList, val)] rest) :
    Proper asciiClass [] (triangle rest) := by
  refine ⟨by decide +kernel, ⟨by decide +kernel, by decide +kernel, ⟨by decide +kernel, trivial⟩,
    hread⟩, trivial, ?_⟩
  show ∀ val ∈ ["0".toList, "1".toList], Proper asciiClass [("i".toList, val)] _
  intro val hval
  have hval' := hval
  simp only [List.mem_cons, List.not_mem_nil, or_false] at hval
  rcases hval with rfl | rfl
  · refine ⟨by decide +kernel, ⟨by decide +kernel, trivial⟩, hrest _ hval', ?_⟩
    show ∀ val ∈ ([] : List Line), Proper asciiClass [("i".toList, "0".toList), _] _
    exact nofun
  · refine ⟨by decide +kernel, ⟨by decide +kernel, trivial⟩, hrest _ hval', ?_⟩
    show ∀ val ∈ ["0".toList], Proper asciiClass [("i".toList, "1".toList), ("j".toList, val)] _
    intro val hval
    rw [List.mem_singleton.mp hval]
    exact ⟨by decide +kernel, trivial⟩

end UniSdk.Scripts.ForLoops

import UniSdk.Scripts.ChipConfig

/-!
# When the script follows its header

Every line of chip.config is read for one family, so what the script keeps of the file are the
last enabled names of its three families. The parent of a board is its SoC, unless a series
stands in front. From there the outcome is compared with the rule request by request.
-/

namespace UniSdk.Scripts.ChipConfig

open UniSdk.Library.Text (afterLead afterLead_eq_some)
open UniSdk.Scripts.Pinmux (strip splitLines)

/-! ### Reading the lines -/

theorem beforeYes_eq_some {text name : Name} :
    beforeYes text = some name ↔ text = name ++ ['=', 'y'] := by
  have hback : text = name ++ ['=', 'y'] ↔ text.reverse = 'y' :: '=' :: name.reverse := by
    rw [← List.reverse_inj]
    simp
  rw [hback]
  unfold beforeYes
  split
  · next rest h => simp [h, List.reverse_eq_iff]
  · next h => exact ⟨nofun, fun heq => absurd heq (h _)⟩

/-- The lead of the symbols of a family. -/
def Family.symbolLead : Family → String
  | .series => "TLK_SOC_SERIES_"
  | .soc => "TLK_SOC_"
  | .board => "TLK_BOARD_"

theorem Family.symbolLead_toList (family : Family) :
    family.symbolLead.toList = "TLK_".toList ++ family.lead := by cases family <;> rfl

/-- What stands for the star in the name of a family. -/
def star (family : Family) (name : Name) : Option Name :=
  (afterLead family.symbolLead.toList name).filter (· ≠ [])

theorem bind_findSome? {α β γ : Type*} (o : Option α) (g : α → β → Option γ) (l : List β) :
    o.bind (fun a => l.findSome? (g a)) = l.findSome? (fun b => o.bind (fun a => g a b)) := by
  cases o with
  | none => exact (List.findSome?_eq_none_iff.mpr fun _ _ => rfl).symm
  | some a => rfl

/-- The lead of the pattern is that of every line and that of every symbol. -/
theorem configTlk : "CONFIG_TLK_".toList = "CONFIG_".toList ++ "TLK_".toList := rfl

/-- The pattern reads the enabled symbol and tries the families in their order. -/
theorem matchEnabled_eq (line : Name) : matchEnabled line = (enabledName line).bind fun name =>
    [Family.series, .soc, .board].findSome? fun family =>
      (star family name).map (Prod.mk family) := by
  rw [matchEnabled, bind_findSome?, bind_findSome?]
  congr 1
  funext family
  apply Option.ext
  intro entry
  rw [configTlk, enabledName]
  unfold star
  rw [Family.symbolLead_toList]
  generalize "CONFIG_".toList = config
  generalize "TLK_".toList = tlk
  simp only [Option.bind_eq_some_iff, Option.map_eq_some_iff, Option.filter_eq_some_iff,
    afterLead_eq_some, beforeYes_eq_some]
  constructor
  · rintro ⟨rest, rfl, name, ⟨⟨rest', rfl, rfl⟩, hname⟩, rfl⟩
    refine ⟨tlk ++ family.lead ++ name, ⟨_, List.append_assoc _ _ _, ?_⟩, name,
      ⟨rfl, hname⟩, rfl⟩
    simp only [List.append_assoc]
  · rintro ⟨_, ⟨rest, rfl, rfl⟩, name, ⟨rfl, hname⟩, rfl⟩
    refine ⟨family.lead ++ name ++ ['=', 'y'], ?_, name, ⟨⟨_, ?_, rfl⟩, hname⟩, rfl⟩
    · simp only [List.append_assoc]
    · simp only [List.append_assoc]

/-- The lines of a family name its symbols. -/
def Family.kind : Family → Name → Bool
  | .series => isSeries
  | .soc => isSoc
  | .board => Within "TLK_BOARD_"

/-- The entry, where it is of the family. -/
def named (family : Family) (entry : Family × Name) : Option Name :=
  if entry.1 = family then some entry.2 else none

theorem star_of_within {family : Family} {name : Name}
    (h : Within family.symbolLead name = true) :
    ∃ rest, star family name = some rest ∧ family.symbolLead.toList ++ rest = name := by
  obtain ⟨hlead, hne⟩ := Bool.and_eq_true_iff.mp h
  obtain ⟨rest, rfl⟩ := List.isPrefixOf_iff_prefix.mp hlead
  refine ⟨rest, ?_, rfl⟩
  rw [star, afterLead_eq_some.mpr rfl, Option.filter_some, if_pos]
  simpa using hne

theorem star_of_not_within {family : Family} {name : Name}
    (h : Within family.symbolLead name = false) : star family name = none := by
  rw [Option.eq_none_iff_forall_ne_some]
  intro rest hrest
  obtain ⟨hafter, hne⟩ := Option.filter_eq_some_iff.mp hrest
  have hlead : family.symbolLead.toList.isPrefixOf (family.symbolLead.toList ++ rest) = true :=
    List.isPrefixOf_iff_prefix.mpr (List.prefix_append _ _)
  rw [afterLead_eq_some.mp hafter, Within, hlead] at h
  simp_all

/-- Leads of which neither starts with the other lead no common name. -/
theorem within_clash {lead other : String} {name : Name}
    (h₁ : lead.toList.isPrefixOf other.toList = false)
    (h₂ : other.toList.isPrefixOf lead.toList = false) (h : Within lead name = true) :
    Within other name = false := by
  rw [Bool.eq_false_iff]
  intro hother
  have hl := List.isPrefixOf_iff_prefix.mp (Bool.and_eq_true_iff.mp h).1
  have ho := List.isPrefixOf_iff_prefix.mp (Bool.and_eq_true_iff.mp hother).1
  rcases List.prefix_or_prefix_of_prefix hl ho with hle | hle
  · rw [List.isPrefixOf_iff_prefix.mpr hle] at h₁
    cases h₁
  · rw [List.isPrefixOf_iff_prefix.mpr hle] at h₂
    cases h₂

/-- A symbol is read as one of the family it is of. -/
theorem classify_eq (family : Family) (name : Name) :
    (([Family.series, .soc, .board].findSome? fun family =>
        (star family name).map (Prod.mk family)).bind (named family)).map
      (family.symbolLead.toList ++ ·) = if family.kind name then some name else none := by
  cases hseries : Within "TLK_SOC_SERIES_" name with
  | true =>
    have hboard : Within "TLK_BOARD_" name = false := within_clash rfl rfl hseries
    obtain ⟨rest, hrest, hname⟩ := @star_of_within .series name hseries
    cases family with
    | series => simpa [hrest, named, Family.kind, isSeries, hseries] using hname
    | soc => simp [hrest, named, Family.kind, isSoc, isSeries, hseries]
    | board => simp [hrest, named, Family.kind, hboard]
  | false =>
    have hnone : star .series name = none := star_of_not_within hseries
    cases hsoc : Within "TLK_SOC_" name with
    | true =>
      have hboard : Within "TLK_BOARD_" name = false := within_clash rfl rfl hsoc
      obtain ⟨rest, hrest, hname⟩ := @star_of_within .soc name hsoc
      cases family with
      | series => simp [hnone, hrest, named, Family.kind, isSeries, hseries]
      | soc => simpa [hnone, hrest, named, Family.kind, isSoc, isSeries, hseries, hsoc] using hname
      | board => simp [hnone, hrest, named, Family.kind, hboard]
    | false =>
      have hnone' : star .soc name = none := star_of_not_within hsoc
      cases hboard : Within "TLK_BOARD_" name with
      | true =>
        obtain ⟨rest, hrest, hname⟩ := @star_of_within .board name hboard
        cases family with
        | series => simp [hnone, hnone', hrest, named, Family.kind, isSeries, hseries]
        | soc => simp [hnone, hnone', hrest, named, Family.kind, isSoc, hsoc]
        | board => simpa [hnone, hnone', hrest, named, Family.kind, hboard] using hname
      | false =>
        have hnone'' : star .board name = none := star_of_not_within hboard
        have hkind : family.kind name = false := by
          cases family with
          | series => exact hseries
          | soc => simp [Family.kind, isSoc, hsoc]
          | board => exact hboard
        simp [hnone, hnone', hnone'', hkind]

/-- `curr` at the key of a family. -/
def Current.get (curr : Current) : Family → Option Name
  | .series => curr.series
  | .soc => curr.soc
  | .board => curr.board

theorem Current.get_set (curr : Current) (family other : Family) (name : Name) :
    (curr.set family name).get other = (named other (family, name)).or (curr.get other) := by
  cases family <;> cases other <;> rfl

/-- The last line of a family decides what is read for it. -/
theorem get_foldl_readLine (family : Family) (lines : List Name) (curr : Current) :
    (lines.foldl readLine curr).get family =
      (lines.filterMap fun line =>
        (matchEnabled (strip line)).bind (named family)).getLast?.or (curr.get family) := by
  induction lines generalizing curr with
  | nil => rfl
  | cons line lines ih =>
    rw [List.foldl_cons, ih, List.filterMap_cons, readLine]
    cases hmatch : matchEnabled (strip line) with
    | none => rfl
    | some entry =>
      rw [Current.get_set]
      cases hnamed : named family entry with
      | none => simp [hnamed]
      | some name => simp [hnamed, List.getLast?_cons, Option.or_some]

/-- What the script reads is the enabled symbol of each family. -/
theorem get_readCurrentConfig (family : Family) (text : Name) :
    ((readCurrentConfig (some text)).get family).map (family.symbolLead.toList ++ ·) =
      enabled family.kind text := by
  have hempty : (Current.mk none none none).get family = none := by cases family <;> rfl
  rw [readCurrentConfig, get_foldl_readLine, hempty, Option.or_none, ← List.getLast?_map,
    List.map_filterMap, enabled, enabledNames, List.filter_filterMap]
  congr 2
  funext line
  rw [matchEnabled_eq]
  cases hname : enabledName (strip line) with
  | none => rfl
  | some name =>
    rw [Option.bind_some, classify_eq, Option.filter_some]

/-! ### The lookups -/

section Lookups

variable {kconf : Kconf} {upper : Upper}

theorem Family.kind_within {family : Family} {name : Name} (h : family.kind name = true) :
    Within family.symbolLead name = true := by
  cases family with
  | series => exact h
  | soc => exact (Bool.and_eq_true_iff.mp h).1
  | board => exact h

theorem kind_of_enabled {kind : Name → Bool} {text name : Name}
    (h : enabled kind text = some name) : kind name = true :=
  (List.mem_filter.mp (List.mem_of_getLast? h)).2

/-- An enabled symbol is looked up under its name. -/
theorem currentSymbol_eq (family : Family) (text : Name) :
    currentSymbol kconf family.symbolLead ((readCurrentConfig (some text)).get family) =
      (enabled family.kind text).bind kconf.syms := by
  have hread := get_readCurrentConfig family text
  cases hget : (readCurrentConfig (some text)).get family with
  | none =>
    rw [hget] at hread
    rw [← hread]
    rfl
  | some name =>
    rw [hget] at hread
    have hwithin := Family.kind_within (kind_of_enabled hread.symm)
    have hne : name ≠ [] := by
      rintro rfl
      simp [Within] at hwithin
    rw [← hread, currentSymbol, Option.bind_some, if_neg hne]
    rfl

/-- A requested symbol is compared with the enabled one by its name. -/
theorem name_eq_fullName_iff {family : Family} {text given : Name} {sym : Symbol}
    (hsym : sym.name = family.symbolLead.toList ++ upper.apply given) :
    sym.name = fullName family.symbolLead ((readCurrentConfig (some text)).get family) ↔
      enabled family.kind text = some sym.name := by
  have hread := get_readCurrentConfig family text
  cases hget : (readCurrentConfig (some text)).get family with
  | none =>
    rw [hget] at hread
    rw [← hread, hsym, fullName, Option.getD_none, List.append_cancel_left_eq]
    refine ⟨fun heq => ?_, nofun⟩
    -- `None` has lower-case letters, a requested name has none
    have hlower := upper.no_lower given 'o' (by rw [heq]; decide)
    cases hlower
  | some name =>
    rw [hget] at hread
    rw [← hread, fullName, Option.getD_some, Option.map_some, Option.some_inj, eq_comm]

theorem lookupSymbol_ok {lead label : String} {name : Option Name} {sym : Symbol}
    (h : lookupSymbol kconf upper lead name label = .ok (some sym)) :
    ∃ given, sym.name = lead.toList ++ upper.apply given := by
  unfold lookupSymbol at h
  split at h
  · cases h
  · next given =>
    split at h
    · cases h
    · split at h
      · next found hfound =>
        cases h
        exact ⟨given, kconf.name_of_syms _ _ hfound⟩
      · cases h

/-- The requested series and SoC carry the names that were looked up. -/
theorem requested_names {args : Args} {req : Request} (h : requested kconf upper args = .ok req) :
    (∀ sym ∈ req.series, ∃ given, sym.name = "TLK_SOC_SERIES_".toList ++ upper.apply given) ∧
      ∀ sym ∈ req.soc, ∃ given, sym.name = "TLK_SOC_".toList ++ upper.apply given := by
  unfold requested at h
  cases hseries : lookupSymbol kconf upper "TLK_SOC_SERIES_" args.socSeries "SOC_SERIES" with
  | error message => rw [hseries] at h; cases h
  | ok series =>
    cases hsoc : lookupSymbol kconf upper "TLK_SOC_" args.soc "SOC" with
    | error message => rw [hseries, hsoc] at h; cases h
    | ok soc =>
      cases hboard : lookupSymbol kconf upper "TLK_BOARD_" args.board "BOARD" with
      | error message => rw [hseries, hsoc, hboard] at h; cases h
      | ok board =>
        rw [hseries, hsoc, hboard] at h
        cases h
        refine ⟨fun sym hsym => ?_, fun sym hsym => ?_⟩
        · have hsome : series = some sym := hsym
          exact lookupSymbol_ok (hsome ▸ hseries)
        · have hsome : soc = some sym := hsym
          exact lookupSymbol_ok (hsome ▸ hsoc)

/-- `changed` is false exactly when the request repeats chip.config. -/
theorem changed_eq_false_iff {args : Args} {req : Request} {text : Name}
    (h : requested kconf upper args = .ok req) :
    changed true (readCurrentConfig (some text)) req = false ↔ Repeats text req := by
  obtain ⟨hseries, hsoc⟩ := requested_names h
  rw [changed, Bool.true_and, Bool.or_eq_false_iff, Repeats]
  refine and_congr ?_ ?_
  · cases hgiven : req.soc with
    | none => simp
    | some soc =>
      obtain ⟨given, hname⟩ := hsoc soc hgiven
      have hiff : soc.name = fullName "TLK_SOC_" (readCurrentConfig (some text)).soc ↔
          currentSoc text = some soc.name := @name_eq_fullName_iff upper .soc text given soc hname
      simpa using hiff
  · cases hgiven : req.series with
    | none => simp
    | some series =>
      obtain ⟨given, hname⟩ := hseries series hgiven
      have hiff : series.name = fullName "TLK_SOC_SERIES_" (readCurrentConfig (some text)).series ↔
          currentSeries text = some series.name :=
        @name_eq_fullName_iff upper .series text given series hname
      simpa using hiff

/-- The board that stays is the one of the last line with its lead. -/
theorem keptBoard_eq {args : Args} {req : Request} {text : Name}
    (h : requested kconf upper args = .ok req) [Decidable (Repeats text req)] :
    keptBoard kconf true (readCurrentConfig (some text)) req =
      if Repeats text req then (lastBoardLine text).bind kconf.syms else none := by
  have hsym := @currentSymbol_eq kconf .board text
  by_cases hrepeats : Repeats text req
  · rw [if_pos hrepeats, keptBoard, (changed_eq_false_iff h).mpr hrepeats]
    exact hsym
  · rw [if_neg hrepeats, keptBoard]
    have hchanged : ¬ changed true (readCurrentConfig (some text)) req = false :=
      (changed_eq_false_iff h).not.mpr hrepeats
    simp [hchanged]

end Lookups

/-! ### The board's SoC -/

section Parents

variable {kconf : Kconf}

/-- A name with a lead is not empty. -/
theorem getParent_eq {sym : Symbol} {lead : String} (h : lead.toList ≠ []) :
    getParent kconf sym lead =
      (symbols (deps kconf sym)).find? (fun item => lead.toList.isPrefixOf item.name) := by
  unfold getParent
  congr 1
  funext item
  cases hlead : lead.toList.isPrefixOf item.name with
  | false => simp
  | true =>
    obtain ⟨rest, hrest⟩ := List.isPrefixOf_iff_prefix.mp hlead
    simp [← hrest, h]

theorem getParent_series (soc : Symbol) :
    getParent kconf soc "TLK_SOC_SERIES_" = ownSeries kconf soc := getParent_eq (by decide)

theorem find?_and_of_find? {α : Type*} {p q : α → Bool} {l : List α} {a : α}
    (h : l.find? p = some a) (hq : q a = true) : l.find? (fun x => p x && q x) = some a := by
  induction l with
  | nil => cases h
  | cons b l ih =>
    rw [List.find?_cons] at h ⊢
    cases hb : p b with
    | true =>
      rw [hb] at h
      cases h
      simp [hq]
    | false =>
      rw [hb] at h
      exact ih h

/-- The parent of a board is its SoC, unless a series stands in front. -/
theorem getParent_board (board : Symbol) :
    (seriesInFront kconf board = none ∧ getParent kconf board "TLK_SOC_" = ownSoc kconf board) ∨
      ∃ series, seriesInFront kconf board = some series ∧
        getParent kconf board "TLK_SOC_" = some series ∧ ownSoc kconf board ≠ some series := by
  rw [getParent_eq (by decide), seriesInFront, ownSoc]
  cases hfind : (symbols (deps kconf board)).find?
      (fun item => "TLK_SOC_".toList.isPrefixOf item.name) with
  | none =>
    left
    refine ⟨rfl, (List.find?_eq_none.mpr fun item hitem => ?_).symm⟩
    have hnone := List.find?_eq_none.mp hfind item hitem
    exact fun hboth => hnone (Bool.and_eq_true_iff.mp hboth).1
  | some sym =>
    cases hseries : "TLK_SOC_SERIES_".toList.isPrefixOf sym.name with
    | false =>
      left
      refine ⟨by rw [Option.filter_some, if_neg (by rw [hseries]; decide)], ?_⟩
      exact (find?_and_of_find? hfind (by rw [hseries]; rfl)).symm
    | true =>
      right
      refine ⟨sym, by rw [Option.filter_some, if_pos hseries], rfl, fun hown => ?_⟩
      have hnot := List.find?_some hown
      rw [hseries] at hnot
      simp at hnot

end Parents

/-! ### The outcome -/

section Outcome

variable {kconf : Kconf} {upper : Upper}

theorem misfit_iff {found want : Option Symbol} :
    (want.isSome ∧ found ≠ want) ↔ ¬ ∀ sym ∈ want, found = some sym := by
  cases want <;> simp

/-- With a board the script takes its parent for the SoC. -/
theorem resolve_board {args : Args} {exist : Bool} {curr : Current} {req : Request}
    {board : Symbol} (hboard : req.board = some board) :
    let soc := getParent kconf board "TLK_SOC_"
    (FitsChip kconf soc req ∧
      resolve kconf args exist curr req =
        .ok ⟨soc.bind (ownSeries kconf), soc, some board⟩) ∨
    ¬ FitsChip kconf soc req ∧ ∃ message, resolve kconf args exist curr req = .error message := by
  dsimp only
  have hseries : (fun soc => getParent kconf soc "TLK_SOC_SERIES_") = ownSeries kconf :=
    funext getParent_series
  rw [resolve, hboard]
  dsimp only
  rw [hseries, FitsChip]
  by_cases hsoc : req.soc.isSome ∧ getParent kconf board "TLK_SOC_" ≠ req.soc
  · right
    rw [if_pos hsoc]
    exact ⟨fun hfits => misfit_iff.mp hsoc hfits.1, _, rfl⟩
  · rw [if_neg hsoc]
    rw [misfit_iff, not_not] at hsoc
    by_cases hown : req.series.isSome ∧
        (getParent kconf board "TLK_SOC_").bind (ownSeries kconf) ≠ req.series
    · right
      rw [if_pos hown]
      exact ⟨fun hfits => misfit_iff.mp hown hfits.2, _, rfl⟩
    · left
      rw [if_neg hown]
      rw [misfit_iff, not_not] at hown
      exact ⟨⟨hsoc, hown⟩, rfl⟩

theorem documented_board_iff {args : Args} {exist : Bool} {curr : Current} {text : Name}
    {req : Request} {board : Symbol} (hboard : req.board = some board) :
    Documented kconf text req (resolve kconf args exist curr req) ↔ HoldsWhen kconf text req := by
  have hcompatible : Compatible kconf req ↔ FitsChip kconf (ownSoc kconf board) req := by
    rw [Compatible, hboard]
  have hrule : rule kconf text req = ⟨(ownSoc kconf board).bind (ownSeries kconf),
      ownSoc kconf board, some board⟩ := by
    simp [rule, ruleChip, hboard]
  rw [HoldsWhen, hboard]
  dsimp only
  have houtcome := @resolve_board kconf args exist curr req board hboard
  rcases @getParent_board kconf board with ⟨hfront, hparent⟩ | ⟨series, hfront, hparent, hne⟩
  · rw [hfront]
    rw [hparent] at houtcome
    rcases houtcome with ⟨hfits, hres⟩ | ⟨hfits, message, hres⟩
    · rw [hres]
      exact iff_of_true ⟨hcompatible.mpr hfits, hrule.symm⟩ trivial
    · rw [hres]
      exact iff_of_true (hcompatible.not.mpr hfits) trivial
  · rw [hfront]
    rw [hparent] at houtcome
    rcases houtcome with ⟨hfits, hres⟩ | ⟨hfits, message, hres⟩
    · rw [hres]
      refine iff_of_false (fun ⟨_, heq⟩ => hne ?_) (fun h => h.2 hfits)
      rw [hrule] at heq
      exact (congrArg Target.soc heq).symm
    · rw [hres]
      exact ⟨fun h => ⟨h, hfits⟩, And.left⟩

/-- Without a board the script finds the series and the SoC of the rule. -/
theorem resolve_chip {args : Args} {text : Name} {req : Request} (hboard : req.board = none) :
    let curr := readCurrentConfig (some text)
    let chip := ruleChip kconf text req
    (Compatible kconf req ∧ resolve kconf args true curr req =
        .ok ⟨chip.1, chip.2, keptBoard kconf true curr req⟩) ∨
    ¬ Compatible kconf req ∧
      ∃ message, resolve kconf args true curr req = .error message := by
  obtain ⟨series, soc, board⟩ := req
  cases hboard
  cases soc with
  | some soc =>
    simp only [resolve, getParent_series]
    by_cases hfits : ∀ sym ∈ series, ownSeries kconf soc = some sym
    · left
      rw [if_neg (misfit_iff.not.mpr (not_not.mpr hfits))]
      refine ⟨hfits, ?_⟩
      cases series with
      | none => simp [ruleChip]
      | some sym => simp [ruleChip, hfits sym rfl]
    · right
      rw [if_pos (misfit_iff.mpr hfits)]
      exact ⟨hfits, _, rfl⟩
  | none =>
    left
    refine ⟨trivial, ?_⟩
    cases series with
    | some series => rfl
    | none =>
      have hseries := @currentSymbol_eq kconf .series text
      have hsoc := @currentSymbol_eq kconf .soc text
      exact congrArg₂ (fun series soc => Except.ok (Target.mk series soc _)) hseries hsoc

theorem map_name_bind_syms_iff {name : Option Name} :
    (name.bind kconf.syms).map Symbol.name = name ↔
      ∀ found ∈ name, (kconf.syms found).isSome := by
  cases name with
  | none => simp
  | some name =>
    cases hsym : kconf.syms name with
    | none => simp [hsym]
    | some sym => simp [hsym, kconf.name_of_syms _ _ hsym]

/-- The series and the SoC are the ones in chip.config when the request repeats it and the rest
is settled. -/
theorem unchanged_iff {text : Name} {req : Request} (hboard : req.board = none)
    (hcompatible : Compatible kconf req) :
    ((ruleChip kconf text req).1.map Symbol.name = currentSeries text ∧
      (ruleChip kconf text req).2.map Symbol.name = currentSoc text) ↔
    Repeats text req ∧ Settled kconf text req := by
  obtain ⟨series, soc, board⟩ := req
  cases hboard
  cases soc with
  | some soc =>
    simp only [ruleChip, Repeats, Settled, Option.map_some, Option.mem_some_iff, forall_eq']
    constructor
    · rintro ⟨hseries, hsoc⟩
      refine ⟨⟨hsoc.symm, fun sym hsym => ?_⟩, hseries⟩
      rw [← hseries, hcompatible sym hsym, Option.map_some]
    · rintro ⟨⟨hsoc, -⟩, hseries⟩
      exact ⟨hseries, hsoc.symm⟩
  | none =>
    cases series with
    | some series => simp [ruleChip, Repeats, Settled, eq_comm]
    | none =>
      simp only [ruleChip, map_name_bind_syms_iff, Repeats, Settled]
      simp

/-- The last line with the lead of a board is the board's, unless it is the other symbol. -/
theorem currentBoard_of_last {text : Name}
    (h : lastBoardLine text ≠ some "TLK_BOARD_IS_SELECTED".toList) :
    currentBoard text = lastBoardLine text := by
  have hfilter : (enabledNames text).filter isBoard =
      ((enabledNames text).filter (Within "TLK_BOARD_")).filter
        (fun name => name ≠ "TLK_BOARD_IS_SELECTED".toList) := by
    rw [List.filter_filter]
    congr 1
    funext name
    exact Bool.and_comm _ _
  rw [lastBoardLine, enabled] at h
  rw [currentBoard, lastBoardLine, enabled, enabled, hfilter]
  generalize (enabledNames text).filter (Within "TLK_BOARD_") = lines at h ⊢
  rcases List.eq_nil_or_concat lines with rfl | ⟨init, last, rfl⟩
  · rfl
  · rw [List.concat_eq_append, List.getLast?_concat] at h ⊢
    have hlast : last ≠ "TLK_BOARD_IS_SELECTED".toList := fun heq => h (congrArg some heq)
    have hkeep : [last].filter (fun name => name ≠ "TLK_BOARD_IS_SELECTED".toList) = [last] :=
      List.filter_eq_self.mpr fun name hname => by
        rw [List.mem_singleton.mp hname, decide_eq_true hlast]
    rw [List.filter_append, hkeep, List.getLast?_concat]

/-- A board's symbol is not `TLK_BOARD_IS_SELECTED`. -/
theorem bind_syms_eq_iff {text : Name}
    (h : lastBoardLine text = some "TLK_BOARD_IS_SELECTED".toList) :
    (lastBoardLine text).bind kconf.syms = (currentBoard text).bind kconf.syms ↔
      (lastBoardLine text).bind kconf.syms = none ∧
        (currentBoard text).bind kconf.syms = none := by
  refine ⟨fun heq => ?_, fun hnone => hnone.1.trans hnone.2.symm⟩
  rw [← heq, and_self, Option.eq_none_iff_forall_ne_some]
  intro sym hsym
  rw [hsym] at heq
  obtain ⟨name, hname, hfound⟩ := Option.bind_eq_some_iff.mp heq.symm
  rw [h, Option.bind_some] at hsym
  have hboard := (Bool.and_eq_true_iff.mp (kind_of_enabled hname)).2
  rw [← kconf.name_of_syms _ _ hfound, kconf.name_of_syms _ _ hsym] at hboard
  simp at hboard

open Classical in
theorem documented_chip_iff {args : Args} {text : Name} {req : Request}
    (hreq : requested kconf upper args = .ok req) (hboard : req.board = none) :
    Documented kconf text req (resolve kconf args true (readCurrentConfig (some text)) req) ↔
      HoldsWhen kconf text req := by
  rw [HoldsWhen, hboard]
  dsimp only
  rcases @resolve_chip kconf args text req hboard with
    ⟨hcompatible, hres⟩ | ⟨hcompatible, message, hres⟩
  · have hdocumented : Documented kconf text req
          (resolve kconf args true (readCurrentConfig (some text)) req) ↔
        (if Repeats text req then (lastBoardLine text).bind kconf.syms else none) =
          if Repeats text req ∧ Settled kconf text req then (currentBoard text).bind kconf.syms
          else none := by
      rw [hres, keptBoard_eq hreq, Documented, rule, hboard]
      simp only [hcompatible, unchanged_iff hboard hcompatible, true_and, Target.mk.injEq]
    rw [hdocumented]
    by_cases hrepeats : Repeats text req
    · by_cases hsettled : Settled kconf text req
      · by_cases hlast : lastBoardLine text = some "TLK_BOARD_IS_SELECTED".toList
        · rw [if_pos hrepeats, if_pos ⟨hrepeats, hsettled⟩, bind_syms_eq_iff hlast]
          constructor
          · exact fun hnone _ _ => .inr ⟨hnone.1, fun _ => hnone.2⟩
          · intro h
            rcases h hcompatible hrepeats with hkept | hnone
            · exact absurd hlast hkept.2
            · exact ⟨hnone.1, hnone.2 hsettled⟩
        · rw [if_pos hrepeats, if_pos ⟨hrepeats, hsettled⟩, currentBoard_of_last hlast]
          exact iff_of_true rfl (fun _ _ => .inl ⟨hsettled, hlast⟩)
      · simp [hcompatible, hrepeats, hsettled]
    · simp [hrepeats]
  · rw [hres]
    exact iff_of_true hcompatible (fun h => absurd h hcompatible)

end Outcome

/-- **The script resolves the target as its header says exactly when the board's SoC is found
behind no series, or, without `--board`, when nothing but the request could have changed and the
board's line is the last with its lead.** -/
theorem main_documented_iff (kconf : Kconf) (upper : Upper) (args : Args) (text : Name)
    (req : Request) (hreq : requested kconf upper args = .ok req) :
    Documented kconf text req (main kconf upper args (some text)) ↔ HoldsWhen kconf text req := by
  have hmain : main kconf upper args (some text) =
      resolve kconf args true (readCurrentConfig (some text)) req := by
    rw [main, hreq]
    rfl
  rw [hmain]
  cases hboard : req.board with
  | some board => exact documented_board_iff hboard
  | none => exact documented_chip_iff hreq hboard

/-- The letters a to z only, as the names of a tree have no others. -/
def asciiUpper : Upper where
  apply := List.map Char.toUpper
  no_lower := by
    intro text c hc
    obtain ⟨d, -, rfl⟩ := List.mem_map.mp hc
    simp only [Char.isLower, Char.toUpper]
    split <;> grind [UInt32.toNat_add, Char.toNat_val]

/-- A tree with one board. -/
def evkTree : Kconf where
  syms := fun name =>
    if ["TLK_SOC_SERIES_TL321X".toList, "TLK_SOC_TL3218X".toList, "TLK_BOARD_TL3218X_EVK".toList,
        "TLK_BOARD_IS_SELECTED".toList].contains name then some ⟨name, false⟩
    else none
  name_of_syms := by
    intro name sym h
    split at h
    · cases h
      rfl
    · cases h
  directDep := fun sym =>
    if sym.name = "TLK_BOARD_TL3218X_EVK".toList then
      [.choice, .symbol ⟨"TLK_SOC_TL3218X".toList, false⟩]
    else if sym.name = "TLK_SOC_TL3218X".toList then
      [.choice, .symbol ⟨"TLK_SOC_SERIES_TL321X".toList, false⟩]
    else []
  choice := fun _ => none
  nodes := fun _ => []

/-- The lines that are written when the board is selected, in the order of the tree. -/
def evkLines : List String :=
  ["CONFIG_TLK_SOC_SERIES_TL321X=y", "CONFIG_TLK_SOC_SERIES=\"TL321X\"",
    "CONFIG_TLK_SOC_TL3218X=y", "CONFIG_TLK_BOARD_TL3218X_EVK=y",
    "CONFIG_TLK_BOARD_IS_SELECTED=y"]

def configText (lines : List String) : Name := lines.flatMap (fun line => line.toList ++ ['\n'])

/-- With the lines in the opposite order a run without options keeps everything. -/
theorem main_keeps_board :
    Documented evkTree (configText evkLines.reverse) ⟨none, none, none⟩
      (main evkTree asciiUpper ⟨none, none, none⟩ (some (configText evkLines.reverse))) := by
  refine (main_documented_iff evkTree asciiUpper _ (configText evkLines.reverse) _ (by rfl)).mpr ?_
  have hseries : currentSeries (configText evkLines.reverse) =
      some "TLK_SOC_SERIES_TL321X".toList := by decide +kernel
  have hsoc : currentSoc (configText evkLines.reverse) = some "TLK_SOC_TL3218X".toList := by
    decide +kernel
  intro _ _
  refine .inl ⟨⟨?_, ?_⟩, by decide +kernel⟩
  · rw [hseries]
    rintro name ⟨⟩
    rfl
  · rw [hsoc]
    rintro name ⟨⟩
    rfl

/-- Run again without options on the file as it was written, the script drops the board. -/
theorem main_drops_board :
    ¬ Documented evkTree (configText evkLines) ⟨none, none, none⟩
      (main evkTree asciiUpper ⟨none, none, none⟩ (some (configText evkLines))) := by
  rintro ⟨-, htarget⟩
  exact absurd (congrArg Target.board htarget) (by decide +kernel)

end UniSdk.Scripts.ChipConfig

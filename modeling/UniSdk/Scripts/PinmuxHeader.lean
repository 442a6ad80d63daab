import UniSdk.Library.Defines
import UniSdk.Scripts.PinmuxSave

/-!
# The header of a pin assignment

`write_header` goes through the functions in the order in which the assignment first uses them. A
function that can be repeated gets its pins one by one, in the order in which its set is iterated,
and their number, whose line is not ended.
-/

namespace UniSdk.Scripts.Pinmux

open UniSdk.Library
open UniSdk.Library.Defines

/-- The order in which a set of pins is iterated, for the pins in the order of their insertion. -/
structure SetOrder where
  order : List PortPinName → List PortPinName
  perm : ∀ names, (order names).Perm names

/-! ### Writing -/

/-- `maybe_index`. -/
def maybeIndex : Option Nat → List Char
  | none => []
  | some index => '_' :: Nat.toDigits 10 index

/-- `write_pair`. -/
def writePair (function : FunctionName) (portPin : PortPinName) (index : Option Nat) : List Char :=
  "#define PINMUX_".toList ++ function ++ maybeIndex index ++ "_PORT TLK_GPIO_PORT_".toList ++
    [portPin.port, '\n'] ++
  ("#define PINMUX_".toList ++ function ++ maybeIndex index ++ "_PIN TLK_GPIO_PIN_".toList ++
    [portPin.pin, '\n'])

/-- One round of the loop of `write_header`. A set that was just filled pops what it iterates
first. -/
def writeFunction (sets : SetOrder) (repeatable : Bool) (function : FunctionName)
    (portPins : List PortPinName) : List Char :=
  if repeatable then
    (sets.order portPins).zipIdx.flatMap (fun entry => writePair function entry.1 (some entry.2)) ++
      ("#define PINMUX_".toList ++ function ++ "_COUNT ".toList ++
        Nat.toDigits 10 portPins.length)
  else
    match sets.order portPins with
    | [] => []
    | portPin :: _ => writePair function portPin none

/-- The loop: what is in the file, and whether every function was found in the context. -/
def writeFunctions (sets : SetOrder) (context : PinmuxContext) :
    List (FunctionName × List PortPinName) → List Char × Bool
  | [] => ([], true)
  | (function, portPins) :: rest =>
    match context.functions.get? function with
    | none => ([], false)
    | some data =>
      let (text, finished) := writeFunctions sets context rest
      (writeFunction sets data.repeatable function portPins ++ text, finished)

/-- `PinmuxData.write_header`. -/
def writeHeader (sets : SetOrder) (context : PinmuxContext) (data : PinmuxData) :
    List Char × Bool := writeFunctions sets context (reversed data)

/-! ### The definitions -/

/-- What a macro of the header is about. -/
inductive MacroKind
  | port
  | pin
  | count
  deriving DecidableEq

def MacroKind.text : MacroKind → List Char
  | port => "PORT".toList
  | pin => "PIN".toList
  | count => "COUNT".toList

/-- A macro of the header, by what its name is made of. -/
def macroName (stem : List Char) (kind : MacroKind) : List Char :=
  ['P', 'I', 'N', 'M', 'U', 'X', '_'] ++ stem ++ '_' :: kind.text

def pairDefines (function : FunctionName) (index : Option Nat) (portPin : PortPinName) :
    List Define :=
  [⟨macroName (function ++ maybeIndex index) .port, "TLK_GPIO_PORT_".toList ++ [portPin.port]⟩,
    ⟨macroName (function ++ maybeIndex index) .pin, "TLK_GPIO_PIN_".toList ++ [portPin.pin]⟩]

def countDefine (function : FunctionName) (count : Nat) : Define :=
  ⟨macroName function .count, Nat.toDigits 10 count⟩

/-- What the header says of one function: one pair, or the pairs of its pins under consecutive
indexes and their number. -/
def functionDefines (repeatable : Bool) (function : FunctionName) (portPins : List PortPinName) :
    List Define :=
  if repeatable then
    portPins.zipIdx.flatMap (fun entry => pairDefines function (some entry.2) entry.1) ++
      [countDefine function portPins.length]
  else portPins.flatMap (pairDefines function none)

/-- The header is complete and says of every assigned function what there is to say, for some
numbering of its pins, once and nothing else; no macro is defined twice. -/
def HeaderSays (context : PinmuxContext) (data : PinmuxData) (header : List Char × Bool) : Prop :=
  header.2 = true ∧ ∃ defines, readDefines header.1 = some defines ∧
    (defines.map Define.name).Nodup ∧
    ∃ numbering : FunctionName → List PortPinName,
      (∀ function, (numbering function).Perm (data.holders function)) ∧
      defines.Perm (data.values.eraseDups.flatMap fun function =>
        functionDefines (context.repeatable function) function (numbering function))

/-! ### Each round as lines -/

theorem writePair_eq (function : FunctionName) (portPin : PortPinName) (index : Option Nat) :
    writePair function portPin index = ended (pairDefines function index portPin) := by
  have hlead : "#define PINMUX_".toList = directive ++ ['P', 'I', 'N', 'M', 'U', 'X', '_'] := by
    decide
  have hport : "_PORT TLK_GPIO_PORT_".toList =
      '_' :: MacroKind.port.text ++ ' ' :: "TLK_GPIO_PORT_".toList := by decide
  have hpin : "_PIN TLK_GPIO_PIN_".toList =
      '_' :: MacroKind.pin.text ++ ' ' :: "TLK_GPIO_PIN_".toList := by decide
  unfold writePair pairDefines
  rw [hlead, hport, hpin]
  generalize "TLK_GPIO_PORT_".toList = port, "TLK_GPIO_PIN_".toList = pin
  simp only [ended, Define.line, macroName, List.flatMap_cons, List.flatMap_nil,
    List.append_assoc, List.cons_append, List.nil_append, List.append_nil]

/-- The pairs of a function that can be repeated are lines of their own, and its number is not. -/
theorem writeFunction_repeatable (sets : SetOrder) (function : FunctionName)
    (portPins : List PortPinName) :
    writeFunction sets true function portPins =
      ended ((sets.order portPins).zipIdx.flatMap
        (fun entry => pairDefines function (some entry.2) entry.1)) ++
      (countDefine function portPins.length).line := by
  have hlead : "#define PINMUX_".toList = directive ++ ['P', 'I', 'N', 'M', 'U', 'X', '_'] := by
    decide
  have hcount : "_COUNT ".toList = '_' :: MacroKind.count.text ++ [' '] := by decide
  have hpairs : ∀ entries : List (PortPinName × Nat),
      entries.flatMap (fun entry => writePair function entry.1 (some entry.2)) =
        ended (entries.flatMap fun entry => pairDefines function (some entry.2) entry.1) := by
    intro entries
    simp only [writePair_eq, ended, List.flatMap_assoc]
  rw [writeFunction, if_pos rfl, hpairs, hlead, hcount]
  simp only [countDefine, Define.line, macroName, List.append_assoc, List.cons_append,
    List.nil_append]

theorem order_singleton (sets : SetOrder) (portPin : PortPinName) :
    sets.order [portPin] = [portPin] := List.perm_singleton.mp (sets.perm [portPin])

/-- A function on one pin is two lines. -/
theorem writeFunction_single (sets : SetOrder) (function : FunctionName) (portPin : PortPinName) :
    writeFunction sets false function [portPin] =
      ended (functionDefines false function (sets.order [portPin])) := by
  rw [writeFunction, if_neg Bool.false_ne_true, order_singleton, functionDefines,
    if_neg Bool.false_ne_true]
  dsimp only
  rw [writePair_eq, List.flatMap_cons, List.flatMap_nil, List.append_nil]

/-! ### Words -/

/-- The name of a function and the names of its pins are words. -/
def Words (function : FunctionName) (portPins : List PortPinName) : Prop :=
  (∀ c ∈ function, isIdentChar c = true) ∧
    ∀ portPin ∈ portPins, isIdentChar portPin.port = true ∧ isIdentChar portPin.pin = true

theorem isIdentChar_of_mem_toDigits {n : Nat} {c : Char} (h : c ∈ Nat.toDigits 10 n) :
    isIdentChar c = true := by
  have hdigit := Nat.isDigit_of_mem_toDigits (by decide) (by decide) h
  simp [isIdentChar, Char.isAlphanum, hdigit]

theorem isIdentChar_of_mem_maybeIndex {index : Option Nat} {c : Char} (h : c ∈ maybeIndex index) :
    isIdentChar c = true := by
  cases index with
  | none => exact absurd h List.not_mem_nil
  | some index =>
    rcases List.mem_cons.mp h with rfl | hmem
    · decide
    · exact isIdentChar_of_mem_toDigits hmem

/-- A definition under a name of the header is well formed when its stem and its value are words. -/
theorem wellFormed_macro {stem value : List Char} {kind : MacroKind} :
    (Define.mk (macroName stem kind) value).WellFormed ↔
      (∀ c ∈ stem, isIdentChar c = true) ∧ value ≠ [] ∧ ∀ c ∈ value, isIdentChar c = true := by
  have hlead : ∀ c ∈ ['P', 'I', 'N', 'M', 'U', 'X', '_'], isIdentChar c = true :=
    List.all_eq_true.mp (by decide)
  have hjoin : isIdentChar '_' = true := by decide
  have hkind : kind.text.all isIdentChar = true := by cases kind <;> decide
  constructor
  · intro h
    refine ⟨fun c hc => h.name_chars c ?_, h.value_ne_nil, h.value_chars⟩
    exact List.mem_append_left _ (List.mem_append_right _ hc)
  · intro h
    refine ⟨⟨'P', _, rfl, by decide⟩, fun c hc => ?_, h.2.1, h.2.2⟩
    rcases List.mem_append.mp hc with hc | hc
    · exact (List.mem_append.mp hc).elim (hlead c) (h.1 c)
    · rcases List.mem_cons.mp hc with rfl | hc
      · exact hjoin
      · exact List.all_eq_true.mp hkind c hc

theorem pairDefines_wellFormed {function : FunctionName} {index : Option Nat}
    {portPin : PortPinName} :
    (∀ define ∈ pairDefines function index portPin, define.WellFormed) ↔
      Words function [portPin] := by
  have hstem : (∀ c ∈ function ++ maybeIndex index, isIdentChar c = true) ↔
      ∀ c ∈ function, isIdentChar c = true :=
    ⟨fun h c hc => h c (List.mem_append_left _ hc), fun h c hc =>
      (List.mem_append.mp hc).elim (h c) isIdentChar_of_mem_maybeIndex⟩
  have hport : "TLK_GPIO_PORT_".toList.all isIdentChar = true := by decide
  have hpin : "TLK_GPIO_PIN_".toList.all isIdentChar = true := by decide
  have hvalue : ∀ (lead : List Char) (c : Char), lead.all isIdentChar = true →
      ((∀ d ∈ lead ++ [c], isIdentChar d = true) ↔ isIdentChar c = true) := by
    intro lead c hlead
    simp only [List.mem_append, List.mem_singleton, or_imp, forall_and, forall_eq]
    exact and_iff_right (List.all_eq_true.mp hlead)
  rw [pairDefines, List.forall_mem_cons, List.forall_mem_singleton,
    wellFormed_macro, wellFormed_macro, hstem, hvalue _ _ hport,
    hvalue _ _ hpin, Words, List.forall_mem_singleton]
  simp only [ne_eq, List.append_eq_nil_iff, List.cons_ne_self, and_false, not_false_eq_true,
    true_and]
  tauto

theorem words_iff {function : FunctionName} {portPins : List PortPinName} (hne : portPins ≠ []) :
    (∀ portPin ∈ portPins, Words function [portPin]) ↔ Words function portPins := by
  obtain ⟨first, rest, rfl⟩ := List.exists_cons_of_ne_nil hne
  constructor
  · intro h
    refine ⟨(h first List.mem_cons_self).1, fun portPin hmem => ?_⟩
    exact (h portPin hmem).2 portPin (List.mem_singleton_self portPin)
  · intro h portPin hmem
    refine ⟨h.1, fun other hother => ?_⟩
    exact List.mem_singleton.mp hother ▸ h.2 portPin hmem

theorem forall_mem_zipIdx {P : PortPinName → Prop} (portPins : List PortPinName) :
    (∀ entry ∈ portPins.zipIdx, P entry.1) ↔ ∀ portPin ∈ portPins, P portPin := by
  conv_rhs => rw [← List.zipIdx_map_fst 0 portPins]
  exact List.forall_mem_map.symm

/-- The definitions of a function are well formed exactly when its names are words. -/
theorem functionDefines_wellFormed (repeatable : Bool) {function : FunctionName}
    {portPins : List PortPinName} (hne : portPins ≠ []) :
    (∀ define ∈ functionDefines repeatable function portPins, define.WellFormed) ↔
      Words function portPins := by
  rw [← words_iff hne]
  cases repeatable with
  | false =>
    rw [functionDefines, if_neg Bool.false_ne_true, List.forall_mem_flatMap]
    exact forall₂_congr fun portPin _ => pairDefines_wellFormed
  | true =>
    have hcount : (countDefine function portPins.length).WellFormed ↔
        ∀ c ∈ function, isIdentChar c = true := by
      rw [countDefine, wellFormed_macro]
      exact and_iff_left ⟨Nat.toDigits_ne_nil, fun c hc => isIdentChar_of_mem_toDigits hc⟩
    have hpairs : (∀ entry ∈ portPins.zipIdx, ∀ define ∈
        pairDefines function (some entry.2) entry.1, define.WellFormed) ↔
          ∀ portPin ∈ portPins, Words function [portPin] := by
      rw [← forall_mem_zipIdx (P := fun portPin => Words function [portPin])]
      exact forall₂_congr fun entry _ => pairDefines_wellFormed
    rw [functionDefines, if_pos rfl, List.forall_mem_append, List.forall_mem_flatMap,
      List.forall_mem_singleton, hcount, hpairs]
    refine and_iff_left_of_imp fun h => ?_
    obtain ⟨first, rest, rfl⟩ := List.exists_cons_of_ne_nil hne
    exact (h first List.mem_cons_self).1

theorem ordered_wellFormed (sets : SetOrder) (repeatable : Bool) {function : FunctionName}
    {portPins : List PortPinName} (hword : Words function portPins) (hne : portPins ≠ []) :
    ∀ define ∈ functionDefines repeatable function (sets.order portPins), define.WellFormed := by
  have horder : sets.order portPins ≠ [] := fun h => hne (h ▸ (sets.perm portPins).symm).eq_nil
  refine (functionDefines_wellFormed _ horder).mpr ⟨hword.1, fun portPin hmem => ?_⟩
  exact hword.2 portPin ((sets.perm portPins).mem_iff.mp hmem)

/-! ### What is read back -/

theorem writeFunctions_cons {sets : SetOrder} {context : PinmuxContext} {function : FunctionName}
    (hknown : context.Known function) (portPins : List PortPinName)
    (rest : List (FunctionName × List PortPinName)) :
    writeFunctions sets context ((function, portPins) :: rest) =
      (writeFunction sets (context.repeatable function) function portPins ++
        (writeFunctions sets context rest).1, (writeFunctions sets context rest).2) := by
  obtain ⟨data, hdata⟩ := Option.isSome_iff_exists.mp hknown
  rw [writeFunctions, PinmuxContext.repeatable, hdata]

/-- A function on at least one pin starts with a line of its own. -/
theorem writeFunctions_head (sets : SetOrder) {context : PinmuxContext} {function : FunctionName}
    (hknown : context.Known function) {portPins : List PortPinName}
    (hone : context.repeatable function = false → ∃ portPin, portPins = [portPin])
    (rest : List (FunctionName × List PortPinName)) :
    ∃ text, (writeFunctions sets context ((function, portPins) :: rest)).1 = '#' :: text := by
  rw [writeFunctions_cons hknown]
  cases hkind : context.repeatable function with
  | false =>
    obtain ⟨portPin, rfl⟩ := hone hkind
    rw [writeFunction_single, order_singleton]
    exact ⟨_, rfl⟩
  | true =>
    rw [writeFunction_repeatable]
    cases (sets.order portPins).zipIdx with
    | nil => exact ⟨_, rfl⟩
    | cons entry entries => exact ⟨_, rfl⟩

/-- A first element that meets the condition does not matter to all elements but the last. -/
theorem forall_mem_dropLast_cons {α : Type*} {P : α → Prop} {x : α} (hx : P x) (rest : List α) :
    (∀ y ∈ (x :: rest).dropLast, P y) ↔ ∀ y ∈ rest.dropLast, P y := by
  cases rest with
  | nil => simp
  | cons next rest =>
    rw [List.dropLast_cons_cons, List.forall_mem_cons]
    exact and_iff_right hx

/-- **The loop, read back.** Every line is ended but that of a number, so the header can be read
when only the last function has one. -/
theorem readDefines_writeFunctions (sets : SetOrder) (context : PinmuxContext)
    (entries : List (FunctionName × List PortPinName))
    (hknown : ∀ entry ∈ entries, context.Known entry.1)
    (hwords : ∀ entry ∈ entries, Words entry.1 entry.2 ∧ entry.2 ≠ [])
    (hsingle : ∀ entry ∈ entries, context.repeatable entry.1 = false →
      ∃ portPin, entry.2 = [portPin]) :
    (writeFunctions sets context entries).2 = true ∧
      readDefines (writeFunctions sets context entries).1 =
        if ∀ entry ∈ entries.dropLast, context.repeatable entry.1 = false then
          some (entries.flatMap fun entry =>
            functionDefines (context.repeatable entry.1) entry.1 (sets.order entry.2))
        else none := by
  induction entries with
  | nil => exact ⟨rfl, by simp [writeFunctions, readDefines_nil]⟩
  | cons entry rest ih =>
    obtain ⟨hfinished, hread⟩ := ih (fun other hmem => hknown other (List.mem_cons_of_mem _ hmem))
      (fun other hmem => hwords other (List.mem_cons_of_mem _ hmem))
      (fun other hmem => hsingle other (List.mem_cons_of_mem _ hmem))
    obtain ⟨function, portPins⟩ := entry
    obtain ⟨hword, hne⟩ := hwords _ List.mem_cons_self
    have hone := hsingle _ List.mem_cons_self
    have hdefines := ordered_wellFormed sets (context.repeatable function) hword hne
    rw [writeFunctions_cons (hknown _ List.mem_cons_self), List.flatMap_cons]
    refine ⟨hfinished, ?_⟩
    dsimp only at hone ⊢
    cases hkind : context.repeatable function with
    | false =>
      obtain ⟨portPin, rfl⟩ := hone hkind
      have hlast := forall_mem_dropLast_cons (P := fun entry : FunctionName × List PortPinName =>
        context.repeatable entry.1 = false) (x := (function, [portPin])) hkind rest
      rw [hkind] at hdefines
      rw [writeFunction_single, readDefines_ended_append hdefines, hread]
      simp only [hlast]
      split <;> rfl
    | true =>
      rw [hkind, functionDefines, if_pos rfl, List.forall_mem_append, List.forall_mem_singleton,
        (sets.perm portPins).length_eq] at hdefines
      obtain ⟨hpairs, hcount⟩ := hdefines
      rw [writeFunction_repeatable, List.append_assoc, readDefines_ended_append hpairs]
      cases rest with
      | nil =>
        have hend : (writeFunctions sets context []).1 = [] := rfl
        rw [hend, List.append_nil, readDefines_line hcount, if_pos (by simp), functionDefines,
          if_pos rfl, (sets.perm portPins).length_eq, List.flatMap_nil, List.append_nil]
        rfl
      | cons next rest =>
        -- the number runs into the first line of the next function
        have hmem : next ∈ (function, portPins) :: next :: rest :=
          List.mem_cons_of_mem _ List.mem_cons_self
        obtain ⟨text, htext⟩ := writeFunctions_head sets (hknown next hmem)
          (hsingle next hmem) rest
        have hbreak : isIdentChar '#' = false := by decide
        rw [htext, readDefines_line_append hcount hbreak (by decide), if_neg]
        · rfl
        · intro hall
          rw [List.dropLast_cons_cons] at hall
          have hfirst := hall _ List.mem_cons_self
          rw [hkind] at hfirst
          cases hfirst

/-! ### The names of the macros -/

/-- The names that one function defines, by what they are made of. -/
def functionLabels (repeatable : Bool) (function : FunctionName) (count : Nat) :
    List (List Char × MacroKind) :=
  if repeatable then
    (List.range' 0 count).flatMap (fun index => [(function ++ maybeIndex (some index), .port),
      (function ++ maybeIndex (some index), .pin)]) ++ [(function, .count)]
  else [(function, .port), (function, .pin)]

theorem macroName_inj {stem stem' : List Char} {kind kind' : MacroKind} :
    macroName stem kind = macroName stem' kind' ↔ stem = stem' ∧ kind = kind' := by
  have hkind : ∀ kind : MacroKind, '_' ∉ kind.text := by
    intro kind
    cases kind <;> decide
  have htext : ∀ kind kind' : MacroKind, kind.text = kind'.text → kind = kind' := by
    intro kind kind'
    cases kind <;> cases kind' <;> decide
  constructor
  · intro h
    obtain ⟨hstem, hsame⟩ := joined_inj (hkind kind) (hkind kind') h
    exact ⟨List.append_cancel_left hstem, htext kind kind' hsame⟩
  · intro h
    rw [h.1, h.2]

theorem indexed_inj {function function' : FunctionName} {index index' : Nat}
    (h : function ++ maybeIndex (some index) = function' ++ maybeIndex (some index')) :
    function = function' ∧ index = index' := by
  obtain ⟨hfunction, hdigits⟩ :=
    joined_inj Nat.underscore_not_in_toDigits Nat.underscore_not_in_toDigits h
  refine ⟨hfunction, ?_⟩
  rw [← Nat.ofDigitChars_ten_toDigits (n := index), hdigits, Nat.ofDigitChars_ten_toDigits]

theorem functionDefines_names {repeatable : Bool} {function : FunctionName}
    {portPins : List PortPinName} (hone : repeatable = false → ∃ portPin, portPins = [portPin]) :
    (functionDefines repeatable function portPins).map Define.name =
      (functionLabels repeatable function portPins.length).map fun label =>
        macroName label.1 label.2 := by
  cases repeatable with
  | false =>
    obtain ⟨portPin, rfl⟩ := hone rfl
    simp [functionDefines, functionLabels, pairDefines, maybeIndex]
  | true =>
    have hindexes : List.range' 0 portPins.length = portPins.zipIdx.map Prod.snd := by
      rw [List.zipIdx_map_snd]
    simp only [functionDefines, functionLabels, pairDefines, countDefine, if_true, hindexes,
      List.map_append, List.map_flatMap, List.flatMap_map, List.map_cons, List.map_nil]

theorem mem_functionLabels {repeatable : Bool} {function : FunctionName} {count : Nat}
    {stem : List Char} {kind : MacroKind} :
    (stem, kind) ∈ functionLabels repeatable function count ↔
      if repeatable then
        kind ≠ .count ∧ (∃ index < count, stem = function ++ maybeIndex (some index)) ∨
          kind = .count ∧ stem = function
      else kind ≠ .count ∧ stem = function := by
  cases repeatable with
  | false => cases kind <;> simp [functionLabels]
  | true => cases kind <;> simp [functionLabels]

theorem nodup_functionLabels (repeatable : Bool) (function : FunctionName) (count : Nat) :
    (functionLabels repeatable function count).Nodup := by
  cases repeatable with
  | false => simp [functionLabels]
  | true =>
    rw [functionLabels, if_pos rfl, List.nodup_append]
    refine ⟨List.nodup_flatMap.mpr ⟨fun index _ => by simp, ?_⟩, List.nodup_singleton _, ?_⟩
    · refine List.Nodup.pairwise_of_forall_ne List.nodup_range' fun i _ j _ hne => ?_
      intro label hi hj
      simp only [List.mem_cons, List.not_mem_nil, or_false] at hi hj
      have hstem : function ++ maybeIndex (some i) = function ++ maybeIndex (some j) := by
        rcases hi with rfl | rfl <;> rcases hj with hj | hj <;> exact (Prod.mk.inj hj).1
      exact hne (indexed_inj hstem).2
    · intro label hpair other hcount
      rw [List.mem_singleton] at hcount
      obtain ⟨index, -, hmem⟩ := List.mem_flatMap.mp hpair
      simp only [List.mem_cons, List.not_mem_nil, or_false] at hmem
      rcases hmem with rfl | rfl <;> simp [hcount]

/-- The name of a single function is that of another one with one of its indexes. -/
def Collides (function function' : FunctionName) (count : Nat) : Prop :=
  ∃ index < count, function = function' ++ maybeIndex (some index)

theorem disjoint_single_repeatable {function function' : FunctionName} {count count' : Nat} :
    List.Disjoint (functionLabels false function count) (functionLabels true function' count') ↔
      ¬ Collides function function' count' := by
  constructor
  · intro hdisjoint hcollides
    refine hdisjoint (a := (function, .port)) ?_ ?_
    · exact mem_functionLabels.mpr ⟨MacroKind.noConfusion, rfl⟩
    · exact mem_functionLabels.mpr (Or.inl ⟨MacroKind.noConfusion, hcollides⟩)
  · intro hnot label hl hr
    obtain ⟨stem, kind⟩ := label
    obtain ⟨hkind, rfl⟩ := mem_functionLabels.mp hl
    rcases mem_functionLabels.mp hr with ⟨-, hindexed⟩ | ⟨hcount, -⟩
    · exact hnot hindexed
    · exact hkind hcount

/-- Two functions define no macro in common, but for a single one whose name ends like an index of
the other. -/
theorem disjoint_functionLabels {repeatable repeatable' : Bool} {function function' : FunctionName}
    {count count' : Nat} (hne : function ≠ function') :
    List.Disjoint (functionLabels repeatable function count)
        (functionLabels repeatable' function' count') ↔
      ¬ (repeatable = false ∧ repeatable' = true ∧ Collides function function' count') ∧
        ¬ (repeatable = true ∧ repeatable' = false ∧ Collides function' function count) := by
  match repeatable, repeatable' with
  | false, true => simp [disjoint_single_repeatable]
  | true, false => simp [List.disjoint_comm, disjoint_single_repeatable]
  | false, false =>
    refine iff_of_true (fun label hl hr => ?_) (by simp)
    obtain ⟨stem, kind⟩ := label
    exact hne ((mem_functionLabels.mp hl).2.symm.trans (mem_functionLabels.mp hr).2)
  | true, true =>
    refine iff_of_true (fun label hl hr => ?_) (by simp)
    obtain ⟨stem, kind⟩ := label
    rcases mem_functionLabels.mp hl with ⟨hkind, i, -, rfl⟩ | ⟨hcount, rfl⟩
    · rcases mem_functionLabels.mp hr with ⟨-, j, -, hstem⟩ | ⟨hcount, -⟩
      · exact hne (indexed_inj hstem).1
      · exact hkind hcount
    · rcases mem_functionLabels.mp hr with ⟨hkind, -⟩ | ⟨-, rfl⟩
      · exact hkind hcount
      · exact hne rfl

/-- **No macro is defined twice** exactly when no two functions collide. -/
theorem nodup_names {context : PinmuxContext} {functions : List FunctionName}
    (hnodup : functions.Nodup) {numbering : FunctionName → List PortPinName}
    (hone : ∀ function ∈ functions, context.repeatable function = false →
      ∃ portPin, numbering function = [portPin]) :
    ((functions.flatMap fun function =>
        functionDefines (context.repeatable function) function (numbering function)).map
          Define.name).Nodup ↔
      ∀ function ∈ functions, ∀ function' ∈ functions, context.repeatable function = false →
        context.repeatable function' = true →
        ¬ Collides function function' (numbering function').length := by
  have hnames : (functions.flatMap fun function =>
      functionDefines (context.repeatable function) function (numbering function)).map Define.name =
        (functions.flatMap fun function => functionLabels (context.repeatable function) function
          (numbering function).length).map fun label => macroName label.1 label.2 := by
    rw [List.map_flatMap, List.map_flatMap]
    exact List.flatMap_congr fun function hmem => functionDefines_names (hone function hmem)
  have hinj : Function.Injective fun label : List Char × MacroKind => macroName label.1 label.2 :=
    fun label label' h => Prod.ext (macroName_inj.mp h).1 (macroName_inj.mp h).2
  rw [hnames, List.nodup_map_iff hinj, List.nodup_flatMap]
  constructor
  · intro h function hf function' hf' hrep hrep' hcollides
    have hne : function ≠ function' := fun heq => by
      rw [heq, hrep'] at hrep
      cases hrep
    have hsymm : Std.Symm (Function.onFun List.Disjoint fun function => functionLabels
        (context.repeatable function) function (numbering function).length) :=
      ⟨fun _ _ hl => List.disjoint_comm.mp hl⟩
    have hdisjoint := h.2.forall hf hf' hne
    exact ((disjoint_functionLabels hne).mp hdisjoint).1 ⟨hrep, hrep', hcollides⟩
  · intro h
    refine ⟨fun function _ => nodup_functionLabels _ _ _, ?_⟩
    refine List.Nodup.pairwise_of_forall_ne hnodup fun function hf function' hf' hne => ?_
    exact (disjoint_functionLabels hne).mpr
      ⟨fun hcollides => h function hf function' hf' hcollides.1 hcollides.2.1 hcollides.2.2,
        fun hcollides => h function' hf' function hf hcollides.2.1 hcollides.1 hcollides.2.2⟩

/-! ### The header -/

/-- When the header is what it should be: the assigned names are words, only the function that comes
last can be repeated, and no single function is named like one of its indexes. -/
structure HeaderFits (context : PinmuxContext) (data : PinmuxData) : Prop where
  words : ∀ name function, data.get? name = some function → Words function [name]
  last : ∀ function ∈ data.values.eraseDups.dropLast, context.repeatable function = false
  apart : ∀ function ∈ data.values, ∀ function' ∈ data.values,
    context.repeatable function = false → context.repeatable function' = true →
      ¬ Collides function function' (data.holders function').length

theorem nodup_eraseDups (functions : List FunctionName) : functions.eraseDups.Nodup := by
  induction hlength : functions.length using Nat.strong_induction_on generalizing functions with
  | _ n ih =>
    cases functions with
    | nil => exact List.nodup_nil
    | cons function functions =>
      rw [List.eraseDups_cons, List.nodup_cons]
      refine ⟨fun hmem => ?_, ih _ ?_ _ rfl⟩
      · simp [List.mem_eraseDups] at hmem
      · rw [← hlength, List.length_cons, Nat.lt_succ_iff]
        exact List.length_filter_le _ _

theorem Exclusive.holders_single {context : PinmuxContext} {data : PinmuxData}
    (hex : Exclusive context data) {function : FunctionName} (hmem : function ∈ data.values)
    (hrep : context.repeatable function = false) : ∃ name, data.holders function = [name] := by
  obtain ⟨name, hname⟩ := Dict.mem_values.mp hmem
  refine ⟨name, Dict.holders_eq_singleton.mpr fun other => ⟨fun hother => ?_, fun heq => ?_⟩⟩
  · exact hex function hrep other name hother hname
  · rw [heq, hname]

/-- What is read back of the header of an assignment whose names are words. -/
theorem readDefines_writeHeader (sets : SetOrder) {context : PinmuxContext} {data : PinmuxData}
    (hknown : ∀ name function, data.get? name = some function → context.Known function)
    (hex : Exclusive context data)
    (hwords : ∀ name function, data.get? name = some function → Words function [name]) :
    (writeHeader sets context data).2 = true ∧
      readDefines (writeHeader sets context data).1 =
        if ∀ function ∈ data.values.eraseDups.dropLast, context.repeatable function = false then
          some (data.values.eraseDups.flatMap fun function =>
            functionDefines (context.repeatable function) function
              (sets.order (data.holders function)))
        else none := by
  have hentries : ∀ entry ∈ reversed data, entry.1 ∈ data.values ∧ entry.2 = data.holders entry.1 :=
    fun entry hmem => mem_reversed.mp hmem
  have hloop := readDefines_writeFunctions sets context (reversed data)
    (fun entry hmem => ?_) (fun entry hmem => ?_) (fun entry hmem hrep => ?_)
  · refine ⟨hloop.1, hloop.2.trans ?_⟩
    simp only [reversed, ← List.map_dropLast, List.forall_mem_map, List.flatMap_map]
  · obtain ⟨name, hname⟩ := Dict.mem_values.mp (hentries entry hmem).1
    exact hknown name entry.1 hname
  · obtain ⟨hvalue, hholders⟩ := hentries entry hmem
    obtain ⟨name, hname⟩ := Dict.mem_values.mp hvalue
    have hne : entry.2 ≠ [] := hholders ▸ List.ne_nil_of_mem (Dict.mem_holders.mpr hname)
    refine ⟨(words_iff hne).mp fun portPin hpin => ?_, hne⟩
    exact hwords portPin entry.1 (Dict.mem_holders.mp (hholders ▸ hpin))
  · obtain ⟨hvalue, hholders⟩ := hentries entry hmem
    rw [hholders]
    exact hex.holders_single hvalue hrep

section Numbering

variable {context : PinmuxContext} {data : PinmuxData} {numbering : FunctionName → List PortPinName}

theorem numbering_single (hex : Exclusive context data)
    (hnumbering : ∀ function, (numbering function).Perm (data.holders function)) :
    ∀ function ∈ data.values.eraseDups, context.repeatable function = false →
      ∃ portPin, numbering function = [portPin] := by
  intro function hmem hrep
  obtain ⟨name, hname⟩ := hex.holders_single (List.mem_eraseDups.mp hmem) hrep
  exact ⟨name, List.perm_singleton.mp (hname ▸ hnumbering function)⟩

/-- No macro is defined twice, in terms of the assignment. -/
theorem nodup_names_iff (hex : Exclusive context data)
    (hnumbering : ∀ function, (numbering function).Perm (data.holders function)) :
    ((data.values.eraseDups.flatMap fun function =>
        functionDefines (context.repeatable function) function (numbering function)).map
          Define.name).Nodup ↔
      ∀ function ∈ data.values, ∀ function' ∈ data.values,
        context.repeatable function = false → context.repeatable function' = true →
          ¬ Collides function function' (data.holders function').length := by
  rw [nodup_names (nodup_eraseDups _) (numbering_single hex hnumbering)]
  simp only [List.mem_eraseDups, (hnumbering _).length_eq]

/-- What can be read has words for names. -/
theorem words_of_read {text : List Char} {defines : List Define}
    (hread : readDefines text = some defines)
    (hnumbering : ∀ function, (numbering function).Perm (data.holders function))
    (hdefines : defines.Perm (data.values.eraseDups.flatMap fun function =>
      functionDefines (context.repeatable function) function (numbering function))) :
    ∀ name function, data.get? name = some function → Words function [name] := by
  intro name function hget
  have hholder : name ∈ numbering function :=
    (hnumbering function).mem_iff.mpr (Dict.mem_holders.mpr hget)
  have hne : numbering function ≠ [] := List.ne_nil_of_mem hholder
  refine (words_iff hne).mpr ?_ name hholder
  refine (functionDefines_wellFormed (context.repeatable function) hne).mp fun define hmem => ?_
  refine readDefines_wellFormed hread define (hdefines.mem_iff.mpr ?_)
  exact List.mem_flatMap.mpr
    ⟨function, List.mem_eraseDups.mpr (Dict.mem_values.mpr ⟨name, hget⟩), hmem⟩

end Numbering

/-- **Exactly when the header says what the assignment says.** -/
theorem writeHeader_says_iff (sets : SetOrder) (context : PinmuxContext) (data : PinmuxData)
    (hvalid : validate context data = .ok ()) :
    HeaderSays context data (writeHeader sets context data) ↔ HeaderFits context data := by
  obtain ⟨hknown, hex⟩ := validate_ok hvalid
  constructor
  · intro h
    obtain ⟨-, defines, hread, hnames, numbering, hnumbering, hdefines⟩ := h
    have hwords := words_of_read hread hnumbering hdefines
    refine ⟨hwords, ?_, (nodup_names_iff hex hnumbering).mp ?_⟩
    · by_contra hlast
      rw [(readDefines_writeHeader sets hknown hex hwords).2, if_neg hlast] at hread
      cases hread
    · exact (hdefines.map Define.name).nodup_iff.mp hnames
  · intro h
    obtain ⟨hfinished, hread⟩ := readDefines_writeHeader sets hknown hex h.words
    rw [if_pos h.last] at hread
    have hnumbering := fun function => sets.perm (data.holders function)
    exact ⟨hfinished, _, hread, (nodup_names_iff hex hnumbering).mpr h.apart, _, hnumbering,
      List.Perm.refl _⟩

/-- Sets that are iterated as they were filled. -/
def insertionOrder : SetOrder := ⟨fun names => names, fun names => List.Perm.refl names⟩

/-- One function that is on one pin. -/
theorem writeHeader_says_console :
    HeaderSays consoleContext consoleMoved (writeHeader insertionOrder consoleContext consoleMoved) :=
    by
  refine (writeHeader_says_iff insertionOrder consoleContext consoleMoved (by rfl)).mpr ⟨?_, ?_, ?_⟩
  · intro name function hget
    have hall : ∀ entry ∈ consoleMoved.entries, entry.2.all isIdentChar = true ∧
      isIdentChar entry.1.port = true ∧ isIdentChar entry.1.pin = true := by decide
    have hentry := hall (name, function) (Dict.mem_entries.mpr hget)
    exact ⟨List.all_eq_true.mp hentry.1, fun portPin hmem => List.mem_singleton.mp hmem ▸ hentry.2⟩
  · exact fun function hmem => absurd hmem List.not_mem_nil
  · intro function hf function' hf' hrep hrep'
    have hsame : ∀ other ∈ consoleMoved.values, other = "UART_TX".toList := by decide
    rw [hsame function hf] at hrep
    rw [hsame function' hf', hrep] at hrep'
    cases hrep'

/-- A function with two pins, and one that comes after it: the first line of the second one is on
the line of the number of the first one. -/
theorem writeHeader_says_sensor :
    validate sensorContext sensorPinmux = .ok () ∧
      readDefines (writeHeader insertionOrder sensorContext sensorPinmux).1 = none ∧
      ¬ HeaderSays sensorContext sensorPinmux
        (writeHeader insertionOrder sensorContext sensorPinmux) := by
  have hread : readDefines (writeHeader insertionOrder sensorContext sensorPinmux).1 = none := by
    decide
  refine ⟨by rfl, hread, fun h => ?_⟩
  obtain ⟨-, defines, hdefines, -⟩ := h
  rw [hread] at hdefines
  cases hdefines

end UniSdk.Scripts.Pinmux

import UniSdk.Scripts.PinmuxHeader

/-!
# The header and the order of a set

The pins of a function are numbered as their set is iterated, and that order is not the same in
every process. The header is the same in all of them exactly when no function has two pins that
differ.
-/

namespace UniSdk.Scripts.Pinmux

open UniSdk.Library

/-- The functions that `write_header` reaches: it raises at one that is not in the context. -/
def writtenFunctions (context : PinmuxContext) (data : PinmuxData) : List FunctionName :=
  data.values.eraseDups.takeWhile fun function => context.Known function

/-- An order that starts with one pin wherever it is. -/
def SetOrder.first (name : PortPinName) : SetOrder where
  order names := if name ∈ names then name :: names.erase name else names
  perm names := by
    split
    · next h => exact (List.perm_cons_erase h).symm
    · exact List.Perm.refl names

theorem writeHeader_eq (sets : SetOrder) (context : PinmuxContext) (data : PinmuxData) :
    writeHeader sets context data = writeFunctions sets context
      (data.values.eraseDups.map fun function => (function, data.holders function)) := rfl

/-! ### One function -/

/-- Pins that agree give a text that does not tell their order. -/
theorem writeFunction_agreeing (sets : SetOrder) {repeatable : Bool} {function : FunctionName}
    {first : PortPinName} {rest : List PortPinName}
    (h : ∀ portPin ∈ first :: rest, ∀ index,
      writePair function portPin index = writePair function first index) :
    writeFunction sets repeatable function (first :: rest) =
      if repeatable then
        (List.range' 0 (first :: rest).length).flatMap
            (fun index => writePair function first (some index)) ++
          ("#define PINMUX_".toList ++ function ++ "_COUNT ".toList ++
            Nat.toDigits 10 (first :: rest).length)
      else writePair function first none := by
  have hperm := sets.perm (first :: rest)
  have hpair : ∀ portPin ∈ sets.order (first :: rest), ∀ index,
      writePair function portPin index = writePair function first index :=
    fun portPin hmem => h portPin (hperm.mem_iff.mp hmem)
  unfold writeFunction
  cases repeatable with
  | true =>
    rw [if_pos rfl, if_pos rfl, ← hperm.length_eq, ← List.zipIdx_map_snd, List.flatMap_map]
    congr 1
    refine List.flatMap_congr fun entry hentry => ?_
    exact hpair _ (List.fst_mem_of_mem_zipIdx hentry) _
  | false =>
    rw [if_neg Bool.false_ne_true, if_neg Bool.false_ne_true]
    cases horder : sets.order (first :: rest) with
    | nil => exact absurd (horder ▸ hperm.symm).eq_nil (List.cons_ne_nil _ _)
    | cons portPin others => exact hpair portPin (horder ▸ List.mem_cons_self) none

theorem writeFunction_agree {sets sets' : SetOrder} {repeatable : Bool} {function : FunctionName}
    {portPins : List PortPinName}
    (h : ∀ left ∈ portPins, ∀ right ∈ portPins, left.port = right.port ∧ left.pin = right.pin) :
    writeFunction sets repeatable function portPins =
      writeFunction sets' repeatable function portPins := by
  cases portPins with
  | nil =>
    have hnil : ∀ sets : SetOrder, sets.order [] = [] := fun sets => (sets.perm []).eq_nil
    unfold writeFunction
    rw [hnil, hnil]
  | cons first rest =>
    have hpair : ∀ portPin ∈ first :: rest, ∀ index,
        writePair function portPin index = writePair function first index := by
      intro portPin hmem index
      obtain ⟨hport, hpin⟩ := h portPin hmem first List.mem_cons_self
      unfold writePair
      rw [hport, hpin]
    rw [writeFunction_agreeing sets hpair, writeFunction_agreeing sets' hpair]

/-- The text of a pair tells the pin. -/
theorem writePair_append_inj {function : FunctionName} {left right : PortPinName}
    {index : Option Nat} {back back' : List Char}
    (h : writePair function left index ++ back = writePair function right index ++ back') :
    left.port = right.port ∧ left.pin = right.pin := by
  unfold writePair at h
  generalize "#define PINMUX_".toList ++ function ++ maybeIndex index = lead at h
  generalize "_PORT TLK_GPIO_PORT_".toList = port, "_PIN TLK_GPIO_PIN_".toList = pin at h
  simp only [List.append_assoc, List.cons_append, List.nil_append] at h
  obtain ⟨hport, hrest⟩ := List.cons.inj (List.append_cancel_left (List.append_cancel_left h))
  have hrest := List.append_cancel_left (List.append_cancel_left (List.cons.inj hrest).2)
  exact ⟨hport, (List.cons.inj hrest).1⟩

/-- Where the two pins are in the set, the texts start with them. -/
theorem writeFunction_first_inj {repeatable : Bool} {function : FunctionName}
    {portPins : List PortPinName} {left right : PortPinName} (hl : left ∈ portPins)
    (hr : right ∈ portPins) {back back' : List Char}
    (h : writeFunction (SetOrder.first left) repeatable function portPins ++ back =
      writeFunction (SetOrder.first right) repeatable function portPins ++ back') :
    left.port = right.port ∧ left.pin = right.pin := by
  have hstart : ∀ name ∈ portPins,
      (SetOrder.first name).order portPins = name :: portPins.erase name := fun name hname =>
    if_pos hname
  unfold writeFunction at h
  rw [hstart left hl, hstart right hr] at h
  cases repeatable with
  | true =>
    rw [if_pos rfl, if_pos rfl, List.zipIdx_cons, List.zipIdx_cons, List.flatMap_cons,
      List.flatMap_cons] at h
    simp only [List.append_assoc] at h
    exact writePair_append_inj h
  | false =>
    rw [if_neg Bool.false_ne_true, if_neg Bool.false_ne_true] at h
    exact writePair_append_inj h

/-- Elsewhere the set is iterated as it was filled. -/
theorem writeFunction_first_of_not_mem {repeatable : Bool} {function : FunctionName}
    {portPins : List PortPinName} {name : PortPinName} (h : name ∉ portPins) :
    writeFunction (SetOrder.first name) repeatable function portPins =
      writeFunction insertionOrder repeatable function portPins := by
  have horder : (SetOrder.first name).order portPins = portPins := if_neg h
  unfold writeFunction
  rw [horder]
  rfl

/-! ### The loop -/

section Loop

variable {context : PinmuxContext} {data : PinmuxData}

theorem writeFunctions_unknown {sets : SetOrder} {function : FunctionName}
    (hunknown : ¬ context.Known function) (portPins : List PortPinName)
    (rest : List (FunctionName × List PortPinName)) :
    writeFunctions sets context ((function, portPins) :: rest) = ([], false) := by
  unfold PinmuxContext.Known at hunknown
  rw [writeFunctions]
  cases hget : context.functions.get? function with
  | none => rfl
  | some data => simp [hget] at hunknown

theorem writeFunctions_agree {sets sets' : SetOrder} {functions : List FunctionName}
    (h : ∀ function ∈ functions.takeWhile fun function => context.Known function,
      ∀ left ∈ data.holders function, ∀ right ∈ data.holders function,
        left.port = right.port ∧ left.pin = right.pin) :
    writeFunctions sets context (functions.map fun function => (function, data.holders function)) =
      writeFunctions sets' context
        (functions.map fun function => (function, data.holders function)) := by
  induction functions with
  | nil => rfl
  | cons function functions ih =>
    rw [List.map_cons]
    by_cases hknown : context.Known function
    · rw [List.takeWhile_cons_of_pos (by simpa using hknown), List.forall_mem_cons] at h
      rw [writeFunctions_cons hknown, writeFunctions_cons hknown, ih h.2,
        writeFunction_agree h.1]
    · rw [writeFunctions_unknown hknown, writeFunctions_unknown hknown]

/-- Texts of orders that start with two pins of a function differ unless the pins agree: they are
the same up to the first line of that function. -/
theorem writeFunctions_first {functions : List FunctionName} {function : FunctionName}
    {left right : PortPinName}
    (hmem : function ∈ functions.takeWhile fun function => context.Known function)
    (hl : data.get? left = some function) (hr : data.get? right = some function)
    (hsame : (writeFunctions (SetOrder.first left) context
        (functions.map fun function => (function, data.holders function))).1 =
      (writeFunctions (SetOrder.first right) context
        (functions.map fun function => (function, data.holders function))).1) :
    left.port = right.port ∧ left.pin = right.pin := by
  induction functions with
  | nil => exact absurd hmem List.not_mem_nil
  | cons other functions ih =>
    have hknown : context.Known other := by
      by_contra hunknown
      rw [List.takeWhile_cons_of_neg (by simpa using hunknown)] at hmem
      exact absurd hmem List.not_mem_nil
    rw [List.takeWhile_cons_of_pos (by simpa using hknown)] at hmem
    rw [List.map_cons, writeFunctions_cons hknown, writeFunctions_cons hknown] at hsame
    dsimp only at hsame
    by_cases hother : other = function
    · subst hother
      exact writeFunction_first_inj (Dict.mem_holders.mpr hl) (Dict.mem_holders.mpr hr) hsame
    · have hnot : ∀ name, data.get? name = some function → name ∉ data.holders other :=
        fun name hname hholder =>
          hother (Option.some.inj ((Dict.mem_holders.mp hholder).symm.trans hname))
      have hrest : function ∈ functions.takeWhile fun function => context.Known function :=
        (List.mem_cons.mp hmem).resolve_left (Ne.symm hother)
      rw [writeFunction_first_of_not_mem (hnot left hl),
        writeFunction_first_of_not_mem (hnot right hr)] at hsame
      exact ih hrest (List.append_cancel_left hsame)

/-- **Exactly when the header does not depend on the orders of the sets**: no function that is
written has two pins that differ. -/
theorem writeHeader_reproducible_iff (context : PinmuxContext) (data : PinmuxData) :
    (∀ sets sets' : SetOrder, writeHeader sets context data = writeHeader sets' context data) ↔
      ∀ function ∈ writtenFunctions context data, ∀ left right,
        data.get? left = some function → data.get? right = some function →
          left.port = right.port ∧ left.pin = right.pin := by
  constructor
  · intro h function hmem left right hl hr
    exact writeFunctions_first hmem hl hr
      (congrArg Prod.fst (h (SetOrder.first left) (SetOrder.first right)))
  · intro h sets sets'
    rw [writeHeader_eq, writeHeader_eq]
    refine writeFunctions_agree fun function hmem left hl right hr => ?_
    exact h function hmem left right (Dict.mem_holders.mp hl) (Dict.mem_holders.mp hr)

end Loop

/-- Two orders of the pins of one function give its first index to one or the other. -/
theorem writeHeader_reproducible_sensor :
    ¬ ∀ sets sets' : SetOrder, writeHeader sets sensorContext sensorPinmux =
      writeHeader sets' sensorContext sensorPinmux := by
  intro hsame
  have htexts := congrArg (fun header => header.1.take 45)
    (hsame insertionOrder (SetOrder.first ⟨'P', 'C', '2'⟩))
  exact absurd htexts (by decide)

end UniSdk.Scripts.Pinmux

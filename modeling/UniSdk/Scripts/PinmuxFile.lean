import UniSdk.Scripts.Pinmux
import Mathlib

/-!
# The file of a pin assignment

An assignment is written as one line for each entry. The file is read entry by entry: a line
gives its entry back where the pattern accepts the pin and the port is enabled, and does nothing
elsewhere.
-/

namespace UniSdk.Scripts.Pinmux

open UniSdk.Library

/-! ### Writing -/

/-- `f"{port_pin}={function}"`. -/
def entryLine (entry : PortPinName × FunctionName) : List Char :=
  entry.1.chars ++ '=' :: entry.2

/-- `PinmuxData.write`. -/
def writePinmux (data : PinmuxData) : List Char :=
  data.entries.flatMap (fun entry => entryLine entry ++ ['\n'])

/-! ### A line that was written -/

/-- The pattern accepts the name of the pin. -/
def Legible (name : PortPinName) : Bool :=
  name.lead = 'P' ∧ isUpperLetter name.port ∧ isOctal name.pin

/-- What the pattern reads as a function. -/
def IsName (function : FunctionName) : Prop := function ≠ [] ∧ ∀ c ∈ function, isNameChar c = true

theorem isNameChar_range {c : Char} (h : isNameChar c = true) :
    0x30 ≤ c.toNat ∧ c.toNat ≤ 0x5F ∧ c.toNat ≠ 0x3D := by
  simp only [isNameChar, isUpperLetter, decide_eq_true_eq, Char.le_def, Bool.decide_or,
    Bool.or_eq_true] at h
  rcases h with h | h | h
  · have h₁ : 'A'.toNat ≤ c.toNat := h.1
    have h₂ : c.toNat ≤ 'Z'.toNat := h.2
    have hA : 'A'.toNat = 0x41 := rfl
    have hZ : 'Z'.toNat = 0x5A := rfl
    omega
  · have h₁ : '0'.toNat ≤ c.toNat := h.1
    have h₂ : c.toNat ≤ '9'.toNat := h.2
    have h0 : '0'.toNat = 0x30 := rfl
    have h9 : '9'.toNat = 0x39 := rfl
    omega
  · subst h
    decide

theorem isSpace_eq_false {c : Char} (h : 0x30 ≤ c.toNat ∧ c.toNat ≤ 0x5F) : isSpace c = false := by
  simp only [isSpace, decide_eq_false_iff_not]
  omega

theorem isNameChar_not_space {c : Char} (h : isNameChar c = true) : isSpace c = false := by
  have hrange := isNameChar_range h
  exact isSpace_eq_false ⟨hrange.1, hrange.2.1⟩

/-- A name holds no line end. -/
theorem isNameChar_not_newline {c : Char} (h : isNameChar c = true) : ¬ (c = '\n' ∨ c = '\r') := by
  have hrange := isNameChar_range h
  rintro (rfl | rfl)
  · exact absurd hrange.1 (by decide)
  · exact absurd hrange.1 (by decide)

theorem splitLines_ne_nil (line : List Char) : splitLines line ≠ [] := by
  cases line with
  | nil => exact List.cons_ne_nil _ _
  | cons c line =>
    rw [splitLines]
    split
    · exact List.cons_ne_nil _ _
    · split <;> exact List.cons_ne_nil _ _

theorem splitLines_append (line rest : List Char) :
    splitLines (line ++ '\n' :: rest) = splitLines line ++ splitLines rest := by
  induction line with
  | nil => rfl
  | cons c line ih =>
    rw [List.cons_append, splitLines, splitLines, ih]
    split
    · rfl
    · cases hline : splitLines line with
      | nil => exact absurd hline (splitLines_ne_nil line)
      | cons first lines => rfl

theorem splitLines_of_no_newline {line : List Char}
    (h : ∀ c ∈ line, ¬ (c = '\n' ∨ c = '\r')) : splitLines line = [line] := by
  induction line with
  | nil => rfl
  | cons c line ih =>
    rw [splitLines, if_neg (h c List.mem_cons_self),
      ih (fun d hd => h d (List.mem_cons_of_mem _ hd))]

/-- Nothing is stripped behind a name. -/
theorem strip_entry {function : FunctionName} (h : IsName function) (lead : List Char) :
    strip (lead ++ '=' :: function) = lead.dropWhile isSpace ++ '=' :: function := by
  have hfront : (lead ++ '=' :: function).dropWhile isSpace =
      lead.dropWhile isSpace ++ '=' :: function := by
    rw [List.dropWhile_append]
    split
    · next hnil =>
      rw [List.isEmpty_iff.mp hnil, List.nil_append]
      rfl
    · rfl
  obtain ⟨init, last, hlast⟩ := List.eq_nil_or_concat function |>.resolve_left h.1
  rw [strip, hfront, hlast]
  have hspace : isSpace last = false :=
    isNameChar_not_space (h.2 last (by rw [hlast, List.concat_eq_append]; exact List.mem_concat_self))
  have hback : (lead.dropWhile isSpace ++ '=' :: init.concat last).reverse =
      last :: (lead.dropWhile isSpace ++ '=' :: init).reverse := by
    simp
  rw [hback, List.dropWhile_cons_of_neg (by simp [hspace])]
  simp

/-- A line that is accepted starts with the name of a pin, and an `=` comes after it. -/
theorem matchLine_some {line : List Char} {entry : PortPinName × FunctionName}
    (h : matchLine line = some entry) :
    ∃ port pin rest, line = 'P' :: port :: pin :: rest ∧ isUpperLetter port = true ∧
      isOctal pin = true ∧ '=' ∈ rest := by
  unfold matchLine at h
  split at h
  · next port pin rest =>
    split at h
    · next hshape =>
      split at h
      · next tail heq =>
        refine ⟨port, pin, rest, rfl, hshape.1, hshape.2, ?_⟩
        exact (List.dropWhile_sublist isSpace).subset (heq ▸ List.mem_cons_self)
      · cases h
    · cases h
  · cases h

/-- An `=` within the first three characters is never accepted. -/
theorem matchLine_early_eq {lead tail : List Char} (h : lead.length ≤ 2) :
    matchLine (lead ++ '=' :: tail) = none := by
  rw [Option.eq_none_iff_forall_not_mem]
  intro entry hentry
  obtain ⟨port, pin, rest, heq, hport, hpin, -⟩ := matchLine_some hentry
  match lead, h with
  | [], _ => exact absurd (List.cons.inj heq).1 (by decide)
  | [_], _ =>
    obtain ⟨rfl, -⟩ := List.cons.inj (List.cons.inj heq).2
    exact absurd hport (by decide)
  | [_, _], _ =>
    obtain ⟨rfl, -⟩ := List.cons.inj (List.cons.inj (List.cons.inj heq).2).2
    exact absurd hpin (by decide)

theorem matchLine_short {line : List Char} (h : line.length ≤ 3) : matchLine line = none := by
  rw [Option.eq_none_iff_forall_not_mem]
  intro entry hentry
  obtain ⟨port, pin, rest, rfl, -, -, hmem⟩ := matchLine_some hentry
  have hrest : 0 < rest.length := List.length_pos_of_mem hmem
  simp only [List.length_cons] at h
  omega

theorem strip_length_le (line : List Char) : (strip line).length ≤ line.length := by
  rw [strip, List.length_reverse]
  refine (List.dropWhile_sublist isSpace).length_le.trans ?_
  rw [List.length_reverse]
  exact (List.dropWhile_sublist isSpace).length_le

/-- The line of a legible pin gives its entry back. -/
theorem matchLine_entry {name : PortPinName} {function : FunctionName} (hname : Legible name)
    (h : IsName function) : matchLine (strip (entryLine (name, function))) =
      some (name, function) := by
  obtain ⟨lead, port, pin⟩ := name
  simp only [Legible, decide_eq_true_eq] at hname
  obtain ⟨rfl, hport, hpin⟩ := hname
  obtain ⟨first, others, rfl⟩ := List.exists_cons_of_ne_nil h.1
  have hspace : isSpace first = false := isNameChar_not_space (h.2 first List.mem_cons_self)
  have htake : (first :: others).takeWhile isNameChar = first :: others :=
    List.takeWhile_eq_self_iff.mpr h.2
  have hlead : ['P', port, pin].dropWhile isSpace = ['P', port, pin] := rfl
  rw [entryLine, PortPinName.chars, strip_entry h, hlead]
  show matchLine ('P' :: port :: pin :: '=' :: first :: others) = _
  have heq : isSpace '=' = false := by decide
  simp only [matchLine, hport, hpin, and_self, if_true, List.dropWhile_cons, heq, hspace,
    Bool.false_eq_true, if_false, htake, reduceCtorEq]

/-- Line ends in front of the `=` cut the line: each part is shorter in front of it. -/
theorem mem_splitLines_entry {function : FunctionName} (h : IsName function)
    (front : List Char) : ∀ line ∈ splitLines (front ++ '=' :: function),
      line.length < front.length ∨
        ∃ front', line = front' ++ '=' :: function ∧
          (front' = front ∨ front'.length < front.length) := by
  induction front with
  | nil =>
    have hline : splitLines ('=' :: function) = ['=' :: function] := by
      refine splitLines_of_no_newline fun c hc => ?_
      rcases List.mem_cons.mp hc with rfl | hmem
      · decide
      · exact isNameChar_not_newline (h.2 c hmem)
    intro line hmem
    rw [List.nil_append, hline, List.mem_singleton] at hmem
    exact Or.inr ⟨[], hmem, Or.inl rfl⟩
  | cons c front ih =>
    have hshorter : ∀ line ∈ splitLines (front ++ '=' :: function),
        line.length < (c :: front).length ∨
          ∃ front', line = front' ++ '=' :: function ∧
            (front' = c :: front ∨ front'.length < (c :: front).length) := by
      intro line hmem
      rcases ih line hmem with hlen | ⟨front', rfl, rfl | hlen⟩
      · exact Or.inl (Nat.lt_succ_of_lt hlen)
      · exact Or.inr ⟨_, rfl, Or.inr (Nat.lt_succ_self _)⟩
      · exact Or.inr ⟨_, rfl, Or.inr (Nat.lt_succ_of_lt hlen)⟩
    intro line hmem
    rw [List.cons_append, splitLines] at hmem
    split at hmem
    · rcases List.mem_cons.mp hmem with rfl | hmem
      · exact Or.inl (Nat.succ_pos _)
      · exact hshorter line hmem
    · split at hmem
      · next hnil => exact absurd hnil (splitLines_ne_nil _)
      · next first lines hlines =>
        rw [hlines] at hshorter ih
        rcases List.mem_cons.mp hmem with rfl | hmem
        · rcases ih first List.mem_cons_self with hlen | ⟨front', rfl, rfl | hlen⟩
          · exact Or.inl (Nat.succ_lt_succ hlen)
          · exact Or.inr ⟨_, rfl, Or.inl rfl⟩
          · exact Or.inr ⟨c :: front', rfl, Or.inr (Nat.succ_lt_succ hlen)⟩
        · exact hshorter line (List.mem_cons_of_mem _ hmem)

/-- The line of a pin that is not legible, or each part of it, is skipped. -/
theorem matchLine_illegible {name : PortPinName} {function : FunctionName}
    (hname : ¬ Legible name) (h : IsName function) :
    ∀ line ∈ splitLines (entryLine (name, function)), matchLine (strip line) = none := by
  obtain ⟨lead, port, pin⟩ := name
  have hshort : ∀ line : List Char, line.length ≤ 3 → matchLine (strip line) = none :=
    fun line hlen => matchLine_short ((strip_length_le line).trans hlen)
  have hearly : ∀ front : List Char, front.length ≤ 2 →
      matchLine (strip (front ++ '=' :: function)) = none := fun front hlen => by
    rw [strip_entry h]
    exact matchLine_early_eq ((List.dropWhile_sublist isSpace).length_le.trans hlen)
  have hwhole : matchLine (strip ([lead, port, pin] ++ '=' :: function)) = none := by
    rw [strip_entry h]
    by_cases hspace : isSpace lead = true
    · rw [List.dropWhile_cons_of_pos hspace]
      exact matchLine_early_eq (List.dropWhile_sublist isSpace).length_le
    · rw [List.dropWhile_cons_of_neg hspace, Option.eq_none_iff_forall_not_mem]
      intro entry hentry
      obtain ⟨port', pin', rest, heq, hport, hpin, -⟩ := matchLine_some hentry
      simp only [List.cons_append, List.cons.injEq] at heq
      obtain ⟨rfl, rfl, rfl, -⟩ := heq
      exact hname (by simp [Legible, hport, hpin])
  intro line hline
  rcases mem_splitLines_entry h [lead, port, pin] line hline with hlen | ⟨front, rfl, rfl | hlen⟩
  · exact hshort line (Nat.le_of_lt hlen)
  · exact hwhole
  · exact hearly front (Nat.le_of_lt_succ hlen)

/-! ### Reading a saved file -/

section Reading

variable {context : PinmuxContext}

/-- The line of this pin is read back: the file's name is accepted, the pattern accepts the
pin and its port is enabled. -/
def Readable (context : PinmuxContext) (name : PortPinName) : Bool :=
  matchFileName (pinmuxFileName context.id) ∧ Legible name ∧ context.portEnabled name.port

/-- The assigned functions are named with the characters of the pattern. -/
def WordNames (data : PinmuxData) : Prop :=
  ∀ name function, data.get? name = some function → IsName function

/-- One saved entry, read into an assignment that holds neither its pin nor, unless it can be
repeated, its function. -/
theorem readLine_entry {data : PinmuxData} {name : PortPinName} {function : FunctionName}
    (hword : IsName function) (hknown : context.Known function)
    (hfree : context.repeatable function = false → function ∉ data.values) :
    (splitLines (entryLine (name, function))).foldl (readLine context) data =
      if Legible name ∧ context.portEnabled name.port then data.set name function else data := by
  by_cases hname : Legible name
  · have hline : splitLines (entryLine (name, function)) = [entryLine (name, function)] := by
      obtain ⟨lead, port, pin⟩ := name
      simp only [Legible, decide_eq_true_eq] at hname
      obtain ⟨rfl, hport, hpin⟩ := hname
      refine splitLines_of_no_newline fun c hc => ?_
      have hdigit : isNameChar pin = true := by
        simp only [isOctal, decide_eq_true_eq] at hpin
        simp only [isNameChar, decide_eq_true_eq]
        exact Or.inr (Or.inl ⟨hpin.1, Char.le_trans hpin.2 (by decide)⟩)
      have hletter : isNameChar port = true := by
        simp only [isNameChar, decide_eq_true_eq]
        exact Or.inl hport
      simp only [entryLine, PortPinName.chars, List.cons_append, List.nil_append,
        List.mem_cons] at hc
      rcases hc with rfl | rfl | rfl | rfl | hmem
      · decide
      · exact isNameChar_not_newline hletter
      · exact isNameChar_not_newline hdigit
      · decide
      · exact isNameChar_not_newline (hword.2 c hmem)
    rw [hline, List.foldl_cons, List.foldl_nil, readLine, matchLine_entry hname hword]
    have hclash : ¬ (function ∈ data.values ∧ context.repeatable function = false) :=
      fun h => hfree h.2 h.1
    dsimp only
    rw [if_neg (not_not_intro hknown), if_neg hclash]
    cases hport : context.portEnabled name.port <;> simp [hname]
  · have hskip : ∀ lines : List (List Char), (∀ line ∈ lines, matchLine (strip line) = none) →
        lines.foldl (readLine context) data = data := by
      intro lines hlines
      induction lines with
      | nil => rfl
      | cons line lines ih =>
        rw [List.foldl_cons, readLine, hlines line List.mem_cons_self]
        exact ih (fun other hother => hlines other (List.mem_cons_of_mem _ hother))
    rw [hskip _ (matchLine_illegible hname hword), if_neg (fun h => hname h.1)]

/-- No two of the entries share a pin, or a function that is not repeatable. -/
structure Separate (context : PinmuxContext) (entries : List (PortPinName × FunctionName)) :
    Prop where
  keys : (entries.map Prod.fst).Nodup
  functions : entries.Pairwise
    (fun left right => context.repeatable left.2 = false → left.2 ≠ right.2)

theorem Exclusive.separate {data : PinmuxData} (h : Exclusive context data) :
    Separate context data.entries where
  keys := data.nodup
  functions := by
    have hkeys : data.entries.Pairwise (fun left right => left.1 ≠ right.1) :=
      List.pairwise_map.mp data.nodup
    refine hkeys.imp_of_mem fun hl hr hne hrep heq => hne ?_
    exact h _ hrep _ _ (Dict.mem_entries.mp hl) (Dict.mem_entries.mp (heq ▸ hr))

/-- Reading appends the legible entries of enabled ports, in their order. -/
theorem readLines_write {entries : List (PortPinName × FunctionName)} {data : PinmuxData}
    (hwords : ∀ entry ∈ entries, context.Known entry.2 ∧ IsName entry.2)
    (hsep : Separate context entries)
    (hfresh : ∀ entry ∈ entries, data.get? entry.1 = none ∧
      (context.repeatable entry.2 = false → entry.2 ∉ data.values)) :
    ((splitLines (entries.flatMap (fun entry => entryLine entry ++ ['\n']))).foldl
        (readLine context) data).entries =
      data.entries ++ entries.filter
        (fun entry => Legible entry.1 ∧ context.portEnabled entry.1.port) := by
  induction entries generalizing data with
  | nil =>
    rw [List.flatMap_nil, List.filter_nil, List.append_nil]
    rfl
  | cons entry entries ih =>
    obtain ⟨name, function⟩ := entry
    obtain ⟨hknown, hword⟩ := hwords (name, function) List.mem_cons_self
    obtain ⟨hnone, hfree⟩ := hfresh (name, function) List.mem_cons_self
    obtain ⟨hkeys, hfunctions⟩ := hsep
    rw [List.map_cons, List.nodup_cons] at hkeys
    rw [List.pairwise_cons] at hfunctions
    have hrest : ∀ entry ∈ entries, data.get? entry.1 = none ∧
        (context.repeatable entry.2 = false → entry.2 ∉ data.values) :=
      fun entry hmem => hfresh entry (List.mem_cons_of_mem _ hmem)
    have hwords' : ∀ entry ∈ entries, context.Known entry.2 ∧ IsName entry.2 :=
      fun entry hmem => hwords entry (List.mem_cons_of_mem _ hmem)
    rw [List.flatMap_cons, List.append_assoc, List.singleton_append, splitLines_append,
      List.foldl_append, readLine_entry hword hknown hfree, List.filter_cons]
    by_cases hread : Legible name ∧ context.portEnabled name.port
    · rw [if_pos hread, if_pos (decide_eq_true hread), ih hwords' ⟨hkeys.2, hfunctions.2⟩,
        Dict.set_entries_of_none hnone, List.append_assoc, List.singleton_append]
      -- the entry just set is neither a pin nor a single function of a later one
      intro other hmem
      obtain ⟨hother, hunheld⟩ := hrest other hmem
      have hname : name ≠ other.1 := by
        rintro rfl
        exact hkeys.1 (List.mem_map.mpr ⟨other, hmem, rfl⟩)
      refine ⟨by rw [Dict.get?_set, if_neg hname, hother], fun hrep hheld => ?_⟩
      obtain ⟨pin, hpin⟩ := Dict.mem_values.mp hheld
      rw [Dict.get?_set] at hpin
      split at hpin
      · have heq : function = other.2 := Option.some.inj hpin
        exact hfunctions.1 other hmem (heq ▸ hrep) heq
      · exact hunheld hrep (Dict.mem_values.mpr ⟨pin, hpin⟩)
    · rw [if_neg hread, if_neg (by simpa using hread), ih hwords' ⟨hkeys.2, hfunctions.2⟩ hrest]

/-- The lines of a file that was written, read into an empty assignment. -/
theorem readLines_writePinmux {saved : PinmuxData} (hwords : WordNames saved)
    (hknown : ∀ name function, saved.get? name = some function → context.Known function)
    (hex : Exclusive context saved) :
    (splitLines (writePinmux saved)).foldl (readLine context) Dict.empty =
      saved.filterKeys (fun name => Legible name ∧ context.portEnabled name.port) := by
  apply Dict.ext_entries
  rw [writePinmux, readLines_write _ hex.separate]
  · simp only [Dict.filterKeys, Dict.empty, List.nil_append]
  · intro entry _
    exact ⟨Dict.get?_empty _, fun _ h => absurd h List.not_mem_nil⟩
  · intro entry hmem
    have hentry : saved.get? entry.1 = some entry.2 := Dict.mem_entries.mp hmem
    exact ⟨hknown _ _ hentry, hwords _ _ hentry⟩

/-- What a new process reads from the saved file. -/
theorem readFile_write {saved : PinmuxData} (hwords : WordNames saved)
    (hknown : ∀ name function, saved.get? name = some function → context.Known function)
    (hex : Exclusive context saved) :
    readFile context Dict.empty (pinmuxFileName context.id) (writePinmux saved) =
      saved.filterKeys (Readable context) := by
  unfold readFile
  by_cases hfile : matchFileName (pinmuxFileName context.id) = true
  · rw [if_pos hfile, readLines_writePinmux hwords hknown hex]
    apply Dict.ext_entries
    simp only [Dict.filterKeys, Readable, hfile, true_and]
  · rw [if_neg hfile]
    apply Dict.ext_entries
    symm
    rw [Dict.filterKeys, Dict.empty]
    exact List.filter_eq_nil_iff.mpr (fun entry _ => by simp [Readable, hfile])

end Reading

/-! ### Any file name -/

/-- `^((\w+)\.(board|soc))?\.pinmux$`, where `isWord` is `\w`. The `$` also stands in front of a
line break that ends the name. -/
def fileNameMatches (isWord : Char → Bool) (fileName : List Char) : Bool :=
  let stem := if fileName.getLast? = some '\n' then fileName.dropLast else fileName
  stem = ".pinmux".toList ∨
    (stem.takeWhile isWord ≠ [] ∧
      (stem.dropWhile isWord = ".board.pinmux".toList ∨
        stem.dropWhile isWord = ".soc.pinmux".toList))

/-- `PinmuxData.read` on any file name. -/
def readNamedFile (isWord : Char → Bool) (context : PinmuxContext) (data : PinmuxData)
    (fileName content : List Char) : PinmuxData :=
  if fileNameMatches isWord fileName then (splitLines content).foldl (readLine context) data
  else data

/-- On the names that are built from an identifier it is the read above. -/
theorem readNamedFile_eq_readFile {fileName : List Char} (h : fileName.getLast? ≠ some '\n')
    (context : PinmuxContext) (data : PinmuxData) (content : List Char) :
    readNamedFile isWordChar context data fileName content =
      readFile context data fileName content := by
  have hname : fileNameMatches isWordChar fileName = matchFileName fileName := by
    unfold fileNameMatches matchFileName
    rw [if_neg h]
  rw [readNamedFile, readFile, hname]

/-- **A file that was written is read back unchanged**, under every name the reader accepts: the
pins are ones the pattern can read, on enabled ports, the functions are known and named with the
characters of the pattern, and none that must not be repeated is on two pins. -/
theorem readNamedFile_writePinmux (isWord : Char → Bool) (context : PinmuxContext)
    (data : PinmuxData) (fileName : List Char)
    (hname : fileNameMatches isWord fileName = true)
    (hpins : ∀ name function, data.get? name = some function →
      Legible name = true ∧ context.portEnabled name.port = true)
    (hknown : ∀ name function, data.get? name = some function → context.Known function)
    (hwords : WordNames data) (hex : Exclusive context data) :
    readNamedFile isWord context Dict.empty fileName (writePinmux data) = data := by
  rw [readNamedFile, if_pos hname, readLines_writePinmux hwords hknown hex]
  apply Dict.ext_entries
  refine List.filter_eq_self.mpr fun entry hmem => ?_
  exact decide_eq_true (hpins entry.1 entry.2 (Dict.mem_entries.mp hmem))

/-- A console function and a sensor function that can be repeated. -/
def sensorContext : PinmuxContext where
  id := { name := "TL721X".toList, type := .soc }
  ports := (Dict.empty.set 'B' { disabled := false, pins := ['0', '1'] }).set 'C'
    { disabled := false, pins := ['2'] }
  functions := (Dict.empty.set "UART_TX".toList
    { default := none, optional := true, repeatable := false }).set "ADC_IN".toList
    { default := none, optional := true, repeatable := true }

def sensorPinmux : PinmuxData :=
  ((Dict.empty.set ⟨'P', 'B', '1'⟩ "ADC_IN".toList).set ⟨'P', 'B', '0'⟩ "UART_TX".toList).set
    ⟨'P', 'C', '2'⟩ "ADC_IN".toList

theorem readNamedFile_sensorPinmux :
    readNamedFile isWordChar sensorContext Dict.empty "EVK.board.pinmux".toList
      (writePinmux sensorPinmux) = sensorPinmux := by
  have hentries : ∀ name function, sensorPinmux.get? name = some function →
      (name, function) ∈ sensorPinmux.entries := fun name function => Dict.mem_entries.mpr
  refine readNamedFile_writePinmux isWordChar sensorContext sensorPinmux _ (by rfl) ?_ ?_ ?_ ?_
  · intro name function hget
    have hall : ∀ entry ∈ sensorPinmux.entries, Legible entry.1 = true ∧
      sensorContext.portEnabled entry.1.port = true := by decide
    exact hall _ (hentries name function hget)
  · intro name function hget
    have hall : ∀ entry ∈ sensorPinmux.entries, sensorContext.Known entry.2 := by decide
    exact hall _ (hentries name function hget)
  · intro name function hget
    have hall : ∀ entry ∈ sensorPinmux.entries, entry.2 ≠ [] ∧ entry.2.all isNameChar = true := by
      decide
    have hword := hall _ (hentries name function hget)
    exact ⟨hword.1, List.all_eq_true.mp hword.2⟩
  · intro function hrep left right hl hr
    have hall : ∀ entry ∈ sensorPinmux.entries, ∀ other ∈ sensorPinmux.entries,
      sensorContext.repeatable entry.2 = false → entry.2 = other.2 → entry.1 = other.1 := by decide
    exact hall _ (hentries left function hl) _ (hentries right function hr) hrep rfl

end UniSdk.Scripts.Pinmux

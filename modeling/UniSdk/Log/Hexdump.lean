import UniSdk.Library.CharBuffers
import UniSdk.Library.HexText
import UniSdk.Library.Words
import Mathlib.Data.List.Basic
import Mathlib.Data.List.ReduceOption

/-!
# Hex dumps

`tlk_log_hexdump` puts a line together from an offset, sixteen cells and a text column, by a
running index into a buffer that it uses for all lines. The reader below takes such a line apart
again.
-/

namespace UniSdk.Log

open Library.CharBuffers Library.HexText Library.Words

/-- `(c >= 32 && c <= 126) ? (char) c : '.'`. -/
def shownChar (c : UInt8) : Nat := if 32 ≤ c ∧ c ≤ 126 then c.toNat else 46

/-- `%04X: ` -/
def offsetText (i : Nat) : List Nat := hexPadded 8 4 i ++ [58, 32]

/-- `%02X `, or blanks where there is no byte. -/
def cellText (byte : Option UInt8) : List Nat :=
  match byte with
  | some c => hexPadded 8 2 c.toNat ++ [32]
  | none => [32, 32, 32]

/-- One pass of the loop over the lines: the buffer it leaves, with `line` as the buffer before.
`bytes` are the `len` bytes at `data`. -/
def hexdumpLine (bytes : List UInt8) (i : Nat) (line : CharBuf 100) : CharBuf 100 :=
  let len := bytes.length
  let head := CharBuf.append (line, 0) (offsetText i)
  let cells := (List.range 16).foldl (fun p j =>
    CharBuf.append p (cellText (if u32 (i + j) < len then bytes[u32 (i + j)]? else none))) head
  let column := CharBuf.append cells [32, 124]
  let shown := ((List.range 16).takeWhile fun j => u32 (i + j) < len).foldl (fun p j =>
    (p.1.store p.2 (shownChar (bytes.getD (u32 (i + j)) 0)), p.2 + 1)) column
  (shown.1.store shown.2 124).store (shown.2 + 1) 0

/-- The loop over the lines from the offset `i` on: the buffers as they are handed to the logger.
`fuel` bounds the passes; without enough of it there is no result. -/
def hexdumpLoop (bytes : List UInt8) : Nat → Nat → CharBuf 100 → Option (List (CharBuf 100))
  | 0, _, _ => none
  | fuel + 1, i, line =>
    if i < bytes.length then
      let line := hexdumpLine bytes i line
      (hexdumpLoop bytes fuel (u32 (i + 16)) line).map (line :: ·)
    else some []

/-- `tlk_log_hexdump`; `none` is the null pointer, and `line` what the stack holds before. -/
def tlkLogHexdump (data : Option (List UInt8)) (fuel : Nat) (line : CharBuf 100) :
    Option (List (CharBuf 100)) :=
  match data with
  | none => some []
  | some bytes => if bytes.length = 0 then some [] else hexdumpLoop bytes fuel 0 line

/-! ## Reading a line -/

/-- A line taken apart: the offset, the sixteen cells and the text column. -/
structure DumpLine where
  offset : Nat
  cells : List (Option Nat)
  shown : List Nat
  deriving DecidableEq, Repr

/-- One cell: two digits and a blank, or blanks only. -/
def readCell (a b c : Nat) : Option (Option Nat) :=
  if a = 32 ∧ b = 32 ∧ c = 32 then some none
  else if c = 32 then (readHex 0 [a, b]).map some
  else none

/-- The first `n` cells, and what follows them. -/
def readCells : Nat → List Nat → Option (List (Option Nat) × List Nat)
  | 0, rest => some ([], rest)
  | n + 1, a :: b :: c :: rest =>
    (readCell a b c).bind fun cell => (readCells n rest).map fun p => (cell :: p.1, p.2)
  | _ + 1, _ => none

/-- The text column: what stands between the first and the last bar. -/
def readShown : List Nat → Option (List Nat)
  | 32 :: 124 :: rest => if rest.getLast? = some 124 then some rest.dropLast else none
  | _ => none

def readLine (line : List Nat) : Option DumpLine :=
  let digits := line.takeWhile (· != 58)
  match line.drop digits.length with
  | 58 :: 32 :: rest =>
    (readHex 0 digits).bind fun offset => (readCells 16 rest).bind fun p =>
      (readShown p.2).map fun shown => ⟨offset, p.1, shown⟩
  | _ => none

/-! ## The lines -/

section Lines

variable {bytes : List UInt8}

/-- The bytes of the line at offset `i`. -/
def lineBytes (bytes : List UInt8) (i : Nat) : List UInt8 := (bytes.drop i).take 16

/-- The line at offset `i`. -/
def lineText (bytes : List UInt8) (i : Nat) : List Nat :=
  offsetText i ++ (List.range 16).flatMap (fun j => cellText bytes[i + j]?) ++ [32, 124] ++
    (lineBytes bytes i).map shownChar ++ [124]

theorem length_byteText (c : UInt8) : (hexPadded 8 2 c.toNat).length = 2 :=
  length_hexPadded_of_lt (by decide) c.toNat_lt 8

theorem length_cellText (byte : Option UInt8) : (cellText byte).length = 3 := by
  cases byte with
  | none => rfl
  | some c =>
    rw [cellText, List.length_append, length_byteText]
    rfl

theorem length_cells (f : Nat → Option UInt8) (n : Nat) :
    ((List.range n).flatMap fun j => cellText (f j)).length = 3 * n := by
  induction n with
  | zero => rfl
  | succ n ih =>
    rw [List.range_succ, List.flatMap_append, List.length_append, ih, List.flatMap_singleton,
      length_cellText]
    rfl

theorem length_offsetText_le (i : Nat) : (offsetText i).length ≤ 10 := by
  have hdigits := length_hexPadded_le (show 4 ≤ 8 by decide) i
  rw [offsetText, List.length_append]
  exact Nat.add_le_add_right hdigits 2

/-- A loop over the first `n` indices that stops at `m`. -/
theorem takeWhile_range {n m : Nat} {p : Nat → Bool} (hp : ∀ j < n, p j = decide (j < m)) :
    (List.range n).takeWhile p = List.range (min n m) := by
  induction n with
  | zero => rw [Nat.zero_min]; rfl
  | succ n ih =>
    have hlast := hp n (Nat.lt_succ_self n)
    rw [List.range_succ, List.takeWhile_append, ih fun j hj => hp j (Nat.lt_succ_of_lt hj),
      List.length_range, List.length_range]
    by_cases hn : n < m
    · have htrue : p n = true := by rw [hlast]; exact decide_eq_true hn
      rw [if_pos (Nat.min_eq_left hn.le), List.takeWhile_cons_of_pos htrue,
        Nat.min_eq_left (Nat.succ_le_of_lt hn), List.range_succ]
      rfl
    · have hle : m ≤ n := Nat.le_of_not_lt hn
      rw [List.takeWhile_cons_of_neg (by rw [hlast]; simpa using hn), List.append_nil,
        Nat.min_eq_right hle, Nat.min_eq_right (Nat.le_succ_of_le hle)]
      split
      · next heq => rw [heq]
      · rfl

theorem shown_bytes (bytes : List UInt8) (i : Nat) :
    (List.range (min 16 (bytes.length - i))).map (fun j => shownChar (bytes.getD (i + j) 0)) =
      (lineBytes bytes i).map shownChar := by
  have hlength : (lineBytes bytes i).length = min 16 (bytes.length - i) := by
    rw [lineBytes, List.length_take, List.length_drop]
  apply List.ext_getElem
  · rw [List.length_map, List.length_map, List.length_range, hlength]
  · intro j hj hj'
    rw [List.length_map, List.length_range] at hj
    simp only [List.getElem_map, List.getElem_range, lineBytes, List.getElem_take,
      List.getElem_drop]
    rw [List.getD_eq_getElem?_getD, List.getElem?_eq_getElem (by omega), Option.getD_some]

/-! The index `i + j` is a 32-bit sum, which does not wrap in a line that starts below
`2 ^ 32 - 15`. -/

theorem u32_index {i j : Nat} (hwrap : i + 16 ≤ 2 ^ 32) (hj : j < 16) : u32 (i + j) = i + j :=
  u32_of_lt (by omega)

theorem cells_eq (bytes : List UInt8) {i : Nat} (hwrap : i + 16 ≤ 2 ^ 32) :
    (List.range 16).flatMap (fun j =>
      cellText (if u32 (i + j) < bytes.length then bytes[u32 (i + j)]? else none)) =
        (List.range 16).flatMap (fun j => cellText bytes[i + j]?) := by
  apply List.flatMap_congr
  intro j hj
  rw [u32_index hwrap (List.mem_range.mp hj)]
  split
  · rfl
  · next hend => rw [List.getElem?_eq_none (Nat.le_of_not_lt hend)]

theorem column_eq {i : Nat} (hi : i < bytes.length) (hwrap : i + 16 ≤ 2 ^ 32) :
    (List.range 16).takeWhile (fun j => decide (u32 (i + j) < bytes.length)) =
      List.range (min 16 (bytes.length - i)) := by
  apply takeWhile_range
  intro j hj
  rw [u32_index hwrap hj]
  exact decide_eq_decide.mpr (by omega)

theorem shown_eq (bytes : List UInt8) {i : Nat} (hwrap : i + 16 ≤ 2 ^ 32) :
    (List.range (min 16 (bytes.length - i))).map (fun j =>
      shownChar (bytes.getD (u32 (i + j)) 0)) = (lineBytes bytes i).map shownChar := by
  rw [← shown_bytes]
  apply List.map_congr_left
  intro j hj
  have hlt := List.mem_range.mp hj
  rw [u32_index hwrap (by omega)]

/-- One pass leaves the line and its NUL in the buffer. -/
theorem hexdumpLine_holds {i : Nat} (hi : i < bytes.length) (hwrap : i + 16 ≤ 2 ^ 32)
    {line : CharBuf 100} (hline : line.inside = true) :
    (hexdumpLine bytes i line).Holds (lineText bytes i ++ [0]) := by
  have hoffset := length_offsetText_le i
  have hcells := length_cells (fun j => bytes[i + j]?) 16
  have hhead := (CharBuf.Filled.nil hline).append (by decide) (offsetText i)
    (by rw [List.length_nil]; omega)
  have hdump := hhead.foldl_append (by decide) (fun j =>
      cellText (if u32 (i + j) < bytes.length then bytes[u32 (i + j)]? else none)) (List.range 16)
    (by rw [cells_eq bytes hwrap, hcells, List.nil_append]; omega)
  rw [cells_eq bytes hwrap, List.nil_append] at hdump
  have hbar := hdump.append (by decide) [32, 124]
    (by rw [List.length_append, hcells]; simp only [List.length_cons, List.length_nil]; omega)
  have hlength : (offsetText i ++ (List.range 16).flatMap (fun j => cellText bytes[i + j]?) ++
      [32, 124]).length ≤ 60 := by
    rw [List.length_append, List.length_append, hcells]
    simp only [List.length_cons, List.length_nil]
    omega
  have hshown := hbar.foldl_store (fun j => shownChar (bytes.getD (u32 (i + j)) 0))
    (List.range (min 16 (bytes.length - i))) (by rw [List.length_range]; omega)
  rw [shown_eq bytes hwrap] at hshown
  have hbytes : (lineBytes bytes i).length ≤ 16 := List.length_take_le _ _
  have hclose := hshown.store (by rw [List.length_append, List.length_map]; omega) 124
  have hroom : (offsetText i ++ (List.range 16).flatMap (fun j => cellText bytes[i + j]?) ++
      [32, 124] ++ (lineBytes bytes i).map shownChar ++ [124]).length < 100 := by
    rw [List.length_append, List.length_append, List.length_map, List.length_singleton]
    omega
  have hend := hclose.store hroom 0
  unfold hexdumpLine
  dsimp only
  rw [column_eq hi hwrap]
  exact hend.holds

/-- From the offset `16 * k` on there are `n` lines. -/
theorem hexdumpLoop_lines (hlen : bytes.length ≤ 2 ^ 32 - 16) {n k fuel : Nat}
    {line : CharBuf 100} (hend : bytes.length ≤ 16 * (k + n))
    (hmore : ∀ m < n, 16 * (k + m) < bytes.length) (hfuel : n < fuel)
    (hline : line.inside = true) :
    ∃ lines, hexdumpLoop bytes fuel (16 * k) line = some lines ∧ lines.length = n ∧
      ∀ m < n, ∃ b, lines[m]? = some b ∧ b.Holds (lineText bytes (16 * (k + m)) ++ [0]) := by
  induction n generalizing k fuel line with
  | zero =>
    obtain ⟨fuel, rfl⟩ := Nat.exists_eq_add_of_lt hfuel
    refine ⟨[], ?_, rfl, fun m hm => absurd hm (Nat.not_lt_zero m)⟩
    rw [hexdumpLoop, if_neg (by omega)]
  | succ n ih =>
    obtain ⟨fuel, rfl⟩ : ∃ f, fuel = f + 1 := ⟨fuel - 1, by omega⟩
    have hi : 16 * k < bytes.length := hmore 0 (Nat.succ_pos n)
    have hholds := hexdumpLine_holds hi (by omega) hline
    have hnext : u32 (16 * k + 16) = 16 * (k + 1) := u32_of_lt (by omega)
    obtain ⟨lines, hlines, hcount, hall⟩ := @ih (k + 1) fuel (hexdumpLine bytes (16 * k) line)
      (by omega) (fun m hm => by have := hmore (m + 1) (by omega); omega) (by omega) hholds.inside
    refine ⟨hexdumpLine bytes (16 * k) line :: lines, ?_, by rw [List.length_cons, hcount], ?_⟩
    · rw [hexdumpLoop, if_pos hi]
      dsimp only
      rw [hnext, hlines]
      rfl
    · intro m hm
      cases m with
      | zero => exact ⟨_, rfl, hholds⟩
      | succ m =>
        obtain ⟨b, hb, hholds'⟩ := hall m (by omega)
        refine ⟨b, hb, ?_⟩
        rw [Nat.add_right_comm, Nat.add_assoc] at hholds'
        exact hholds'

/-! ## Reading them back -/

theorem readCell_byte (c : UInt8) :
    ∃ a b, cellText (some c) = [a, b, 32] ∧ readCell a b 32 = some (some c.toNat) := by
  have hlength := length_byteText c
  have hvalue : readHex 0 (hexPadded 8 2 c.toNat) = some c.toNat :=
    readHex_hexPadded (c.toNat_lt.trans (by decide)) 2
  have hdigit : ∀ v ∈ hexPadded 8 2 c.toNat, v ≠ 32 := by
    intro v hv
    have := mem_hexPadded hv
    omega
  obtain ⟨a, b, hab⟩ := List.length_eq_two.mp hlength
  rw [hab] at hvalue hdigit
  refine ⟨a, b, ?_, ?_⟩
  · rw [cellText, hab]
    rfl
  · rw [readCell, if_neg (fun h => hdigit a List.mem_cons_self h.1), if_pos rfl, hvalue]
    rfl

theorem readCells_flatMap (cells : List (Option UInt8)) (rest : List Nat) :
    readCells cells.length (cells.flatMap cellText ++ rest) =
      some (cells.map (Option.map UInt8.toNat), rest) := by
  induction cells with
  | nil => rfl
  | cons cell cells ih =>
    rw [List.flatMap_cons, List.append_assoc, List.length_cons, List.map_cons]
    cases cell with
    | none =>
      show readCells (cells.length + 1) (32 :: 32 :: 32 :: (cells.flatMap cellText ++ rest)) = _
      rw [readCells, ih]
      rfl
    | some c =>
      obtain ⟨a, b, htext, hread⟩ := readCell_byte c
      rw [htext]
      show readCells (cells.length + 1) (a :: b :: 32 :: (cells.flatMap cellText ++ rest)) = _
      rw [readCells, hread, ih]
      rfl

theorem readShown_text (shown : List Nat) :
    readShown (32 :: 124 :: (shown ++ [124])) = some shown := by
  rw [readShown, List.getLast?_concat, if_pos rfl, List.dropLast_concat]

/-- What a line at offset `i` says. -/
def dumpLine (bytes : List UInt8) (i : Nat) : DumpLine where
  offset := i
  cells := (List.range 16).map fun j => (bytes[i + j]?).map UInt8.toNat
  shown := (lineBytes bytes i).map shownChar

theorem readLine_lineText {i : Nat} (hi : i < 2 ^ 32) :
    readLine (lineText bytes i) = some (dumpLine bytes i) := by
  have hdigit : ∀ v ∈ hexPadded 8 4 i, (v != 58) = true := by
    intro v hv
    have := mem_hexPadded hv
    simp only [bne_iff_ne, ne_eq]
    omega
  have hsplit : lineText bytes i = hexPadded 8 4 i ++ 58 :: 32 ::
      (((List.range 16).map fun j => bytes[i + j]?).flatMap cellText ++
        (32 :: 124 :: ((lineBytes bytes i).map shownChar ++ [124]))) := by
    simp [lineText, offsetText, List.flatMap_map]
  have hfront : (lineText bytes i).takeWhile (· != 58) = hexPadded 8 4 i := by
    rw [hsplit, List.takeWhile_append_of_pos hdigit]
    simp
  have hcells := readCells_flatMap ((List.range 16).map fun j => bytes[i + j]?)
    (32 :: 124 :: ((lineBytes bytes i).map shownChar ++ [124]))
  rw [List.length_map, List.length_range] at hcells
  rw [readLine, hfront, hsplit, List.drop_left, readHex_hexPadded (by omega)]
  show (readCells 16 _).bind (fun p => (readShown p.2).map fun shown => DumpLine.mk i p.1 shown) = _
  rw [hcells, Option.bind_some, readShown_text, List.map_map]
  rfl

theorem shownChar_ne_zero (c : UInt8) : shownChar c ≠ 0 := by
  unfold shownChar
  split
  · next h =>
    have hlow := UInt8.le_iff_toNat_le.mp h.1
    intro hzero
    rw [hzero] at hlow
    exact absurd hlow (by decide)
  · decide

theorem mem_cellText_ne_zero (byte : Option UInt8) : ∀ v ∈ cellText byte, v ≠ 0 := by
  cases byte with
  | none => decide
  | some c =>
    rw [cellText, List.forall_mem_append]
    refine ⟨fun v hv => ?_, by decide⟩
    have := mem_hexPadded hv
    omega

/-- No line is cut short by a NUL. -/
theorem mem_lineText_ne_zero (bytes : List UInt8) (i : Nat) : ∀ v ∈ lineText bytes i, v ≠ 0 := by
  have hoffset : ∀ v ∈ offsetText i, v ≠ 0 := by
    rw [offsetText, List.forall_mem_append]
    refine ⟨fun v hv => ?_, by decide⟩
    have := mem_hexPadded hv
    omega
  have hcells : ∀ v ∈ (List.range 16).flatMap (fun j => cellText bytes[i + j]?), v ≠ 0 := by
    intro v hv
    obtain ⟨j, -, hcell⟩ := List.mem_flatMap.mp hv
    exact mem_cellText_ne_zero _ v hcell
  have hshown : ∀ v ∈ (lineBytes bytes i).map shownChar, v ≠ 0 := by
    intro v hv
    obtain ⟨c, -, rfl⟩ := List.mem_map.mp hv
    exact shownChar_ne_zero c
  unfold lineText
  simp only [List.forall_mem_append]
  exact ⟨⟨⟨⟨hoffset, hcells⟩, by decide⟩, hshown⟩, by decide⟩

/-- The bytes that a line shows. -/
def dumpedBytes (line : List Nat) : List Nat :=
  ((readLine line).map fun d => d.cells.reduceOption).getD []

/-- More fuel does not change the lines. -/
theorem hexdumpLoop_mono {fuel fuel' i : Nat} {line : CharBuf 100} {lines : List (CharBuf 100)}
    (h : hexdumpLoop bytes fuel i line = some lines) (hle : fuel ≤ fuel') :
    hexdumpLoop bytes fuel' i line = some lines := by
  induction fuel generalizing fuel' i line lines with
  | zero => cases h
  | succ fuel ih =>
    obtain ⟨fuel', rfl⟩ : ∃ f, fuel' = f + 1 := ⟨fuel' - 1, by omega⟩
    rw [hexdumpLoop] at h ⊢
    split at h
    · next hi =>
      obtain ⟨rest, hrest, hlines⟩ := Option.map_eq_some_iff.mp h
      rw [if_pos hi]
      dsimp only
      rw [ih hrest (by omega), Option.map_some, hlines]
    · next hi => rw [if_neg hi, h]

theorem reduceOption_range {α : Type*} (l : List α) (n : Nat) :
    ((List.range n).map fun j => l[j]?).reduceOption = l.take n := by
  induction n with
  | zero => rfl
  | succ n ih =>
    rw [List.range_succ, List.map_append, List.reduceOption_append, ih, List.map_singleton,
      List.reduceOption_singleton, List.take_add_one]

/-- The cells of a line show its bytes, in order. -/
theorem reduceOption_cells (bytes : List UInt8) (i : Nat) :
    (dumpLine bytes i).cells.reduceOption = (lineBytes bytes i).map UInt8.toNat := by
  have hcells : (dumpLine bytes i).cells =
      ((List.range 16).map fun j => (bytes.drop i)[j]?).map (Option.map UInt8.toNat) := by
    rw [List.map_map]
    apply List.map_congr_left
    intro j _
    rw [Function.comp, List.getElem?_drop]
  rw [hcells, List.reduceOption_map, reduceOption_range, lineBytes]

theorem flatMap_lineBytes (bytes : List UInt8) (n : Nat) :
    (List.range n).flatMap (fun k => lineBytes bytes (16 * k)) = bytes.take (16 * n) := by
  induction n with
  | zero => rw [Nat.mul_zero, List.take_zero]; rfl
  | succ n ih =>
    rw [List.range_succ, List.flatMap_append, ih, List.flatMap_singleton, lineBytes, Nat.mul_succ,
      List.take_add]

end Lines

/-- A hex dump can be read back. It ends, with one line for each sixteen bytes; no line leaves the
buffer; line `k` shows the offset, the bytes and the characters from `16 * k` on; and the bytes of
all lines are the data. -/
theorem tlkLogHexdump_reads_back (bytes : List UInt8) (line : CharBuf 100)
    (hpos : 1 ≤ bytes.length) (hlen : bytes.length ≤ 2 ^ 32 - 16) (hline : line.inside = true) :
    ∃ lines, (∀ fuel, (bytes.length + 15) / 16 < fuel →
        tlkLogHexdump (some bytes) fuel line = some lines) ∧
      lines.length = (bytes.length + 15) / 16 ∧
      (∀ k < lines.length, ∃ b, lines[k]? = some b ∧ b.inside = true ∧
        readLine b.asString = some (dumpLine bytes (16 * k))) ∧
      lines.flatMap (fun b => dumpedBytes b.asString) = bytes.map UInt8.toNat := by
  obtain ⟨lines, hlines, hcount, hall⟩ := @hexdumpLoop_lines bytes hlen ((bytes.length + 15) / 16) 0
    ((bytes.length + 15) / 16 + 1) line (by omega) (fun m hm => by omega) (Nat.lt_succ_self _) hline
  have hread : ∀ k < lines.length, ∃ b, lines[k]? = some b ∧ b.inside = true ∧
      readLine b.asString = some (dumpLine bytes (16 * k)) := by
    intro k hk
    obtain ⟨b, hb, hholds⟩ := hall k (hcount ▸ hk)
    rw [Nat.zero_add] at hholds
    refine ⟨b, hb, hholds.inside, ?_⟩
    rw [hholds.asString_eq (mem_lineText_ne_zero bytes _)]
    exact readLine_lineText (by omega)
  refine ⟨lines, ?_, hcount, hread, ?_⟩
  · intro fuel hfuel
    rw [tlkLogHexdump, if_neg (by omega)]
    exact hexdumpLoop_mono hlines hfuel
  · have hbytes : lines.map (fun b => dumpedBytes b.asString) =
        (List.range lines.length).map fun k => (lineBytes bytes (16 * k)).map UInt8.toNat := by
      apply List.ext_getElem (by rw [List.length_map, List.length_map, List.length_range])
      intro k hk _
      rw [List.length_map] at hk
      obtain ⟨b, hb, -, hline⟩ := hread k hk
      rw [List.getElem?_eq_getElem hk, Option.some.injEq] at hb
      rw [List.getElem_map, List.getElem_map, List.getElem_range, hb, dumpedBytes, hline,
        Option.map_some, Option.getD_some, reduceOption_cells]
    rw [List.flatMap_def, hbytes, ← List.flatMap_def, ← List.map_flatMap, flatMap_lineBytes, hcount,
      List.take_of_length_le (by omega)]

/-- Seventeen bytes make two lines, the second one with fifteen blank cells. -/
theorem tlkLogHexdump_reads_back_seventeen :
    let bytes : List UInt8 := List.replicate 16 0x41 ++ [0x0A]
    ∃ lines, (∀ fuel, (bytes.length + 15) / 16 < fuel →
        tlkLogHexdump (some bytes) fuel (CharBuf.zeros 100) = some lines) ∧
      lines.length = (bytes.length + 15) / 16 ∧
      (∀ k < lines.length, ∃ b, lines[k]? = some b ∧ b.inside = true ∧
        readLine b.asString = some (dumpLine bytes (16 * k))) ∧
      lines.flatMap (fun b => dumpedBytes b.asString) = bytes.map UInt8.toNat :=
  tlkLogHexdump_reads_back (List.replicate 16 0x41 ++ [0x0A]) (CharBuf.zeros 100) (by decide)
    (by decide) rfl

end UniSdk.Log

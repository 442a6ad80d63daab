import Mathlib.Algebra.Order.Ring.Nat
import Mathlib.Data.List.Basic

/-!
# The base64 codec of the boot serial port

`base64_encode` and `base64_decode` are independent bit packers: three bytes make a 24-bit word
that is cut into four sextets, and four sextets make the word again. Both loops run over what
is left of their input, so the induction is over the input three bytes at a time, with one case
for each remainder.
-/

namespace UniSdk.Mcuboot

/-- `b64_alphabet`. -/
def b64Alphabet : List Char :=
  ['A', 'B', 'C', 'D', 'E', 'F', 'G', 'H', 'I', 'J', 'K', 'L', 'M', 'N', 'O', 'P', 'Q', 'R', 'S',
    'T', 'U', 'V', 'W', 'X', 'Y', 'Z',
    'a', 'b', 'c', 'd', 'e', 'f', 'g', 'h', 'i', 'j', 'k', 'l', 'm', 'n', 'o', 'p', 'q', 'r', 's',
    't', 'u', 'v', 'w', 'x', 'y', 'z',
    '0', '1', '2', '3', '4', '5', '6', '7', '8', '9', '+', '/']

/-- `b64_alphabet[k]`, which the encoder reads below 64 only. -/
def b64Char (k : Nat) : Char := b64Alphabet.getD k '\x00'

/-- `(v >> shift) & 0x3F`. -/
def sextet (v shift : Nat) : Nat := (v >>> shift) &&& 0x3F

/-- The characters for the bytes from `i` on: the loop while three are left, then the rest. -/
def encodeFrom : List UInt8 → List Char
  | a :: b :: c :: src =>
    let v := (a.toNat <<< 16) ||| (b.toNat <<< 8) ||| c.toNat
    b64Char (sextet v 18) :: b64Char (sextet v 12) :: b64Char (sextet v 6) ::
      b64Char (sextet v 0) :: encodeFrom src
  | [a, b] =>
    let v := (a.toNat <<< 16) ||| (b.toNat <<< 8)
    [b64Char (sextet v 18), b64Char (sextet v 12), b64Char (sextet v 6), '=']
  | [a] =>
    let v := a.toNat <<< 16
    [b64Char (sextet v 18), b64Char (sextet v 12), '=', '=']
  | [] => []

/-- What is written at `out`, from its start on without a gap, and the result. -/
def base64Encode (src : List UInt8) (addNullTerm : Bool) : List Char × Nat :=
  let out := encodeFrom src
  (if addNullTerm then out ++ ['\x00'] else out, out.length)

/-- `BASE64_ENCODE_SIZE`. -/
def base64EncodeSize (inSize : Nat) : Nat := (((inSize - 1) / 3) * 4) + 4 + 1

def b64Val (c : Char) : Int :=
  if 'A' ≤ c ∧ c ≤ 'Z' then (c.toNat : Int) - 'A'.toNat
  else if 'a' ≤ c ∧ c ≤ 'z' then (c.toNat : Int) - 'a'.toNat + 26
  else if '0' ≤ c ∧ c ≤ '9' then (c.toNat : Int) - '0'.toNat + 52
  else if c = '+' then 62
  else if c = '/' then 63
  else -1

/-- The number of characters before the first NUL; `none` where the memory at `in` has none. -/
def b64Strlen : List Char → Option Nat
  | [] => none
  | c :: mem => if c = '\x00' then some 0 else (b64Strlen mem).map (· + 1)

def base64DecodeLen (mem : List Char) : Option Int :=
  (b64Strlen mem).map fun len =>
    if len = 0 ∨ len % 4 ≠ 0 then -1
    else
      let pad : Int := if mem[len - 1]? = some '=' then 1 else 0
      let pad := if mem[len - 2]? = some '=' then pad + 1 else pad
      ((len / 4) * 3 : Nat) - pad

/-- The loop of `base64_decode` over the characters from `i` on: what has been written at `out`,
and the result. -/
def decodeFrom : List Char → List UInt8 → List UInt8 × Int
  | c0 :: c1 :: c2 :: c3 :: chars, dst =>
    let pad2 := c2 = '='
    let pad3 := c3 = '='
    let v0 := b64Val c0
    let v1 := b64Val c1
    let v2 := if pad2 then 0 else b64Val c2
    let v3 := if pad3 then 0 else b64Val c3
    if v0 < 0 ∨ v1 < 0 ∨ (¬ pad2 ∧ v2 < 0) ∨ (¬ pad3 ∧ v3 < 0) then (dst, -1)
    else
      let triple :=
        (v0.toNat <<< 18) ||| (v1.toNat <<< 12) ||| (v2.toNat <<< 6) ||| v3.toNat
      let dst := dst ++ [UInt8.ofNat (triple >>> 16)]
      let dst := if ¬ pad2 then dst ++ [UInt8.ofNat (triple >>> 8)] else dst
      let dst := if ¬ pad3 then dst ++ [UInt8.ofNat triple] else dst
      decodeFrom chars dst
  | _, dst => (dst, dst.length)

/-- `mem` is the memory at `in`. -/
def base64Decode (mem : List Char) : Option (List UInt8 × Int) :=
  (b64Strlen mem).map fun len =>
    if len = 0 ∨ len % 4 ≠ 0 then ([], -1) else decodeFrom (mem.take len) []

/-! ## Sextets -/

theorem sextet_eq (v shift : Nat) : sextet v shift = v / 2 ^ shift % 64 := by
  rw [sextet, Nat.shiftRight_eq_div_pow]
  exact Nat.and_two_pow_sub_one_eq_mod _ 6

theorem sextet_lt (v shift : Nat) : sextet v shift < 64 := by
  rw [sextet_eq]
  exact Nat.mod_lt _ (by decide)

/-- A character of the alphabet stands for its sextet, and is neither padding nor NUL. -/
theorem alphabet_val : ∀ k : Fin 64,
    b64Val (b64Char k) = k.val ∧ b64Char k ≠ '=' ∧ b64Char k ≠ '\x00' := by
  decide +kernel

theorem val_char {k : Nat} (h : k < 64) : b64Val (b64Char k) = k := (alphabet_val ⟨k, h⟩).1

theorem char_ne_pad {k : Nat} (h : k < 64) : b64Char k ≠ '=' := (alphabet_val ⟨k, h⟩).2.1

theorem char_ne_nul {k : Nat} (h : k < 64) : b64Char k ≠ '\x00' := (alphabet_val ⟨k, h⟩).2.2

/-- Fields that do not overlap are joined by addition. -/
theorem join_fields {a b i : Nat} (h : b < 2 ^ i) : (a <<< i) ||| b = a * 2 ^ i + b := by
  rw [← Nat.shiftLeft_add_eq_or_of_lt h, Nat.shiftLeft_eq]

/-- The word of three bytes. -/
theorem join_bytes {a b c : Nat} (hb : b < 256) (hc : c < 256) :
    (a <<< 16) ||| (b <<< 8) ||| c = a * 65536 + b * 256 + c := by
  have hinner : (b <<< 8) ||| c = b * 256 + c := join_fields hc
  rw [Nat.or_assoc, hinner, join_fields (by omega)]
  omega

/-- The word of four sextets. -/
theorem join_sextets {v : Nat} (hv : v < 2 ^ 24) :
    (sextet v 18 <<< 18) ||| (sextet v 12 <<< 12) ||| (sextet v 6 <<< 6) ||| sextet v 0 = v := by
  have h0 := sextet_lt v 0
  have h1 : (sextet v 6 <<< 6) ||| sextet v 0 = sextet v 6 * 64 + sextet v 0 := join_fields h0
  have h2 : (sextet v 12 <<< 12) ||| (sextet v 6 * 64 + sextet v 0) =
      sextet v 12 * 4096 + (sextet v 6 * 64 + sextet v 0) := by
    have h6 := sextet_lt v 6
    exact join_fields (by omega)
  have h3 : (sextet v 18 <<< 18) ||| (sextet v 12 * 4096 + (sextet v 6 * 64 + sextet v 0)) =
      sextet v 18 * 262144 + (sextet v 12 * 4096 + (sextet v 6 * 64 + sextet v 0)) := by
    have h6 := sextet_lt v 6
    have h12 := sextet_lt v 12
    exact join_fields (by omega)
  rw [Nat.or_assoc, Nat.or_assoc, h1, h2, h3]
  simp only [sextet_eq]
  omega

/-- A byte of the word. -/
theorem byte_of_word {n : Nat} {a : UInt8} (h : n % 256 = a.toNat) : UInt8.ofNat n = a := by
  apply UInt8.toNat.inj
  rw [UInt8.toNat_ofNat']
  exact h

/-! ## The round trip -/

/-- A full group: its characters are decoded to its bytes. -/
theorem decode_triple (a b c : UInt8) (chars : List Char) (dst : List UInt8) :
    decodeFrom (encodeFrom [a, b, c] ++ chars) dst = decodeFrom chars (dst ++ [a, b, c]) := by
  have ha := a.toNat_lt
  have hb := b.toNat_lt
  have hc := c.toNat_lt
  have hv := join_bytes (a := a.toNat) hb hc
  have hword := join_sextets (v := a.toNat <<< 16 ||| b.toNat <<< 8 ||| c.toNat) (by omega)
  simp only [encodeFrom, List.cons_append, List.nil_append, decodeFrom]
  simp only [char_ne_pad (sextet_lt _ _), val_char (sextet_lt _ _), if_false, not_false_eq_true,
    if_true, Int.toNat_natCast, hword]
  rw [if_neg (by omega), hv]
  have h2 : UInt8.ofNat ((a.toNat * 65536 + b.toNat * 256 + c.toNat) >>> 16) = a :=
    byte_of_word (by rw [Nat.shiftRight_eq_div_pow]; omega)
  have h1 : UInt8.ofNat ((a.toNat * 65536 + b.toNat * 256 + c.toNat) >>> 8) = b :=
    byte_of_word (by rw [Nat.shiftRight_eq_div_pow]; omega)
  have h0 : UInt8.ofNat (a.toNat * 65536 + b.toNat * 256 + c.toNat) = c :=
    byte_of_word (by omega)
  rw [h2, h1, h0, List.append_assoc, List.append_assoc]
  rfl

/-- Two bytes: the padding stands for the empty last sextet. -/
theorem decode_pair (a b : UInt8) (dst : List UInt8) :
    decodeFrom (encodeFrom [a, b]) dst = (dst ++ [a, b], ((dst ++ [a, b]).length : Int)) := by
  have ha := a.toNat_lt
  have hb := b.toNat_lt
  have hv : a.toNat <<< 16 ||| b.toNat <<< 8 = a.toNat * 65536 + b.toNat * 256 := by
    have hbytes := join_bytes (a := a.toNat) hb (show 0 < 256 by decide)
    simpa using hbytes
  have hword := join_sextets (v := a.toNat <<< 16 ||| b.toNat <<< 8) (by omega)
  have hempty : sextet (a.toNat <<< 16 ||| b.toNat <<< 8) 0 = 0 := by
    rw [hv, sextet_eq]
    omega
  rw [hempty] at hword
  simp only [encodeFrom, decodeFrom]
  simp only [char_ne_pad (sextet_lt _ _), val_char (sextet_lt _ _), if_false, not_false_eq_true,
    if_true, not_true_eq_false, Int.toNat_natCast, Int.toNat_zero, hword]
  rw [if_neg (by omega), hv]
  have h2 : UInt8.ofNat ((a.toNat * 65536 + b.toNat * 256) >>> 16) = a :=
    byte_of_word (by rw [Nat.shiftRight_eq_div_pow]; omega)
  have h1 : UInt8.ofNat ((a.toNat * 65536 + b.toNat * 256) >>> 8) = b :=
    byte_of_word (by rw [Nat.shiftRight_eq_div_pow]; omega)
  rw [h2, h1, List.append_assoc]
  rfl

/-- One byte: the padding stands for the two empty sextets. -/
theorem decode_single (a : UInt8) (dst : List UInt8) :
    decodeFrom (encodeFrom [a]) dst = (dst ++ [a], ((dst ++ [a]).length : Int)) := by
  have ha := a.toNat_lt
  have hv : a.toNat <<< 16 = a.toNat * 65536 := Nat.shiftLeft_eq _ _
  have hword := join_sextets (v := a.toNat <<< 16) (by omega)
  have h6 : sextet (a.toNat <<< 16) 6 = 0 := by
    rw [hv, sextet_eq]
    omega
  have h0 : sextet (a.toNat <<< 16) 0 = 0 := by
    rw [hv, sextet_eq]
    omega
  rw [h6, h0] at hword
  simp only [encodeFrom, decodeFrom]
  simp only [val_char (sextet_lt _ _), if_false, if_true, not_true_eq_false, Int.toNat_natCast,
    Int.toNat_zero, hword]
  rw [if_neg (by omega), hv]
  have h2 : UInt8.ofNat ((a.toNat * 65536) >>> 16) = a :=
    byte_of_word (by rw [Nat.shiftRight_eq_div_pow]; omega)
  rw [h2]

theorem encode_triple (a b c : UInt8) (src : List UInt8) :
    encodeFrom (a :: b :: c :: src) = encodeFrom [a, b, c] ++ encodeFrom src := rfl

theorem decode_encode (src dst : List UInt8) :
    decodeFrom (encodeFrom src) dst = (dst ++ src, ((dst ++ src).length : Int)) := by
  induction src using encodeFrom.induct generalizing dst with
  | case1 a b c src ih =>
    rw [encode_triple, decode_triple, ih, List.append_assoc]
    rfl
  | case2 a b => exact decode_pair a b dst
  | case3 a => exact decode_single a dst
  | case4 =>
    rw [List.append_nil]
    rfl

theorem encode_length (src : List UInt8) :
    (encodeFrom src).length = 4 * ((src.length + 2) / 3) := by
  induction src using encodeFrom.induct with
  | case1 a b c src ih =>
    rw [encode_triple, List.length_append, ih]
    simp only [List.length_cons]
    show 4 + 4 * ((src.length + 2) / 3) = _
    omega
  | case2 a b => simp [encodeFrom]
  | case3 a => simp [encodeFrom]
  | case4 => rfl

theorem encode_no_nul (src : List UInt8) : ∀ ch ∈ encodeFrom src, ch ≠ '\x00' := by
  have hpad : '=' ≠ '\x00' := by decide
  induction src using encodeFrom.induct with
  | case1 a b c src ih =>
    rw [encode_triple]
    intro ch hch
    rcases List.mem_append.mp hch with hgroup | hrest
    · simp only [encodeFrom, List.mem_cons, List.not_mem_nil, or_false] at hgroup
      rcases hgroup with rfl | rfl | rfl | rfl <;> exact char_ne_nul (sextet_lt _ _)
    · exact ih ch hrest
  | case2 a b =>
    intro ch hch
    simp only [encodeFrom, List.mem_cons, List.not_mem_nil, or_false] at hch
    rcases hch with rfl | rfl | rfl | rfl
    · exact char_ne_nul (sextet_lt _ _)
    · exact char_ne_nul (sextet_lt _ _)
    · exact char_ne_nul (sextet_lt _ _)
    · exact hpad
  | case3 a =>
    intro ch hch
    simp only [encodeFrom, List.mem_cons, List.not_mem_nil, or_false] at hch
    rcases hch with rfl | rfl | rfl | rfl
    · exact char_ne_nul (sextet_lt _ _)
    · exact char_ne_nul (sextet_lt _ _)
    · exact hpad
    · exact hpad
  | case4 => exact fun _ hch => absurd hch List.not_mem_nil

/-- The last two characters tell how many bytes the last group has. -/
theorem encode_padding {src : List UInt8} (h : src ≠ []) :
    ∃ front c2 c3, encodeFrom src = front ++ [c2, c3] ∧
      (c3 = '=' ↔ src.length % 3 ≠ 0) ∧ (c2 = '=' ↔ src.length % 3 = 1) := by
  induction src using encodeFrom.induct with
  | case1 a b c src ih =>
    rw [encode_triple]
    by_cases hsrc : src = []
    · subst hsrc
      let v := a.toNat <<< 16 ||| b.toNat <<< 8 ||| c.toNat
      refine ⟨[b64Char (sextet v 18), b64Char (sextet v 12)], b64Char (sextet v 6),
        b64Char (sextet v 0), rfl, ?_, ?_⟩
      · exact iff_of_false (char_ne_pad (sextet_lt _ _)) (by simp)
      · exact iff_of_false (char_ne_pad (sextet_lt _ _)) (by simp)
    · obtain ⟨front, c2, c3, hsplit, h3, h2⟩ := ih hsrc
      refine ⟨encodeFrom [a, b, c] ++ front, c2, c3, ?_, ?_, ?_⟩
      · rw [hsplit, List.append_assoc]
      · rw [h3]
        simp only [List.length_cons]
        omega
      · rw [h2]
        simp only [List.length_cons]
        omega
  | case2 a b =>
    let v := a.toNat <<< 16 ||| b.toNat <<< 8
    refine ⟨[b64Char (sextet v 18), b64Char (sextet v 12)], b64Char (sextet v 6), '=', ?_,
      iff_of_true rfl (by simp), ?_⟩
    · rw [encodeFrom]
      rfl
    · exact iff_of_false (char_ne_pad (sextet_lt _ _)) (by simp)
  | case3 a =>
    let v := a.toNat <<< 16
    refine ⟨[b64Char (sextet v 18), b64Char (sextet v 12)], '=', '=', ?_,
      iff_of_true rfl (by simp), iff_of_true rfl (by simp)⟩
    rw [encodeFrom]
    rfl
  | case4 => exact absurd rfl h

/-- The string ends at its first NUL, whatever follows. -/
theorem strlen_of_no_nul {s : List Char} (h : ∀ ch ∈ s, ch ≠ '\x00') (tail : List Char) :
    b64Strlen (s ++ '\x00' :: tail) = some s.length := by
  induction s with
  | nil => rfl
  | cons ch s ih =>
    have hs := ih fun c hc => h c (List.mem_cons_of_mem _ hc)
    rw [List.cons_append, b64Strlen, if_neg (h ch List.mem_cons_self), hs]
    rfl

theorem decodeLen_encode {src : List UInt8} (h : src ≠ []) (tail : List Char) :
    base64DecodeLen (encodeFrom src ++ '\x00' :: tail) = some (src.length : Int) := by
  obtain ⟨front, c2, c3, hsplit, h3, h2⟩ := encode_padding h
  have hlength := encode_length src
  have hpos : 0 < src.length := List.length_pos_iff.mpr h
  have hfront : front.length + 2 = 4 * ((src.length + 2) / 3) := by
    rw [← hlength, hsplit, List.length_append]
    rfl
  rw [base64DecodeLen, strlen_of_no_nul (encode_no_nul src), Option.map_some, hlength,
    if_neg (by omega)]
  have hlast : (encodeFrom src ++ '\x00' :: tail)[4 * ((src.length + 2) / 3) - 1]? = some c3 := by
    have hindex : 4 * ((src.length + 2) / 3) - 1 = front.length + 1 := by omega
    rw [hindex, hsplit, List.append_assoc, List.getElem?_append_right (Nat.le_succ _)]
    simp
  have hbefore : (encodeFrom src ++ '\x00' :: tail)[4 * ((src.length + 2) / 3) - 2]? = some c2 := by
    have hindex : 4 * ((src.length + 2) / 3) - 2 = front.length := by omega
    rw [hindex, hsplit, List.append_assoc, List.getElem?_append_right (Nat.le_refl _)]
    simp
  rw [hlast, hbefore]
  simp only [Option.some.injEq, h3, h2]
  split <;> split <;> omega

/-- `INT_MAX`. -/
def INT_MAX : Nat := 2 ^ 31 - 1

/-- Decoding undoes encoding, for every byte string and whatever lies behind the terminator. No
count leaves the range of `int`. -/
theorem base64_round_trip (x : List UInt8) (tail : List Char) (hx : x ≠ [])
    (hlen : x.length < INT_MAX / 2) :
    (base64Encode x true).1.length = base64EncodeSize x.length ∧
    (base64Encode x true).1.getLast? = some '\x00' ∧
    (base64Encode x true).2 + 1 = base64EncodeSize x.length ∧
    base64EncodeSize x.length ≤ INT_MAX ∧
    base64DecodeLen ((base64Encode x true).1 ++ tail) = some (x.length : Int) ∧
    base64Decode ((base64Encode x true).1 ++ tail) = some (x, (x.length : Int)) := by
  have hpos : 0 < x.length := List.length_pos_iff.mpr hx
  have hlength := encode_length x
  have hmem : (base64Encode x true).1 ++ tail = encodeFrom x ++ '\x00' :: tail := by
    simp [base64Encode]
  have hsize : (encodeFrom x).length + 1 = base64EncodeSize x.length := by
    rw [hlength]
    unfold base64EncodeSize
    omega
  refine ⟨?_, ?_, hsize, ?_, ?_, ?_⟩
  · simpa [base64Encode] using hsize
  · simp [base64Encode]
  · rw [← hsize, hlength]
    simp only [INT_MAX] at hlen ⊢
    omega
  · rw [hmem]
    exact decodeLen_encode hx tail
  · rw [hmem, base64Decode, strlen_of_no_nul (encode_no_nul x), Option.map_some,
      if_neg (by omega), List.take_left, decode_encode]
    rfl

theorem base64_round_trip_pair :
    base64Decode ((base64Encode [0, 255] true).1 ++ ['?']) = some ([0, 255], 2) :=
  (base64_round_trip [0, 255] ['?'] (List.cons_ne_nil _ _) (by decide)).2.2.2.2.2

end UniSdk.Mcuboot

import UniSdk.Mcuboot.Base64

/-!
# What the base64 decoder accepts

The decoder takes its input in groups of four and looks at each group alone, while
`base64_decode_len` looks at the last two characters only. Here a group is one definition, the
loop runs over groups, and what the loop writes is compared with what was announced and with what
the encoder would have written.
-/

namespace UniSdk.Mcuboot

/-- The sextet a character stands for in the third and fourth place of a group. -/
def padVal (c : Char) : Int := if c = '=' then 0 else b64Val c

theorem refused_iff (c : Char) :
    (¬ c = '=' ∧ (if c = '=' then 0 else b64Val c) < 0) ↔ padVal c < 0 := by
  unfold padVal
  by_cases h : c = '=' <;> simp [h]

/-- The checks of one group. -/
def GroupOk (c0 c1 c2 c3 : Char) : Prop :=
  0 ≤ b64Val c0 ∧ 0 ≤ b64Val c1 ∧ 0 ≤ padVal c2 ∧ 0 ≤ padVal c3

instance (c0 c1 c2 c3 : Char) : Decidable (GroupOk c0 c1 c2 c3) := by
  unfold GroupOk
  infer_instance

/-- The 24 bits of one group. -/
def groupWord (c0 c1 c2 c3 : Char) : Nat :=
  ((b64Val c0).toNat <<< 18) ||| ((b64Val c1).toNat <<< 12) ||| ((padVal c2).toNat <<< 6) |||
    (padVal c3).toNat

/-- The bytes one group leaves: padding suppresses the byte in its own place. -/
def groupBytes (c0 c1 c2 c3 : Char) : List UInt8 :=
  let word := groupWord c0 c1 c2 c3
  UInt8.ofNat (word >>> 16) :: ((if c2 = '=' then [] else [UInt8.ofNat (word >>> 8)]) ++
    (if c3 = '=' then [] else [UInt8.ofNat word]))

/-- The loop of the decoder, one group at a time. -/
theorem decodeFrom_group (c0 c1 c2 c3 : Char) (chars : List Char) (dst : List UInt8) :
    decodeFrom (c0 :: c1 :: c2 :: c3 :: chars) dst =
      if GroupOk c0 c1 c2 c3 then decodeFrom chars (dst ++ groupBytes c0 c1 c2 c3)
      else (dst, -1) := by
  have hok : (b64Val c0 < 0 ∨ b64Val c1 < 0 ∨
      (¬ c2 = '=' ∧ (if c2 = '=' then 0 else b64Val c2) < 0) ∨
      (¬ c3 = '=' ∧ (if c3 = '=' then 0 else b64Val c3) < 0)) ↔ ¬ GroupOk c0 c1 c2 c3 := by
    rw [refused_iff, refused_iff, GroupOk]
    omega
  rw [decodeFrom]
  by_cases hgroup : GroupOk c0 c1 c2 c3
  · rw [if_neg (fun h => hok.mp h hgroup), if_pos hgroup]
    unfold groupBytes groupWord padVal
    by_cases h2 : c2 = '=' <;> by_cases h3 : c3 = '=' <;>
      simp only [h2, h3, if_true, if_false, not_true_eq_false, not_false_eq_true, List.append_assoc,
        List.nil_append, List.append_nil, List.cons_append]
  · rw [if_pos (hok.mpr hgroup), if_neg hgroup]

theorem decodeFrom_nil (dst : List UInt8) : decodeFrom [] dst = (dst, (dst.length : Int)) := rfl

/-- What the decoder returns is how many bytes it has written, or an error. -/
theorem decodeFrom_result (chars : List Char) (dst : List UInt8) :
    (decodeFrom chars dst).2 = -1 ∨
      (decodeFrom chars dst).2 = ((decodeFrom chars dst).1.length : Int) := by
  fun_induction decodeFrom chars dst with
  | case1 => exact Or.inl rfl
  | case2 _ _ _ _ _ _ _ _ _ _ _ _ _ _ _ _ _ ih => exact ih
  | case3 => exact Or.inr rfl

/-! ## The announced length -/

/-- Padding signs among the last two characters. -/
def padCount (chars : List Char) : Nat :=
  (if chars[chars.length - 1]? = some '=' then 1 else 0) +
    (if chars[chars.length - 2]? = some '=' then 1 else 0)

theorem padCount_le (chars : List Char) : padCount chars ≤ 2 := by
  unfold padCount
  split <;> split <;> decide

theorem padCount_group (chars : List Char) (h : 4 ≤ chars.length) (c0 c1 c2 c3 : Char) :
    padCount (c0 :: c1 :: c2 :: c3 :: chars) = padCount chars := by
  have hlast : chars.length + 4 - 1 = chars.length - 1 + 4 := by omega
  have hbefore : chars.length + 4 - 2 = chars.length - 2 + 4 := by omega
  simp only [padCount, List.length_cons, hlast, hbefore, List.getElem?_cons_succ]

theorem length_groupBytes (c0 c1 c2 c3 : Char) :
    (groupBytes c0 c1 c2 c3).length + padCount [c0, c1, c2, c3] = 3 := by
  unfold groupBytes padCount
  by_cases h2 : c2 = '=' <;> by_cases h3 : c3 = '=' <;> simp [h2, h3]

/-- Whole groups never leave more than the last of them announces, also when a later one is
refused. -/
theorem length_decodeFrom : ∀ (chars : List Char) (dst : List UInt8), chars ≠ [] →
    chars.length % 4 = 0 →
    (decodeFrom chars dst).1.length + padCount chars ≤ dst.length + chars.length / 4 * 3
  | [c0, c1, c2, c3], dst, _, _ => by
    have hgroup := length_groupBytes c0 c1 c2 c3
    rw [decodeFrom_group]
    split
    · simp only [decodeFrom_nil, List.length_append, List.length_cons, List.length_nil]
      omega
    · simp only [List.length_cons, List.length_nil]
      omega
  | c0 :: c1 :: c2 :: c3 :: c4 :: chars, dst, _, hlength => by
    simp only [List.length_cons] at hlength
    have hpad := padCount_group (c4 :: chars) (by rw [List.length_cons]; omega) c0 c1 c2 c3
    have hgroup := length_groupBytes c0 c1 c2 c3
    have hrest := length_decodeFrom (c4 :: chars) (dst ++ groupBytes c0 c1 c2 c3)
      (List.cons_ne_nil _ _) (by rw [List.length_cons]; omega)
    have hle := padCount_le (c4 :: chars)
    rw [decodeFrom_group, hpad]
    simp only [List.length_append, List.length_cons] at hrest ⊢
    split
    · omega
    · dsimp only
      omega

/-- `base64_decode_len` and `base64_decode` on a string with its terminator. -/
theorem base64DecodeLen_eq {s : List Char} (hs : ∀ ch ∈ s, ch ≠ '\x00') (tail : List Char) :
    base64DecodeLen (s ++ '\x00' :: tail) = some
      (if s.length = 0 ∨ s.length % 4 ≠ 0 then -1
      else ((s.length / 4 * 3 : Nat) : Int) - padCount s) := by
  rw [base64DecodeLen, strlen_of_no_nul hs, Option.map_some]
  congr 1
  by_cases hbad : s.length = 0 ∨ s.length % 4 ≠ 0
  · rw [if_pos hbad, if_pos hbad]
  · have hlast : (s ++ '\x00' :: tail)[s.length - 1]? = s[s.length - 1]? :=
      List.getElem?_append_left (by omega)
    have hbefore : (s ++ '\x00' :: tail)[s.length - 2]? = s[s.length - 2]? :=
      List.getElem?_append_left (by omega)
    rw [if_neg hbad, if_neg hbad, hlast, hbefore, padCount]
    split <;> split <;> (dsimp only; omega)

theorem base64Decode_eq {s : List Char} (hs : ∀ ch ∈ s, ch ≠ '\x00') (tail : List Char) :
    base64Decode (s ++ '\x00' :: tail) = some
      (if s.length = 0 ∨ s.length % 4 ≠ 0 then ([], -1) else decodeFrom s []) := by
  rw [base64Decode, strlen_of_no_nul hs, Option.map_some, List.take_left]

/-- Whatever the string, the decoder stays inside what was announced, and what is announced as
undecodable is refused before anything is written. -/
theorem base64Decode_within (s tail : List Char) (hs : ∀ ch ∈ s, ch ≠ '\x00')
    (hlen : s.length < INT_MAX) :
    ∃ n dst r, base64DecodeLen (s ++ '\x00' :: tail) = some n ∧
      base64Decode (s ++ '\x00' :: tail) = some (dst, r) ∧ n ≤ INT_MAX ∧
      (0 ≤ n ∧ (dst.length : Int) ≤ n ∨ n = -1 ∧ r = -1 ∧ dst = []) := by
  rw [base64DecodeLen_eq hs, base64Decode_eq hs]
  by_cases hbad : s.length = 0 ∨ s.length % 4 ≠ 0
  · rw [if_pos hbad, if_pos hbad]
    exact ⟨-1, [], -1, rfl, rfl, by decide, Or.inr ⟨rfl, rfl, rfl⟩⟩
  · have hne : s ≠ [] := fun h => hbad (Or.inl (List.length_eq_zero_iff.mpr h))
    have hwritten := length_decodeFrom s [] hne (by omega)
    have hpad := padCount_le s
    rw [if_neg hbad, if_neg hbad]
    refine ⟨_, _, _, rfl, rfl, by omega, Or.inl ⟨by omega, ?_⟩⟩
    rw [List.length_nil] at hwritten
    omega

/-- Padding in both groups: announced are five bytes, one is written before the refusal. -/
theorem base64Decode_within_example : ∃ n dst r,
    base64DecodeLen ['A', 'A', '=', '=', '=', 'A', 'A', '=', '\x00'] = some n ∧
      base64Decode ['A', 'A', '=', '=', '=', 'A', 'A', '=', '\x00'] = some (dst, r) ∧
      n ≤ INT_MAX ∧ (0 ≤ n ∧ (dst.length : Int) ≤ n ∨ n = -1 ∧ r = -1 ∧ dst = []) :=
  base64Decode_within ['A', 'A', '=', '=', '=', 'A', 'A', '='] [] (by simp) (by decide)

/-! ## Canonical strings -/

/-- What the encoder writes: full groups without padding, then a group whose padding and unused
bits are those of its length. -/
def Canonical : List Char → Prop
  | [] => True
  | [_, c1, c2, c3] =>
    (c2 = '=' → c3 = '=' ∧ b64Val c1 % 16 = 0) ∧ (c2 ≠ '=' → c3 = '=' → b64Val c2 % 4 = 0)
  | _ :: _ :: c2 :: c3 :: chars => c2 ≠ '=' ∧ c3 ≠ '=' ∧ Canonical chars
  | _ => False

theorem canonical_encode (src : List UInt8) : Canonical (encodeFrom src) := by
  have hpad : ∀ v shift, b64Char (sextet v shift) ≠ '=' := fun v shift =>
    char_ne_pad (sextet_lt v shift)
  induction src using encodeFrom.induct with
  | case1 a b c src ih =>
    rw [encodeFrom]
    generalize encodeFrom src = chars at ih
    cases chars with
    | nil => exact ⟨fun h => absurd h (hpad _ _), fun _ h => absurd h (hpad _ _)⟩
    | cons c4 chars => exact ⟨hpad _ _, hpad _ _, ih⟩
  | case2 a b =>
    have hb := b.toNat_lt
    have hbits : sextet (a.toNat <<< 16 ||| b.toNat <<< 8) 6 % 4 = 0 := by
      have hjoin := join_bytes (a := a.toNat) hb (show 0 < 256 by decide)
      rw [Nat.or_zero] at hjoin
      rw [hjoin, sextet_eq]
      omega
    refine ⟨fun h => absurd h (hpad _ _), fun _ _ => ?_⟩
    rw [val_char (sextet_lt _ _)]
    omega
  | case3 a =>
    have hbits : sextet (a.toNat <<< 16) 12 % 16 = 0 := by
      rw [Nat.shiftLeft_eq, sextet_eq]
      omega
    refine ⟨fun _ => ⟨rfl, ?_⟩, fun h => absurd rfl h⟩
    rw [val_char (sextet_lt _ _)]
    omega
  | case4 => trivial

/-- A character with a value is the one the alphabet has there. -/
theorem char_of_val {c : Char} (h : 0 ≤ b64Val c) : ∃ k < 64, c = b64Char k ∧ b64Val c = k := by
  have hsmall : c.toNat < 128 := by
    by_contra hbig
    have hle : ∀ d : Char, d.toNat < 128 → ¬ c ≤ d := fun d hd hcd =>
      hbig (Nat.lt_of_le_of_lt (UInt32.le_iff_toNat_le.mp (Char.le_def.mp hcd)) hd)
    have hne : ∀ d : Char, d.toNat < 128 → c ≠ d := fun d hd hcd => hle d hd (hcd ▸ Char.le_refl _)
    rw [b64Val, if_neg (fun h => hle 'Z' (by decide) h.2),
      if_neg (fun h => hle 'z' (by decide) h.2), if_neg (fun h => hle '9' (by decide) h.2),
      if_neg (hne '+' (by decide)), if_neg (hne '/' (by decide))] at h
    exact absurd h (by decide)
  have hall : ∀ i : Fin 128, 0 ≤ b64Val (Char.ofNat i) →
      (b64Val (Char.ofNat i)).toNat < 64 ∧
        Char.ofNat i = b64Char (b64Val (Char.ofNat i)).toNat := by
    decide +kernel
  have hc := hall ⟨c.toNat, hsmall⟩
  simp only [Char.ofNat_toNat] at hc
  exact ⟨_, (hc h).1, (hc h).2, (Int.toNat_of_nonneg h).symm⟩

/-- The word of a group, place by place. -/
theorem groupWord_eq {c0 c1 c2 c3 : Char} {k0 k1 k2 k3 : Nat} (h1 : k1 < 64) (h2 : k2 < 64)
    (h3 : k3 < 64) (hc0 : b64Val c0 = k0) (hc1 : b64Val c1 = k1) (hc2 : padVal c2 = k2)
    (hc3 : padVal c3 = k3) :
    groupWord c0 c1 c2 c3 = k0 * 262144 + k1 * 4096 + k2 * 64 + k3 := by
  have hlow : (k2 <<< 6) ||| k3 = k2 * 64 + k3 := join_fields h3
  have hmid : (k1 <<< 12) ||| (k2 * 64 + k3) = k1 * 4096 + (k2 * 64 + k3) := join_fields (by omega)
  rw [groupWord, hc0, hc1, hc2, hc3, Int.toNat_natCast, Int.toNat_natCast, Int.toNat_natCast,
    Int.toNat_natCast, Nat.or_assoc, Nat.or_assoc, hlow, hmid, join_fields (by omega)]
  omega

/-- A 24-bit word is its three bytes. -/
theorem word_bytes (word : Nat) (h : word < 2 ^ 24) :
    (UInt8.ofNat (word >>> 16)).toNat <<< 16 ||| (UInt8.ofNat (word >>> 8)).toNat <<< 8 |||
      (UInt8.ofNat word).toNat = word := by
  rw [join_bytes (UInt8.toNat_lt _) (UInt8.toNat_lt _)]
  simp only [UInt8.toNat_ofNat', Nat.shiftRight_eq_div_pow]
  omega

theorem sextets_of_word {word k0 k1 k2 k3 : Nat} (h0 : k0 < 64) (h1 : k1 < 64) (h2 : k2 < 64)
    (h3 : k3 < 64) (hword : word = k0 * 262144 + k1 * 4096 + k2 * 64 + k3) :
    sextet word 18 = k0 ∧ sextet word 12 = k1 ∧ sextet word 6 = k2 ∧ sextet word 0 = k3 := by
  simp only [sextet_eq]
  omega

theorem padVal_pad : padVal '=' = 0 := if_pos rfl

theorem padVal_of_ne {c : Char} (h : c ≠ '=') : padVal c = b64Val c := if_neg h

/-- A group that is as the encoder writes the last one is what its bytes are encoded to. -/
theorem encode_group {c0 c1 c2 c3 : Char} (hok : GroupOk c0 c1 c2 c3)
    (hcanonical : Canonical [c0, c1, c2, c3]) :
    encodeFrom (groupBytes c0 c1 c2 c3) = [c0, c1, c2, c3] := by
  obtain ⟨hok0, hok1, hok2, hok3⟩ := hok
  obtain ⟨hsingle, hpair⟩ := hcanonical
  obtain ⟨k0, hk0, hc0, hv0⟩ := char_of_val hok0
  obtain ⟨k1, hk1, hc1, hv1⟩ := char_of_val hok1
  by_cases h2 : c2 = '='
  · -- one byte: the low twelve bits of the word are empty
    obtain ⟨h3, hbits⟩ := hsingle h2
    subst h2 h3
    have hword := groupWord_eq hk1 (show 0 < 64 by decide) (show 0 < 64 by decide) hv0 hv1
      padVal_pad padVal_pad
    obtain ⟨h18, h12, _, _⟩ := sextets_of_word hk0 hk1 (by decide) (by decide) hword
    have hbyte : (UInt8.ofNat (groupWord c0 c1 '=' '=' >>> 16)).toNat <<< 16 =
        groupWord c0 c1 '=' '=' := by
      rw [UInt8.toNat_ofNat', Nat.shiftLeft_eq, Nat.shiftRight_eq_div_pow]
      omega
    rw [groupBytes, if_pos rfl, if_pos rfl, List.append_nil, encodeFrom, hbyte, h18, h12, hc0, hc1]
  · rw [padVal_of_ne h2] at hok2
    obtain ⟨k2, hk2, hc2, hv2⟩ := char_of_val hok2
    by_cases h3 : c3 = '='
    · -- two bytes: the low eight bits are
      have hbits := hpair h2 h3
      subst h3
      have hword := groupWord_eq hk1 hk2 (show 0 < 64 by decide) hv0 hv1
        ((padVal_of_ne h2).trans hv2) padVal_pad
      obtain ⟨h18, h12, h6, _⟩ := sextets_of_word hk0 hk1 hk2 (by decide) hword
      have hlow : (UInt8.ofNat (groupWord c0 c1 c2 '=')).toNat = 0 := by
        rw [UInt8.toNat_ofNat']
        omega
      have hbytes := word_bytes (groupWord c0 c1 c2 '=') (by omega)
      rw [hlow, Nat.or_zero] at hbytes
      rw [groupBytes, if_neg h2, if_pos rfl, List.append_nil, encodeFrom, hbytes, h18, h12, h6, hc0,
        hc1, hc2]
    · rw [padVal_of_ne h3] at hok3
      obtain ⟨k3, hk3, hc3, hv3⟩ := char_of_val hok3
      have hword := groupWord_eq hk1 hk2 hk3 hv0 hv1 ((padVal_of_ne h2).trans hv2)
        ((padVal_of_ne h3).trans hv3)
      obtain ⟨h18, h12, h6, h0⟩ := sextets_of_word hk0 hk1 hk2 hk3 hword
      have hbytes := word_bytes (groupWord c0 c1 c2 c3) (by omega)
      rw [groupBytes, if_neg h2, if_neg h3, List.singleton_append, encodeFrom, hbytes, h18, h12, h6,
        h0, encodeFrom, hc0, hc1, hc2, hc3]

/-- A canonical string that is accepted is what its bytes are encoded to. -/
theorem encode_decodeFrom : ∀ {chars : List Char} (dst : List UInt8), Canonical chars →
    0 ≤ (decodeFrom chars dst).2 →
    ∃ src, decodeFrom chars dst = (dst ++ src, ((dst ++ src).length : Int)) ∧
      encodeFrom src = chars
  | [], dst, _, _ => ⟨[], by rw [List.append_nil]; rfl, rfl⟩
  | [c0, c1, c2, c3], dst, hcanonical, haccepted => by
    rw [decodeFrom_group] at haccepted ⊢
    split at haccepted
    · rename_i hok
      rw [if_pos hok]
      exact ⟨groupBytes c0 c1 c2 c3, decodeFrom_nil _, encode_group hok hcanonical⟩
    · exact absurd haccepted (show ¬ (0 : Int) ≤ -1 by decide)
  | c0 :: c1 :: c2 :: c3 :: c4 :: chars, dst, ⟨h2, h3, hcanonical⟩, haccepted => by
    rw [decodeFrom_group] at haccepted ⊢
    split at haccepted
    · rename_i hok
      rw [if_pos hok]
      obtain ⟨src, hdecode, hencode⟩ := encode_decodeFrom _ hcanonical haccepted
      refine ⟨groupBytes c0 c1 c2 c3 ++ src, ?_, ?_⟩
      · rw [hdecode, List.append_assoc]
      · have hgroup := encode_group hok ⟨fun h => absurd h h2, fun _ h => absurd h h3⟩
        rw [groupBytes, if_neg h2, if_neg h3] at hgroup ⊢
        rw [List.singleton_append] at hgroup ⊢
        rw [List.cons_append, List.cons_append, List.cons_append, List.nil_append, encode_triple,
          hgroup, hencode]
        rfl
    · exact absurd haccepted (show ¬ (0 : Int) ≤ -1 by decide)

/-- A string is accepted where its loop is, and the result counts the bytes. -/
theorem accepted_loop {s tail : List Char} {b : List UInt8} {n : Int}
    (hs : ∀ ch ∈ s, ch ≠ '\x00') (haccepted : 0 ≤ n)
    (hdecode : base64Decode (s ++ '\x00' :: tail) = some (b, n)) :
    n = b.length ∧ decodeFrom s [] = (b, n) := by
  rw [base64Decode_eq hs, Option.some.injEq] at hdecode
  split at hdecode
  · rw [← (Prod.mk.inj hdecode).2] at haccepted
    exact absurd haccepted (by decide)
  · have hresult := decodeFrom_result s []
    rw [hdecode] at hresult
    refine ⟨?_, hdecode⟩
    dsimp only at hresult
    omega

/-- Unused bits that are set, a padding sign in the third place only, and padding in an inner
group: strings that are accepted although they are not what their bytes are encoded to. -/
theorem base64Decode_accepts_others :
    base64Decode ['A', 'B', '=', '=', '\x00'] = some ([0], 1) ∧
      (base64Encode [0] false).1 ≠ ['A', 'B', '=', '='] ∧
      base64Decode ['A', 'A', '=', '=', '\x00'] = some ([0], 1) ∧
      base64Decode ['A', 'A', '=', 'B', '\x00'] = some ([0, 1], 2) ∧
      (base64Encode [0, 1] false).1 ≠ ['A', 'A', '=', 'B'] ∧
      base64Decode ['A', 'A', '=', '=', 'A', 'A', '=', '=', '\x00'] = some ([0, 0], 2) ∧
      (base64Encode [0, 0] false).1 ≠ ['A', 'A', '=', '=', 'A', 'A', '=', '='] := by
  decide +kernel

/-- The decoder is lenient: an accepted string is the encoding of its bytes exactly when it is
canonical, so no two canonical strings decode to the same bytes. -/
theorem base64Decode_canonical (s tail : List Char) (b : List UInt8) (n : Int)
    (hs : ∀ ch ∈ s, ch ≠ '\x00') (haccepted : 0 ≤ n)
    (hdecode : base64Decode (s ++ '\x00' :: tail) = some (b, n)) :
    n = b.length ∧ ((base64Encode b false).1 = s ↔ Canonical s) ∧
      ∀ t tail', (∀ ch ∈ t, ch ≠ '\x00') → Canonical s → Canonical t →
        base64Decode (t ++ '\x00' :: tail') = some (b, n) → t = s := by
  have hencode : ∀ u tail', (∀ ch ∈ u, ch ≠ '\x00') → Canonical u →
      base64Decode (u ++ '\x00' :: tail') = some (b, n) → encodeFrom b = u := by
    intro u tail' hu hcanonical hdecode
    obtain ⟨_, hloop⟩ := accepted_loop hu haccepted hdecode
    obtain ⟨src, hresult, hsrc⟩ := encode_decodeFrom [] hcanonical (by rw [hloop]; exact haccepted)
    rw [hresult, List.nil_append] at hloop
    rw [← (Prod.mk.inj hloop).1, hsrc]
  obtain ⟨hn, _⟩ := accepted_loop hs haccepted hdecode
  refine ⟨hn, ⟨fun h => h ▸ canonical_encode b, fun h => hencode s tail hs h hdecode⟩, ?_⟩
  intro t tail' ht hcs hct hdecode'
  rw [← hencode t tail' ht hct hdecode', hencode s tail hs hcs hdecode]

theorem base64Decode_canonical_example :
    (2 : Int) = [0, 1].length ∧ ((base64Encode [0, 1] false).1 = ['A', 'A', 'E', '='] ↔
      Canonical ['A', 'A', 'E', '=']) ∧
      ∀ t tail', (∀ ch ∈ t, ch ≠ '\x00') → Canonical ['A', 'A', 'E', '='] → Canonical t →
        base64Decode (t ++ '\x00' :: tail') = some ([0, 1], 2) → t = ['A', 'A', 'E', '='] :=
  base64Decode_canonical ['A', 'A', 'E', '='] [] [0, 1] 2 (by simp) (by decide)
    (by decide +kernel)

end UniSdk.Mcuboot

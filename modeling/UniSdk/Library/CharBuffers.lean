import Mathlib.Algebra.Order.Ring.Int

/-!
# Character buffers of C

A buffer of fixed size that remembers whether every store so far was inside it, what `snprintf` writes
to it, and the signed words that lengths are kept in. A store outside the buffer leaves its contents
as they are.
-/

namespace UniSdk.Library.CharBuffers

/-! ## Signed words -/

def int16 (x : Int) : Int := (x + 2 ^ 15) % 2 ^ 16 - 2 ^ 15

def int32 (x : Int) : Int := (x + 2 ^ 31) % 2 ^ 32 - 2 ^ 31

theorem int16_of_lt {x : Int} (hx : 0 ≤ x) (h : x < 2 ^ 15) : int16 x = x := by
  unfold int16
  omega

theorem int16_lt (x : Int) : int16 x < 2 ^ 15 := by
  unfold int16
  omega

theorem int32_lt (x : Int) : int32 x < 2 ^ 31 := by
  unfold int32
  omega

/-- Narrowing does not enlarge, unless it makes a negative number positive. -/
theorem int16_le {x k : Int} (hx : -1 ≤ x) (h : x ≤ k) (h16 : 0 ≤ int16 x) : int16 x ≤ k := by
  unfold int16 at *
  omega

theorem int32_le {x k : Int} (hx : -1 ≤ x) (h : x ≤ k) (h32 : 0 ≤ int32 x) : int32 x ≤ k := by
  unfold int32 at *
  omega

/-- Conversion to `uint16_t`. -/
def uint16 (x : Int) : Nat := (x % 2 ^ 16).toNat

/-- Conversion to `uint32_t` or `size_t`. -/
def uint32 (x : Int) : Nat := (x % 2 ^ 32).toNat

theorem uint16_natCast {n : Nat} (h : n < 2 ^ 16) : uint16 n = n := by
  unfold uint16
  omega

/-! ## Strings -/

/-- The bytes from the start of a string to its first NUL. -/
def cString (s : String) : List Nat := (s.toUTF8.data.toList.map UInt8.toNat).takeWhile (· != 0)

/-- `%0<width>u`. -/
def padded (width n : Nat) : List Nat :=
  let digits := (Nat.toDigits 10 n).map Char.toNat
  List.replicate (width - digits.length) 48 ++ digits

example : padded 5 42 = cString "00042" := by decide

/-! ## Stores -/

structure CharBuf (n : Nat) where
  bytes : Vector Nat n
  inside : Bool
  deriving DecidableEq

namespace CharBuf

variable {n : Nat}

def zeros (n : Nat) : CharBuf n := ⟨Vector.replicate n 0, true⟩

def contents (b : CharBuf n) : List Nat := b.bytes.toList

@[simp] theorem length_contents (b : CharBuf n) : b.contents.length = n := Vector.length_toList

def store (b : CharBuf n) (i : Int) (v : Nat) : CharBuf n :=
  if h : 0 ≤ i ∧ i.toNat < n then { b with bytes := b.bytes.set i.toNat v h.2 }
  else { b with inside := false }

theorem store_inside_iff (b : CharBuf n) (i : Int) (v : Nat) :
    (b.store i v).inside = true ↔ b.inside = true ∧ 0 ≤ i ∧ i + 1 ≤ n := by
  unfold store
  split
  · next h => exact ⟨fun hb => ⟨hb, h.1, by omega⟩, fun hb => hb.1⟩
  · next h => exact ⟨fun hb => absurd hb Bool.false_ne_true, fun hb => absurd hb.2 (by omega)⟩

theorem store_contents (b : CharBuf n) {i : Nat} (h : i < n) (v : Nat) :
    (b.store i v).contents = b.contents.set i v := by
  have hin : 0 ≤ (i : Int) ∧ (i : Int).toNat < n := by omega
  rw [store, dif_pos hin]
  exact Vector.toList_set hin.2

/-- One store after the other, from the index `i` on. -/
def storeAll (b : CharBuf n) (i : Int) : List Nat → CharBuf n
  | [] => b
  | v :: vs => (b.store i v).storeAll (i + 1) vs

theorem storeAll_inside_iff {vs : List Nat} (hvs : vs ≠ []) (b : CharBuf n) (i : Int) :
    (b.storeAll i vs).inside = true ↔ b.inside = true ∧ 0 ≤ i ∧ i + vs.length ≤ n := by
  induction vs generalizing b i with
  | nil => exact absurd rfl hvs
  | cons v vs ih =>
    rw [storeAll]
    cases vs with
    | nil => exact store_inside_iff b i v
    | cons w ws =>
      rw [ih (List.cons_ne_nil w ws), store_inside_iff]
      simp only [List.length_cons, Nat.cast_add, Nat.cast_one]
      constructor
      · rintro ⟨⟨hb, hlo, -⟩, -, hhi⟩
        exact ⟨hb, hlo, by omega⟩
      · rintro ⟨hb, hlo, hhi⟩
        exact ⟨⟨hb, hlo, by omega⟩, by omega, by omega⟩

theorem storeAll_inside {vs : List Nat} {b : CharBuf n} (hb : b.inside = true) {i : Nat}
    (h : i + vs.length ≤ n) : (b.storeAll i vs).inside = true := by
  by_cases hvs : vs = []
  · rw [hvs]
    exact hb
  · exact (storeAll_inside_iff hvs b i).mpr ⟨hb, by omega, by omega⟩

/-- Stores inside the buffer replace exactly their indices. -/
theorem storeAll_contents {vs : List Nat} (b : CharBuf n) {i : Nat} (h : i + vs.length ≤ n) :
    (b.storeAll i vs).contents =
      b.contents.take i ++ vs ++ b.contents.drop (i + vs.length) := by
  induction vs generalizing b i with
  | nil => simp [storeAll]
  | cons v vs ih =>
    rw [List.length_cons] at h
    have hi : i < b.contents.length := by
      rw [length_contents]
      omega
    have htake : (b.contents.set i v).take (i + 1) = b.contents.take i ++ [v] := by
      rw [List.set_eq_take_append_cons_drop, if_pos hi, List.take_append,
        List.length_take_of_le hi.le, List.take_of_length_le (by rw [List.length_take]; omega)]
      simp
    have hdrop : (b.contents.set i v).drop (i + 1 + vs.length) =
        b.contents.drop (i + (vs.length + 1)) := by
      rw [List.drop_set, if_pos (by omega), Nat.add_assoc, Nat.add_comm 1]
    have hnext := ih (b.store i v) (i := i + 1) (by omega)
    rw [store_contents b (by omega), htake, hdrop] at hnext
    rw [storeAll, List.length_cons]
    simpa only [List.append_assoc, List.singleton_append, Nat.cast_add, Nat.cast_one] using hnext

theorem storeAll_take_before {vs : List Nat} (b : CharBuf n) {i k : Nat} (h : i + vs.length ≤ n)
    (hk : k ≤ i) : (b.storeAll i vs).contents.take k = b.contents.take k := by
  have hlen : k ≤ (b.contents.take i).length := by
    rw [List.length_take, length_contents]
    omega
  rw [storeAll_contents b h, List.append_assoc, List.take_append_of_le_length hlen, List.take_take,
    Nat.min_eq_left hk]

theorem storeAll_take {vs : List Nat} (b : CharBuf n) {i j : Nat} (h : i + vs.length ≤ n)
    (hj : j ≤ vs.length) :
    (b.storeAll i vs).contents.take (i + j) = b.contents.take i ++ vs.take j := by
  have hlen : (b.contents.take i).length = i := by
    rw [List.length_take, length_contents]
    omega
  rw [storeAll_contents b h, List.append_assoc, List.take_append, hlen,
    List.take_of_length_le (by omega), Nat.add_sub_cancel_left, List.take_append_of_le_length hj]

/-! ## `snprintf` -/

/-- The result for an output of `len` characters: the length, or an error if it is no `int`. -/
def printed (len : Nat) : Int := if len < 2 ^ 31 then len else -1

theorem printed_le (len : Nat) : printed len ≤ len := by
  unfold printed
  split <;> omega

theorem neg_one_le_printed (len : Nat) : -1 ≤ printed len := by
  unfold printed
  split <;> omega

theorem printed_eq {len o : Nat} (h : printed len = o) : len = o := by
  unfold printed at h
  split at h <;> omega

/-- `snprintf(b + i, size, ...)` where the full output is `out`. -/
def snprintf (b : CharBuf n) (i : Int) (size : Nat) (out : List Nat) : CharBuf n × Int :=
  (if size = 0 then b else b.storeAll i (out.take (size - 1) ++ [0]), printed out.length)

@[simp] theorem snprintf_snd (b : CharBuf n) (i : Int) (size : Nat) (out : List Nat) :
    (b.snprintf i size out).2 = printed out.length := rfl

theorem length_written {size : Nat} (h : 0 < size) (out : List Nat) :
    (out.take (size - 1) ++ [0]).length ≤ size := by
  rw [List.length_append, List.length_take, List.length_singleton]
  omega

theorem snprintf_inside {b : CharBuf n} (hb : b.inside = true) {i size : Nat} (h : i + size ≤ n)
    (out : List Nat) : (b.snprintf i size out).1.inside = true := by
  unfold snprintf
  by_cases hsize : size = 0
  · simp only [hsize, if_true]
    exact hb
  · simp only [if_neg hsize]
    have := length_written (Nat.pos_of_ne_zero hsize) out
    exact storeAll_inside hb (by omega)

/-- From an index behind the end on, the first character or the NUL is outside. -/
theorem snprintf_outside (b : CharBuf n) {i : Int} (hi : n < i) {size : Nat} (hsize : size ≠ 0)
    (out : List Nat) : (b.snprintf i size out).1.inside ≠ true := by
  simp only [snprintf, if_neg hsize]
  rw [Ne, storeAll_inside_iff (List.append_ne_nil_of_right_ne_nil _ (List.cons_ne_nil 0 []))]
  rintro ⟨-, -, hle⟩
  omega

theorem snprintf_take_before (b : CharBuf n) {i size k : Nat} (h : i + size ≤ n) (hk : k ≤ i)
    (out : List Nat) : (b.snprintf i size out).1.contents.take k = b.contents.take k := by
  unfold snprintf
  by_cases hsize : size = 0
  · simp only [hsize, if_true]
  · simp only [if_neg hsize]
    have := length_written (Nat.pos_of_ne_zero hsize) out
    exact storeAll_take_before b (by omega) hk

theorem snprintf_take (b : CharBuf n) {i size j : Nat} (h : i + size ≤ n) (hj : j + 1 ≤ size)
    {out : List Nat} (hout : j ≤ out.length) :
    (b.snprintf i size out).1.contents.take (i + j) = b.contents.take i ++ out.take j := by
  have hwritten := length_written (show 0 < size by omega) out
  have hfront : j ≤ (out.take (size - 1)).length := by
    rw [List.length_take]
    omega
  simp only [snprintf, if_neg (show size ≠ 0 by omega)]
  rw [storeAll_take b (by omega) (by rw [List.length_append]; omega),
    List.take_append_of_le_length hfront, List.take_take, Nat.min_eq_left (by omega)]

/-- With room for one character there is only the NUL. -/
theorem snprintf_take_one (b : CharBuf n) (hn : 1 ≤ n) {size : Nat} (hsize : size = 1)
    (out : List Nat) : (b.snprintf 0 size out).1.contents.take 1 = [0] := by
  subst hsize
  exact @storeAll_take n [0] b 0 1 hn le_rfl

/-- One output at the start and another one at the index `i`, each with the rest of the buffer. -/
theorem snprintf_snprintf_take (b : CharBuf n) {i k : Nat} {first second : List Nat}
    (hi : i ≤ first.length) (hin : i ≤ n) (hk : k + 1 ≤ n) (hlen : k ≤ i + second.length) :
    (((b.snprintf 0 n first).1.snprintf i (n - i) second).1).contents.take k =
      (first.take i ++ second).take k := by
  have hfirst (j : Nat) (hj : j + 1 ≤ n) (hjlen : j ≤ first.length) :
      (b.snprintf 0 n first).1.contents.take j = first.take j := by
    have h := snprintf_take b (i := 0) (j := j) (Nat.zero_add n).le hj hjlen
    simpa only [Nat.zero_add, List.take_zero, List.nil_append, Nat.cast_zero] using h
  rcases le_or_gt k i with hki | hik
  · have hfront : k ≤ (first.take i).length := by
      rw [List.length_take]
      omega
    rw [snprintf_take_before _ (by omega) hki, hfirst k hk (by omega),
      List.take_append_of_le_length hfront, List.take_take, Nat.min_eq_left hki]
  · obtain ⟨j, rfl⟩ := Nat.exists_eq_add_of_lt hik
    have hlength : (first.take i).length = i := List.length_take_of_le hi
    rw [Nat.add_assoc, snprintf_take _ (by omega) (by omega) (by omega),
      hfirst i (by omega) hi, List.take_append, hlength, Nat.add_sub_cancel_left,
      List.take_of_length_le (by omega : (first.take i).length ≤ i + (j + 1))]

/-! ## Texts from the start of a buffer -/

/-- The buffer starts with `text`, and nothing was stored outside it. -/
structure Holds (b : CharBuf n) (text : List Nat) : Prop where
  inside : b.inside = true
  fits : text.length ≤ n
  take_eq : b.contents.take text.length = text

/-- `off += snprintf(b + off, sizeof(b) - off, ...)` where the full output is `out`. -/
def append (p : CharBuf n × Int) (out : List Nat) : CharBuf n × Int :=
  let q := p.1.snprintf p.2 (uint32 (n - p.2)) out
  (q.1, p.2 + q.2)

/-- The buffer holds `text`, and the index is behind it. -/
structure Filled (p : CharBuf n × Int) (text : List Nat) : Prop where
  holds : Holds p.1 text
  index : p.2 = text.length

theorem Filled.nil {b : CharBuf n} (h : b.inside = true) : Filled (b, 0) [] :=
  ⟨⟨h, Nat.zero_le n, rfl⟩, rfl⟩

/-- An output that leaves room for its NUL is behind the text. -/
theorem Filled.append {p : CharBuf n × Int} {text : List Nat} (h : Filled p text)
    (hn : n < 2 ^ 31) (out : List Nat) (hroom : text.length + out.length + 1 ≤ n) :
    Filled (append p out) (text ++ out) := by
  obtain ⟨b, i⟩ := p
  obtain ⟨⟨hinside, -, htake⟩, rfl⟩ := h
  have hsize : uint32 ((n : Int) - text.length) = n - text.length := by
    unfold uint32
    omega
  have hwhole : text.length + (n - text.length) ≤ n := by omega
  refine ⟨⟨?_, by rw [List.length_append]; omega, ?_⟩, ?_⟩
  · simp only [CharBuf.append, hsize]
    exact snprintf_inside hinside hwhole out
  · simp only [CharBuf.append, hsize]
    rw [List.length_append, snprintf_take b hwhole (by omega) (Nat.le_refl _), htake,
      List.take_length]
  · have hprinted : printed out.length = out.length := if_pos (by omega)
    simp only [CharBuf.append, snprintf_snd, hprinted, List.length_append, Nat.cast_add]

/-- A character that is stored behind the text. -/
theorem Filled.store {p : CharBuf n × Int} {text : List Nat} (h : Filled p text)
    (hroom : text.length + 1 ≤ n) (v : Nat) : Filled (p.1.store p.2 v, p.2 + 1) (text ++ [v]) := by
  obtain ⟨b, i⟩ := p
  obtain ⟨⟨hinside, -, htake⟩, rfl⟩ := h
  refine ⟨⟨(store_inside_iff _ _ _).mpr ⟨hinside, by omega, by omega⟩, ?_, ?_⟩, ?_⟩
  · rw [List.length_append]
    exact hroom
  · have hone : text.length + [v].length ≤ n := hroom
    rw [List.length_append]
    exact (storeAll_take b hone (Nat.le_refl 1)).trans (by rw [htake]; rfl)
  · rw [List.length_append, List.length_singleton, Nat.cast_add, Nat.cast_one]

/-- Outputs one after the other. -/
theorem Filled.foldl_append {ι : Type*} {p : CharBuf n × Int} {text : List Nat} (h : Filled p text)
    (hn : n < 2 ^ 31) (out : ι → List Nat) (js : List ι)
    (hroom : text.length + (js.flatMap out).length + 1 ≤ n) :
    Filled (js.foldl (fun p j => CharBuf.append p (out j)) p) (text ++ js.flatMap out) := by
  induction js generalizing p text with
  | nil =>
    rw [List.flatMap_nil, List.append_nil]
    exact h
  | cons j js ih =>
    rw [List.flatMap_cons, List.length_append] at hroom
    rw [List.foldl_cons, List.flatMap_cons, ← List.append_assoc]
    exact ih (h.append hn (out j) (by omega)) (by rw [List.length_append]; omega)

/-- Characters one after the other. -/
theorem Filled.foldl_store {ι : Type*} {p : CharBuf n × Int} {text : List Nat} (h : Filled p text)
    (ch : ι → Nat) (js : List ι) (hroom : text.length + js.length ≤ n) :
    Filled (js.foldl (fun p j => (p.1.store p.2 (ch j), p.2 + 1)) p) (text ++ js.map ch) := by
  induction js generalizing p text with
  | nil =>
    rw [List.map_nil, List.append_nil]
    exact h
  | cons j js ih =>
    rw [List.length_cons] at hroom
    rw [List.foldl_cons, List.map_cons, ← List.singleton_append, ← List.append_assoc]
    exact ih (h.store (by omega) (ch j)) (by rw [List.length_append, List.length_singleton]; omega)

/-- The string at the start of the buffer, up to its NUL. -/
def asString (b : CharBuf n) : List Nat := b.contents.takeWhile (· != 0)

theorem Holds.asString_eq {b : CharBuf n} {text : List Nat} (h : Holds b (text ++ [0]))
    (htext : ∀ v ∈ text, v ≠ 0) : b.asString = text := by
  have hsplit := List.take_append_drop (text ++ [0]).length b.contents
  rw [h.take_eq, List.append_assoc] at hsplit
  rw [asString, ← hsplit, List.takeWhile_append_of_pos (by simpa using htext)]
  simp

end CharBuf

/-! ## Reading on behind a buffer -/

section ReadOn

variable {buffer : List Nat} {behind : Nat → Nat} {len : Nat}

/-- `len` bytes of memory from the start of a buffer on, where `behind` is what follows it. -/
def readOn (buffer : List Nat) (behind : Nat → Nat) (len : Nat) : List Nat :=
  (buffer ++ (List.range len).map behind).take len

@[simp] theorem length_readOn : (readOn buffer behind len).length = len := by
  simp [readOn]

theorem readOn_of_le (h : len ≤ buffer.length) : readOn buffer behind len = buffer.take len :=
  List.take_append_of_le_length h

/-- A read that goes on behind the buffer meets a byte of what follows. -/
theorem mem_readOn_behind (h : buffer.length < len) (v : Nat) :
    v ∈ readOn buffer (fun _ => v) len := by
  refine List.mem_iff_getElem.mpr ⟨buffer.length, by rwa [length_readOn], ?_⟩
  simp [readOn, List.getElem_append_right]

theorem mem_readOn_of_mem_take {k v : Nat} (hk : k ≤ len) (hv : v ∈ buffer.take k) :
    v ∈ readOn buffer behind len := by
  rcases le_or_gt len buffer.length with hle | hlt
  · rw [readOn_of_le hle]
    exact (List.take_sublist_take_left hk).subset hv
  · rw [readOn, List.take_append, List.take_of_length_le hlt.le]
    exact List.mem_append_left _ (List.mem_of_mem_take hv)

/-- Over zeros everything that is read is zero. -/
theorem readOn_zeros (n len : Nat) :
    readOn (List.replicate n 0) (fun _ => 0) len = List.replicate len 0 := by
  refine List.eq_replicate_iff.mpr ⟨length_readOn, fun v hv => ?_⟩
  have hall := List.mem_of_mem_take hv
  simp only [List.mem_append, List.mem_replicate, List.mem_map] at hall
  rcases hall with ⟨-, hzero⟩ | ⟨-, -, hzero⟩
  · exact hzero
  · exact hzero.symm

/-- What is read does not depend on the memory behind exactly if the read ends in the buffer. -/
theorem readOn_same_iff :
    (∀ behind behind', readOn buffer behind len = readOn buffer behind' len) ↔
      len ≤ buffer.length := by
  refine ⟨fun h => ?_, fun h _ _ => by rw [readOn_of_le h, readOn_of_le h]⟩
  by_contra hlong
  have hend : buffer.length < len := Nat.lt_of_not_le hlong
  have hone := h (fun _ => 0) (fun _ => 1)
  have hbyte := congrArg (fun l => l[buffer.length]?) hone
  simp [readOn, hend] at hbyte

end ReadOn

end UniSdk.Library.CharBuffers

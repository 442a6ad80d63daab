import UniSdk.Library.Aligned
import UniSdk.Storage.Pages

/-!
# What one page of the walk does to a byte array

The scan and the trim are characterized for every buffer. `FlashModel` is the
behaviour promised by a device whose cells form a byte array: an erase sets its
page to the clean byte, a write stores a byte where the cell is clean or where
the byte only clears bits. Under it one iteration of the walk replaces exactly
its part of the page, except that a null buffer changes nothing when no byte
needs an erase.
-/

namespace UniSdk.Storage

open Library.Cells Library.Aligned Library.Words

variable {σ : Type}

/-- `b` is reachable from `old` by clearing bits. -/
def Clears (old b : Byte) : Prop := b &&& ~~~old = 0

instance (old b : Byte) : Decidable (Clears old b) := inferInstanceAs (Decidable (_ = _))

/-- The scan from offset `i` on, for any flags it is entered with. Both flags
down is the early exit: the answer no longer depends on the rest. -/
theorem scan_from (old new : Nat → Byte) :
    ∀ (rest i : Nat) (n s : Bool),
      ((scan old new rest i n s).1 = true ↔
        n = true ∧ ∀ k, k < rest → Clears (old (i + k)) (new (i + k))) ∧
      ((scan old new rest i n s).2 = true ↔
        s = true ∧ ∀ k, k < rest → old (i + k) = new (i + k)) := by
  intro rest
  induction rest with
  | zero => intro i n s; simp [scan]
  | succ rest ih =>
    intro i n s
    have hsplit : ∀ P : Nat → Prop,
        (∀ k, k < rest + 1 → P (i + k)) ↔ P i ∧ ∀ k, k < rest → P (i + 1 + k) := by
      intro P
      constructor
      · intro h
        refine ⟨h 0 (by omega), fun k hk => ?_⟩
        have := h (k + 1) (by omega)
        rwa [show i + 1 + k = i + (k + 1) from by omega]
      · rintro ⟨h0, hr⟩ k hk
        cases k with
        | zero => exact h0
        | succ k =>
          rw [show i + (k + 1) = i + 1 + k from by omega]
          exact hr k (by omega)
    by_cases hflag : (n || s) = true
    · rw [scan, if_pos hflag]
      obtain ⟨hn, hs⟩ := ih (i + 1) (n && (new i &&& ~~~old i) == 0) (s && old i == new i)
      rw [hn, hs, hsplit fun k => Clears (old k) (new k), hsplit fun k => old k = new k]
      simp [Clears, and_assoc]
    · rw [scan, if_neg hflag]
      simp only [Bool.or_eq_true, not_or, Bool.not_eq_true] at hflag
      simp [hflag.1, hflag.2]

theorem scan_noErase (old new : Nat → Byte) (len : Nat) :
    (scan old new len 0 true true).1 = true ↔ ∀ k, k < len → Clears (old k) (new k) := by
  simpa using (scan_from old new len 0 true true).1

theorem scan_sameData (old new : Nat → Byte) (len : Nat) :
    (scan old new len 0 true true).2 = true ↔ ∀ k, k < len → old k = new k := by
  simpa using (scan_from old new len 0 true true).2

/-- The first `h` and the last `t` bytes of the page are clean. -/
structure CleanEnds (clean : Byte) (page : Nat) (buffer : Nat → Byte) (h t : Nat) : Prop where
  head : ∀ k, k < h → buffer k = clean
  tail : ∀ k, k < t → buffer (page - 1 - k) = clean
  head_le : h ≤ page
  tail_le : t ≤ page

/-- Counting stops with clean ends, whatever the flags: a raised flag says that
its count has kept up with `i`. -/
theorem trim_from (clean : Byte) (page : Nat) (buffer : Nat → Byte) :
    ∀ (rest i h t : Nat) (hc tc : Bool), i + rest = page →
      (hc = true → h = i) → (tc = true → t = i) → h ≤ i → t ≤ i →
      CleanEnds clean page buffer h t →
      CleanEnds clean page buffer (trim clean page buffer rest i h t hc tc).1
        (trim clean page buffer rest i h t hc tc).2 := by
  intro rest
  induction rest with
  | zero => intro i h t hc tc _ _ _ _ _ hend; exact hend
  | succ rest ih =>
    intro i h t hc tc hi hh ht hle tle hend
    by_cases hflag : (hc || tc) = true
    · rw [trim, if_pos hflag]
      dsimp only
      have hnext : ∀ (c : Bool) (n : Nat), (c = true → n = i) → n ≤ i →
          (if c then n + 1 else n) ≤ i + 1 ∧
          (c = true → (if c then n + 1 else n) = i + 1) := by
        intro c n hc hn
        cases c
        · simp; omega
        · simp [hc rfl]
      have hend' : CleanEnds clean page buffer
          (if (hc && buffer i == clean) = true then h + 1 else h)
          (if (tc && buffer (page - 1 - i) == clean) = true then t + 1 else t) := by
        refine ⟨fun k hk => ?_, fun k hk => ?_, by split <;> omega, by split <;> omega⟩
        · split at hk
          · rename_i hb
            simp only [Bool.and_eq_true, beq_iff_eq] at hb
            rcases Nat.lt_succ_iff_lt_or_eq.mp hk with hk | rfl
            · exact hend.head k hk
            · rw [hh hb.1]; exact hb.2
          · exact hend.head k hk
        · split at hk
          · rename_i hb
            simp only [Bool.and_eq_true, beq_iff_eq] at hb
            rcases Nat.lt_succ_iff_lt_or_eq.mp hk with hk | rfl
            · exact hend.tail k hk
            · rw [ht hb.1]; exact hb.2
          · exact hend.tail k hk
      have hkh := hnext (hc && buffer i == clean) h (by simpa using fun a _ => hh a) hle
      have hkt := hnext (tc && buffer (page - 1 - i) == clean) t (by simpa using fun a _ => ht a) tle
      generalize (if (hc && buffer i == clean) = true then h + 1 else h) = h' at hend' hkh ⊢
      generalize (if (tc && buffer (page - 1 - i) == clean) = true then t + 1 else t) = t'
        at hend' hkt ⊢
      by_cases hstop : page ≤ h' + t'
      · rw [if_pos hstop]
        exact hend'
      · rw [if_neg hstop]
        exact ih (i + 1) _ _ _ _ (by omega) hkh.2 hkt.2 hkh.1 hkt.1 hend'
    · rw [trim, if_neg hflag]
      exact hend

theorem trim_cleanEnds (clean : Byte) (page : Nat) (buffer : Nat → Byte) :
    CleanEnds clean page buffer (trim clean page buffer page 0 0 0 true true).1
      (trim clean page buffer page 0 0 0 true true).2 :=
  trim_from clean page buffer page 0 0 0 true true (by omega) (fun _ => rfl) (fun _ => rfl)
    (Nat.le_refl 0) (Nat.le_refl 0)
    ⟨fun _ h => absurd h (Nat.not_lt_zero _), fun _ h => absurd h (Nat.not_lt_zero _),
      Nat.zero_le _, Nat.zero_le _⟩

/-- A paged device whose cells `[lo, hi)` are a byte array. Reads are faithful;
an erase of an aligned page sets it to the clean byte; a write that stays on one
page stores a byte in a cell that is clean or of which the byte only clears
bits, and leaves anything in the other cells it addresses. All return zero. -/
structure FlashModel (d : Pages σ) (lo hi : Nat) (cells : σ → Nat → Byte) : Prop where
  read_result : ∀ addr len w, lo ≤ addr → addr + len ≤ hi → (d.read addr len w).1 = 0
  read_data : ∀ addr len w, lo ≤ addr → addr + len ≤ hi →
    ∀ i, i < len → (d.read addr len w).2.1 i = cells w (addr + i)
  read_cells : ∀ addr len w, lo ≤ addr → addr + len ≤ hi →
    cells (d.read addr len w).2.2 = cells w
  erase_result : ∀ addr w, addr % d.page = 0 → lo ≤ addr → addr + d.page ≤ hi →
    (d.erase addr d.page w).1 = 0
  erase_cells : ∀ addr w, addr % d.page = 0 → lo ≤ addr → addr + d.page ≤ hi →
    cells (d.erase addr d.page w).2 = overwrite (cells w) addr d.page fun _ => d.cleanByte
  write_result : ∀ addr data len w, 0 < len → addr % d.page + len ≤ d.page → lo ≤ addr →
    addr + len ≤ hi → (d.write addr data len w).1 = 0
  write_stored : ∀ addr data len w, 0 < len → addr % d.page + len ≤ d.page → lo ≤ addr →
    addr + len ≤ hi → ∀ i, i < len →
    (cells w (addr + i) = d.cleanByte ∨ Clears (cells w (addr + i)) (data i)) →
    cells (d.write addr data len w).2 (addr + i) = data i
  write_outside : ∀ addr data len w, 0 < len → addr % d.page + len ≤ d.page → lo ≤ addr →
    addr + len ≤ hi → ∀ j, j < addr ∨ addr + len ≤ j →
    cells (d.write addr data len w).2 j = cells w j

/-- What one iteration leaves on the device. A null buffer over bytes that could
all be cleared in place takes neither branch, so nothing is written. -/
def pageCells (clean : Byte) (buf : Option (Nat → Byte)) (mem : Nat → Byte) (addr len : Nat) :
    Nat → Byte :=
  if buf = none ∧ ∀ i, i < len → Clears (mem (addr + i)) clean then mem
  else overwrite mem addr len (newByte clean buf)

namespace FlashModel

variable {d : Pages σ} {lo hi : Nat} {cells : σ → Nat → Byte}

theorem readInto_spec (hm : FlashModel d lo hi cells) (addr pos len : Nat) (hlo : lo ≤ addr)
    (hhi : addr + len ≤ hi) (s : Walk σ) :
    (readInto d addr pos len s).1 = 0 ∧
    cells (readInto d addr pos len s).2.world = cells s.world ∧
    (readInto d addr pos len s).2.buffer =
      overwrite s.buffer pos len fun i => cells s.world (addr + i) :=
  ⟨hm.read_result addr len s.world hlo hhi, hm.read_cells addr len s.world hlo hhi,
    overwrite_congr _ _ _ (hm.read_data addr len s.world hlo hhi)⟩

/-- A write none of whose bytes needs an erase is an overwrite. -/
theorem write_programs (hm : FlashModel d lo hi cells) {addr len : Nat} (data : Nat → Byte)
    (hlen : 0 < len) (hpage : addr % d.page + len ≤ d.page) (hlo : lo ≤ addr)
    (hhi : addr + len ≤ hi) (w : σ)
    (hok : ∀ i, i < len → cells w (addr + i) = d.cleanByte ∨
      Clears (cells w (addr + i)) (data i)) :
    cells (d.write addr data len w).2 = overwrite (cells w) addr len data := by
  funext j
  by_cases hj : addr ≤ j ∧ j < addr + len
  · have hstored := hm.write_stored addr data len w hlen hpage hlo hhi (j - addr) (by omega)
      (hok (j - addr) (by omega))
    rw [overwrite_inside _ _ hj.1 hj.2, ← hstored]
    congr 1
    omega
  · rw [overwrite_outside _ _ (by omega)]
    exact hm.write_outside addr data len w hlen hpage hlo hhi j (by omega)

/-- Restoring an erased page from the buffer: the bytes trimmed away are clean
in the buffer and clean on the device. -/
theorem restorePage_spec (hm : FlashModel d lo hi cells) {start : Nat} {mem : Nat → Byte}
    (halign : start % d.page = 0) (hlo : lo ≤ start) (hhi : start + d.page ≤ hi)
    (hwrap : hi < 2 ^ 32) (s : Walk σ)
    (herased : cells s.world = overwrite mem start d.page fun _ => d.cleanByte) :
    (restorePage d start s).1 = 0 ∧
    cells (restorePage d start s).2.world = overwrite mem start d.page s.buffer := by
  have hends := trim_cleanEnds d.cleanByte d.page s.buffer
  unfold restorePage
  generalize trim d.cleanByte d.page s.buffer d.page 0 0 0 true true = c at hends ⊢
  obtain ⟨h, t⟩ := c
  have hclean : ∀ i, i < h ∨ d.page ≤ i + t → i < d.page → s.buffer i = d.cleanByte := by
    rintro i (hi | hi) hp
    · exact hends.head i hi
    · have := hends.tail (d.page - 1 - i) (by omega)
      rwa [show d.page - 1 - (d.page - 1 - i) = i from by omega] at this
  dsimp only
  by_cases hsome : h + t < d.page
  · have hmod : (start + h) % d.page = h := by
      rw [Nat.add_mod, halign, Nat.zero_add, Nat.mod_mod, Nat.mod_eq_of_lt (by omega)]
    have hcell : ∀ i, i < d.page - h - t → cells s.world (start + h + i) = d.cleanByte := by
      intro i hi
      rw [herased, overwrite_inside _ _ (by omega) (by omega)]
    rw [if_pos hsome, u32_of_lt (by omega)]
    refine ⟨hm.write_result _ _ _ _ (by omega) (by omega) (by omega) (by omega), ?_⟩
    have hw := hm.write_programs (fun i => s.buffer (h + i)) (by omega) (by omega) (by omega)
      (by omega) s.world fun i hi => Or.inl (hcell i hi)
    refine hw.trans ?_
    funext j
    by_cases hj : start + h ≤ j ∧ j < start + h + (d.page - h - t)
    · rw [overwrite_inside _ _ hj.1 hj.2, overwrite_inside _ _ (by omega) (by omega)]
      congr 1
      omega
    · rw [overwrite_outside _ _ (by omega), herased]
      by_cases hp : start ≤ j ∧ j < start + d.page
      · rw [overwrite_inside _ _ hp.1 hp.2, overwrite_inside _ _ hp.1 hp.2,
          hclean (j - start) (by omega) (by omega)]
      · rw [overwrite_outside _ _ (by omega), overwrite_outside _ _ (by omega)]
  · rw [if_neg hsome]
    refine ⟨rfl, herased.trans (overwrite_congr _ _ _ fun i hi => ?_)⟩
    exact (hclean i (by omega) hi).symm

/-- A read that the source makes only when there is something to read. -/
theorem readInto_opt (hm : FlashModel d lo hi cells) (addr pos len : Nat) (hlo : lo ≤ addr)
    (hhi : addr + len ≤ hi) (s : Walk σ) (c : Prop) [Decidable c] (hc : ¬ c → len = 0) :
    ∃ s' : Walk σ, (if c then readInto d addr pos len s else (0, s)) = (0, s') ∧
      cells s'.world = cells s.world ∧
      s'.buffer = overwrite s.buffer pos len fun i => cells s.world (addr + i) := by
  by_cases h : c
  · obtain ⟨hr, hw, hb⟩ := hm.readInto_spec addr pos len hlo hhi s
    exact ⟨_, by rw [if_pos h]; exact Prod.ext hr rfl, hw, hb⟩
  · exact ⟨s, if_neg h, rfl, by rw [hc h, overwrite_zero]⟩

/-- The page at `start`, rebuilt: only the requested part differs, the rest is
what the two extra reads found there. -/
theorem rebuildPage_spec (hm : FlashModel d lo hi cells) (hwrap : hi < 2 ^ 32)
    {start off len : Nat} (hmod : start % d.page = 0) (hlo : lo ≤ start)
    (hhi : start + d.page ≤ hi) (hlen : off + len ≤ d.page) (buf : Option (Nat → Byte))
    (s : Walk σ) :
    (rebuildPage d (start + off) buf off len s).1 = 0 ∧
    cells (rebuildPage d (start + off) buf off len s).2.world =
      overwrite (cells s.world) (start + off) len (newByte d.cleanByte buf) := by
  unfold rebuildPage
  rw [Nat.add_sub_cancel]
  obtain ⟨s1, hs1, hc1, hb1⟩ := hm.readInto_opt start 0 off hlo (by omega) s (off ≠ 0)
    (by omega)
  rw [hs1, andThen_of_zero rfl]
  dsimp only
  generalize hs2 : ({ s1 with buffer := _ } : Walk σ) = s2
  obtain ⟨s3, hs3, hc3, hb3⟩ := hm.readInto_opt (u32 (start + off + len)) (off + len)
    (d.page - (off + len)) (by rw [u32_of_lt (by omega)]; omega)
    (by rw [u32_of_lt (by omega)]; omega) s2 (off + len < d.page) (by omega)
  rw [hs3, andThen_of_zero rfl]
  have hcells : cells s3.world = cells s.world := by rw [hc3, ← hs2]; exact hc1
  have her := hm.erase_result start s3.world hmod hlo hhi
  have hec := hm.erase_cells start s3.world hmod hlo hhi
  rw [andThen_of_zero (by exact her)]
  rw [hcells] at hec
  obtain ⟨hr, hc⟩ := hm.restorePage_spec hmod hlo hhi hwrap (eraseAt d start s3).2 hec
  refine ⟨hr, hc.trans (overwrite_eq_of_agree (fun i hi => ?_) fun j hj => ?_)⟩
  · -- The buffer holds the merged page: head, new bytes, tail.
    change _ = s3.buffer i
    rw [hb3, u32_of_lt (by omega)]
    by_cases ht : off + len ≤ i
    · rw [overwrite_outside _ _ (by omega), overwrite_inside _ _ ht (by omega), ← hs2]
      change _ = cells s1.world _
      rw [hc1]
      congr 1
      omega
    · rw [overwrite_outside s2.buffer _ (by omega), ← hs2]
      change _ = overwrite s1.buffer off len (newByte d.cleanByte buf) i
      by_cases hn : off ≤ i
      · rw [overwrite_inside _ _ (by omega) (by omega), overwrite_inside _ _ hn (by omega)]
        congr 1
        omega
      · rw [overwrite_outside _ _ (by omega), overwrite_outside _ _ (by omega), hb1,
          overwrite_inside _ _ (by omega) (by omega), Nat.sub_zero]
  · exact overwrite_outside _ _ (by omega)

theorem modifyPage_spec (hm : FlashModel d lo hi cells) (hwrap : hi < 2 ^ 32)
    {start off len : Nat} (hmod : start % d.page = 0) (hlo : lo ≤ start)
    (hhi : start + d.page ≤ hi) (hlen : off + len ≤ d.page) (hpos : 0 < len)
    (buf : Option (Nat → Byte)) (s : Walk σ) :
    (modifyPage d (start + off) buf off len s).1 = 0 ∧
    cells (modifyPage d (start + off) buf off len s).2.world =
      pageCells d.cleanByte buf (cells s.world) (start + off) len := by
  obtain ⟨hr, hc, hb⟩ := hm.readInto_spec (start + off) off len (by omega) (by omega) s
  unfold modifyPage
  rw [andThen_of_zero hr]
  generalize (readInto d (start + off) off len s).2 = s1 at hc hb ⊢
  have hold : ∀ i, i < len → s1.buffer (off + i) = cells s.world (start + off + i) := by
    intro i hi
    rw [hb, overwrite_inside _ _ (by omega) (by omega)]
    congr 1
    omega
  have hsame := scan_sameData (fun i => s1.buffer (off + i)) (newByte d.cleanByte buf) len
  have hno := scan_noErase (fun i => s1.buffer (off + i)) (newByte d.cleanByte buf) len
  generalize scan (fun i => s1.buffer (off + i)) (newByte d.cleanByte buf) len 0 true true = c
    at hsame hno ⊢
  dsimp only
  by_cases h2 : c.2 = true
  · rw [if_pos h2]
    refine ⟨rfl, hc.trans ?_⟩
    unfold pageCells
    split
    · rfl
    · exact (overwrite_same _ _ _ _ fun i hi => by rw [← hold i hi]; exact hsame.mp h2 i hi).symm
  rw [if_neg h2]
  by_cases h1 : c.1 = true
  · have hclears : ∀ i, i < len →
        Clears (cells s.world (start + off + i)) (newByte d.cleanByte buf i) := by
      intro i hi
      rw [← hold i hi]
      exact hno.mp h1 i hi
    rw [if_pos h1]
    cases buf with
    | none => exact ⟨rfl, by rw [pageCells, if_pos ⟨rfl, hclears⟩]; exact hc⟩
    | some b =>
      have hpage : (start + off) % d.page + len ≤ d.page := by
        rw [Nat.add_mod, hmod, Nat.zero_add, Nat.mod_mod, Nat.mod_eq_of_lt (by omega)]
        exact hlen
      rw [← hc] at hclears ⊢
      have hw := hm.write_programs b hpos hpage (by omega) (by omega) s1.world
        fun i hi => Or.inr (hclears i hi)
      refine ⟨hm.write_result _ b _ _ hpos hpage (by omega) (by omega), hw.trans ?_⟩
      rw [pageCells, if_neg (by simp)]
      rfl
  · rw [if_neg h1, ← hc]
    obtain ⟨hr', hc'⟩ := hm.rebuildPage_spec hwrap hmod hlo hhi hlen buf s1
    refine ⟨hr', hc'.trans ?_⟩
    rw [pageCells, if_neg]
    rintro ⟨rfl, hall⟩
    refine h1 (hno.mpr fun i hi => ?_)
    rw [hold i hi, ← hc]
    exact hall i hi

end FlashModel

end UniSdk.Storage

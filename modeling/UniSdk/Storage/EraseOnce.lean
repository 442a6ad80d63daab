import UniSdk.Storage.Trace
import UniSdk.Storage.Write

/-!
# Pages are erased and written only when necessary

The erases and writes of one page are read off the answers of the scan: none where the data are
there already, one write where bits only have to be cleared, otherwise one erase and at most one
write. The pages of a request are handled one after the other and no page is met twice, so the
calls of the whole operation that fall on a page are those of its iteration.
-/

namespace UniSdk.Storage

open Library.Cells Library.Aligned Library.Words Library.CallLog

variable {σ : Type}

theorem FlashModel.traced {d : Pages σ} {lo hi : Nat} {cells : σ → Nat → Byte}
    (hm : FlashModel d lo hi cells) : FlashModel d.traced lo hi fun w => cells w.1 where
  read_result addr len w := hm.read_result addr len w.1
  read_data addr len w := hm.read_data addr len w.1
  read_cells addr len w := hm.read_cells addr len w.1
  erase_result addr w := hm.erase_result addr w.1
  erase_cells addr w := hm.erase_cells addr w.1
  write_result addr data len w := hm.write_result addr data len w.1
  write_stored addr data len w := hm.write_stored addr data len w.1
  write_outside addr data len w := hm.write_outside addr data len w.1

/-- The calls that are not reads. -/
def edits (log : List Event) : List Event := log.filter (fun e => e.callback ≠ .read)

theorem edits_append (left right : List Event) : edits (left ++ right) = edits left ++ edits right :=
  List.filter_append _ _

/-- From `s` to `s'` the erases and writes `l` were made. -/
def EditsTo (s s' : Walk (Traced σ)) (l : List Event) : Prop :=
  edits s'.world.2 = edits s.world.2 ++ l

theorem EditsTo.refl (s : Walk (Traced σ)) : EditsTo s s [] := (List.append_nil _).symm

theorem EditsTo.trans {s s' s'' : Walk (Traced σ)} {l l' : List Event} (h : EditsTo s s' l)
    (h' : EditsTo s' s'' l') : EditsTo s s'' (l ++ l') := by
  unfold EditsTo at *
  rw [h', h, List.append_assoc]

theorem editsTo_readInto (d : Pages σ) (addr pos len : Nat) (s : Walk (Traced σ)) :
    EditsTo s (readInto d.traced addr pos len s).2 [] :=
  edits_append _ _

theorem editsTo_writeFrom (d : Pages σ) (addr : Nat) (data : Nat → Byte) (len : Nat)
    (s : Walk (Traced σ)) : ∃ e, e.callback = .write ∧
      EditsTo s (writeFrom d.traced addr data len s).2 [e] :=
  ⟨_, rfl, edits_append _ _⟩

theorem editsTo_eraseAt (d : Pages σ) (addr : Nat) (s : Walk (Traced σ)) :
    ∃ e, e.callback = .erase ∧ EditsTo s (eraseAt d.traced addr s).2 [e] :=
  ⟨_, rfl, edits_append _ _⟩

/-- In a sequence that succeeds the second part starts from what the first leaves. -/
theorem andThen_ok {α : Type} {P Q : α → Prop} {r : Int × α} {next : α → Int × α}
    (hok : (andThen r next).1 = 0) (hr : P r.2)
    (hn : ∀ s, P s → (next s).1 = 0 → Q (next s).2) : Q (andThen r next).2 := by
  unfold andThen at *
  split at hok
  · next hfail => exact absurd hok hfail
  · next hzero =>
    rw [if_neg hzero]
    exact hn _ hr hok

/-! ### One page -/

/-- The erases and writes a page may get, when `needs` says that a bit has to be set and
`differs` that a byte has to change. -/
inductive PageEdits (needs differs : Prop) : List Event → Prop
  | kept : ¬ differs → PageEdits needs differs []
  | written (e : Event) : e.callback = .write → differs → ¬ needs → PageEdits needs differs [e]
  | erased (e : Event) : e.callback = .erase → differs → needs → PageEdits needs differs [e]
  | rebuilt (e e' : Event) : e.callback = .erase → e'.callback = .write → differs → needs →
      PageEdits needs differs [e, e']

theorem PageEdits.congr {needs differs needs' differs' : Prop} {l : List Event}
    (h : PageEdits needs differs l) (hn : needs ↔ needs') (hd : differs ↔ differs') :
    PageEdits needs' differs' l := by
  obtain rfl := propext hn
  obtain rfl := propext hd
  exact h

theorem PageEdits.eq_nil {needs differs : Prop} {l : List Event} (h : PageEdits needs differs l)
    (hd : ¬ differs) : l = [] := by
  cases h with
  | kept _ => rfl
  | written _ _ hdiffers _ | erased _ _ hdiffers _ | rebuilt _ _ _ _ hdiffers _ =>
    exact absurd hdiffers hd

theorem rebuildPage_edits (d : Pages σ) (addr : Nat) (buf : Option (Nat → Byte)) (off len : Nat)
    (s s1 : Walk (Traced σ)) (hs : EditsTo s s1 [])
    (hok : (rebuildPage d.traced addr buf off len s1).1 = 0)
    {needs differs : Prop} (hneeds : needs) (hdiffers : differs) :
    ∃ l, EditsTo s (rebuildPage d.traced addr buf off len s1).2 l ∧ PageEdits needs differs l := by
  have hread : ∀ (c : Prop) [Decidable c] (addr pos len : Nat) (s1 : Walk (Traced σ)),
      EditsTo s s1 [] → EditsTo s (if c then readInto d.traced addr pos len s1 else (0, s1)).2 [] := by
    intro c _ addr pos len s1 hs
    split
    · exact hs.trans (editsTo_readInto d addr pos len s1)
    · exact hs
  unfold rebuildPage at hok ⊢
  let Q : Walk (Traced σ) → Prop := fun s' => ∃ l, EditsTo s s' l ∧ PageEdits needs differs l
  refine andThen_ok (P := fun s' => EditsTo s s' []) (Q := Q) hok (hread _ _ _ _ _ hs)
    fun s2 hs2 hok => ?_
  refine andThen_ok (P := fun s' => EditsTo s s' []) (Q := Q) hok (hread _ _ _ _ _ hs2)
    fun s3 hs3 hok => ?_
  obtain ⟨e, he, herase⟩ := editsTo_eraseAt d (addr - off) s3
  refine andThen_ok (P := fun s' => EditsTo s s' [e]) (Q := Q) hok (hs3.trans herase)
    fun s4 hs4 _ => ?_
  unfold restorePage
  dsimp only
  split
  · obtain ⟨e', he', hwrite⟩ := editsTo_writeFrom d _ _ _ s4
    exact ⟨_, hs4.trans hwrite, .rebuilt e e' he he' hdiffers hneeds⟩
  · exact ⟨[e], hs4, .erased e he hdiffers hneeds⟩

theorem clears_self (b : Byte) : Clears b b := by
  unfold Clears
  have hbits : b.toBitVec &&& ~~~b.toBitVec = 0#8 := by
    ext i hi
    simp
  exact UInt8.eq_of_toBitVec_eq hbits

/-- The calls for one page, by what its bytes require. -/
theorem modifyPage_edits {d : Pages σ} {lo hi : Nat} {cells : σ → Nat → Byte}
    (hm : FlashModel d lo hi cells) (hwrap : hi < 2 ^ 32) {start off len : Nat}
    (hmod : start % d.page = 0) (hlo : lo ≤ start) (hhi : start + d.page ≤ hi)
    (hlen : off + len ≤ d.page) (hpos : 0 < len) (b : Nat → Byte) (s : Walk (Traced σ)) :
    ∃ l, EditsTo s (modifyPage d.traced (start + off) (some b) off len s).2 l ∧
      PageEdits (∃ i, i < len ∧ ¬ Clears (cells s.world.1 (start + off + i)) (b i))
        (∃ i, i < len ∧ cells s.world.1 (start + off + i) ≠ b i) l := by
  have hok := (hm.traced.modifyPage_spec hwrap hmod hlo hhi hlen hpos (some b) s).1
  obtain ⟨-, -, hb⟩ := hm.traced.readInto_spec (start + off) off len (by omega) (by omega) s
  unfold modifyPage at hok ⊢
  refine andThen_ok (P := fun s' => EditsTo s s' [] ∧ ∀ i, i < len →
      s'.buffer (off + i) = cells s.world.1 (start + off + i))
    (Q := fun s' => ∃ l, EditsTo s s' l ∧ PageEdits _ _ l) hok
    ⟨editsTo_readInto d (start + off) off len s, fun i hi => ?_⟩ fun s1 hs1 hok => ?_
  · rw [hb, overwrite_inside _ _ (by omega) (by omega)]
    congr 1
    omega
  obtain ⟨hread, hold⟩ := hs1
  have hsame := scan_sameData (fun i => s1.buffer (off + i)) b len
  have hno := scan_noErase (fun i => s1.buffer (off + i)) b len
  have hneeds : (scan (fun i => s1.buffer (off + i)) b len 0 true true).1 ≠ true ↔
      ∃ i, i < len ∧ ¬ Clears (cells s.world.1 (start + off + i)) (b i) := by
    rw [ne_eq, hno]
    simp only [not_forall, exists_prop]
    exact exists_congr fun i => and_congr_right fun hi => by rw [hold i hi]
  have hdiffers : (scan (fun i => s1.buffer (off + i)) b len 0 true true).2 ≠ true ↔
      ∃ i, i < len ∧ cells s.world.1 (start + off + i) ≠ b i := by
    rw [ne_eq, hsame]
    simp only [not_forall, exists_prop]
    exact exists_congr fun i => and_congr_right fun hi => by rw [hold i hi]
  have hnew : newByte d.traced.cleanByte (some b) = b := rfl
  rw [hnew] at hok ⊢
  generalize scan (fun i => s1.buffer (off + i)) b len 0 true true = c at hok hneeds hdiffers ⊢
  dsimp only at hok ⊢
  by_cases h2 : c.2 = true
  · rw [if_pos h2]
    exact ⟨[], hread, .kept (fun h => hdiffers.mpr h h2)⟩
  · rw [if_neg h2] at hok ⊢
    by_cases h1 : c.1 = true
    · rw [if_pos h1]
      obtain ⟨e, he, hwrite⟩ := editsTo_writeFrom d (start + off) b len s1
      exact ⟨[e], hread.trans hwrite,
        .written e he (hdiffers.mp h2) (fun h => hneeds.mpr h h1)⟩
    · rw [if_neg h1] at hok ⊢
      exact rebuildPage_edits d (start + off) (some b) off len s s1 hread hok
        (hneeds.mp h1) (hdiffers.mp h2)

/-! ### The whole walk -/

/-- Some byte of the range on page `K` satisfies `P`. -/
def Touches (page addr len K : Nat) (P : Nat → Prop) : Prop :=
  ∃ j, addr ≤ j ∧ j < addr + len ∧ j / page = K ∧ P j

section Touches

variable {page addr len : Nat} {P P' : Nat → Prop}

/-- On the first page the range has its first part. -/
theorem touches_first (hp : 0 < page) :
    Touches page addr len (addr / page) P ↔
      ∃ i, i < min len (page - addr % page) ∧ P (addr + i) := by
  constructor
  · rintro ⟨j, hlo, hhi, hpage, hP⟩
    have hj : j < addr + min len (page - addr % page) := by
      by_contra hge
      exact rest_on_later_page hp (by omega) hhi hpage
    refine ⟨j - addr, by omega, ?_⟩
    rwa [Nat.add_sub_cancel' hlo]
  · rintro ⟨i, hi, hP⟩
    have hpart : addr + i < addr + min len (page - addr % page) := by omega
    exact ⟨addr + i, by omega, by omega, first_on_page hp (by omega) hpart, hP⟩

/-- On any other page it has what is left. -/
theorem touches_rest (hp : 0 < page) {K : Nat} (hK : K ≠ addr / page)
    (hP : ∀ j, addr + min len (page - addr % page) ≤ j → (P' j ↔ P j)) :
    Touches page (addr + min len (page - addr % page)) (len - min len (page - addr % page)) K P' ↔
      Touches page addr len K P := by
  constructor
  · rintro ⟨j, hlo, hhi, hpage, hP'⟩
    exact ⟨j, by omega, by omega, hpage, (hP j hlo).mp hP'⟩
  · rintro ⟨j, hlo, hhi, rfl, hPj⟩
    have hj : addr + min len (page - addr % page) ≤ j := by
      by_contra hlt
      exact hK (first_on_page hp hlo (Nat.lt_of_not_le hlt))
    exact ⟨j, hj, by omega, rfl, (hP j hj).mpr hPj⟩

end Touches

/-- The erases and writes of a log on page `K`. -/
def editsOn (page K : Nat) (log : List Event) : List Event :=
  (edits log).filter (fun e => e.addr / page = K)

theorem editsOn_append (page K : Nat) (left right : List Event) :
    editsOn page K (left ++ right) = editsOn page K left ++ editsOn page K right := by
  rw [editsOn, edits_append, List.filter_append]
  rfl

theorem editsOn_eq_nil {page K : Nat} {log : List Event} (h : ∀ e ∈ log, e.addr / page ≠ K) :
    editsOn page K log = [] :=
  List.filter_eq_nil_iff.mpr fun e he =>
    by simpa using h e (List.mem_filter.mp he).1

theorem editsOn_eq_edits {page K : Nat} {log : List Event} (h : ∀ e ∈ log, e.addr / page = K) :
    editsOn page K log = edits log :=
  List.filter_eq_self.mpr fun e he => decide_eq_true (h e (List.mem_filter.mp he).1)

/-- A call for the page at `start` has its address on that page. -/
theorem PageCall.page_eq {page start : Nat} {e : Event} (h : PageCall page start e)
    (halign : start % page = 0) : e.addr / page = start / page := by
  have hp : 0 < page := by
    have := h.low
    have := h.nonempty
    have := h.high
    omega
  rw [div_eq_iff_block hp, halign, Nat.sub_zero]
  have := h.nonempty
  have := h.high
  exact ⟨h.low, by omega⟩

/-- The first page of a range: its calls are on that page, and the bytes behind it stay. -/
theorem firstPage_edits {d : Pages σ} {lo hi : Nat} {cells : σ → Nat → Byte}
    (hm : FlashModel d lo hi cells) (hwrap : hi < 2 ^ 32) (hlop : lo % d.page = 0)
    (hhip : hi % d.page = 0) {len addr : Nat} (hl : len ≠ 0) (hlo : lo ≤ addr)
    (hhi : addr + len ≤ hi) (b : Nat → Byte) (s : Walk (Traced σ)) :
    let n := min len (d.page - addr % d.page)
    let done := modifyPage d.traced addr (some b) (addr % d.page) n s
    done.1 = 0 ∧ (∀ j, addr + n ≤ j → cells done.2.world.1 j = cells s.world.1 j) ∧
      ∃ calls, done.2.world.2 = s.world.2 ++ calls ∧
        (∀ e ∈ calls, e.addr / d.page = addr / d.page) ∧
        PageEdits
          (Touches d.page addr len (addr / d.page) fun j =>
            ¬ Clears (cells s.world.1 j) (b (j - addr)))
          (Touches d.page addr len (addr / d.page) fun j => cells s.world.1 j ≠ b (j - addr))
          (edits calls) := by
  have hp := d.page_pos
  obtain ⟨hn, hpage, hle⟩ := pageLen_bounds addr hp hl
  have hstart := le_blockStart hlop hlo
  have hend := blockEnd_le hhip (show addr < hi by omega)
  have hmod := Nat.mod_le addr d.page
  have halign := blockStart_mod d.page addr
  have hok := hm.traced.modifyPage_spec hwrap halign hstart hend hpage hn (some b) s
  have hran := modifyPage_ran d (Nat.le_trans hend (Nat.le_of_lt hwrap)) hn hpage (some b) s
  have hedits := modifyPage_edits hm hwrap halign hstart hend hpage hn b s
  rw [Nat.sub_add_cancel hmod] at hok hran hedits
  obtain ⟨hzero, hcells⟩ := hok
  obtain ⟨calls, hlog, hcalls, -⟩ := hran
  obtain ⟨l, hl', hedits⟩ := hedits
  obtain rfl : edits calls = l := by
    rw [EditsTo, hlog, edits_append] at hl'
    exact List.append_cancel_left hl'
  refine ⟨hzero, fun j hj => ?_, calls, hlog, fun e he => ?_, hedits.congr ?_ ?_⟩
  · rw [hcells, pageCells, if_neg (by simp)]
    exact overwrite_outside _ _ (Or.inr hj)
  · rw [(hcalls e he).page_eq halign, blockStart_eq, Nat.mul_div_cancel_left _ hp]
  · rw [touches_first hp]
    simp only [Nat.add_sub_cancel_left]
  · rw [touches_first hp]
    simp only [Nat.add_sub_cancel_left]

theorem walk_edits {d : Pages σ} {lo hi : Nat} {cells : σ → Nat → Byte}
    (hm : FlashModel d lo hi cells) (hwrap : hi < 2 ^ 32) (hlop : lo % d.page = 0)
    (hhip : hi % d.page = 0) : ∀ (len addr : Nat) (b : Nat → Byte) (s : Walk (Traced σ)),
      lo ≤ addr → addr + len ≤ hi →
      ∃ calls, (tlkStorageModifyPages d.traced addr (some b) len s).2.world.2 =
          s.world.2 ++ calls ∧
        ∀ K, PageEdits
          (Touches d.page addr len K fun j => ¬ Clears (cells s.world.1 j) (b (j - addr)))
          (Touches d.page addr len K fun j => cells s.world.1 j ≠ b (j - addr))
          (editsOn d.page K calls) := by
  intro len
  induction len using Nat.strong_induction_on with
  | h len ih =>
    intro addr b s hlo hhi
    by_cases hl : len = 0
    · refine ⟨[], ?_, fun K => .kept ?_⟩
      · rw [tlkStorageModifyPages, if_pos hl, List.append_nil]
      · rintro ⟨j, hj, hj', -⟩
        omega
    · have hp := d.page_pos
      obtain ⟨hn, -, hle⟩ := pageLen_bounds addr hp hl
      obtain ⟨hzero, hstay, calls, hlog, hon, hedits⟩ :=
        firstPage_edits hm hwrap hlop hhip hl hlo hhi b s
      have hlater := @touches_rest d.page addr len
      have hnone : ∀ P, ¬ Touches d.page (addr + min len (d.page - addr % d.page))
          (len - min len (d.page - addr % d.page)) (addr / d.page) P := by
        rintro P ⟨j, hj, hj', hpage, -⟩
        exact rest_on_later_page hp hj (by omega) hpage
      rw [tlkStorageModifyPages, if_neg hl]
      dsimp only [Pages.traced_page]
      generalize min len (d.page - addr % d.page) = n at *
      rw [andThen_of_zero hzero, u32_of_lt (by omega)]
      obtain ⟨rest, hlog', hrest⟩ := ih (len - n) (by omega) (addr + n) (fun i => b (n + i))
        (modifyPage d.traced addr (some b) (addr % d.page) n s).2 (by omega) (by omega)
      refine ⟨calls ++ rest, ?_, fun K => ?_⟩
      · rw [Option.map_some, hlog', hlog, List.append_assoc]
      · rw [editsOn_append]
        by_cases hK : K = addr / d.page
        · subst hK
          rw [(hrest _).eq_nil (hnone _), List.append_nil, editsOn_eq_edits hon]
          exact hedits
        · have hshift : ∀ j, addr + n ≤ j → n + (j - (addr + n)) = j - addr := by
            intro j hj
            omega
          rw [editsOn_eq_nil (fun e he => by rw [hon e he]; exact Ne.symm hK), List.nil_append]
          refine (hrest K).congr (hlater hp hK fun j hj => ?_) (hlater hp hK fun j hj => ?_)
          · rw [hstay j hj, hshift j hj]
          · rw [hstay j hj, hshift j hj]

/-! ### The whole write -/

/-- The number of calls of one kind on page `K`. -/
def callsOn (kind : Callback) (page K : Nat) (log : List Event) : Nat :=
  log.countP (fun e => e.callback = kind ∧ e.addr / page = K)

theorem callsOn_eq {kind : Callback} (hkind : kind ≠ .read) (page K : Nat) (log : List Event) :
    callsOn kind page K log = (editsOn page K log).countP (fun e => e.callback = kind) := by
  rw [editsOn, edits, List.countP_filter, List.countP_filter, callsOn]
  refine List.countP_congr fun e _ => ?_
  simp only [decide_eq_true_eq, Bool.and_eq_true]
  exact ⟨fun h => ⟨⟨h.1, h.2⟩, h.1 ▸ hkind⟩, fun h => ⟨h.1.1, h.1.2⟩⟩

theorem PageEdits.counts {needs differs : Prop} {l : List Event} (h : PageEdits needs differs l)
    (himp : needs → differs) :
    l.countP (fun e => e.callback = .erase) ≤ 1 ∧ l.countP (fun e => e.callback = .write) ≤ 1 ∧
      (l.countP (fun e => e.callback = .erase) = 1 ↔ needs) ∧
      (l.countP (fun e => e.callback = .write) = 1 → differs) := by
  cases h with
  | kept hd =>
    have hn : ¬ needs := fun h => hd (himp h)
    simp [hn]
  | written e he hd hn => simp [he, hd, hn]
  | erased e he hd hn => simp [he, hd, hn]
  | rebuilt e e' he he' hd hn => simp [he, he', hd, hn]

section FlashPages

variable {devices : List (Device σ)} {dev : Device σ} {cells : σ → Nat → Byte}
  {addr len lo hi : Nat}

/-- The erases and writes of a call, page by page. -/
theorem write_edits (hdev : FlashPages dev cells lo hi)
    (hfind : tlkStorageFindDevice devices addr len = some dev) (hlo : lo ≤ addr)
    (hhi : addr + len ≤ hi) (buf : Nat → Byte) (s : State σ) (K : Nat) :
    PageEdits
      (Touches dev.page addr len K fun j => ¬ Clears (cells s.world j) (buf (j - addr)))
      (Touches dev.page addr len K fun j => cells s.world j ≠ buf (j - addr))
      (editsOn dev.page K (callLog devices addr (some buf) len s)) := by
  by_cases hlen : len = 0
  · have hnone : callLog devices addr (some buf) len s = [] := by
      simp only [callLog, tracedUpdate, tlkStorageUpdate, tlkStorageWrite, if_pos hlen]
    rw [hnone]
    refine .kept ?_
    rintro ⟨j, hj, hj', -⟩
    omega
  · obtain ⟨d, hd, hm⟩ := hdev.model
    obtain ⟨hp, -⟩ := pages?_fields hd
    obtain ⟨calls, hlog, hedits⟩ := walk_edits hm hdev.no_wrap (by rw [hp]; exact hdev.lo_aligned)
      (by rw [hp]; exact hdev.hi_aligned) len addr buf ⟨(s.world, []), s.buffer dev.id⟩ hlo hhi
    rw [callLog_eq_walk hfind hdev.paged hd hlen, hlog, List.nil_append, ← hp]
    exact hedits K

/-- **A page is erased only when a bit has to be set, and written only when a byte differs.**
Each page gets at most one erase and one write, and the same write repeated only reads. -/
theorem erase_only_when_needed (hdev : FlashPages dev cells lo hi)
    (hfind : tlkStorageFindDevice devices addr len = some dev) (hlo : lo ≤ addr)
    (hhi : addr + len ≤ hi) (buf : Nat → Byte) (s : State σ) :
    (∀ K,
      callsOn .erase dev.page K (callLog devices addr (some buf) len s) ≤ 1 ∧
      callsOn .write dev.page K (callLog devices addr (some buf) len s) ≤ 1 ∧
      (callsOn .erase dev.page K (callLog devices addr (some buf) len s) = 1 ↔
        Touches dev.page addr len K fun j => ¬ Clears (cells s.world j) (buf (j - addr))) ∧
      (callsOn .write dev.page K (callLog devices addr (some buf) len s) = 1 →
        Touches dev.page addr len K fun j => cells s.world j ≠ buf (j - addr))) ∧
    ∀ e ∈ callLog devices addr (some buf) len
      (tlkStorageWrite devices addr (some buf) len s).2, e.callback = .read := by
  constructor
  · intro K
    rw [callsOn_eq (by decide), callsOn_eq (by decide)]
    refine (write_edits hdev hfind hlo hhi buf s K).counts ?_
    rintro ⟨j, hj, hj', hpage, hneeds⟩
    exact ⟨j, hj, hj', hpage, fun heq => hneeds (heq ▸ clears_self _)⟩
  · intro e he
    by_contra hread
    have hagain := write_edits hdev hfind hlo hhi buf
      (tlkStorageWrite devices addr (some buf) len s).2 (e.addr / dev.page)
    have hnil := hagain.eq_nil (by
      rintro ⟨j, hj, hj', -, hne⟩
      rw [(hdev.write_spec hfind hlo hhi (by omega) buf s).2, overwrite_inside _ _ hj hj'] at hne
      exact hne rfl)
    have hmem : e ∈ editsOn dev.page (e.addr / dev.page)
        (callLog devices addr (some buf) len (tlkStorageWrite devices addr (some buf) len s).2) :=
      List.mem_filter.mpr ⟨List.mem_filter.mpr ⟨he, decide_eq_true hread⟩, decide_eq_true rfl⟩
    rw [hnil] at hmem
    cases hmem

end FlashPages

/-- Two zero bytes at the end of a page of zeros: the erase that they do not need is not made. -/
theorem erase_only_when_needed_zeros :
    callsOn .erase 4 0 (callLog [memoryDevice 0 16 4 0xFF] 2 (some fun _ => 0) 2
      ⟨fun _ => 0, fun _ _ => 7⟩) ≠ 1 := by
  have hnot : ¬ Touches 4 2 2 0 fun j => ¬ Clears 0 ((fun _ => 0 : Nat → Byte) (j - 2)) := by
    rintro ⟨j, -, -, -, hneeds⟩
    exact hneeds (show Clears 0 0 by decide)
  have hdev : PagedFlash (memoryDevice 0 16 4 0xFF) id :=
    memoryDevice_paged 0xFF (by decide) (by decide) (by decide) (by decide)
  have hfind := findDevice_of_only (onlyCover_singleton (memoryDevice 0 16 4 0xFF) 2 2) (by decide)
  exact fun h => hnot (((erase_only_when_needed hdev.flashPages hfind (by decide) (by decide)
    (fun _ => 0) ⟨fun _ => 0, fun _ _ => 7⟩).1 0).2.2.1.mp h)

end UniSdk.Storage

import UniSdk.Storage.Trace
import UniSdk.Storage.Write

/-!
# A failing callback stops the walk at its page

A call that fails is the last one. Everything before its page was done by the iterations before
it, which are those of the same request cut off at the start of that page; everything after the
page is untouched. On its own page a read that fails comes before the first erase or write.
-/

namespace UniSdk.Storage

open Library.Cells Library.Aligned Library.Words Library.CallLog

variable {σ : Type}

/-- A read, successful or not, leaves the device's cells as they are. -/
def ReadsLeave (dev : Device σ) (cells : σ → Nat → Byte) : Prop :=
  ∀ f, dev.read = some f → ∀ addr len w, cells (f addr len w).2.2 = cells w

theorem ReadsLeave.pages {dev : Device σ} {cells : σ → Nat → Byte} (h : ReadsLeave dev cells)
    {hpaged : dev.page ≠ 0} {d : Pages σ} (hd : dev.pages? hpaged = some d) (addr len : Nat)
    (w : σ) : cells (d.read addr len w).2.2 = cells w := by
  unfold Device.pages? at hd
  split at hd
  · next read _ _ hr _ _ _ =>
    obtain rfl := Option.some.inj hd
    exact h read hr addr len w
  · contradiction

/-- The cells of a traced world. -/
abbrev tracedCells (cells : σ → Nat → Byte) : Traced σ → Nat → Byte := fun w => cells w.1

theorem LocalPages.traced {d : Pages σ} {cells : σ → Nat → Byte} (h : LocalPages d cells) :
    LocalPages d.traced (tracedCells cells) where
  read addr len w := h.read addr len w.1
  erase addr len w := h.erase addr len w.1
  write addr data len w := h.write addr data len w.1

/-! ### The order of the calls for one page -/

/-- The last call made was not a read. -/
def LastEdits (s : Walk (Traced σ)) : Prop :=
  ∃ log e, s.world.2 = log ++ [e] ∧ e.callback ≠ .read

theorem andThen_inv {P Q : Walk (Traced σ) → Prop} {r : Int × Walk (Traced σ)}
    {next : Walk (Traced σ) → Int × Walk (Traced σ)} (hr : P r.2) (hstop : ∀ s, P s → Q s)
    (hn : ∀ s, P s → Q (next s).2) : Q (andThen r next).2 := by
  unfold andThen
  split
  · exact hstop _ hr
  · exact hn _ hr

section Order

variable {d : Pages σ} {cells : σ → Nat → Byte} {mem : Nat → Byte}

/-- As long as a page is only read its cells stay; an erase or a write is followed by no read. -/
def QuietOrEdited (cells : σ → Nat → Byte) (mem : Nat → Byte) (s : Walk (Traced σ)) : Prop :=
  cells s.world.1 = mem ∨ LastEdits s

theorem rebuildPage_order (hreads : ∀ addr len w, cells (d.read addr len w).2.2 = cells w)
    (addr : Nat) (buf : Option (Nat → Byte)) (off len : Nat) (s : Walk (Traced σ))
    (hs : cells s.world.1 = mem) :
    QuietOrEdited cells mem (rebuildPage d.traced addr buf off len s).2 := by
  have hquiet : ∀ s : Walk (Traced σ), cells s.world.1 = mem → QuietOrEdited cells mem s :=
    fun _ => Or.inl
  unfold rebuildPage
  refine andThen_inv (P := fun s => cells s.world.1 = mem) ?_ hquiet fun s hs => ?_
  · split
    · exact (hreads _ _ _).trans hs
    · exact hs
  refine andThen_inv (P := fun s => cells s.world.1 = mem) ?_ hquiet fun s hs => ?_
  · split
    · exact (hreads _ _ _).trans hs
    · exact hs
  refine andThen_inv (P := LastEdits) ⟨_, _, rfl, nofun⟩ (fun _ => Or.inr) fun s hs => Or.inr ?_
  unfold restorePage
  dsimp only
  split
  · exact ⟨_, _, rfl, nofun⟩
  · exact hs

theorem modifyPage_order (hreads : ∀ addr len w, cells (d.read addr len w).2.2 = cells w)
    (addr : Nat) (buf : Option (Nat → Byte)) (off len : Nat) (s : Walk (Traced σ))
    (hs : cells s.world.1 = mem) :
    QuietOrEdited cells mem (modifyPage d.traced addr buf off len s).2 := by
  unfold modifyPage
  refine andThen_inv (P := fun s => cells s.world.1 = mem) ((hreads _ _ _).trans hs)
    (fun _ => Or.inl) fun s hs => ?_
  dsimp only
  split
  · exact Or.inl hs
  · split
    · cases buf with
      | none => exact Or.inl hs
      | some b => exact Or.inr ⟨_, _, rfl, nofun⟩
    · exact rebuildPage_order hreads addr buf off len s hs

end Order

/-! ### Where the walk stopped -/

/-- The walk `r` from `s` stopped at the call `e`, for the page `e.addr / page`; `leading` is the
walk over the part of the request before that page. -/
structure StoppedAt (cells : σ → Nat → Byte) (page addr len : Nat) (s : Walk (Traced σ))
    (leading r : Int × Walk (Traced σ)) (e : Event) : Prop where
  last : ∃ calls, r.2.world.2 = s.world.2 ++ calls ++ [e]
  result : e.result = r.1
  first_page : addr / page ≤ e.addr / page
  last_page : e.addr / page * page < addr + len
  leading_ok : leading.1 = 0
  only_page : Within (fun j => j / page = e.addr / page) (cells leading.2.world.1)
    (cells r.2.world.1)
  read : e.callback = .read → cells r.2.world.1 = cells leading.2.world.1

/-- A part of a request that ends with the page, and the rest of it. -/
theorem walk_cut (d : Pages σ) {addr rest : Nat} (buf : Option (Nat → Byte))
    (s : Walk (Traced σ)) :
    tlkStorageModifyPages d.traced addr buf (d.page - addr % d.page + rest) s =
      andThen (modifyPage d.traced addr buf (addr % d.page) (d.page - addr % d.page) s)
        fun s => tlkStorageModifyPages d.traced (u32 (addr + (d.page - addr % d.page)))
          (buf.map fun b i => b (d.page - addr % d.page + i)) rest s := by
  have hlt := Nat.mod_lt addr d.page_pos
  have hmin : min (d.page - addr % d.page + rest) (d.page - addr % d.page) =
      d.page - addr % d.page := by omega
  rw [tlkStorageModifyPages, if_neg (by omega)]
  dsimp only [Pages.traced_page]
  rw [hmin, Nat.add_sub_cancel_left]

section Stopped

variable {d : Pages σ} {cells : σ → Nat → Byte} {addr len n : Nat}

/-- The first page fails, at its last call. -/
theorem stoppedAt_first (hloc : LocalPages d cells)
    (hreads : ∀ addr len w, cells (d.read addr len w).2.2 = cells w)
    (hwrap : addr - addr % d.page + d.page ≤ 2 ^ 32) (hn : 0 < n)
    (hpage : addr % d.page + n ≤ d.page) (hle : n ≤ len) (buf : Option (Nat → Byte))
    (s : Walk (Traced σ)) (hfail : (modifyPage d.traced addr buf (addr % d.page) n s).1 ≠ 0) :
    ∃ e, StoppedAt cells d.page addr len s
      (tlkStorageModifyPages d.traced addr buf (e.addr / d.page * d.page - addr) s)
      (modifyPage d.traced addr buf (addr % d.page) n s) e := by
  have hmod := Nat.mod_le addr d.page
  have hblock : d.page * (addr / d.page) = addr - addr % d.page := (blockStart_eq d.page addr).symm
  have hran := modifyPage_ran d hwrap hn hpage buf s
  rw [Nat.sub_add_cancel hmod] at hran
  obtain ⟨calls, hlog, hcalls, hends⟩ := hran
  obtain ⟨-, ok, last, rfl, hresult, -⟩ := hends.resolve_left (fun h => hfail h.1)
  have hcall := hcalls last (List.mem_append_right _ (List.mem_singleton.mpr rfl))
  have hsame : last.addr / d.page = addr / d.page :=
    (div_eq_iff_block d.page_pos).mpr
      ⟨hcall.low, by have := hcall.high; have := hcall.nonempty; omega⟩
  have hlead : last.addr / d.page * d.page - addr = 0 := by
    rw [hsame, Nat.mul_comm]
    omega
  refine ⟨last, ?_⟩
  rw [hlead, tlkStorageModifyPages, if_pos rfl]
  refine ⟨⟨ok, by rw [hlog, List.append_assoc]⟩, hresult, Nat.le_of_eq hsame.symm, ?_, rfl,
    ?_, fun hread => ?_⟩
  · rw [hsame, Nat.mul_comm]
    omega
  · rw [hsame]
    exact hloc.traced.modifyPage_within hwrap hn hpage buf (Within.refl _ _)
  · rcases modifyPage_order hreads addr buf (addr % d.page) n s rfl with hquiet | hedit
    · exact hquiet
    · obtain ⟨log, e, heq, hne⟩ := hedit
      rw [hlog, ← List.append_assoc] at heq
      obtain ⟨-, hlast⟩ := List.append_inj' heq rfl
      exact absurd ((List.cons.inj hlast).1 ▸ hread) hne

/-- The first page succeeds, and the walk stops where it goes on at the next one. -/
theorem StoppedAt.after_first (hpage : n = d.page - addr % d.page) (hle : n ≤ len)
    (hwrap : addr + n < 2 ^ 32) (buf : Option (Nat → Byte)) (s : Walk (Traced σ))
    (hfirst : (modifyPage d.traced addr buf (addr % d.page) n s).1 = 0)
    {r : Int × Walk (Traced σ)} {e : Event}
    (hstop : StoppedAt cells d.page (addr + n) (len - n)
      (modifyPage d.traced addr buf (addr % d.page) n s).2
      (tlkStorageModifyPages d.traced (addr + n) (buf.map fun b i => b (n + i))
        (e.addr / d.page * d.page - (addr + n))
        (modifyPage d.traced addr buf (addr % d.page) n s).2) r e) :
    StoppedAt cells d.page addr len s
      (tlkStorageModifyPages d.traced addr buf (e.addr / d.page * d.page - addr) s) r e := by
  have hlt := Nat.mod_lt addr d.page_pos
  have hmod := Nat.mod_le addr d.page
  have hblock : d.page * (addr / d.page) = addr - addr % d.page := (blockStart_eq d.page addr).symm
  have hnext : addr + n = d.page * (addr / d.page + 1) := by rw [Nat.mul_succ]; omega
  have hpages : addr / d.page + 1 ≤ e.addr / d.page := by
    have hfirst := hstop.first_page
    rwa [hnext, Nat.mul_div_cancel_left _ d.page_pos] at hfirst
  have hbound : addr + n ≤ e.addr / d.page * d.page := by
    rw [hnext, Nat.mul_comm]
    exact Nat.mul_le_mul_right d.page hpages
  have hlead : tlkStorageModifyPages d.traced addr buf (e.addr / d.page * d.page - addr) s =
      tlkStorageModifyPages d.traced (addr + n) (buf.map fun b i => b (n + i))
        (e.addr / d.page * d.page - (addr + n))
        (modifyPage d.traced addr buf (addr % d.page) n s).2 := by
    have hsplit : e.addr / d.page * d.page - addr =
        d.page - addr % d.page + (e.addr / d.page * d.page - (addr + n)) := by omega
    rw [hsplit, walk_cut, ← hpage, andThen_of_zero hfirst, u32_of_lt hwrap]
  rw [hlead]
  have hend : addr - addr % d.page + d.page ≤ 2 ^ 32 := by omega
  have hpos : 0 < n := by omega
  have hran := modifyPage_ran d hend hpos (show addr % d.page + n ≤ d.page by omega) buf s
  rw [Nat.sub_add_cancel hmod] at hran
  obtain ⟨calls, hlog, -, -⟩ := hran
  obtain ⟨later, hlater⟩ := hstop.last
  refine ⟨⟨calls ++ later, ?_⟩, hstop.result, by omega, ?_, hstop.leading_ok, hstop.only_page,
    hstop.read⟩
  · rw [hlater, hlog]
    simp only [List.append_assoc]
  · have hlast := hstop.last_page
    omega

end Stopped

theorem walk_stopped {d : Pages σ} {cells : σ → Nat → Byte} (hloc : LocalPages d cells)
    (hreads : ∀ addr len w, cells (d.read addr len w).2.2 = cells w) {hi : Nat}
    (hhip : hi % d.page = 0) (hwrap : hi ≤ 2 ^ 32) :
    ∀ (len addr : Nat) (buf : Option (Nat → Byte)) (s : Walk (Traced σ)), addr + len ≤ hi →
      (tlkStorageModifyPages d.traced addr buf len s).1 ≠ 0 →
      ∃ e, StoppedAt cells d.page addr len s
        (tlkStorageModifyPages d.traced addr buf (e.addr / d.page * d.page - addr) s)
        (tlkStorageModifyPages d.traced addr buf len s) e := by
  intro len
  induction len using Nat.strong_induction_on with
  | h len ih =>
    intro addr buf s hhi hfail
    have hl : len ≠ 0 := by
      rintro rfl
      rw [tlkStorageModifyPages, if_pos rfl] at hfail
      exact hfail rfl
    obtain ⟨hn, hpage, hle⟩ := pageLen_bounds addr d.page_pos hl
    have hlt := Nat.mod_lt addr d.page_pos
    have hend := blockEnd_le hhip (show addr < hi by omega)
    have hwalk : tlkStorageModifyPages d.traced addr buf len s =
        andThen (modifyPage d.traced addr buf (addr % d.page) (min len (d.page - addr % d.page)) s)
          fun s => tlkStorageModifyPages d.traced (u32 (addr + min len (d.page - addr % d.page)))
            (buf.map fun b i => b (min len (d.page - addr % d.page) + i))
            (len - min len (d.page - addr % d.page)) s := by
      rw [tlkStorageModifyPages, if_neg hl]
      rfl
    generalize hN : min len (d.page - addr % d.page) = n at hn hle hpage hwalk
    by_cases hfirst : (modifyPage d.traced addr buf (addr % d.page) n s).1 = 0
    · rw [andThen_of_zero hfirst] at hwalk
      rw [hwalk] at hfail ⊢
      have hrest : len - n ≠ 0 := by
        intro hzero
        rw [hzero, tlkStorageModifyPages, if_pos rfl] at hfail
        exact hfail rfl
      have hnext : addr + n < 2 ^ 32 := by omega
      rw [u32_of_lt hnext] at hfail ⊢
      obtain ⟨e, hstop⟩ := ih (len - n) (by omega) (addr + n) _ _ (by omega) hfail
      exact ⟨e, hstop.after_first (by omega) hle hnext buf s hfirst⟩
    · rw [hwalk, andThen, if_pos hfirst]
      exact stoppedAt_first hloc hreads (Nat.le_trans hend hwrap) hn hpage hle buf s hfirst

/-! ### The whole operation -/

/-- A walk that ends where a page begins leaves this page and those behind it. -/
theorem LocalPages.walk_keeps_later {d : Pages σ} {cells : σ → Nat → Byte}
    (hloc : LocalPages d cells) {hi K : Nat} (hhip : hi % d.page = 0) (hwrap : hi ≤ 2 ^ 32)
    (addr : Nat) (buf : Option (Nat → Byte)) (s : Walk σ)
    (hhi : addr + (K * d.page - addr) ≤ hi) {j : Nat} (hj : K ≤ j / d.page) :
    cells (tlkStorageModifyPages d addr buf (K * d.page - addr) s).2.world j =
      cells s.world j := by
  refine hloc.walk_within hhip hwrap (K * d.page - addr) addr buf s hhi j ?_
  rintro ⟨k, hk, hk', hpage⟩
  change k / d.page = j / d.page at hpage
  have hlt : k / d.page < K := (Nat.div_lt_iff_lt_mul d.page_pos).mpr (by omega)
  omega

/-- **A failing callback stops the operation at a page boundary.** The failing call is the last
one and its result is returned; the pages before its page are left as the walk over that leading
part leaves them, which succeeds and is the same operation on the leading part wherever that
finds the device; the pages after it are unchanged, and so is its own page if it is a read. The
pages of the range only have to lie in the address space, up to `hi`. -/
theorem failure_stops_at_page {devices : List (Device σ)} {dev : Device σ}
    {cells : σ → Nat → Byte} {addr len hi : Nat}
    (hfind : tlkStorageFindDevice devices addr len = some dev) (hpaged : dev.page ≠ 0)
    (hhip : hi % dev.page = 0) (hwrap : hi ≤ 2 ^ 32) (hhi : addr + len ≤ hi)
    (hloc : PageLocal dev cells) (hreads : ReadsLeave dev cells) (buf : Option (Nat → Byte))
    (s : State σ) {before after : List Event} {e : Event}
    (hlog : callLog devices addr buf len s = before ++ e :: after) (hfail : e.result ≠ 0) :
    (tlkStorageUpdate devices addr buf len s).1 = e.result ∧ after = [] ∧
      addr / dev.page ≤ e.addr / dev.page ∧ e.addr / dev.page * dev.page < addr + len ∧
      ∃ d leading, dev.pages? hpaged = some d ∧
        walkDevice dev d addr buf (e.addr / dev.page * dev.page - addr) s = (0, leading) ∧
        (0 < e.addr / dev.page * dev.page - addr →
          tlkStorageFindDevice devices addr (e.addr / dev.page * dev.page - addr) = some dev →
          tlkStorageUpdate devices addr buf (e.addr / dev.page * dev.page - addr) s =
            (0, leading)) ∧
        (∀ j, j / dev.page < e.addr / dev.page →
          cells (tlkStorageUpdate devices addr buf len s).2.world j = cells leading.world j) ∧
        (∀ j, e.addr / dev.page < j / dev.page →
          cells (tlkStorageUpdate devices addr buf len s).2.world j = cells s.world j) ∧
        (e.callback = .read → ∀ j, j / dev.page = e.addr / dev.page →
          cells (tlkStorageUpdate devices addr buf len s).2.world j = cells s.world j) := by
  rcases tracedUpdate_cases hfind hpaged buf s with hnone | ⟨d, hd, hrun, hcalls⟩
  · rw [hnone] at hlog
    exact absurd hlog.symm (List.append_ne_nil_of_right_ne_nil _ (List.cons_ne_nil _ _))
  · obtain ⟨hp, hlocal⟩ := hloc.pages hd
    have hend : hi % d.page = 0 := by rw [hp, hhip]
    have hplain := fun n => walkDevice_eq_traced dev d addr buf n s []
    obtain ⟨calls, hran, -, hends⟩ := walk_ran d hwrap (Nat.zero_mod _) hend len addr buf
      ⟨(s.world, []), s.buffer dev.id⟩ (Nat.zero_le _) hhi
    obtain rfl : calls = before ++ e :: after := by rw [← hlog, hcalls, hran]; rfl
    obtain ⟨hresult, rfl⟩ := hends.failure hfail
    obtain ⟨e', hstop⟩ := walk_stopped hlocal (hreads.pages hd) hend hwrap len addr buf
      ⟨(s.world, []), s.buffer dev.id⟩ hhi (hresult ▸ hfail)
    obtain rfl : e' = e := by
      obtain ⟨others, hlast⟩ := hstop.last
      rw [hran, List.nil_append, List.nil_append] at hlast
      obtain ⟨-, hsame⟩ := List.append_inj' hlast rfl
      exact (List.cons.inj hsame).1.symm
    have hbefore : ∀ j, e'.addr / d.page ≤ j / d.page →
        cells (tlkStorageModifyPages d.traced addr buf (e'.addr / d.page * d.page - addr)
          ⟨(s.world, []), s.buffer dev.id⟩).2.world.1 j = cells s.world j := by
      intro j hj
      have hlast := hstop.last_page
      have hfits : addr + (e'.addr / d.page * d.page - addr) ≤ hi := by omega
      exact hlocal.traced.walk_keeps_later hend hwrap addr buf ⟨(s.world, []), s.buffer dev.id⟩
        hfits hj
    have hlead := hplain (e'.addr / d.page * d.page - addr)
    dsimp only at hlead
    rw [hstop.leading_ok] at hlead
    rw [← hp]
    refine ⟨?_, rfl, hstop.first_page, hstop.last_page, d, _, hd, hlead, fun hpos hfound => ?_,
      fun j hj => ?_, fun j hj => ?_, fun hread j hj => ?_⟩
    · rw [hrun, hplain]
      exact hstop.result.symm
    · rw [update_eq_walk hfound hpaged hd (Nat.ne_of_gt hpos), hlead]
    · rw [hrun, hplain]
      exact hstop.only_page j (Nat.ne_of_lt hj)
    · rw [hrun, hplain]
      exact (hstop.only_page j (Nat.ne_of_gt hj)).trans (hbefore j (Nat.le_of_lt hj))
    · rw [hrun, hplain]
      exact (congrFun (hstop.read hread) j).trans (hbefore j (Nat.le_of_eq hj.symm))

/-- A byte array whose erase fails and does nothing. -/
def stuckDevice : Device (Nat → Byte) :=
  { memoryDevice 0 16 4 0xFF with erase := some fun _ _ mem => (-5, mem) }

theorem stuckDevice_pageLocal : PageLocal stuckDevice id where
  read f hf addr len w := by
    obtain rfl := Option.some.inj hf
    exact Within.refl _ _
  erase f hf addr len w := by
    obtain rfl := Option.some.inj hf
    exact Within.refl _ _
  write f hf addr data len w := by
    obtain rfl := Option.some.inj hf
    intro j hj
    have hout : j < addr ∨ addr + len ≤ j := by
      by_contra hin
      exact hj ⟨j, by omega, by omega, rfl⟩
    simp only [id_eq]
    exact overwrite_outside w _ hout

/-- Five bytes from address 2: the first page already holds its two, the second one needs the
erase that fails. -/
theorem stuck_at_second_page :
    (tlkStorageUpdate [stuckDevice] 2 (some fun i => if i < 2 then 0 else 1) 5
      ⟨fun _ => 0, fun _ _ => 7⟩).1 = -5 := by
  have hlog : callLog [stuckDevice] 2 (some fun i => if i < 2 then 0 else 1) 5
      ⟨fun _ => 0, fun _ _ => 7⟩ =
        [⟨.read, 2, 2, 0⟩, ⟨.read, 4, 3, 0⟩, ⟨.read, 7, 1, 0⟩] ++ ⟨.erase, 4, 4, -5⟩ :: [] := by
    decide +kernel
  have hfind : tlkStorageFindDevice [stuckDevice] 2 5 = some stuckDevice :=
    findDevice_of_only (onlyCover_singleton _ 2 5) (by decide)
  have hreads : ReadsLeave stuckDevice id := fun f hf _ _ _ => by
    obtain rfl := Option.some.inj hf
    rfl
  have hpages : 16 % stuckDevice.page = 0 := by decide
  exact (failure_stops_at_page hfind (by decide) hpages (by decide) (by decide)
    stuckDevice_pageLocal hreads _ _ hlog (by decide)).1

end UniSdk.Storage

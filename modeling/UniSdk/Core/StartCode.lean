import Mathlib
import UniSdk.Core.Context
import UniSdk.Library.Jumps

/-!
# The memory at the start

`_START` sets the stack pointer, fills the stack with a mask where its use is measured, and copies
the EXEC.IT table from the flash into the memory where the compiler made one. Both loops go from word
to word until they reach an address that the linker script gives; the first one tests behind its
body. The lines are the instructions they are, between the code in front of them and behind them.
-/

namespace UniSdk.Core

open Library.Programs Library.Jumps

/-- A hart with the register that holds the base of the EXEC.IT table. -/
structure StartHart extends Hart where
  uitb : BitVec 32

namespace StartHart

def setX (m : StartHart) (rd : Fin 32) (v : BitVec 32) : StartHart :=
  { m with toHart := m.toHart.setX rd v }

def setMem (m : StartHart) (addr v : BitVec 32) : StartHart :=
  { m with toHart := m.toHart.setMem addr v }

end StartHart

/-- `la` and `li`, which the assembler makes from several instructions, `sub`, `csrw uitb`, and the
instructions of the context routines. -/
inductive StartInstr
  | la (rd : Fin 32) (value : BitVec 32)
  | sub (rd rs1 rs2 : Fin 32)
  | csrwUitb (rs : Fin 32)
  | context (i : ContextInstr)

inductive StartCond
  | bltu (rs1 rs2 : Fin 32)
  | bleu (rs1 rs2 : Fin 32)

def StartInstr.exec (writable : ContextCsr → BitVec 32) (uitbWritable : BitVec 32)
    (m : StartHart) : StartInstr → Option StartHart
  | .la rd value => some (m.setX rd value)
  | .sub rd rs1 rs2 => some (m.setX rd (m.x rs1 - m.x rs2))
  | .csrwUitb rs =>
    some { m with uitb := (m.x rs &&& uitbWritable) ||| (m.uitb &&& ~~~uitbWritable) }
  | .context i => (i.exec writable m.toHart).map fun hart => { m with toHart := hart }

def StartCond.holds (m : StartHart) : StartCond → Bool
  | .bltu rs1 rs2 => (m.x rs1).ult (m.x rs2)
  | .bleu rs1 rs2 => (m.x rs1).ule (m.x rs2)

def startSemantics (writable : ContextCsr → BitVec 32) (uitbWritable : BitVec 32) :
    Semantics StartHart StartInstr StartCond where
  exec := StartInstr.exec writable uitbWritable
  holds := StartCond.holds

/-- The symbols of the linker script. The sections begin at multiples of four and do not overlap; the
stack is some kilobytes, and no section reaches the end of the address space. -/
structure StartLayout where
  stackTop : BitVec 32
  stackSize : BitVec 32
  itbBase : BitVec 32
  execitLma : BitVec 32
  execitVma : BitVec 32
  execitVmaEnd : BitVec 32
  stackAligned : stackTop.toNat % 4 = 0
  sizeAligned : stackSize.toNat % 4 = 0
  sizePos : 0 < stackSize.toNat
  sizeFits : stackSize.toNat ≤ stackTop.toNat
  lmaAligned : execitLma.toNat % 4 = 0
  vmaAligned : execitVma.toNat % 4 = 0
  vmaOrder : execitVma.toNat ≤ execitVmaEnd.toNat
  vmaFits : execitVmaEnd.toNat + 4 ≤ 2 ^ 32
  lmaFits : execitLma.toNat + (execitVmaEnd.toNat - execitVma.toNat) + 4 ≤ 2 ^ 32
  stackApartVma : stackTop.toNat ≤ execitVma.toNat ∨
    execitVmaEnd.toNat ≤ stackTop.toNat - stackSize.toNat
  stackApartLma : stackTop.toNat ≤ execitLma.toNat ∨
    execitLma.toNat + (execitVmaEnd.toNat - execitVma.toNat) ≤ stackTop.toNat - stackSize.toNat
  lmaApartVma : execitVmaEnd.toNat ≤ execitLma.toNat ∨
    execitLma.toNat + (execitVmaEnd.toNat - execitVma.toNat) ≤ execitVma.toNat

namespace StartLayout

def stackBottom (l : StartLayout) : BitVec 32 := l.stackTop - l.stackSize

def stackWords (l : StartLayout) : Nat := l.stackSize.toNat / 4

/-- The last word may reach beyond the end of the section. -/
def execitWords (l : StartLayout) : Nat := (l.execitVmaEnd.toNat - l.execitVma.toNat + 3) / 4

end StartLayout

/-! ## The lines of `_START` -/

/-- Registers are named by numerals. -/
local instance neZero_registers : NeZero 32 := ⟨by decide⟩

/-- `_STACK_TOP` in `sp`, by way of `t0`. -/
def stackPointer (l : StartLayout) : List StartInstr :=
  [.la 5 l.stackTop, .context (.addi 2 5 0)]

def stackFillSetUp (l : StartLayout) : List StartInstr :=
  [.la 6 l.stackSize, .sub 7 5 6, .la 28 0x55555555]

def stackFillBody : List StartInstr :=
  [.context (.sw 28 0 7), .context (.addi 7 7 4)]

/-- `_STACK_FILL_LOOP` -/
def stackFillLoop : List (Code StartInstr StartCond) :=
  stackFillBody.map .instr ++ [.branch (.bltu 7 5) (-2)]

def execitSetUp (l : StartLayout) : List StartInstr :=
  [.la 5 l.itbBase, .csrwUitb 5, .la 6 l.execitLma, .la 7 l.execitVma, .la 28 l.execitVmaEnd]

def execitBody : List StartInstr :=
  [.context (.lw 5 0 6), .context (.sw 5 0 7), .context (.addi 6 6 4), .context (.addi 7 7 4)]

/-- From `_EXECIT_INIT_BEGIN` to `_EXECIT_INIT_END`. -/
def execitLoop : List (Code StartInstr StartCond) :=
  .branch (.bleu 28 7) 6 :: (execitBody.map .instr ++ [.jump (-5)])

/-- From the stack pointer to the call of `tlk_core_init_flash`; the flags tell whether
`CONFIG_TLK_STACK_STATISTIC` is enabled and `__nds_execit` defined. -/
def startCode (statistic execit : Bool) (l : StartLayout) : List (Code StartInstr StartCond) :=
  (stackPointer l).map .instr ++
  (if statistic then (stackFillSetUp l).map .instr ++ stackFillLoop else []) ++
  (if execit then (execitSetUp l).map .instr ++ execitLoop else [])

/-! ## Addresses -/

section Addresses

variable (l : StartLayout) {k : Nat}

theorem bufWord_toNat {buf : BitVec 32} (h : buf.toNat + 4 * k < 2 ^ 32) :
    (bufWord buf k).toNat = buf.toNat + 4 * k := by
  rw [bufWord, BitVec.toNat_add, BitVec.toNat_ofNat]
  omega

theorem bufWord_zero (buf : BitVec 32) : bufWord buf 0 = buf := BitVec.add_zero buf

theorem bufWord_succ (buf : BitVec 32) (k : Nat) : bufWord buf k + 4#32 = bufWord buf (k + 1) := by
  rw [bufWord, bufWord, BitVec.add_assoc, ← BitVec.ofNat_add]
  congr 2
  omega

theorem stackBottom_toNat : l.stackBottom.toNat = l.stackTop.toNat - l.stackSize.toNat :=
  BitVec.toNat_sub_of_le l.sizeFits

theorem stackBottom_add : l.stackBottom.toNat + l.stackSize.toNat = l.stackTop.toNat := by
  rw [stackBottom_toNat, Nat.sub_add_cancel l.sizeFits]

theorem stackWord_toNat (hk : k ≤ l.stackWords) :
    (bufWord l.stackBottom k).toNat = l.stackBottom.toNat + 4 * k := by
  have htop := l.stackTop.isLt
  have hadd := stackBottom_add l
  unfold StartLayout.stackWords at hk
  exact bufWord_toNat (by omega)

theorem vmaWord_toNat (hk : k ≤ l.execitWords) :
    (bufWord l.execitVma k).toNat = l.execitVma.toNat + 4 * k := by
  have hfits := l.vmaFits
  have horder := l.vmaOrder
  unfold StartLayout.execitWords at hk
  exact bufWord_toNat (by omega)

theorem lmaWord_toNat (hk : k ≤ l.execitWords) :
    (bufWord l.execitLma k).toNat = l.execitLma.toNat + 4 * k := by
  have hfits := l.lmaFits
  unfold StartLayout.execitWords at hk
  exact bufWord_toNat (by omega)

/-- Regions that do not overlap have no word in common, where they begin at multiples of four. -/
theorem bufWord_apart {a b : BitVec 32} {sizeA sizeB i j : Nat} (ha : a.toNat % 4 = 0)
    (hb : b.toNat % 4 = 0) (apart : a.toNat + sizeA ≤ b.toNat ∨ b.toNat + sizeB ≤ a.toNat)
    (hi : (bufWord a i).toNat = a.toNat + 4 * i) (hj : (bufWord b j).toNat = b.toNat + 4 * j)
    (hiA : 4 * i < sizeA) (hjB : 4 * j < sizeB) : bufWord a i ≠ bufWord b j := by
  intro he
  rw [he, hj] at hi
  omega

theorem stackWord_lt (hk : k < l.stackWords) : 4 * k < l.stackSize.toNat := by
  unfold StartLayout.stackWords at hk
  omega

theorem execitWord_lt (hk : k < l.execitWords) :
    4 * k < l.execitVmaEnd.toNat - l.execitVma.toNat := by
  unfold StartLayout.execitWords at hk
  omega

theorem stackBottom_aligned : l.stackBottom.toNat % 4 = 0 := by
  have htop := l.stackAligned
  have hsize := l.sizeAligned
  have hfits := l.sizeFits
  rw [stackBottom_toNat]
  omega

theorem stackWord_ne_vmaWord {i j : Nat} (hi : i < l.stackWords) (hj : j < l.execitWords) :
    bufWord l.stackBottom i ≠ bufWord l.execitVma j := by
  refine bufWord_apart (stackBottom_aligned l) l.vmaAligned ?_ (stackWord_toNat l (Nat.le_of_lt hi))
    (vmaWord_toNat l (Nat.le_of_lt hj)) (stackWord_lt l hi) (execitWord_lt l hj)
  rw [stackBottom_add, stackBottom_toNat, Nat.add_sub_cancel' l.vmaOrder]
  exact l.stackApartVma

theorem stackWord_ne_lmaWord {i j : Nat} (hi : i < l.stackWords) (hj : j < l.execitWords) :
    bufWord l.stackBottom i ≠ bufWord l.execitLma j := by
  refine bufWord_apart (stackBottom_aligned l) l.lmaAligned ?_ (stackWord_toNat l (Nat.le_of_lt hi))
    (lmaWord_toNat l (Nat.le_of_lt hj)) (stackWord_lt l hi) (execitWord_lt l hj)
  rw [stackBottom_add, stackBottom_toNat]
  exact l.stackApartLma

theorem lmaWord_ne_vmaWord {i j : Nat} (hi : i < l.execitWords) (hj : j < l.execitWords) :
    bufWord l.execitLma i ≠ bufWord l.execitVma j := by
  refine bufWord_apart l.lmaAligned l.vmaAligned ?_ (lmaWord_toNat l (Nat.le_of_lt hi))
    (vmaWord_toNat l (Nat.le_of_lt hj)) (execitWord_lt l hi) (execitWord_lt l hj)
  rw [Nat.add_sub_cancel' l.vmaOrder]
  exact l.lmaApartVma.symm

end Addresses

/-! ## What is set up -/

/-- Started from `m`: the stack pointer is set, so many words of the stack are filled and so many
words of the table copied, and nothing else has changed but the registers `t0` to `t3`. -/
structure Started (l : StartLayout) (m t : StartHart) (filled copied : Nat) (uitb : BitVec 32) :
    Prop where
  sp : t.x 2 = l.stackTop
  stack : ∀ i < filled, t.mem (bufWord l.stackBottom i) = 0x55555555
  table : ∀ i < copied, t.mem (bufWord l.execitVma i) = m.mem (bufWord l.execitLma i)
  frame : ∀ a, (∀ i < filled, a ≠ bufWord l.stackBottom i) →
    (∀ i < copied, a ≠ bufWord l.execitVma i) → t.mem a = m.mem a
  uitb : t.uitb = uitb
  x : ∀ r, r ∉ [2, 5, 6, 7, 28] → t.x r = m.x r
  f : t.f = m.f
  fcsr : t.fcsr = m.fcsr
  csr : t.csr = m.csr

namespace Started

variable {l : StartLayout} {m t : StartHart} {filled copied : Nat} {uitb : BitVec 32}

/-- The registers `t0` to `t3` are free. -/
theorem setTemp (h : Started l m t filled copied uitb) (rd : Fin 32) (v : BitVec 32)
    (hrd : rd ∈ [5, 6, 7, 28]) : Started l m (t.setX rd v) filled copied uitb := by
  have hother : ∀ r, r ∉ [5, 6, 7, 28] → (t.setX rd v).x r = t.x r :=
    fun r hr => if_neg fun (he : r = rd ∧ rd ≠ 0) => hr (he.1 ▸ hrd)
  exact
    { sp := by rw [hother 2 (by decide), h.sp]
      stack := h.stack
      table := h.table
      frame := h.frame
      uitb := h.uitb
      x := fun r hr => by rw [hother r fun hin => hr (List.mem_cons_of_mem 2 hin), h.x r hr]
      f := h.f
      fcsr := h.fcsr
      csr := h.csr }

/-- One more word of the stack. -/
theorem fill (h : Started l m t filled 0 uitb) (hfilled : filled < l.stackWords) :
    Started l m (t.setMem (bufWord l.stackBottom filled) 0x55555555) (filled + 1) 0 uitb := by
  refine
    { sp := h.sp
      stack := ?_
      table := fun i hi => absurd hi (Nat.not_lt_zero i)
      frame := ?_
      uitb := h.uitb
      x := h.x
      f := h.f
      fcsr := h.fcsr
      csr := h.csr }
  · intro i hi
    show Function.update _ _ _ _ = _
    rcases Nat.lt_succ_iff_lt_or_eq.mp hi with hlt | rfl
    · have hne : bufWord l.stackBottom i ≠ bufWord l.stackBottom filled := by
        intro he
        have hnat := congrArg BitVec.toNat he
        rw [stackWord_toNat l (by omega), stackWord_toNat l (Nat.le_of_lt hfilled)] at hnat
        omega
      rw [Function.update_of_ne hne]
      exact h.stack i hlt
    · exact Function.update_self ..
  · intro a hstack htable
    show Function.update _ _ _ _ = _
    rw [Function.update_of_ne (hstack filled (Nat.lt_succ_self filled))]
    exact h.frame a (fun i hi => hstack i (Nat.lt_succ_of_lt hi)) htable

/-- The words that are still to be copied are as they were. -/
theorem source (h : Started l m t filled copied uitb) (hfilled : filled ≤ l.stackWords)
    (hcopied : copied < l.execitWords) :
    t.mem (bufWord l.execitLma copied) = m.mem (bufWord l.execitLma copied) :=
  h.frame _ (fun _ hi => (stackWord_ne_lmaWord l (by omega) hcopied).symm)
    (fun _ hi => lmaWord_ne_vmaWord l hcopied (by omega))

/-- One more word of the table. -/
theorem copy (h : Started l m t filled copied uitb) (hfilled : filled ≤ l.stackWords)
    (hcopied : copied < l.execitWords) :
    Started l m (t.setMem (bufWord l.execitVma copied) (t.mem (bufWord l.execitLma copied))) filled
      (copied + 1) uitb := by
  refine
    { sp := h.sp
      stack := ?_
      table := ?_
      frame := ?_
      uitb := h.uitb
      x := h.x
      f := h.f
      fcsr := h.fcsr
      csr := h.csr }
  · intro i hi
    show Function.update _ _ _ _ = _
    rw [Function.update_of_ne (stackWord_ne_vmaWord l (by omega) hcopied)]
    exact h.stack i hi
  · intro i hi
    show Function.update _ _ _ _ = _
    rcases Nat.lt_succ_iff_lt_or_eq.mp hi with hlt | rfl
    · have hne : bufWord l.execitVma i ≠ bufWord l.execitVma copied := by
        intro he
        have hnat := congrArg BitVec.toNat he
        rw [vmaWord_toNat l (by omega), vmaWord_toNat l (Nat.le_of_lt hcopied)] at hnat
        omega
      rw [Function.update_of_ne hne]
      exact h.table i hlt
    · rw [Function.update_self, h.source hfilled hcopied]
  · intro a hstack htable
    show Function.update _ _ _ _ = _
    rw [Function.update_of_ne (htable copied (Nat.lt_succ_self copied))]
    exact h.frame a hstack fun i hi => htable i (Nat.lt_succ_of_lt hi)

end Started

/-! ## The lines one by one -/

section Lines

variable {writable : ContextCsr → BitVec 32} {uitbWritable : BitVec 32} {l : StartLayout}
  {m : StartHart} {uitb : BitVec 32}

theorem stackPointer_run :
    Triple (StartInstr.exec writable uitbWritable) (· = m) (stackPointer l)
      (fun t => Started l m t 0 0 m.uitb ∧ t.x 5 = l.stackTop) := by
  intro s hs
  refine ⟨(s.setX 5 l.stackTop).setX 2 l.stackTop, ?_, ?_, rfl⟩
  · have hmv : ContextInstr.exec writable (s.setX 5 l.stackTop).toHart (.addi 2 5 0) =
        some ((s.setX 5 l.stackTop).setX 2 l.stackTop).toHart := by
      refine addi_to ?_
      rw [show BitVec.signExtend 32 (0 : BitVec 12) = 0#32 by decide, BitVec.add_zero]
      rfl
    show (StartInstr.exec writable uitbWritable (s.setX 5 l.stackTop)
      (.context (.addi 2 5 0))).bind some = _
    rw [StartInstr.exec, hmv]
    rfl
  · rw [hs]
    exact
      { sp := rfl
        stack := fun i hi => absurd hi (Nat.not_lt_zero i)
        table := fun i hi => absurd hi (Nat.not_lt_zero i)
        frame := fun a _ _ => rfl
        uitb := rfl
        x := fun r hr => by
          have h2 : r ≠ 2 := fun he => hr (he ▸ List.mem_cons_self)
          have h5 : r ≠ 5 := by
            rintro rfl
            exact hr (by decide)
          show ((m.toHart.setX 5 l.stackTop).setX 2 l.stackTop).x r = m.x r
          simp [h2, h5]
        f := rfl
        fcsr := rfl
        csr := rfl }

theorem stackFillSetUp_run :
    Triple (StartInstr.exec writable uitbWritable)
      (fun t => Started l m t 0 0 uitb ∧ t.x 5 = l.stackTop) (stackFillSetUp l)
      (fun t => Started l m t 0 0 uitb ∧ t.x 5 = l.stackTop ∧ t.x 7 = l.stackBottom ∧
        t.x 28 = 0x55555555) := by
  refine Triple.cons (R := fun t => Started l m t 0 0 uitb ∧ t.x 5 = l.stackTop ∧
      t.x 6 = l.stackSize) ?_
    (Triple.cons (R := fun t => Started l m t 0 0 uitb ∧ t.x 5 = l.stackTop ∧
      t.x 7 = l.stackBottom) ?_ (Triple.single ?_))
  · intro t ⟨ht, h5⟩
    exact ⟨t.setX 6 l.stackSize, rfl, ht.setTemp 6 _ (by decide), h5, rfl⟩
  · intro t ⟨ht, h5, h6⟩
    refine ⟨t.setX 7 l.stackBottom, ?_, ht.setTemp 7 _ (by decide), h5, rfl⟩
    rw [StartInstr.exec, h5, h6]
    rfl
  · intro t ⟨ht, h5, h7⟩
    exact ⟨t.setX 28 0x55555555, rfl, ht.setTemp 28 _ (by decide), h5, h7, rfl⟩

theorem execitSetUp_run {filled : Nat} :
    Triple (StartInstr.exec writable uitbWritable) (fun t => Started l m t filled 0 m.uitb)
      (execitSetUp l)
      (fun t => Started l m t filled 0
          ((l.itbBase &&& uitbWritable) ||| (m.uitb &&& ~~~uitbWritable)) ∧
        t.x 6 = l.execitLma ∧ t.x 7 = l.execitVma ∧ t.x 28 = l.execitVmaEnd) := by
  intro t ht
  refine ⟨_, rfl, ?_, rfl, rfl, rfl⟩
  have h5 := ht.setTemp 5 l.itbBase (by decide)
  have hbase : Started l m { t.setX 5 l.itbBase with
      uitb := (l.itbBase &&& uitbWritable) ||| (t.uitb &&& ~~~uitbWritable) } filled 0
      ((l.itbBase &&& uitbWritable) ||| (m.uitb &&& ~~~uitbWritable)) :=
    { sp := h5.sp
      stack := h5.stack
      table := h5.table
      frame := h5.frame
      uitb := by rw [ht.uitb]
      x := h5.x
      f := h5.f
      fcsr := h5.fcsr
      csr := h5.csr }
  exact ((hbase.setTemp 6 l.execitLma (by decide)).setTemp 7 l.execitVma (by decide)).setTemp 28
    l.execitVmaEnd (by decide)

/-! ## The loops -/

theorem context_exec {i : ContextInstr} {t : StartHart} {hart : Hart}
    (h : ContextInstr.exec writable t.toHart i = some hart) :
    StartInstr.exec writable uitbWritable t (.context i) = some { t with toHart := hart } := by
  rw [StartInstr.exec, h]
  rfl

theorem offset_zero (a : BitVec 32) : a + (0 : BitVec 12).signExtend 32 = a := by
  rw [show BitVec.signExtend 32 (0 : BitVec 12) = 0#32 by decide, BitVec.add_zero]

theorem offset_word (buf : BitVec 32) (k : Nat) :
    bufWord buf k + (4 : BitVec 12).signExtend 32 = bufWord buf (k + 1) := by
  rw [show BitVec.signExtend 32 (4 : BitVec 12) = 4#32 by decide, bufWord_succ]

theorem stackFillBody_run {t : StartHart} {k : Nat} (h7 : t.x 7 = bufWord l.stackBottom k)
    (h28 : t.x 28 = 0x55555555) :
    stackFillBody.foldlM (StartInstr.exec writable uitbWritable) t =
      some ((t.setMem (bufWord l.stackBottom k) 0x55555555).setX 7
        (bufWord l.stackBottom (k + 1))) := by
  have hsw : ContextInstr.exec writable t.toHart (.sw 28 0 7) =
      some (t.setMem (bufWord l.stackBottom k) 0x55555555).toHart := by
    rw [← h28]
    exact sw_at ((offset_zero _).trans h7) (bufWord_aligned (stackBottom_aligned l) k)
  have haddi : ContextInstr.exec writable
      (t.setMem (bufWord l.stackBottom k) 0x55555555).toHart (.addi 7 7 4) =
        some ((t.setMem (bufWord l.stackBottom k) 0x55555555).toHart.setX 7
          (bufWord l.stackBottom (k + 1))) := by
    refine addi_to ?_
    rw [show (t.setMem (bufWord l.stackBottom k) 0x55555555).x 7 = t.x 7 from rfl, h7, offset_word]
  exact (run_cons (context_exec hsw)).trans (run_cons (context_exec haddi))

/-- The loop stops behind the last word since it does not start there: the stack is not empty. -/
theorem stackFillLoop_run :
    BlockTriple (startSemantics writable uitbWritable)
      (fun t => Started l m t 0 0 uitb ∧ t.x 5 = l.stackTop ∧ t.x 7 = l.stackBottom ∧
        t.x 28 = 0x55555555)
      stackFillLoop (fun t => Started l m t l.stackWords 0 uitb) := by
  have hpos : 0 < l.stackWords := by
    have hsize := l.sizePos
    have haligned := l.sizeAligned
    unfold StartLayout.stackWords
    omega
  refine BlockTriple.weaken (BlockTriple.doWhile stackFillBody (StartCond.bltu 7 5)
    (I := fun t => ∃ k < l.stackWords, Started l m t k 0 uitb ∧ t.x 5 = l.stackTop ∧
      t.x 7 = bufWord l.stackBottom k ∧ t.x 28 = 0x55555555)
    (fun t => l.stackTop.toNat - (t.x 7).toNat) ?_) ?_ fun _ h => h
  · intro t ⟨k, hk, ht, h5, h7, h28⟩
    refine ⟨_, stackFillBody_run h7 h28, ?_⟩
    have hnext := (ht.fill hk).setTemp 7 (bufWord l.stackBottom (k + 1)) (by decide)
    have hword := stackWord_toNat l (k := k + 1) hk
    have hbefore := stackWord_toNat l (Nat.le_of_lt hk)
    have htop := stackBottom_add l
    have haligned := l.sizeAligned
    split
    · next hagain =>
      have hless : (bufWord l.stackBottom (k + 1)).toNat < l.stackTop.toNat :=
        h5 ▸ BitVec.ult_iff_toNat_lt.mp hagain
      refine ⟨⟨k + 1, ?_, hnext, h5, rfl, h28⟩, ?_⟩
      · unfold StartLayout.stackWords at hk ⊢
        omega
      · show l.stackTop.toNat - (bufWord l.stackBottom (k + 1)).toNat < _
        rw [h7]
        omega
    · next hdone =>
      have hge : ¬ (bufWord l.stackBottom (k + 1)).toNat < l.stackTop.toNat :=
        fun hlt => hdone (BitVec.ult_iff_toNat_lt.mpr (h5.symm ▸ hlt))
      have hlast : k + 1 = l.stackWords := by
        unfold StartLayout.stackWords at hk ⊢
        omega
      exact hlast ▸ hnext
  · intro t ⟨ht, h5, h7, h28⟩
    exact ⟨0, hpos, ht, h5, h7.trans (bufWord_zero _).symm, h28⟩

theorem execitBody_run {t : StartHart} {k : Nat} (h6 : t.x 6 = bufWord l.execitLma k)
    (h7 : t.x 7 = bufWord l.execitVma k) :
    execitBody.foldlM (StartInstr.exec writable uitbWritable) t =
      some ((((t.setX 5 (t.mem (bufWord l.execitLma k))).setMem (bufWord l.execitVma k)
        (t.mem (bufWord l.execitLma k))).setX 6 (bufWord l.execitLma (k + 1))).setX 7
        (bufWord l.execitVma (k + 1))) := by
  let loaded := t.setX 5 (t.mem (bufWord l.execitLma k))
  let stored := loaded.setMem (bufWord l.execitVma k) (t.mem (bufWord l.execitLma k))
  let moved := stored.setX 6 (bufWord l.execitLma (k + 1))
  have hlw : ContextInstr.exec writable t.toHart (.lw 5 0 6) = some loaded.toHart :=
    lw_at ((offset_zero _).trans h6) (bufWord_aligned l.lmaAligned k)
  have hsw : ContextInstr.exec writable loaded.toHart (.sw 5 0 7) = some stored.toHart :=
    sw_at ((offset_zero _).trans h7) (bufWord_aligned l.vmaAligned k)
  have hsource : ContextInstr.exec writable stored.toHart (.addi 6 6 4) = some moved.toHart := by
    refine addi_to ?_
    rw [show stored.x 6 = t.x 6 from rfl, h6, offset_word]
  have htarget : ContextInstr.exec writable moved.toHart (.addi 7 7 4) =
      some (moved.setX 7 (bufWord l.execitVma (k + 1))).toHart := by
    refine addi_to ?_
    rw [show moved.x 7 = t.x 7 from rfl, h7, offset_word]
  calc
    _ = _ := run_cons (context_exec hlw)
    _ = _ := run_cons (context_exec hsw)
    _ = _ := run_cons (context_exec hsource)
    _ = _ := run_cons (context_exec htarget)

theorem execitLoop_run {filled : Nat} (hfilled : filled ≤ l.stackWords) :
    BlockTriple (startSemantics writable uitbWritable)
      (fun t => Started l m t filled 0 uitb ∧ t.x 6 = l.execitLma ∧ t.x 7 = l.execitVma ∧
        t.x 28 = l.execitVmaEnd)
      execitLoop (fun t => Started l m t filled l.execitWords uitb) := by
  refine BlockTriple.weaken (BlockTriple.untilDo execitBody (StartCond.bleu 28 7)
    (I := fun t => ∃ k ≤ l.execitWords, Started l m t filled k uitb ∧
      t.x 6 = bufWord l.execitLma k ∧ t.x 7 = bufWord l.execitVma k ∧ t.x 28 = l.execitVmaEnd)
    (fun t => l.execitVmaEnd.toNat - (t.x 7).toNat) ?_) ?_ fun _ h => h
  · intro t ⟨k, hk, ht, h6, h7, h28⟩
    have hword := vmaWord_toNat l hk
    have horder := l.vmaOrder
    split
    · next hdone =>
      have hge : l.execitVmaEnd.toNat ≤ (bufWord l.execitVma k).toNat :=
        h7 ▸ h28 ▸ BitVec.ule_iff_toNat_le.mp hdone
      have hlast : k = l.execitWords := by
        unfold StartLayout.execitWords at hk ⊢
        omega
      exact hlast ▸ ht
    · next hagain =>
      have hless : (bufWord l.execitVma k).toNat < l.execitVmaEnd.toNat :=
        Nat.lt_of_not_le fun hle =>
          hagain (BitVec.ule_iff_toNat_le.mpr (h28.symm ▸ h7.symm ▸ hle))
      have hmore : k < l.execitWords := by
        unfold StartLayout.execitWords
        omega
      have hloaded := ht.setTemp 5 (t.mem (bufWord l.execitLma k)) (by decide)
      have hnext := ((hloaded.copy hfilled hmore).setTemp 6 (bufWord l.execitLma (k + 1))
        (by decide)).setTemp 7 (bufWord l.execitVma (k + 1)) (by decide)
      refine ⟨_, execitBody_run h6 h7, ⟨k + 1, hmore, hnext, rfl, rfl, h28⟩, ?_⟩
      show l.execitVmaEnd.toNat - (bufWord l.execitVma (k + 1)).toNat < _
      rw [h7, hword, vmaWord_toNat l hmore]
      omega
  · intro t ⟨ht, h6, h7, h28⟩
    exact ⟨0, Nat.zero_le _, ht, h6.trans (bufWord_zero _).symm, h7.trans (bufWord_zero _).symm,
      h28⟩

end Lines

/-- From every state, for every layout, wherever the code stands: it runs to its end, with the stack
pointer at the top of the stack, the mask in every word of the stack where its use is measured, every
word of the EXEC.IT table copied where there is one, and no other word of the memory changed. -/
theorem start_code_sets_up (writable : ContextCsr → BitVec 32) (uitbWritable : BitVec 32)
    (statistic execit : Bool) (l : StartLayout) (front back : List (Code StartInstr StartCond))
    (m : StartHart) :
    ∃ t, Goes (startSemantics writable uitbWritable)
        (front ++ (startCode statistic execit l ++ back)) (front.length, m)
        (front.length + (startCode statistic execit l).length, t) ∧
      Started l m t (if statistic then l.stackWords else 0) (if execit then l.execitWords else 0)
        (if execit then (l.itbBase &&& uitbWritable) ||| (m.uitb &&& ~~~uitbWritable)
        else m.uitb) := by
  have hpointer := BlockTriple.straight (M := startSemantics writable uitbWritable)
    (stackPointer_run (l := l) (m := m))
  have hfill : BlockTriple (startSemantics writable uitbWritable)
      (fun t => Started l m t 0 0 m.uitb ∧ t.x 5 = l.stackTop)
      (if statistic then (stackFillSetUp l).map .instr ++ stackFillLoop else [])
      (fun t => Started l m t (if statistic then l.stackWords else 0) 0 m.uitb) := by
    split
    · exact (BlockTriple.straight stackFillSetUp_run).append stackFillLoop_run
    · exact (BlockTriple.nil _).weaken (fun _ h => h) fun _ h => h.1
  have hfilled : (if statistic then l.stackWords else 0) ≤ l.stackWords := by
    split
    · exact Nat.le_refl _
    · exact Nat.zero_le _
  have hcopy : BlockTriple (startSemantics writable uitbWritable)
      (fun t => Started l m t (if statistic then l.stackWords else 0) 0 m.uitb)
      (if execit then (execitSetUp l).map .instr ++ execitLoop else [])
      (fun t => Started l m t (if statistic then l.stackWords else 0)
        (if execit then l.execitWords else 0)
        (if execit then (l.itbBase &&& uitbWritable) ||| (m.uitb &&& ~~~uitbWritable)
        else m.uitb)) := by
    cases execit with
    | true => exact (BlockTriple.straight execitSetUp_run).append (execitLoop_run hfilled)
    | false => exact BlockTriple.nil _
  exact ((hpointer.append hfill).append hcopy) _ _ m (codeAt_between ..) rfl

/-- Four kilobytes of stack at the start of a data memory, a table of ten words in the code memory. -/
def dlmLayout : StartLayout where
  stackTop := 0x81000
  stackSize := 0x1000
  itbBase := 0x400
  execitLma := 0x20008000
  execitVma := 0x400
  execitVmaEnd := 0x428
  stackAligned := by decide
  sizeAligned := by decide
  sizePos := by decide
  sizeFits := by decide
  lmaAligned := by decide
  vmaAligned := by decide
  vmaOrder := by decide
  vmaFits := by decide
  lmaFits := by decide
  stackApartVma := .inr (by decide)
  stackApartLma := .inl (by decide)
  lmaApartVma := .inl (by decide)

theorem start_code_sets_up_dlm :
    let m : StartHart := ⟨⟨fun _ => 0, fun _ => 0, 0, fun _ => 0, id, rfl⟩, 0⟩
    ∃ t, Goes (startSemantics (fun _ => 0#32) 0#32)
        ([] ++ (startCode true true dlmLayout ++ [])) (0, m)
        (0 + (startCode true true dlmLayout).length, t) ∧
      Started dlmLayout m t 1024 10 0 :=
  start_code_sets_up (fun _ => 0#32) 0#32 true true dlmLayout [] [] _

end UniSdk.Core

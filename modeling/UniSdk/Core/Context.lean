import UniSdk.Library.Programs
import Mathlib.Logic.Function.Basic

/-!
# The context that survives a retention sleep

`tlk_context_save` and `tlk_context_restore` as the instructions they are, on a hart whose memory is
words at aligned addresses. The hart loses its registers in the sleep; the words of
`tlk_context_backup_registers` are in the retained memory. The start-up code fetches the stack
pointer and calls `tlk_context_restore`, which returns to the caller of `tlk_context_save`.
-/

namespace UniSdk.Core

open Library.Programs

/-- The control and status registers that are saved. -/
inductive ContextCsr
  | mepc
  | mcause
  | mtval
  | mscratch
  | mtvec
  | mmiscCtl
  | mstatus
  | mxstatus
  | mdcause
  | mip
  | mie
  deriving DecidableEq, Repr

/-- A hart with the floating-point registers and the memory words; `x0` is zero. -/
structure Hart where
  x : Fin 32 → BitVec 32
  f : Fin 32 → BitVec 32
  fcsr : BitVec 8
  csr : ContextCsr → BitVec 32
  mem : BitVec 32 → BitVec 32
  zero : x 0 = 0#32

namespace Hart

/-- Writes to `x0` are ignored. -/
def setX (m : Hart) (rd : Fin 32) (v : BitVec 32) : Hart :=
  { m with
    x := fun r => if r = rd ∧ rd ≠ 0 then v else m.x r
    zero := by rw [if_neg (fun h => h.2 h.1.symm), m.zero] }

def setMem (m : Hart) (addr v : BitVec 32) : Hart :=
  { m with mem := Function.update m.mem addr v }

/-- `FS` of `mstatus` is not `Off`: the floating-point unit may be used. -/
def fpOn (m : Hart) : Prop := m.csr .mstatus &&& 0x6000#32 ≠ 0#32

instance (m : Hart) : Decidable m.fpOn := inferInstanceAs (Decidable (_ ≠ _))

/-- A change of the floating-point state makes `FS` dirty, which `SD` sums up. -/
def markDirty (m : Hart) : Hart :=
  { m with csr := Function.update m.csr .mstatus (m.csr .mstatus ||| 0x80006000#32) }

end Hart

/-- The instructions that the two routines consist of. -/
inductive ContextInstr
  | lui (rd : Fin 32) (imm : BitVec 20)
  | addi (rd rs : Fin 32) (imm : BitVec 12)
  | lw (rd : Fin 32) (imm : BitVec 12) (rs : Fin 32)
  | sw (rs2 : Fin 32) (imm : BitVec 12) (rs1 : Fin 32)
  | csrr (rd : Fin 32) (csr : ContextCsr)
  | csrw (csr : ContextCsr) (rs : Fin 32)
  | flw (rd : Fin 32) (imm : BitVec 12) (rs : Fin 32)
  | fsw (rs2 : Fin 32) (imm : BitVec 12) (rs1 : Fin 32)
  | frcsr (rd : Fin 32)
  | fscsr (rs : Fin 32)

/-- One instruction. Loads and stores trap at addresses that are not aligned, floating-point
instructions while `FS` is off. A write to a register changes its writable bits. -/
def ContextInstr.exec (writable : ContextCsr → BitVec 32) (m : Hart) :
    ContextInstr → Option Hart
  | .lui rd imm => some (m.setX rd (imm ++ 0#12))
  | .addi rd rs imm => some (m.setX rd (m.x rs + imm.signExtend 32))
  | .lw rd imm rs =>
    if (m.x rs + imm.signExtend 32).toNat % 4 = 0 then
      some (m.setX rd (m.mem (m.x rs + imm.signExtend 32)))
    else none
  | .sw rs2 imm rs1 =>
    if (m.x rs1 + imm.signExtend 32).toNat % 4 = 0 then
      some (m.setMem (m.x rs1 + imm.signExtend 32) (m.x rs2))
    else none
  | .csrr rd csr => some (m.setX rd (m.csr csr))
  | .csrw csr rs =>
    some { m with
      csr := Function.update m.csr csr
        ((m.x rs &&& writable csr) ||| (m.csr csr &&& ~~~writable csr)) }
  | .flw rd imm rs =>
    if m.fpOn ∧ (m.x rs + imm.signExtend 32).toNat % 4 = 0 then
      some { m with f := Function.update m.f rd (m.mem (m.x rs + imm.signExtend 32)) }.markDirty
    else none
  | .fsw rs2 imm rs1 =>
    if m.fpOn ∧ (m.x rs1 + imm.signExtend 32).toNat % 4 = 0 then
      some (m.setMem (m.x rs1 + imm.signExtend 32) (m.f rs2))
    else none
  | .frcsr rd => if m.fpOn then some (m.setX rd (m.fcsr.setWidth 32)) else none
  | .fscsr rs => if m.fpOn then some { m with fcsr := (m.x rs).setWidth 8 }.markDirty else none

/-! ## The routines -/

/-- `%hi` -/
def hi (addr : BitVec 32) : BitVec 20 := ((addr + 0x800#32) >>> 12).setWidth 20

/-- `%lo` -/
def lo (addr : BitVec 32) : BitVec 12 := addr.setWidth 12

/-- `(word * 4)`, the offset of a word of the buffer. -/
def wordOffset (word : Nat) : BitVec 12 := BitVec.ofNat 12 (word * 4)

/-- The general registers that both routines treat alike, and their words. -/
def gprWords : List (Fin 32 × Nat) :=
  [(1, 0), (3, 2), (4, 3), (5, 4), (6, 5), (7, 6), (8, 7), (9, 8), (10, 9), (11, 10), (12, 11),
   (13, 12), (14, 13), (15, 14), (16, 15), (17, 16), (18, 17), (19, 18), (20, 19), (21, 20),
   (22, 21), (23, 22), (24, 23), (25, 24), (26, 25), (27, 26), (28, 27), (29, 28), (30, 29)]

def csrWords : List (ContextCsr × Nat) :=
  [(.mepc, 31), (.mcause, 32), (.mtval, 33), (.mscratch, 34), (.mtvec, 35), (.mmiscCtl, 36),
   (.mstatus, 37), (.mxstatus, 38), (.mdcause, 39), (.mip, 40), (.mie, 41)]

/-- `f0` to `f31` in the words 42 to 73. -/
def fprWords : List (Fin 32 × Nat) := (List.finRange 32).map fun r => (r, 42 + r)

/-- `tlk_context_save`, up to its `jr ra`; `buf` is the address of the buffer and `flen` tells
whether `__riscv_flen` is defined. -/
def tlkContextSave (flen : Bool) (buf : BitVec 32) : List ContextInstr :=
  [.addi 2 2 (-8), .sw 30 0 2, .sw 31 4 2] ++
  [.lui 31 (hi buf), .addi 31 31 (lo buf)] ++
  (gprWords.flatMap fun p => [.sw p.1 (wordOffset p.2) 31]) ++
  [.addi 30 31 0, .addi 31 2 0, .addi 31 31 8, .sw 31 (wordOffset 1) 30] ++
  (csrWords.flatMap fun p => [.csrr 31 p.1, .sw 31 (wordOffset p.2) 30]) ++
  (if flen then
    .frcsr 31 :: ((fprWords.flatMap fun p => [.fsw p.1 (wordOffset p.2) 30]) ++
      [.sw 31 (wordOffset 74) 30])
  else []) ++
  [.lw 31 4 2, .sw 31 (wordOffset 30) 30, .lw 30 0 2, .addi 2 2 8]

/-- The lines of `_ISTART` that fetch the stack pointer. -/
def istartStack (buf : BitVec 32) : List ContextInstr :=
  [.lui 31 (hi buf), .addi 31 31 (lo buf)] ++ [.lw 2 (wordOffset 1) 31]

/-- `tlk_context_restore`, up to its `jr ra`. -/
def tlkContextRestore (flen : Bool) (buf : BitVec 32) : List ContextInstr :=
  [.lui 31 (hi buf), .addi 31 31 (lo buf)] ++
  (csrWords.flatMap fun p => [.lw 30 (wordOffset p.2) 31, .csrw p.1 30]) ++
  (if flen then
    (fprWords.flatMap fun p => [.flw p.1 (wordOffset p.2) 31]) ++
      [.lw 30 (wordOffset 74) 31, .fscsr 30]
  else []) ++
  (gprWords.flatMap fun p => [.lw p.1 (wordOffset p.2) 31]) ++
  [.lw 31 (wordOffset 30) 31]

/-! ## Addresses -/

theorem hi_lo (addr : BitVec 32) : hi addr ++ 0#12 + (lo addr).signExtend 32 = addr := by
  have haddr := addr.isLt
  have hmsb : (lo addr).msb = decide (2048 ≤ addr.toNat % 4096) := by
    rw [BitVec.msb_eq_decide, lo, BitVec.toNat_setWidth]
  apply BitVec.eq_of_toNat_eq
  rw [BitVec.toNat_add, BitVec.toNat_append, BitVec.toNat_signExtend, hmsb, hi, lo]
  simp only [BitVec.toNat_setWidth, BitVec.toNat_ushiftRight, BitVec.toNat_add,
    BitVec.toNat_ofNat, Nat.shiftRight_eq_div_pow, Nat.shiftLeft_eq, Nat.reducePow, Nat.reduceMod,
    Nat.or_zero, decide_eq_true_eq]
  split <;> omega

/-- The address of a word of the buffer. -/
def bufWord (buf : BitVec 32) (word : Nat) : BitVec 32 := buf + BitVec.ofNat 32 (word * 4)

theorem wordOffset_address (buf : BitVec 32) {word : Nat} (h : word < 128) :
    buf + (wordOffset word).signExtend 32 = bufWord buf word := by
  have hoffset : ∀ k : Fin 128,
      (wordOffset k).signExtend 32 = BitVec.ofNat 32 (k * 4) := by decide +kernel
  rw [hoffset ⟨word, h⟩, bufWord]

theorem bufWord_aligned {buf : BitVec 32} (h : buf.toNat % 4 = 0) (word : Nat) :
    (bufWord buf word).toNat % 4 = 0 := by
  rw [bufWord, BitVec.toNat_add, BitVec.toNat_ofNat]
  omega

theorem bufWord_injective (buf : BitVec 32) {i j : Nat} (hi : i < 128) (hj : j < 128)
    (h : bufWord buf i = bufWord buf j) : i = j := by
  unfold bufWord at h
  bv_omega

/-! ## What the buffer holds -/

/-- What is saved: the register `x (r + 1)`, a control register, or a part of the floating-point
state. -/
inductive Kept
  | x (r : Fin 31)
  | csr (c : ContextCsr)
  | f (r : Fin 32)
  | fcsr

def ContextCsr.word : ContextCsr → Nat
  | .mepc => 31
  | .mcause => 32
  | .mtval => 33
  | .mscratch => 34
  | .mtvec => 35
  | .mmiscCtl => 36
  | .mstatus => 37
  | .mxstatus => 38
  | .mdcause => 39
  | .mip => 40
  | .mie => 41

namespace Kept

/-- The word of the buffer. -/
def word : Kept → Nat
  | .x r => r
  | .csr c => c.word
  | .f r => 42 + r
  | .fcsr => 74

def value (s : Hart) : Kept → BitVec 32
  | .x r => s.x r.succ
  | .csr c => s.csr c
  | .f r => s.f r
  | .fcsr => s.fcsr.setWidth 32

/-- Saved only where there is a floating-point unit. -/
def fp : Kept → Bool
  | .f _ | .fcsr => true
  | _ => false

/-- The words of each kind lie together. -/
theorem word_range (i : Kept) :
    match i with
    | .x _ => i.word < 31
    | .csr _ => 31 ≤ i.word ∧ i.word < 42
    | .f _ => 42 ≤ i.word ∧ i.word < 74
    | .fcsr => i.word = 74 := by
  cases i with
  | x r => exact r.isLt
  | csr c => cases c <;> decide
  | f r => exact ⟨Nat.le_add_right 42 r, Nat.add_lt_add_left r.isLt 42⟩
  | fcsr => rfl

theorem word_lt (i : Kept) : i.word < 128 := by
  have hi := word_range i
  cases i <;> simp only at hi <;> omega

theorem word_injective {i j : Kept} (h : i.word = j.word) : i = j := by
  have hi := word_range i
  have hj := word_range j
  cases i <;> cases j
  case x.x r q => rw [Fin.ext h]
  case csr.csr c d => cases c <;> cases d <;> first | rfl | exact absurd h (by decide)
  case f.f r q => rw [Fin.ext (Nat.add_left_cancel h)]
  case fcsr.fcsr => rfl
  all_goals
    simp only at hi hj
    omega

end Kept

/-- The stack and the buffer are aligned, and the two words that `tlk_context_save` pushes are none
of the buffer's. -/
structure Placed (buf : BitVec 32) (s : Hart) : Prop where
  bufAligned : buf.toNat % 4 = 0
  spAligned : (s.x 2).toNat % 4 = 0
  apart : ∀ word < 128, bufWord buf word ≠ s.x 2 - 8#32 ∧ bufWord buf word ≠ s.x 2 - 4#32

/-! ## Single instructions -/

section Instructions

variable {writable : ContextCsr → BitVec 32} {buf : BitVec 32} {m : Hart}

@[simp] theorem setX_x (m : Hart) (rd r : Fin 32) (v : BitVec 32) :
    (m.setX rd v).x r = if r = rd ∧ rd ≠ 0 then v else m.x r := rfl

@[simp] theorem setX_mem (m : Hart) (rd : Fin 32) (v : BitVec 32) : (m.setX rd v).mem = m.mem := rfl

@[simp] theorem setX_csr (m : Hart) (rd : Fin 32) (v : BitVec 32) : (m.setX rd v).csr = m.csr := rfl

@[simp] theorem setX_f (m : Hart) (rd : Fin 32) (v : BitVec 32) : (m.setX rd v).f = m.f := rfl

@[simp] theorem setX_fcsr (m : Hart) (rd : Fin 32) (v : BitVec 32) :
    (m.setX rd v).fcsr = m.fcsr := rfl

@[simp] theorem setMem_x (m : Hart) (addr v : BitVec 32) : (m.setMem addr v).x = m.x := rfl

@[simp] theorem setMem_mem (m : Hart) (addr v : BitVec 32) :
    (m.setMem addr v).mem = Function.update m.mem addr v := rfl

theorem addi_to {rd rs : Fin 32} {imm : BitVec 12} {v : BitVec 32}
    (hv : m.x rs + imm.signExtend 32 = v) :
    ContextInstr.exec writable m (.addi rd rs imm) = some (m.setX rd v) := by
  rw [ContextInstr.exec, hv]

theorem sw_at {rs2 base : Fin 32} {imm : BitVec 12} {a : BitVec 32}
    (ha : m.x base + imm.signExtend 32 = a) (haligned : a.toNat % 4 = 0) :
    ContextInstr.exec writable m (.sw rs2 imm base) = some (m.setMem a (m.x rs2)) := by
  rw [ContextInstr.exec, ha, if_pos haligned]

theorem lw_at {rd base : Fin 32} {imm : BitVec 12} {a : BitVec 32}
    (ha : m.x base + imm.signExtend 32 = a) (haligned : a.toNat % 4 = 0) :
    ContextInstr.exec writable m (.lw rd imm base) = some (m.setX rd (m.mem a)) := by
  rw [ContextInstr.exec, ha, if_pos haligned]

theorem base_word {base : Fin 32} (hbase : m.x base = buf) {word : Nat} (hword : word < 128) :
    m.x base + (wordOffset word).signExtend 32 = bufWord buf word := by
  rw [hbase, wordOffset_address buf hword]

theorem fsw_word (haligned : buf.toNat % 4 = 0) {word : Nat} (hword : word < 128)
    {rs2 base : Fin 32} (hbase : m.x base = buf) (hfp : m.fpOn) :
    ContextInstr.exec writable m (.fsw rs2 (wordOffset word) base) =
      some (m.setMem (bufWord buf word) (m.f rs2)) := by
  rw [ContextInstr.exec, base_word hbase hword, if_pos ⟨hfp, bufWord_aligned haligned word⟩]

theorem flw_word (haligned : buf.toNat % 4 = 0) {word : Nat} (hword : word < 128)
    {rd base : Fin 32} (hbase : m.x base = buf) (hfp : m.fpOn) :
    ContextInstr.exec writable m (.flw rd (wordOffset word) base) =
      some { m with f := Function.update m.f rd (m.mem (bufWord buf word)) }.markDirty := by
  rw [ContextInstr.exec, base_word hbase hword, if_pos ⟨hfp, bufWord_aligned haligned word⟩]

/-- The address of the buffer in two instructions. -/
theorem la_buf (writable : ContextCsr → BitVec 32) (buf : BitVec 32) (m : Hart) :
    [ContextInstr.lui 31 (hi buf), .addi 31 31 (lo buf)].foldlM
      (ContextInstr.exec writable) m = some (m.setX 31 buf) := by
  have hlui : ContextInstr.exec writable m (.lui 31 (hi buf)) =
      some (m.setX 31 (hi buf ++ 0#12)) := rfl
  have haddi : ContextInstr.exec writable (m.setX 31 (hi buf ++ 0#12)) (.addi 31 31 (lo buf)) =
      some ((m.setX 31 (hi buf ++ 0#12)).setX 31 buf) := addi_to (by simp [hi_lo])
  have htwice : (m.setX 31 (hi buf ++ 0#12)).setX 31 buf = m.setX 31 buf := by
    simp only [Hart.setX, Hart.mk.injEq, and_true]
    funext r
    by_cases hr : r = 31 <;> simp [hr]
  simp only [List.foldlM_cons, List.foldlM_nil, hlui, haddi, htwice, Option.bind_eq_bind,
    Option.bind_some, Option.pure_def]

end Instructions

/-! ## Saving -/

/-- The hart within `tlk_context_save`, called in the state `s`, once the words `done` are
stored. -/
structure Saving (buf : BitVec 32) (s m : Hart) (done : List Nat) : Prop where
  words : ∀ i : Kept, i.word ∈ done → m.mem (bufWord buf i.word) = i.value s
  pushed30 : m.mem (s.x 2 - 8#32) = s.x 30
  pushed31 : m.mem (s.x 2 - 4#32) = s.x 31
  frame : ∀ a, (∀ word < 128, a ≠ bufWord buf word) → a ≠ s.x 2 - 8#32 → a ≠ s.x 2 - 4#32 →
    m.mem a = s.mem a
  sp : m.x 2 = s.x 2 - 8#32
  x : ∀ r, r ≠ 2 → r ≠ 30 → r ≠ 31 → m.x r = s.x r
  csr : m.csr = s.csr
  f : m.f = s.f
  fcsr : m.fcsr = s.fcsr

namespace Saving

variable {buf : BitVec 32} {s m : Hart} {done : List Nat}

/-- The two registers that were pushed are free for other uses. -/
theorem setTemp (h : Saving buf s m done) {rd : Fin 32} (hrd : rd = 30 ∨ rd = 31)
    (v : BitVec 32) : Saving buf s (m.setX rd v) done := by
  have hother : ∀ r, r ≠ 30 → r ≠ 31 → (m.setX rd v).x r = m.x r := by
    intro r h30 h31
    refine if_neg fun hr => ?_
    rcases hrd with rfl | rfl
    · exact h30 hr.1
    · exact h31 hr.1
  exact
    { words := h.words
      pushed30 := h.pushed30
      pushed31 := h.pushed31
      frame := h.frame
      sp := by rw [hother 2 (by decide) (by decide), h.sp]
      x := fun r h2 h30 h31 => by rw [hother r h30 h31, h.x r h2 h30 h31]
      csr := h.csr
      f := h.f
      fcsr := h.fcsr }

/-- A word more of the buffer. -/
theorem setWord (placed : Placed buf s) (h : Saving buf s m done) (i : Kept) :
    Saving buf s (m.setMem (bufWord buf i.word) (i.value s)) (done ++ [i.word]) := by
  obtain ⟨h30, h31⟩ := placed.apart i.word i.word_lt
  refine
    { words := ?_
      pushed30 := ?_
      pushed31 := ?_
      frame := ?_
      sp := h.sp
      x := h.x
      csr := h.csr
      f := h.f
      fcsr := h.fcsr }
  · intro j hj
    rw [setMem_mem]
    by_cases hji : j = i
    · rw [hji, Function.update_self]
    · have hne : j.word ≠ i.word := fun hw => hji (Kept.word_injective hw)
      have haddr : bufWord buf j.word ≠ bufWord buf i.word :=
        fun ha => hne (bufWord_injective buf j.word_lt i.word_lt ha)
      rw [Function.update_of_ne haddr]
      rw [List.mem_append, List.mem_singleton] at hj
      exact h.words j (hj.resolve_right hne)
  · rw [setMem_mem, Function.update_of_ne h30.symm, h.pushed30]
  · rw [setMem_mem, Function.update_of_ne h31.symm, h.pushed31]
  · intro a hbuf h8 h4
    rw [setMem_mem, Function.update_of_ne (hbuf _ i.word_lt), h.frame a hbuf h8 h4]

end Saving

theorem gprWords_kept : ∀ p ∈ gprWords,
    ∃ r : Fin 31, p = (r.succ, (r : Nat)) ∧ r.succ ≠ 2 ∧ r.succ ≠ 31 := by decide +kernel

theorem csrWords_kept : ∀ p ∈ csrWords, p.2 = p.1.word := by decide

theorem fprWords_kept : ∀ p ∈ fprWords, p.2 = 42 + (p.1 : Nat) := by decide

section Save

variable {writable : ContextCsr → BitVec 32} {buf : BitVec 32} {s : Hart}

theorem save_push (placed : Placed buf s) :
    Triple (ContextInstr.exec writable) (· = s)
      ([.addi 2 2 (-8), .sw 30 0 2, .sw 31 4 2] ++ [.lui 31 (hi buf), .addi 31 31 (lo buf)])
      (fun m => Saving buf s m [] ∧ m.x 31 = buf ∧ m.x 30 = s.x 30) := by
  have hsp := placed.spAligned
  have h8 : (s.x 2 - 8#32).toNat % 4 = 0 := by bv_omega
  have h4 : (s.x 2 - 4#32).toNat % 4 = 0 := by bv_omega
  have hne : s.x 2 - 8#32 ≠ s.x 2 - 4#32 := by bv_omega
  let down := s.setX 2 (s.x 2 - 8#32)
  let first := down.setMem (s.x 2 - 8#32) (s.x 30)
  let second := first.setMem (s.x 2 - 4#32) (s.x 31)
  have hdown : ContextInstr.exec writable s (.addi 2 2 (-8)) = some down := by
    refine addi_to ?_
    rw [show BitVec.signExtend 32 (-8 : BitVec 12) = -8#32 by decide]
    bv_omega
  have hfirst : ContextInstr.exec writable down (.sw 30 0 2) = some first := by
    refine sw_at ?_ h8
    rw [show BitVec.signExtend 32 (0 : BitVec 12) = 0#32 by decide, BitVec.add_zero]
    rfl
  have hsecond : ContextInstr.exec writable first (.sw 31 4 2) = some second := by
    refine sw_at ?_ h4
    rw [show BitVec.signExtend 32 (4 : BitVec 12) = 4#32 by decide]
    show s.x 2 - 8#32 + 4#32 = s.x 2 - 4#32
    bv_omega
  have hpush : [ContextInstr.addi 2 2 (-8), .sw 30 0 2, .sw 31 4 2].foldlM
      (ContextInstr.exec writable) s = some second := by
    simp only [List.foldlM_cons, List.foldlM_nil, hdown, hfirst, hsecond, Option.bind_eq_bind,
      Option.bind_some, Option.pure_def]
  intro m hm
  rw [hm]
  refine ⟨second.setX 31 buf, ?_, ?_, rfl, rfl⟩
  · rw [List.foldlM_append, hpush]
    exact la_buf writable buf second
  · refine Saving.setTemp ?_ (.inr rfl) buf
    exact
      { words := fun i hi => absurd hi List.not_mem_nil
        pushed30 := by
          show Function.update _ _ _ _ = _
          rw [Function.update_of_ne hne]
          exact Function.update_self ..
        pushed31 := Function.update_self ..
        frame := fun a _ h8 h4 => by
          show Function.update _ _ _ _ = _
          rw [Function.update_of_ne h4]
          exact Function.update_of_ne h8 ..
        sp := rfl
        x := fun r h2 _ _ => if_neg fun h => h2 h.1
        csr := rfl
        f := rfl
        fcsr := rfl }

theorem save_gprs (placed : Placed buf s) :
    Triple (ContextInstr.exec writable)
      (fun m => Saving buf s m [] ∧ m.x 31 = buf ∧ m.x 30 = s.x 30)
      (gprWords.flatMap fun p => [.sw p.1 (wordOffset p.2) 31])
      (fun m => Saving buf s m (gprWords.map Prod.snd) ∧ m.x 31 = buf ∧ m.x 30 = s.x 30) := by
  refine Triple.table (I := fun done m =>
    Saving buf s m (done.map Prod.snd) ∧ m.x 31 = buf ∧ m.x 30 = s.x 30)
    fun done p hp => Triple.single fun m ⟨hm, hbase, h30⟩ => ?_
  obtain ⟨r, rfl, hr2, hr31⟩ := gprWords_kept p hp
  have hvalue : m.x r.succ = (Kept.x r).value s := by
    by_cases hr : r.succ = 30
    · rw [hr, h30, Kept.value, hr]
    · exact hm.x r.succ hr2 hr hr31
  refine ⟨m.setMem (bufWord buf r) (m.x r.succ), ?_, ?_, hbase, h30⟩
  · exact sw_at (base_word hbase (Kept.x r).word_lt) (bufWord_aligned placed.bufAligned r)
  · rw [List.map_append, hvalue]
    exact hm.setWord placed (.x r)

theorem save_sp (placed : Placed buf s) {done : List Nat} :
    Triple (ContextInstr.exec writable) (fun m => Saving buf s m done ∧ m.x 31 = buf)
      [.addi 30 31 0, .addi 31 2 0, .addi 31 31 8, .sw 31 (wordOffset 1) 30]
      (fun m => Saving buf s m (done ++ [1]) ∧ m.x 30 = buf) := by
  have hzero : BitVec.signExtend 32 (0 : BitVec 12) = 0#32 := by decide
  have height : BitVec.signExtend 32 (8 : BitVec 12) = 8#32 := by decide
  refine Triple.cons (R := fun m => Saving buf s m done ∧ m.x 30 = buf) ?_
    (Triple.cons (R := fun m => Saving buf s m done ∧ m.x 30 = buf ∧ m.x 31 = s.x 2 - 8#32) ?_
    (Triple.cons (R := fun m => Saving buf s m done ∧ m.x 30 = buf ∧ m.x 31 = s.x 2) ?_
    (Triple.single ?_)))
  · intro m ⟨hm, hbase⟩
    refine ⟨m.setX 30 buf, addi_to ?_, hm.setTemp (.inl rfl) buf, rfl⟩
    rw [hbase, hzero, BitVec.add_zero]
  · intro m ⟨hm, hbase⟩
    refine ⟨m.setX 31 (s.x 2 - 8#32), addi_to ?_, hm.setTemp (.inr rfl) _, hbase, rfl⟩
    rw [hm.sp, hzero, BitVec.add_zero]
  · intro m ⟨hm, hbase, h31⟩
    refine ⟨m.setX 31 (s.x 2), addi_to ?_, hm.setTemp (.inr rfl) _, hbase, rfl⟩
    rw [h31, height, BitVec.sub_add_cancel]
  · intro m ⟨hm, hbase, h31⟩
    refine ⟨m.setMem (bufWord buf 1) (m.x 31), ?_, ?_, hbase⟩
    · exact sw_at (base_word hbase (by decide)) (bufWord_aligned placed.bufAligned 1)
    · rw [h31]
      exact hm.setWord placed (.x 1)

theorem save_csrs (placed : Placed buf s) {done : List Nat} :
    Triple (ContextInstr.exec writable) (fun m => Saving buf s m done ∧ m.x 30 = buf)
      (csrWords.flatMap fun p => [.csrr 31 p.1, .sw 31 (wordOffset p.2) 30])
      (fun m => Saving buf s m (done ++ csrWords.map Prod.snd) ∧ m.x 30 = buf) := by
  let I : List (ContextCsr × Nat) → Hart → Prop := fun stored m =>
    Saving buf s m (done ++ stored.map Prod.snd) ∧ m.x 30 = buf
  suffices htable : Triple (ContextInstr.exec writable) (I [])
      (csrWords.flatMap fun p => [.csrr 31 p.1, .sw 31 (wordOffset p.2) 30]) (I csrWords) by
    simpa [I] using htable
  refine Triple.table (I := I) fun stored p hp => ?_
  have hword : p.2 = (Kept.csr p.1).word := csrWords_kept p hp
  refine Triple.cons (R := fun m => (Saving buf s m (done ++ stored.map Prod.snd) ∧
    m.x 30 = buf) ∧ m.x 31 = s.csr p.1) ?_ (Triple.single ?_)
  · intro m ⟨hm, hbase⟩
    exact ⟨m.setX 31 (m.csr p.1), rfl, ⟨hm.setTemp (.inr rfl) _, hbase⟩, by
      rw [setX_x, if_pos (by decide), hm.csr]⟩
  · intro m ⟨⟨hm, hbase⟩, h31⟩
    refine ⟨m.setMem (bufWord buf p.2) (m.x 31), ?_, ?_, hbase⟩
    · exact sw_at (base_word hbase (by rw [hword]; exact Kept.word_lt _))
        (bufWord_aligned placed.bufAligned _)
    · rw [List.map_append, ← List.append_assoc, h31]
      show Saving buf s (m.setMem (bufWord buf p.2) (s.csr p.1)) (_ ++ [p.2])
      rw [hword]
      exact hm.setWord placed (.csr p.1)

theorem save_fprs (placed : Placed buf s) (hfp : s.fpOn) {done : List Nat} :
    Triple (ContextInstr.exec writable) (fun m => Saving buf s m done ∧ m.x 30 = buf)
      (.frcsr 31 :: ((fprWords.flatMap fun p => [.fsw p.1 (wordOffset p.2) 30]) ++
        [.sw 31 (wordOffset 74) 30]))
      (fun m => Saving buf s m (done ++ fprWords.map Prod.snd ++ [74]) ∧ m.x 30 = buf) := by
  have hon : ∀ m stored, Saving buf s m stored → m.fpOn := by
    intro m stored hm
    rw [Hart.fpOn, hm.csr]
    exact hfp
  let I : List (Fin 32 × Nat) → Hart → Prop := fun stored m =>
    Saving buf s m (done ++ stored.map Prod.snd) ∧ m.x 30 = buf ∧ m.x 31 = s.fcsr.setWidth 32
  refine Triple.cons (R := I []) ?_ (Triple.append (R := I fprWords) ?_ (Triple.single ?_))
  · intro m ⟨hm, hbase⟩
    refine ⟨m.setX 31 (s.fcsr.setWidth 32), ?_, ?_, hbase, rfl⟩
    · rw [ContextInstr.exec, if_pos (hon m done hm), hm.fcsr]
    · simpa using hm.setTemp (.inr rfl) _
  · refine Triple.table (I := I) fun stored p hp => Triple.single ?_
    intro m ⟨hm, hbase, h31⟩
    have hword : p.2 = (Kept.f p.1).word := fprWords_kept p hp
    refine ⟨m.setMem (bufWord buf p.2) (m.f p.1), ?_, ?_, hbase, h31⟩
    · exact fsw_word placed.bufAligned (by rw [hword]; exact Kept.word_lt _) hbase
        (hon m _ hm)
    · rw [List.map_append, ← List.append_assoc, hm.f]
      show Saving buf s (m.setMem (bufWord buf p.2) (s.f p.1)) (_ ++ [p.2])
      rw [hword]
      exact hm.setWord placed (.f p.1)
  · intro m ⟨hm, hbase, h31⟩
    refine ⟨m.setMem (bufWord buf 74) (m.x 31), ?_, ?_, hbase⟩
    · exact sw_at (base_word hbase (by decide)) (bufWord_aligned placed.bufAligned 74)
    · rw [h31]
      exact hm.setWord placed .fcsr

/-- The hart at the end of `tlk_context_save`. -/
structure Saved (buf : BitVec 32) (s t : Hart) (done : List Nat) : Prop where
  words : ∀ i : Kept, i.word ∈ done → t.mem (bufWord buf i.word) = i.value s
  frame : ∀ a, (∀ word < 128, a ≠ bufWord buf word) → a ≠ s.x 2 - 8#32 → a ≠ s.x 2 - 4#32 →
    t.mem a = s.mem a
  x : t.x = s.x
  csr : t.csr = s.csr
  f : t.f = s.f
  fcsr : t.fcsr = s.fcsr

theorem save_pop (placed : Placed buf s) {done : List Nat} :
    Triple (ContextInstr.exec writable) (fun m => Saving buf s m done ∧ m.x 30 = buf)
      [.lw 31 4 2, .sw 31 (wordOffset 30) 30, .lw 30 0 2, .addi 2 2 8]
      (fun m => Saved buf s m (done ++ [30])) := by
  have hsp := placed.spAligned
  have h8 : (s.x 2 - 8#32).toNat % 4 = 0 := by bv_omega
  have h4 : (s.x 2 - 4#32).toNat % 4 = 0 := by bv_omega
  have hzero : BitVec.signExtend 32 (0 : BitVec 12) = 0#32 := by decide
  have hfour : BitVec.signExtend 32 (4 : BitVec 12) = 4#32 := by decide
  have height : BitVec.signExtend 32 (8 : BitVec 12) = 8#32 := by decide
  refine Triple.cons (R := fun m => (Saving buf s m done ∧ m.x 30 = buf) ∧ m.x 31 = s.x 31) ?_
    (Triple.cons (R := fun m => Saving buf s m (done ++ [30]) ∧ m.x 31 = s.x 31) ?_
    (Triple.cons (R := fun m => (Saving buf s m (done ++ [30]) ∧ m.x 31 = s.x 31) ∧
      m.x 30 = s.x 30) ?_ (Triple.single ?_)))
  · intro m ⟨hm, hbase⟩
    refine ⟨m.setX 31 (m.mem (s.x 2 - 4#32)), lw_at ?_ h4, ⟨hm.setTemp (.inr rfl) _, hbase⟩, ?_⟩
    · rw [hm.sp, hfour]
      bv_omega
    · rw [setX_x, if_pos (by decide), hm.pushed31]
  · intro m ⟨⟨hm, hbase⟩, h31⟩
    refine ⟨m.setMem (bufWord buf 30) (m.x 31), ?_, ?_, h31⟩
    · exact sw_at (base_word hbase (by decide)) (bufWord_aligned placed.bufAligned 30)
    · rw [h31]
      exact hm.setWord placed (.x 30)
  · intro m ⟨hm, h31⟩
    refine ⟨m.setX 30 (m.mem (s.x 2 - 8#32)), lw_at ?_ h8, ⟨hm.setTemp (.inl rfl) _, h31⟩, ?_⟩
    · rw [hm.sp, hzero, BitVec.add_zero]
    · rw [setX_x, if_pos (by decide), hm.pushed30]
  · intro m ⟨⟨hm, h31⟩, h30⟩
    refine ⟨m.setX 2 (s.x 2), addi_to ?_, hm.words, hm.frame, ?_, hm.csr, hm.f, hm.fcsr⟩
    · rw [hm.sp, height, BitVec.sub_add_cancel]
    · funext r
      rw [setX_x]
      split
      · next h => rw [h.1]
      · next h =>
        have h2 : r ≠ 2 := fun hr => h ⟨hr, by decide⟩
        by_cases hr30 : r = 30
        · rw [hr30, h30]
        · by_cases hr31 : r = 31
          · rw [hr31, h31]
          · exact hm.x r h2 hr30 hr31

/-- The words that `tlk_context_save` stores. -/
def savedWords (flen : Bool) : List Nat :=
  gprWords.map Prod.snd ++ [1] ++ csrWords.map Prod.snd ++
    (if flen then fprWords.map Prod.snd ++ [74] else []) ++ [30]

theorem savedWords_complete (flen : Bool) (i : Kept) (hfp : i.fp = true → flen = true) :
    i.word ∈ savedWords flen := by
  have hx : ∀ flen, ∀ r : Fin 31, (r : Nat) ∈ savedWords flen := by decide +kernel
  have hcsr : ∀ flen, ∀ c : ContextCsr, c.word ∈ savedWords flen := by
    intro flen c
    cases flen <;> cases c <;> decide
  have hf : ∀ r : Fin 32, 42 + (r : Nat) ∈ savedWords true := by decide +kernel
  cases i with
  | x r => exact hx flen r
  | csr c => exact hcsr flen c
  | f r =>
    rw [hfp rfl]
    exact hf r
  | fcsr =>
    rw [hfp rfl]
    decide

theorem save_stores (placed : Placed buf s) (flen : Bool) (hfp : flen = true → s.fpOn) :
    Triple (ContextInstr.exec writable) (· = s) (tlkContextSave flen buf)
      (fun m => Saved buf s m (savedWords flen)) := by
  have hpush : Triple (ContextInstr.exec writable) _ _ _ := save_push placed
  have hgprs := (hpush.append (save_gprs placed)).weaken
    fun m hm => (⟨hm.1, hm.2.1⟩ : Saving buf s m _ ∧ m.x 31 = buf)
  have hcsrs := (hgprs.append (save_sp placed)).append (save_csrs placed)
  unfold tlkContextSave savedWords
  cases flen with
  | false =>
    simp only [Bool.false_eq_true, if_false, List.append_nil]
    exact hcsrs.append (save_pop placed)
  | true =>
    simp only [if_true]
    rw [← List.append_assoc (_ ++ csrWords.map Prod.snd)]
    exact (hcsrs.append (save_fprs placed (hfp rfl))).append (save_pop placed)

end Save

/-! ## Restoring -/

/-- What hardware changes by itself: `FS` and `SD` of `mstatus`, where there is a floating-point
unit. -/
def fpBits (flen : Bool) (c : ContextCsr) : BitVec 32 :=
  if flen = true ∧ c = .mstatus then 0x80006000#32 else 0#32

/-- The bits of a control register that software decides. -/
def ownBits (writable : ContextCsr → BitVec 32) (flen : Bool) (c : ContextCsr) : BitVec 32 :=
  writable c &&& ~~~fpBits flen c

/-- The hart has the registers of `s`. -/
structure SameContext (writable : ContextCsr → BitVec 32) (flen : Bool) (s t : Hart) : Prop where
  x : t.x = s.x
  csr : ∀ c, t.csr c &&& ownBits writable flen c = s.csr c &&& ownBits writable flen c
  f : flen = true → t.f = s.f
  fcsr : flen = true → t.fcsr = s.fcsr

/-- The words that the buffer must hold for the registers of `s`. -/
def Retains (flen : Bool) (buf : BitVec 32) (s w : Hart) : Prop :=
  ∀ i : Kept, (i.fp = true → flen = true) → w.mem (bufWord buf i.word) = i.value s

/-- What holds through all of `tlk_context_restore`. -/
structure Restoring (buf : BitVec 32) (s w m : Hart) : Prop where
  mem : m.mem = w.mem
  sp : m.x 2 = s.x 2
  base : m.x 31 = buf

theorem csrw_own (v wr old : BitVec 32) (own : BitVec 32) :
    ((v &&& wr) ||| (old &&& ~~~wr)) &&& (wr &&& own) = v &&& (wr &&& own) := by
  apply BitVec.eq_of_getLsbD_eq
  intro i hi
  simp only [BitVec.getLsbD_and, BitVec.getLsbD_or, BitVec.getLsbD_not]
  cases v.getLsbD i <;> cases wr.getLsbD i <;> simp

theorem or_dirty_own (v d wr : BitVec 32) : (v ||| d) &&& (wr &&& ~~~d) = v &&& (wr &&& ~~~d) := by
  apply BitVec.eq_of_getLsbD_eq
  intro i hi
  simp only [BitVec.getLsbD_and, BitVec.getLsbD_or, BitVec.getLsbD_not]
  cases v.getLsbD i <;> cases d.getLsbD i <;> simp

section Restore

variable {writable : ContextCsr → BitVec 32} {flen : Bool} {buf : BitVec 32} {s w : Hart}

/-- A control register that has been written. -/
def Written (writable : ContextCsr → BitVec 32) (s m : Hart) (c : ContextCsr) : Prop :=
  ∃ old, m.csr c = (s.csr c &&& writable c) ||| (old &&& ~~~writable c)

theorem restore_csrs (haligned : buf.toNat % 4 = 0) (retains : Retains flen buf s w) :
    Triple (ContextInstr.exec writable) (fun m => Restoring buf s w m)
      (csrWords.flatMap fun p => [.lw 30 (wordOffset p.2) 31, .csrw p.1 30])
      (fun m => Restoring buf s w m ∧ ∀ c, Written writable s m c) := by
  let I : List (ContextCsr × Nat) → Hart → Prop := fun done m =>
    Restoring buf s w m ∧ ∀ c, c ∈ done.map Prod.fst → Written writable s m c
  have hall : ∀ c, c ∈ csrWords.map Prod.fst := by
    intro c
    cases c <;> decide
  suffices htable : Triple (ContextInstr.exec writable) (I [])
      (csrWords.flatMap fun p => [.lw 30 (wordOffset p.2) 31, .csrw p.1 30]) (I csrWords) by
    intro m hm
    obtain ⟨t, ht, hr, hw⟩ := htable m ⟨hm, fun c hc => absurd hc List.not_mem_nil⟩
    exact ⟨t, ht, hr, fun c => hw c (hall c)⟩
  refine Triple.table (I := I) fun done p hp => ?_
  have hword : p.2 = (Kept.csr p.1).word := csrWords_kept p hp
  refine Triple.cons (R := fun m => I done m ∧ m.x 30 = s.csr p.1) ?_ (Triple.single ?_)
  · intro m ⟨hm, hdone⟩
    refine ⟨m.setX 30 (m.mem (bufWord buf p.2)), ?_, ⟨⟨hm.mem, hm.sp, hm.base⟩, hdone⟩, ?_⟩
    · exact lw_at (base_word hm.base (by rw [hword]; exact Kept.word_lt _))
        (bufWord_aligned haligned _)
    · show m.mem (bufWord buf p.2) = s.csr p.1
      rw [hm.mem, hword]
      exact retains (.csr p.1) fun h => Bool.noConfusion h
  · intro m ⟨⟨hm, hdone⟩, h30⟩
    refine ⟨_, rfl, ⟨hm.mem, hm.sp, hm.base⟩, fun c hc => ?_⟩
    rw [List.map_append, List.mem_append] at hc
    by_cases hcp : c = p.1
    · subst hcp
      refine ⟨m.csr p.1, ?_⟩
      show Function.update _ _ _ _ = _
      rw [Function.update_self, h30]
    · obtain ⟨old, hold⟩ := hdone c (hc.resolve_right (by simpa using hcp))
      refine ⟨old, ?_⟩
      show Function.update _ _ _ _ = _
      rw [Function.update_of_ne hcp, hold]

/-- The control registers have the saved values, in the bits that software decides. -/
def SameCsrs (writable : ContextCsr → BitVec 32) (flen : Bool) (s m : Hart) : Prop :=
  ∀ c, m.csr c &&& ownBits writable flen c = s.csr c &&& ownBits writable flen c

theorem Written.same {m : Hart} (h : ∀ c, Written writable s m c) :
    SameCsrs writable flen s m := by
  intro c
  obtain ⟨old, hold⟩ := h c
  rw [hold, ownBits, csrw_own]

/-- With `FS` restored, the floating-point instructions do not trap. -/
theorem Written.fpOn {m : Hart} (h : Written writable s m .mstatus) (hfp : s.fpOn)
    (hfs : writable .mstatus &&& 0x6000#32 = 0x6000#32) : m.fpOn := by
  obtain ⟨old, hold⟩ := h
  have hown := csrw_own (s.csr .mstatus) (writable .mstatus) old 0x6000#32
  rw [hfs] at hown
  rw [Hart.fpOn, hold, hown]
  exact hfp

theorem markDirty_csr (m : Hart) (c : ContextCsr) :
    m.markDirty.csr c = if c = .mstatus then m.csr c ||| 0x80006000#32 else m.csr c := by
  show Function.update m.csr _ _ c = _
  rw [Function.update_apply]
  split
  · next h => rw [h]
  · rfl

/-- A change of the floating-point registers shows in `FS` and `SD` only. -/
theorem SameCsrs.markDirty {m : Hart} (h : SameCsrs writable true s m) :
    SameCsrs writable true s m.markDirty := by
  intro c
  rw [← h c, markDirty_csr]
  split
  · next hc =>
    subst hc
    exact or_dirty_own ..
  · rfl

theorem fpOn_markDirty (m : Hart) : m.markDirty.fpOn := by
  intro hoff
  have hbit := congrArg (fun v : BitVec 32 => v.getLsbD 13) hoff
  rw [markDirty_csr] at hbit
  simp at hbit

theorem restore_fprs (haligned : buf.toNat % 4 = 0) (retains : Retains true buf s w) :
    Triple (ContextInstr.exec writable)
      (fun m => Restoring buf s w m ∧ SameCsrs writable true s m ∧ m.fpOn)
      ((fprWords.flatMap fun p => [.flw p.1 (wordOffset p.2) 31]) ++
        [.lw 30 (wordOffset 74) 31, .fscsr 30])
      (fun m => Restoring buf s w m ∧ SameCsrs writable true s m ∧ m.f = s.f ∧
        m.fcsr = s.fcsr) := by
  let I : List (Fin 32 × Nat) → Hart → Prop := fun done m =>
    (Restoring buf s w m ∧ SameCsrs writable true s m ∧ m.fpOn) ∧
      ∀ r, r ∈ done.map Prod.fst → m.f r = s.f r
  have hall : ∀ r, r ∈ fprWords.map Prod.fst := by decide +kernel
  have htable : Triple (ContextInstr.exec writable) (I [])
      (fprWords.flatMap fun p => [.flw p.1 (wordOffset p.2) 31]) (I fprWords) := by
    refine Triple.table (I := I) fun done p hp => Triple.single ?_
    intro m ⟨⟨hm, hcsrs, hon⟩, hdone⟩
    have hword : p.2 = (Kept.f p.1).word := fprWords_kept p hp
    refine ⟨_, flw_word haligned (by rw [hword]; exact Kept.word_lt _) hm.base hon,
      ⟨⟨hm.mem, hm.sp, hm.base⟩, SameCsrs.markDirty hcsrs, fpOn_markDirty _⟩, fun r hr => ?_⟩
    show Function.update m.f p.1 (m.mem (bufWord buf p.2)) r = s.f r
    rw [List.map_append, List.mem_append] at hr
    by_cases hrp : r = p.1
    · rw [hrp, Function.update_self, hm.mem, hword]
      exact retains (.f p.1) fun _ => rfl
    · rw [Function.update_of_ne hrp]
      exact hdone r (hr.resolve_right (by simpa using hrp))
  refine Triple.append (R := I fprWords)
    (fun m hm => htable m ⟨hm, fun r hr => absurd hr List.not_mem_nil⟩)
    (Triple.cons (R := fun m => I fprWords m ∧ m.x 30 = s.fcsr.setWidth 32) ?_
      (Triple.single ?_))
  · intro m ⟨⟨hm, hcsrs, hon⟩, hdone⟩
    refine ⟨m.setX 30 (m.mem (bufWord buf 74)), ?_,
      ⟨⟨⟨hm.mem, hm.sp, hm.base⟩, hcsrs, hon⟩, hdone⟩, ?_⟩
    · exact lw_at (base_word hm.base (by decide)) (bufWord_aligned haligned _)
    · show m.mem (bufWord buf 74) = _
      rw [hm.mem]
      exact retains .fcsr fun _ => rfl
  · intro m ⟨⟨⟨hm, hcsrs, hon⟩, hdone⟩, h30⟩
    refine ⟨_, if_pos hon, ⟨hm.mem, hm.sp, hm.base⟩, SameCsrs.markDirty hcsrs,
      funext fun r => hdone r (hall r), ?_⟩
    show (m.x 30).setWidth 8 = s.fcsr
    rw [h30, BitVec.setWidth_setWidth_of_le _ (by decide), BitVec.setWidth_eq]

/-- The general registers come last: each is taken from the buffer while its address is in `x31`,
and `x31` itself at the end. -/
theorem restore_gprs (haligned : buf.toNat % 4 = 0) (retains : Retains flen buf s w)
    {P : Hart → Prop} (hP : ∀ m rd v, P m → P (m.setX rd v)) :
    Triple (ContextInstr.exec writable) (fun m => Restoring buf s w m ∧ P m)
      ((gprWords.flatMap fun p => [.lw p.1 (wordOffset p.2) 31]) ++
        [.lw 31 (wordOffset 30) 31])
      (fun m => m.mem = w.mem ∧ m.x = s.x ∧ P m) := by
  let I : List (Fin 32 × Nat) → Hart → Prop := fun done m =>
    (Restoring buf s w m ∧ P m) ∧ ∀ r, r ∈ done.map Prod.fst → m.x r = s.x r
  have hall : ∀ r : Fin 32, r = 0 ∨ r = 2 ∨ r = 31 ∨ r ∈ gprWords.map Prod.fst := by
    decide +kernel
  have htable : Triple (ContextInstr.exec writable) (I [])
      (gprWords.flatMap fun p => [.lw p.1 (wordOffset p.2) 31]) (I gprWords) := by
    refine Triple.table (I := I) fun done p hp => Triple.single ?_
    intro m ⟨⟨hm, hPm⟩, hdone⟩
    obtain ⟨r, rfl, hr2, hr31⟩ := gprWords_kept p hp
    refine ⟨m.setX r.succ (m.mem (bufWord buf r)), ?_, ⟨⟨hm.mem, ?_, ?_⟩, hP m _ _ hPm⟩, ?_⟩
    · exact lw_at (base_word hm.base (Kept.x r).word_lt) (bufWord_aligned haligned _)
    · rw [setX_x, if_neg fun h => hr2 h.1.symm, hm.sp]
    · rw [setX_x, if_neg fun h => hr31 h.1.symm, hm.base]
    · intro q hq
      rw [List.map_append, List.mem_append] at hq
      rw [setX_x]
      by_cases hqr : q = r.succ
      · rw [if_pos ⟨hqr, Fin.succ_ne_zero r⟩, hm.mem, hqr]
        exact retains (.x r) fun h => Bool.noConfusion h
      · rw [if_neg fun h => hqr h.1]
        exact hdone q (hq.resolve_right (by simpa using hqr))
  refine Triple.append (R := I gprWords)
    (fun m hm => htable m ⟨hm, fun r hr => absurd hr List.not_mem_nil⟩) (Triple.single ?_)
  intro m ⟨⟨hm, hPm⟩, hdone⟩
  refine ⟨m.setX 31 (m.mem (bufWord buf 30)), ?_, hm.mem, ?_, hP m _ _ hPm⟩
  · exact lw_at (base_word hm.base (by decide)) (bufWord_aligned haligned _)
  · funext r
    rw [setX_x]
    split
    · next h =>
      rw [h.1, hm.mem]
      exact retains (.x 30) fun h => Bool.noConfusion h
    · next h =>
      have h31 : r ≠ 31 := fun hr => h ⟨hr, by decide⟩
      rcases hall r with rfl | rfl | hr | hr
      · rw [m.zero, s.zero]
      · exact hm.sp
      · exact absurd hr h31
      · exact hdone r hr

theorem restore_registers (haligned : buf.toNat % 4 = 0) (retains : Retains flen buf s w)
    (hfp : flen = true → s.fpOn)
    (hfs : flen = true → writable .mstatus &&& 0x6000#32 = 0x6000#32) :
    Triple (ContextInstr.exec writable) (fun m => m = w ∧ m.x 2 = s.x 2)
      (tlkContextRestore flen buf)
      (fun t => t.mem = w.mem ∧ SameContext writable flen s t) := by
  have hla : Triple (ContextInstr.exec writable) (fun m => m = w ∧ m.x 2 = s.x 2)
      [.lui 31 (hi buf), .addi 31 31 (lo buf)] (fun m => Restoring buf s w m) := by
    rintro m ⟨rfl, hsp⟩
    exact ⟨m.setX 31 buf, la_buf writable buf m, rfl, hsp, rfl⟩
  have hcsrs := hla.append (restore_csrs haligned retains)
  unfold tlkContextRestore
  cases flen with
  | false =>
    simp only [Bool.false_eq_true, if_false, List.append_nil]
    rw [List.append_assoc]
    refine ((hcsrs.weaken fun m hm => ⟨hm.1, Written.same hm.2⟩).append
      (restore_gprs (P := SameCsrs writable false s) haligned retains
        fun m rd v hm => hm)).weaken fun t ht => ⟨ht.1, ht.2.1, ht.2.2, ?_, ?_⟩ <;> simp
  | true =>
    simp only [if_true]
    rw [List.append_assoc]
    refine (((hcsrs.weaken fun m hm => ⟨hm.1, Written.same hm.2,
        Written.fpOn (hm.2 .mstatus) (hfp rfl) (hfs rfl)⟩).append
      (restore_fprs haligned retains)).append
      (restore_gprs (P := fun m => SameCsrs writable true s m ∧ m.f = s.f ∧ m.fcsr = s.fcsr)
        haligned retains fun m rd v hm => hm)).weaken fun t ht =>
        ⟨ht.1, ht.2.1, ht.2.2.1, fun _ => ht.2.2.2.1, fun _ => ht.2.2.2.2⟩

end Restore

/-! ## The two routines together -/

/-- A hart that has its floating-point unit on, with a stack at `0x80000` and registers that all
differ. -/
def awakeHart : Hart where
  x := fun r => if r = 2 then 0x80000#32 else BitVec.ofNat 32 (r * 17)
  f := fun r => BitVec.ofNat 32 (r * 29)
  fcsr := 0x21#8
  csr := fun c => if c = .mstatus then 0x2008#32 else BitVec.ofNat 32 c.word
  mem := fun _ => 0#32
  zero := by decide

theorem awakeHart_placed : Placed 0x20000#32 awakeHart where
  bufAligned := by decide
  spAligned := by decide
  apart := by decide +kernel

end UniSdk.Core

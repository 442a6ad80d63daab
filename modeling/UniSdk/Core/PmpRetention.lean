import Mathlib
import UniSdk.Core.PmpEntries

/-!
# Memory protection across suspend and sleep

`tlk_pmp_save` copies the registers and `tlk_pmp_restore` writes them back one by one, the
addresses before the configurations. What the hardware takes of each write depends on the locks
it finds, and what the entries protect is looked at after every single write.
-/

namespace UniSdk.Core

/-- `tlk_pmp_config_retention` and `tlk_pmp_address_retention`. -/
structure PmpRetention where
  config0 : BitVec 32
  config1 : BitVec 32
  address : Fin 8 → BitVec 32

/-- One `csrw` of the driver. -/
inductive PmpWrite
  | address (entry : Fin 8) (value : BitVec 32)
  | config0 (value : BitVec 32)
  | config1 (value : BitVec 32)

/-- What the hardware makes of one write. -/
def PmpWrite.exec (s : PmpRegs) : PmpWrite → PmpRegs
  | .address entry value =>
    if s.addressLocked entry then s
    else { s with addr := fun i => if i = entry then value else s.addr i }
  | .config0 value => { s with cfg0 := keepLockedBytes s 0 value }
  | .config1 value => { s with cfg1 := keepLockedBytes s 4 value }

/-- `tlk_pmp_save` -/
def tlkPmpSave (s : PmpRegs) : PmpRetention := ⟨s.cfg0, s.cfg1, fun i => s.addr i⟩

/-- The writes of `tlk_pmp_restore`, in their order. -/
def tlkPmpRestore (r : PmpRetention) : List PmpWrite :=
  (List.finRange 8).map (fun i => .address i (r.address i)) ++
    [.config0 r.config0, .config1 r.config1]

/-- The registers agree in the entry. -/
def SameEntry (t s : PmpRegs) (i : Fin 8) : Prop :=
  t.entryConfig i = s.entryConfig i ∧ t.addr i = s.addr i

/-- The entry is off, or it protects what it protects in `s`: the address of the entry before it
is the lower bound where the scheme is TOR. -/
def OffOrSame (t s : PmpRegs) (i : Fin 8) : Prop :=
  addressMatching (t.entryConfig i) = 0#2 ∨
    SameEntry t s i ∧ ∀ j : Fin 8, (j : Nat) + 1 = i → t.addr j = s.addr j

/-! ## The writes -/

/-- The configuration byte of an entry in one of the two registers. -/
def configByte (cfg : BitVec 32) (entry : Nat) : BitVec 8 :=
  (cfg >>> (8 * (entry % 4))).setWidth 8

theorem entryConfig_byte (s : PmpRegs) (entry : Nat) :
    s.entryConfig entry = configByte (if entry < 4 then s.cfg0 else s.cfg1) entry := rfl

theorem configByte_replaceByte (cfg : BitVec 32) (entry other : Nat) (config : BitVec 8) :
    configByte (replaceByte cfg entry config) other =
      if other % 4 = entry % 4 then config else configByte cfg other := by
  apply BitVec.eq_of_getLsbD_eq
  intro i hi
  have hpos : 8 * (other % 4) + i < 32 := by omega
  have hbyte : (8 * (other % 4) + i) / 8 = other % 4 := by omega
  have hbit : (8 * (other % 4) + i) % 8 = i := by omega
  rw [apply_ite (BitVec.getLsbD · i)]
  simp only [configByte, BitVec.getLsbD_setWidth, BitVec.getLsbD_ushiftRight, decide_eq_true hi,
    Bool.true_and]
  rw [getLsbD_replaceByte cfg entry config hpos, hbyte, hbit]

/-- A locked entry keeps its byte, the others take the new one. -/
theorem configByte_keepLockedBytes (old : PmpRegs) {first : Nat} (hfirst : first % 4 = 0)
    (cfg : BitVec 32) {entry : Nat} (hlo : first ≤ entry) (hhi : entry < first + 4) :
    configByte (keepLockedBytes old first cfg) entry =
      if old.locked entry then old.entryConfig entry else configByte cfg entry := by
  have hfold : ∀ (entries : List Nat) (cfg : BitVec 32),
      (∀ i ∈ entries, first ≤ i ∧ i < first + 4) →
      configByte (entries.foldl
        (fun cfg i => if old.locked i then replaceByte cfg i (old.entryConfig i) else cfg) cfg)
        entry =
      if entry ∈ entries ∧ old.locked entry = true then old.entryConfig entry
      else configByte cfg entry := by
    intro entries
    induction entries with
    | nil => simp
    | cons i entries ih =>
      intro cfg hin
      have hi := hin i List.mem_cons_self
      have hsame : entry % 4 = i % 4 ↔ entry = i := by omega
      rw [List.foldl_cons, ih _ fun j hj => hin j (List.mem_cons_of_mem i hj)]
      simp only [List.mem_cons]
      by_cases hentry : entry = i
      · subst hentry
        by_cases hlocked : old.locked entry = true
        · simp [hlocked, configByte_replaceByte]
        · simp [hlocked]
      · by_cases hlocked : old.locked i = true
        · simp [hlocked, configByte_replaceByte, hsame, hentry]
        · simp [hlocked, hentry]
  have hmem : entry ∈ List.range' first 4 := List.mem_range'_1.mpr ⟨hlo, hhi⟩
  rw [keepLockedBytes, hfold _ cfg fun i hi => List.mem_range'_1.mp hi]
  simp only [hmem, true_and]

theorem config0_entry (s : PmpRegs) (value : BitVec 32) (i : Fin 8) :
    (PmpWrite.exec s (.config0 value)).entryConfig i =
      if (i : Nat) < 4 ∧ s.locked i = false then configByte value i else s.entryConfig i := by
  rw [entryConfig_byte]
  by_cases hlow : (i : Nat) < 4
  · rw [if_pos hlow, PmpWrite.exec,
      configByte_keepLockedBytes s (by decide) value (Nat.zero_le _) hlow]
    cases s.locked i <;> simp [hlow]
  · rw [if_neg hlow, if_neg (fun h => hlow h.1), entryConfig_byte, if_neg hlow]
    rfl

theorem config1_entry (s : PmpRegs) (value : BitVec 32) (i : Fin 8) :
    (PmpWrite.exec s (.config1 value)).entryConfig i =
      if 4 ≤ (i : Nat) ∧ s.locked i = false then configByte value i else s.entryConfig i := by
  rw [entryConfig_byte]
  by_cases hlow : (i : Nat) < 4
  · rw [if_pos hlow, if_neg (by omega), entryConfig_byte, if_pos hlow]
    rfl
  · rw [if_neg hlow, PmpWrite.exec,
      configByte_keepLockedBytes s (by decide) value (by omega) (by omega)]
    have hhigh : 4 ≤ (i : Nat) := by omega
    cases s.locked i <;> simp [hhigh]

theorem addressLocked_congr {s t : PmpRegs} (h0 : t.cfg0 = s.cfg0) (h1 : t.cfg1 = s.cfg1)
    (entry : Nat) : t.addressLocked entry = s.addressLocked entry := by
  unfold PmpRegs.addressLocked PmpRegs.locked PmpRegs.entryConfig
  rw [h0, h1]

/-- Writes of addresses change no lock, so each is dropped or taken as at the start. -/
theorem addresses_exec (address : Fin 8 → BitVec 32) (entries : List (Fin 8)) (w : PmpRegs) :
    let t := (entries.map fun i => PmpWrite.address i (address i)).foldl PmpWrite.exec w
    t.cfg0 = w.cfg0 ∧ t.cfg1 = w.cfg1 ∧
      ∀ j : Fin 8, t.addr j =
        if j ∈ entries ∧ w.addressLocked j = false then address j else w.addr j := by
  induction entries generalizing w with
  | nil => simp
  | cons i entries ih =>
    rw [List.map_cons, List.foldl_cons]
    have hcfg : (PmpWrite.exec w (.address i (address i))).cfg0 = w.cfg0 ∧
        (PmpWrite.exec w (.address i (address i))).cfg1 = w.cfg1 := by
      unfold PmpWrite.exec
      dsimp only
      split <;> exact ⟨rfl, rfl⟩
    obtain ⟨h0, h1, haddr⟩ := ih (PmpWrite.exec w (.address i (address i)))
    refine ⟨h0.trans hcfg.1, h1.trans hcfg.2, fun j => ?_⟩
    rw [haddr j]
    simp only [addressLocked_congr hcfg.1 hcfg.2, List.mem_cons]
    by_cases hlocked : w.addressLocked j = false
    · by_cases hj : j = i
      · subst hj
        by_cases hin : j ∈ entries <;> simp [hlocked, hin, PmpWrite.exec]
      · have hne : (j : Nat) ≠ i := fun h => hj (Fin.ext h)
        have hkeep : (PmpWrite.exec w (.address i (address i))).addr j = w.addr j := by
          unfold PmpWrite.exec
          dsimp only
          split
          · rfl
          · exact if_neg hne
        simp [hlocked, hj, hkeep]
    · have hkeep : (PmpWrite.exec w (.address i (address i))).addr j = w.addr j := by
        unfold PmpWrite.exec
        dsimp only
        split
        · rfl
        · next hopen =>
          refine if_neg fun h => hlocked ?_
          rw [h]
          simpa using hopen
      simp [hlocked, hkeep]

/-! ## What a restore leaves -/

/-- The registers after the first `n` writes of a restore. -/
def restoredUpTo (s w : PmpRegs) (n : Nat) : PmpRegs :=
  ((tlkPmpRestore (tlkPmpSave s)).take n).foldl PmpWrite.exec w

theorem mem_take_finRange (n : Nat) (i : Fin 8) :
    i ∈ (List.finRange 8).take n ↔ (i : Nat) < n := by
  by_cases hn : n < 8
  · have hall : ∀ (n i : Fin 8), i ∈ (List.finRange 8).take n ↔ (i : Nat) < n := by decide +kernel
    exact hall ⟨n, hn⟩ i
  · rw [List.take_of_length_le (by simpa using hn)]
    have hi := i.isLt
    simp only [List.mem_finRange, true_iff]
    omega

/-- The writes up to the `n`-th: addresses, and the configurations once the addresses are done. -/
theorem take_tlkPmpRestore (r : PmpRetention) (n : Nat) :
    (tlkPmpRestore r).take n =
      ((List.finRange 8).take n).map (fun i => .address i (r.address i)) ++
        [.config0 r.config0, .config1 r.config1].take (n - 8) := by
  rw [tlkPmpRestore, List.take_append, List.map_take, List.length_map, List.length_finRange]

theorem configByte_saved_low (s : PmpRegs) {i : Fin 8} (hi : (i : Nat) < 4) :
    configByte s.cfg0 i = s.entryConfig i := by rw [entryConfig_byte, if_pos hi]

theorem configByte_saved_high (s : PmpRegs) {i : Fin 8} (hi : ¬ (i : Nat) < 4) :
    configByte s.cfg1 i = s.entryConfig i := by rw [entryConfig_byte, if_neg hi]

/-- What the registers are after `n` writes: the configurations follow the eight addresses. -/
theorem restoredUpTo_entries (s w : PmpRegs) (n : Nat) (i : Fin 8) :
    (restoredUpTo s w n).entryConfig i =
        (if (if (i : Nat) < 4 then 8 else 9) < n ∧ w.locked i = false then s.entryConfig i
          else w.entryConfig i) ∧
      (restoredUpTo s w n).addr i =
        if (i : Nat) < n ∧ w.addressLocked i = false then s.addr i else w.addr i := by
  unfold restoredUpTo
  rw [take_tlkPmpRestore, List.foldl_append]
  obtain ⟨h0, h1, haddr⟩ := addresses_exec (tlkPmpSave s).address ((List.finRange 8).take n) w
  have haddr' := haddr i
  simp only [mem_take_finRange] at haddr'
  generalize (((List.finRange 8).take n).map _).foldl PmpWrite.exec w = t at h0 h1 haddr'
  have hconfig : ∀ i : Fin 8, t.entryConfig i = w.entryConfig i := by
    intro i
    rw [entryConfig_byte, entryConfig_byte, h0, h1]
  have hlocked : t.locked i = w.locked i := by
    unfold PmpRegs.locked
    rw [hconfig]
  obtain hn | hn | hn : n ≤ 8 ∨ n = 9 ∨ 10 ≤ n := by omega
  · have hnone : n - 8 = 0 := by omega
    rw [hnone]
    refine ⟨?_, haddr'⟩
    rw [if_neg (by split <;> omega)]
    exact hconfig i
  · subst hn
    refine ⟨?_, haddr'⟩
    show (PmpWrite.exec t (.config0 s.cfg0)).entryConfig i = _
    rw [config0_entry, hlocked, hconfig]
    by_cases hlow : (i : Nat) < 4
    · simp [hlow, configByte_saved_low s hlow]
    · simp [hlow]
  · obtain ⟨m, rfl⟩ : ∃ m, n = m + 10 := ⟨n - 10, by omega⟩
    rw [List.take_of_length_le (by simp)]
    refine ⟨?_, haddr'⟩
    show (PmpWrite.exec (PmpWrite.exec t (.config0 s.cfg0)) (.config1 s.cfg1)).entryConfig i = _
    have hlocked' : 4 ≤ (i : Nat) →
        (PmpWrite.exec t (.config0 s.cfg0)).locked i = w.locked i := by
      intro hhigh
      rw [← hlocked, PmpRegs.locked, config0_entry, if_neg (by omega)]
      rfl
    rw [config1_entry]
    by_cases hlow : (i : Nat) < 4
    · rw [if_neg (by omega), config0_entry, hlocked, hconfig]
      simp [hlow, configByte_saved_low s hlow]
    · have hhigh : 4 ≤ (i : Nat) := by omega
      have hkeep : (PmpWrite.exec t (.config0 s.cfg0)).entryConfig i = w.entryConfig i := by
        rw [config0_entry, if_neg fun h => hlow h.1, hconfig]
      rw [hlocked' hhigh, hkeep]
      simp [hlow, hhigh, configByte_saved_high s hlow]

/-- **A restore gives back exactly what is not locked otherwise.** Every entry is again as it was
saved if and only if the entries that are locked at the wake-up have kept their configurations,
and the addresses that are locked their values. -/
theorem tlkPmpRestore_restores (s w : PmpRegs) :
    (∀ i : Fin 8, SameEntry ((tlkPmpRestore (tlkPmpSave s)).foldl PmpWrite.exec w) s i) ↔
      ∀ i : Fin 8, (w.locked i = true → w.entryConfig i = s.entryConfig i) ∧
        (w.addressLocked i = true → w.addr i = s.addr i) := by
  have hall : (tlkPmpRestore (tlkPmpSave s)).foldl PmpWrite.exec w = restoredUpTo s w 10 := by
    rw [restoredUpTo, List.take_of_length_le (by simp [tlkPmpRestore])]
  rw [hall]
  refine forall_congr' fun i => ?_
  obtain ⟨hconfig, haddr⟩ := restoredUpTo_entries s w 10 i
  have hi := i.isLt
  have hturn : (if (i : Nat) < 4 then 8 else 9) < 10 := by split <;> omega
  have hbefore : (i : Nat) < 10 := by omega
  rw [SameEntry, hconfig, haddr]
  simp only [hturn, hbefore, true_and]
  cases w.locked i <;> cases w.addressLocked i <;> simp

/-- **No entry is ever half restored.** Where the entries at the wake-up are off or as they were
saved, and the addresses that are locked have kept their values, each entry is off or protects
what it protected after every single write of the restore. -/
theorem tlkPmpRestore_never_half (s w : PmpRegs) (n : Nat) (hwake : ∀ i, OffOrSame w s i)
    (hlocked : ∀ i : Fin 8, w.addressLocked i = true → w.addr i = s.addr i) :
    ∀ i, OffOrSame (((tlkPmpRestore (tlkPmpSave s)).take n).foldl PmpWrite.exec w) s i := by
  intro i
  show OffOrSame (restoredUpTo s w n) s i
  have haddr : ∀ j : Fin 8, (j : Nat) < n → (restoredUpTo s w n).addr j = s.addr j := by
    intro j hj
    rw [(restoredUpTo_entries s w n j).2]
    cases hopen : w.addressLocked j with
    | true => simp [hlocked j hopen]
    | false => simp [hj]
  have hkept : ∀ j : Fin 8, w.addr j = s.addr j → (restoredUpTo s w n).addr j = s.addr j := by
    intro j hj
    rw [(restoredUpTo_entries s w n j).2, hj, ite_self]
  have hconfig := (restoredUpTo_entries s w n i).1
  by_cases hwritten : (if (i : Nat) < 4 then 8 else 9) < n ∧ w.locked i = false
  · -- the configuration is written, so all the addresses have been
    have hi := i.isLt
    have hn : 8 < n := by
      have hturn := hwritten.1
      split at hturn <;> omega
    rw [if_pos hwritten] at hconfig
    exact .inr ⟨⟨hconfig, haddr i (by omega)⟩, fun j hj => haddr j (by omega)⟩
  · rw [if_neg hwritten] at hconfig
    rcases hwake i with hoff | ⟨⟨hsame, hown⟩, hbelow⟩
    · exact .inl (by rw [hconfig]; exact hoff)
    · exact .inr ⟨⟨hconfig.trans hsame, hkept i hown⟩, fun j hj => hkept j (hbelow j hj)⟩

/-- Two entries, one of them ending where the other begins, after a sleep that has reset the
configurations: the first of the two configuration registers is written back. -/
theorem tlkPmpRestore_never_half_asleep :
    let s : PmpRegs := ⟨0x0F08#32, 0#32, fun i => if i = 0 then 0x800#32 else 0x900#32⟩
    let w : PmpRegs := ⟨0#32, 0#32, fun _ => 0x123#32⟩
    let halfway := ((tlkPmpRestore (tlkPmpSave s)).take 9).foldl PmpWrite.exec w
    OffOrSame halfway s 0 ∧ OffOrSame halfway s 1 := by
  intro s w halfway
  have hreset : ∀ i : Fin 8, addressMatching (w.entryConfig i) = 0#2 := by decide +kernel
  have hall := tlkPmpRestore_never_half s w 9 (fun i => .inl (hreset i)) (by decide +kernel)
  exact ⟨hall 0, hall 1⟩

end UniSdk.Core

import UniSdk.Library.Bitmap
import UniSdk.Library.Runs

/-!
# The DMA channel allocator

`tlk_dma.c` keeps one bit for each channel in a generated bit-field, which the two functions read
and write as a `uint8_t` with masks of 64 bits. The bits set are the channels that were reserved
at the start or are granted now.
-/

namespace UniSdk.Core

open Library Library.Runs

/-- The values of the generated `enum tlk_dma_chn`. -/
inductive TlkDmaChn
  | tlkDmaNone
  | tlkDma (num : Nat)
  deriving DecidableEq

/-- `TLK_BIT`, a shift of `1ULL`. -/
def tlkBit (n : Nat) : BitVec 64 := 1#64 <<< n

def tlkBmIsSet (x : BitVec 8) (mask : BitVec 64) : Bool := Bitmap.isSet x mask

def tlkBmSet (x : BitVec 8) (mask : BitVec 64) : BitVec 8 := Bitmap.set x mask

def tlkBmClr (x : BitVec 8) (mask : BitVec 64) : BitVec 8 := Bitmap.clear x mask

/-- The byte of the initialized `tlk_dma_channels`. The field of one bit for channel `num` lies at
bit `num` and holds its reservation. -/
def tlkDmaChannels (reserved : Nat → Bool) : Nat → BitVec 8
  | 0 => 0#8
  | num + 1 => tlkDmaChannels reserved num ||| (BitVec.ofBool (reserved num)).setWidth 8 <<< num

/-- The loop of `tlk_dma_chn_request` from channel `i` on, with `rest` channels to go. -/
def requestLoop (channels : BitVec 8) : Nat → Nat → TlkDmaChn × BitVec 8
  | 0, _ => (.tlkDmaNone, channels)
  | rest + 1, i =>
    if !tlkBmIsSet channels (tlkBit i) then (.tlkDma i, tlkBmSet channels (tlkBit i))
    else requestLoop channels rest (i + 1)

def tlkDmaChnRequest (count : Nat) (channels : BitVec 8) : TlkDmaChn × BitVec 8 :=
  requestLoop channels count 0

def tlkDmaChnRelease (num : Nat) (channels : BitVec 8) : BitVec 8 := tlkBmClr channels (tlkBit num)

/-! ## Histories -/

inductive Call
  | request
  | release (num : Nat)

/-- The bitmap, and the channels granted and not released since, the latest first. -/
structure Allocator where
  channels : BitVec 8
  granted : List Nat

def initialAllocator (count : Nat) (reserved : Nat → Bool) : Allocator :=
  ⟨tlkDmaChannels reserved count, []⟩

def callStep (count : Nat) (s : Allocator) : Call → Option Allocator
  | .request =>
    match tlkDmaChnRequest count s.channels with
    | (.tlkDma num, channels) => some ⟨channels, num :: s.granted⟩
    | (.tlkDmaNone, channels) => some ⟨channels, s.granted⟩
  | .release num => some ⟨tlkDmaChnRelease num s.channels, s.granted.erase num⟩

/-- Only granted channels are released. -/
def ReleasesGranted (s : Allocator) : Call → Allocator → Prop
  | .request, _ => True
  | .release num, _ => num ∈ s.granted

/-- What the bitmap stands for. -/
structure Tracks (count : Nat) (reserved : Nat → Bool) (s : Allocator) : Prop where
  bit_set : ∀ i < count, s.channels.getLsbD i = true ↔ reserved i = true ∨ i ∈ s.granted
  in_range : ∀ i ∈ s.granted, i < count ∧ reserved i = false
  nodup : s.granted.Nodup

/-- What a request gives in the channels from `i` on: the first free one, or none when all are
taken. -/
theorem requestLoop_cases (channels : BitVec 8) (rest i : Nat) (h : i + rest ≤ 8) :
    (∃ c, i ≤ c ∧ c < i + rest ∧ channels.getLsbD c = false ∧
      requestLoop channels rest i = (.tlkDma c, tlkBmSet channels (tlkBit c))) ∨
    ((∀ c, i ≤ c → c < i + rest → channels.getLsbD c = true) ∧
      requestLoop channels rest i = (.tlkDmaNone, channels)) := by
  induction rest generalizing i with
  | zero => exact .inr ⟨fun c hi hc => absurd hc (by omega), rfl⟩
  | succ rest ih =>
    have hset : tlkBmIsSet channels (tlkBit i) = channels.getLsbD i :=
      Bitmap.isSet_twoPow (by decide) channels (by omega)
    rw [requestLoop, hset]
    cases hbit : channels.getLsbD i with
    | false => exact .inl ⟨i, Nat.le_refl i, by omega, hbit, rfl⟩
    | true =>
      rw [if_neg (by decide)]
      rcases ih (i + 1) (by omega) with ⟨c, hi, hc, hfree, hloop⟩ | ⟨hall, hloop⟩
      · exact .inl ⟨c, by omega, by omega, hfree, hloop⟩
      · refine .inr ⟨fun c hi hc => ?_, hloop⟩
        by_cases hci : c = i
        · rw [hci]
          exact hbit
        · exact hall c (by omega) (by omega)

theorem request_cases {count : Nat} (hcount : count ≤ 8) (channels : BitVec 8) :
    (∃ c < count, channels.getLsbD c = false ∧
      tlkDmaChnRequest count channels = (.tlkDma c, tlkBmSet channels (tlkBit c))) ∨
    ((∀ c < count, channels.getLsbD c = true) ∧
      tlkDmaChnRequest count channels = (.tlkDmaNone, channels)) := by
  rcases requestLoop_cases channels count 0 (by omega) with ⟨c, -, hc, hfree, hloop⟩ | ⟨hall, hloop⟩
  · exact .inl ⟨c, by omega, hfree, hloop⟩
  · exact .inr ⟨fun c hc => hall c (Nat.zero_le c) (by omega), hloop⟩

theorem channels_bit (reserved : Nat → Bool) {i : Nat} (hi : i < 8) (count : Nat) :
    (tlkDmaChannels reserved count).getLsbD i = (decide (i < count) && reserved i) := by
  induction count with
  | zero => simp [tlkDmaChannels]
  | succ num ih =>
    rw [tlkDmaChannels, BitVec.getLsbD_or, ih, BitVec.getLsbD_shiftLeft, BitVec.getLsbD_setWidth,
      BitVec.getLsbD_ofBool]
    rcases Nat.lt_trichotomy i num with h | h | h
    · simp [h, Nat.lt_succ_of_lt h]
    · simp [h]
      omega
    · have hne : i - num ≠ 0 := by omega
      have hge : ¬ i < num + 1 := by omega
      simp [hne, hge, Nat.lt_asymm h]

variable {count : Nat} {reserved : Nat → Bool} {s s' : Allocator}

theorem initialAllocator_tracks (hcount : count ≤ 8) (reserved : Nat → Bool) :
    Tracks count reserved (initialAllocator count reserved) := by
  constructor
  · intro i hi
    rw [initialAllocator, channels_bit reserved (Nat.lt_of_lt_of_le hi hcount)]
    simp [hi]
  · exact fun i hi => absurd hi List.not_mem_nil
  · exact List.nodup_nil

/-- A free channel of the bitmap is not reserved and not granted. -/
theorem Tracks.free (h : Tracks count reserved s) {c : Nat} (hc : c < count)
    (hfree : s.channels.getLsbD c = false) : reserved c = false ∧ c ∉ s.granted := by
  have hbit := h.bit_set c hc
  rw [hfree] at hbit
  constructor
  · exact Bool.eq_false_iff.mpr fun hr => Bool.false_ne_true (hbit.mpr (.inl hr))
  · exact fun hg => Bool.false_ne_true (hbit.mpr (.inr hg))

/-- A grant keeps the invariant. -/
theorem Tracks.grant (h : Tracks count reserved s) (hcount : count ≤ 8) {c : Nat} (hc : c < count)
    (hfree : s.channels.getLsbD c = false) :
    Tracks count reserved ⟨tlkBmSet s.channels (tlkBit c), c :: s.granted⟩ := by
  obtain ⟨hreserved, hgranted⟩ := h.free hc hfree
  constructor
  · intro i hi
    have hbit : (tlkBmSet s.channels (tlkBit c)).getLsbD i =
        (s.channels.getLsbD i || decide (c = i)) :=
      Bitmap.getLsbD_set (by decide) s.channels (Nat.lt_of_lt_of_le hi hcount)
    rw [hbit, Bool.or_eq_true, h.bit_set i hi, decide_eq_true_iff, List.mem_cons, or_assoc,
      or_comm (a := i ∈ s.granted), eq_comm (a := c)]
  · intro i hi
    rcases List.mem_cons.mp hi with rfl | hold
    · exact ⟨hc, hreserved⟩
    · exact h.in_range i hold
  · exact List.nodup_cons.mpr ⟨hgranted, h.nodup⟩

/-- The release of a granted channel keeps the invariant. -/
theorem Tracks.release (h : Tracks count reserved s) (hcount : count ≤ 8) {c : Nat}
    (hc : c ∈ s.granted) :
    Tracks count reserved ⟨tlkDmaChnRelease c s.channels, s.granted.erase c⟩ := by
  constructor
  · intro i hi
    have hbit : (tlkDmaChnRelease c s.channels).getLsbD i =
        (s.channels.getLsbD i && !decide (c = i)) :=
      Bitmap.getLsbD_clear (by decide) s.channels (Nat.lt_of_lt_of_le hi hcount)
    rw [hbit, h.nodup.mem_erase_iff]
    by_cases hci : c = i
    · -- the released channel is not a reserved one
      have hr := (h.in_range c hc).2
      rw [← hci]
      simp [hr]
    · have hic : i ≠ c := fun he => hci he.symm
      rw [decide_eq_false hci, Bool.not_false, Bool.and_true, h.bit_set i hi]
      simp [hic]
  · exact fun i hi => h.in_range i (List.mem_of_mem_erase hi)
  · exact h.nodup.erase c

theorem callStep_tracks (hcount : count ≤ 8) {call : Call} (hstep : callStep count s call = some s')
    (hok : ReleasesGranted s call s') (h : Tracks count reserved s) : Tracks count reserved s' := by
  cases call with
  | request =>
    rcases request_cases hcount s.channels with ⟨c, hc, hfree, hreq⟩ | ⟨-, hreq⟩
    · rw [callStep, hreq, Option.some.injEq] at hstep
      rw [← hstep]
      exact h.grant hcount hc hfree
    · rw [callStep, hreq, Option.some.injEq] at hstep
      rw [← hstep]
      exact h
  | release num =>
    rw [callStep, Option.some.injEq] at hstep
    rw [← hstep]
    exact h.release hcount hok

/-- The allocator never hands out a channel twice. Wherever a history in which only granted
channels are released ends, the channels granted and not released since are distinct, below the
count and not reserved; the next request grants a channel of none of these kinds, and gives
`TLK_DMA_NONE` exactly when every channel is reserved or granted. -/
theorem dma_channels_exclusive (hcount : count ≤ 8) (reserved : Nat → Bool) {calls : List Call}
    (run : Run (callStep count) ReleasesGranted (initialAllocator count reserved) calls s) :
    s.granted.Nodup ∧ (∀ c ∈ s.granted, c < count ∧ reserved c = false) ∧
      (∀ c, (tlkDmaChnRequest count s.channels).1 = .tlkDma c →
        c < count ∧ reserved c = false ∧ c ∉ s.granted) ∧
      ((tlkDmaChnRequest count s.channels).1 = .tlkDmaNone ↔
        ∀ c < count, reserved c = true ∨ c ∈ s.granted) := by
  have h : Tracks count reserved s :=
    run.invariant (initialAllocator_tracks hcount reserved) fun s call s' hstep hok h =>
      callStep_tracks hcount hstep hok h
  refine ⟨h.nodup, h.in_range, ?_⟩
  rcases request_cases hcount s.channels with ⟨c, hc, hfree, hreq⟩ | ⟨hall, hreq⟩
  · obtain ⟨hreserved, hgranted⟩ := h.free hc hfree
    rw [hreq]
    constructor
    · intro d hd
      cases hd
      exact ⟨hc, hreserved, hgranted⟩
    · constructor
      · exact nofun
      · intro htaken
        rcases htaken c hc with hr | hg
        · rw [hreserved] at hr
          cases hr
        · exact absurd hg hgranted
  · rw [hreq]
    constructor
    · exact nofun
    · exact ⟨fun _ c hc => (h.bit_set c hc).mp (hall c hc), fun _ => rfl⟩

instance (s : Allocator) (call : Call) (s' : Allocator) : Decidable (ReleasesGranted s call s') :=
  match call with
  | .request => inferInstanceAs (Decidable True)
  | .release num => inferInstanceAs (Decidable (num ∈ s.granted))

/-- Four channels, the second reserved; three are granted, and the one released in between is
granted again. -/
theorem dma_channels_exclusive_regranted :
    let reserved : Nat → Bool := fun num => num == 1
    ∃ s, Run (callStep 4) ReleasesGranted (initialAllocator 4 reserved)
        [.request, .request, .release 0, .request, .request] s ∧ s.granted = [3, 0, 2] ∧
      s.granted.Nodup ∧ (∀ c ∈ s.granted, c < 4 ∧ reserved c = false) ∧
      (∀ c, (tlkDmaChnRequest 4 s.channels).1 = .tlkDma c →
        c < 4 ∧ reserved c = false ∧ c ∉ s.granted) ∧
      ((tlkDmaChnRequest 4 s.channels).1 = .tlkDmaNone ↔
        ∀ c < 4, reserved c = true ∨ c ∈ s.granted) := by
  intro reserved
  have hrun : ∃ s, Run (callStep 4) ReleasesGranted (initialAllocator 4 reserved)
      [.request, .request, .release 0, .request, .request] s ∧ s.granted = [3, 0, 2] := by
    apply exists_run_of_follow (fun s : Allocator => s.granted = [3, 0, 2])
    decide +kernel
  obtain ⟨s, run, hs⟩ := hrun
  exact ⟨s, run, hs, dma_channels_exclusive (by decide) reserved run⟩

end UniSdk.Core

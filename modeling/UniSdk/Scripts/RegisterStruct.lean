import UniSdk.Scripts.RegisterLayout

/-!
# The emitted struct lies as described

What `process_node` emits is a relation between a description and members: reserved bytes up to a
node, then the node where its offset is the pointer. The layout is read off the relation, and one
induction over the mapping shows that the walk only emits such members.
-/

namespace UniSdk.Scripts.Registers

open UniSdk.Library.Spans
open UniSdk.Library.Text (startsWith)

/-- Members emitted for a description from a pointer on, and the pointer behind them. -/
inductive Emitted : Int → Desc → Members → Int → Prop
  | nil {pointer : Int} : Emitted pointer .nil .nil pointer
  | gap {pointer stop : Int} {d : Desc} {members : Members} (index : Nat) :
      pointer < d.start → d ≠ .nil → Emitted d.start d members stop →
      Emitted pointer d (.reserved index (d.start - pointer) members) stop
  | register {offset len stop : Int} {name : String} {counts : List Int} {rest : Desc}
      {members : Members} : 0 < len →
      Emitted (offset + len * totalElements counts) rest members stop →
      Emitted offset (.register name offset len counts none rest)
        (.register name len counts members) stop
  | union {offset len stop : Int} {name : String} {counts : List Int} {rest : Desc}
      {members : Members} {bits : List BitMember} {overlay : Overlay} : 0 < len →
      bitSum bits = len * 8 → overlay.size = len →
      Emitted (offset + len * totalElements counts) rest members stop →
      Emitted offset (.register name offset len counts (some (bits.map BitMember.width)) rest)
        (.union name bits overlay counts members) stop
  | group {stop bodyStop : Int} {name : String} {counts : List Int} {body rest : Desc}
      {bodyMembers members : Members} :
      Emitted body.start body bodyMembers bodyStop →
      Emitted (body.start + (bodyStop - body.start) * totalElements counts) rest members stop →
      Emitted body.start (.group name counts body rest)
        (.struct name bodyMembers counts members) stop

/-! ### The layout of what is emitted -/

section Layout

variable {pointer stop : Int} {d : Desc} {members : Members}

theorem Emitted.stopFrom_eq (h : Emitted pointer d members stop) : d.stopFrom pointer = stop := by
  induction h with
  | nil => rfl
  | @gap pointer stop d members index hlt hne hd ih =>
    cases d with
    | nil => exact absurd rfl hne
    | register name offset len counts widths rest => exact ih
    | group name counts body rest => exact ih
  | register hlen hrest ih => exact ih
  | union hlen hsum hoverlay hrest ih => exact ih
  | group hbody hrest ihb ihr =>
    rw [Desc.stopFrom, ihb]
    exact ihr

theorem bitBytes_eight (len : Int) : bitBytes (len * 8) = len := by
  rw [bitBytes]
  omega

/-- Both views of a union have the size of the register. -/
theorem union_size {bits : List BitMember} {overlay : Overlay} {len total : Int}
    (hsum : bitSum bits = len * 8) (hoverlay : overlay.size = len) :
    max (bitBytes (bitSum bits) * total) (overlay.size * total) = len * total := by
  rw [hsum, bitBytes_eight, hoverlay, max_self]

theorem Emitted.size_eq (h : Emitted pointer d members stop) :
    members.size = stop - pointer := by
  induction h with
  | nil => exact (sub_self _).symm
  | gap index hlt hne hd ih =>
    rw [Members.size, ih]
    omega
  | register hlen hrest ih =>
    rw [Members.size, ih]
    omega
  | union hlen hsum hoverlay hrest ih =>
    rw [Members.size, union_size hsum hoverlay, ih]
    omega
  | group hbody hrest ihb ihr =>
    rw [Members.size, ihb, ihr]
    omega

theorem Emitted.offsets_eq (h : Emitted pointer d members stop) :
    members.offsets pointer = d.offsets := by
  induction h with
  | nil => rfl
  | @gap pointer stop d members index hlt hne hd ih =>
    have hstart : pointer + (d.start - pointer) = d.start := by omega
    rw [Members.offsets, hstart, ih]
  | register hlen hrest ih => rw [Members.offsets, ih, Desc.offsets]
  | union hlen hsum hoverlay hrest ih =>
    rw [Members.offsets, union_size hsum hoverlay, ih, Desc.offsets]
  | group hbody hrest ihb ihr =>
    rw [Members.offsets, ihb, hbody.size_eq, ihr, Desc.offsets]

theorem elements_shift (name : String) (base k len : Int) (counts : List Int) :
    elements name (base + k) len counts = (elements name base len counts).map (Cell.shift k) := by
  unfold elements
  rw [List.map_map]
  refine List.map_congr_left fun i _ => ?_
  show Cell.mk _ _ (base + k + i * len) len = Cell.mk _ _ (base + i * len + k) len
  rw [Int.add_right_comm]

/-- A struct that begins further on has its cells further on. -/
theorem Members.cells_shift (members : Members) (base k : Int) :
    members.cells (base + k) = (members.cells base).map (Cell.shift k) := by
  induction members generalizing base with
  | nil => rfl
  | reserved index gap rest ih =>
    rw [cells, cells, List.map_cons, Int.add_right_comm, ih]
    rfl
  | register name len counts rest ih =>
    rw [cells, cells, List.map_append, elements_shift, Int.add_right_comm, ih]
  | union name bits overlay counts rest ih =>
    rw [cells, cells, List.map_append, elements_shift, Int.add_right_comm, ih]
  | struct name body counts rest ihb ihr =>
    rw [cells, cells, List.map_append, Int.add_right_comm, ihr, List.map_flatMap]
    congr 2
    funext i
    rw [Int.add_right_comm, ihb, List.map_map, List.map_map]
    rfl

theorem elements_filter (name : String) (base len : Int) (counts : List Int) :
    (elements name base len counts).filter (fun cell => !cell.isReserved) =
      elements name base len counts := by
  refine List.filter_eq_self.mpr fun cell hcell => ?_
  obtain ⟨i, -, rfl⟩ := List.mem_map.mp hcell
  rfl

theorem Emitted.elementSize_eq (h : Emitted d.start d members stop) :
    members.size = d.elementSize := by
  rw [h.size_eq, Desc.elementSize, h.stopFrom_eq]

theorem Emitted.cells_eq (h : Emitted pointer d members stop) :
    (members.cells pointer).filter (fun cell => !cell.isReserved) = d.cells := by
  induction h with
  | nil => rfl
  | @gap pointer stop d members index hlt hne hd ih =>
    have hstart : pointer + (d.start - pointer) = d.start := by omega
    rw [Members.cells, hstart]
    exact ih
  | register hlen hrest ih =>
    rw [Members.cells, List.filter_append, elements_filter, ih, Desc.cells]
  | union hlen hsum hoverlay hrest ih =>
    rw [Members.cells, List.filter_append, elements_filter, union_size hsum hoverlay, ih,
      hoverlay, Desc.cells]
  | group hbody hrest ihb ihr =>
    rw [Members.cells, List.filter_append, hbody.elementSize_eq, Desc.cells,
      List.filter_flatMap]
    congr 1
    · congr 1
      funext i
      -- the body of element `i` is that of element 0, moved by `i` element sizes
      rw [Members.cells_shift, List.map_map, List.filter_map, ← ihb]
      rfl
    · rw [← hbody.elementSize_eq, hbody.size_eq]
      exact ihr

theorem Emitted.hasLayout_iff (h : Emitted pointer d members stop) :
    members.HasLayout ↔ d.NonNegative := by
  induction h with
  | nil => exact Iff.rfl
  | gap index hlt hne hd ih =>
    rw [Members.HasLayout, ih]
    exact and_iff_right (by omega)
  | register hlen hrest ih =>
    rw [Members.HasLayout, Desc.NonNegative, ih]
    exact (and_iff_right nofun).symm
  | union hlen hsum hoverlay hrest ih =>
    rw [Members.HasLayout, Desc.NonNegative, ih, Option.getD_some, List.forall_mem_map]
  | group hbody hrest ihb ihr => rw [Members.HasLayout, Desc.NonNegative, ihb, ihr]

theorem Emitted.equalViews (h : Emitted pointer d members stop) : members.EqualViews := by
  induction h with
  | nil => trivial
  | gap index hlt hne hd ih => exact ih
  | register hlen hrest ih => exact ih
  | union hlen hsum hoverlay hrest ih => exact ⟨by rw [hsum, hoverlay], ih⟩
  | group hbody hrest ihb ihr => exact ⟨ihb, ihr⟩

theorem totalElements_nonneg {counts : List Int} (h : ∀ count ∈ counts, 0 ≤ count) :
    0 ≤ totalElements counts := by
  suffices hfold : ∀ acc : Int, 0 ≤ acc → 0 ≤ counts.foldl (· * ·) acc from hfold 1 (by decide)
  induction counts with
  | nil => exact fun acc hacc => hacc
  | cons count counts ih =>
    intro acc hacc
    have hcount := h count List.mem_cons_self
    exact ih (fun c hc => h c (List.mem_cons_of_mem _ hc)) _ (Int.mul_nonneg hacc hcount)

/-- The elements of an array lie in a row. -/
theorem elements_ordered {len : Int} {counts : List Int} (name : String) (base : Int)
    (hlen : 0 ≤ len) (hcounts : ∀ count ∈ counts, 0 ≤ count) :
    Ordered Cell.start Cell.size base (base + len * totalElements counts)
      (elements name base len counts) := by
  have htotal := Int.toNat_of_nonneg (totalElements_nonneg hcounts)
  rw [elements, List.map_eq_flatMap, mul_comm len]
  nth_rewrite 1 [← htotal]
  refine Ordered.flatMap_range _ fun i _ => ?_
  exact ⟨le_refl (base + i * len), hlen, le_refl _⟩

/-- The elements of a struct lie in a row when its members do. -/
theorem struct_ordered {body : Members} {base : Int} {counts : List Int} (name : String)
    (hbody : Ordered Cell.start Cell.size base (base + body.size) (body.cells base))
    (hcounts : ∀ count ∈ counts, 0 ≤ count) :
    Ordered Cell.start Cell.size base (base + body.size * totalElements counts)
      ((List.range (totalElements counts).toNat).flatMap
        (fun i : Nat => (body.cells (base + i * body.size)).map (Cell.inside name i))) := by
  have htotal := Int.toNat_of_nonneg (totalElements_nonneg hcounts)
  rw [mul_comm body.size]
  nth_rewrite 1 [← htotal]
  refine Ordered.flatMap_range _ fun i _ => ?_
  rw [Members.cells_shift, List.map_map]
  have hrow := hbody.map (k := i * body.size)
    (f := Cell.inside name i ∘ Cell.shift (i * body.size)) (fun _ => rfl) (fun _ => rfl)
  rwa [Int.add_right_comm] at hrow

/-- Without a negative count the members lie in a row. -/
theorem Emitted.ordered (h : Emitted pointer d members stop) (hnonneg : d.NonNegative) :
    Ordered Cell.start Cell.size pointer stop (members.cells pointer) := by
  induction h with
  | nil => exact le_refl _
  | @gap pointer stop d members index hlt hne hd ih =>
    have hstart : pointer + (d.start - pointer) = d.start := by omega
    rw [Members.cells, hstart]
    refine ⟨le_refl pointer, ?_, ?_⟩
    · show 0 ≤ d.start - pointer
      omega
    · show Ordered _ _ (pointer + (d.start - pointer)) _ _
      rw [hstart]
      exact ih hnonneg
  | register hlen hrest ih =>
    obtain ⟨-, hcounts, hothers⟩ := hnonneg
    exact (elements_ordered _ _ hlen.le hcounts).append (ih hothers)
  | union hlen hsum hoverlay hrest ih =>
    obtain ⟨-, hcounts, hothers⟩ := hnonneg
    rw [Members.cells, union_size hsum hoverlay, hoverlay]
    exact (elements_ordered _ _ hlen.le hcounts).append (ih hothers)
  | @group stop bodyStop name counts body rest bodyMembers members hbody hrest ihb ihr =>
    obtain ⟨hcounts, hinner, hothers⟩ := hnonneg
    have hsize : body.start + bodyMembers.size = bodyStop := by
      rw [hbody.size_eq]
      omega
    have hrow := ihb hinner
    rw [← hsize] at hrow
    have hnext := ihr hothers
    rw [← hbody.size_eq] at hnext
    exact (struct_ordered name hrow hcounts).append hnext

end Layout

end UniSdk.Scripts.Registers

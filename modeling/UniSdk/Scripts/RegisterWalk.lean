import UniSdk.Scripts.RegisterStruct

/-!
# The walk over the description

What one node of `process_node` does is inverted once. From it, by induction over the mapping,
the walk emits members that lie as described, and the constants of `collect_enum_definitions` are
the positions of the bits in the emitted structs.
-/

namespace UniSdk.Scripts.Registers

open UniSdk.Library.Spans
open UniSdk.Library.Text (startsWith)

theorem bind_ok {ε α β : Type} {x : Except ε α} {f : α → Except ε β} {b : β}
    (h : x >>= f = .ok b) : ∃ a, x = .ok a ∧ f a = .ok b := by
  cases x with
  | error e => cases h
  | ok a => exact ⟨a, rfl, h⟩

section Walk

variable {Scalar : Type*} {py : Python Scalar} {device name : String}
  {path : List String} {counts : List Int} {val rest data : Mapping Scalar}

/-! ### Bit-fields -/

theorem readWidths_of_bitMembers {items : List (String × Value Scalar)} {bits : List BitMember}
    (h : bitMembers py device path items = .ok bits) :
    readWidths py items = some (bits.map BitMember.width) := by
  induction items generalizing bits with
  | nil =>
    cases h
    rfl
  | cons item items ih =>
    obtain ⟨width, hwidth, h⟩ := bind_ok h
    obtain ⟨tag, htag, h⟩ := bind_ok h
    obtain ⟨members, hmembers, h⟩ := bind_ok h
    cases h
    rw [readWidths, hwidth, ih hmembers]
    rfl

/-- The loop's offset is the position of the bit. -/
theorem flagValues_eq {items : List (String × Value Scalar)} {bits : List BitMember}
    {lead : String} {position : Int} {values : List (String × Int)}
    (hbits : bitMembers py device path items = .ok bits)
    (h : flagValues py lead position items = .ok values) :
    values = (bitPositions position bits).filterMap (fun entry =>
      if entry.1.width = 1 ∧ isReservedBfld py entry.1.name = false then
        some (lead ++ "_" ++ py.upper entry.1.name, entry.2)
      else none) := by
  induction items generalizing bits position values with
  | nil =>
    cases hbits
    cases h
    rfl
  | cons item items ih =>
    obtain ⟨width, hwidth, hbits⟩ := bind_ok hbits
    obtain ⟨tag, htag, hbits⟩ := bind_ok hbits
    obtain ⟨members, hmembers, hbits⟩ := bind_ok hbits
    cases hbits
    obtain ⟨width', hwidth', h⟩ := bind_ok h
    obtain rfl : width = width' := Except.ok.inj (hwidth.symm.trans hwidth')
    obtain ⟨others, hothers, h⟩ := bind_ok h
    have hrest := ih hmembers hothers
    cases h
    rw [bitPositions, List.filterMap_cons]
    split_ifs with hflag
    · exact congrArg _ hrest
    · exact hrest

theorem emitRegisterOverlay_size {regLen : Int} {bfld : Mapping Scalar} {overlay : Overlay}
    (h : emitRegisterOverlay py device path regLen bfld = .ok overlay) : overlay.size = regLen := by
  obtain ⟨values, -, h⟩ := bind_ok h
  cases h
  split_ifs with hvalues
  · exact bitBytes_eight regLen
  · rfl

/-! ### One node -/

theorem registerMember_cases {member : Members → Members} {regLen : Int}
    (h : registerMember py device path name val counts = .ok (member, regLen)) :
    ∃ len, val.find "len" = some len ∧ intOf py len = .ok regLen ∧ 0 < regLen ∧
      (val.find "bfld" = none ∧ member = .register name regLen counts ∨
        ∃ bfld bits overlay, val.find "bfld" = some (.inr bfld) ∧
          bitMembers py device path bfld.items = .ok bits ∧ bitSum bits = regLen * 8 ∧
          overlay.size = regLen ∧ member = .union name bits overlay counts) := by
  unfold registerMember at h
  cases hlen : val.find "len" with
  | none =>
    rw [hlen] at h
    cases h
  | some len =>
    rw [hlen] at h
    obtain ⟨n, hn, h⟩ := bind_ok h
    by_cases hvalid : n ∈ [1, 2, 4, 8]
    · rw [if_neg (not_not_intro hvalid)] at h
      have hpos : 0 < n := by
        simp only [List.mem_cons, List.not_mem_nil, or_false] at hvalid
        omega
      split at h
      · next hbfld =>
        cases h
        exact ⟨len, rfl, hn, hpos, .inl ⟨hbfld, rfl⟩⟩
      · cases h
      · next bfld hbfld =>
        obtain ⟨bits, hbits, h⟩ := bind_ok h
        split_ifs at h with hsum
        obtain ⟨overlay, hoverlay, h⟩ := bind_ok h
        cases h
        exact ⟨len, rfl, hn, hpos, .inr ⟨bfld, bits, overlay, hbfld, hbits,
          not_ne_iff.mp hsum, emitRegisterOverlay_size hoverlay, rfl⟩⟩
    · rw [if_pos hvalid] at h
      cases h

/-- What a node adds in front of the members behind it: a register, or a group with its body. -/
theorem processNode_mapping {pointer stop : Int} {reservedIdx reservedIdx' : Nat}
    {members : Members} (hname : ¬ startsWith name "_")
    (h : processNode py device (.mapping name val rest) pointer reservedIdx path =
      .ok (members, stop, reservedIdx')) :
    ∃ counts nodeStart member size idx others,
      parseRepeated py (val.find "_repeated") = .ok counts ∧
      getNodeOffset py name val = .ok nodeStart ∧ pointer ≤ nodeStart ∧
      processNode py device rest (nodeStart + size * totalElements counts) idx path =
        .ok (others, stop, reservedIdx') ∧
      members = (fillGap pointer nodeStart reservedIdx).1 (member others) ∧
      ((∃ value, val.find "offset" = some value ∧
          registerMember py device (path ++ [name]) name val counts = .ok (member, size)) ∨
        val.find "offset" = none ∧ ∃ body bodyStop,
          processNode py device val nodeStart (fillGap pointer nodeStart reservedIdx).2
            (path ++ [name]) = .ok (body, bodyStop, idx) ∧
          member = (fun others => .struct name body counts others) ∧
          size = bodyStop - nodeStart) := by
  rw [processNode, if_neg hname] at h
  obtain ⟨counts, hcounts, h⟩ := bind_ok h
  obtain ⟨nodeStart, hstart, h⟩ := bind_ok h
  split_ifs at h with hoverlap
  have hle : pointer ≤ nodeStart := not_lt.mp hoverlap
  cases hoffset : val.find "offset" with
  | some value =>
    rw [hoffset] at h
    obtain ⟨⟨member, regLen⟩, hmember, h⟩ := bind_ok h
    obtain ⟨node, hnode, h⟩ := bind_ok h
    cases hnode
    obtain ⟨⟨others, stop', idx'⟩, hrest, h⟩ := bind_ok h
    cases h
    exact ⟨counts, nodeStart, member, regLen, _, others, hcounts, hstart, hle, hrest, rfl,
      .inl ⟨value, rfl, hmember⟩⟩
  | none =>
    rw [hoffset] at h
    obtain ⟨⟨body, bodyStop, idx⟩, hbody, h⟩ := bind_ok h
    obtain ⟨node, hnode, h⟩ := bind_ok h
    cases hnode
    obtain ⟨⟨others, stop', idx'⟩, hrest, h⟩ := bind_ok h
    cases h
    exact ⟨counts, nodeStart, _, _, idx, others, hcounts, hstart, hle, hrest, rfl,
      .inr ⟨rfl, body, bodyStop, hbody, rfl, rfl⟩⟩

/-! ### The members lie as described -/

/-- A group starts where its first register is declared. -/
theorem start_of_childOffset {offset : Int} {d : Desc}
    (hoffset : childOffset py name val = .ok offset) (hd : describe py val = some d) :
    d.start = offset := by
  induction val generalizing name d with
  | nil => cases hoffset
  | scalar key value rest ih => exact ih hoffset hd
  | mapping key value rest ihv ihr =>
    rw [childOffset] at hoffset
    rw [describe] at hd
    by_cases hkey : startsWith key "_"
    · rw [if_pos hkey] at hoffset hd
      exact ihr hoffset hd
    · rw [if_neg hkey] at hoffset hd
      obtain ⟨counts, -, hd⟩ := Option.bind_eq_some_iff.mp hd
      have hnode : getNodeOffset py key value = .ok offset := hoffset
      cases hfind : value.find "offset" with
      | some own =>
        rw [hfind, hnode] at hd
        obtain ⟨own', hown, hd⟩ := Option.bind_eq_some_iff.mp hd
        cases hown
        obtain ⟨⟨len, widths⟩, -, hd⟩ := Option.bind_eq_some_iff.mp hd
        obtain ⟨others, -, hd⟩ := Option.bind_eq_some_iff.mp hd
        cases hd
        rfl
      | none =>
        rw [hfind] at hd hoffset
        obtain ⟨body, hbody, hd⟩ := Option.bind_eq_some_iff.mp hd
        obtain ⟨others, -, hd⟩ := Option.bind_eq_some_iff.mp hd
        cases hd
        show body.start = offset
        exact ihv hoffset hbody

theorem emitted_register {member : Members → Members} {regLen offset stop : Int} {d : Desc}
    {others : Members}
    (h : registerMember py device path name val counts = .ok (member, regLen))
    (hrest : Emitted (offset + regLen * totalElements counts) d others stop) :
    ∃ widths, readRegister py val = some (regLen, widths) ∧
      Emitted offset (.register name offset regLen counts widths d) (member others) stop := by
  obtain ⟨len, hlen, hint, hpos, hmember⟩ := registerMember_cases h
  unfold readRegister
  rw [hlen, Option.bind_some, hint]
  rcases hmember with ⟨hbfld, rfl⟩ | ⟨bfld, bits, overlay, hbfld, hbits, hsum, hoverlay, rfl⟩
  · exact ⟨none, by rw [hbfld]; rfl, .register hpos hrest⟩
  · refine ⟨some (bits.map BitMember.width), ?_, .union hpos hsum hoverlay hrest⟩
    rw [hbfld]
    dsimp only
    rw [readWidths_of_bitMembers hbits]
    rfl

theorem emitted_fillGap {pointer nodeStart stop : Int} {d : Desc} {members : Members}
    (reservedIdx : Nat) (hstart : d.start = nodeStart) (hle : pointer ≤ nodeStart) (hd : d ≠ .nil)
    (h : Emitted nodeStart d members stop) :
    Emitted pointer d ((fillGap pointer nodeStart reservedIdx).1 members) stop := by
  subst hstart
  unfold fillGap
  split_ifs with hlt
  · exact .gap reservedIdx hlt hd h
  · rwa [le_antisymm hle (not_lt.mp hlt)]

theorem processNode_emitted {pointer stop : Int} {reservedIdx reservedIdx' : Nat}
    {members : Members}
    (h : processNode py device data pointer reservedIdx path = .ok (members, stop, reservedIdx')) :
    ∃ d, describe py data = some d ∧ Emitted pointer d members stop := by
  induction data generalizing pointer stop reservedIdx reservedIdx' members path with
  | nil =>
    cases h
    exact ⟨.nil, rfl, .nil⟩
  | scalar key value rest ih => exact ih h
  | mapping name val rest ihv ihr =>
    by_cases hname : startsWith name "_"
    · rw [processNode, if_pos hname] at h
      rw [describe, if_pos hname]
      exact ihr h
    · obtain ⟨counts, nodeStart, member, size, idx, others, hcounts, hstart, hle, hrest, rfl,
        hnode⟩ := processNode_mapping hname h
      obtain ⟨dRest, hdRest, hothers⟩ := ihr hrest
      rw [describe, if_neg hname, hcounts]
      rcases hnode with ⟨value, hoffset, hmember⟩ |
        ⟨hoffset, body, bodyStop, hbody, rfl, rfl⟩
      · obtain ⟨widths, hread, hregister⟩ := emitted_register hmember hothers
        refine ⟨.register name nodeStart size counts widths dRest, ?_,
          emitted_fillGap reservedIdx rfl hle nofun hregister⟩
        rw [hoffset, hstart, hread, hdRest]
        rfl
      · obtain ⟨dBody, hdBody, hemitted⟩ := ihv hbody
        rw [getNodeOffset, hoffset] at hstart
        obtain rfl := start_of_childOffset hstart hdBody
        refine ⟨.group name counts dBody dRest, ?_,
          emitted_fillGap reservedIdx rfl hle nofun (.group hemitted hothers)⟩
        rw [hoffset, hdBody, hdRest]
        rfl

/-! ### The constants for single bits -/

theorem bitStructs_fillGap (pointer nodeStart : Int) (reservedIdx : Nat) (members : Members) :
    ((fillGap pointer nodeStart reservedIdx).1 members).bitStructs path =
      members.bitStructs path := by
  unfold fillGap
  split_ifs <;> rfl

theorem emitEnumDefinition_flags {bfld : Mapping Scalar} {enums : RegisterEnums}
    {bits : List BitMember} (h : emitEnumDefinition py device path bfld = .ok enums)
    (hbits : bitMembers py device path bfld.items = .ok bits) :
    (enums.path, enums.flags) = (path, flagsAt py device path bits) := by
  obtain ⟨flags, hflags, h⟩ := bind_ok h
  obtain ⟨wide, -, h⟩ := bind_ok h
  cases h
  exact congrArg _ (flagValues_eq hbits hflags)

/-- The two walks meet the registers with bit-fields in the same order. -/
theorem collectEnumDefinitions_flags {pointer stop : Int} {reservedIdx reservedIdx' : Nat}
    {members : Members} {enums : List RegisterEnums}
    (henums : collectEnumDefinitions py device data path = .ok enums)
    (h : processNode py device data pointer reservedIdx path = .ok (members, stop, reservedIdx')) :
    enums.map (fun enums => (enums.path, enums.flags)) =
      (members.bitStructs path).map (fun entry => (entry.1, flagsAt py device entry.1 entry.2)) := by
  induction data generalizing pointer stop reservedIdx reservedIdx' members path enums with
  | nil =>
    cases henums
    cases h
    rfl
  | scalar key value rest ih => exact ih henums h
  | mapping name val rest ihv ihr =>
    rw [collectEnumDefinitions] at henums
    by_cases hname : startsWith name "_"
    · rw [processNode, if_pos hname] at h
      rw [if_pos hname] at henums
      exact ihr henums h
    · rw [if_neg hname] at henums
      obtain ⟨counts, nodeStart, member, size, idx, others, -, -, -, hrest, rfl, hnode⟩ :=
        processNode_mapping hname h
      rw [bitStructs_fillGap]
      rcases hnode with ⟨value, hoffset, hmember⟩ | ⟨hoffset, body, bodyStop, hbody, rfl, -⟩
      · obtain ⟨len, -, -, -, ⟨hbfld, rfl⟩ | ⟨bfld, bits, overlay, hbfld, hbits, -, -, rfl⟩⟩ :=
          registerMember_cases hmember
        · rw [hoffset, hbfld] at henums
          obtain ⟨none, hnone, henums⟩ := bind_ok henums
          cases hnone
          obtain ⟨after, hafter, henums⟩ := bind_ok henums
          cases henums
          rw [Members.bitStructs]
          exact ihr hafter hrest
        · rw [hoffset, hbfld] at henums
          obtain ⟨here, hhere, henums⟩ := bind_ok henums
          obtain ⟨single, hsingle, henums⟩ := bind_ok henums
          cases hsingle
          obtain ⟨after, hafter, henums⟩ := bind_ok henums
          cases henums
          exact congrArg₂ List.cons (emitEnumDefinition_flags hhere hbits) (ihr hafter hrest)
      · rw [hoffset] at henums
        obtain ⟨here, hhere, henums⟩ := bind_ok henums
        obtain ⟨after, hafter, henums⟩ := bind_ok henums
        cases henums
        rw [List.map_append, Members.bitStructs, List.map_append, ihv hhere hbody,
          ihr hafter hrest]

/-! ### A device -/

theorem Emitted.putsRegisters_iff {stop : Int} {d : Desc} {regs : DeviceRegs}
    (h : Emitted 0 d regs.members stop)
    (hflags : regs.enums.map (fun enums => (enums.path, enums.flags)) =
      (regs.members.bitStructs []).map
        (fun entry => (entry.1, flagsAt py device entry.1 entry.2))) :
    PutsRegisters py device d regs ↔ d.NonNegative := by
  constructor
  · exact fun hputs => h.hasLayout_iff.mp hputs.hasLayout
  · intro hnonneg
    have hapart := (h.ordered hnonneg).pairwise
    exact {
      hasLayout := h.hasLayout_iff.mpr hnonneg
      equalViews := h.equalViews
      offsets := h.offsets_eq
      elements := h.cells_eq
      apart := hapart
      flags := hflags
      rejected := not_not_intro (h.cells_eq ▸ hapart.filter _) }

/-- An accepted description is emitted as it says exactly if it has no negative count and no
negative bit-field width; `int` accepts both. -/
theorem processDeviceReg_iff {regs : DeviceRegs}
    (h : processDeviceReg py device data = .ok (some regs)) :
    ∃ d, describe py data = some d ∧ (PutsRegisters py device d regs ↔ d.NonNegative) := by
  unfold processDeviceReg at h
  split at h
  · split at h
    · cases h
    · obtain ⟨enums, henums, h⟩ := bind_ok h
      obtain ⟨⟨members, stop, reservedIdx⟩, hmembers, h⟩ := bind_ok h
      obtain ⟨d, hd, hemitted⟩ := processNode_emitted hmembers
      have hflags := collectEnumDefinitions_flags henums hmembers
      refine ⟨d, hd, ?_⟩
      dsimp only at h
      split at h
      · cases h
        exact hemitted.putsRegisters_iff hflags
      · obtain ⟨addrs, -, h⟩ := bind_ok h
        cases h
        exact hemitted.putsRegisters_iff hflags
  · cases h

end Walk

/-- The interpreter on integers and ASCII names. -/
def intPython : Python Int where
  toInt := some
  toIntAuto := some
  asInt := some
  isNone _ := false
  truthy n := n != 0
  upper name := String.ofList (name.toList.map Char.toUpper)
  lower name := String.ofList (name.toList.map Char.toLower)

/-- The keys of a register. -/
def registerKeys (offset len : Int) (more : Mapping Int) : Mapping Int :=
  .scalar "offset" offset (.scalar "len" len more)

/-- A control register with two flags, and two channels of an address and a length. -/
def channels : Mapping Int :=
  .scalar "_base_addr" 0x100
    (.mapping "ctrl" (registerKeys 0 1
      (.mapping "bfld"
        (.scalar "en" 1 (.scalar "reserved" 3 (.scalar "irq" 1 (.scalar "mode" 3 .nil)))) .nil))
      (.mapping "chn" (.mapping "_repeated" (.scalar "count" 2 .nil)
        (.mapping "addr" (registerKeys 4 4 .nil) (.mapping "len" (registerKeys 8 2 .nil) .nil))) .nil))

def channelsDesc : Desc :=
  .register "ctrl" 0 1 [] (some [1, 3, 1, 3])
    (.group "chn" [2] (.register "addr" 4 4 [] none (.register "len" 8 2 [] none .nil)) .nil)

def channelsRegs : DeviceRegs where
  enums := [⟨["ctrl"], "tlk_dma_ctrl_e", [("TLK_DMA_CTRL_EN", 0), ("TLK_DMA_CTRL_IRQ", 4)], []⟩]
  members := .union "ctrl"
    [⟨"en", 1, none⟩, ⟨"reserved", 3, none⟩, ⟨"irq", 1, none⟩, ⟨"mode", 3, none⟩]
    (.enum "tlk_dma_ctrl_e" 8) []
    (.reserved 0 3 (.struct "chn" (.register "addr" 4 [] (.register "len" 2 [] .nil)) [2] .nil))
  baseAddr := 0x100
  addrs := none

theorem channels_put : PutsRegisters intPython "dma" channelsDesc channelsRegs := by
  have haccepted : processDeviceReg intPython "dma" channels = .ok (some channelsRegs) := by
    decide +kernel
  have hread : describe intPython channels = some channelsDesc := by decide +kernel
  obtain ⟨d, hd, hiff⟩ := processDeviceReg_iff haccepted
  obtain rfl : channelsDesc = d := Option.some.inj (hread.symm.trans hd)
  exact hiff.mpr (by simp [channelsDesc, Desc.NonNegative])

/-- A count of -1 moves the pointer back to where `B` is declared, on top of `A`. -/
def backwards : Mapping Int :=
  .scalar "_base_addr" 0
    (.mapping "A" (registerKeys 0 4 .nil)
      (.mapping "N" (.mapping "_repeated" (.scalar "count" (-1) .nil) (registerKeys 4 4 .nil))
        (.mapping "B" (registerKeys 0 4 .nil) .nil)))

def backwardsDesc : Desc :=
  .register "A" 0 4 [] none (.register "N" 4 4 [-1] none (.register "B" 0 4 [] none .nil))

def backwardsRegs : DeviceRegs :=
  ⟨[], .register "A" 4 [] (.register "N" 4 [-1] (.register "B" 4 [] .nil)), 0, none⟩

theorem backwards_overlap :
    processDeviceReg intPython "dma" backwards = .ok (some backwardsRegs) ∧
      describe intPython backwards = some backwardsDesc ∧ backwardsDesc.Overlapping ∧
      ¬ PutsRegisters intPython "dma" backwardsDesc backwardsRegs := by
  have hoverlap : backwardsDesc.Overlapping := by
    unfold Desc.Overlapping
    decide +kernel
  exact ⟨by decide +kernel, by decide +kernel, hoverlap, fun hputs => hputs.rejected hoverlap⟩

end UniSdk.Scripts.Registers

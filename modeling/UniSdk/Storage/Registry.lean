import UniSdk.Library.CircularList
import UniSdk.Library.OrderedSet
import UniSdk.Storage.Device

/-!
# The list of registered devices

`tlk_dlist.h` and `storage_device.c` on the pointers of the nodes. An addition or a removal first
walks the list to find the device and then rewires four links, so that the list stays circular
and holds the members of a set in insertion order. A walk that reads a null pointer, or that does
not end within its fuel, has no result; none occurs.
-/

namespace UniSdk.Storage

open Library.CircularList Library.OrderedSet

variable {δ : Type}

/-- The nodes: `storage_device` itself and the one in each device. -/
inductive Node (δ : Type)
  | head
  | device (dev : δ)
  deriving DecidableEq

/-- The result is the device or `NULL`; a null `next` has none. -/
def tlkStorageGetNextDevice (m : Links (Node δ)) (dev : Option δ) : Option (Option δ) :=
  match m.next (dev.elim .head .device) with
  | some .head => some none
  | some (.device d) => some (some d)
  | none => none

/-- The loop over the devices from `d` on, which returns the first that passes the test. -/
def findLoop (test : δ → Bool) (m : Links (Node δ)) : Nat → Option δ → Option (Option δ)
  | _, none => some none
  | 0, some _ => none
  | fuel + 1, some d =>
    if test d then some (some d)
    else (tlkStorageGetNextDevice m (some d)).bind (findLoop test m fuel)

/-- `tlk_storage_find_device` on the list; `info` are the fields of a device. -/
def tlkStorageFindDeviceInList {σ : Type} (info : δ → Device σ) (fuel addr len : Nat)
    (m : Links (Node δ)) : Option (Option δ) :=
  (tlkStorageGetNextDevice m none).bind (findLoop (fun d => (info d).covers addr len) m fuel)

/-- The devices that repeated calls of `tlk_storage_get_next_device` visit from `d` on, until it
returns `NULL`. -/
def visitFrom (m : Links (Node δ)) : Nat → Option δ → Option (List δ)
  | _, none => some []
  | 0, some _ => none
  | fuel + 1, some d =>
    ((tlkStorageGetNextDevice m (some d)).bind (visitFrom m fuel)).map (d :: ·)

/-- The visit from `NULL`. -/
def visitDevices (fuel : Nat) (m : Links (Node δ)) : Option (List δ) :=
  (tlkStorageGetNextDevice m none).bind (visitFrom m fuel)

/-- The list holds the devices `devs`. -/
def Registered (m : Links (Node δ)) (devs : List δ) : Prop := Circular m .head (devs.map .device)

/-- `TLK_DLIST_DEFINE(storage_device)`; the nodes of the devices hold anything. -/
structure Defined (m : Links (Node δ)) : Prop where
  next_head : m.next .head = some .head
  prev_head : m.prev .head = some .head

theorem defined_registered {m : Links (Node δ)} (h : Defined m) : Registered m [] := by
  constructor
  · rw [List.map_nil, List.singleton_append, List.isChain_pair]
    exact ⟨h.next_head, h.prev_head⟩
  · exact List.nodup_singleton _

section Walk

variable {m : Links (Node δ)} {devs back : List δ} {d : δ}

theorem device_mem : Node.device d ∈ devs.map .device ↔ d ∈ devs := by
  constructor
  · intro h
    obtain ⟨e, he, heq⟩ := List.mem_map.mp h
    cases heq
    exact he
  · exact List.mem_map_of_mem

theorem getNext_none (h : Registered m devs) :
    tlkStorageGetNextDevice m none = some devs.head? := by
  have hsplit : Node.head :: devs.map .device = [] ++ Node.head :: devs.map .device := rfl
  have hnext := h.next_eq hsplit
  cases devs with
  | nil => simp only [tlkStorageGetNextDevice, Option.elim, hnext, List.map_nil]; rfl
  | cons d devs => simp only [tlkStorageGetNextDevice, Option.elim, hnext, List.map_cons]; rfl

theorem getNext_some {front : List δ} (h : Registered m (front ++ d :: back)) :
    tlkStorageGetNextDevice m (some d) = some back.head? := by
  have hsplit : Node.head :: (front ++ d :: back).map .device =
      (Node.head :: front.map .device) ++ Node.device d :: back.map .device := by simp
  have hnext := h.next_eq hsplit
  cases back with
  | nil => simp only [tlkStorageGetNextDevice, Option.elim, hnext, List.map_nil]; rfl
  | cons e back => simp only [tlkStorageGetNextDevice, Option.elim, hnext, List.map_cons]; rfl

/-- The loop is a search in the rest of the list. -/
theorem findLoop_eq (test : δ → Bool) (front : List δ) {fuel : Nat} (h : Registered m (front ++ back))
    (hfuel : back.length ≤ fuel) : findLoop test m fuel back.head? = some (back.find? test) := by
  induction back generalizing front fuel with
  | nil =>
    cases fuel <;> rfl
  | cons d back ih =>
    cases fuel with
    | zero => exact absurd hfuel (Nat.not_succ_le_zero _)
    | succ fuel =>
      rw [List.head?_cons, findLoop]
      by_cases hd : test d = true
      · rw [if_pos hd, List.find?_cons_of_pos hd]
      · rw [if_neg hd, List.find?_cons_of_neg hd, getNext_some h, Option.bind_some]
        have hrest : Registered m ((front ++ [d]) ++ back) := by
          rw [List.append_assoc]
          exact h
        exact ih _ hrest (Nat.le_of_succ_le_succ hfuel)

theorem visitFrom_eq (front : List δ) {fuel : Nat} (h : Registered m (front ++ back))
    (hfuel : back.length ≤ fuel) : visitFrom m fuel back.head? = some back := by
  induction back generalizing front fuel with
  | nil => cases fuel <;> rfl
  | cons d back ih =>
    cases fuel with
    | zero => exact absurd hfuel (Nat.not_succ_le_zero _)
    | succ fuel =>
      have hrest : Registered m ((front ++ [d]) ++ back) := by
        rw [List.append_assoc]
        exact h
      rw [List.head?_cons, visitFrom, getNext_some h, Option.bind_some,
        ih _ hrest (Nat.le_of_succ_le_succ hfuel)]
      rfl

/-- A visit from `NULL` sees the devices in order and ends. -/
theorem visitDevices_eq {fuel : Nat} (h : Registered m devs) (hfuel : devs.length ≤ fuel) :
    visitDevices fuel m = some devs := by
  rw [visitDevices, getNext_none h, Option.bind_some]
  exact visitFrom_eq [] h hfuel

/-- The address lookup on the pointers is the one on the list of devices. -/
theorem findDeviceInList_eq {σ : Type} (info : δ → Device σ) {fuel addr len : Nat}
    (h : Registered m devs) (hfuel : devs.length ≤ fuel) :
    (tlkStorageFindDeviceInList info fuel addr len m).map (Option.map info) =
      some (tlkStorageFindDevice (devs.map info) addr len) := by
  have hloop := findLoop_eq (fun d => (info d).covers addr len) [] h hfuel
  rw [tlkStorageFindDeviceInList, getNext_none h, Option.bind_some, hloop, tlkStorageFindDevice,
    List.find?_map]
  rfl

end Walk

/-! ## Additions and removals -/

variable [DecidableEq δ]

def setNext (node : Node δ) (p : Option (Node δ)) (m : Links (Node δ)) : Links (Node δ) :=
  { m with next := Function.update m.next node p }

def setPrev (node : Node δ) (p : Option (Node δ)) (m : Links (Node δ)) : Links (Node δ) :=
  { m with prev := Function.update m.prev node p }

def tlkDlistInsert (node prev next : Node δ) (m : Links (Node δ)) : Links (Node δ) :=
  setPrev next (some node)
    (setNext prev (some node) (setPrev node (some prev) (setNext node (some next) m)))

def tlkDlistAppend (list node : Node δ) (m : Links (Node δ)) : Option (Links (Node δ)) :=
  (m.prev list).map fun prev => tlkDlistInsert node prev list m

def tlkDlistRemove (node : Node δ) (m : Links (Node δ)) : Option (Links (Node δ)) := do
  let prev ← m.prev node
  let m := setNext prev (m.next node) m
  let next ← m.next node
  let m := setPrev next (m.prev node) m
  some (setPrev node none (setNext node none m))

def tlkStorageIsExistDevice (fuel : Nat) (dev : δ) (m : Links (Node δ)) : Option Bool :=
  ((tlkStorageGetNextDevice m none).bind (findLoop (fun d => dev == d) m fuel)).map Option.isSome

def tlkStorageAddDevice (fuel : Nat) (dev : δ) (m : Links (Node δ)) : Option (Links (Node δ)) :=
  (tlkStorageIsExistDevice fuel dev m).bind fun exist =>
    if exist then some m else tlkDlistAppend .head (.device dev) m

def tlkStorageRemoveDevice (fuel : Nat) (dev : δ) (m : Links (Node δ)) :
    Option (Links (Node δ)) :=
  (tlkStorageIsExistDevice fuel dev m).bind fun exist =>
    if exist then tlkDlistRemove (.device dev) m else some m

section Update

variable {m : Links (Node δ)} {devs : List δ}

theorem isExistDevice_eq {fuel : Nat} (h : Registered m devs) (hfuel : devs.length ≤ fuel)
    (dev : δ) : tlkStorageIsExistDevice fuel dev m = some (decide (dev ∈ devs)) := by
  have hloop := findLoop_eq (fun d => dev == d) [] h hfuel
  rw [tlkStorageIsExistDevice, getNext_none h, Option.bind_some, hloop, Option.map_some]
  congr 1
  rw [List.isSome_find?, Bool.eq_iff_iff]
  simp

theorem dlistInsert_eq {node prev next : Node δ} (m : Links (Node δ)) :
    tlkDlistInsert node prev next m = m.inserted prev node next := rfl

/-- The removal of a node between two others. -/
theorem dlistRemove_eq {prev node next : Node δ} (hprev : m.prev node = some prev)
    (hnext : m.next node = some next) (hp : prev ≠ node) :
    tlkDlistRemove node m = some (m.unlinked prev node next) := by
  have hnode : (setNext prev (some next) m).next node = some next := by
    simp only [setNext, Function.update_of_ne hp.symm, hnext]
  simp only [tlkDlistRemove, hprev, hnext, Option.bind_eq_bind, Option.bind_some, hnode]
  simp only [setNext, setPrev, hprev]
  rfl

theorem addDevice_registered {fuel : Nat} (h : Registered m devs) (hfuel : devs.length ≤ fuel)
    (dev : δ) : ∃ m', tlkStorageAddDevice fuel dev m = some m' ∧
      Registered m' (step devs (.add dev)) := by
  rw [tlkStorageAddDevice, isExistDevice_eq h hfuel, Option.bind_some, step]
  by_cases hmem : dev ∈ devs
  · rw [if_pos hmem]
    exact ⟨m, by simp [hmem], h⟩
  · rw [if_neg hmem]
    have hnew : Node.device dev ∉ Node.head :: devs.map .device := by
      intro hcons
      rcases List.mem_cons.mp hcons with hhead | hdev
      · cases hhead
      · exact hmem (device_mem.mp hdev)
    obtain ⟨p, hp, -, hinserted⟩ := h.insert_last hnew
    refine ⟨m.inserted p (.device dev) .head, ?_, ?_⟩
    · simp [hmem, tlkDlistAppend, hp, dlistInsert_eq]
    · rw [Registered, List.map_append]
      exact hinserted

theorem removeDevice_registered {fuel : Nat} (h : Registered m devs) (hfuel : devs.length ≤ fuel)
    (dev : δ) : ∃ m', tlkStorageRemoveDevice fuel dev m = some m' ∧
      Registered m' (step devs (.remove dev)) := by
  rw [tlkStorageRemoveDevice, isExistDevice_eq h hfuel, Option.bind_some, step]
  by_cases hmem : dev ∈ devs
  · obtain ⟨p, q, hp, hq, hpne, hqne, hunlinked⟩ := h.remove (device_mem.mpr hmem)
    refine ⟨m.unlinked p (.device dev) q, ?_, ?_⟩
    · simp [hmem, dlistRemove_eq hp hq hpne]
    · have hmap : (devs.erase dev).map Node.device = (devs.map .device).erase (.device dev) :=
        List.map_erase (fun _ _ he => Node.device.inj he) devs
      rw [Registered, hmap]
      exact hunlinked
  · rw [List.erase_of_not_mem hmem]
    exact ⟨m, by simp [hmem], h⟩

end Update

/-- A call of `tlk_storage_add_device` or of `tlk_storage_remove_device`. -/
def registryStep (fuel : Nat) (m : Links (Node δ)) : Op δ → Option (Links (Node δ))
  | .add dev => tlkStorageAddDevice fuel dev m
  | .remove dev => tlkStorageRemoveDevice fuel dev m

theorem members_length_le (ops : List (Op δ)) : (members ops).length ≤ ops.length := by
  induction ops using List.reverseRecOn with
  | nil => exact Nat.le_refl 0
  | append_singleton ops op ih =>
    rw [members_snoc, List.length_append, List.length_singleton]
    cases op with
    | add d =>
      rw [step]
      split
      · omega
      · rw [List.length_append, List.length_singleton]
        omega
    | remove d =>
      have hle := List.length_erase_le (a := d) (l := members ops)
      rw [step]
      omega

/-- Every sequence of calls ends, and the list then holds the members of the set. -/
theorem registry_run {m : Links (Node δ)} (h : Defined m) (ops : List (Op δ)) {fuel : Nat}
    (hfuel : ops.length ≤ fuel) :
    ∃ m', ops.foldlM (registryStep fuel) m = some m' ∧ Registered m' (members ops) := by
  induction ops using List.reverseRecOn with
  | nil => exact ⟨m, rfl, defined_registered h⟩
  | append_singleton ops op ih =>
    rw [List.length_append, List.length_singleton] at hfuel
    obtain ⟨m', hrun, hregistered⟩ := ih (by omega)
    have hlength := members_length_le ops
    have hstep : ∃ m'', registryStep fuel m' op = some m'' ∧
        Registered m'' (step (members ops) op) := by
      cases op with
      | add dev => exact addDevice_registered hregistered (by omega) dev
      | remove dev => exact removeDevice_registered hregistered (by omega) dev
    obtain ⟨m'', hop, hnext⟩ := hstep
    refine ⟨m'', ?_, ?_⟩
    · rw [List.foldlM_append, hrun]
      simp [hop]
    · rw [members_snoc]
      exact hnext

/-- The registry is a set in insertion order. After any additions and removals the list is
circular through its head, and the visit from `NULL` sees each member once, in the order of the
additions that last took effect, and ends. -/
theorem registry_ordered_set {m : Links (Node δ)} (h : Defined m) (ops : List (Op δ)) {fuel : Nat}
    (hfuel : ops.length ≤ fuel) :
    ∃ m' devs, ops.foldlM (registryStep fuel) m = some m' ∧
      Circular m' .head (devs.map .device) ∧ visitDevices fuel m' = some devs ∧ devs.Nodup ∧
      (∀ d, d ∈ devs ↔
        ∃ i : Nat, ops[i]? = some (.add d) ∧ ∀ j : Nat, i < j → ops[j]? ≠ some (.remove d)) ∧
      devs.Pairwise fun d e => ∃ i j, i < j ∧ LatestAdd ops d i ∧ LatestAdd ops e j := by
  obtain ⟨m', hrun, hregistered⟩ := registry_run h ops hfuel
  have hlength := members_length_le ops
  exact ⟨m', members ops, hrun, hregistered, visitDevices_eq hregistered (by omega),
    members_nodup ops, mem_members_iff ops, (members_ordered ops).2⟩

/-- Three devices, of which the first is removed and added again. -/
theorem registry_ordered_set_readded :
    let m : Links (Node (Fin 3)) :=
      { next := fun node => if node = .head then some .head else none,
        prev := fun node => if node = .head then some .head else none }
    let ops : List (Op (Fin 3)) := [.add 0, .add 1, .add 0, .remove 2, .remove 0, .add 2, .add 0]
    Defined m ∧ members ops = [1, 2, 0] ∧
      ∃ m' devs, ops.foldlM (registryStep 7) m = some m' ∧
        Circular m' .head (devs.map .device) ∧ visitDevices 7 m' = some devs ∧ devs.Nodup ∧
        (∀ d, d ∈ devs ↔
          ∃ i : Nat, ops[i]? = some (.add d) ∧ ∀ j : Nat, i < j → ops[j]? ≠ some (.remove d)) ∧
        devs.Pairwise fun d e => ∃ i j, i < j ∧ LatestAdd ops d i ∧ LatestAdd ops e j := by
  intro m ops
  have hdefined : Defined m := ⟨rfl, rfl⟩
  exact ⟨hdefined, by decide, registry_ordered_set hdefined ops (Nat.le_refl 7)⟩

end UniSdk.Storage

import SuparnaD.Foundation.HandleHeap
import SuparnaD.Messaging.ManageGroups

/-!
# The group manager

The functions of `messaging/manage_groups.c` on a `GroupManager`, an array of pointers to groups.
The groups live on a heap and the array holds their handles. The value `none` of a function means
that it has no defined result: it leaves the array or uses a group that has been freed.

Slots that `malloc` and `realloc` add are null here; they lie at or after `count` until they are
written.

## Main definitions

* `GroupManager`, `groupManagerInit`, `ManagerState`.
* `findGroup`, `addGroup`, `removeGroup`, `groupManagerFree`.
-/

namespace SuparnaD

/-- The `GroupManager` of the source. -/
structure GroupManager where
  /-- `groups`, the array of `capacity` pointers. -/
  groups : List (Option ℕ)
  /-- `count`. -/
  count : UInt64
  /-- `capacity`. -/
  capacity : UInt64
  deriving DecidableEq, Repr

/-- `INITIAL_GROUP_CAPACITY`. -/
def initialGroupCapacity : UInt64 := 16

/-- `sizeof(Group*)`. -/
def pointerSize : UInt64 := 8

/-- The two outcomes are those of the two allocations. -/
def groupManagerInit (o o' : IoOutcome) : Option GroupManager :=
  if o.alloc && o'.alloc then
    some ⟨List.replicate initialGroupCapacity.toNat none, 0, initialGroupCapacity⟩
  else none

/-- A manager with the groups that exist. -/
structure ManagerState where
  /-- The manager. -/
  manager : GroupManager
  /-- The groups made so far. -/
  heap : HandleHeap Group

/-- The loop over the array in `remove_group` and `find_group`, with `n` rounds left: the index and
the handle of the first group with the id. -/
def scanGroups (m : GroupManager) (heap : HandleHeap Group) (groupId : Bytes) :
    ℕ → ℕ → Option (Option (ℕ × ℕ))
  | 0, _ => some none
  | n + 1, i =>
    match m.groups[i]? with
    | none => none
    | some none => scanGroups m heap groupId n (i + 1)
    | some (some handle) =>
      match heap.get handle with
      | none => none
      | some g =>
        if g.groupId = groupId then some (some (i, handle))
        else scanGroups m heap groupId n (i + 1)

def findGroup (m : GroupManager) (heap : HandleHeap Group) (groupId : Bytes) :
    Option (Option ℕ) :=
  (scanGroups m heap groupId m.count.toNat 0).map fun found => found.map Prod.snd

def expandGroupManager (o : IoOutcome) (m : GroupManager) : ℤ × GroupManager :=
  let newCapacity := m.capacity * 2
  if Writer.reallocGrants o (newCapacity * pointerSize).toNat then
    (0, { m with
      groups := m.groups.take newCapacity.toNat ++
        List.replicate (newCapacity.toNat - m.groups.length) none
      capacity := newCapacity })
  else (-1, m)

/-- Write the group behind the others. -/
def storeGroup (m : GroupManager) (handle : ℕ) : Option GroupManager :=
  if m.count.toNat < m.groups.length then
    some { m with groups := m.groups.set m.count.toNat (some handle), count := m.count + 1 }
  else none

/-- The outcome is that of the `realloc`, which is called when the array is full. -/
def addGroup (o : IoOutcome) (st : ManagerState) (handle : ℕ) : Option (ℤ × ManagerState) := do
  let g ← st.heap.get handle
  match ← findGroup st.manager st.heap g.groupId with
  | some _ => return (-2, st)
  | none =>
    if st.manager.capacity ≤ st.manager.count then
      let (r, m) := expandGroupManager o st.manager
      if r ≠ 0 then
        return (-1, st)
      return (0, { st with manager := ← storeGroup m handle })
    return (0, { st with manager := ← storeGroup st.manager handle })

/-- The loop that moves the slots after `j` down by one, with `n` rounds left. -/
def shiftGroups (groups : List (Option ℕ)) : ℕ → ℕ → List (Option ℕ)
  | 0, _ => groups
  | n + 1, j => shiftGroups (groups.set j groups[j + 1]?.join) n (j + 1)

def removeGroup (st : ManagerState) (groupId : Bytes) : Option (ℤ × ManagerState) := do
  let m := st.manager
  match ← scanGroups m st.heap groupId m.count.toNat 0 with
  | none => return (-1, st)
  | some (i, handle) =>
    let shifted := shiftGroups m.groups ((m.count - 1).toNat - i) i
    let count := m.count - 1
    return (0, ⟨{ m with groups := shifted.set count.toNat none, count := count },
      st.heap.free handle⟩)

/-- The loop of `group_manager_free` over the array, with `n` rounds left. -/
def freeGroups (m : GroupManager) : ℕ → ℕ → HandleHeap Group → Option (HandleHeap Group)
  | 0, _, heap => some heap
  | n + 1, i, heap =>
    match m.groups[i]? with
    | none => none
    | some none => freeGroups m n (i + 1) heap
    | some (some handle) =>
      match heap.get handle with
      | none => none
      | some _ => freeGroups m n (i + 1) (heap.free handle)

/-- The groups that are left; the array and the manager are gone. -/
def groupManagerFree (st : ManagerState) : Option (HandleHeap Group) :=
  freeGroups st.manager st.manager.count.toNat 0 st.heap

end SuparnaD

import Mathlib.Data.List.AList
import Mathlib.Data.List.ReduceOption
import SuparnaD.Foundation.Runs
import SuparnaD.Messaging.GroupManager

/-!
# The group manager as a finite map

A `GroupManager` holds an association list of group ids and groups: the first `count` slots of its
array are the groups in the order of the list. Adding a group appends an entry and removing one
takes it out, while the others keep their order. So `find_group` looks up what has been registered
last and has not been removed.

## Main definitions

* `GroupManager.Holds` : the association list of a manager.
* `ManagerOp`, `ManagerState.step` : runs of calls.
* `ManagerState.register` : the map that the results of a run describe.

## Main results

* `GroupManager.Holds.scanGroups_cases`, `shiftGroups_append` : the loops of the source.
* `ManagerState.Holds.addGroup_cases`, `ManagerState.Holds.removeGroup_cases` : what a call does.
* `ManagerState.manages_run`.
-/

namespace SuparnaD

/-- The groups of a manager by their ids, in the order of the array. -/
abbrev GroupTable : Type := AList fun _ : Bytes => ℕ

/-- The array of the manager holds the groups of the table in its first slots. -/
structure GroupManager.Holds (m : GroupManager) (heap : HandleHeap Group) (table : GroupTable) :
    Prop where
  slots : ∃ rest, m.groups = table.entries.map (fun e => some e.2) ++ rest
  count : m.count.toNat = table.entries.length
  length : m.groups.length = m.capacity.toNat
  /-- The array fits into memory and is not empty. -/
  small : m.capacity.toNat * 8 < 2 ^ 63
  pos : 0 < m.capacity.toNat
  ids : ∀ e ∈ table.entries, (heap.get e.2).map Group.groupId = some e.1

variable {m : GroupManager} {heap : HandleHeap Group} {table : GroupTable} {groupId : Bytes}

/-! ### The loops -/

/-- The rest of the loop, over the groups that have not been looked at. -/
theorem scanGroups_append (groupId : Bytes) (before : List (Σ _ : Bytes, ℕ))
    {l : List (Σ _ : Bytes, ℕ)} {rest : List (Option ℕ)}
    (hslots : m.groups = (before ++ l).map (fun e => some e.2) ++ rest)
    (hids : ∀ e ∈ l, (heap.get e.2).map Group.groupId = some e.1) :
    (groupId ∉ l.keys ∧ scanGroups m heap groupId l.length before.length = some none) ∨
      ∃ mid k after, l = mid ++ ⟨groupId, k⟩ :: after ∧ groupId ∉ mid.keys ∧
        scanGroups m heap groupId l.length before.length =
          some (some (before.length + mid.length, k)) := by
  induction l generalizing before with
  | nil => exact .inl ⟨List.not_mem_nil, rfl⟩
  | cons e l ih =>
    obtain ⟨hid, hids⟩ := List.forall_mem_cons.mp hids
    obtain ⟨g, hg, hgid⟩ := Option.map_eq_some_iff.mp hid
    have hslot : m.groups[before.length]? = some (some e.2) := by
      rw [hslots, List.map_append, List.map_cons, List.append_assoc,
        List.getElem?_append_right (by rw [List.length_map]), List.length_map, Nat.sub_self]
      rfl
    rw [List.length_cons, scanGroups, hslot]
    simp only [hg]
    by_cases heq : g.groupId = groupId
    · refine .inr ⟨[], e.2, l, ?_, List.not_mem_nil, ?_⟩
      · rw [← heq, hgid]
        rfl
      · rw [if_pos heq]
        rfl
    · rw [if_neg heq]
      rw [hgid] at heq
      have hnext := ih (before ++ [e])
        (by rw [hslots, List.append_assoc, List.singleton_append]) hids
      rw [List.length_append, List.length_singleton] at hnext
      rcases hnext with ⟨hnot, hscan⟩ | ⟨mid, k, after, rfl, hnot, hscan⟩
      · refine .inl ⟨?_, hscan⟩
        rw [List.keys_cons, List.mem_cons]
        rintro (h | h)
        · exact heq h.symm
        · exact hnot h
      · refine .inr ⟨e :: mid, k, after, rfl, ?_, ?_⟩
        · rw [List.keys_cons, List.mem_cons]
          rintro (h | h)
          · exact heq h.symm
          · exact hnot h
        · rw [hscan, List.length_cons, Nat.add_assoc, Nat.add_comm 1]

/-- The loop finds the entry of the id. -/
theorem GroupManager.Holds.scanGroups_cases (h : m.Holds heap table) (groupId : Bytes) :
    (groupId ∉ table ∧ scanGroups m heap groupId m.count.toNat 0 = some none) ∨
      ∃ before k after, table.entries = before ++ ⟨groupId, k⟩ :: after ∧
        groupId ∉ before.keys ∧
        scanGroups m heap groupId m.count.toNat 0 = some (some (before.length, k)) := by
  obtain ⟨rest, hslots⟩ := h.slots
  rw [h.count]
  rcases scanGroups_append groupId [] hslots h.ids with
    hnone | ⟨mid, k, after, heq, hnot, hscan⟩
  · exact .inl hnone
  · refine .inr ⟨mid, k, after, heq, hnot, ?_⟩
    rw [List.length_nil, Nat.zero_add] at hscan
    exact hscan

theorem GroupManager.Holds.findGroup_eq (h : m.Holds heap table) (groupId : Bytes) :
    findGroup m heap groupId = some (table.lookup groupId) := by
  rw [findGroup]
  rcases h.scanGroups_cases groupId with ⟨hnot, hscan⟩ | ⟨before, k, after, heq, -, hscan⟩
  · rw [hscan, AList.lookup_eq_none.mpr hnot]
    rfl
  · have hmem : (⟨groupId, k⟩ : Σ _ : Bytes, ℕ) ∈ table.entries := by
      rw [heq]
      exact List.mem_append_right _ List.mem_cons_self
    rw [hscan, Option.mem_def.mp (AList.mem_lookup_iff.mpr hmem)]
    rfl

/-- The slots behind a removed one move down, and the last one stays as it was. -/
theorem shiftGroups_append (before : List (Option ℕ)) (x : Option ℕ) (l rest : List (Option ℕ)) :
    ∃ y, shiftGroups (before ++ x :: (l ++ rest)) l.length before.length =
      before ++ (l ++ y :: rest) := by
  induction l generalizing before x with
  | nil => exact ⟨x, rfl⟩
  | cons z l ih =>
    obtain ⟨y, hy⟩ := ih (before ++ [z]) z
    refine ⟨y, ?_⟩
    have hread : (before ++ x :: (z :: l ++ rest))[before.length + 1]?.join = z := by
      rw [List.getElem?_append_right (Nat.le_add_right _ 1), Nat.add_sub_cancel_left]
      rfl
    have hwrite : (before ++ x :: (z :: l ++ rest)).set before.length z =
        (before ++ [z]) ++ z :: (l ++ rest) := by
      rw [List.set_append_right _ _ (Nat.le_refl _), Nat.sub_self, List.append_assoc]
      rfl
    rw [List.length_append, List.length_singleton] at hy
    rw [List.length_cons, shiftGroups, hread, hwrite, hy, List.append_assoc]
    rfl

/-! ### Entries of a table -/

/-- A new entry stands behind the others. -/
theorem entries_union_singleton {handle : ℕ} (hnew : groupId ∉ table) :
    (table ∪ AList.singleton groupId handle).entries =
      table.entries ++ [⟨groupId, handle⟩] := by
  have happend (l : List (Σ _ : Bytes, ℕ)) (hl : groupId ∉ l.keys) :
      List.kunion l [⟨groupId, handle⟩] = l ++ [⟨groupId, handle⟩] := by
    induction l with
    | nil => rfl
    | cons e l ih =>
      rw [List.keys_cons, List.mem_cons, not_or] at hl
      rw [List.kunion_cons, List.kerase_cons_ne (Ne.symm hl.1), List.kerase_nil, ih hl.2,
        List.cons_append]
  exact happend table.entries hnew

theorem entries_erase {handle : ℕ} {before after : List (Σ _ : Bytes, ℕ)}
    (hentries : table.entries = before ++ ⟨groupId, handle⟩ :: after)
    (hnew : groupId ∉ before.keys) : (table.erase groupId).entries = before ++ after := by
  change List.kerase groupId table.entries = _
  rw [hentries, List.kerase_append_right hnew,
    List.kerase_cons_eq (s := (⟨groupId, handle⟩ : Σ _ : Bytes, ℕ)) rfl]

/-- An entry that is taken out of a table was the only one of its id. -/
theorem ne_of_mem_erase {e : Σ _ : Bytes, ℕ}
    (he : e ∈ (table.erase groupId).entries) : e ∈ table.entries ∧ e.1 ≠ groupId := by
  refine ⟨(List.kerase_sublist groupId table.entries).subset he, fun heq => ?_⟩
  have hkey : e.1 ∈ table.erase groupId := List.mem_map_of_mem he
  rw [heq] at hkey
  exact absurd rfl (AList.mem_erase.mp hkey).1

/-! ### The array -/

theorem holds_groupManagerInit {o o' : IoOutcome} (h : groupManagerInit o o' = some m)
    (heap : HandleHeap Group) : m.Holds heap ∅ := by
  rw [groupManagerInit] at h
  split_ifs at h
  obtain rfl := Option.some.inj h
  exact ⟨⟨_, rfl⟩, rfl, rfl, by decide, by decide, fun _ he => absurd he List.not_mem_nil⟩

namespace GroupManager.Holds

variable (h : m.Holds heap table)

include h

theorem count_le_capacity : m.count ≤ m.capacity := by
  obtain ⟨rest, hslots⟩ := h.slots
  have hlen := congrArg List.length hslots
  rw [List.length_append, List.length_map, h.length, ← h.count] at hlen
  rw [UInt64.le_iff_toNat_le]
  omega

/-- A larger array holds the same groups. -/
theorem expand (o : IoOutcome) :
    (Writer.reallocGrants o (m.capacity.toNat * 16) = true ∧
        ∃ m', expandGroupManager o m = (0, m') ∧ m'.Holds heap table ∧ m.count < m'.capacity ∧
          m'.count = m.count) ∨
      Writer.reallocGrants o (m.capacity.toNat * 16) = false ∧
        expandGroupManager o m = (-1, m) := by
  have hsmall := h.small
  have htwo : (m.capacity * 2).toNat = m.capacity.toNat * 2 := by
    have htwo' : (2 : UInt64).toNat = 2 := rfl
    rw [UInt64.toNat_mul, htwo']
    omega
  have hbytes : (m.capacity * 2 * pointerSize).toNat = m.capacity.toNat * 16 := by
    have height : pointerSize.toNat = 8 := rfl
    rw [UInt64.toNat_mul, htwo, height]
    omega
  cases hgrant : Writer.reallocGrants o (m.capacity.toNat * 16) with
  | false =>
    refine .inr ⟨rfl, ?_⟩
    rw [expandGroupManager, hbytes, hgrant, if_neg Bool.false_ne_true]
  | true =>
    refine .inl ⟨rfl, { m with
      groups := m.groups.take (m.capacity * 2).toNat ++
        List.replicate ((m.capacity * 2).toNat - m.groups.length) none
      capacity := m.capacity * 2 }, by rw [expandGroupManager, hbytes, hgrant, if_pos rfl],
      ?_, ?_, rfl⟩
    · have hfits : m.capacity.toNat * 16 < 2 ^ 63 := by
        rw [Writer.reallocGrants, Bool.and_eq_true, decide_eq_true_iff] at hgrant
        exact hgrant.2
      obtain ⟨rest, hslots⟩ := h.slots
      have htake : m.groups.take (m.capacity * 2).toNat = m.groups :=
        List.take_of_length_le (by rw [h.length, htwo]; omega)
      refine ⟨⟨rest ++ List.replicate ((m.capacity * 2).toNat - m.groups.length) none, ?_⟩, h.count,
        ?_, ?_, ?_, h.ids⟩
      · dsimp only
        rw [htake, hslots, List.append_assoc]
      · dsimp only
        rw [htake, List.length_append, List.length_replicate, h.length, htwo]
        omega
      · dsimp only
        rw [htwo]
        omega
      · have := h.pos
        dsimp only
        rw [htwo]
        omega
    · have hle := UInt64.le_iff_toNat_le.mp h.count_le_capacity
      have hpos := h.pos
      rw [UInt64.lt_iff_toNat_lt, htwo]
      omega

/-- A group with a new id is stored behind the others. -/
theorem storeGroup {handle : ℕ} {g : Group} (hlt : m.count < m.capacity)
    (hg : heap.get handle = some g) (hnew : g.groupId ∉ table) :
    ∃ m', SuparnaD.storeGroup m handle = some m' ∧ m'.capacity = m.capacity ∧
      m'.Holds heap (table ∪ AList.singleton g.groupId handle) := by
  obtain ⟨rest, hslots⟩ := h.slots
  have hcount := h.count
  rw [UInt64.lt_iff_toNat_lt] at hlt
  have hlen := congrArg List.length hslots
  rw [List.length_append, List.length_map, h.length, ← hcount] at hlen
  obtain ⟨slot, rest, rfl⟩ := List.exists_cons_of_length_pos (l := rest) (by omega)
  have hone : (m.count + 1).toNat = m.count.toNat + 1 := by
    have hone' : (1 : UInt64).toNat = 1 := rfl
    have := h.small
    rw [UInt64.toNat_add, hone']
    omega
  have hstore : SuparnaD.storeGroup m handle = some { m with
      groups := m.groups.set m.count.toNat (some handle), count := m.count + 1 } := by
    rw [SuparnaD.storeGroup, if_pos (h.length ▸ hlt)]
  refine ⟨_, hstore, rfl, ⟨rest, ?_⟩, ?_, ?_, h.small, h.pos, ?_⟩
  · rw [entries_union_singleton hnew, List.map_append, List.append_assoc, hslots, hcount,
      List.set_append_right _ _ (by rw [List.length_map]), List.length_map, Nat.sub_self]
    rfl
  · rw [entries_union_singleton hnew, List.length_append, hone, hcount]
    rfl
  · rw [List.length_set, h.length]
  · intro e he
    rw [entries_union_singleton hnew, List.mem_append, List.mem_singleton] at he
    rcases he with he | rfl
    · exact h.ids e he
    · rw [hg]
      rfl

/-- The entry of an id is taken out. -/
theorem removeSlot {handle : ℕ} {before after : List (Σ _ : Bytes, ℕ)}
    (hentries : table.entries = before ++ ⟨groupId, handle⟩ :: after)
    (hnew : groupId ∉ before.keys) :
    GroupManager.Holds { m with
      groups := (shiftGroups m.groups ((m.count - 1).toNat - before.length) before.length).set
        (m.count - 1).toNat none
      count := m.count - 1 } (heap.free handle) (table.erase groupId) := by
  obtain ⟨rest, hslots⟩ := h.slots
  have hcount := h.count
  have herase := entries_erase hentries hnew
  have hone : (m.count - 1).toNat = before.length + after.length := by
    have hone' : (1 : UInt64).toNat = 1 := rfl
    have hle : (1 : UInt64) ≤ m.count := by
      rw [UInt64.le_iff_toNat_le, hcount, hentries, hone', List.length_append, List.length_cons]
      omega
    rw [UInt64.toNat_sub_of_le _ _ hle, hcount, hentries, hone', List.length_append,
      List.length_cons]
    omega
  -- The slots behind the removed one have moved down by one.
  obtain ⟨last, hshift⟩ := shiftGroups_append (before.map fun e => some e.2) (some handle)
    (after.map fun e => some e.2) rest
  rw [List.length_map, List.length_map] at hshift
  have hgroups : m.groups = before.map (fun e => some e.2) ++
      some handle :: (after.map (fun e => some e.2) ++ rest) := by
    rw [hslots, hentries, List.map_append, List.map_cons, List.append_assoc, List.cons_append]
  have hafter : (shiftGroups m.groups ((m.count - 1).toNat - before.length) before.length).set
      (m.count - 1).toNat none =
        (before ++ after).map (fun e => some e.2) ++ none :: rest := by
    rw [hone, Nat.add_sub_cancel_left, hgroups, hshift, ← List.append_assoc, ← List.map_append,
      List.set_append_right _ _ (by rw [List.length_map, List.length_append]), List.length_map,
      List.length_append, Nat.sub_self]
    rfl
  refine ⟨⟨none :: rest, ?_⟩, ?_, ?_, h.small, h.pos, fun e he => ?_⟩
  · rw [herase]
    exact hafter
  · rw [herase, List.length_append]
    exact hone
  · change ((shiftGroups m.groups ((m.count - 1).toNat - before.length) before.length).set
      (m.count - 1).toNat none).length = m.capacity.toNat
    rw [hafter, ← h.length, hgroups]
    simp only [List.length_append, List.length_map, List.length_cons]
    omega
  · obtain ⟨hmem, hne⟩ := ne_of_mem_erase he
    have hremoved := h.ids ⟨groupId, handle⟩ (hentries ▸ List.mem_append_right _ List.mem_cons_self)
    have hid := h.ids e hmem
    have hother : e.2 ≠ handle := fun heq => hne (Option.some.inj
      (hid.symm.trans (heq ▸ hremoved)))
    rw [HandleHeap.get_free_of_ne hother]
    exact hid

end GroupManager.Holds

/-! ### Calls -/

namespace ManagerState

variable {st st' : ManagerState} {handle : ℕ} {g : Group}

/-- The manager holds the groups of the table. -/
abbrev Holds (st : ManagerState) (table : GroupTable) : Prop := st.manager.Holds st.heap table

/-- The groups in the array, in their order. -/
def live (st : ManagerState) : List ℕ :=
  (st.manager.groups.take st.manager.count.toNat).reduceOption

/-- The id of a group. -/
def idOf (st : ManagerState) (handle : ℕ) : Option Bytes :=
  (st.heap.get handle).map Group.groupId

/-- A group with the id is in the array. -/
def Present (st : ManagerState) (groupId : Bytes) : Prop :=
  ∃ handle ∈ st.live, st.idOf handle = some groupId

theorem Holds.live_eq (h : st.Holds table) : st.live = table.entries.map Sigma.snd := by
  obtain ⟨rest, hslots⟩ := h.slots
  rw [live, h.count, hslots, List.take_left' (List.length_map _)]
  induction table.entries with
  | nil => simp only [List.map_nil, List.reduceOption_nil]
  | cons e entries ih =>
    simp only [List.map_cons, List.reduceOption_cons_of_some, ih]

theorem Holds.present_iff (h : st.Holds table) : st.Present groupId ↔ groupId ∈ table := by
  rw [Present, h.live_eq, AList.mem_keys]
  constructor
  · rintro ⟨_, hmem, hid⟩
    obtain ⟨e, he, rfl⟩ := List.mem_map.mp hmem
    exact List.mem_map.mpr ⟨e, he, Option.some.inj ((h.ids e he).symm.trans hid)⟩
  · intro hmem
    obtain ⟨e, he, rfl⟩ := List.mem_map.mp hmem
    exact ⟨e.2, List.mem_map_of_mem he, h.ids e he⟩

theorem addGroup_of_found (o : IoOutcome) (hg : st.heap.get handle = some g) {found : ℕ}
    (hfound : findGroup st.manager st.heap g.groupId = some (some found)) :
    addGroup o st handle = some (-2, st) := by
  simp only [addGroup, hg, hfound, Option.bind_eq_bind, Option.bind_some]
  rfl

theorem addGroup_of_new (o : IoOutcome) (hg : st.heap.get handle = some g)
    (hfound : findGroup st.manager st.heap g.groupId = some none) :
    addGroup o st handle =
      if st.manager.capacity ≤ st.manager.count then
        if (expandGroupManager o st.manager).1 ≠ 0 then some (-1, st)
        else (storeGroup (expandGroupManager o st.manager).2 handle).map
          fun m => (0, { st with manager := m })
      else (storeGroup st.manager handle).map fun m => (0, { st with manager := m }) := by
  simp only [addGroup, hg, hfound, Option.bind_eq_bind, Option.bind_some]
  split_ifs
  · rfl
  · cases storeGroup (expandGroupManager o st.manager).2 handle <;> rfl
  · cases storeGroup st.manager handle <;> rfl

/-- What `add_group` does with a group that exists. -/
theorem Holds.addGroup_cases (h : st.Holds table) (o : IoOutcome)
    (hg : st.heap.get handle = some g) :
    (g.groupId ∈ table ∧ addGroup o st handle = some (-2, st)) ∨
      (g.groupId ∉ table ∧ addGroup o st handle = some (-1, st) ∧
        st.manager.capacity ≤ st.manager.count ∧
        Writer.reallocGrants o (st.manager.capacity.toNat * 16) = false) ∨
      (g.groupId ∉ table ∧ ∃ st', addGroup o st handle = some (0, st') ∧ st'.heap = st.heap ∧
        st'.Holds (table ∪ AList.singleton g.groupId handle) ∧
        ¬ (st.manager.capacity ≤ st.manager.count ∧
          Writer.reallocGrants o (st.manager.capacity.toNat * 16) = false)) := by
  have hfind := h.findGroup_eq g.groupId
  by_cases hmem : g.groupId ∈ table
  · obtain ⟨found, hfound⟩ := Option.isSome_iff_exists.mp (AList.lookup_isSome.mpr hmem)
    rw [hfound] at hfind
    exact .inl ⟨hmem, addGroup_of_found o hg hfind⟩
  rw [AList.lookup_eq_none.mpr hmem] at hfind
  have hadd := addGroup_of_new o hg hfind
  by_cases hfull : st.manager.capacity ≤ st.manager.count
  · rw [if_pos hfull] at hadd
    rcases h.expand o with ⟨hgrant, m', hexpand, hholds, hlt, hcount⟩ | ⟨hrefused, hexpand⟩
    · obtain ⟨m'', hstore, -, hholds'⟩ := hholds.storeGroup (hcount ▸ hlt) hg hmem
      rw [hexpand, if_neg (not_not.mpr rfl), hstore] at hadd
      refine .inr (.inr ⟨hmem, _, hadd, rfl, hholds', fun hall => ?_⟩)
      rw [hgrant] at hall
      exact Bool.noConfusion hall.2
    · rw [hexpand, if_pos (by omega : (-1 : ℤ) ≠ 0)] at hadd
      exact .inr (.inl ⟨hmem, hadd, hfull, hrefused⟩)
  · rw [if_neg hfull] at hadd
    obtain ⟨m', hstore, -, hholds⟩ := h.storeGroup (UInt64.not_le.mp hfull) hg hmem
    rw [hstore] at hadd
    exact .inr (.inr ⟨hmem, _, hadd, rfl, hholds, fun hall => hfull hall.1⟩)

/-- What `remove_group` does. -/
theorem Holds.removeGroup_cases (h : st.Holds table) (groupId : Bytes) :
    (groupId ∉ table ∧ removeGroup st groupId = some (-1, st)) ∨
      ∃ before k after st', table.entries = before ++ ⟨groupId, k⟩ :: after ∧
        removeGroup st groupId = some (0, st') ∧ st'.heap = st.heap.free k ∧
        st'.Holds (table.erase groupId) ∧ (table.erase groupId).entries = before ++ after := by
  rcases h.scanGroups_cases groupId with ⟨hnot, hscan⟩ | ⟨before, k, after, hentries, hnew, hscan⟩
  · refine .inl ⟨hnot, ?_⟩
    simp only [removeGroup, hscan, Option.bind_eq_bind, Option.bind_some]
    rfl
  · refine .inr ⟨before, k, after, ⟨_, st.heap.free k⟩, hentries, ?_, rfl,
      h.removeSlot hentries hnew, entries_erase hentries hnew⟩
    simp only [removeGroup, hscan, Option.bind_eq_bind, Option.bind_some]
    rfl

/-! ### Runs -/

/-- The calls on a manager, and the groups that its callers make. -/
inductive ManagerOp where
  | createGroup (group : Group)
  /-- The outcome is that of the `realloc`. -/
  | addGroup (handle : ℕ) (o : IoOutcome)
  | removeGroup (groupId : Bytes)
  deriving DecidableEq, Repr

/-- One call. -/
def step (st : ManagerState) : ManagerOp → Option (ℤ × ManagerState)
  | .createGroup group => some (0, { st with heap := st.heap.alloc group })
  | .addGroup handle o => SuparnaD.addGroup o st handle
  | .removeGroup groupId => SuparnaD.removeGroup st groupId

/-- What the result of a call says about the map from ids to groups. -/
def register (current : Bytes → Option ℕ) (e : RunStep ManagerState ManagerOp ℤ) :
    Bytes → Option ℕ :=
  match e.op with
  | .createGroup _ => current
  | .addGroup handle _ =>
    if e.result = 0 then
      fun groupId => if e.before.idOf handle = some groupId then some handle else current groupId
    else current
  | .removeGroup groupId => if e.result = 0 then Function.update current groupId none else current

/-- The ids in the array are distinct, the array is large enough, and `find_group` is the map. -/
structure IsMap (st : ManagerState) (registered : Bytes → Option ℕ) : Prop where
  distinct : (st.live.map st.idOf).Nodup
  count_le : st.manager.count ≤ st.manager.capacity
  length_live : st.live.length = st.manager.count.toNat
  find : ∀ groupId, findGroup st.manager st.heap groupId = some (registered groupId)

/-- `add_group` of a group that exists. It runs out of memory only when the array is full and cannot
be doubled. -/
structure Adds (st : ManagerState) (handle : ℕ) (o : IoOutcome) (r : ℤ) (st' : ManagerState) :
    Prop where
  result : r = 0 ∨ r = -1 ∨ r = -2
  refused : r = -2 ↔ ∃ groupId, st.idOf handle = some groupId ∧ st.Present groupId
  exhausted : r = -1 ↔ r ≠ -2 ∧ st.manager.capacity ≤ st.manager.count ∧
    Writer.reallocGrants o (st.manager.capacity.toNat * 16) = false
  added : r = 0 → st'.live = st.live ++ [handle] ∧ st'.heap = st.heap
  failed : r ≠ 0 → st' = st

/-- `remove_group` takes out and frees the group of the id, and no other. -/
structure Removes (st : ManagerState) (groupId : Bytes) (r : ℤ) (st' : ManagerState) : Prop where
  result : r = 0 ∨ r = -1
  present : r = 0 ↔ st.Present groupId
  removed : r = 0 → ∃ before handle after, st.live = before ++ handle :: after ∧
    st.idOf handle = some groupId ∧ st'.live = before ++ after ∧ st'.heap = st.heap.free handle
  failed : r ≠ 0 → st' = st

/-- A call does what its kind says. -/
def Meets (e : RunStep ManagerState ManagerOp ℤ) : Prop :=
  match e.op with
  | .createGroup _ => e.after.manager = e.before.manager
  | .addGroup handle o => e.before.Adds handle o e.result e.after
  | .removeGroup groupId => e.before.Removes groupId e.result e.after

theorem Holds.isMap (h : st.Holds table) : st.IsMap table.lookup := by
  refine ⟨?_, h.count_le_capacity, ?_, h.findGroup_eq⟩
  · have hids : st.live.map st.idOf = table.keys.map some := by
      rw [h.live_eq, List.map_map, AList.keys, List.keys, List.map_map]
      exact List.map_congr_left h.ids
    rw [hids]
    exact table.keys_nodup.map fun _ _ => Option.some.inj
  · rw [h.live_eq, List.length_map, h.count]

theorem Holds.alloc (h : st.Holds table) (group : Group) :
    Holds { st with heap := st.heap.alloc group } table := by
  refine ⟨h.slots, h.count, h.length, h.small, h.pos, fun e he => ?_⟩
  have hid := h.ids e he
  obtain ⟨g, hg, -⟩ := Option.map_eq_some_iff.mp hid
  change ((st.heap.alloc group).get e.2).map Group.groupId = some e.1
  rw [HandleHeap.get_alloc_of_ne (Nat.ne_of_lt (HandleHeap.lt_fresh_of_get hg))]
  exact hid

/-- A call that fails says nothing. -/
theorem register_of_ne_zero {current : Bytes → Option ℕ} {e : RunStep ManagerState ManagerOp ℤ}
    (hr : e.result ≠ 0) : register current e = current := by
  obtain ⟨st, op, r, st'⟩ := e
  cases op with
  | createGroup group => rfl
  | addGroup handle o => exact if_neg hr
  | removeGroup groupId => exact if_neg hr

/-- The entry of a new id. -/
theorem lookup_union_singleton (hnew : groupId ∉ table) (id : Bytes) :
    (table ∪ AList.singleton groupId handle).lookup id =
      if groupId = id then some handle else table.lookup id := by
  split_ifs with heq
  · subst heq
    rw [AList.lookup_union_right hnew, ← AList.insert_empty, AList.lookup_insert]
  · by_cases hid : id ∈ table
    · rw [AList.lookup_union_left hid]
    · rw [AList.lookup_union_right hid, AList.lookup_eq_none.mpr hid, ← AList.insert_empty,
        AList.lookup_insert_ne (Ne.symm heq), AList.lookup_empty]

/-- A call of `add_group` meets its specification and keeps the table up to date. -/
theorem Holds.step_addGroup (h : st.Holds table) {o : IoOutcome} {r : ℤ}
    (hstep : SuparnaD.addGroup o st handle = some (r, st')) :
    st.Adds handle o r st' ∧ ∃ table' : GroupTable, st'.Holds table' ∧
      register (fun id => table.lookup id) ⟨st, .addGroup handle o, r, st'⟩ =
        fun id => table'.lookup id := by
  obtain ⟨g, hg, -⟩ := Option.bind_eq_some_iff.mp hstep
  have hid : st.idOf handle = some g.groupId := by
    rw [idOf, hg]
    rfl
  have hpresent : (∃ groupId, st.idOf handle = some groupId ∧ st.Present groupId) ↔
      g.groupId ∈ table := by
    rw [← h.present_iff]
    constructor
    · rintro ⟨groupId, hid', hpres⟩
      exact Option.some.inj (hid.symm.trans hid') ▸ hpres
    · exact fun hpres => ⟨g.groupId, hid, hpres⟩
  rcases h.addGroup_cases o hg with ⟨hmem, hadd⟩ | ⟨hmem, hadd, hfull, hrefused⟩ |
    ⟨hmem, st₁, hadd, hheap, hholds, hroom⟩ <;>
    obtain ⟨rfl, rfl⟩ := Prod.mk.inj (Option.some.inj (hadd.symm.trans hstep))
  · refine ⟨⟨.inr (.inr rfl), iff_of_true rfl (hpresent.mpr hmem), ?_, ?_, fun _ => rfl⟩,
      table, h, ?_⟩
    · exact iff_of_false (by omega) fun hall => hall.1 rfl
    · exact fun hr => absurd hr (by omega)
    · exact register_of_ne_zero (by omega : (-2 : ℤ) ≠ 0)
  · refine ⟨⟨.inr (.inl rfl), iff_of_false (by omega) fun hpres => hmem (hpresent.mp hpres),
      iff_of_true rfl ⟨by omega, hfull, hrefused⟩, fun hr => absurd hr (by omega), fun _ => rfl⟩,
      table, h, register_of_ne_zero (by omega : (-1 : ℤ) ≠ 0)⟩
  · refine ⟨⟨.inl rfl, iff_of_false (by omega) fun hpres => hmem (hpresent.mp hpres),
      iff_of_false (by omega) fun hall => hroom hall.2, fun _ => ⟨?_, hheap⟩,
      fun hr => absurd rfl hr⟩, _, hholds, ?_⟩
    · rw [hholds.live_eq, h.live_eq, entries_union_singleton hmem, List.map_append]
      rfl
    · funext id
      simp only [register, ↓reduceIte, hid, Option.some.injEq, lookup_union_singleton hmem]

/-- A call of `remove_group` meets its specification and keeps the table up to date. -/
theorem Holds.step_removeGroup (h : st.Holds table) {r : ℤ}
    (hstep : SuparnaD.removeGroup st groupId = some (r, st')) :
    st.Removes groupId r st' ∧ ∃ table' : GroupTable, st'.Holds table' ∧
      register (fun id => table.lookup id) ⟨st, .removeGroup groupId, r, st'⟩ =
        fun id => table'.lookup id := by
  have hpresent : st.Present groupId ↔ groupId ∈ table := h.present_iff
  rcases h.removeGroup_cases groupId with ⟨hmem, hremove⟩ |
    ⟨before, k, after, st₁, hentries, hremove, hheap, hholds, herase⟩ <;>
    obtain ⟨rfl, rfl⟩ := Prod.mk.inj (Option.some.inj (hremove.symm.trans hstep))
  · refine ⟨⟨.inr rfl, iff_of_false (by omega) fun hpres => hmem (hpresent.mp hpres),
      fun hr => absurd hr (by omega), fun _ => rfl⟩, table, h,
      register_of_ne_zero (by omega : (-1 : ℤ) ≠ 0)⟩
  · have hmem : (⟨groupId, k⟩ : Σ _ : Bytes, ℕ) ∈ table.entries :=
      hentries ▸ List.mem_append_right _ List.mem_cons_self
    refine ⟨⟨.inl rfl, iff_of_true rfl (hpresent.mpr (List.mem_map.mpr ⟨_, hmem, rfl⟩)), fun _ =>
      ⟨before.map Sigma.snd, k, after.map Sigma.snd, ?_, h.ids _ hmem, ?_, hheap⟩,
      fun hr => absurd rfl hr⟩, _, hholds, ?_⟩
    · rw [h.live_eq, hentries, List.map_append, List.map_cons]
    · rw [hholds.live_eq, herase, List.map_append]
    · funext id
      simp only [register, ↓reduceIte]
      by_cases heq : id = groupId
      · rw [heq, Function.update_self, AList.lookup_erase]
      · rw [Function.update_of_ne heq, AList.lookup_erase_ne heq]

/-- One call meets its specification and keeps the table up to date. -/
theorem Holds.step (h : st.Holds table) {op : ManagerOp} {r : ℤ}
    (hstep : st.step op = some (r, st')) :
    Meets ⟨st, op, r, st'⟩ ∧ ∃ table' : GroupTable, st'.Holds table' ∧
      register (fun id => table.lookup id) ⟨st, op, r, st'⟩ = fun id => table'.lookup id := by
  cases op with
  | createGroup group =>
    obtain ⟨rfl, rfl⟩ := Prod.mk.inj (Option.some.inj hstep)
    exact ⟨rfl, table, h.alloc group, rfl⟩
  | addGroup handle o => exact h.step_addGroup hstep
  | removeGroup groupId => exact h.step_removeGroup hstep

/-- A call has no defined result only when the caller names a group that does not exist. -/
theorem Holds.step_eq_none_iff (h : st.Holds table) (op : ManagerOp) :
    st.step op = none ↔ ∃ handle o, op = .addGroup handle o ∧ st.heap.get handle = none := by
  cases op with
  | createGroup group => simp [ManagerState.step]
  | addGroup handle o =>
    cases hg : st.heap.get handle with
    | none =>
      refine iff_of_true ?_ ⟨handle, o, rfl, hg⟩
      simp [ManagerState.step, SuparnaD.addGroup, hg]
    | some g =>
      refine iff_of_false ?_ ?_
      · rcases h.addGroup_cases o hg with ⟨-, hadd⟩ | ⟨-, hadd, -⟩ | ⟨-, st₁, hadd, -⟩ <;>
          simp [ManagerState.step, hadd]
      · rintro ⟨handle', o', heq, hnone⟩
        cases heq
        cases hg.symm.trans hnone
  | removeGroup groupId =>
    refine iff_of_false ?_ ?_
    · rcases h.removeGroup_cases groupId with ⟨-, hremove⟩ | ⟨_, _, _, st₁, -, hremove, -⟩ <;>
        simp [ManagerState.step, hremove]
    · rintro ⟨handle, o, heq, -⟩
      cases heq

/-- A run keeps the table up to date. -/
theorem Holds.run (h : st.Holds table) (ops : List ManagerOp) :
    (∀ e ∈ trace ManagerState.step st ops, Meets e) ∧ ∃ table' : GroupTable,
      (runEnd ManagerState.step st ops).Holds table' ∧
      (trace ManagerState.step st ops).foldl register (fun id => table.lookup id) =
        fun id => table'.lookup id := by
  induction ops generalizing st table with
  | nil => exact ⟨by simp, table, h, rfl⟩
  | cons op ops ih =>
    cases hstep : st.step op with
    | none =>
      rw [trace_cons_of_none hstep]
      refine ⟨by simp, table, ?_, rfl⟩
      simpa only [runEnd, hstep] using h
    | some x =>
      obtain ⟨r, st₁⟩ := x
      obtain ⟨hmeets, table₁, h₁, hregister⟩ := h.step hstep
      obtain ⟨hrest, table', h', hfold⟩ := ih h₁
      rw [trace_cons_of_some hstep, runEnd_cons_of_some hstep, List.forall_mem_cons,
        List.foldl_cons, hregister]
      exact ⟨⟨hmeets, hrest⟩, table', h', hfold⟩

/-- From `group_manager_init` on the manager is a map from ids to groups, whatever is added and
removed and whatever memory is refused: every call does what its kind says, and `find_group` returns
the group that has been added last under an id and has not been removed. -/
theorem manages_run {m : GroupManager} {o o' : IoOutcome} (hinit : groupManagerInit o o' = some m)
    (heap : HandleHeap Group) (ops : List ManagerOp) :
    (runEnd step ⟨m, heap⟩ ops).IsMap
        ((trace step ⟨m, heap⟩ ops).foldl register fun _ => none) ∧
      (∀ e ∈ trace step ⟨m, heap⟩ ops, Meets e) ∧
      ∀ op, (runEnd step ⟨m, heap⟩ ops).step op = none ↔
        ∃ handle o, op = .addGroup handle o ∧
          (runEnd step ⟨m, heap⟩ ops).heap.get handle = none := by
  have hstart : Holds ⟨m, heap⟩ ∅ := holds_groupManagerInit hinit heap
  obtain ⟨hmeets, table, hholds, hfold⟩ := hstart.run ops
  refine ⟨?_, hmeets, hholds.step_eq_none_iff⟩
  have hempty : (fun groupId => (∅ : GroupTable).lookup groupId) = fun _ => none :=
    funext fun groupId => AList.lookup_empty groupId
  rw [hempty] at hfold
  rw [hfold]
  exact hholds.isMap

/-- A new manager without any groups. -/
def sampleManager : ManagerState := ⟨⟨List.replicate 16 none, 0, 16⟩, .empty⟩

/-- Two groups of one id and one of another; the first is removed and its id taken again. -/
def sampleCalls : List ManagerOp :=
  [.createGroup ⟨[97], 0, 0, 0⟩, .createGroup ⟨[97], 0, 5, 0⟩, .createGroup ⟨[98], 0, 0, 0⟩,
    .addGroup 0 .ok, .addGroup 1 .ok, .addGroup 2 .ok, .removeGroup [97], .addGroup 1 .ok]

theorem manages_run_sample :
    (runEnd step sampleManager sampleCalls).IsMap
        ((trace step sampleManager sampleCalls).foldl register fun _ => none) ∧
      (∀ e ∈ trace step sampleManager sampleCalls, Meets e) ∧
      ∀ op, (runEnd step sampleManager sampleCalls).step op = none ↔
        ∃ handle o, op = .addGroup handle o ∧
          (runEnd step sampleManager sampleCalls).heap.get handle = none :=
  manages_run (rfl : groupManagerInit .ok .ok = _) .empty sampleCalls

end ManagerState

end SuparnaD

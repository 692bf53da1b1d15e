import SuparnaD.Messaging.GroupTable

/-!
# The life of the groups of a manager

A group belongs to the manager from the moment `add_group` accepts it. It is freed once: by
`remove_group`, or by `group_manager_free` at the end. A group that has not been accepted is never
freed, and `group_manager_free` frees nothing that has been freed before.

## Main definitions

* `ManagerState.accepts`, `ManagerState.creates` : what a call adds.
* `ManagerState.Custodial` : which groups have been freed and which the manager still has.

## Main results

* `GroupManager.Holds.freeGroups_eq` : the loop of `group_manager_free`.
* `ManagerState.Custodial.step`.
* `ManagerState.frees_accepted`.
-/

namespace SuparnaD

variable {m : GroupManager} {heap : HandleHeap Group} {table : GroupTable}

/-! ### The loop -/

/-- The rest of the loop, over the groups that have not been freed. -/
theorem freeGroups_append (before : List (Σ _ : Bytes, ℕ)) {l : List (Σ _ : Bytes, ℕ)}
    {rest : List (Option ℕ)} (hslots : m.groups = (before ++ l).map (fun e => some e.2) ++ rest)
    (hlive : ∀ e ∈ l, heap.get e.2 ≠ none) (hnodup : (l.map Sigma.snd).Nodup) :
    freeGroups m l.length before.length heap = some (heap.freeAll (l.map Sigma.snd)) := by
  induction l generalizing before heap with
  | nil => rfl
  | cons e l ih =>
    obtain ⟨he, hlive⟩ := List.forall_mem_cons.mp hlive
    obtain ⟨hnew, hnodup⟩ := List.nodup_cons.mp hnodup
    obtain ⟨g, hg⟩ := Option.ne_none_iff_exists'.mp he
    have hslot : m.groups[before.length]? = some (some e.2) := by
      rw [hslots, List.map_append, List.map_cons, List.append_assoc,
        List.getElem?_append_right (by rw [List.length_map]), List.length_map, Nat.sub_self]
      rfl
    have hkept : ∀ e' ∈ l, (heap.free e.2).get e'.2 ≠ none := by
      intro e' he'
      have hne : e'.2 ≠ e.2 := fun heq => hnew (heq ▸ List.mem_map_of_mem (f := Sigma.snd) he')
      rw [HandleHeap.get_free_of_ne hne]
      exact hlive e' he'
    have hnext := ih (before ++ [e])
      (by rw [hslots, List.append_assoc, List.singleton_append]) hkept hnodup
    rw [List.length_append, List.length_singleton] at hnext
    rw [List.length_cons, freeGroups, hslot]
    simp only [hg]
    rw [hnext]
    rfl

/-- No group stands in the table twice. -/
theorem GroupManager.Holds.nodup (h : m.Holds heap table) :
    (table.entries.map Sigma.snd).Nodup := by
  have hids : (table.entries.map Sigma.snd).map (fun k => (heap.get k).map Group.groupId) =
      table.keys.map some := by
    rw [List.map_map, AList.keys, List.keys, List.map_map]
    exact List.map_congr_left h.ids
  refine List.Nodup.of_map (fun k => (heap.get k).map Group.groupId) ?_
  rw [hids]
  exact table.keys_nodup.map fun _ _ => Option.some.inj

/-- The loop frees the groups of the table. -/
theorem GroupManager.Holds.freeGroups_eq (h : m.Holds heap table) :
    freeGroups m m.count.toNat 0 heap = some (heap.freeAll (table.entries.map Sigma.snd)) := by
  obtain ⟨rest, hslots⟩ := h.slots
  rw [h.count]
  refine freeGroups_append [] hslots (fun e he hnone => ?_) h.nodup
  have hid := h.ids e he
  rw [hnone] at hid
  cases hid

/-! ### Runs -/

namespace ManagerState

/-- The group that the manager accepts. -/
def accepts (e : RunStep ManagerState ManagerOp ℤ) : Option ℕ :=
  match e.op with
  | .addGroup handle _ => if e.result = 0 then some handle else none
  | _ => none

/-- The group that a caller makes. -/
def creates (e : RunStep ManagerState ManagerOp ℤ) : Option Group :=
  match e.op with
  | .createGroup group => some group
  | _ => none

/-- Of the groups that have been made, those in the list have been freed, once each. Together with
the groups in the array they are the accepted ones. -/
structure Custodial (made : HandleHeap Group) (accepted freed : List ℕ) (st : ManagerState) :
    Prop where
  freed_eq : st.heap.freed = freed ++ made.freed
  perm : (freed ++ st.live).Perm accepted
  nodup : (freed ++ st.live).Nodup
  lt_fresh : ∀ k ∈ freed, k < st.heap.fresh
  fresh_eq : st.heap.fresh = made.fresh
  get_eq : ∀ k, st.heap.get k = if k ∈ freed then none else made.get k

namespace Custodial

variable {made : HandleHeap Group} {accepted freed : List ℕ} {st st' : ManagerState}

theorem create (h : Custodial made accepted freed st) (group : Group) :
    Custodial (made.alloc group) accepted freed { st with heap := st.heap.alloc group } := by
  refine ⟨h.freed_eq, h.perm, h.nodup, fun k hk => ?_, ?_, fun k => ?_⟩
  · rw [HandleHeap.fresh_alloc]
    exact Nat.lt_succ_of_lt (h.lt_fresh k hk)
  · rw [HandleHeap.fresh_alloc, HandleHeap.fresh_alloc, h.fresh_eq]
  · by_cases hk : k = st.heap.fresh
    · have hnot : k ∉ freed := fun hmem => absurd (h.lt_fresh k hmem) (hk ▸ Nat.lt_irrefl _)
      rw [if_neg hnot, hk, HandleHeap.get_alloc_self, h.fresh_eq, HandleHeap.get_alloc_self]
    · rw [HandleHeap.get_alloc_of_ne hk, HandleHeap.get_alloc_of_ne (h.fresh_eq ▸ hk), h.get_eq]

/-- An accepted group is live and was not in the array. -/
theorem add (h : Custodial made accepted freed st) {handle : ℕ} {group : Group}
    (hget : st.heap.get handle = some group) (hnew : handle ∉ st.live)
    (hlive : st'.live = st.live ++ [handle]) (hheap : st'.heap = st.heap) :
    Custodial made (accepted ++ [handle]) freed st' := by
  have hnot : handle ∉ freed := by
    intro hmem
    rw [h.get_eq, if_pos hmem] at hget
    cases hget
  refine ⟨hheap ▸ h.freed_eq, ?_, ?_, hheap ▸ h.lt_fresh, hheap ▸ h.fresh_eq, hheap ▸ h.get_eq⟩
  · rw [hlive, ← List.append_assoc]
    exact h.perm.append_right _
  · rw [hlive, ← List.append_assoc]
    refine List.Nodup.append h.nodup (List.nodup_singleton _) fun k hk hk' => ?_
    rw [List.mem_singleton.mp hk', List.mem_append] at hk
    exact hk.elim hnot hnew

/-- A removed group is freed. -/
theorem remove (h : Custodial made accepted freed st) {before after : List ℕ} {handle : ℕ}
    (hlive : st.live = before ++ handle :: after) (hlive' : st'.live = before ++ after)
    (hheap : st'.heap = st.heap.free handle) (hlt : handle < st.heap.fresh) :
    Custodial made accepted (handle :: freed) st' := by
  have hperm : ((handle :: freed) ++ st'.live).Perm (freed ++ st.live) := by
    rw [hlive', hlive, ← List.append_assoc, ← List.append_assoc]
    exact List.perm_middle.symm
  refine ⟨?_, hperm.trans h.perm, hperm.nodup_iff.mpr h.nodup, fun k hk => ?_, ?_, fun k => ?_⟩
  · rw [hheap, HandleHeap.free, h.freed_eq, List.cons_append]
  · rw [hheap, HandleHeap.fresh_free]
    rcases List.mem_cons.mp hk with rfl | hk
    · exact hlt
    · exact h.lt_fresh k hk
  · rw [hheap, HandleHeap.fresh_free, h.fresh_eq]
  · rw [hheap]
    by_cases hk : k = handle
    · rw [hk, HandleHeap.get_free_self, if_pos List.mem_cons_self]
    · rw [HandleHeap.get_free_of_ne hk, h.get_eq]
      simp only [List.mem_cons, hk, false_or]

/-- A call keeps account of the groups. -/
theorem step (h : Custodial made accepted freed st) (hholds : st.Holds table) {op : ManagerOp}
    {r : ℤ} (hstep : st.step op = some (r, st')) :
    ∃ freed', Custodial ((creates ⟨st, op, r, st'⟩).toList.foldl HandleHeap.alloc made)
      (accepted ++ (accepts ⟨st, op, r, st'⟩).toList) freed' st' := by
  obtain ⟨hmeets, -⟩ := hholds.step hstep
  cases op with
  | createGroup group =>
    obtain ⟨rfl, rfl⟩ := Prod.mk.inj (Option.some.inj hstep)
    exact ⟨freed, (List.append_nil accepted).symm ▸ h.create group⟩
  | addGroup handle o =>
    obtain ⟨group, hgroup, -⟩ := Option.bind_eq_some_iff.mp hstep
    have hadds : st.Adds handle o r st' := hmeets
    simp only [accepts, creates, Option.toList_none, List.foldl_nil]
    split_ifs with hr
    · obtain ⟨hlive, hheap⟩ := hadds.added hr
      -- A group in the array would be found under its own id.
      have hnew : handle ∉ st.live := by
        intro hmem
        have hid : st.idOf handle = some group.groupId := by rw [idOf, hgroup]; rfl
        have hrefused := hadds.refused.mpr ⟨group.groupId, hid, handle, hmem, hid⟩
        omega
      exact ⟨freed, h.add hgroup hnew hlive hheap⟩
    · rw [hadds.failed hr, Option.toList_none, List.append_nil]
      exact ⟨freed, h⟩
  | removeGroup groupId =>
    have hremoves : st.Removes groupId r st' := hmeets
    simp only [accepts, creates, Option.toList_none, List.foldl_nil, List.append_nil]
    by_cases hr : r = 0
    · obtain ⟨before, handle, after, hlive, hid, hlive', hheap⟩ := hremoves.removed hr
      obtain ⟨group, hgroup, -⟩ := Option.map_eq_some_iff.mp hid
      exact ⟨_, h.remove hlive hlive' hheap (HandleHeap.lt_fresh_of_get hgroup)⟩
    · rw [hremoves.failed hr]
      exact ⟨freed, h⟩

/-- A run keeps account of the groups. -/
theorem run (h : Custodial made accepted freed st) (hholds : st.Holds table)
    (ops : List ManagerOp) : ∃ table' freed', (runEnd ManagerState.step st ops).Holds table' ∧
      Custodial (((trace ManagerState.step st ops).filterMap creates).foldl HandleHeap.alloc made)
        (accepted ++ (trace ManagerState.step st ops).filterMap accepts) freed'
        (runEnd ManagerState.step st ops) := by
  induction ops generalizing st made accepted freed table with
  | nil => exact ⟨table, freed, hholds, (List.append_nil accepted).symm ▸ h⟩
  | cons op ops ih =>
    cases hstep : st.step op with
    | none =>
      simp only [runEnd, trace, hstep]
      exact ⟨table, freed, hholds, (List.append_nil accepted).symm ▸ h⟩
    | some x =>
      obtain ⟨r, st₁⟩ := x
      obtain ⟨-, table₁, hholds₁, -⟩ := hholds.step hstep
      obtain ⟨freed₁, h₁⟩ := h.step hholds hstep
      obtain ⟨table', freed', hholds', h'⟩ := ih h₁ hholds₁
      refine ⟨table', freed', ?_, ?_⟩
      · rwa [runEnd_cons_of_some hstep]
      · rw [runEnd_cons_of_some hstep, filterMap_trace_cons _ hstep, filterMap_trace_cons _ hstep,
          List.foldl_append, ← List.append_assoc]
        exact h'

end Custodial

/-- From `group_manager_init` on, whatever is added and removed and whatever memory is refused,
`group_manager_free` comes to an end. Then the groups that `add_group` has accepted have been freed,
each of them once, and all other groups that were made are as their callers made them. -/
theorem frees_accepted {m : GroupManager} {o o' : IoOutcome}
    (hinit : groupManagerInit o o' = some m) (heap : HandleHeap Group) (ops : List ManagerOp) :
    ∃ heap' freed, groupManagerFree (runEnd step ⟨m, heap⟩ ops) = some heap' ∧
      heap'.freed = freed ++ heap.freed ∧ freed.Nodup ∧
      freed.Perm ((trace step ⟨m, heap⟩ ops).filterMap accepts) ∧
      ∀ k, heap'.get k = if k ∈ freed then none else
        (((trace step ⟨m, heap⟩ ops).filterMap creates).foldl HandleHeap.alloc heap).get k := by
  have hstart : Holds ⟨m, heap⟩ ∅ := holds_groupManagerInit hinit heap
  have hlive : live ⟨m, heap⟩ = [] := by rw [hstart.live_eq]; rfl
  have hnone : Custodial heap [] [] ⟨m, heap⟩ :=
    ⟨rfl, by rw [hlive]; rfl, by rw [hlive]; exact List.nodup_nil, nofun, rfl, fun _ => rfl⟩
  obtain ⟨table, freed, hholds, h⟩ := hnone.run hstart ops
  have hfree := hholds.freeGroups_eq
  rw [← hholds.live_eq] at hfree
  have hperm : ((runEnd step ⟨m, heap⟩ ops).live.reverse ++ freed).Perm
      (freed ++ (runEnd step ⟨m, heap⟩ ops).live) :=
    ((List.reverse_perm _).append_right _).trans List.perm_append_comm
  refine ⟨_, _, hfree, ?_, hperm.nodup_iff.mpr h.nodup, hperm.trans h.perm, fun k => ?_⟩
  · rw [HandleHeap.freed_freeAll, h.freed_eq, HandleHeap.freed_foldl_alloc, List.append_assoc]
  · rw [HandleHeap.get_freeAll, h.get_eq]
    by_cases hk : k ∈ (runEnd step ⟨m, heap⟩ ops).live <;> simp [hk]

theorem frees_accepted_sample : ∃ heap' freed,
    groupManagerFree (runEnd step sampleManager sampleCalls) = some heap' ∧
      heap'.freed = freed ++ (HandleHeap.empty : HandleHeap Group).freed ∧ freed.Nodup ∧
      freed.Perm ((trace step sampleManager sampleCalls).filterMap accepts) ∧
      ∀ k, heap'.get k = if k ∈ freed then none else
        (((trace step sampleManager sampleCalls).filterMap creates).foldl HandleHeap.alloc
          .empty).get k :=
  frees_accepted (rfl : groupManagerInit .ok .ok = _) .empty sampleCalls

end ManagerState

end SuparnaD

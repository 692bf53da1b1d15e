import SuparnaD.Messaging.Answered
import SuparnaD.Messaging.ReadOnly
import SuparnaD.Socket.HandleOwnership

/-!
# The selection of a session stays coherent

`SET_GROUP` and `SET_TOPIC` replace the group and the topic of a session in any order, and the group
keeps the handle of the topic that it was made for. When memory allocation succeeds, a session that
has a group and a topic has a group of its own group id on its own topic, and the topic is live. So
no command of a session uses an object that has been freed.

## Main definitions

* `SessionState.Coherent` : what a group and a topic that are both set have to do with each other.
* `SessionState.Steadfast` : the invariant, with what it needs of the allocator and of the topics.

## Main results

* `SessionState.Steadfast.command` : a command comes to an end and keeps the invariant.
* `SessionState.coherent_of_fresh`.
-/

namespace SuparnaD

open Broker CallProgram SessionM

theorem answered_openTopic (topicName : Bytes) : (openTopic topicName).Answered := by
  refine answered_malloc.bind fun _ => .ite (answered_pure _) (answered_malloc.bind fun _ => ?_)
  refine answered_malloc.bind fun _ => ?_
  refine (answered_issue trivial : (chunkInit _).Answered).bind fun _ => ?_
  exact .ite ((answered_issue trivial : chunkLoad.Answered).bind fun _ => answered_pure _)
    (answered_pure _)

/-! ### Computations that come to an end -/

namespace SessionM

variable {α β : Type}

/-- The computation comes to an end in every state. -/
def Total (m : SessionM α) : Prop := ∀ st, ∃ a st', m st = some (a, st')

theorem Total.pure (a : α) : (pure a : SessionM α).Total := fun st => ⟨a, st, rfl⟩

theorem Total.bind {m : SessionM α} {f : α → SessionM β} (hm : m.Total)
    (hf : ∀ a, (f a).Total) : (m >>= f).Total := by
  intro st
  obtain ⟨a, t, hrun₁⟩ := hm st
  obtain ⟨b, st', hrun₂⟩ := hf a t
  exact ⟨b, st', bind_eq_some_iff.mpr ⟨a, t, hrun₁, hrun₂⟩⟩

theorem total_detached {p : Broker α} (hp : ∀ s, ∃ a s', p.exec s = some (a, s')) :
    (detached p).Total := by
  intro st
  obtain ⟨a, m, hexec⟩ := hp (st.machine none)
  exact ⟨(a, m.chunk), _, detached_eq_some_iff.mpr ⟨m, hexec, rfl, rfl⟩⟩

theorem total_modifySession (f : ClientSession → ClientSession) : (modifySession f).Total :=
  fun _ => ⟨_, _, rfl⟩

theorem total_newGroup (group : Option Group) : (newGroup group).Total := by
  cases group with
  | none => exact .pure none
  | some g => exact fun st => ⟨_, _, rfl⟩

theorem total_newTopic (r : Option Topic × Option Chunk) : (newTopic r).Total := by
  obtain ⟨topic, chunk⟩ := r
  cases topic with
  | none => exact .pure none
  | some t => exact fun st => ⟨_, _, rfl⟩

/-- A reply and a result. -/
theorem total_answer (text : Bytes) (r : ℤ) : Total (do reply text; return r) :=
  fun _ => ⟨_, _, rfl⟩

end SessionM

namespace SessionState

theorem total_freeGroup (group : Option ℕ) : (freeGroup group).Total := by
  cases group <;> exact fun st => ⟨_, _, rfl⟩

theorem total_freeTopic (topic : Option ℕ) : (freeTopic topic).Total := by
  cases topic <;> exact fun st => ⟨_, _, rfl⟩

theorem total_renewGroup (th : ℕ) : (renewGroup th).Total := by
  rw [renewGroup_eq]
  refine Total.bind (fun st => ⟨_, _, rfl⟩) fun session => ?_
  refine (total_freeGroup session.group).bind fun _ => ?_
  have hcreate := onDirectories_createGroup session.groupId th
  refine (total_detached hcreate.answered.exec).bind fun _ => ?_
  exact (total_newGroup _).bind fun _ => total_modifySession _

theorem total_finishSelection : finishSelection.Total := by
  refine Total.bind (fun st => ⟨_, _, rfl⟩) ?_
  rintro ⟨group, topic, groupId, topicName⟩
  cases topic with
  | none => exact total_answer _ _
  | some th =>
  cases groupId with
  | none => exact total_answer _ _
  | some name => exact (total_renewGroup th).bind fun _ => total_answer _ _

theorem total_withNewTopic {p : Broker (Option Topic)}
    (hp : ∀ s, ∃ a s', p.exec s = some (a, s')) : (withNewTopic p).Total :=
  (total_detached hp).bind fun _ => (total_newTopic _).bind fun _ => total_modifySession _

/-- `SET_GROUP` comes to an end. -/
theorem total_setGroup (groupName : Bytes) : (handleSetGroup groupName).Total := by
  intro st
  rw [handleSetGroup_eq]
  cases st.session.topic with
  | none => exact total_answer _ _ _
  | some th => exact ((total_renewGroup th).bind fun _ => total_answer _ _) _

/-- `SET_TOPIC` comes to an end. -/
theorem total_setTopic (topicName : Bytes) : (handleSetTopic topicName).Total := by
  intro st
  rw [handleSetTopic_eq]
  split
  · refine Total.bind (m := Prod.fst <$> detached (topicExists topicName _)) ?_ (fun found => ?_) _
    · intro st
      obtain ⟨a, st', hrun⟩ :=
        total_detached (onDirectories_topicExists topicName _).answered.exec st
      exact ⟨a.1, st', map_eq_some_iff.mpr ⟨a, hrun, rfl⟩⟩
    · split
      · refine Total.bind (fun st => ⟨_, _, rfl⟩) fun session => ?_
        refine (total_freeTopic session.topic).bind fun _ => ?_
        exact (total_withNewTopic (answered_openTopic topicName).exec).bind fun _ =>
          total_finishSelection
      · exact (total_withNewTopic (exec_createTopic_some topicName _)).bind fun _ =>
          total_finishSelection
  · exact (total_modifySession _).bind (fun _ => total_finishSelection) _

/-! ### Outcomes that are used up -/

/-- The outcomes that are left are the last of those that were there. -/
def Spends (st st' : SessionState) : Prop := st'.world.faults <:+ st.world.faults

/-- Programs of the broker use up outcomes only. -/
theorem respected_spends : Respected Spends where
  refl _ := List.suffix_refl _
  trans _ _ _ h h' := List.IsSuffix.trans h' h
  detached p := by
    rintro st ⟨a, chunk⟩ st' hrun
    obtain ⟨m, hexec, -, rfl⟩ := detached_eq_some_iff.mp hrun
    exact faults_exec hexec
  onTopic h p := by
    intro st a st' hrun
    obtain ⟨t, m, -, hexec, rfl⟩ := onTopic_eq_some_iff.mp hrun
    exact faults_exec hexec
  onGroup group topic f := by
    intro st a st' hrun
    obtain ⟨g, t, m, g', -, -, hexec, rfl⟩ := onGroup_eq_some_iff.mp hrun
    exact faults_exec hexec

/-- Using no outcome. -/
theorem spends_of_faults {α : Type} {m : SessionM α}
    (h : ∀ st a st', m st = some (a, st') → st'.world.faults = st.world.faults) :
    m.Keeps Spends := by
  intro st a st' hrun
  have hfaults := h st a st' hrun
  show st'.world.faults <:+ st.world.faults
  exact hfaults ▸ List.suffix_rfl

theorem spends_modifySession (f : ClientSession → ClientSession) :
    (modifySession f).Keeps Spends := by
  refine spends_of_faults fun st a st' hrun => ?_
  obtain ⟨-, rfl⟩ := Prod.mk.inj (Option.some.inj hrun)
  rfl

theorem spends_renewGroup (th : ℕ) : (renewGroup th).Keeps Spends := by
  rw [renewGroup_eq]
  have hfree (group : Option ℕ) : (freeGroup group).Keeps Spends := by
    refine spends_of_faults fun st a st' hrun => ?_
    cases group <;> obtain ⟨-, rfl⟩ := Prod.mk.inj (Option.some.inj hrun) <;> rfl
  have hnew (group : Option Group) : (newGroup group).Keeps Spends := by
    refine spends_of_faults fun st a st' hrun => ?_
    cases group <;> obtain ⟨-, rfl⟩ := Prod.mk.inj (Option.some.inj hrun) <;> rfl
  refine respected_spends.bind respected_spends.getSession fun session =>
    respected_spends.bind (hfree _) fun _ => ?_
  refine respected_spends.bind (respected_spends.detached _) fun _ =>
    respected_spends.bind (hnew _) fun _ => ?_
  exact spends_modifySession _

theorem spends_handleSetGroup (groupName : Bytes) : (handleSetGroup groupName).Keeps Spends := by
  refine respected_spends.bind respected_spends.malloc fun _ =>
    respected_spends.bind (spends_modifySession _) fun _ => ?_
  refine respected_spends.bind respected_spends.getSession ?_
  rintro ⟨group, topic, groupId, topicName⟩
  cases topic with
  | none => exact respected_spends.answer _ _
  | some th => exact respected_spends.bind (spends_renewGroup th) fun _ =>
    respected_spends.answer _ _

theorem spends_finishSelection : finishSelection.Keeps Spends := by
  refine respected_spends.bind respected_spends.getSession ?_
  rintro ⟨group, topic, groupId, topicName⟩
  cases topic with
  | none => exact respected_spends.answer _ _
  | some th =>
  cases groupId with
  | none => exact respected_spends.answer _ _
  | some name => exact respected_spends.bind (spends_renewGroup th) fun _ =>
    respected_spends.answer _ _

theorem spends_withNewTopic (p : Broker (Option Topic)) : (withNewTopic p).Keeps Spends := by
  have hnew (r : Option Topic × Option Chunk) : (newTopic r).Keeps Spends := by
    refine spends_of_faults fun st a st' hrun => ?_
    obtain ⟨topic, chunk⟩ := r
    cases topic <;> obtain ⟨-, rfl⟩ := Prod.mk.inj (Option.some.inj hrun) <;> rfl
  refine respected_spends.bind (respected_spends.detached p) fun _ =>
    respected_spends.bind (hnew _) fun _ => ?_
  exact spends_modifySession _

theorem spends_handleSetTopic (topicName : Bytes) : (handleSetTopic topicName).Keeps Spends := by
  intro st r st' hrun
  rw [handleSetTopic_eq] at hrun
  have hfree (topic : Option ℕ) : (freeTopic topic).Keeps Spends := by
    refine spends_of_faults fun st a st' hrun => ?_
    cases topic <;> obtain ⟨-, rfl⟩ := Prod.mk.inj (Option.some.inj hrun) <;> rfl
  have hexists : Keeps (Prod.fst <$> detached (topicExists topicName defaultTopicBasePath))
      Spends := by
    intro st a st' hrun
    obtain ⟨b, hrun', -⟩ := map_eq_some_iff.mp hrun
    exact respected_spends.detached _ hrun'
  have hallocated : st.Spends (st.withTopicName topicName) := Machine.faults_next _
  refine respected_spends.trans _ _ _ hallocated (Keeps.ite ?_ ?_ hrun)
  · refine respected_spends.bind hexists fun found => .ite ?_ ?_
    · refine respected_spends.bind respected_spends.getSession fun session =>
        respected_spends.bind (hfree _) fun _ => ?_
      exact respected_spends.bind (spends_withNewTopic _) fun _ => spends_finishSelection
    · exact respected_spends.bind (spends_withNewTopic _) fun _ => spends_finishSelection
  · exact respected_spends.bind (spends_modifySession _) fun _ => spends_finishSelection

/-! ### The invariant -/

variable {st st' : SessionState} {gh th : ℕ} {g : Group}

/-- A group and a topic that the session has are a group of its group id on that topic, and the
topic is live. -/
def Coherent (st : SessionState) : Prop :=
  ∀ gh th, st.session.group = some gh → st.session.topic = some th →
    ∃ g t, st.world.groups.get gh = some g ∧ st.world.topics.get th = some t ∧
      g.attachedTopic = th ∧ st.session.groupId = some g.groupId

/-- The invariant: allocation succeeds, the topic of the session is live, and its group, which only
exists with a group id, is coherent with it. -/
structure Steadfast (st : SessionState) : Prop where
  sound : st.world.Sound
  alloc : ∀ o ∈ st.world.faults, o.alloc = true
  topic : ∀ th, st.session.topic = some th → ∃ t, st.world.topics.get th = some t
  groupId : st.session.groupId = none → st.session.group = none
  coherent : st.Coherent

theorem Steadfast.outcome_alloc (h : st.Steadfast) : (st.machine none).outcome.alloc = true := by
  show (st.world.faults.headD .ok).alloc = true
  cases hfaults : st.world.faults with
  | nil => rfl
  | cons o rest => exact h.alloc o (hfaults ▸ List.mem_cons_self)

/-- A new group of the group id of the session on its topic, or no group. -/
theorem Renewed.steadfast (h : st.Renewed st' th) (htopic : st.session.topic = some th)
    (hlive : ∃ t, st.world.topics.get th = some t) (hsound : st'.world.Sound)
    (halloc : ∀ o ∈ st'.world.faults, o.alloc = true) : st'.Steadfast := by
  have htopic' : st'.session.topic = some th := by rw [h.session]; exact htopic
  refine ⟨hsound, halloc, fun th' hth' => ?_, fun hid => ?_, fun gh th' hgh hth' => ?_⟩
  · cases htopic'.symm.trans hth'
    rw [h.topics]
    exact hlive
  · rcases h.group with hnone | ⟨_, name, -, -, hname, -⟩
    · exact hnone
    · rw [h.session] at hid
      cases hid.symm.trans hname
  · cases htopic'.symm.trans hth'
    rcases h.group with hnone | ⟨gh', name, hgroup, -, hname, hget⟩
    · cases hnone.symm.trans hgh
    · cases hgroup.symm.trans hgh
      obtain ⟨t, ht⟩ := hlive
      refine ⟨_, t, hget, h.topics ▸ ht, rfl, ?_⟩
      rw [h.session]
      exact hname

/-- `CONSUME` and `ACK` come to an end on a group and a topic that are coherent. -/
theorem Steadfast.selected (h : st.Steadfast) (hgroup : st.session.group = some gh)
    (htopic : st.session.topic = some th) : ∃ g path, st.Selected gh th g path := by
  obtain ⟨g, t, hg, ht, hattached, -⟩ := h.coherent gh th hgroup htopic
  obtain ⟨path, hpath⟩ := h.sound th t ht
  exact ⟨g, path, hgroup, htopic, hg, hattached, t, ht, hpath⟩

/-- A command that works on the selected group leaves the invariant. -/
theorem Steadfast.of_sameHandles (h : st.Steadfast) (hsame : st.SameHandles st')
    (hspends : st.Spends st') (hsound : st'.world.Sound)
    (hgroups : ∀ gh g, st.session.group = some gh → st.world.groups.get gh = some g →
      ∃ g', st'.world.groups.get gh = some g' ∧ g.Same g') : st'.Steadfast := by
  have hlive (th : ℕ) (t : TopicObject) (ht : st.world.topics.get th = some t) :
      ∃ t', st'.world.topics.get th = some t' := by
    rw [← Option.isSome_iff_exists, hsame.topics, ht, Option.isSome_some]
  refine ⟨hsound, fun o ho => h.alloc o (hspends.mem ho), fun th hth => ?_, fun hid => ?_,
    fun gh th hgh hth => ?_⟩
  · obtain ⟨t, ht⟩ := h.topic th (hsame.session ▸ hth)
    exact hlive th t ht
  · rw [hsame.session] at hid ⊢
    exact h.groupId hid
  · rw [hsame.session] at hgh hth ⊢
    obtain ⟨g, t, hg, ht, hattached, hid⟩ := h.coherent gh th hgh hth
    obtain ⟨g', hg', hsame'⟩ := hgroups gh g hgh hg
    obtain ⟨t', ht'⟩ := hlive th t ht
    exact ⟨g', t', hg', ht', hsame'.attachedTopic.trans hattached, hid.trans
      (congrArg some hsame'.groupId.symm)⟩

/-! ### Commands keep the invariant -/

theorem Steadfast.consume {r : ℤ} (h : st.Steadfast)
    (hrun : handleConsumeCommand st = some (r, st')) : st'.Steadfast := by
  have hsame := respected_sameHandles.handleConsumeCommand hrun
  have hspends := respected_spends.handleConsumeCommand hrun
  rw [← snd_recordedConsumeCommand] at hrun
  obtain ⟨⟨record, r'⟩, hrecorded, -⟩ := map_eq_some_iff.mp hrun
  rcases consume_cases h.sound hrecorded with ⟨hidle, -⟩ | ⟨gh, th, g, d, hout⟩
  · refine h.of_sameHandles hsame hspends (hidle.confined.keepsSound h.sound) fun gh g _ hg => ?_
    exact ⟨g, (hidle.groups gh).trans hg, rfl, rfl⟩
  · refine h.of_sameHandles hsame hspends (hout.confined.keepsSound h.sound) fun gh' g' hgh hg => ?_
    cases hgh.symm.trans hout.has.group
    cases hg.symm.trans hout.has.object
    exact ⟨_, hout.object', rfl, rfl⟩

theorem Steadfast.ack {commandData : Bytes} {r : ℤ} (h : st.Steadfast)
    (hrun : handleAckCommand commandData st = some (r, st')) : st'.Steadfast := by
  have hsame := respected_sameHandles.handleAckCommand commandData hrun
  have hspends := respected_spends.handleAckCommand commandData hrun
  rcases ack_cases h.sound hrun with ⟨hidle, -⟩ | ⟨gh, th, g, g', hacks⟩
  · refine h.of_sameHandles hsame hspends (hidle.confined.keepsSound h.sound) fun gh g _ hg => ?_
    exact ⟨g, (hidle.groups gh).trans hg, rfl, rfl⟩
  · have hsound := hacks.confined.keepsSound h.sound
    refine h.of_sameHandles hsame hspends hsound fun gh' g₀ hgh hg => ?_
    cases hgh.symm.trans hacks.has.group
    cases hg.symm.trans hacks.has.object
    exact ⟨g', hacks.object', hacks.same⟩

theorem Steadfast.replied (h : st.Steadfast) (text : Bytes) : (st.replied text).Steadfast :=
  ⟨h.sound, h.alloc, h.topic, h.groupId, h.coherent⟩

theorem Steadfast.setGroup {groupName : Bytes} {r : ℤ} (h : st.Steadfast)
    (hrun : handleSetGroup groupName st = some (r, st')) : st'.Steadfast := by
  have hsound := (reselected_setGroup hrun).confined.keepsSound h.sound
  have halloc : ∀ o ∈ st'.world.faults, o.alloc = true :=
    fun o ho => h.alloc o ((spends_handleSetGroup groupName hrun).mem ho)
  rcases handleSetGroup_cases hrun with ⟨htopic, rfl⟩ | ⟨th, st₁, htopic, hrenew, rfl⟩
  · refine ⟨hsound, halloc, fun th hth => ?_, fun hid => ?_, fun gh th _ hth => ?_⟩
    · cases htopic.symm.trans hth
    · change (if (st.machine none).outcome.alloc then some groupName else none) = none at hid
      rw [h.outcome_alloc] at hid
      cases hid
    · cases htopic.symm.trans hth
  · have hlive : ∃ t, (st.withGroupId groupName).world.topics.get th = some t := h.topic th htopic
    exact ((renewed_renewGroup hrenew).steadfast htopic hlive hsound halloc).replied groupSet

/-- The end of `SET_TOPIC`, after a live topic or none has been stored. -/
theorem steadfast_of_finishSelection {r : ℤ}
    (hrun : SessionState.finishSelection st = some (r, st'))
    (htopics : ∀ th, st.session.topic = some th → ∃ t, st.world.topics.get th = some t)
    (hid : st.session.groupId = none → st.session.group = none) (hsound : st'.world.Sound)
    (halloc : ∀ o ∈ st'.world.faults, o.alloc = true) : st'.Steadfast := by
  rcases finishSelection_cases hrun with ⟨hnone, rfl⟩ | ⟨th, name, st₁, htopic, -, hrenew, rfl⟩
  · refine ⟨hsound, halloc, htopics, hid, fun gh th hgh hth => ?_⟩
    rcases hnone with htopic | hname
    · cases htopic.symm.trans hth
    · cases (hid hname).symm.trans hgh
  · exact ((renewed_renewGroup hrenew).steadfast htopic (htopics th htopic) hsound
      halloc).replied topicSet

theorem Steadfast.setTopic {topicName : Bytes} {r : ℤ} (h : st.Steadfast)
    (hrun : handleSetTopic topicName st = some (r, st')) : st'.Steadfast := by
  have hsound := (reselected_setTopic hrun).confined.keepsSound h.sound
  have halloc : ∀ o ∈ st'.world.faults, o.alloc = true :=
    fun o ho => h.alloc o ((spends_handleSetTopic topicName hrun).mem ho)
  obtain ⟨st₁, hstores, hfinish⟩ := storesTopic_setTopic hrun
  refine steadfast_of_finishSelection hfinish (fun th hth => ?_) (fun hid => ?_) hsound halloc
  · rcases hstores.topic with ⟨hnone, -⟩ | ⟨t, hnew, hheap⟩
    · cases hnone.symm.trans hth
    · cases hnew.symm.trans hth
      exact ⟨t, hheap ▸ HandleHeap.get_alloc_self⟩
  · rw [hstores.group]
    exact h.groupId (hstores.groupId ▸ hid)

/-- `CONSUME` comes to an end: it asks for a selection, or works on one that is coherent. -/
theorem Steadfast.run_consume (h : st.Steadfast) :
    ∃ r st', handleConsumeCommand st = some (r, st') := by
  cases hgroup : st.session.group with
  | none =>
    rw [handleConsumeCommand, getSession_bind]
    simp only [hgroup]
    exact ⟨_, _, rfl⟩
  | some gh =>
  cases htopic : st.session.topic with
  | none =>
    rw [handleConsumeCommand, getSession_bind]
    simp only [hgroup, htopic]
    exact ⟨_, _, rfl⟩
  | some th =>
    obtain ⟨g, path, hsel⟩ := h.selected hgroup htopic
    obtain ⟨record, r, st', hrun, -⟩ := hsel.run_consume
    exact ⟨r, st', hrun⟩

/-- `ACK` comes to an end. -/
theorem Steadfast.run_ack (h : st.Steadfast) (commandData : Bytes) :
    ∃ r st', handleAckCommand commandData st = some (r, st') := by
  cases hgroup : st.session.group with
  | none =>
    rw [handleAckCommand, getSession_bind]
    simp only [hgroup]
    exact ⟨_, _, rfl⟩
  | some gh =>
  cases htopic : st.session.topic with
  | none =>
    rw [handleAckCommand, getSession_bind]
    simp only [hgroup, htopic]
    exact ⟨_, _, rfl⟩
  | some th =>
    obtain ⟨g, path, hsel⟩ := h.selected hgroup htopic
    obtain ⟨r, st', g', hrun, -⟩ := hsel.run_ack commandData
    exact ⟨r, st', hrun⟩

/-- A command comes to an end and keeps the invariant. -/
theorem Steadfast.command (h : st.Steadfast) (text : Bytes) :
    ∃ r st', st.command text = some (r, st') ∧ st'.Steadfast := by
  rw [SessionState.command, processClientCommand]
  split_ifs
  · obtain ⟨r, st', hrun⟩ := h.run_consume
    exact ⟨r, st', hrun, h.consume hrun⟩
  · obtain ⟨r, st', hrun⟩ := h.run_ack (ackData text)
    exact ⟨r, st', hrun, h.ack hrun⟩
  · obtain ⟨r, st', hrun⟩ := total_setGroup (commandArgument commandSetGroup text) st
    exact ⟨r, st', hrun, h.setGroup hrun⟩
  · obtain ⟨r, st', hrun⟩ := total_setTopic (commandArgument commandSetTopic text) st
    exact ⟨r, st', hrun, h.setTopic hrun⟩
  · exact ⟨_, _, rfl, h.replied unknownCommand⟩

theorem steadfast_of_fresh (hfresh : st.session = .fresh) (hsound : st.world.Sound)
    (halloc : ∀ o ∈ st.world.faults, o.alloc = true) : st.Steadfast := by
  have hgroup : st.session.group = none := by rw [hfresh]; rfl
  have htopic : st.session.topic = none := by rw [hfresh]; rfl
  refine ⟨hsound, halloc, fun th hth => ?_, fun _ => hgroup, fun gh th hgh _ => ?_⟩
  · cases htopic.symm.trans hth
  · cases hgroup.symm.trans hgh

/-! ### Runs -/

/-- On a fresh session, with enough memory, every command comes to an end, so none uses an object
that has been freed, and finds and leaves the selection coherent. -/
theorem coherent_of_fresh (hfresh : st.session = .fresh) (hsound : st.world.Sound)
    (halloc : ∀ o ∈ st.world.faults, o.alloc = true) (commands : List Bytes) :
    (trace SessionState.command st commands).length = commands.length ∧
      ∀ e ∈ trace SessionState.command st commands, e.before.Coherent ∧ e.after.Coherent := by
  have hstart := steadfast_of_fresh hfresh hsound halloc
  constructor
  · exact length_trace Steadfast (fun _ => True) (fun st text h _ => h.command text) hstart
      fun _ _ => trivial
  · refine trace_always Steadfast (fun st text r st' h hrun => ?_) hstart commands
    obtain ⟨r', st'', hrun', h'⟩ := h.command text
    cases hrun.symm.trans hrun'
    exact ⟨h', h.coherent, h'.coherent⟩

/-- A new topic, a group on it, a topic without a name, which cannot be made, and a request. -/
def selections : List Bytes :=
  [ascii "SET_TOPIC a", ascii "SET_GROUP g", ascii "SET_TOPIC", ascii "CONSUME"]

theorem coherent_of_fresh_started :
    (trace SessionState.command started selections).length = 4 ∧
      ∀ e ∈ trace SessionState.command started selections,
        e.before.Coherent ∧ e.after.Coherent :=
  coherent_of_fresh rfl
    (fun h t ht => by cases (HandleHeap.get_empty (h := h)).symm.trans ht)
    (fun o ho => by cases ho) selections

end SessionState

end SuparnaD

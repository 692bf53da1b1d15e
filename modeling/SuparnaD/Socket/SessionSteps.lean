import SuparnaD.Messaging.CursorMoves
import SuparnaD.Socket.Attempts
import SuparnaD.Socket.Sending

/-!
# The parts of a session

What the parts of which the commands of a session are made do to its state: replies, allocations,
and programs of the broker on the topic and the group that the session has selected. From these,
what `CONSUME` and `ACK` do to a selected group.

## Main definitions

* `SessionState.machine`, `SessionState.after`, `SessionState.setTopic`, `SessionState.setGroup`.
* `SessionState.Selected` : the session has a group on a topic.
* `SessionState.Touched` : a command has changed the selected topic and group only.

## Main results

* `SessionM.onTopic_eq_some_iff`, `SessionM.onGroup_eq_some_iff`.
* `SessionState.Selected.run_consume`, `SessionState.Selected.run_ack`.
-/

namespace SuparnaD

open Broker

namespace SessionM

variable {α β : Type} {st st' : SessionState}

/-- A completed computation of a sequence, taken apart. -/
theorem bind_eq_some_iff {x : SessionM α} {f : α → SessionM β} {b : β × SessionState} :
    (x >>= f) st = some b ↔ ∃ a t, x st = some (a, t) ∧ f a t = some b := by
  rw [← Prod.exists (p := fun r => x st = some r ∧ f r.1 r.2 = some b)]
  exact Option.bind_eq_some_iff

theorem bind_of_eq_some {x : SessionM α} {f : α → SessionM β} {a : α} {t : SessionState}
    (h : x st = some (a, t)) : (x >>= f) st = f a t := by
  change (x st).bind _ = _
  rw [h]
  rfl

theorem map_eq_some_iff {x : SessionM α} {f : α → β} {b : β} :
    (f <$> x) st = some (b, st') ↔ ∃ a, x st = some (a, st') ∧ f a = b := by
  constructor
  · intro h
    obtain ⟨⟨a, t⟩, hx, heq⟩ := Option.bind_eq_some_iff.mp h
    obtain ⟨hb, rfl⟩ := Prod.mk.inj (Option.some.inj heq)
    exact ⟨a, hx, hb⟩
  · rintro ⟨a, hx, rfl⟩
    exact Option.bind_eq_some_iff.mpr ⟨(a, st'), hx, rfl⟩

end SessionM

namespace SessionState

/-- The machine on which a program of the broker runs. -/
def machine (st : SessionState) (chunk : Option Chunk) : Machine :=
  ⟨st.world.fs, st.world.faults, chunk, st.client⟩

/-- The state after a program of the broker has ended in a machine. -/
def after (st : SessionState) (m : Machine) : SessionState :=
  { st with world := { st.world with fs := m.fs, faults := m.faults }, client := m.client }

/-- The state with another topic object. -/
def setTopic (st : SessionState) (h : ℕ) (t : TopicObject) : SessionState :=
  { st with world := { st.world with topics := st.world.topics.set h t } }

/-- The state with another group object. -/
def setGroup (st : SessionState) (h : ℕ) (g : Group) : SessionState :=
  { st with world := { st.world with groups := st.world.groups.set h g } }

end SessionState

namespace SessionM

open SessionState

variable {α : Type} {st st' : SessionState} {a : α}

theorem onTopic_eq_some_iff {h : ℕ} {p : Broker α} :
    onTopic h p st = some (a, st') ↔ ∃ t m, st.world.topics.get h = some t ∧
      p.exec (st.machine t.chunkHandle) = some (a, m) ∧
      st' = (st.after m).setTopic h { t with chunkHandle := m.chunk } := by
  constructor
  · intro hrun
    obtain ⟨t, ht, hrun⟩ := Option.bind_eq_some_iff.mp hrun
    obtain ⟨⟨a', m⟩, hexec, heq⟩ := Option.map_eq_some_iff.mp hrun
    obtain ⟨rfl, rfl⟩ := Prod.mk.inj heq
    exact ⟨t, m, ht, hexec, rfl⟩
  · rintro ⟨t, m, ht, hexec, rfl⟩
    exact Option.bind_eq_some_iff.mpr ⟨t, ht, Option.map_eq_some_iff.mpr ⟨(a, m), hexec, rfl⟩⟩

theorem detached_eq_some_iff {p : Broker α} {chunk : Option Chunk} :
    detached p st = some ((a, chunk), st') ↔ ∃ m, p.exec (st.machine none) = some (a, m) ∧
      chunk = m.chunk ∧ st' = st.after m := by
  constructor
  · intro hrun
    obtain ⟨⟨a', m⟩, hexec, heq⟩ := Option.map_eq_some_iff.mp hrun
    obtain ⟨hpair, rfl⟩ := Prod.mk.inj heq
    obtain ⟨rfl, rfl⟩ := Prod.mk.inj hpair
    exact ⟨m, hexec, rfl, rfl⟩
  · rintro ⟨m, hexec, rfl, rfl⟩
    exact Option.map_eq_some_iff.mpr ⟨(a, m), hexec, rfl⟩

theorem getGroup_eq_some_iff {h : ℕ} {g : Group} :
    getGroup h st = some (g, st') ↔ st.world.groups.get h = some g ∧ st = st' := by
  rw [getGroup, Option.map_eq_some_iff]
  constructor
  · rintro ⟨g', hg, heq⟩
    obtain ⟨rfl, rfl⟩ := Prod.mk.inj heq
    exact ⟨hg, rfl⟩
  · rintro ⟨hg, rfl⟩
    exact ⟨g, hg, rfl⟩

/-- The outcome of an allocation is used up. -/
theorem malloc_eq (st : SessionState) :
    malloc st = some ((st.machine none).outcome.alloc, st.after (st.machine none).next) := rfl

theorem onGroup_eq_some_iff {group topic : ℕ} {f : Group → Broker (α × Group)} :
    onGroup group topic f st = some (a, st') ↔ ∃ g t m g', st.world.groups.get group = some g ∧
      st.world.topics.get topic = some t ∧
      (f g).exec (st.machine t.chunkHandle) = some ((a, g'), m) ∧
      st' = ((st.after m).setTopic topic { t with chunkHandle := m.chunk }).setGroup group g' := by
  constructor
  · intro hrun
    obtain ⟨g, st₁, hget, hrun⟩ := bind_eq_some_iff.mp hrun
    obtain ⟨hg, rfl⟩ := getGroup_eq_some_iff.mp hget
    obtain ⟨⟨a', g'⟩, st₂, htopic, hrun⟩ := bind_eq_some_iff.mp hrun
    obtain ⟨t, m, ht, hexec, rfl⟩ := onTopic_eq_some_iff.mp htopic
    obtain ⟨rfl, rfl⟩ := Prod.mk.inj (Option.some.inj hrun)
    exact ⟨g, t, m, g', hg, ht, hexec, rfl⟩
  · rintro ⟨g, t, m, g', hg, ht, hexec, rfl⟩
    refine bind_eq_some_iff.mpr ⟨g, st, getGroup_eq_some_iff.mpr ⟨hg, rfl⟩, ?_⟩
    exact bind_eq_some_iff.mpr ⟨(a, g'), _, onTopic_eq_some_iff.mpr ⟨t, m, ht, hexec, rfl⟩, rfl⟩

end SessionM

/-! ### Commands -/

theorem processClientCommand_consume {command : Bytes}
    (h : startsWith commandConsume command = true) :
    processClientCommand command = handleConsumeCommand := if_pos h

/-- The shorter keyword would be a prefix of the longer one. -/
theorem not_startsWith_consume_of_ack {command : Bytes}
    (h : startsWith commandAck command = true) : ¬ startsWith commandConsume command = true := by
  intro hconsume
  have hprefix : commandAck <+: commandConsume := List.prefix_of_prefix_length_le
    (List.isPrefixOf_iff_prefix.mp h) (List.isPrefixOf_iff_prefix.mp hconsume) (by decide)
  exact absurd hprefix (by decide)

theorem processClientCommand_ack {command : Bytes} (h : startsWith commandAck command = true) :
    processClientCommand command = handleAckCommand (ackData command) := by
  rw [processClientCommand, if_neg (not_startsWith_consume_of_ack h), if_pos h]

/-! ### A selected group -/

namespace SessionState

/-- The session has selected the group of the first handle on the topic of the second, whose chunk
belongs to the file at the path. -/
structure Selected (st : SessionState) (gh th : ℕ) (g : Group) (path : Bytes) : Prop where
  group : st.session.group = some gh
  topic : st.session.topic = some th
  object : st.world.groups.get gh = some g
  attached : g.attachedTopic = th
  live : ∃ t, st.world.topics.get th = some t ∧ (st.machine t.chunkHandle).OnTopic path

/-- From the first state to the second nothing but the objects of the two handles, the client and
the script of outcomes has changed. -/
structure Touched (st st' : SessionState) (gh th : ℕ) : Prop where
  session : st'.session = st.session
  fs : st'.world.fs = st.world.fs
  topics : ∀ h, h ≠ th → st'.world.topics.get h = st.world.topics.get h
  groups : ∀ h, h ≠ gh → st'.world.groups.get h = st.world.groups.get h
  topicsFresh : st'.world.topics.fresh = st.world.topics.fresh
  groupsFresh : st'.world.groups.fresh = st.world.groups.fresh
  chunk : (st'.world.topics.get th).map (·.chunkHandle.isSome) =
    (st.world.topics.get th).map (·.chunkHandle.isSome)

/-- What the next load of a topic will show. -/
def view (st : SessionState) (th : ℕ) : Option Bytes :=
  (st.world.topics.get th).bind fun t => (st.machine t.chunkHandle).view

/-- The content of the file at a path. -/
def file (st : SessionState) (path : Bytes) : Bytes := (st.world.fs.read path).getD []

variable {α : Type} {st st' st'' : SessionState} {gh th : ℕ} {g g' : Group} {path : Bytes}

theorem Touched.refl (st : SessionState) (gh th : ℕ) : st.Touched st gh th :=
  ⟨rfl, rfl, fun _ _ => rfl, fun _ _ => rfl, rfl, rfl, rfl⟩

theorem Touched.trans (h : st.Touched st' gh th) (h' : st'.Touched st'' gh th) :
    st.Touched st'' gh th :=
  ⟨h'.session.trans h.session, h'.fs.trans h.fs,
    fun k hk => (h'.topics k hk).trans (h.topics k hk),
    fun k hk => (h'.groups k hk).trans (h.groups k hk),
    h'.topicsFresh.trans h.topicsFresh, h'.groupsFresh.trans h.groupsFresh,
    h'.chunk.trans h.chunk⟩

theorem Touched.file (h : st.Touched st' gh th) (path : Bytes) : st'.file path = st.file path := by
  rw [SessionState.file, h.fs, SessionState.file]

/-- A change of the client touches no object. -/
theorem touched_client (st : SessionState) (client : Client) (gh th : ℕ) :
    st.Touched { st with client := client } gh th :=
  ⟨rfl, rfl, fun _ _ => rfl, fun _ _ => rfl, rfl, rfl, rfl⟩

theorem Selected.withClient (h : st.Selected gh th g path) (client : Client) :
    ({ st with client := client } : SessionState).Selected gh th g path :=
  ⟨h.group, h.topic, h.object, h.attached, h.live⟩

/-- A load of the selected topic shows the file or, when the file cannot be opened, nothing. -/
theorem Selected.view_eq (h : st.Selected gh th g path) {v : Bytes} (hv : st.view th = some v) :
    v = st.file path ∨ v = [] := by
  obtain ⟨t, ht, hon⟩ := h.live
  rw [view, ht, Option.bind_some] at hv
  exact (hon.view_eq hv).imp_right And.left

theorem Selected.length_view_lt (h : st.Selected gh th g path) {v : Bytes}
    (hv : st.view th = some v) : v.length < 2 ^ 63 := by
  obtain ⟨t, ht, hon⟩ := h.live
  rw [view, ht, Option.bind_some] at hv
  exact hon.length_view_lt hv

section

variable (h : st.Selected gh th g path) {t : TopicObject} (ht : st.world.topics.get th = some t)

include h ht

theorem Selected.onTopic : (st.machine t.chunkHandle).OnTopic path := by
  obtain ⟨t', ht', hon⟩ := h.live
  cases ht.symm.trans ht'
  exact hon

omit h in
theorem map_isSome_set {u : TopicObject} (hchunk : u.chunkHandle.isSome = t.chunkHandle.isSome) :
    ((st.world.topics.set th u).get th).map (·.chunkHandle.isSome) =
      (st.world.topics.get th).map (·.chunkHandle.isSome) := by
  rw [HandleHeap.get_set_self ht, ht, Option.map_some, Option.map_some, hchunk]

/-- A program on the selected topic that keeps the files. -/
theorem Selected.setTopic {m : Machine} (hm : m.OnTopic path) (hfs : m.fs = st.world.fs)
    (hchunk : m.chunk.isSome = t.chunkHandle.isSome) :
    ((st.after m).setTopic th { t with chunkHandle := m.chunk }).Selected gh th g path ∧
      st.Touched ((st.after m).setTopic th { t with chunkHandle := m.chunk }) gh th :=
  ⟨⟨h.group, h.topic, h.object, h.attached, _, HandleHeap.get_set_self ht, hm⟩,
    ⟨rfl, hfs, fun _ hk => HandleHeap.get_set_of_ne hk, fun _ _ => rfl,
      HandleHeap.fresh_set, rfl, map_isSome_set ht hchunk⟩⟩

end

theorem Selected.setGroup (h : st.Selected gh th g path) (hg' : g'.attachedTopic = th) :
    (st.setGroup gh g').Selected gh th g' path ∧ st.Touched (st.setGroup gh g') gh th :=
  ⟨⟨h.group, h.topic, HandleHeap.get_set_self h.object, hg', h.live⟩,
    ⟨rfl, rfl, fun _ _ => rfl, fun _ hk => HandleHeap.get_set_of_ne hk, rfl,
      HandleHeap.fresh_set, rfl⟩⟩

/-- A program on the selected topic and group, given its execution. -/
theorem Selected.run_onGroup (h : st.Selected gh th g path) {f : Group → Broker (α × Group)}
    {t : TopicObject} (ht : st.world.topics.get th = some t) {a : α} {m : Machine}
    (hexec : (f g).exec (st.machine t.chunkHandle) = some ((a, g'), m)) (hm : m.OnTopic path)
    (hfs : m.fs = st.world.fs) (hchunk : m.chunk.isSome = t.chunkHandle.isSome)
    (hg' : g'.attachedTopic = th) :
    ∃ st', SessionM.onGroup gh th f st = some (a, st') ∧ st'.Selected gh th g' path ∧
      st.Touched st' gh th ∧ st'.client = m.client := by
  obtain ⟨hsel, htouch⟩ := h.setTopic ht hm hfs hchunk
  obtain ⟨hsel', htouch'⟩ := hsel.setGroup hg'
  exact ⟨_, SessionM.onGroup_eq_some_iff.mpr ⟨g, t, m, g', h.object, ht, hexec, rfl⟩, hsel',
    htouch.trans htouch', rfl⟩

/-- A function on the selected group that computes its result from what its load shows. -/
theorem Selected.run_computes (h : st.Selected gh th g path) {f : Group → Broker (α × Group)}
    {result : Option Bytes → α × Group}
    (hf : ∀ s : Machine, s.OnTopic path → s.Computes path (f g) result)
    (hattached : ∀ view, (result view).2.attachedTopic = th) :
    ∃ st', SessionM.onGroup gh th f st = some ((result (st.view th)).1, st') ∧
      st'.Selected gh th (result (st.view th)).2 path ∧ st.Touched st' gh th ∧
      st'.client = st.client := by
  obtain ⟨t, ht, hon⟩ := h.live
  obtain ⟨m, hkept, hm, hexec⟩ := hf _ hon
  have hview : st.view th = (st.machine t.chunkHandle).view := by rw [view, ht, Option.bind_some]
  rw [← hview] at hexec
  obtain ⟨st', hrun, hsel, htouch, hclient⟩ :=
    h.run_onGroup ht hexec hm hkept.fs hkept.chunk (hattached _)
  exact ⟨st', hrun, hsel, htouch, hclient.trans hkept.client⟩

/-- A program on the selected topic that computes its result from what its load shows. -/
theorem Selected.run_computes_topic (h : st.Selected gh th g path) {p : Broker α}
    {result : Option Bytes → α}
    (hp : ∀ s : Machine, s.OnTopic path → s.Computes path p result) :
    ∃ st', SessionM.onTopic th p st = some (result (st.view th), st') ∧
      st'.Selected gh th g path ∧ st.Touched st' gh th ∧ st'.client = st.client := by
  obtain ⟨t, ht, hon⟩ := h.live
  obtain ⟨m, hkept, hm, hexec⟩ := hp _ hon
  have hview : st.view th = (st.machine t.chunkHandle).view := by rw [view, ht, Option.bind_some]
  rw [← hview] at hexec
  obtain ⟨hsel, htouch⟩ := h.setTopic ht hm hkept.fs hkept.chunk
  exact ⟨_, SessionM.onTopic_eq_some_iff.mpr ⟨t, m, ht, hexec, rfl⟩, hsel, htouch, hkept.client⟩

/-! ### `CONSUME` and `ACK` on a selected group -/

theorem getSession_bind (st : SessionState) (f : ClientSession → SessionM α) :
    (SessionM.getSession >>= f) st = f st.session st := rfl

/-- The client after a reply. -/
def replied (st : SessionState) (text : Bytes) : SessionState :=
  { st with client := (st.client.send text).2 }

/-- `CONSUME` has answered with a message and left the group as it was, or it has taken the packet
at the read pointer and sent it, whatever became of the sending. -/
def Consumed (st st' : SessionState) (gh th : ℕ) (g : Group) (path : Bytes)
    (record : List Attempt) (r : ℤ) : Prop :=
  (record = [] ∧ st'.Selected gh th g path ∧
      ∃ text, (text = noMoreData ∨ text = noPacket) ∧ st'.client = (st.client.send text).2) ∨
    ∃ d s, record = [⟨packetAt g d, r, none⟩] ∧ st'.Selected gh th (afterPacket g d) path ∧
      topicFormat.parseAt (st.file path) g.readPointer.toNat = some d ∧
      (st.file path).length < 2 ^ 63 ∧ s.client = st.client ∧
      (sendPacketToConsumer d).exec s = some (r, s.withClient st'.client)

theorem Selected.run_recordedConsume (h : st.Selected gh th g path) :
    ∃ record r st', recordedConsumeCommand st = some ((record, r), st') ∧
      st.Touched st' gh th ∧ st.Consumed st' gh th g path record r := by
  rw [recordedConsumeCommand, getSession_bind]
  simp only [h.group, h.topic]
  rw [SessionM.bind_of_eq_some (SessionM.getGroup_eq_some_iff.mpr ⟨h.object, rfl⟩), h.attached]
  obtain ⟨st₁, hmore, hsel₁, htouch₁, hclient₁⟩ :=
    h.run_computes_topic fun s hs => hs.computes_groupHasMoreData g
  rw [SessionM.bind_of_eq_some hmore]
  split
  · refine ⟨[], 0, st₁.replied noMoreData, rfl, htouch₁.trans (touched_client _ _ _ _), .inl
      ⟨rfl, hsel₁.withClient _, noMoreData, .inl rfl, ?_⟩⟩
    rw [replied, hclient₁]
  obtain ⟨t, ht, hon⟩ := hsel₁.live
  obtain ⟨⟨packet, g'⟩, m, hexec, hkept, hm, hcases⟩ := hon.exec_consumePacket h.attached
  have hg' : g'.attachedTopic = th := by
    rcases hcases with ⟨hr, -⟩ | ⟨d, -, -, hr⟩ <;> cases hr <;> exact h.attached
  obtain ⟨st₂, hrun, hsel₂, htouch₂, hclient₂⟩ :=
    hsel₁.run_onGroup (f := fun g => consumePacket g th) ht hexec hm hkept.fs hkept.chunk hg'
  have hclient : st₂.client = st.client := by rw [hclient₂, hkept.client, ← hclient₁]; rfl
  have htouch := htouch₁.trans htouch₂
  rw [SessionM.bind_of_eq_some hrun]
  rcases hcases with ⟨hr, -⟩ | ⟨d, hd, hsmall, hr⟩
  · obtain ⟨rfl, rfl⟩ := Prod.mk.inj hr
    refine ⟨[], 0, st₂.replied noPacket, rfl, htouch.trans (touched_client _ _ _ _), .inl
      ⟨rfl, hsel₂.withClient _, noPacket, .inr rfl, ?_⟩⟩
    rw [replied, hclient]
  · obtain ⟨rfl, rfl⟩ := Prod.mk.inj hr
    obtain ⟨r, client, hsend⟩ := onlyTalks_sendPacketToConsumer d (st₂.machine none)
    have hfile : (st₁.machine t.chunkHandle).fs.read path = st.world.fs.read path :=
      congrArg (FileSystem.read · path) htouch₁.fs
    rw [hfile] at hd hsmall
    refine ⟨_, r, { st₂ with client := client }, ?_, htouch.trans (touched_client _ _ _ _),
      .inr ⟨d, st₂.machine none, rfl, hsel₂.withClient _, hd, hsmall, hclient, hsend⟩⟩
    exact SessionM.bind_of_eq_some (SessionM.detached_eq_some_iff.mpr ⟨_, hsend, rfl, rfl⟩)

theorem Selected.run_consume (h : st.Selected gh th g path) :
    ∃ record r st', handleConsumeCommand st = some (r, st') ∧ st.Touched st' gh th ∧
      st.Consumed st' gh th g path record r := by
  obtain ⟨record, r, st', hrun, hrest⟩ := h.run_recordedConsume
  refine ⟨record, r, st', ?_, hrest⟩
  rw [← snd_recordedConsumeCommand]
  exact SessionM.map_eq_some_iff.mpr ⟨_, hrun, rfl⟩

/-- The part of `ACK` that passes over the next packet. -/
def ackNextPacket (gh th : ℕ) : SessionM ℤ := do
  if (← SessionM.onGroup gh th fun g => ackPacketBatch g th 1) = 0 then
    SessionM.reply packetAcknowledged
    return 0
  SessionM.reply acknowledgeFailed
  return -1

theorem handleAckCommand_eq (hgroup : st.session.group = some gh)
    (htopic : st.session.topic = some th) (commandData : Bytes) :
    handleAckCommand commandData st = (if 0 < commandData.length then do
      match ← extractJsonValue commandData (ascii "packet_size") with
      | none => ackNextPacket gh th
      | some packetSizeStr =>
        if (← SessionM.onGroup gh th fun g =>
            ackPacketBySize g th (sizeOfInt (atoi packetSizeStr))) = 0 then
          SessionM.reply packetAcknowledged
          return 0
        ackNextPacket gh th
    else ackNextPacket gh th) st := by
  rw [handleAckCommand, getSession_bind]
  simp only [hgroup, htopic]
  split
  · refine congrFun (congrArg (extractJsonValue _ _ >>= ·) (funext fun value => ?_)) st
    cases value <;> rfl
  · rfl

/-- An operation on the read pointer of the selected group. -/
theorem Selected.run_cursor (h : st.Selected gh th g path) (op : CursorOp) :
    ∃ st', SessionM.onGroup gh th (fun g => op.run g) st =
        some ((op.result g (st.view th)).1, st') ∧
      st'.Selected gh th (op.result g (st.view th)).2 path ∧ st.Touched st' gh th ∧
      st'.client = st.client :=
  h.run_computes (fun _ hs => op.computes_run hs g)
    fun view => (op.sameGroup_result g view).attachedTopic.trans h.attached

/-- `ACK` without a size has the effect of `ack_packet_batch` with the count `1`. -/
theorem Selected.run_ackNextPacket (h : st.Selected gh th g path) :
    ∃ r st', ackNextPacket gh th st = some (r, st') ∧ st.Touched st' gh th ∧
      st'.Selected gh th ((CursorOp.ackPacketBatch th 1).result g (st.view th)).2 path ∧
      ∃ text, (text = packetAcknowledged ∨ text = acknowledgeFailed) ∧
        st'.client = (st.client.send text).2 := by
  obtain ⟨st₁, hrun, hsel, htouch, hclient⟩ := h.run_cursor (.ackPacketBatch th 1)
  by_cases hzero : ((CursorOp.ackPacketBatch th 1).result g (st.view th)).1 = 0
  · refine ⟨0, st₁.replied packetAcknowledged, ?_, htouch.trans (touched_client _ _ _ _),
      hsel.withClient _, _, .inl rfl, by rw [replied, hclient]⟩
    rw [ackNextPacket]
    refine (SessionM.bind_of_eq_some hrun).trans ?_
    rw [if_pos hzero]
    rfl
  · refine ⟨-1, st₁.replied acknowledgeFailed, ?_, htouch.trans (touched_client _ _ _ _),
      hsel.withClient _, _, .inr rfl, by rw [replied, hclient]⟩
    rw [ackNextPacket]
    refine (SessionM.bind_of_eq_some hrun).trans ?_
    rw [if_neg hzero]
    rfl

/-- Where the read pointer stands at a packet or at the end, `ack_packet_batch` with the count `1`
passes over the packet that the load shows there, or changes nothing. -/
theorem Selected.result_ackPacketBatch_one (h : st.Selected gh th g path)
    (hend : topicFormat.parseAt (st.file path) g.readPointer.toNat = none →
      (st.file path).length ≤ g.readPointer.toNat) :
    (∀ v, st.view th = some v → topicFormat.parseAt v g.readPointer.toNat = none) ∧
        ((CursorOp.ackPacketBatch th 1).result g (st.view th)).2 = g ∨
      ∃ d, st.view th = some (st.file path) ∧ (st.file path).length < 2 ^ 63 ∧
        topicFormat.parseAt (st.file path) g.readPointer.toNat = some d ∧
        ((CursorOp.ackPacketBatch th 1).result g (st.view th)).2 = afterPacket g d := by
  have hguard : ¬ ((1 : UInt64) = 0 ∨ g.attachedTopic ≠ th) := by
    rw [h.attached, ne_self_iff_false, or_false]
    decide
  rw [CursorOp.result, if_neg hguard]
  cases hv : st.view th with
  | none =>
    refine .inl ⟨?_, rfl⟩
    rintro v hv'
    cases hv'
  | some v =>
  rw [Option.elim_some]
  have hsmall := h.length_view_lt hv
  rcases h.view_eq hv with rfl | rfl
  swap
  · refine .inl ⟨fun v hv' => ?_, passOver_of_length_le (Nat.zero_le _) 1⟩
    cases hv'
    exact FrameFormat.parseAt_of_length_le (Nat.zero_le _)
  cases hd : topicFormat.parseAt (st.file path) g.readPointer.toNat with
  | none =>
    refine .inl ⟨fun v hv' => ?_, passOver_of_length_le (hend hd) 1⟩
    cases hv'
    exact hd
  | some d =>
    exact .inr ⟨d, rfl, hsmall, rfl, congrArg Prod.snd (passOver_one_of_parseAt hsmall hd)⟩

/-- The state after the outcome of one allocation has been used up. -/
def allocated (st : SessionState) : SessionState := st.after (st.machine none).next

/-- `ACK` finds a `packet_size` and has the memory to copy it. -/
def NamesSize (st : SessionState) (commandData : Bytes) (packetSize : UInt64) : Prop :=
  0 < commandData.length ∧ (st.machine none).outcome.alloc = true ∧
    ∃ str, findJsonValue commandData (ascii "packet_size") = some str ∧
      sizeOfInt (atoi str) = packetSize

/-- `ACK` accepts a `packet_size`: it is not zero, and the sum that sets the read pointer does not
exceed the length of the data that the load shows. -/
def AcceptsSize (st : SessionState) (th : ℕ) (g : Group) (commandData : Bytes)
    (packetSize : UInt64) : Prop :=
  st.NamesSize commandData packetSize ∧ packetSize ≠ 0 ∧ ∃ v, st.allocated.view th = some v ∧
    (g.readPointer + (packetSizeHeaderSize + packetSize)).toNat ≤ v.length

theorem touched_allocated (st : SessionState) (gh th : ℕ) : st.Touched st.allocated gh th :=
  ⟨rfl, rfl, fun _ _ => rfl, fun _ _ => rfl, rfl, rfl, rfl⟩

theorem Selected.allocated (h : st.Selected gh th g path) :
    st.allocated.Selected gh th g path :=
  ⟨h.group, h.topic, h.object, h.attached, h.live⟩

theorem extractJsonValue_eq (commandData key : Bytes) (st : SessionState) :
    extractJsonValue commandData key st =
      match findJsonValue commandData key with
      | none => some (none, st)
      | some value =>
        some (if (st.machine none).outcome.alloc then some value else none, st.allocated) := by
  rw [extractJsonValue]
  cases findJsonValue commandData key with
  | none => rfl
  | some value =>
    dsimp only
    rw [SessionM.bind_of_eq_some (SessionM.malloc_eq st)]
    cases (st.machine none).outcome.alloc <;> rfl

/-- The group after it has been moved on by an accepted size. -/
def movedBy (g : Group) (packetSize : UInt64) : Group :=
  { g with
    readPointer := g.readPointer + (packetSizeHeaderSize + packetSize)
    lastReadSize := packetSizeHeaderSize + packetSize }

/-- `ack_packet_by_size` accepts the size and moves on, or changes nothing. -/
theorem result_ackPacketBySize (hattached : g.attachedTopic = th) (packetSize : UInt64)
    (view : Option Bytes) :
    ((CursorOp.ackPacketBySize th packetSize).result g view).1 = 0 ∧
        (packetSize ≠ 0 ∧ ∃ v, view = some v ∧
          (g.readPointer + (packetSizeHeaderSize + packetSize)).toNat ≤ v.length) ∧
        ((CursorOp.ackPacketBySize th packetSize).result g view).2 = movedBy g packetSize ∨
      ((CursorOp.ackPacketBySize th packetSize).result g view).1 ≠ 0 ∧
        ¬ (packetSize ≠ 0 ∧ ∃ v, view = some v ∧
          (g.readPointer + (packetSizeHeaderSize + packetSize)).toNat ≤ v.length) ∧
        ((CursorOp.ackPacketBySize th packetSize).result g view).2 = g := by
  have hsame : ¬ g.attachedTopic ≠ th := not_not.mpr hattached
  simp only [CursorOp.result, hsame, or_false]
  by_cases hzero : packetSize = 0
  · exact .inr ⟨by simp [hzero], fun h => h.1 hzero, by simp [hzero]⟩
  cases view with
  | none =>
    refine .inr ⟨by simp [hzero], ?_, by simp [hzero]⟩
    rintro ⟨-, v, hv, -⟩
    cases hv
  | some v =>
    simp only [hzero, ↓reduceIte, Option.elim_some, moveOn]
    by_cases hfits : (g.readPointer + (packetSizeHeaderSize + packetSize)).toNat ≤ v.length
    · rw [if_neg (Nat.not_lt.mpr hfits)]
      exact .inl ⟨rfl, ⟨hzero, v, rfl, hfits⟩, rfl⟩
    · rw [if_pos (Nat.lt_of_not_le hfits)]
      refine .inr ⟨by simp, ?_, rfl⟩
      rintro ⟨-, v', hv', hfits'⟩
      exact hfits (Option.some.inj hv' ▸ hfits')

/-- What `ACK` does to the selected group: it moves it on by an accepted size, or it passes over one
packet as the next load shows it. -/
def AckMoves (st : SessionState) (gh th : ℕ) (g : Group) (path commandData : Bytes)
    (g' : Group) : Prop :=
  (∃ packetSize, st.AcceptsSize th g commandData packetSize ∧ g' = movedBy g packetSize) ∨
    (∀ packetSize, ¬ st.AcceptsSize th g commandData packetSize) ∧
      ∃ st₁, st₁.Selected gh th g path ∧ st.Touched st₁ gh th ∧
        (commandData = [] → st₁ = st) ∧
        g' = ((CursorOp.ackPacketBatch th 1).result g (st₁.view th)).2

theorem AckMoves.same {commandData : Bytes} (h : st.AckMoves gh th g path commandData g') :
    g.Same g' := by
  rcases h with ⟨packetSize, -, rfl⟩ | ⟨-, st₁, -, -, -, rfl⟩
  · exact ⟨rfl, rfl⟩
  · exact CursorOp.sameGroup_result g _ _

/-- Everything that `ACK` does. -/
structure Acked (st st' : SessionState) (gh th : ℕ) (g g' : Group) (path commandData : Bytes) :
    Prop where
  touched : st.Touched st' gh th
  selected : st'.Selected gh th g' path
  moves : st.AckMoves gh th g path commandData g'
  client : ∃ text, (text = packetAcknowledged ∨ text = acknowledgeFailed) ∧
    st'.client = (st.client.send text).2

/-- `ACK` moves the read pointer on by an accepted size, or has the effect of `ack_packet_batch`
with the count `1`. -/
theorem Selected.run_ack (h : st.Selected gh th g path) (commandData : Bytes) :
    ∃ r st' g', handleAckCommand commandData st = some (r, st') ∧
      st.Acked st' gh th g g' path commandData := by
  -- From here on no size is accepted, and the next packet is passed over.
  have hnext {st₁ : SessionState} (hsel : st₁.Selected gh th g path)
      (htouch : st.Touched st₁ gh th) (hclient : st₁.client = st.client)
      (hno : ∀ packetSize, ¬ st.AcceptsSize th g commandData packetSize)
      (hbare : commandData = [] → st₁ = st)
      (heq : handleAckCommand commandData st = ackNextPacket gh th st₁) :
      ∃ r st' g', handleAckCommand commandData st = some (r, st') ∧
        st.Acked st' gh th g g' path commandData := by
    obtain ⟨r, st', hrun, htouch', hsel', text, htext, hsend⟩ := hsel.run_ackNextPacket
    exact ⟨r, st', _, heq.trans hrun, htouch.trans htouch', hsel',
      .inr ⟨hno, st₁, hsel, htouch, hbare, rfl⟩, text, htext, by rw [hsend, hclient]⟩
  have heq := handleAckCommand_eq h.group h.topic commandData
  by_cases hlen : 0 < commandData.length
  swap
  · rw [if_neg hlen] at heq
    exact hnext h (.refl st gh th) rfl (fun _ hacc => hlen hacc.1.1) (fun _ => rfl) heq
  have hdata : commandData ≠ [] := List.length_pos_iff.mp hlen
  rw [if_pos hlen] at heq
  have hextract := extractJsonValue_eq commandData (ascii "packet_size") st
  cases hfind : findJsonValue commandData (ascii "packet_size") with
  | none =>
    rw [hfind] at hextract
    refine hnext h (.refl st gh th) rfl ?_ (fun _ => rfl)
      (heq.trans (SessionM.bind_of_eq_some hextract))
    rintro packetSize ⟨⟨-, -, str, hstr, -⟩, -⟩
    cases hfind.symm.trans hstr
  | some str =>
  rw [hfind] at hextract
  cases halloc : (st.machine none).outcome.alloc with
  | false =>
    rw [halloc] at hextract
    refine hnext h.allocated (touched_allocated st gh th) rfl ?_
      (fun hnil => absurd hnil hdata) (heq.trans (SessionM.bind_of_eq_some hextract))
    rintro packetSize ⟨⟨-, halloc', -⟩, -⟩
    cases halloc.symm.trans halloc'
  | true =>
  rw [halloc] at hextract
  obtain ⟨st₁, hrun, hsel, htouch, hclient⟩ :=
    h.allocated.run_cursor (.ackPacketBySize th (sizeOfInt (atoi str)))
  have htouch' := (touched_allocated st gh th).trans htouch
  have heq' := heq.trans ((SessionM.bind_of_eq_some hextract).trans
    (SessionM.bind_of_eq_some hrun))
  rcases result_ackPacketBySize h.attached (sizeOfInt (atoi str)) (st.allocated.view th) with
    ⟨hzero, ⟨hne, v, hv, hfits⟩, hmoved⟩ | ⟨hfail, hrefused, hsame⟩
  · rw [hmoved] at hsel
    refine ⟨0, st₁.replied packetAcknowledged, _, ?_, htouch'.trans (touched_client _ _ _ _),
      hsel.withClient _, .inl ⟨_, ⟨⟨hlen, halloc, str, hfind, rfl⟩, hne, v, hv, hfits⟩, rfl⟩,
      _, .inl rfl, by rw [replied, hclient]; rfl⟩
    rw [heq', if_pos hzero]
    rfl
  · rw [hsame] at hsel
    refine hnext hsel htouch' hclient ?_ (fun hnil => absurd hnil hdata) ?_
    · rintro packetSize ⟨⟨-, -, str', hstr', rfl⟩, hne, hfits⟩
      cases hfind.symm.trans hstr'
      exact hrefused ⟨hne, hfits⟩
    · rw [heq', if_neg hfail]

end SessionState

end SuparnaD

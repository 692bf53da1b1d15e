import SuparnaD.Foundation.Runs
import SuparnaD.Socket.Ownership

/-!
# The read pointer and the packets of the file

In a topic file that consists of whole packets and grows by whole packets, the read pointer of a
session stays at the start of a packet or at the end of the file: a new group starts at offset 0,
`CONSUME` moves past one packet, and so does `ACK`. Only an `ACK` that moves on by a `packet_size`
of the client can leave the boundaries.

## Main definitions

* `SessionEvent` : a command, or a change of the files by others.
* `SessionState.ReadsFrom`, `SessionState.OnBoundary`.
* `SessionEvent.Meets` : an accepted `packet_size` leads to a boundary.

## Main results

* `SessionState.Aligned.command` : what one command does.
* `SessionEvent.onBoundary_iff`.
-/

namespace SuparnaD

open Broker

/-- What happens in the life of a session. -/
inductive SessionEvent where
  /-- The session processes a command. -/
  | command (text : Bytes)
  /-- Others change the files. -/
  | files (fs : FileSystem)

namespace SessionState

/-- The group of the session reads the file at the path. -/
def ReadsFrom (st : SessionState) (g : Group) (path : Bytes) : Prop :=
  ∃ gh t c, st.session.group = some gh ∧ st.world.groups.get gh = some g ∧
    st.world.topics.get g.attachedTopic = some t ∧ t.chunkHandle = some c ∧ c.filePath = path

/-- If the group of the session reads the file at the path, then its read pointer is a boundary. -/
def OnBoundary (path : Bytes) (st : SessionState) : Prop :=
  ∀ g, st.ReadsFrom g path → topicFormat.AtBoundary (st.file path) g.readPointer.toNat

/-- The invariant: the file consists of packets and the group of the session stands on a boundary.
-/
structure Aligned (path : Bytes) (st : SessionState) : Prop where
  sound : st.world.Sound
  bounded : st.Bounded
  framed : ∃ ds, (∀ d ∈ ds, topicFormat.Valid d) ∧ st.file path = topicFormat.stream ds
  onBoundary : st.OnBoundary path

variable {st st' : SessionState} {gh th : ℕ} {g g' : Group} {path : Bytes}

/-- A group on a topic that has not moved reads the file that it read before. -/
theorem ReadsFrom.of_confined (hs : st.world.Sound) (hconfined : st.Confined st')
    (hgroup : st.session.group = st'.session.group)
    (hobject : ∀ gh, st'.session.group = some gh → st.world.groups.get gh = some g)
    (hattached : g'.attachedTopic = g.attachedTopic)
    (hlt : g.attachedTopic < st.world.topics.fresh) (h : st'.ReadsFrom g' path) :
    st.ReadsFrom g path := by
  obtain ⟨gh, t', c', hgh, -, ht', hc', rfl⟩ := h
  rw [hattached] at ht'
  rcases hconfined.topics _ t' ht' with ⟨t, ht, hon⟩ | ⟨hge, -⟩
  swap
  · omega
  cases hc : t.chunkHandle with
  | none =>
    -- A topic without a chunk belongs to every path, and its chunk does not come into being.
    obtain ⟨hpath, -⟩ := hon (0 :: c'.filePath) (fun c hc₁ => nomatch hc.symm.trans hc₁) c' hc'
    exact absurd hpath (List.cons_ne_self _ _).symm
  | some c =>
    obtain ⟨path, hpath⟩ := hs _ t ht
    obtain ⟨rfl, -⟩ := hpath c hc
    exact ⟨gh, t, c, hgroup.trans hgh, hobject gh hgh, ht, hc, (hon _ hpath c' hc').1.symm⟩

/-- The chunk of the topic that the group reads belongs to the file. -/
theorem ReadsFrom.on (hs : st.world.Sound) (h : st.ReadsFrom g path) {t : TopicObject}
    (ht : st.world.topics.get g.attachedTopic = some t) : t.On path := by
  obtain ⟨gh, t₀, c, -, -, ht₀, hc, rfl⟩ := h
  cases ht₀.symm.trans ht
  obtain ⟨path, hpath⟩ := hs _ t ht
  obtain ⟨rfl, -⟩ := hpath c hc
  exact hpath

/-- The file has grown by whole packets. -/
def GrownByPackets (path : Bytes) (st st' : SessionState) : Prop :=
  ∃ ds, (∀ d ∈ ds, topicFormat.Valid d) ∧ st'.file path = st.file path ++ topicFormat.stream ds

/-! ### Single commands -/

section

variable (h : st.Aligned path) (hgrown : GrownByPackets path st st')

include h hgrown

theorem Aligned.framed' :
    ∃ ds, (∀ d ∈ ds, topicFormat.Valid d) ∧ st'.file path = topicFormat.stream ds := by
  obtain ⟨ds, hds, hfile⟩ := h.framed
  obtain ⟨es, hes, hfile'⟩ := hgrown
  refine ⟨ds ++ es, fun d hd => (List.mem_append.mp hd).elim (hds d) (hes d), ?_⟩
  rw [hfile', hfile, FrameFormat.stream_append]

theorem Aligned.grown (hsound : st'.world.Sound) (hbounded : st'.Bounded)
    (hptr : ∀ g, st'.ReadsFrom g path →
      topicFormat.AtBoundary (st.file path) g.readPointer.toNat) : st'.Aligned path := by
  refine ⟨hsound, hbounded, h.framed' hgrown, fun g hg => ?_⟩
  obtain ⟨es, hes, hfile⟩ := hgrown
  rw [hfile]
  exact (hptr g hg).append hes

theorem Aligned.idle (hidle : st.Idle st') : st'.Aligned path := by
  refine h.grown hgrown (hidle.confined.keepsSound h.sound) (h.bounded.of_idle hidle) fun g hg => ?_
  obtain ⟨gh, -, -, hgh, hobject, -⟩ := id hg
  rw [hidle.session] at hgh
  rw [hidle.groups] at hobject
  refine h.onBoundary g (hg.of_confined h.sound hidle.confined (by rw [hidle.session])
    (fun gh' hgh' => ?_) rfl (h.bounded.attached gh g hgh hobject))
  rw [hidle.session, hgh] at hgh'
  cases hgh'
  exact hobject

/-- A group that the session has moved. -/
theorem Aligned.moved (hhas : st.HasGroup gh th g) (hsession : st'.session = st.session)
    (hconfined : st.Confined st') (hobject : st'.world.groups.get gh = some g')
    (hattached : g'.attachedTopic = g.attachedTopic)
    (hptr : st.ReadsFrom g path → topicFormat.AtBoundary (st.file path) g'.readPointer.toNat) :
    st'.Aligned path := by
  refine h.grown hgrown (hconfined.keepsSound h.sound)
    (h.bounded.of_moved hsession hconfined hhas hobject hattached) fun g₁ hg₁ => ?_
  obtain ⟨gh₁, -, -, hgh₁, hobject₁, -⟩ := id hg₁
  rw [hsession, hhas.group] at hgh₁
  cases hgh₁
  cases hobject.symm.trans hobject₁
  refine hptr (hg₁.of_confined h.sound hconfined (by rw [hsession]) (fun gh' hgh' => ?_) hattached
    (h.bounded.attached gh g hhas.group hhas.object))
  rw [hsession, hhas.group] at hgh'
  cases hgh'
  exact hhas.object

theorem Aligned.handsOut {record : List Attempt} {d : Bytes}
    (hout : st.HandsOut st' record gh th g d) : st'.Aligned path := by
  refine h.moved hgrown hout.has hout.session hout.confined hout.object' rfl fun hreads => ?_
  obtain ⟨-, t, -, -, -, ht, -⟩ := id hreads
  obtain ⟨hd, hsmall⟩ := hout.packet t (hout.has.attached ▸ ht) path (hreads.on h.sound ht)
  rw [toNat_readPointer_afterPacket hsmall hd]
  exact (h.onBoundary g hreads).next hd

theorem Aligned.reselected {topicName groupId : Option Bytes}
    (hsel : st.Reselected st' topicName groupId) : st'.Aligned path := by
  refine ⟨hsel.confined.keepsSound h.sound, h.bounded.of_reselected hsel, h.framed' hgrown,
    fun g hg => ?_⟩
  obtain ⟨gh, -, -, hgh, hobject, -⟩ := id hg
  rcases hsel.group with hnone | ⟨hsame, hgroups, -⟩ | ⟨gh', th, name, hgh', -, -, -, -, hnew⟩
  · cases hnone.symm.trans hgh
  · rw [hsame] at hgh
    rw [hgroups] at hobject
    have hreads := hg.of_confined h.sound hsel.confined hsame.symm (fun gh' hgh' => by
      rw [hsame, hgh] at hgh'
      cases hgh'
      exact hobject) rfl (h.bounded.attached gh g hgh hobject)
    obtain ⟨es, hes, hfile⟩ := hgrown
    rw [hfile]
    exact (h.onBoundary g hreads).append hes
  · cases hgh'.symm.trans hgh
    cases hnew.symm.trans hobject
    obtain ⟨ds, hds, hfile⟩ := h.framed' hgrown
    rw [hfile]
    exact FrameFormat.atBoundary_zero hds

end

/-- A `packet_size` that `ACK` accepts leads to a boundary of the file. -/
def SizeFits (st : SessionState) (path commandData : Bytes) : Prop :=
  ∀ gh th g packetSize, st.HasGroup gh th g → st.ReadsFrom g path →
    st.AcceptsSize th g commandData packetSize →
      topicFormat.AtBoundary (st.file path) (movedBy g packetSize).readPointer.toNat

/-- There is one size in the data of a command. -/
theorem AcceptsSize.unique {commandData : Bytes} {n n' : UInt64}
    (h : st.AcceptsSize th g commandData n) (h' : st.AcceptsSize th g commandData n') :
    n = n' := by
  obtain ⟨⟨-, -, str, hstr, rfl⟩, -⟩ := h
  obtain ⟨⟨-, -, str', hstr', rfl⟩, -⟩ := h'
  cases hstr.symm.trans hstr'
  rfl

theorem ReadsFrom.acks {commandData : Bytes} (hs : st.world.Sound) (hreads : st.ReadsFrom g path)
    (hacks : st.Acks st' gh th g g' commandData) : st'.ReadsFrom g' path := by
  obtain ⟨-, t, c, -, -, ht, hc, -⟩ := id hreads
  have hon := hreads.on hs ht
  rw [hacks.has.attached] at ht
  have hsome := hacks.chunk
  rw [ht, Option.map_some, hc, Option.isSome_some] at hsome
  obtain ⟨t', ht', hc'⟩ := Option.map_eq_some_iff.mp hsome
  obtain ⟨c', hc'⟩ := Option.isSome_iff_exists.mp hc'
  refine ⟨gh, t', c', hacks.session ▸ hacks.has.group, hacks.object',
    hacks.same.attachedTopic ▸ hacks.has.attached ▸ ht', hc', ?_⟩
  rcases hacks.confined.topics th t' ht' with ⟨t₀, ht₀, hstays⟩ | ⟨hge, -⟩
  · cases ht.symm.trans ht₀
    exact (hstays path hon c' hc').1
  · have := HandleHeap.lt_fresh_of_get ht
    omega

/-- `ACK` keeps to the boundaries exactly when an accepted `packet_size` does. -/
theorem Aligned.ack (h : st.Aligned path) (hgrown : GrownByPackets path st st')
    {commandData : Bytes} {r : ℤ} (hrun : handleAckCommand commandData st = some (r, st')) :
    (st'.OnBoundary path ↔ st.SizeFits path commandData) ∧
      (st.SizeFits path commandData → st'.Aligned path) := by
  rcases ack_cases h.sound hrun with ⟨hidle, hnone⟩ | ⟨gh, th, g, g', hacks⟩
  · have haligned := h.idle hgrown hidle
    exact ⟨iff_of_true haligned.onBoundary fun gh th g _ hhas => absurd hhas (hnone gh th g),
      fun _ => haligned⟩
  have hmoved (hptr : st.ReadsFrom g path →
      topicFormat.AtBoundary (st.file path) g'.readPointer.toNat) : st'.Aligned path :=
    h.moved hgrown hacks.has hacks.session hacks.confined hacks.object' hacks.same.attachedTopic
      hptr
  have hunique {gh₁ th₁ : ℕ} {g₁ : Group} (hhas : st.HasGroup gh₁ th₁ g₁) : th₁ = th ∧ g₁ = g := by
    cases hhas.group.symm.trans hacks.has.group
    exact ⟨Option.some.inj (hhas.topic.symm.trans hacks.has.topic),
      Option.some.inj (hhas.object.symm.trans hacks.has.object)⟩
  by_cases hreads : st.ReadsFrom g path
  swap
  · have haligned := hmoved fun hreads' => absurd hreads' hreads
    refine ⟨iff_of_true haligned.onBoundary fun gh₁ th₁ g₁ _ hhas hreads₁ => ?_, fun _ => haligned⟩
    exact absurd ((hunique hhas).2 ▸ hreads₁) hreads
  obtain ⟨-, t, -, -, -, ht, -⟩ := id hreads
  rcases hacks.moves t (hacks.has.attached ▸ ht) path (hreads.on h.sound ht) with
    ⟨packetSize, haccepts, rfl⟩ | ⟨hnone, st₁, hsel, htouch, -, rfl⟩
  · have hfits : st.SizeFits path commandData ↔
        topicFormat.AtBoundary (st.file path) (movedBy g packetSize).readPointer.toNat := by
      refine ⟨fun hall => hall gh th g packetSize hacks.has hreads haccepts, ?_⟩
      rintro hptr gh₁ th₁ g₁ packetSize₁ hhas - haccepts₁
      obtain ⟨rfl, rfl⟩ := hunique hhas
      rwa [haccepts₁.unique haccepts]
    rw [hfits]
    refine ⟨⟨fun hboundary => ?_, fun hptr => (hmoved fun _ => hptr).onBoundary⟩,
      fun hptr => hmoved fun _ => hptr⟩
    have hfile : st'.file path = st.file path := by rw [file, hacks.fs, file]
    exact hfile ▸ hboundary _ (hreads.acks h.sound hacks)
  · have haligned := hmoved fun _ => by
      have hboundary := h.onBoundary g hreads
      have hend (hparse : topicFormat.parseAt (st₁.file path) g.readPointer.toNat = none) :
          (st₁.file path).length ≤ g.readPointer.toNat := by
        rw [htouch.file] at hparse ⊢
        exact hboundary.length_le hparse
      rcases hsel.result_ackPacketBatch_one hend with ⟨-, hsame⟩ | ⟨d, -, hsmall, hd, hpass⟩
      · rw [hsame]
        exact hboundary
      · rw [hpass, toNat_readPointer_afterPacket hsmall hd]
        rw [htouch.file] at hd
        exact hboundary.next hd
    refine ⟨iff_of_true haligned.onBoundary ?_, fun _ => haligned⟩
    intro gh₁ th₁ g₁ packetSize hhas _ haccepts
    obtain ⟨rfl, rfl⟩ := hunique hhas
    exact absurd haccepts (hnone packetSize)

/-- One command keeps the invariant, exactly when an `ACK` keeps to the boundaries. -/
theorem Aligned.command (h : st.Aligned path) (hgrown : GrownByPackets path st st')
    {command : Bytes} {r : ℤ} (hrun : processClientCommand command st = some (r, st')) :
    (st'.OnBoundary path ↔ (startsWith commandAck command = true →
      st.SizeFits path (ackData command))) ∧
      ((startsWith commandAck command = true → st.SizeFits path (ackData command)) →
        st'.Aligned path) := by
  by_cases hack : startsWith commandAck command = true
  · rw [processClientCommand_ack hack] at hrun
    simpa only [hack, true_imp_iff] using h.ack hgrown hrun
  suffices haligned : st'.Aligned path from
    ⟨iff_of_true haligned.onBoundary fun hack' => absurd hack' hack, fun _ => haligned⟩
  rw [processClientCommand, if_neg hack] at hrun
  split_ifs at hrun
  · rw [← snd_recordedConsumeCommand] at hrun
    obtain ⟨⟨record, r'⟩, hrun, -⟩ := SessionM.map_eq_some_iff.mp hrun
    rcases consume_cases h.sound hrun with ⟨hidle, -⟩ | ⟨gh, th, g, d, hout⟩
    · exact h.idle hgrown hidle
    · exact h.handsOut hgrown hout
  · exact h.reselected hgrown (reselected_setGroup hrun)
  · exact h.reselected hgrown (reselected_setTopic hrun)
  · rw [reply_return] at hrun
    obtain ⟨-, rfl⟩ := Prod.mk.inj (Option.some.inj hrun)
    exact h.idle hgrown (idle_replied st unknownCommand)

end SessionState

/-! ### Runs -/

namespace SessionEvent

open SessionState

/-- What happens to the session and its world. -/
def step (st : SessionState) : SessionEvent → Option (ℤ × SessionState)
  | .command text => processClientCommand text st
  | .files fs => some (0, { st with world := { st.world with fs := fs } })

/-- If the event is an `ACK` with a `packet_size` that is accepted, then this size leads to a
boundary. -/
def Meets (path : Bytes) (st : SessionState) : SessionEvent → Prop
  | .command text => startsWith commandAck text = true → st.SizeFits path (ackData text)
  | .files _ => True

/-- In a file that consists of packets and grows by packets, the read pointer of a new session stays
on the boundaries exactly when every accepted `packet_size` keeps to them. -/
theorem onBoundary_iff {st : SessionState} {path : Bytes} {ds : List Bytes}
    (hsound : st.world.Sound) (hnew : st.session = .fresh) (hds : ∀ d ∈ ds, topicFormat.Valid d)
    (hfile : st.file path = topicFormat.stream ds) {events : List SessionEvent}
    (hgrown : ∀ e ∈ trace step st events, GrownByPackets path e.before e.after) :
    (∀ e ∈ trace step st events, e.after.OnBoundary path) ↔
      ∀ e ∈ trace step st events, Meets path e.before e.op := by
  have haligned : st.Aligned path := by
    refine ⟨hsound, ⟨fun th hth => ?_, fun gh g hgh => ?_⟩, ⟨ds, hds, hfile⟩, fun g hg => ?_⟩
    · rw [hnew] at hth
      cases hth
    · rw [hnew] at hgh
      cases hgh
    · obtain ⟨gh, -, -, hgh, -⟩ := hg
      rw [hnew] at hgh
      cases hgh
  refine trace_iff (Aligned path) _ ?_ haligned hgrown
  rintro st (text | fs) r st' h hstep hgrown
  · exact h.command hgrown hstep
  · obtain ⟨-, rfl⟩ := Prod.mk.inj (Option.some.inj hstep)
    have haligned : Aligned path { st with world := { st.world with fs := fs } } :=
      h.grown hgrown h.sound ⟨h.bounded.topic, h.bounded.attached⟩ h.onBoundary
    exact ⟨iff_of_true haligned.onBoundary trivial, fun _ => haligned⟩

/-- A new session in a world with a topic file of two packets. -/
def sampleSession : SessionState where
  world :=
    { fs := .ofFile (topicPath (ascii "t") defaultTopicBasePath)
        (topicFormat.stream [ascii "ab", ascii "c"])
      faults := []
      topics := .empty
      groups := .empty }
  session := .fresh
  client := ⟨[], [], []⟩

theorem sound_sampleSession : sampleSession.world.Sound := by
  intro h t ht
  have hnone : (HandleHeap.empty : HandleHeap TopicObject).get h = none := HandleHeap.get_empty
  cases hnone.symm.trans ht

theorem file_sampleSession : sampleSession.file (topicPath (ascii "t") defaultTopicBasePath) =
    topicFormat.stream [ascii "ab", ascii "c"] :=
  congrArg (Option.getD · []) (FileSystem.read_ofFile _ _)

/-- The client selects the topic and acknowledges a packet of one byte at its start. -/
def sampleEvents : List SessionEvent :=
  [.command (ascii "SET_TOPIC t"), .command (ascii "SET_GROUP g"),
    .command (ascii "ACK \x7b\"packet_size\":\"1\"\x7d")]

theorem grown_sampleEvents : ∀ e ∈ trace step sampleSession sampleEvents,
    GrownByPackets (topicPath (ascii "t") defaultTopicBasePath) e.before e.after := by
  have hsame : ∀ e ∈ trace step sampleSession sampleEvents,
      e.after.file (topicPath (ascii "t") defaultTopicBasePath) =
        e.before.file (topicPath (ascii "t") defaultTopicBasePath) := by
    decide +kernel
  exact fun e he => ⟨[], fun d hd => absurd hd List.not_mem_nil,
    (hsame e he).trans (List.append_nil _).symm⟩

theorem onBoundary_iff_sample :
    (∀ e ∈ trace step sampleSession sampleEvents,
        e.after.OnBoundary (topicPath (ascii "t") defaultTopicBasePath)) ↔
      ∀ e ∈ trace step sampleSession sampleEvents,
        Meets (topicPath (ascii "t") defaultTopicBasePath) e.before e.op :=
  onBoundary_iff sound_sampleSession rfl (by decide) file_sampleSession grown_sampleEvents

/-- The size of one byte leads to offset 5, into the payload of the first packet. -/
theorem not_onBoundary_sample :
    sampleSession.file (topicPath (ascii "t") defaultTopicBasePath) =
        topicFormat.stream [ascii "ab", ascii "c"] ∧
      (∀ e ∈ trace step sampleSession sampleEvents,
        GrownByPackets (topicPath (ascii "t") defaultTopicBasePath) e.before e.after) ∧
      ¬ ∀ e ∈ trace step sampleSession sampleEvents,
        e.after.OnBoundary (topicPath (ascii "t") defaultTopicBasePath) := by
  refine ⟨file_sampleSession, grown_sampleEvents, fun hall => ?_⟩
  have hlast : ((trace step sampleSession sampleEvents)[2]?).map (fun e =>
      (e.after.session.group, e.after.world.groups.get 0,
        ((e.after.world.topics.get 0).bind TopicObject.chunkHandle).map Chunk.filePath,
        topicFormat.parseAt (e.after.file (topicPath (ascii "t") defaultTopicBasePath)) 0)) =
      some (some 0, some ⟨ascii "g", 0, 5, 5⟩,
        some (topicPath (ascii "t") defaultTopicBasePath), some (ascii "ab")) := by
    decide +kernel
  obtain ⟨e, he, heq⟩ := Option.map_eq_some_iff.mp hlast
  simp only [Prod.mk.injEq] at heq
  obtain ⟨hgroup, hobject, hpath, hparse⟩ := heq
  obtain ⟨c, hc, hpath⟩ := Option.map_eq_some_iff.mp hpath
  obtain ⟨t, ht, hc⟩ := Option.bind_eq_some_iff.mp hc
  have hboundary := hall e (List.mem_of_getElem? he) _ ⟨0, t, c, hgroup, hobject, ht, hc, hpath⟩
  rcases hboundary.eq_zero_or_le hparse with hzero | hle
  · exact absurd hzero (by decide)
  · exact absurd hle (by decide)

end SessionEvent

end SuparnaD

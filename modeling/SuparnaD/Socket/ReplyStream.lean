import Mathlib.Data.List.Nodup
import SuparnaD.Foundation.PrefixCodes
import SuparnaD.Messaging.SilentPrograms
import SuparnaD.Socket.HandleOwnership

/-!
# The stream of replies

A session answers with status lines and with packets, which share one stream. A status line ends
with its only newline and begins with a brace; a packet begins with the magic number and states its
length. So no reply begins another one, and the stream can be taken apart in one way only, whatever
the payloads are.

## Main definitions

* `StatusLine`, `SessionReply`, `SessionReply.stream` : what a session can answer.
* `wireFormat` : the frames on the wire.
* `SessionState.Answers` : a client that takes all bytes has received complete replies.

## Main results

* `isPrefixCode_reply`.
* `SessionM.replies_handleClientSession` : the output of a session is a stream of replies.
* `reply_stream_decodable`.
-/

namespace SuparnaD

/-! ### Replies -/

/-- The lines that a session sends. -/
inductive StatusLine where
  | groupOrTopicNotSetHint
  | groupOrTopicNotSet
  | noMoreData
  | noPacket
  | packetAcknowledged
  | acknowledgeFailed
  | groupSet
  | topicSet
  | unknownCommand
  | goodbye
  deriving DecidableEq, Repr

/-- The text of a line, with its newline. -/
def StatusLine.text : StatusLine → Bytes
  | .groupOrTopicNotSetHint => SuparnaD.groupOrTopicNotSetHint
  | .groupOrTopicNotSet => SuparnaD.groupOrTopicNotSet
  | .noMoreData => SuparnaD.noMoreData
  | .noPacket => SuparnaD.noPacket
  | .packetAcknowledged => SuparnaD.packetAcknowledged
  | .acknowledgeFailed => SuparnaD.acknowledgeFailed
  | .groupSet => SuparnaD.groupSet
  | .topicSet => SuparnaD.topicSet
  | .unknownCommand => SuparnaD.unknownCommand
  | .goodbye => SuparnaD.goodbye

/-- The frames on the wire: the magic number, the length and the payload. -/
def wireFormat : FrameFormat UInt8 where
  headerLen := packetHeaderSize
  header := packetHeader
  value header := leNat (header.drop 4)
  maxLen := maxPacketSize
  length_header _ := rfl
  value_header n hn := topicFormat.value_header n hn

/-- A status line or a packet with its payload. -/
abbrev SessionReply : Type := StatusLine ⊕ { d : Bytes // wireFormat.Valid d }

/-- The bytes of a reply on the wire. -/
def SessionReply.bytes : SessionReply → Bytes :=
  Sum.elim StatusLine.text fun d => wireFormat.frame d.1

/-- The bytes of several replies. -/
def SessionReply.stream (replies : List SessionReply) : Bytes := replies.flatMap SessionReply.bytes

/-- A newline stands at the end of a status line and nowhere else. -/
theorem StatusLine.text_eq (l : StatusLine) : l.text = l.text.dropLast ++ [10] := by
  cases l <;> rfl

theorem StatusLine.newline_notMem (l : StatusLine) : 10 ∉ l.text.dropLast := by
  cases l <;> decide +kernel

/-- All status lines. -/
def StatusLine.all : List StatusLine :=
  [.groupOrTopicNotSetHint, .groupOrTopicNotSet, .noMoreData, .noPacket, .packetAcknowledged,
    .acknowledgeFailed, .groupSet, .topicSet, .unknownCommand, .goodbye]

theorem StatusLine.mem_all (l : StatusLine) : l ∈ all := by
  cases l <;> simp [all]

theorem StatusLine.dropLast_text_injective :
    Function.Injective fun l : StatusLine => l.text.dropLast := by
  have hnodup : (all.map fun l => l.text.dropLast).Nodup := by decide +kernel
  exact fun l l' heq => List.inj_on_of_nodup_map hnodup l.mem_all l'.mem_all heq

theorem isPrefixCode_statusLine : IsPrefixCode StatusLine.text := by
  have hlines := isPrefixCode_terminated StatusLine.dropLast_text_injective
    StatusLine.newline_notMem
  rwa [← funext StatusLine.text_eq] at hlines

/-- A status line begins with a brace and a packet with the last letter of the magic number. -/
theorem StatusLine.head?_text (l : StatusLine) : l.text.head? = some 123 := by
  cases l <;> rfl

theorem head?_wireFormat_frame (d : Bytes) : (wireFormat.frame d).head? = some 75 := rfl

/-- No reply is empty, and none begins another. -/
theorem isPrefixCode_reply : IsPrefixCode SessionReply.bytes := by
  have hframes := wireFormat.isPrefixCode_frame (Nat.succ_pos 7)
  refine isPrefixCode_statusLine.sumElim hframes fun l d heq => ?_
  rw [l.head?_text, head?_wireFormat_frame] at heq
  cases heq

theorem SessionReply.stream_append (replies more : List SessionReply) :
    SessionReply.stream (replies ++ more) =
      SessionReply.stream replies ++ SessionReply.stream more :=
  List.flatMap_append

/-! ### What a session sends -/

namespace SessionState

/-- If the socket takes all bytes of every `send`, the client has received complete replies. -/
def Answers (st st' : SessionState) : Prop :=
  st.client.Reliable → st'.client.Reliable ∧
    ∃ replies, st'.client.wire = st.client.wire ++ SessionReply.stream replies

variable {α β : Type} {st st' st'' : SessionState}

theorem answers_of_client (h : st'.client = st.client) : st.Answers st' := fun hreliable =>
  ⟨h ▸ hreliable, [], by rw [h]; exact (List.append_nil _).symm⟩

theorem Answers.refl (st : SessionState) : st.Answers st := answers_of_client rfl

theorem Answers.trans (h : st.Answers st') (h' : st'.Answers st'') : st.Answers st'' := by
  intro hreliable
  obtain ⟨hreliable', replies, hwire⟩ := h hreliable
  obtain ⟨hreliable'', more, hwire'⟩ := h' hreliable'
  refine ⟨hreliable'', replies ++ more, ?_⟩
  rw [hwire', hwire, SessionReply.stream_append, List.append_assoc]

/-- The client has received one reply. -/
theorem answers_reply (r : SessionReply)
    (h : st.client.Reliable → st'.client.Reliable ∧
      st'.client.wire = st.client.wire ++ r.bytes) : st.Answers st' := by
  intro hreliable
  obtain ⟨hreliable', hwire⟩ := h hreliable
  refine ⟨hreliable', [r], ?_⟩
  rw [hwire, SessionReply.stream, List.flatMap_singleton]

theorem answers_replied (st : SessionState) (l : StatusLine) : st.Answers (st.replied l.text) := by
  refine answers_reply (.inl l) fun hreliable => ?_
  rw [replied, hreliable.send]
  exact ⟨hreliable.receive _, rfl⟩

end SessionState

namespace SessionM

open SessionState

variable {α β : Type}

/-- The client receives complete replies from the computation. -/
abbrev Replies (m : SessionM α) : Prop := m.Keeps Answers

theorem replies_pure (a : α) : (pure a : SessionM α).Replies := by
  intro st b st' hrun
  obtain ⟨-, rfl⟩ := Prod.mk.inj (Option.some.inj hrun)
  exact .refl st

theorem Replies.bind {m : SessionM α} {f : α → SessionM β} (hm : m.Replies)
    (hf : ∀ a, (f a).Replies) : (m >>= f).Replies := by
  intro st b st' hrun
  obtain ⟨a, t, hrun₁, hrun₂⟩ := bind_eq_some_iff.mp hrun
  exact (hm hrun₁).trans (hf a hrun₂)

theorem replies_getSession : getSession.Replies := by
  intro st a st' hrun
  obtain ⟨-, rfl⟩ := Prod.mk.inj (Option.some.inj hrun)
  exact .refl _

theorem replies_modifySession (f : ClientSession → ClientSession) :
    (modifySession f).Replies := by
  intro st a st' hrun
  obtain ⟨-, rfl⟩ := Prod.mk.inj (Option.some.inj hrun)
  exact answers_of_client rfl

theorem replies_getGroup (h : ℕ) : (getGroup h).Replies := by
  intro st a st' hrun
  obtain ⟨-, rfl⟩ := getGroup_eq_some_iff.mp hrun
  exact .refl _

theorem replies_detached {p : Broker α} (hp : p.Silent) : (detached p).Replies := by
  rintro st ⟨a, chunk⟩ st' hrun
  obtain ⟨m, hexec, -, rfl⟩ := detached_eq_some_iff.mp hrun
  exact answers_of_client (exec_silent hp hexec)

theorem replies_onTopic (h : ℕ) {p : Broker α} (hp : p.Silent) : (onTopic h p).Replies := by
  intro st a st' hrun
  obtain ⟨t, m, -, hexec, rfl⟩ := onTopic_eq_some_iff.mp hrun
  exact answers_of_client (exec_silent hp hexec)

theorem replies_onGroup (group topic : ℕ) {f : Group → Broker (α × Group)}
    (hf : ∀ g, (f g).Silent) : (onGroup group topic f).Replies := by
  intro st a st' hrun
  obtain ⟨g, t, m, g', -, -, hexec, rfl⟩ := onGroup_eq_some_iff.mp hrun
  exact answers_of_client (exec_silent (hf g) hexec)

theorem replies_malloc : malloc.Replies :=
  .bind (replies_detached silent_malloc) fun _ => replies_pure _

theorem replies_freeGroup (group : Option ℕ) : (freeGroup group).Replies := by
  intro st a st' hrun
  cases group <;> obtain ⟨-, rfl⟩ := Prod.mk.inj (Option.some.inj hrun) <;>
    exact answers_of_client rfl

theorem replies_freeTopic (topic : Option ℕ) : (freeTopic topic).Replies := by
  intro st a st' hrun
  cases topic <;> obtain ⟨-, rfl⟩ := Prod.mk.inj (Option.some.inj hrun) <;>
    exact answers_of_client rfl

theorem replies_newGroup (group : Option Group) : (newGroup group).Replies := by
  intro st a st' hrun
  cases group <;> obtain ⟨-, rfl⟩ := Prod.mk.inj (Option.some.inj hrun) <;>
    exact answers_of_client rfl

theorem replies_newTopic (topic : Option Topic × Option Chunk) : (newTopic topic).Replies := by
  intro st a st' hrun
  obtain ⟨topic, chunk⟩ := topic
  cases topic <;> obtain ⟨-, rfl⟩ := Prod.mk.inj (Option.some.inj hrun) <;>
    exact answers_of_client rfl

theorem replies_reply (l : StatusLine) : (reply l.text).Replies := by
  intro st a st' hrun
  obtain ⟨-, rfl⟩ := Prod.mk.inj (Option.some.inj hrun)
  exact answers_replied st l

/-- A status line and a result. -/
theorem replies_answer (l : StatusLine) (r : ℤ) : Replies (do reply l.text; return r) :=
  .bind (replies_reply l) fun _ => replies_pure r

/-- A packet is sent whole, or not at all if it has no valid length. -/
theorem replies_sendPacketToConsumer (d : Bytes) :
    (detached (sendPacketToConsumer d)).Replies := by
  by_cases hd : wireFormat.Valid d
  · rintro st ⟨r, chunk⟩ st' hrun
    obtain ⟨m, hexec, -, rfl⟩ := detached_eq_some_iff.mp hrun
    refine answers_reply (.inr ⟨d, hd⟩) fun hreliable => ?_
    have hsend := exec_sendPacketToConsumer_of_reliable (s := st.machine none) hreliable hd
    obtain ⟨-, rfl⟩ := Prod.mk.inj (Option.some.inj (hsend.symm.trans hexec))
    exact ⟨(hreliable.receive _).receive _, List.append_assoc _ _ _⟩
  · refine replies_detached ?_
    rw [sendPacketToConsumer]
    by_cases hzero : d.length = 0
    · rw [if_pos hzero]
      exact silent_pure _
    · have hmax : maxPacketSize < d.length :=
        Nat.lt_of_not_le fun hle => hd ⟨Nat.pos_of_ne_zero hzero, hle⟩
      rw [if_neg hzero, if_pos hmax]
      exact silent_pure _

/-! ### The commands -/

theorem replies_handleConsumeCommand : handleConsumeCommand.Replies := by
  refine replies_getSession.bind ?_
  rintro ⟨group, topic, groupId, topicName⟩
  cases group with
  | none => exact replies_answer .groupOrTopicNotSetHint _
  | some group =>
  cases topic with
  | none => exact replies_answer .groupOrTopicNotSetHint _
  | some topic =>
  refine (replies_getGroup group).bind fun g => ?_
  refine (replies_onTopic _ ((looks_groupHasMoreData g).silent)).bind fun more => .ite ?_ ?_
  · exact replies_answer .noMoreData _
  refine (replies_onGroup _ _ fun g => (looks_consumePacket g _).silent).bind fun packet => ?_
  cases packet with
  | none => exact replies_answer .noPacket _
  | some packet => exact (replies_sendPacketToConsumer _).bind fun _ => replies_pure _

theorem replies_extractJsonValue (json key : Bytes) : (extractJsonValue json key).Replies := by
  rw [extractJsonValue]
  cases findJsonValue json key with
  | none => exact replies_pure _
  | some value => exact replies_malloc.bind fun _ => .ite (replies_pure _) (replies_pure _)

theorem replies_handleAckCommand (commandData : Bytes) :
    (handleAckCommand commandData).Replies := by
  refine replies_getSession.bind ?_
  rintro ⟨group, topic, groupId, topicName⟩
  cases group with
  | none => exact replies_answer .groupOrTopicNotSet _
  | some group =>
  cases topic with
  | none => exact replies_answer .groupOrTopicNotSet _
  | some topic =>
  have hnext : (ackNextPacket group topic).Replies :=
    (replies_onGroup _ _ fun g => (looks_ackPacketBatch g _ _).silent).bind fun _ =>
      .ite (replies_answer .packetAcknowledged _) (replies_answer .acknowledgeFailed _)
  refine .ite ((replies_extractJsonValue _ _).bind fun value => ?_) hnext
  cases value with
  | none => exact hnext
  | some packetSizeStr =>
    exact (replies_onGroup _ _ fun g => (looks_ackPacketBySize g _ _).silent).bind fun _ =>
      .ite (replies_answer .packetAcknowledged _) hnext

theorem replies_renewGroup (topic : ℕ) : (renewGroup topic).Replies := by
  rw [renewGroup_eq]
  refine replies_getSession.bind fun session => (replies_freeGroup _).bind fun _ => ?_
  refine (replies_detached (onDirectories_createGroup _ _).silent).bind fun _ => ?_
  exact (replies_newGroup _).bind fun _ => replies_modifySession _

theorem replies_handleSetGroup (groupName : Bytes) : (handleSetGroup groupName).Replies := by
  intro st r st' hrun
  have hstored : st.Answers (st.withGroupId groupName) := answers_of_client rfl
  rcases handleSetGroup_cases hrun with ⟨-, rfl⟩ | ⟨th, st₁, -, hrenew, rfl⟩
  · exact hstored.trans (answers_replied _ .groupSet)
  · exact (hstored.trans (replies_renewGroup th hrenew)).trans (answers_replied _ .groupSet)

theorem replies_finishSelection : finishSelection.Replies := by
  intro st r st' hrun
  rcases finishSelection_cases hrun with ⟨-, rfl⟩ | ⟨th, name, st₁, -, -, hrenew, rfl⟩
  · exact answers_replied _ .topicSet
  · exact (replies_renewGroup th hrenew).trans (answers_replied _ .topicSet)

theorem replies_withNewTopic {p : Broker (Option Topic)} (hp : p.Silent) :
    (withNewTopic p).Replies :=
  .bind (replies_detached hp) fun _ => (replies_newTopic _).bind fun _ => replies_modifySession _

theorem silent_openTopic (topicName : Bytes) : (openTopic topicName).Silent := by
  refine silent_malloc.bind fun _ => .unless _ ?_
  refine silent_malloc.bind fun _ => silent_malloc.bind fun _ => ?_
  refine .bind (silent_issue trivial) fun _ => .ite ?_ (silent_pure _)
  exact .bind (silent_issue trivial) fun _ => silent_pure _

theorem replies_handleSetTopic (topicName : Bytes) : (handleSetTopic topicName).Replies := by
  intro st r st' hrun
  have hstored : st.Answers (st.withTopicName topicName) := answers_of_client rfl
  rw [handleSetTopic_eq] at hrun
  have hfind : Replies (Prod.fst <$> detached (topicExists topicName defaultTopicBasePath)) := by
    intro st found st' hrun
    obtain ⟨r, hrun, -⟩ := map_eq_some_iff.mp hrun
    exact replies_detached (onDirectories_topicExists _ _).silent hrun
  refine hstored.trans (Keeps.ite (hfind.bind fun found => .ite ?_ ?_) ?_ hrun)
  · refine replies_getSession.bind fun session => (replies_freeTopic _).bind fun _ => ?_
    exact (replies_withNewTopic (silent_openTopic _)).bind fun _ => replies_finishSelection
  · exact (replies_withNewTopic (silent_createTopic _ _)).bind fun _ => replies_finishSelection
  · exact (replies_modifySession _).bind fun _ => replies_finishSelection

theorem replies_processClientCommand (command : Bytes) :
    (processClientCommand command).Replies :=
  .ite replies_handleConsumeCommand <| .ite (replies_handleAckCommand _) <|
    .ite (replies_handleSetGroup _) <| .ite (replies_handleSetTopic _) <|
      replies_answer .unknownCommand _

/-- The commands of a session, one after the other. -/
theorem replies_sessionLoop (pieces : List Bytes) : (sessionLoop pieces).Replies := by
  induction pieces with
  | nil => exact replies_pure _
  | cons piece pieces ih =>
    refine .ite ih (.ite (replies_reply .goodbye) ?_)
    exact (replies_processClientCommand _).bind fun _ => ih

theorem replies_handleClientSession (pieces : List Bytes) :
    (handleClientSession pieces).Replies := by
  refine replies_malloc.bind fun _ => .ite (replies_pure _) ?_
  refine (replies_modifySession _).bind fun _ => (replies_sessionLoop pieces).bind fun _ => ?_
  rw [clientSessionFree_eq]
  refine .bind ?_ fun _ => replies_pure _
  refine replies_getSession.bind fun session => (replies_freeGroup _).bind fun _ => ?_
  exact (replies_freeTopic _).bind fun _ => replies_modifySession _

end SessionM

/-! ### Taking the stream apart -/

/-- The bytes of replies determine the replies, and what a client receives during a session are the
bytes of replies, of exactly one sequence of them. -/
theorem reply_stream_decodable :
    Function.Injective SessionReply.stream ∧
      ∀ (pieces : List Bytes) (st st' : SessionState) (r : ℤ), st.client.Reliable →
        handleClientSession pieces st = some (r, st') →
        ∃! replies, st'.client.wire = st.client.wire ++ SessionReply.stream replies := by
  have hinj : Function.Injective SessionReply.stream := isPrefixCode_reply.flatMap_injective
  refine ⟨hinj, fun pieces st st' r hreliable hrun => ?_⟩
  obtain ⟨-, replies, hwire⟩ := SessionM.replies_handleClientSession pieces hrun hreliable
  refine ⟨replies, hwire, fun replies' hwire' => hinj ?_⟩
  exact List.append_cancel_left (hwire'.symm.trans hwire)

/-- A session that is asked for a packet before it has a group. -/
theorem reply_stream_decodable_sample :
    ∃ st', handleClientSession [ascii "CONSUME", ascii "QUIT"] SessionState.started =
        some (0, st') ∧
      ∃! replies, st'.client.wire = SessionReply.stream replies := by
  obtain ⟨st', hrun⟩ : ∃ st', handleClientSession [ascii "CONSUME", ascii "QUIT"]
      SessionState.started = some (0, st') := ⟨_, rfl⟩
  have hreliable : SessionState.started.client.Reliable := fun _ h => absurd h List.not_mem_nil
  exact ⟨st', hrun, reply_stream_decodable.2 _ _ st' 0 hreliable hrun⟩

end SuparnaD

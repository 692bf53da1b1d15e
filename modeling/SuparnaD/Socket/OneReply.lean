import SuparnaD.Messaging.AckAgreement
import SuparnaD.Socket.ReplyStream
import SuparnaD.Socket.Segmentation
import SuparnaD.Socket.Server

/-!
# One reply for each command

Every command of a session has exactly one reply: a status line of its own, or the packet that it
hands out. Nothing else that a command does reaches the client. So a client that takes all bytes can
tell to which of its commands a reply belongs by counting.

## Main definitions

* `SessionReply.payload` : the payload of a reply.
* `commandRequest`, `Request.Fits` : the replies that a command may have.
* `SessionM.Mute` : a computation that leaves the client alone.
* `SessionState.RepliesOnce` : the client has received one reply.

## Main results

* `SessionState.repliesOnce_recordedCommand`.
* `Server.repliesOnce_step` : what the clients of all sessions receive in a turn.
-/

namespace SuparnaD

open Broker SessionM

/-- The payload of a packet. A status line has none. -/
def SessionReply.payload : SessionReply → Option Bytes :=
  Sum.elim (fun _ => none) fun d => some d.1

/-! ### Requests and their replies -/

/-- What `process_client_command` is asked to do. -/
def commandRequest (command : Bytes) : Request :=
  if startsWith commandConsume command then .consume
  else if startsWith commandAck command then .ack (ackData command)
  else if startsWith commandSetGroup command then
    .setGroup (commandArgument commandSetGroup command)
  else if startsWith commandSetTopic command then
    .setTopic (commandArgument commandSetTopic command)
  else .unknown

theorem parseCommand_of_not_quit {command : Bytes} (h : ¬ isQuit command = true) :
    parseCommand command = commandRequest command := if_neg h

/-- The status lines that a request may be answered with. -/
def Request.lines : Request → List StatusLine
  | .consume => [.groupOrTopicNotSetHint, .noMoreData, .noPacket]
  | .ack _ => [.groupOrTopicNotSet, .packetAcknowledged, .acknowledgeFailed]
  | .setGroup _ => [.groupSet]
  | .setTopic _ => [.topicSet]
  | .unknown => [.unknownCommand]
  | .quit => [.goodbye]

/-- A request is answered with one of its status lines, and `CONSUME` also with a packet. -/
def Request.Fits (request : Request) : SessionReply → Prop :=
  Sum.elim (· ∈ request.lines) fun _ => request = .consume

/-! ### Computations that leave the client alone -/

namespace SessionM

open SessionState

variable {α β : Type}

/-- The computation sends nothing to the client. -/
abbrev Mute (m : SessionM α) : Prop := m.Keeps fun st st' => st'.client = st.client

theorem Mute.bind {m : SessionM α} {f : α → SessionM β} (hm : m.Mute) (hf : ∀ a, (f a).Mute) :
    (m >>= f).Mute := by
  intro st b st' hrun
  obtain ⟨a, t, hrun₁, hrun₂⟩ := bind_eq_some_iff.mp hrun
  exact (hf a hrun₂).trans (hm hrun₁)

theorem mute_getSession : getSession.Mute := by
  intro st a st' hrun
  obtain ⟨-, rfl⟩ := Prod.mk.inj (Option.some.inj hrun)
  rfl

theorem mute_modifySession (f : ClientSession → ClientSession) : (modifySession f).Mute := by
  intro st a st' hrun
  obtain ⟨-, rfl⟩ := Prod.mk.inj (Option.some.inj hrun)
  rfl

theorem mute_detached {p : Broker α} (hp : p.Silent) : (detached p).Mute := by
  rintro st ⟨a, chunk⟩ st' hrun
  obtain ⟨m, hexec, -, rfl⟩ := detached_eq_some_iff.mp hrun
  exact exec_silent hp hexec

theorem mute_onTopic (h : ℕ) {p : Broker α} (hp : p.Silent) : (onTopic h p).Mute := by
  intro st a st' hrun
  obtain ⟨t, m, -, hexec, rfl⟩ := onTopic_eq_some_iff.mp hrun
  exact exec_silent hp hexec

theorem mute_onGroup (group topic : ℕ) {f : Group → Broker (α × Group)}
    (hf : ∀ g, (f g).Silent) : (onGroup group topic f).Mute := by
  intro st a st' hrun
  obtain ⟨g, t, m, g', -, -, hexec, rfl⟩ := onGroup_eq_some_iff.mp hrun
  exact exec_silent (hf g) hexec

theorem mute_freeGroup (group : Option ℕ) : (freeGroup group).Mute := by
  intro st a st' hrun
  cases group <;> obtain ⟨-, rfl⟩ := Prod.mk.inj (Option.some.inj hrun) <;> rfl

theorem mute_freeTopic (topic : Option ℕ) : (freeTopic topic).Mute := by
  intro st a st' hrun
  cases topic <;> obtain ⟨-, rfl⟩ := Prod.mk.inj (Option.some.inj hrun) <;> rfl

theorem mute_newGroup (group : Option Group) : (newGroup group).Mute := by
  intro st a st' hrun
  cases group <;> obtain ⟨-, rfl⟩ := Prod.mk.inj (Option.some.inj hrun) <;> rfl

theorem mute_newTopic (topic : Option Topic × Option Chunk) : (newTopic topic).Mute := by
  intro st a st' hrun
  obtain ⟨topic, chunk⟩ := topic
  cases topic <;> obtain ⟨-, rfl⟩ := Prod.mk.inj (Option.some.inj hrun) <;> rfl

theorem mute_extractJsonValue (json key : Bytes) : (extractJsonValue json key).Mute := by
  intro st a st' hrun
  rw [extractJsonValue_eq] at hrun
  cases hfind : findJsonValue json key <;> rw [hfind] at hrun <;>
    obtain ⟨-, rfl⟩ := Prod.mk.inj (Option.some.inj hrun) <;> rfl

theorem mute_renewGroup (topic : ℕ) : (renewGroup topic).Mute := by
  rw [renewGroup_eq]
  refine mute_getSession.bind fun session => (mute_freeGroup _).bind fun _ => ?_
  refine (mute_detached (onDirectories_createGroup _ _).silent).bind fun _ => ?_
  exact (mute_newGroup _).bind fun _ => mute_modifySession _

theorem mute_withNewTopic {p : Broker (Option Topic)} (hp : p.Silent) : (withNewTopic p).Mute :=
  .bind (mute_detached hp) fun _ => (mute_newTopic _).bind fun _ => mute_modifySession _

theorem mute_clientSessionFree : clientSessionFree.Mute := by
  rw [clientSessionFree_eq]
  exact mute_getSession.bind fun session => (mute_freeGroup _).bind fun _ =>
    (mute_freeTopic _).bind fun _ => mute_modifySession _

end SessionM

/-! ### One reply -/

namespace SessionState

variable {α β : Type} {st st' st'' : SessionState} {request : Request}
  {record : List Attempt}

/-- A client that takes all bytes has received one reply to the request: the packet on record or,
without one, a status line. -/
def RepliesOnce (st st' : SessionState) (request : Request) (record : List Attempt) : Prop :=
  st.client.Reliable → st'.client.Reliable ∧ ∃ reply : SessionReply, request.Fits reply ∧
    st'.client.wire = st.client.wire ++ reply.bytes ∧
      (record.map Attempt.packet).map Packet.data = reply.payload.toList

theorem repliesOnce_replied (st : SessionState) {l : StatusLine} (hl : l ∈ request.lines) :
    st.RepliesOnce (st.replied l.text) request [] := by
  intro hreliable
  rw [replied, hreliable.send]
  exact ⟨hreliable.receive _, .inl l, hl, rfl, rfl⟩

theorem RepliesOnce.of_client (h : st'.RepliesOnce st'' request record)
    (hclient : st'.client = st.client) : st.RepliesOnce st'' request record := by
  rw [RepliesOnce, ← hclient]
  exact h

theorem repliesOnce_sendPacket (g : Group) {d : Bytes} (hd : topicFormat.Valid d) {r : ℤ}
    {chunk : Option Chunk}
    (hrun : detached (sendPacketToConsumer d) st = some ((r, chunk), st')) :
    st.RepliesOnce st' .consume [⟨packetAt g d, r, none⟩] := by
  intro hreliable
  obtain ⟨m, hexec, -, rfl⟩ := detached_eq_some_iff.mp hrun
  have hsend := exec_sendPacketToConsumer_of_reliable (s := st.machine none) hreliable hd
  obtain ⟨-, rfl⟩ := Prod.mk.inj (Option.some.inj (hsend.symm.trans hexec))
  exact ⟨(hreliable.receive _).receive _, .inr ⟨d, hd⟩, rfl, List.append_assoc _ _ _, rfl⟩

/-- Every completed execution has one reply to the request and hands out nothing. -/
def AnswersOnce (request : Request) (m : SessionM α) : Prop :=
  m.Keeps fun st st' => st.RepliesOnce st' request []

theorem answersOnce_answer {l : StatusLine} (hl : l ∈ request.lines) (r : ℤ) :
    AnswersOnce request (do reply l.text; return r) := by
  intro st a st' hrun
  obtain ⟨-, rfl⟩ := Prod.mk.inj (Option.some.inj hrun)
  exact repliesOnce_replied st hl

theorem AnswersOnce.after {m : SessionM α} {f : α → SessionM β}
    (hf : ∀ a, AnswersOnce request (f a)) (hm : m.Mute) : AnswersOnce request (m >>= f) := by
  intro st b st' hrun
  obtain ⟨a, t, hrun₁, hrun₂⟩ := bind_eq_some_iff.mp hrun
  exact (hf a hrun₂).of_client (hm hrun₁)

theorem AnswersOnce.ite {b : Prop} [Decidable b] {m m' : SessionM α}
    (hm : AnswersOnce request m) (hm' : AnswersOnce request m') :
    AnswersOnce request (if b then m else m') := Keeps.ite hm hm'

theorem answersOnce_handleAckCommand (commandData : Bytes) :
    AnswersOnce (.ack commandData) (handleAckCommand commandData) := by
  refine .after ?_ mute_getSession
  rintro ⟨group, topic, groupId, topicName⟩
  cases group with
  | none => exact answersOnce_answer (l := .groupOrTopicNotSet) (by simp [Request.lines]) _
  | some group =>
  cases topic with
  | none => exact answersOnce_answer (l := .groupOrTopicNotSet) (by simp [Request.lines]) _
  | some topic =>
  have hacked : AnswersOnce (.ack commandData) _ :=
    answersOnce_answer (l := .packetAcknowledged) (by simp [Request.lines]) 0
  have hnext : AnswersOnce (.ack commandData) (ackNextPacket group topic) :=
    .after (fun _ => .ite hacked
      (answersOnce_answer (l := .acknowledgeFailed) (by simp [Request.lines]) _))
      (mute_onGroup _ _ fun g => (looks_ackPacketBatch g _ _).silent)
  refine .ite (.after (fun value => ?_) (mute_extractJsonValue _ _)) hnext
  cases value with
  | none => exact hnext
  | some packetSizeStr =>
    exact .after (fun _ => .ite hacked hnext)
      (mute_onGroup _ _ fun g => (looks_ackPacketBySize g _ _).silent)

theorem answersOnce_handleSetGroup (groupName : Bytes) :
    AnswersOnce (.setGroup groupName) (handleSetGroup groupName) := by
  have hline : StatusLine.groupSet ∈ (Request.setGroup groupName).lines := List.mem_singleton_self _
  intro st r st' hrun
  rcases handleSetGroup_cases hrun with ⟨-, rfl⟩ | ⟨th, st₁, -, hrenew, rfl⟩
  · exact (repliesOnce_replied (st.withGroupId groupName) hline).of_client rfl
  · have hclient := mute_renewGroup th hrenew
    exact (repliesOnce_replied st₁ hline).of_client hclient

theorem answersOnce_finishSelection (topicName : Bytes) :
    AnswersOnce (.setTopic topicName) finishSelection := by
  have hline : StatusLine.topicSet ∈ (Request.setTopic topicName).lines := List.mem_singleton_self _
  intro st r st' hrun
  rcases finishSelection_cases hrun with ⟨-, rfl⟩ | ⟨th, name, st₁, -, -, hrenew, rfl⟩
  · exact repliesOnce_replied st hline
  · exact (repliesOnce_replied st₁ hline).of_client (mute_renewGroup th hrenew)

theorem answersOnce_handleSetTopic (topicName : Bytes) :
    AnswersOnce (.setTopic topicName) (handleSetTopic topicName) := by
  intro st r st' hrun
  rw [handleSetTopic_eq] at hrun
  have hnew {p : Broker (Option Topic)} (hp : p.Silent) :
      AnswersOnce (.setTopic topicName) (do withNewTopic p; finishSelection) :=
    .after (fun _ => answersOnce_finishSelection topicName) (mute_withNewTopic hp)
  have hfind : Mute (Prod.fst <$> detached (topicExists topicName defaultTopicBasePath)) := by
    intro st found st' hrun
    obtain ⟨r, hrun, -⟩ := map_eq_some_iff.mp hrun
    exact mute_detached (onDirectories_topicExists _ _).silent hrun
  have hset : (st.withTopicName topicName).RepliesOnce st' (.setTopic topicName) [] := by
    refine Keeps.ite (R := fun st st' => st.RepliesOnce st' (.setTopic topicName) []) ?_ ?_ hrun
    · refine AnswersOnce.after (fun found => .ite ?_ (hnew (silent_createTopic _ _))) hfind
      exact .after (fun session => .after (fun _ => hnew (silent_openTopic _)) (mute_freeTopic _))
        mute_getSession
    · exact AnswersOnce.after (fun _ => answersOnce_finishSelection topicName)
        (mute_modifySession _)
  exact hset.of_client rfl

/-- `CONSUME` answers with the packet that it hands out, or with a status line. -/
theorem repliesOnce_recordedConsume (hs : st.world.Sound) {r : ℤ}
    (hrun : recordedConsumeCommand st = some ((record, r), st')) :
    st.RepliesOnce st' .consume record := by
  have hline {st₁ : SessionState} (hclient : st₁.client = st.client) {l : StatusLine}
      (hl : l ∈ Request.consume.lines) {r₁ : ℤ}
      (hend : (do reply l.text; return (([] : List Attempt), r₁) : SessionM _) st₁ =
        some ((record, r), st')) : st.RepliesOnce st' .consume record := by
    obtain ⟨heq, rfl⟩ := Prod.mk.inj (Option.some.inj hend)
    rw [← (Prod.mk.inj heq).1]
    exact (repliesOnce_replied st₁ hl).of_client hclient
  cases hgroup : st.session.group with
  | none =>
    rw [recordedConsumeCommand, getSession_bind] at hrun
    simp only [hgroup] at hrun
    exact hline rfl (l := .groupOrTopicNotSetHint) (by simp [Request.lines]) hrun
  | some gh =>
  cases htopic : st.session.topic with
  | none =>
    rw [recordedConsumeCommand, getSession_bind] at hrun
    simp only [hgroup, htopic] at hrun
    exact hline rfl (l := .groupOrTopicNotSetHint) (by simp [Request.lines]) hrun
  | some th =>
  rw [recordedConsumeCommand, getSession_bind] at hrun
  simp only [hgroup, htopic] at hrun
  obtain ⟨g, st₁, hget, hrun⟩ := SessionM.bind_eq_some_iff.mp hrun
  obtain ⟨hobject, rfl⟩ := SessionM.getGroup_eq_some_iff.mp hget
  obtain ⟨more, st₁, hmore, hrun⟩ := SessionM.bind_eq_some_iff.mp hrun
  have hclient₁ := mute_onTopic _ (looks_groupHasMoreData g).silent hmore
  have hs₁ := (idle_onTopic (fun s path h => h.computes_groupHasMoreData g)
    hmore).confined.keepsSound hs
  split at hrun
  · exact hline hclient₁ (l := .noMoreData) (by simp [Request.lines]) hrun
  obtain ⟨packet, st₂, hconsume, hrun⟩ := SessionM.bind_eq_some_iff.mp hrun
  have hclient₂ : st₂.client = st.client :=
    (mute_onGroup gh th (fun g => (looks_consumePacket g th).silent) hconsume).trans hclient₁
  cases packet with
  | none => exact hline hclient₂ (l := .noPacket) (by simp [Request.lines]) hrun
  | some packet =>
    -- A packet comes from a frame of the file, so its length is valid.
    obtain ⟨g₁, t, m, g', -, ht, hexec, -⟩ := SessionM.onGroup_eq_some_iff.mp hconsume
    obtain ⟨path, hpath⟩ := hs₁ th t ht
    obtain ⟨-, -, -, -, d, hd, rfl, -⟩ :=
      Machine.OnTopic.of_consumed (s := st₁.machine t.chunkHandle) hpath hexec
    have hvalid := (FrameFormat.parseAt_eq_some_iff.mp hd).2.1
    obtain ⟨⟨r', chunk⟩, st₃, hsend, hrun⟩ := SessionM.bind_eq_some_iff.mp hrun
    obtain ⟨heq, rfl⟩ := Prod.mk.inj (Option.some.inj hrun)
    obtain ⟨rfl, rfl⟩ := Prod.mk.inj heq
    exact (repliesOnce_sendPacket g₁ hvalid hsend).of_client hclient₂

/-- Every command has exactly one reply. -/
theorem repliesOnce_recordedCommand (hs : st.world.Sound) {text : Bytes} {r : ℤ}
    (hrun : recordedCommand text st = some ((record, r), st')) :
    st.RepliesOnce st' (commandRequest text) record := by
  rw [recordedCommand] at hrun
  rw [commandRequest]
  split_ifs at hrun with hconsume
  · rw [if_pos hconsume]
    exact repliesOnce_recordedConsume hs hrun
  obtain ⟨r', hcommand, heq⟩ := SessionM.map_eq_some_iff.mp hrun
  obtain ⟨rfl, rfl⟩ := Prod.mk.inj heq
  rw [processClientCommand, if_neg hconsume] at hcommand
  rw [if_neg hconsume]
  split_ifs at hcommand ⊢
  · exact answersOnce_handleAckCommand _ hcommand
  · exact answersOnce_handleSetGroup _ hcommand
  · exact answersOnce_handleSetTopic _ hcommand
  · exact answersOnce_answer (l := .unknownCommand) (List.mem_singleton_self _) _ hcommand

end SessionState

/-! ### All sessions -/

namespace Server

variable {s s' : Server} {op : ServerOp} {r : List Attempt × ℤ}

/-- The clients of the other sessions receive nothing. -/
theorem clients_step_of_ne (hstep : s.step op = some (r, s')) {j : ℕ} (hne : j ≠ op.session) :
    s'.clients j = s.clients j := by
  cases op with
  | command i text | disconnect i =>
    obtain ⟨⟨_, st'⟩, -, heq⟩ := Option.map_eq_some_iff.mp hstep
    rw [← (Prod.mk.inj heq).2]
    exact Function.update_of_ne hne ..

/-- The client whose session takes a command receives one reply. -/
theorem repliesOnce_step (hs : s.world.Sound) {i : ℕ} {text : Bytes}
    (hstep : s.step (.command i text) = some (r, s')) :
    (s.view i).RepliesOnce (s'.view i) (commandRequest text) r.1 := by
  obtain ⟨⟨⟨record, r'⟩, st'⟩, hrun, heq⟩ := Option.map_eq_some_iff.mp hstep
  obtain ⟨rfl, rfl⟩ := Prod.mk.inj heq
  rw [view_update_self]
  exact SessionState.repliesOnce_recordedCommand hs hrun

/-- The end of a session sends nothing. -/
theorem clients_disconnect {i : ℕ} (hstep : s.step (.disconnect i) = some (r, s')) (j : ℕ) :
    s'.clients j = s.clients j := by
  by_cases hne : j = i
  · obtain ⟨⟨_, st'⟩, hrun, heq⟩ := Option.map_eq_some_iff.mp hstep
    rw [← (Prod.mk.inj heq).2, hne]
    exact (Function.update_self ..).trans (mute_clientSessionFree hrun)
  · exact clients_step_of_ne hstep hne

end Server

end SuparnaD

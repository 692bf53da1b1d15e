import SuparnaD.Daemon.Accounting
import SuparnaD.Daemon.Delivery
import SuparnaD.Daemon.Safety
import SuparnaD.Foundation.EventLog
import SuparnaD.Socket.NamedAck

/-!
# The program serves an event log

What the program is for: events that are published to a topic by requests reach a session that
consumes the topic. When nothing fails, the topic file and the group of the session are an event log
with one reader. Every turn of the program is an operation on that log, whatever the other sessions
do, and every `CONSUME` of the session is answered as the log says: with the next event, or with the
line that says that there is none. For this the file must be one of whole frames from its first byte
on, which the file of a topic that `create_topic` has made is not.

## Main definitions

* `Daemon.logOp` : the operation on the log that a turn is.
* `wireAnswer` : the bytes that answer a reader.
* `Daemon.Presents` : the file and the group are an event log.

## Main results

* `SessionState.SteadyOn.run_recordedConsume` : `CONSUME` when nothing fails.
* `Daemon.Presents.step` : a turn goes as its operation on the log.
* `Daemon.serves_eventLog`.
-/

namespace SuparnaD

open Broker SessionM

/-! ### `CONSUME` when nothing fails -/

namespace SessionState

variable {st st' : SessionState} {gh th : ℕ} {g : Group} {path : Bytes}

/-- A command that touches the selection only leaves it steady. -/
theorem SteadyOn.of_touched (h : st.SteadyOn gh th g path) (htouch : st.Touched st' gh th)
    {g' : Group} (hsel : st'.Selected gh th g' path) (hfaults : st'.world.faults = []) :
    st'.SteadyOn gh th g' path := by
  obtain ⟨t, ht, hsteady⟩ := h.steady
  obtain ⟨t', ht', hon⟩ := hsel.live
  have hchunk := htouch.chunk
  rw [ht, ht', Option.map_some, Option.map_some] at hchunk
  refine ⟨hsel, t', ht', hon, (Option.some.inj hchunk).trans hsteady.chunk, hfaults, ?_⟩
  rw [Machine.file]
  show ((st'.world.fs.read path).getD []).length < _
  rw [htouch.fs]
  exact h.small

/-- `CONSUME` sends the packet at the read pointer, or the line that says that there is none. -/
theorem SteadyOn.run_recordedConsume (h : st.SteadyOn gh th g path)
    (hat : topicFormat.AtBoundary (st.file path) g.readPointer.toNat) :
    ∃ record r st', recordedConsumeCommand st = some ((record, r), st') ∧
      st.Touched st' gh th ∧
      (topicFormat.parseAt (st.file path) g.readPointer.toNat = none ∧ record = [] ∧
          st'.Selected gh th g path ∧ st'.client = (st.client.send noMoreData).2 ∨
        ∃ d, topicFormat.parseAt (st.file path) g.readPointer.toNat = some d ∧
          record = [⟨packetAt g d, r, none⟩] ∧ st'.Selected gh th (afterPacket g d) path ∧
          (st.client.Reliable →
            st'.client = (st.client.receive (packetHeader d.length)).receive d)) := by
  obtain ⟨t, ht, hsteady⟩ := h.steady
  have hview : st.view th = some (st.file path) := by
    rw [view, ht, Option.bind_some]
    exact hsteady.view_eq
  rw [recordedConsumeCommand, getSession_bind]
  simp only [h.group, h.topic]
  rw [SessionM.bind_of_eq_some (SessionM.getGroup_eq_some_iff.mpr ⟨h.object, rfl⟩), h.attached]
  obtain ⟨st₁, hmore, hsel₁, htouch₁, hclient₁⟩ :=
    h.run_computes_topic fun s hs => hs.computes_groupHasMoreData g
  rw [hview, Option.elim_some] at hmore
  rw [SessionM.bind_of_eq_some hmore]
  cases hparse : topicFormat.parseAt (st.file path) g.readPointer.toNat with
  | none =>
    have hend : ¬ g.readPointer.toNat < (st.file path).length :=
      Nat.not_lt.mpr (hat.length_le hparse)
    rw [decide_eq_false hend, Bool.not_false, if_pos rfl]
    refine ⟨[], 0, st₁.replied noMoreData, rfl, htouch₁.trans (touched_client _ _ _ _),
      .inl ⟨rfl, rfl, hsel₁.withClient _, ?_⟩⟩
    rw [replied, hclient₁]
  | some d =>
    obtain ⟨hlt, hle⟩ := FrameFormat.lt_length_of_parseAt hparse
    have hvalid := (FrameFormat.parseAt_eq_some_iff.mp hparse).2.1
    have hmoreData : g.readPointer.toNat < (st.file path).length := Nat.lt_of_lt_of_le hlt hle
    rw [decide_eq_true hmoreData, Bool.not_true, if_neg Bool.false_ne_true]
    have hfaults₁ : st₁.world.faults = [] := List.suffix_nil.mp (h.faults ▸
      storageRelation_faults.session.keeps_onTopic th (looks_groupHasMoreData g).unsaving hmore)
    obtain ⟨t₁, ht₁, hsteady₁⟩ := (h.of_touched htouch₁ hsel₁ hfaults₁).steady
    obtain ⟨m, hm, -, hclient, hexec⟩ := hsteady₁.exec_consumePacket h.attached
    have hfile₁ : (st₁.machine t₁.chunkHandle).file path = st.file path := htouch₁.file path
    rw [hfile₁, hparse] at hexec
    have hfs : m.fs = st₁.world.fs := Machine.exec_readsOnly_fs (looks_consumePacket g th).readsOnly
      hexec
    obtain ⟨st₂, hrun, hsel₂, htouch₂, hclient₂⟩ := hsel₁.run_onGroup
      (f := fun g => consumePacket g th) ht₁ hexec hm.onTopic hfs
      (hm.chunk.trans hsteady₁.chunk.symm) h.attached
    have hsame : st₂.client = st.client := hclient₂.trans (hclient.trans hclient₁)
    obtain ⟨r, client, hsend⟩ := onlyTalks_sendPacketToConsumer d (st₂.machine none)
    refine ⟨[⟨packetAt g d, r, none⟩], r, { st₂ with client := client }, ?_,
      (htouch₁.trans htouch₂).trans (touched_client _ _ _ _),
      .inr ⟨d, rfl, rfl, hsel₂.withClient _, fun hreliable => ?_⟩⟩
    · rw [SessionM.bind_of_eq_some hrun]
      exact SessionM.bind_of_eq_some (SessionM.detached_eq_some_iff.mpr ⟨_, hsend, rfl, rfl⟩)
    · have hclient₃ : (st₂.machine none).client = st.client := hsame
      have hwhole := exec_sendPacketToConsumer_of_reliable (hclient₃.symm ▸ hreliable) hvalid
      obtain ⟨-, hend⟩ := Prod.mk.inj (Option.some.inj (hsend.symm.trans hwhole))
      rw [hclient₃] at hend
      exact congrArg Machine.client hend

end SessionState

/-! ### Turns as operations on the log -/

/-- The bytes that answer a reader which takes the next event. -/
def wireAnswer : EventResult Bytes → Bytes
  | .event (some e) => wireFormat.frame e.2
  | .event none => noMoreData
  | _ => []

theorem valid_of_mem_publishedTo {path x : Bytes} {actions : List ApiAction}
    (h : x ∈ actions.flatMap (publishedTo path)) : topicFormat.Valid x := by
  obtain ⟨action, -, hx⟩ := List.mem_flatMap.mp h
  cases action with
  | create topicName basePath => cases hx
  | publish topicName data =>
    rw [publishedTo] at hx
    split_ifs at hx with hand
    · rw [List.mem_singleton.mp hx]
      exact hand.2
    · cases hx

theorem Server.reads_update {s : Server} {i gh th : ℕ} {st' : SessionState} {g : Group}
    {path : Bytes} (hsel : st'.Selected gh th g path) :
    (s.update i st').Reads i gh th g path := by
  refine ⟨?_, fun t ht => hsel.onTopic ht⟩
  rw [view_update_self]
  exact ⟨hsel.group, hsel.topic, hsel.object, hsel.attached⟩

namespace Daemon

/-- The operation on the log that a turn is. A command of the session takes the next event, and any
other turn adds the events that it publishes. -/
def logOp (i : ℕ) (path : Bytes) (op : DaemonOp) (r : DaemonResult) : EventOp Unit Bytes :=
  if op.commandOf i then .next () else .batch (r.actions.flatMap (publishedTo path)) true

/-- The operations on the log that the turns of a run are. -/
def logOps (i : ℕ) (path : Bytes) (d : Daemon) (ops : List DaemonOp) : List (EventOp Unit Bytes) :=
  (trace Daemon.step d ops).map fun x => logOp i path x.op x.result

/-- The file holds the events of the log, and the read pointer of the group of the session is at the
position of the reader. Storage and allocation succeed. -/
structure Presents (d : Daemon) (i : ℕ) (path : Bytes) (e : EventLog Unit Bytes) : Prop where
  steadfast : d.server.Steadfast
  faults : d.server.world.faults = []
  file : d.fs.read path = some (topicFormat.stream e.events)
  staged : e.staged = []
  valid : ∀ x ∈ e.events, topicFormat.Valid x
  reader : ∃ gh th g, d.server.Reads i gh th g path ∧
    (d.server.world.topics.get th).map (·.chunkHandle.isSome) = some true ∧
    g.readPointer.toNat = topicFormat.start e.events (e.position ())

variable {d d' : Daemon} {i : ℕ} {path : Bytes} {e : EventLog Unit Bytes} {op : DaemonOp}
  {r : DaemonResult}

/-- A turn that adds events and does not concern the group of the session. -/
theorem Presents.add (h : d.Presents i path e) (hstep : d.step op = some (r, d'))
    (hfits : ∀ topicName data, ApiAction.publish topicName data ∈ r.actions →
      d.fs.Fits topicName)
    (hreader : ∀ gh th g, d.server.Reads i gh th g path → d'.server.Reads i gh th g path ∧
      d'.server.world.topics.get th = d.server.world.topics.get th) :
    d'.Presents i path (e.add (r.actions.flatMap (publishedTo path))) := by
  obtain ⟨hfaults, hadded⟩ := accounts_step h.faults hstep hfits
  obtain ⟨gh, th, g, hreads, hopen, hposition⟩ := h.reader
  obtain ⟨hreads', hsame⟩ := hreader gh th g hreads
  have hevents : (e.add (r.actions.flatMap (publishedTo path))).events =
      e.events ++ r.actions.flatMap (publishedTo path) := by
    rw [EventLog.events_add, EventLog.all, h.staged, List.append_nil]
  refine ⟨steadfast_step h.steadfast hstep, hfaults, ?_, rfl, fun x hx => ?_,
    ⟨gh, th, g, hreads', hsame ▸ hopen, ?_⟩⟩
  · have hadded := hadded path
    rw [h.file] at hadded
    rw [hevents, FrameFormat.stream_append]
    rcases hadded with ⟨hkept, hnil⟩ | hgrown
    · rw [show r.actions.flatMap (publishedTo path) = [] from hnil, FrameFormat.stream_nil,
        List.append_nil]
      exact hkept
    · exact hgrown
  · rw [hevents] at hx
    exact (List.mem_append.mp hx).elim (h.valid x) valid_of_mem_publishedTo
  · rw [hevents, hposition]
    exact (FrameFormat.start_append_of_le (e.position_le ())).symm

/-- A turn that is no command of the session leaves its topic and its group alone. -/
theorem reads_step_of_ne (hsteadfast : d.server.Steadfast) {gh th : ℕ} {g : Group}
    (hreads : d.server.Reads i gh th g path) (hop : op.onlyConsumes i = true)
    (hcommand : ¬ op.commandOf i = true) (hstep : d.step op = some (r, d')) :
    d'.server.Reads i gh th g path ∧
      d'.server.world.topics.get th = d.server.world.topics.get th := by
  cases op with
  | http request url method uploadData =>
    obtain ⟨ret, st, -, -, rfl⟩ := step_http_eq_some_iff.mp hstep
    have hhas := hreads.has
    exact ⟨⟨⟨hhas.group, hhas.topic, hhas.object, hhas.attached⟩, hreads.on⟩, rfl⟩
  | goodbye j =>
    have hj : i ≠ j := fun heq => of_decide_eq_true hop heq.symm
    obtain ⟨-, rfl⟩ := Prod.mk.inj (Option.some.inj hstep)
    exact ⟨hreads.update_of_ne hsteadfast.owned (SessionState.idle_replied _ _).confined hj, rfl⟩
  | socket op =>
    obtain ⟨⟨r', s'⟩, hrun, heq⟩ := Option.map_eq_some_iff.mp hstep
    obtain ⟨-, rfl⟩ := Prod.mk.inj heq
    have hne : i ≠ op.session := by
      rintro rfl
      cases op with
      | disconnect j => exact of_decide_eq_true hop rfl
      | command j text => exact hcommand (decide_eq_true rfl)
    exact ⟨hreads.step_of_ne hsteadfast.owned hrun hne,
      hsteadfast.topic_step_of_ne hrun hne hreads.has.topic⟩

/-- A session with a group of the log has a steady selection. -/
theorem Presents.steadyOn (h : d.Presents i path e)
    (hsmall : ((d.fs.read path).getD []).length < 2 ^ 63) {gh th : ℕ} {g : Group}
    (hreads : d.server.Reads i gh th g path)
    (hopen : (d.server.world.topics.get th).map (·.chunkHandle.isSome) = some true) :
    (d.server.view i).SteadyOn gh th g path := by
  obtain ⟨t, ht, hchunk⟩ := Option.map_eq_some_iff.mp hopen
  have hon := hreads.on t ht
  exact ⟨⟨hreads.has.group, hreads.has.topic, hreads.has.object, hreads.has.attached, t, ht, hon⟩,
    t, ht, hon, hchunk, h.faults, hsmall⟩

/-- `CONSUME` takes the next event of the log, and the client gets the answer of the log. -/
theorem Presents.consume (h : d.Presents i path e)
    (hsmall : ((d.fs.read path).getD []).length < 2 ^ 63) {text : Bytes}
    (htext : startsWith commandConsume text = true)
    (hstep : d.step (.socket (.command i text)) = some (r, d')) :
    d'.Presents i path (e.step (.next ())).2 ∧
      r.packets.map Packet.data = e.events[e.position ()]?.toList ∧
      ((d.server.clients i).Reliable → (d'.server.clients i).wire =
        (d.server.clients i).wire ++ wireAnswer (e.step (.next ())).1) := by
  obtain ⟨gh, th, g, hreads, hopen, hposition⟩ := h.reader
  have hsteady := h.steadyOn hsmall hreads hopen
  have hcontent : (d.server.view i).file path = topicFormat.stream e.events :=
    congrArg (Option.getD · []) h.file
  have hparse : topicFormat.parseAt ((d.server.view i).file path) g.readPointer.toNat =
      e.events[e.position ()]? := by
    rw [hcontent, hposition]
    exact FrameFormat.parseAt_start_eq h.valid (e.position_le ())
  obtain ⟨record, r', st', hrun, htouch, hcases⟩ := hsteady.run_recordedConsume
    ⟨e.events, h.valid, hcontent.symm, e.position (), e.position_le (), hposition⟩
  rw [hparse] at hcases
  have hstep' : d.step (.socket (.command i text)) =
      some (.socket record r', { d with server := d.server.update i st' }) := by
    simp only [step, Server.step, recordedCommand, htext, ↓reduceIte, hrun, Option.map_some]
  obtain ⟨rfl, rfl⟩ := Prod.mk.inj (Option.some.inj (hstep.symm.trans hstep'))
  -- What is left is the read pointer of the group.
  have hpresents {g' : Group} (hsel : st'.Selected gh th g' path)
      (hnext : g'.readPointer.toNat = topicFormat.start e.events
        (min (e.position () + 1) e.events.length)) :
      Presents { d with server := d.server.update i st' } i path (e.step (.next ())).2 := by
    refine ⟨steadfast_step h.steadfast hstep, (accounts_step h.faults hstep fun _ _ hmem =>
      absurd hmem List.not_mem_nil).1, ?_, rfl, h.valid, gh, th, g', Server.reads_update hsel,
      htouch.chunk.trans hopen, hnext⟩
    exact (congrArg (FileSystem.read · path) htouch.fs).trans h.file
  have hclient : (d.server.update i st').clients i = st'.client := Function.update_self ..
  rcases hcases with ⟨hnone, rfl, hsel, hsent⟩ | ⟨x, hx, rfl, hsel, hsent⟩
  · have hend := List.getElem?_eq_none_iff.mp hnone
    have hle := e.position_le ()
    refine ⟨hpresents hsel ?_, by rw [hnone]; rfl, fun hreliable => ?_⟩
    · rw [hposition, Nat.min_eq_right (by omega), Nat.le_antisymm hle hend]
    · have hreliable' : (d.server.view i).client.Reliable := hreliable
      rw [hclient, hsent, hreliable'.send, EventLog.step, hnone]
      rfl
  · obtain ⟨hlt, hget⟩ := List.getElem?_eq_some_iff.mp hx
    refine ⟨hpresents hsel ?_, by rw [hx]; rfl, fun hreliable => ?_⟩
    · rw [toNat_readPointer_afterPacket hsteady.small (hparse.trans hx), hposition,
        Nat.min_eq_left hlt, FrameFormat.start_succ hlt, hget, topicFormat_headerLen]
    · rw [hclient, hsent hreliable, EventLog.step, hx]
      exact List.append_assoc _ _ _

/-- A turn goes as its operation on the log. The session is handed the event that the reader takes,
and its client is answered as the log says. -/
theorem Presents.step (h : d.Presents i path e) (hop : op.onlyConsumes i = true)
    (hsmall : ((d.fs.read path).getD []).length < 2 ^ 63)
    (hfits : ∀ topicName data, ApiAction.publish topicName data ∈ r.actions →
      d.fs.Fits topicName)
    (hstep : d.step op = some (r, d')) :
    d'.Presents i path (e.step (logOp i path op r)).2 ∧
      (if op.commandOf i then r.packets else []).map Packet.data =
        ((EventLog.takes () ⟨e, logOp i path op r, (e.step (logOp i path op r)).1,
          (e.step (logOp i path op r)).2⟩).map Prod.snd).toList ∧
      ((d.server.clients i).Reliable → (d'.server.clients i).Reliable ∧
        (d'.server.clients i).wire =
          (d.server.clients i).wire ++ wireAnswer (e.step (logOp i path op r)).1) := by
  have hclient := client_step (i := i) h.steadfast.owned hstep
  by_cases hcommand : op.commandOf i = true
  · rw [if_pos hcommand] at hclient
    rw [logOp, if_pos hcommand, if_pos hcommand]
    obtain ⟨text, rfl, htext⟩ : ∃ text, op = .socket (.command i text) ∧
        startsWith commandConsume text = true := by
      cases op with
      | http => exact absurd hcommand Bool.false_ne_true
      | goodbye j => exact absurd (of_decide_eq_true hcommand) (of_decide_eq_true hop)
      | socket op => cases op with
        | disconnect j => exact absurd hcommand Bool.false_ne_true
        | command j text =>
          obtain rfl : j = i := of_decide_eq_true hcommand
          exact ⟨text, rfl, by simpa [DaemonOp.onlyConsumes] using hop⟩
    obtain ⟨hpresents, hpackets, hwire⟩ := h.consume hsmall htext hstep
    refine ⟨hpresents, ?_, fun hreliable => ⟨(hclient hreliable).1, hwire hreliable⟩⟩
    simp only [hpackets, EventLog.takes, EventLog.step, ↓reduceIte]
    cases e.events[e.position ()]? <;> rfl
  · rw [if_neg hcommand] at hclient
    rw [logOp, if_neg hcommand, if_neg hcommand]
    refine ⟨h.add hstep hfits fun gh th g hreads => ?_, rfl, fun hreliable => ?_⟩
    · exact reads_step_of_ne h.steadfast hreads hop hcommand hstep
    · rw [hclient]
      exact ⟨hreliable, (List.append_nil _).symm⟩

/-- While storage and allocation succeed, the program is an event log for a session that consumes.
Whatever the other sessions and the requests do, every event that is published to the topic is added
to the log, the session is handed the events that the reader of the log takes, and a client that
takes all bytes receives the answers of the log and nothing else. -/
theorem serves_eventLog (h : d.Presents i path e) {ops : List DaemonOp}
    (hops : ∀ op ∈ ops, op.onlyConsumes i = true)
    (hsmall : (((runEnd Daemon.step d ops).fs.read path).getD []).length < 2 ^ 63)
    (hfits : ∀ topicName data, ApiAction.publish topicName data ∈ d.calls ops →
      (runEnd Daemon.step d ops).fs.Fits topicName) :
    (runEnd Daemon.step d ops).Presents i path
        (runEnd EventLog.perform e (logOps i path d ops)) ∧
      (handed i d ops).map Packet.data =
        (EventLog.taken () e (logOps i path d ops)).map Prod.snd ∧
      ((d.server.clients i).Reliable →
        ((runEnd Daemon.step d ops).server.clients i).wire = (d.server.clients i).wire ++
          (trace EventLog.perform e (logOps i path d ops)).flatMap
            fun x => wireAnswer x.result) := by
  induction ops generalizing d e with
  | nil => exact ⟨h, rfl, fun _ => (List.append_nil _).symm⟩
  | cons op ops ih =>
    cases hstep : d.step op with
    | none =>
      simp only [logOps, handed, trace, runEnd, hstep]
      exact ⟨h, rfl, fun _ => (List.append_nil _).symm⟩
    | some rd =>
      obtain ⟨r, d'⟩ := rd
      obtain ⟨hop, hops⟩ := List.forall_mem_cons.mp hops
      have hcalls : d.calls (op :: ops) = r.actions ++ d'.calls ops := by
        rw [calls, trace_cons_of_some hstep, List.flatMap_cons, calls]
      have hlog : logOps i path d (op :: ops) = logOp i path op r :: logOps i path d' ops := by
        rw [logOps, trace_cons_of_some hstep, List.map_cons, logOps]
      have hgrown : d.fs.Grows (runEnd Daemon.step d' ops).fs :=
        (FileSystem.storageRelation_grows.step hstep).trans
          (FileSystem.storageRelation_grows.run d' ops)
      rw [hcalls, runEnd_cons_of_some hstep] at hfits
      rw [runEnd_cons_of_some hstep] at hsmall
      obtain ⟨hpresents, hpackets, hwire⟩ := h.step hop
        (Nat.lt_of_le_of_lt (hgrown.getD_read path).length_le hsmall)
        (fun topicName data hmem =>
          fits_of_grows hgrown (hfits topicName data (List.mem_append_left _ hmem))) hstep
      obtain ⟨hend, htaken, hwires⟩ := ih hpresents hops hsmall fun topicName data hmem =>
        hfits topicName data (List.mem_append_right _ hmem)
      rw [runEnd_cons_of_some hstep, hlog, handed_cons_of_some hstep, EventLog.runEnd_perform_cons,
        EventLog.trace_perform_cons, List.flatMap_cons, List.map_append, hpackets, htaken]
      refine ⟨hend, ?_, fun hreliable => ?_⟩
      · rw [EventLog.taken, EventLog.taken, EventLog.trace_perform_cons, List.filterMap_cons]
        split <;> rename_i heq <;> rw [heq] <;> rfl
      · obtain ⟨hreliable', hfirst⟩ := hwire hreliable
        rw [hwires hreliable', hfirst, List.append_assoc]

/-- The log that the session in the sample reads. -/
def sampleTopicLog : EventLog Unit Bytes := ⟨[ascii "a"], [], fun _ => 0, fun _ => Nat.zero_le _⟩

theorem presents_sampleReader :
    sampleReader.Presents 0 (ascii "./topics/t.topic") sampleTopicLog := by
  refine ⟨steadfast_run (Server.steadfast_start _ (fun _ ho => absurd ho List.not_mem_nil) _) _,
    by decide +kernel, by decide +kernel, rfl, fun x hx => ?_,
    ⟨0, 0, _, reads_sampleReader, by decide +kernel, rfl⟩⟩
  rw [List.mem_singleton.mp hx]
  decide

theorem calls_sampleReader :
    sampleReader.calls (sampleTurns.drop 2) = [.publish (ascii "t") (ascii "d")] := by
  decide +kernel

theorem serves_eventLog_sample :
    (runEnd Daemon.step sampleReader (sampleTurns.drop 2)).Presents 0 (ascii "./topics/t.topic")
        (runEnd EventLog.perform sampleTopicLog
          (logOps 0 (ascii "./topics/t.topic") sampleReader (sampleTurns.drop 2))) ∧
      (handed 0 sampleReader (sampleTurns.drop 2)).map Packet.data =
        (EventLog.taken () sampleTopicLog
          (logOps 0 (ascii "./topics/t.topic") sampleReader (sampleTurns.drop 2))).map Prod.snd ∧
      ((sampleReader.server.clients 0).Reliable →
        ((runEnd Daemon.step sampleReader (sampleTurns.drop 2)).server.clients 0).wire =
          (sampleReader.server.clients 0).wire ++ (trace EventLog.perform sampleTopicLog
            (logOps 0 (ascii "./topics/t.topic") sampleReader (sampleTurns.drop 2))).flatMap
              fun x => wireAnswer x.result) := by
  refine serves_eventLog presents_sampleReader (by decide) (by decide +kernel)
    fun topicName data hmem => ?_
  rw [calls_sampleReader, List.mem_singleton] at hmem
  obtain ⟨rfl, rfl⟩ := ApiAction.publish.inj hmem
  exact ⟨by decide, by decide +kernel⟩

end Daemon

end SuparnaD

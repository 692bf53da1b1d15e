import SuparnaD.Daemon.Replies

/-!
# Consuming while others publish

A session that has selected a group and then only consumes is handed the packets of its topic file
one after the other, in the order of the file, from the read pointer of the group on. Other sessions
and the publish requests that make the file grow in the meantime do not disturb it, and no fault of
the storage makes it miss a packet or see one twice.

## Main definitions

* `Server.Reads` : a session has a group on the topic of a file.
* `DaemonOp.onlyConsumes` : the turn is none of the session, or its `CONSUME`.
* `Daemon.handed` : the packets that a run hands out to a session.

## Main results

* `Server.Reads.step_of_ne`, `Server.Reads.consume` : what a turn does to the group.
* `Daemon.consumes_in_order`.
-/

namespace SuparnaD

open SessionState

/-! ### A session with a group -/

namespace Server

/-- The session has a group on a topic, and the topic is that of the file at the path. -/
structure Reads (s : Server) (i gh th : ℕ) (g : Group) (path : Bytes) : Prop where
  has : (s.view i).HasGroup gh th g
  on : ∀ t, s.world.topics.get th = some t → t.On path

variable {s s' : Server} {i j gh th : ℕ} {g : Group} {path : Bytes} {st' : SessionState}

theorem Owned.reads (h : s.Owned) (hhas : (s.view i).HasGroup gh th g)
    (hpath : ((s.world.topics.get th).bind TopicObject.chunkHandle).map Chunk.filePath =
      some path) : s.Reads i gh th g path := by
  refine ⟨hhas, fun t ht c hc => ?_⟩
  obtain ⟨path', hon⟩ := h.sound th t ht
  obtain ⟨rfl, hwf⟩ := hon c hc
  rw [ht, Option.bind_some, hc, Option.map_some] at hpath
  exact ⟨Option.some.inj hpath, hwf⟩

/-- No command moves the topic to another file. -/
theorem Reads.on_of_confined (h : s.Reads i gh th g path) (howned : s.Owned)
    (hconfined : (s.view j).Confined st') {t' : TopicObject}
    (ht' : st'.world.topics.get th = some t') : t'.On path := by
  rcases hconfined.topics th t' ht' with ⟨t, ht, hon⟩ | ⟨hfresh, -⟩
  · exact hon path (h.on t ht)
  · exact absurd ((howned.bounded i).topic th h.has.topic) (Nat.not_lt.mpr hfresh)

/-- The turn of another session. -/
theorem Reads.update_of_ne (h : s.Reads i gh th g path) (howned : s.Owned)
    (hconfined : (s.view j).Confined st') (hne : i ≠ j) :
    (s.update j st').Reads i gh th g path := by
  refine ⟨?_, fun t' ht' => h.on_of_confined howned hconfined ht'⟩
  rw [view_update_of_ne hne]
  exact ⟨h.has.group, h.has.topic, (howned.get_of_ne hconfined hne h.has.group).trans h.has.object,
    h.has.attached⟩

theorem Reads.step_of_ne (h : s.Reads i gh th g path) (howned : s.Owned) {op : ServerOp}
    {r : List Attempt × ℤ} (hstep : s.step op = some (r, s')) (hne : i ≠ op.session) :
    s'.Reads i gh th g path := by
  cases op with
  | command j text =>
    obtain ⟨⟨_, st'⟩, hrun, heq⟩ := Option.map_eq_some_iff.mp hstep
    rw [← (Prod.mk.inj heq).2]
    exact h.update_of_ne howned
      (keepsToOwn_recordedCommand howned.sound (howned.bounded j) hrun).confined hne
  | disconnect j =>
    obtain ⟨⟨_, st'⟩, hrun, heq⟩ := Option.map_eq_some_iff.mp hstep
    rw [← (Prod.mk.inj heq).2]
    exact h.update_of_ne howned (selectsAnew_clientSessionFree [] hrun).confined hne

/-- `CONSUME` hands out the packet at the read pointer and moves behind it, or does nothing to the
group. -/
theorem Reads.consume (h : s.Reads i gh th g path) (howned : s.Owned) {text : Bytes}
    (htext : startsWith commandConsume text = true) {r : List Attempt × ℤ}
    (hstep : s.step (.command i text) = some (r, s')) :
    r.1 = [] ∧ s'.Reads i gh th g path ∨
      ∃ d, r.1.map Attempt.packet = [packetAt g d] ∧ s'.Reads i gh th (afterPacket g d) path ∧
        topicFormat.parseAt ((s.view i).file path) g.readPointer.toNat = some d ∧
        ((s.view i).file path).length < 2 ^ 63 := by
  obtain ⟨⟨⟨record, result⟩, st'⟩, hrun, heq⟩ := Option.map_eq_some_iff.mp hstep
  obtain ⟨rfl, rfl⟩ := Prod.mk.inj heq
  have hon (hconfined : (s.view i).Confined st') (t' : TopicObject)
      (ht' : (s.update i st').world.topics.get th = some t') : t'.On path :=
    h.on_of_confined howned hconfined ht'
  rw [recordedCommand, if_pos htext] at hrun
  rcases consume_cases howned.sound hrun with ⟨hidle, rfl⟩ | ⟨gh', th', g', d, hout⟩
  · refine .inl ⟨rfl, ⟨?_, hon hidle.confined⟩⟩
    rw [view_update_self]
    exact ⟨hidle.session ▸ h.has.group, hidle.session ▸ h.has.topic,
      (hidle.groups gh).trans h.has.object, h.has.attached⟩
  · obtain rfl := Option.some.inj (h.has.group.symm.trans hout.has.group)
    obtain rfl := Option.some.inj (h.has.topic.symm.trans hout.has.topic)
    obtain rfl := Option.some.inj (h.has.object.symm.trans hout.has.object)
    obtain ⟨t, ht⟩ := hout.live
    obtain ⟨result', rfl⟩ := hout.record
    refine .inr ⟨d, rfl, ⟨?_, hon hout.confined⟩, hout.packet t ht path (h.on t ht)⟩
    rw [view_update_self]
    exact ⟨hout.session ▸ h.has.group, hout.session ▸ h.has.topic, hout.object', h.has.attached⟩

end Server

/-! ### Runs -/

/-- The turn does not concern the session, or it is its `CONSUME`. -/
def DaemonOp.onlyConsumes (i : ℕ) : DaemonOp → Bool
  | .socket (.command j text) => decide (j ≠ i) || startsWith commandConsume text
  | .socket (.disconnect j) | .goodbye j => decide (j ≠ i)
  | .http _ _ _ _ => true

/-- What is in a file is still there when the files have grown. -/
theorem FileSystem.Grows.getD_read {fs fs' : FileSystem} (h : fs.Grows fs') (path : Bytes) :
    (fs.read path).getD [] <+: (fs'.read path).getD [] := by
  cases hfile : fs.read path with
  | none => exact List.nil_prefix
  | some content =>
    obtain ⟨more, hmore⟩ := h.files _ content hfile
    rw [show fs'.read path = _ from hmore]
    exact List.prefix_append content more

namespace Daemon

variable {d d' : Daemon} {i gh th : ℕ} {g : Group} {path : Bytes} {op : DaemonOp}
  {r : DaemonResult}

/-- The packets that the commands of a session are handed in a run. -/
def handed (i : ℕ) (d : Daemon) (ops : List DaemonOp) : List Packet :=
  ((trace Daemon.step d ops).filter fun x => x.op.commandOf i).flatMap fun x => x.result.packets

theorem handed_cons_of_some (hstep : d.step op = some (r, d')) (ops : List DaemonOp) :
    handed i d (op :: ops) =
      (if op.commandOf i then r.packets else []) ++ handed i d' ops := by
  rw [handed, trace_cons_of_some hstep, List.filter_cons]
  split
  · rw [List.flatMap_cons, handed]
  · rw [List.nil_append, handed]

/-- A turn moves the group of the session behind the packet that it hands out to it. -/
theorem reads_step (h : d.server.Reads i gh th g path) (howned : d.server.Owned)
    (hop : op.onlyConsumes i = true) (hstep : d.step op = some (r, d')) :
    (if op.commandOf i then r.packets else []) = [] ∧ d'.server.Reads i gh th g path ∨
      ∃ data, (if op.commandOf i then r.packets else []) = [packetAt g data] ∧
        d'.server.Reads i gh th (afterPacket g data) path ∧
        topicFormat.parseAt ((d.fs.read path).getD []) g.readPointer.toNat = some data ∧
        ((d.fs.read path).getD []).length < 2 ^ 63 := by
  cases op with
  | http request url method uploadData =>
    obtain ⟨ret, st, -, -, rfl⟩ := step_http_eq_some_iff.mp hstep
    exact .inl ⟨rfl, ⟨⟨h.has.group, h.has.topic, h.has.object, h.has.attached⟩, h.on⟩⟩
  | goodbye j =>
    have hj : i ≠ j := fun heq => of_decide_eq_true hop heq.symm
    obtain ⟨rfl, rfl⟩ := Prod.mk.inj (Option.some.inj hstep)
    exact .inl ⟨ite_self _, h.update_of_ne howned (SessionState.idle_replied _ _).confined hj⟩
  | socket op =>
    obtain ⟨⟨r', s'⟩, hrun, heq⟩ := Option.map_eq_some_iff.mp hstep
    obtain ⟨rfl, rfl⟩ := Prod.mk.inj heq
    cases op with
    | disconnect j =>
      exact .inl ⟨rfl, h.step_of_ne howned hrun fun heq => of_decide_eq_true hop heq.symm⟩
    | command j text =>
      by_cases hj : j = i
      · subst hj
        have htext : startsWith commandConsume text = true := by
          simpa [DaemonOp.onlyConsumes] using hop
        simp only [DaemonOp.commandOf, decide_true, ↓reduceIte]
        rcases h.consume howned htext hrun with ⟨hnil, hreads⟩ | hout
        · exact .inl ⟨congrArg (List.map Attempt.packet) hnil, hreads⟩
        · exact .inr hout
      · simp only [DaemonOp.commandOf, hj, decide_false, Bool.false_eq_true, ↓reduceIte]
        exact .inl ⟨trivial, h.step_of_ne howned hrun fun heq => hj heq.symm⟩

/-- A session that only consumes is handed the packets of the file at the end of the run, each at
its offset, one after the other and from its read pointer on. -/
theorem consumes_in_order (howned : d.server.Owned) (h : d.server.Reads i gh th g path)
    {ops : List DaemonOp} (hops : ∀ op ∈ ops, op.onlyConsumes i = true) :
    (handed i d ops).map (fun p => (p.offsetInTopic.toNat, p.data)) <+:
      topicFormat.frames (((runEnd Daemon.step d ops).fs.read path).getD [])
        g.readPointer.toNat := by
  induction ops generalizing d g with
  | nil => exact List.nil_prefix
  | cons op ops ih =>
    cases hstep : d.step op with
    | none =>
      simp only [handed, trace, hstep]
      exact List.nil_prefix
    | some rd =>
      obtain ⟨r, d'⟩ := rd
      obtain ⟨hop, hops⟩ := List.forall_mem_cons.mp hops
      have howned' := owned_step howned hstep
      rw [handed_cons_of_some hstep, runEnd_cons_of_some hstep, List.map_append]
      rcases reads_step h howned hop hstep with
        ⟨hnil, hreads⟩ | ⟨data, hpacket, hreads, hparse, hsmall⟩
      · rw [hnil]
        exact ih howned' hreads hops
      · have hgrown : d.fs.Grows (runEnd Daemon.step d' ops).fs :=
          (FileSystem.storageRelation_grows.step hstep).trans
            (FileSystem.storageRelation_grows.run d' ops)
        have hrest := ih howned' hreads hops
        rw [toNat_readPointer_afterPacket hsmall hparse] at hrest
        rw [hpacket, FrameFormat.frames_of_some
          (FrameFormat.parseAt_of_isPrefix hparse (hgrown.getD_read path))]
        exact (List.prefix_cons_inj _).mpr hrest

/-- The session after it has selected its topic and its group. -/
def sampleReader : Daemon := runEnd Daemon.step sampleTopic (sampleTurns.take 2)

theorem owned_sampleReader : sampleReader.server.Owned :=
  owned_run (Server.owned_start _ _ _) _

theorem reads_sampleReader :
    sampleReader.server.Reads 0 0 0 ⟨ascii "g", 0, 0, 0⟩ (ascii "./topics/t.topic") :=
  owned_sampleReader.reads ⟨by decide +kernel, by decide +kernel, by decide +kernel, rfl⟩
    (by decide +kernel)

theorem consumes_in_order_sample :
    (handed 0 sampleReader (sampleTurns.drop 2)).map (fun p => (p.offsetInTopic.toNat, p.data)) <+:
      topicFormat.frames (((runEnd Daemon.step sampleReader (sampleTurns.drop 2)).fs.read
        (ascii "./topics/t.topic")).getD []) (0 : UInt64).toNat :=
  consumes_in_order owned_sampleReader reads_sampleReader (by decide)

end Daemon

end SuparnaD

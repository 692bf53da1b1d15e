import Mathlib.Data.List.Nodup
import SuparnaD.Socket.Server

/-!
# One read pointer for each group

The state of a consumer group should belong to the topic and the group id, whatever sessions select
them. In the code each selection makes a new group at the start of the topic, and each session moves
its own. So a group has one read pointer, and is handed no packet twice, as long as one session at a
time has selected it when it is handed a packet, and it is not selected again after it has moved.
The sessions of one group never move another.

## Main definitions

* `GroupLedger` : a server with the pointers of the groups and what they have been delivered.
* `GroupLedger.Shared` : one pointer for each group and nothing delivered twice.
* `GroupLedger.Independent` : a turn does not move the other groups.
* `GroupLedger.Meets`.

## Main results

* `GroupLedger.Tracked.step` : what one turn keeps.
* `GroupLedger.independent_of_mem_trace` : groups are independent in every run.
* `GroupLedger.shared_of_meets`.
-/

namespace SuparnaD

/-- A server together with what its consumer groups are meant to have done. A group is named by its
topic and its id. -/
structure GroupLedger where
  /-- The server. -/
  server : Server
  /-- Where the last command on each group has left it. -/
  pointers : Bytes × Bytes → UInt64
  /-- The offsets of the packets sent to each group. -/
  delivered : List ((Bytes × Bytes) × UInt64)

namespace GroupLedger

/-- What a session has selected. -/
def selection (l : GroupLedger) (i : ℕ) : Option ((Bytes × Bytes) × Group) :=
  (l.server.view i).selection

/-- `CONSUME` leaves the group of the session where the session now has it. -/
def pointersAfter (l : GroupLedger) (s' : Server) : ServerOp → Bytes × Bytes → UInt64
  | .command i text =>
    match startsWith commandConsume text, (s'.view i).selection with
    | true, some (k, g) => Function.update l.pointers k g.readPointer
    | _, _ => l.pointers
  | .disconnect _ => l.pointers

/-- The packets that were sent. -/
def sentTo (selected : Option ((Bytes × Bytes) × Group)) (record : List Attempt) :
    List ((Bytes × Bytes) × UInt64) :=
  match selected with
  | none => []
  | some (k, _) =>
    (record.filter fun a => a.sendResult = 0).map fun a => (k, a.packet.offsetInTopic)

/-- One turn of one session. -/
def step (l : GroupLedger) (op : ServerOp) : Option (ℤ × GroupLedger) :=
  (l.server.step op).map fun r => (r.1.2, {
    server := r.2
    pointers := l.pointersAfter r.2 op
    delivered := l.delivered ++ sentTo (l.selection op.session) r.1.1 })

/-- All sessions that have selected a group have its pointer, and no packet was delivered to a group
twice. -/
structure Shared (l : GroupLedger) : Prop where
  onePointer : ∀ i k g, l.selection i = some (k, g) → g.readPointer = l.pointers k
  nodup : l.delivered.Nodup

/-- The turn of a session does not move the groups that other sessions have selected, unless it is
the same group. -/
def Independent (e : RunStep GroupLedger ServerOp ℤ) : Prop :=
  ∀ j k g, j ≠ e.op.session → e.before.selection j = some (k, g) →
    (e.before.selection e.op.session).map Prod.fst ≠ some k → e.after.selection j = some (k, g)

/-- The file of the topic has no packet at the read pointer of the group. -/
def AtEnd (l : GroupLedger) (g : Group) : Prop :=
  ∃ t path, l.server.world.topics.get g.attachedTopic = some t ∧ t.On path ∧
    topicFormat.parseAt ((l.server.world.fs.read path).getD []) g.readPointer.toNat = none

/-- The topic and the group that the turn selects, if it succeeds. -/
def selects (l : GroupLedger) : ServerOp → Option (Bytes × Bytes)
  | .command i text => (l.server.view i).selects text
  | .disconnect _ => none

/-- The turn is a `CONSUME`. -/
def IsConsume : ServerOp → Prop
  | .command _ text => startsWith commandConsume text = true
  | .disconnect _ => False

/-- A group is selected before it has moved, and it is handed a packet only when one session has
selected it. -/
structure Meets (l : GroupLedger) (op : ServerOp) : Prop where
  unmoved : ∀ k ∈ l.selects op, l.pointers k = 0
  sole : IsConsume op → ∀ j k g g', j ≠ op.session → l.selection op.session = some (k, g) →
    l.selection j = some (k, g') → l.AtEnd g

/-- The turns other than `ACK`. -/
def NoAck : ServerOp → Prop
  | .command _ text => startsWith commandAck text = false
  | .disconnect _ => True

instance : DecidablePred NoAck := fun op =>
  match op with
  | .command _ _ => inferInstanceAs (Decidable (_ = _))
  | .disconnect _ => inferInstanceAs (Decidable True)

/-- The invariant. -/
structure Tracked (l : GroupLedger) : Prop where
  owned : l.server.Owned
  shared : l.Shared
  before : ∀ k offset, (k, offset) ∈ l.delivered → offset < l.pointers k

variable {l l' : GroupLedger} {i : ℕ} {st' : SessionState} {g : Group} {record : List Attempt}

/-- The ledger after the turn of a session. -/
def turn (l : GroupLedger) (op : ServerOp) (s' : Server) (record : List Attempt) : GroupLedger where
  server := s'
  pointers := l.pointersAfter s' op
  delivered := l.delivered ++ sentTo (l.selection op.session) record

theorem step_eq_some_iff {op : ServerOp} {r : ℤ} : l.step op = some (r, l') ↔
    ∃ record s', l.server.step op = some ((record, r), s') ∧ l' = l.turn op s' record := by
  rw [step, Option.map_eq_some_iff]
  constructor
  · rintro ⟨⟨⟨record, r'⟩, s'⟩, hstep, heq⟩
    obtain ⟨rfl, rfl⟩ := Prod.mk.inj heq
    exact ⟨record, s', hstep, rfl⟩
  · rintro ⟨record, s', hstep, rfl⟩
    exact ⟨((record, r), s'), hstep, rfl⟩

/-- A turn that leaves the pointers and delivers nothing keeps the invariant, if what its session
has selected afterwards has the pointer of its group. -/
theorem Tracked.of_same_pointers (h : l.Tracked) (howned : l'.server.Owned)
    (hpointers : l'.pointers = l.pointers) (hdelivered : l'.delivered = l.delivered)
    (hothers : ∀ j, j ≠ i → l'.selection j = l.selection j)
    (hself : ∀ k g, l'.selection i = some (k, g) → g.readPointer = l.pointers k) :
    l'.Tracked := by
  refine ⟨howned, ⟨fun j k g hj => ?_, hdelivered ▸ h.shared.nodup⟩, fun k offset hmem => ?_⟩
  · rw [hpointers]
    by_cases hji : j = i
    · exact hself k g (hji ▸ hj)
    · exact h.shared.onePointer j k g (hothers j hji ▸ hj)
  · rw [hpointers]
    exact h.before k offset (hdelivered ▸ hmem)

/-- A turn that moves the group of its session over a packet keeps the invariant, if no other
session has selected this group. -/
theorem Tracked.of_moved (h : l.Tracked) (howned : l'.server.Owned) {k : Bytes × Bytes} {g' : Group}
    (hbefore : l.selection i = some (k, g)) (hafter : l'.selection i = some (k, g'))
    (hlt : g.readPointer < g'.readPointer)
    (hothers : ∀ j, j ≠ i → l'.selection j = l.selection j)
    (hsole : ∀ j g, j ≠ i → l.selection j ≠ some (k, g))
    (hpointers : l'.pointers = Function.update l.pointers k g'.readPointer)
    {sent : List ((Bytes × Bytes) × UInt64)} (hsent : sent = [] ∨ sent = [(k, g.readPointer)])
    (hdelivered : l'.delivered = l.delivered ++ sent) : l'.Tracked := by
  have hpointer := h.shared.onePointer i k g hbefore
  refine ⟨howned, ⟨fun j k' g₁ hj => ?_, ?_⟩, fun k' offset hmem => ?_⟩
  · rw [hpointers]
    by_cases hji : j = i
    · rw [hji, hafter] at hj
      obtain ⟨rfl, rfl⟩ := Prod.mk.inj (Option.some.inj hj)
      rw [Function.update_self]
    · rw [hothers j hji] at hj
      have hne : k' ≠ k := by
        rintro rfl
        exact hsole j g₁ hji hj
      rw [Function.update_of_ne hne]
      exact h.shared.onePointer j k' g₁ hj
  · rw [hdelivered]
    rcases hsent with rfl | rfl
    · rw [List.append_nil]
      exact h.shared.nodup
    · refine List.nodup_append.mpr ⟨h.shared.nodup, List.nodup_singleton _, ?_⟩
      rintro a ha b hb rfl
      rw [List.mem_singleton.mp hb] at ha
      have := h.before k g.readPointer ha
      rw [hpointer] at this
      exact absurd this (UInt64.lt_irrefl _)
  · rw [hpointers]
    rw [hdelivered, List.mem_append] at hmem
    by_cases hk : k' = k
    · subst hk
      rw [Function.update_self]
      rcases hmem with hmem | hmem
      · exact UInt64.lt_trans (hpointer ▸ h.before k' offset hmem) hlt
      · rcases hsent with rfl | rfl
        · cases hmem
        · obtain ⟨-, rfl⟩ := Prod.mk.inj (List.mem_singleton.mp hmem)
          exact hlt
    · rw [Function.update_of_ne hk]
      rcases hmem with hmem | hmem
      · exact h.before k' offset hmem
      · rcases hsent with rfl | rfl
        · cases hmem
        · exact absurd (Prod.mk.inj (List.mem_singleton.mp hmem)).1 hk

/-- `CONSUME` leaves the pointer that the group of the session has. -/
theorem pointersAfter_of_selection {s' : Server} {text : Bytes}
    (h : ∀ k g, (s'.view i).selection = some (k, g) → g.readPointer = l.pointers k) :
    l.pointersAfter s' (.command i text) = l.pointers := by
  rw [pointersAfter]
  split
  · next k g _ hsel =>
    rw [h k g hsel]
    exact Function.update_eq_self k l.pointers
  · rfl

/-- `CONSUME` has handed out a packet. -/
theorem Tracked.handsOut (h : l.Tracked) {text : Bytes} {gh th : ℕ} {d : Bytes}
    (hconsume : startsWith commandConsume text = true)
    (hout : (l.server.view i).HandsOut st' record gh th g d)
    (hmeets : l.Meets (.command i text)) (howned : (l.server.update i st').Owned)
    (hothers : ∀ j, j ≠ i → ((l.server.update i st').view j).selection = l.selection j) :
    (l.turn (.command i text) (l.server.update i st') record).Tracked := by
  have hbefore : l.selection i = _ := hout.has.selection
  have hafter : ((l.server.update i st').view i).selection = _ :=
    (congrArg _ (Server.view_update_self ..)).trans hout.selection
  cases hname : (l.server.view i).session.topicName with
  | none =>
    rw [hname] at hbefore hafter
    refine h.of_same_pointers howned ?_ ?_ hothers fun k g' hk => ?_
    · exact pointersAfter_of_selection fun k g' hk => nomatch hafter.symm.trans hk
    · show l.delivered ++ sentTo (l.selection i) record = l.delivered
      rw [hbefore]
      exact List.append_nil _
    · cases hafter.symm.trans hk
  | some topicName =>
  rw [hname, Option.map_some] at hbefore hafter
  obtain ⟨t, ht⟩ := hout.live
  obtain ⟨path, hpath⟩ := h.owned.sound th t ht
  obtain ⟨hd, hsmall⟩ := hout.packet t ht path hpath
  -- There is a packet at the read pointer, so no other session has selected the group.
  have hsole (j : ℕ) (g' : Group) (hne : j ≠ i) :
      l.selection j ≠ some ((topicName, g.groupId), g') := by
    intro hj
    obtain ⟨t', path', ht', hpath', hnone⟩ := hmeets.sole hconsume j _ g g' hne hbefore hj
    rw [hout.has.attached] at ht'
    have hd' := (hout.packet t' ht' path' hpath').1
    cases hnone.symm.trans hd'
  obtain ⟨result, rfl⟩ := hout.record
  have hsent : sentTo (l.selection i) [⟨packetAt g d, result, none⟩] = [] ∨
      sentTo (l.selection i) [⟨packetAt g d, result, none⟩] =
        [((topicName, g.groupId), g.readPointer)] := by
    rw [hbefore]
    by_cases hresult : result = 0
    · subst hresult
      exact .inr rfl
    · refine .inl ?_
      simp only [sentTo, hresult, decide_false, List.filter_cons, Bool.false_eq_true, ↓reduceIte,
        List.filter_nil, List.map_nil]
  refine h.of_moved howned hbefore hafter (readPointer_lt_afterPacket hsmall hd) hothers hsole ?_
    hsent rfl
  show l.pointersAfter _ (.command i text) = _
  rw [pointersAfter, hconsume, hafter]

/-- What one turn keeps. -/
theorem Tracked.step (h : l.Tracked) {op : ServerOp} {r : ℤ} (hack : NoAck op)
    (hmeets : l.Meets op) (hstep : l.step op = some (r, l')) : l'.Tracked := by
  obtain ⟨record, s', hserver, rfl⟩ := step_eq_some_iff.mp hstep
  obtain ⟨howned, hothers⟩ := h.owned.step hserver
  have hnothing (o : Option ((Bytes × Bytes) × Group)) :
      l.delivered ++ sentTo o [] = l.delivered := by
    cases o <;> exact List.append_nil _
  cases op with
  | disconnect i =>
    obtain ⟨⟨_, st'⟩, hrun, heq⟩ := Option.map_eq_some_iff.mp hserver
    obtain ⟨hresult, rfl⟩ := Prod.mk.inj heq
    obtain ⟨rfl, -⟩ := Prod.mk.inj hresult
    refine h.of_same_pointers howned rfl (hnothing _) hothers fun k g hk => ?_
    have hsel : st'.selection = some (k, g) := (Server.view_update_self l.server i st').symm ▸ hk
    have hanew := SessionState.selectsAnew_clientSessionFree [] hrun
    cases (hanew.selection k g hsel).1
  | command i text =>
    obtain ⟨⟨_, st'⟩, hrun, heq⟩ := Option.map_eq_some_iff.mp hserver
    obtain ⟨rfl, rfl⟩ := Prod.mk.inj heq
    have hsel (k : Bytes × Bytes) (g : Group)
        (hk : ((l.server.update i st').view i).selection = some (k, g)) :
        st'.selection = some (k, g) := (Server.view_update_self l.server i st').symm ▸ hk
    rcases SessionState.recordedCommand_cases h.owned.sound (h.owned.bounded i) hack hrun with
      ⟨rfl, hidle⟩ | ⟨hconsume, gh, th, g, d, hout⟩ | ⟨rfl, hconsume, hanew⟩
    · have hself (k : Bytes × Bytes) (g : Group)
          (hk : ((l.server.update i st').view i).selection = some (k, g)) :
          g.readPointer = l.pointers k :=
        h.shared.onePointer i k g (hidle.selection.symm.trans (hsel k g hk))
      exact h.of_same_pointers howned (pointersAfter_of_selection hself) (hnothing _) hothers hself
    · exact h.handsOut hconsume hout hmeets howned hothers
    · refine h.of_same_pointers howned ?_ (hnothing _) hothers fun k g hk => ?_
      · show l.pointersAfter _ (.command i text) = _
        rw [pointersAfter, hconsume]
      · obtain ⟨hselects, hzero⟩ := hanew.selection k g (hsel k g hk)
        rw [hzero, hmeets.unmoved k hselects]

/-- A server without sessions, whose groups have not moved. -/
def start (fs : FileSystem) (faults : List IoOutcome) (clients : ℕ → Client) : GroupLedger where
  server := .start fs faults clients
  pointers := fun _ => 0
  delivered := []

theorem tracked_start (fs : FileSystem) (faults : List IoOutcome) (clients : ℕ → Client) :
    (start fs faults clients).Tracked := by
  refine ⟨Server.owned_start fs faults clients, ⟨fun i k g hk => ?_, List.nodup_nil⟩,
    fun k offset hmem => ?_⟩
  · cases hk
  · cases hmem

/-- A turn of one session leaves the selections of the others alone. -/
theorem owned_step (h : l.server.Owned) {op : ServerOp} {r : ℤ} (hstep : l.step op = some (r, l')) :
    l'.server.Owned ∧ ∀ j, j ≠ op.session → l'.selection j = l.selection j := by
  obtain ⟨record, s', hserver, rfl⟩ := step_eq_some_iff.mp hstep
  exact h.step hserver

/-- No run moves a group by the sessions of another one. -/
theorem independent_of_mem_trace (fs : FileSystem) (faults : List IoOutcome)
    (clients : ℕ → Client) (ops : List ServerOp) :
    ∀ e ∈ trace step (start fs faults clients) ops, Independent e := by
  refine trace_always (fun l => l.server.Owned) ?_ (Server.owned_start fs faults clients) ops
  intro l op r l' h hstep
  obtain ⟨h', hothers⟩ := owned_step h hstep
  exact ⟨h', fun j k g hne hj _ => (hothers j hne).trans hj⟩

/-- In every run no group is moved by the sessions of another. In a run of selections, of `CONSUME`
and of sessions that begin and end, in which every turn meets the condition, each group has one read
pointer and no packet is delivered to a group twice. -/
theorem shared_of_meets (fs : FileSystem) (faults : List IoOutcome) (clients : ℕ → Client)
    (ops : List ServerOp) :
    (∀ e ∈ trace step (start fs faults clients) ops, Independent e) ∧
      ((∀ op ∈ ops, NoAck op) →
        (∀ e ∈ trace step (start fs faults clients) ops, e.before.Meets e.op) →
          ∀ e ∈ trace step (start fs faults clients) ops, e.after.Shared) := by
  refine ⟨independent_of_mem_trace fs faults clients ops, fun hack hmeets => ?_⟩
  refine trace_rule Tracked (fun l op => NoAck op ∧ l.Meets op) ?_
    (tracked_start fs faults clients)
    fun e he => ⟨hack e.op (op_mem_of_mem_trace he), hmeets e he⟩
  rintro l op r l' h ⟨hack, hmeets⟩ hstep
  have h' := h.step hack hmeets hstep
  exact ⟨h', h'.shared⟩

/-- A session that has not taken a turn has selected nothing. -/
theorem selection_eq_none (fs : FileSystem) (faults : List IoOutcome) (clients : ℕ → Client)
    {ops : List ServerOp} {j : ℕ} (hj : ∀ op ∈ ops, op.session ≠ j) :
    ∀ e ∈ trace step (start fs faults clients) ops, e.before.selection j = none := by
  refine trace_rule (fun l => l.server.Owned ∧ l.selection j = none) (fun _ op => op.session ≠ j) ?_
    ⟨Server.owned_start fs faults clients, rfl⟩ fun e he => hj e.op (op_mem_of_mem_trace he)
  rintro l op r l' ⟨howned, hnone⟩ hne hstep
  obtain ⟨howned', hothers⟩ := owned_step howned hstep
  exact ⟨⟨howned', (hothers j hne.symm).trans hnone⟩, hnone⟩

/-- A server with a topic file of two packets. -/
def sampleStart : GroupLedger :=
  start (.ofFile (topicPath (ascii "t") defaultTopicBasePath)
    (topicFormat.stream [ascii "ab", ascii "c"])) [] fun _ => ⟨[], [], []⟩

/-- Two sessions select groups of the topic and consume. -/
def sampleOps (first second : Bytes) : List ServerOp :=
  [.command 0 (ascii "SET_TOPIC t"), .command 0 (ascii "SET_GROUP " ++ first),
    .command 1 (ascii "SET_GROUP " ++ second), .command 1 (ascii "SET_TOPIC t"),
    .command 0 (ascii "CONSUME"), .command 1 (ascii "CONSUME")]

/-- Two groups of one topic. -/
theorem shared_of_meets_sample :
    (trace step sampleStart (sampleOps (ascii "g") (ascii "h"))).length = 6 ∧
      ∀ e ∈ trace step sampleStart (sampleOps (ascii "g") (ascii "h")),
        e.after.Shared ∧ Independent e := by
  have hunmoved : ∀ e ∈ trace step sampleStart (sampleOps (ascii "g") (ascii "h")),
      ∀ k ∈ e.before.selects e.op, e.before.pointers k = 0 := by
    decide +kernel
  have hapart : ∀ e ∈ trace step sampleStart (sampleOps (ascii "g") (ascii "h")),
      (e.op.session = 0 ∨ e.op.session = 1) ∧ ((e.before.selection 0).map Prod.fst = none ∨
        (e.before.selection 0).map Prod.fst ≠ (e.before.selection 1).map Prod.fst) := by
    decide +kernel
  obtain ⟨hindependent, hshared⟩ := shared_of_meets _ _ _ (sampleOps (ascii "g") (ascii "h"))
  refine ⟨by decide +kernel, fun e he => ⟨?_, hindependent e he⟩⟩
  refine hshared (by decide) (fun e he => ⟨hunmoved e he, ?_⟩) e he
  intro _ j k g g' hne hself hj
  obtain ⟨hop, hdiffer⟩ := hapart e he
  have hbusy : j = 0 ∨ j = 1 := by
    by_contra! hnot
    have hsilent : ∀ op ∈ sampleOps (ascii "g") (ascii "h"), op.session ≠ j := by
      simp [sampleOps, ServerOp.session, hnot.1.symm, hnot.2.symm]
    cases (selection_eq_none _ _ _ hsilent e he).symm.trans hj
  rcases hop with hop | hop <;> rcases hbusy with rfl | rfl <;> rw [hop] at hne hself <;>
    simp [hself, hj] at hne hdiffer

/-- Two sessions of one group both get the first packet. -/
theorem not_shared_sample : (∀ op ∈ sampleOps (ascii "g") (ascii "g"), NoAck op) ∧
    ¬ ∀ e ∈ trace step sampleStart (sampleOps (ascii "g") (ascii "g")),
      e.after.Shared ∧ Independent e := by
  refine ⟨by decide, fun hall => ?_⟩
  have hlast : ((trace step sampleStart (sampleOps (ascii "g") (ascii "g")))[5]?).map
      (fun e => e.after.delivered) =
        some [((ascii "t", ascii "g"), 0), ((ascii "t", ascii "g"), 0)] := by
    decide +kernel
  obtain ⟨e, he, heq⟩ := Option.map_eq_some_iff.mp hlast
  have hnodup := (hall e (List.mem_of_getElem? he)).1.nodup
  rw [heq] at hnodup
  exact absurd hnodup (by decide)

end GroupLedger

end SuparnaD

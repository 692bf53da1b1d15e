import Mathlib.Order.MinMax
import SuparnaD.Messaging.AckAgreement
import SuparnaD.Messaging.GrowingLog

/-!
# Acknowledgements in any order

`ack_packet` and `ack_packet_by_offset` name the end of the packet that they acknowledge, and they
only ever raise the read pointer. A packet that `consume_packet` has returned stays in the file,
however the file grows, so no bounds check refuses it later and no sum wraps. The read pointer ends
at the largest of the ends of the acknowledged packets, in whatever order and how often they are
acknowledged.

## Main definitions

* `raiseBody` : what both functions do when the chunk is loaded.
* `AckLog`, `AckLogOp`, `AckLog.step` : runs of consumption and acknowledgement on a growing file.
* `AckLog.Legal` : only packets that have been returned are acknowledged.

## Main results

* `Machine.OnTopic.growing_raiseBody` : one acknowledgement on a growing file.
* `AckLog.run_step` : what one step does.
* `AckLog.acks_converge`.
-/

namespace SuparnaD

open Broker CallProgram

/-! ### The largest of some numbers -/

theorem foldl_max_le_iff {α : Type} [LinearOrder α] (l : List α) (b c : α) :
    l.foldl max b ≤ c ↔ b ≤ c ∧ ∀ x ∈ l, x ≤ c := by
  induction l generalizing b with
  | nil => simp
  | cons x l ih => rw [List.foldl_cons, ih, max_le_iff, List.forall_mem_cons, and_assoc]

/-- Neither the order nor repetitions matter. -/
theorem foldl_max_congr {α : Type} [LinearOrder α] {l l' : List α} (h : ∀ x, x ∈ l ↔ x ∈ l')
    (b : α) : l.foldl max b = l'.foldl max b := by
  refine eq_of_forall_ge_iff fun c => ?_
  simp only [foldl_max_le_iff, h]

/-! ### One acknowledgement -/

/-- What `ack_packet` and `ack_packet_by_offset` do when the chunk is loaded. -/
def raiseBody (g : Group) (stop : UInt64) : Broker (ℤ × Group) := do
  if (← chunkSize) < stop then
    return (-1, g)
  if g.readPointer < stop then
    return (0, { g with readPointer := stop })
  return (0, g)

theorem ackPacket_eq (g : Group) (p : Packet) : ackPacket g p = whenLoaded (-1, g)
    (raiseBody g (p.offsetInTopic + (packetSizeHeaderSize + p.packetSize.toUInt64))) := rfl

theorem ackPacketByOffset_eq (g : Group) (topic : ℕ) (offset packetSize : UInt64) :
    ackPacketByOffset g topic offset packetSize =
      if packetSize = 0 then pure (-1, g)
      else if g.attachedTopic ≠ topic then pure (-1, g)
      else whenLoaded (-1, g) (raiseBody g (offset + (packetSizeHeaderSize + packetSize))) := rfl

theorem quiet_raiseBody (g : Group) (stop : UInt64) : (raiseBody g stop).Quiet :=
  quiet_chunkSize.bind fun _ => .unless _ (.unless _ (quiet_pure _))

variable {path v : Bytes} {topic : ℕ} {g : Group} {p : Packet}

theorem Machine.Shows.exec_raiseBody {s : Machine} (h : s.Shows path v) (g : Group)
    (stop : UInt64) : (raiseBody g stop).exec s = some (raiseTo g stop v, s) := by
  simp only [raiseBody, CallProgram.run_bind, h.exec_chunkSize, Option.bind_some, h.lt_size_iff,
    CallProgram.run_ite, CallProgram.pure_eq_ret, CallProgram.run_ret, raiseTo]
  split_ifs <;> rfl

/-- The group with its read pointer raised to the end of a packet. -/
def Group.raised (g : Group) (p : Packet) : Group :=
  { g with readPointer := (max g.readPointer.toNat p.stop).toUInt64 }

/-- The packet is not empty and lies within the file. -/
def Packet.Within (p : Packet) (content : Bytes) : Prop :=
  p.packetSize ≠ 0 ∧ p.stop ≤ content.length

theorem Packet.Within.append {content : Bytes} (h : p.Within content) (more : Bytes) :
    p.Within (content ++ more) := by
  refine ⟨h.1, ?_⟩
  rw [List.length_append]
  exact Nat.le_add_right_of_le h.2

/-- A packet that has been read from a file is within it. -/
theorem within_packetAt {content d : Bytes}
    (h : topicFormat.parseAt content g.readPointer.toNat = some d) :
    (packetAt g d).Within content := by
  obtain ⟨-, hvalid, -, hfits⟩ := FrameFormat.parseAt_eq_some_iff.mp h
  have hlt := lt_of_le_maxPacketSize hvalid.2
  have hsize : (packetAt g d).packetSize.toNat = d.length := toNat_toUInt32 (by omega)
  have hpos := hvalid.1
  refine ⟨fun hzero => ?_, ?_⟩
  · rw [hzero, UInt32.toNat_zero] at hsize
    omega
  · rw [Packet.stop, hsize]
    exact hfits

theorem raiseTo_of_within (hsmall : v.length < 2 ^ 63) (hp : p.stop ≤ v.length) :
    raiseTo g (p.offsetInTopic + (packetSizeHeaderSize + p.packetSize.toUInt64)) v =
      (0, g.raised p) := by
  have hfour : packetSizeHeaderSize.toNat = 4 := rfl
  have hstop : (p.offsetInTopic + (packetSizeHeaderSize + p.packetSize.toUInt64)).toNat =
      p.stop := by
    rw [Packet.stop] at hp ⊢
    rw [UInt64.toNat_add, UInt64.toNat_add, UInt32.toNat_toUInt64, hfour]
    omega
  generalize p.offsetInTopic + (packetSizeHeaderSize + p.packetSize.toUInt64) = stop at *
  rw [raiseTo, Group.raised, ← hstop, if_neg (Nat.not_lt.mpr (hstop ▸ hp))]
  split_ifs with hraise <;> rw [UInt64.lt_iff_toNat_lt] at hraise
  · rw [max_eq_right (Nat.le_of_lt hraise), Nat.toUInt64, UInt64.ofNat_toNat]
  · rw [max_eq_left (Nat.le_of_not_lt hraise), Nat.toUInt64, UInt64.ofNat_toNat]

/-- An acknowledgement of a packet that is in the file raises the read pointer to its end, while
others append to the file. -/
theorem Machine.OnTopic.growing_raiseBody {x : Machine × List Bytes} (h : x.1.OnTopic path)
    (hchunk : x.1.chunk.isSome = true) (hfaults : x.1.faults = [])
    (hsmall : (x.1.file path ++ x.2.flatten).length < 2 ^ 63) (g : Group)
    (hp : p.stop ≤ (x.1.file path).length) :
    ∃ y, (whenLoaded (-1, g) (raiseBody g (p.offsetInTopic +
        (packetSizeHeaderSize + p.packetSize.toUInt64)))).execGrowing path x =
        some ((0, g.raised p), y) ∧ GrowsTo path x y ∧ y.1.OnTopic path := by
  obtain ⟨⟨s₁, es₁⟩, hact₁, h₁, hload⟩ := h.growing_whenLoaded (-1, g)
    (raiseBody g (p.offsetInTopic + (packetSizeHeaderSize + p.packetSize.toUInt64)))
  rcases hload with ⟨-, hnot⟩ | ⟨v, hshow, -, hold, hrun⟩
  · refine absurd ⟨hchunk, hfaults, ?_⟩ hnot
    have htotal := congrArg List.length hact₁.total
    rw [List.length_append] at htotal
    omega
  have hlong : p.stop ≤ v.length := Nat.le_trans hp (hold hfaults).length_le
  have hbody := hshow.exec_raiseBody g
    (p.offsetInTopic + (packetSizeHeaderSize + p.packetSize.toUInt64))
  rw [raiseTo_of_within hshow.length_lt hlong] at hbody
  obtain ⟨⟨s₂, es₂⟩, hraise, hact₂, hchunk₂⟩ :=
    execGrowing_of_quiet path (quiet_raiseBody g _) hbody (.refl s₁) es₁
  exact ⟨_, hrun.trans hraise, hact₁.trans hact₂, (hshow.of_chunk hchunk₂).onTopic⟩

/-! ### Runs -/

/-- A topic with a group that acknowledges, and the packets that have been returned so far. -/
structure AckLog where
  /-- The topic. -/
  machine : Machine
  /-- The group. -/
  group : Group
  /-- The packets that `consume_packet` has returned. -/
  returned : List Packet

/-- What happens in a run. -/
inductive AckLogOp where
  /-- Some group consumes. -/
  | consumePacket (reader : Group)
  | ackPacket (packet : Packet)
  | ackPacketByOffset (packet : Packet)

/-- The packet that is acknowledged. -/
def AckLogOp.acked : AckLogOp → Option Packet
  | .consumePacket _ => none
  | .ackPacket packet | .ackPacketByOffset packet => some packet

namespace AckLog

/-- One call while others append the scheduled pieces to the file at the path. Pieces that are left
over are appended after the call. -/
def step (path : Bytes) (topic : ℕ) (l : AckLog) : AckLogOp × List Bytes → Option (ℤ × AckLog)
  | (.consumePacket reader, pieces) =>
    ((SuparnaD.consumePacket reader topic).execGrowing path (l.machine, pieces)).map fun r =>
      (0, ⟨r.2.1.grown path r.2.2.flatten, l.group, r.1.1.toList ++ l.returned⟩)
  | (.ackPacket packet, pieces) =>
    ((SuparnaD.ackPacket l.group packet).execGrowing path (l.machine, pieces)).map fun r =>
      (r.1.1, ⟨r.2.1.grown path r.2.2.flatten, r.1.2, l.returned⟩)
  | (.ackPacketByOffset packet, pieces) =>
    ((SuparnaD.ackPacketByOffset l.group topic packet.offsetInTopic
        packet.packetSize.toUInt64).execGrowing path (l.machine, pieces)).map fun r =>
      (r.1.1, ⟨r.2.1.grown path r.2.2.flatten, r.1.2, l.returned⟩)

/-- The packets that a run acknowledges. -/
def acked (ops : List (AckLogOp × List Bytes)) : List Packet := ops.filterMap fun op => op.1.acked

/-- A run acknowledges only packets that have been returned before. -/
def Legal (path : Bytes) (topic : ℕ) : List (AckLogOp × List Bytes) → AckLog → Prop
  | [], _ => True
  | op :: ops, l => (∀ p ∈ op.1.acked, p ∈ l.returned) ∧
    match l.step path topic op with
    | none => True
    | some (_, l') => Legal path topic ops l'

instance decidableLegal (path : Bytes) (topic : ℕ) :
    ∀ ops l, Decidable (Legal path topic ops l)
  | [], _ => isTrue trivial
  | op :: ops, l =>
    have : Decidable (match l.step path topic op with
        | none => True
        | some (_, l') => Legal path topic ops l') :=
      match l.step path topic op with
      | none => isTrue trivial
      | some (_, l') => decidableLegal path topic ops l'
    inferInstanceAs (Decidable (_ ∧ _))

/-- Storage and allocation succeed on the group's own topic. -/
structure Healthy (path : Bytes) (topic : ℕ) (l : AckLog) : Prop where
  onTopic : l.machine.OnTopic path
  attached : l.group.attachedTopic = topic
  chunk : l.machine.chunk.isSome = true
  faults : l.machine.faults = []

/-- The invariant: every packet that has been returned is in the file. -/
structure Sound (path : Bytes) (topic : ℕ) (l : AckLog) : Prop extends Healthy path topic l where
  within : ∀ p ∈ l.returned, p.Within (l.machine.file path)

variable {l l' : AckLog} {pieces : List Bytes}

theorem length_file_grown {s : Machine} {es : List Bytes}
    (hact : GrowsTo path (l.machine, pieces) (s, es)) :
    (s.grown path es.flatten).file path = l.machine.file path ++ pieces.flatten := by
  rw [Machine.file_grown]
  exact hact.total

/-- Growth keeps the invariant. -/
theorem Sound.of_growsTo (h : l.Sound path topic) {s : Machine} {es : List Bytes}
    (hact : GrowsTo path (l.machine, pieces) (s, es)) (ht : s.OnTopic path) {g : Group}
    (hg : g.attachedTopic = topic) {more : List Packet}
    (hmore : ∀ p ∈ more, p.Within (l.machine.file path ++ pieces.flatten)) :
    Sound path topic ⟨s.grown path es.flatten, g, more ++ l.returned⟩ := by
  refine ⟨⟨ht, hg, hact.chunk.trans h.chunk, hact.faults h.faults⟩, fun p hp => ?_⟩
  change p.Within ((s.grown path es.flatten).file path)
  rw [length_file_grown hact]
  rcases List.mem_append.mp hp with hp | hp
  · exact hmore p hp
  · exact (h.within p hp).append _

/-- What an acknowledgement does, through either of the two functions. -/
theorem run_acked (h : l.Sound path topic)
    (hsmall : (l.machine.file path ++ pieces.flatten).length < 2 ^ 63) {op : AckLogOp}
    (hop : op.acked = some p) (hp : p ∈ l.returned) :
    ∃ s es, l.step path topic (op, pieces) =
        some (0, ⟨s.grown path es.flatten, l.group.raised p, l.returned⟩) ∧
      GrowsTo path (l.machine, pieces) (s, es) ∧ s.OnTopic path := by
  obtain ⟨hsize, hstop⟩ := h.within p hp
  obtain ⟨⟨s, es⟩, hrun, hact, ht⟩ := Machine.OnTopic.growing_raiseBody (x := (l.machine, pieces))
    h.onTopic h.chunk h.faults hsmall l.group hstop
  refine ⟨s, es, ?_, hact, ht⟩
  cases op with
  | consumePacket reader => cases hop
  | ackPacket packet =>
    obtain rfl := Option.some.inj hop
    rw [step, ackPacket_eq, hrun, Option.map_some]
  | ackPacketByOffset packet =>
    obtain rfl := Option.some.inj hop
    have hne : packet.packetSize.toUInt64 ≠ 0 := fun hzero => hsize (by
      rw [← UInt32.toNat_inj, ← UInt32.toNat_toUInt64, hzero]
      rfl)
    rw [step, ackPacketByOffset_eq, if_neg hne, if_neg (not_not.mpr h.attached), hrun,
      Option.map_some]

/-- The group after an operation. -/
def afterOp (g : Group) (op : AckLogOp) : Group := op.acked.elim g g.raised

/-- What one step does. -/
theorem run_step (h : l.Sound path topic)
    (hsmall : (l.machine.file path ++ pieces.flatten).length < 2 ^ 63) (op : AckLogOp)
    (hlegal : ∀ p, op.acked = some p → p ∈ l.returned) :
    ∃ l', l.step path topic (op, pieces) = some (0, l') ∧ l'.Sound path topic ∧
      l'.machine.file path = l.machine.file path ++ pieces.flatten ∧
      l'.group = afterOp l.group op := by
  cases hop : op.acked with
  | some p =>
    obtain ⟨s, es, hstep, hact, ht⟩ := run_acked h hsmall hop (hlegal p hop)
    have hnone : ∀ q ∈ ([] : List Packet), q.Within (l.machine.file path ++ pieces.flatten) :=
      fun q hq => absurd hq List.not_mem_nil
    refine ⟨_, hstep, h.of_growsTo (g := l.group.raised p) hact ht h.attached hnone,
      length_file_grown hact, ?_⟩
    rw [afterOp, hop, Option.elim_some]
  | none =>
    cases op with
    | ackPacket packet | ackPacketByOffset packet => cases hop
    | consumePacket reader =>
      obtain ⟨⟨r, g'⟩, ⟨s, es⟩, hrun, hact, ht, hcases⟩ :=
        Machine.OnTopic.growing_consumePacket (x := (l.machine, pieces)) h.onTopic reader topic
      refine ⟨_, Option.map_eq_some_iff.mpr ⟨_, hrun, rfl⟩,
        h.of_growsTo hact ht h.attached fun p hp => ?_, length_file_grown hact, rfl⟩
      rcases hcases with ⟨heq, -⟩ | ⟨d, hd, heq, -⟩
      · cases heq
        cases hp
      · obtain ⟨rfl, -⟩ := Prod.mk.inj heq
        obtain rfl := List.mem_singleton.mp hp
        have hwithin := (within_packetAt hd).append es.flatten
        rwa [hact.total] at hwithin

/-- The topic file after everything scheduled has been appended. -/
def finalFile (path : Bytes) (l : AckLog) (ops : List (AckLogOp × List Bytes)) : Bytes :=
  l.machine.file path ++ (ops.map Prod.snd).flatten.flatten

/-- A run does the acknowledgements one after the other, and all of them succeed. -/
theorem run_steps (h : l.Sound path topic) {ops : List (AckLogOp × List Bytes)}
    (hsmall : (l.finalFile path ops).length < 2 ^ 63) (hlegal : Legal path topic ops l) :
    (trace (step path topic) l ops).length = ops.length ∧
      (∀ e ∈ trace (step path topic) l ops, e.result = 0) ∧
      (runEnd (step path topic) l ops).group = (acked ops).foldl Group.raised l.group ∧
      ∀ p ∈ acked ops, p.stop < 2 ^ 63 := by
  induction ops generalizing l with
  | nil => exact ⟨rfl, by simp, rfl, by simp [acked]⟩
  | cons op ops ih =>
    obtain ⟨op, pieces⟩ := op
    have hfinal : l.finalFile path ((op, pieces) :: ops) =
        l.machine.file path ++ pieces.flatten ++ (ops.map Prod.snd).flatten.flatten := by
      rw [finalFile, List.map_cons, List.flatten_cons, List.flatten_append, List.append_assoc]
    have hpieces : (l.machine.file path ++ pieces.flatten).length < 2 ^ 63 := by
      rw [hfinal, List.length_append] at hsmall
      omega
    obtain ⟨l', hstep, h', hfile, hgroup⟩ := run_step h hpieces op hlegal.1
    have hsmall' : (l'.finalFile path ops).length < 2 ^ 63 := by rwa [finalFile, hfile, ← hfinal]
    obtain ⟨hreturned, hrest⟩ := hlegal
    rw [hstep] at hrest
    obtain ⟨hlength, hzero, hend, hstops⟩ := ih h' hsmall' hrest
    rw [trace_cons_of_some hstep, runEnd_cons_of_some hstep, List.length_cons,
      List.length_cons, List.forall_mem_cons]
    refine ⟨congrArg _ hlength, ⟨rfl, hzero⟩, ?_⟩
    rw [hend, hgroup, afterOp]
    cases hop : op.acked with
    | none =>
      have hacked : acked ((op, pieces) :: ops) = acked ops := List.filterMap_cons_none hop
      rw [hacked]
      exact ⟨rfl, hstops⟩
    | some p =>
      have hacked : acked ((op, pieces) :: ops) = p :: acked ops := List.filterMap_cons_some hop
      rw [hacked, List.forall_mem_cons]
      have hstop := (h.within p (hreturned p hop)).2
      rw [List.length_append] at hpieces
      exact ⟨rfl, by omega, hstops⟩

/-- Raising the read pointer again and again raises it to the largest of the ends. -/
theorem foldl_raised {ps : List Packet} (hps : ∀ p ∈ ps, p.stop < 2 ^ 63) (g : Group) :
    (ps.foldl Group.raised g).readPointer.toNat =
        (ps.map Packet.stop).foldl max g.readPointer.toNat ∧
      ps.foldl Group.raised g =
        { g with readPointer := (ps.foldl Group.raised g).readPointer } := by
  induction ps generalizing g with
  | nil => exact ⟨rfl, rfl⟩
  | cons p ps ih =>
    rw [List.forall_mem_cons] at hps
    obtain ⟨hpointer, hgroup⟩ := ih hps.2 (g.raised p)
    have hraised : (g.raised p).readPointer.toNat = max g.readPointer.toNat p.stop := by
      have hlt := g.readPointer.toNat_lt
      exact toNat_toUInt64 (max_lt hlt (by omega))
    rw [List.foldl_cons, List.map_cons, List.foldl_cons, ← hraised]
    exact ⟨hpointer, hgroup⟩

/-- Acknowledgements of packets that `consume_packet` has returned converge: each of them returns
`0`, the read pointer ends at the largest of its first value and the ends of the acknowledged
packets, and any other run that acknowledges the same packets leaves the same group. -/
theorem acks_converge (h : l.Healthy path topic) (hnone : l.returned = [])
    {ops : List (AckLogOp × List Bytes)} (hsmall : (l.finalFile path ops).length < 2 ^ 63)
    (hlegal : Legal path topic ops l) :
    (trace (step path topic) l ops).length = ops.length ∧
      (∀ e ∈ trace (step path topic) l ops, e.result = 0) ∧
      (runEnd (step path topic) l ops).group.readPointer.toNat =
        ((acked ops).map Packet.stop).foldl max l.group.readPointer.toNat ∧
      ∀ ops', (l.finalFile path ops').length < 2 ^ 63 → Legal path topic ops' l →
        (∀ p, p ∈ acked ops' ↔ p ∈ acked ops) →
          (runEnd (step path topic) l ops').group = (runEnd (step path topic) l ops).group := by
  have hsound : l.Sound path topic := ⟨h, by simp [hnone]⟩
  obtain ⟨hlength, hzero, hend, hstops⟩ := run_steps hsound hsmall hlegal
  obtain ⟨hpointer, hgroup⟩ := foldl_raised hstops l.group
  refine ⟨hlength, hzero, hend ▸ hpointer, fun ops' hsmall' hlegal' hsame => ?_⟩
  obtain ⟨-, -, hend', hstops'⟩ := run_steps hsound hsmall' hlegal'
  obtain ⟨hpointer', hgroup'⟩ := foldl_raised hstops' l.group
  rw [hend', hend, hgroup', hgroup]
  have hstop (n : ℕ) : n ∈ (acked ops').map Packet.stop ↔ n ∈ (acked ops).map Packet.stop := by
    simp only [List.mem_map, hsame]
  have hsame' := hpointer'.trans ((foldl_max_congr hstop _).trans hpointer.symm)
  rw [UInt64.toNat_inj.mp hsame']

/-- A group at the start of a topic file with the frame of `a`. -/
def sampleAckLog : AckLog :=
  ⟨.ofFile (ascii "t") (topicFormat.stream [ascii "a"]), ⟨ascii "g", 0, 0, 0⟩, []⟩

/-- Another group consumes `a` and, when its frame has been appended, `b`. They are acknowledged in
the other order. -/
def sampleAcks : List (AckLogOp × List Bytes) :=
  [(.consumePacket ⟨ascii "h", 0, 0, 0⟩, [topicFormat.frame (ascii "b")]),
    (.consumePacket ⟨ascii "h", 0, 5, 5⟩, []),
    (.ackPacketByOffset ⟨1, ascii "b", 5⟩, []), (.ackPacket ⟨1, ascii "a", 0⟩, [[1], [0]])]

theorem legal_sampleAcks : Legal (ascii "t") 0 sampleAcks sampleAckLog := by decide +kernel

theorem healthy_sampleAckLog : sampleAckLog.Healthy (ascii "t") 0 :=
  ⟨Machine.onTopic_ofFile _ _, rfl, rfl, rfl⟩

theorem acks_converge_sample :
    (trace (step (ascii "t") 0) sampleAckLog sampleAcks).length = 4 ∧
      (∀ e ∈ trace (step (ascii "t") 0) sampleAckLog sampleAcks, e.result = 0) ∧
      (runEnd (step (ascii "t") 0) sampleAckLog sampleAcks).group.readPointer.toNat = 10 ∧
      ∀ ops', (sampleAckLog.finalFile (ascii "t") ops').length < 2 ^ 63 →
        Legal (ascii "t") 0 ops' sampleAckLog → (∀ p, p ∈ acked ops' ↔ p ∈ acked sampleAcks) →
          (runEnd (step (ascii "t") 0) sampleAckLog ops').group =
            (runEnd (step (ascii "t") 0) sampleAckLog sampleAcks).group :=
  acks_converge healthy_sampleAckLog rfl (by decide) legal_sampleAcks

end AckLog

end SuparnaD

import SuparnaD.Messaging.GroupOps

/-!
# The ways to acknowledge a consumed packet

`consume_packet` moves the read pointer to the end of the packet that it returns. `ack_packet` and
`ack_packet_by_offset` name that end and leave the read pointer there. The other three functions
count from the read pointer, so after `consume_packet` they acknowledge what comes next: nothing
happens as long as no frame follows, and otherwise `ack_packet_batch` skips a packet that nobody has
seen.

## Main definitions

* `Packet.stop`, `Packet.acks`, `AcksAgree`.

## Main results

* `Machine.OnTopic.of_consumed` : what a packet that `consume_packet` returns says.
* `acksAgree_iff` : all ways agree exactly when no frame follows the packet.
-/

namespace SuparnaD

open Broker

/-- The end of the frame of a packet. -/
def Packet.stop (p : Packet) : ℕ := p.offsetInTopic.toNat + 4 + p.packetSize.toNat

/-- The ways to acknowledge a packet of a topic. -/
def Packet.acks (p : Packet) (topic : ℕ) : List CursorOp :=
  [.ackPacket p,
    .ackPacketByOffset topic p.offsetInTopic p.packetSize.toUInt64,
    .ackPacketBySize topic p.packetSize.toUInt64,
    .ackPacketBatch topic 1,
    .ackPacketBatchBySize topic [p.packetSize.toUInt64]]

/-- Every way to acknowledge the packet leaves the read pointer at the end of its frame. -/
def AcksAgree (p : Packet) (topic : ℕ) (g : Group) (s : Machine) : Prop :=
  ∀ op ∈ p.acks topic, ∃ r g' s', (op.run g).exec s = some ((r, g'), s') ∧
    g'.readPointer.toNat = p.stop

variable {s s' : Machine} {path v d : Bytes} {g g' : Group} {topic : ℕ} {p : Packet}

/-- A packet that `consume_packet` returns is the one at the read pointer. -/
theorem Machine.OnTopic.of_consumed (h : s.OnTopic path)
    (hrun : (consumePacket g topic).exec s = some ((some p, g'), s')) :
    g.attachedTopic = topic ∧ s.Kept s' ∧ s'.OnTopic path ∧ (s.file path).length < 2 ^ 63 ∧
      ∃ d, topicFormat.parseAt (s.file path) g.readPointer.toNat = some d ∧
        p = packetAt g d ∧ g' = afterPacket g d := by
  have htopic : g.attachedTopic = topic := by
    by_contra hne
    rw [consumePacket_eq, if_pos hne] at hrun
    cases (CallProgram.run_pure_eq_some_iff.mp hrun).1
  obtain ⟨r, t, hrun', hkept, ht, hcases⟩ := h.exec_consumePacket htopic
  obtain ⟨rfl, rfl⟩ := Prod.mk.inj (Option.some.inj (hrun.symm.trans hrun'))
  refine ⟨htopic, hkept, ht, ?_⟩
  rcases hcases with ⟨heq, -⟩ | ⟨d, hd, hsmall, heq⟩
  · cases heq
  · obtain ⟨hp, rfl⟩ := Prod.mk.inj heq
    exact ⟨hsmall, d, hd, Option.some.inj hp, rfl⟩

/-- `consume_packet` when nothing fails, with what stays. -/
theorem Machine.Steady.exec_consumePacket (h : s.Steady path) (htopic : g.attachedTopic = topic) :
    ∃ s', s'.Steady path ∧ s'.file path = s.file path ∧ s'.client = s.client ∧
      (consumePacket g topic).exec s =
        some (match topicFormat.parseAt (s.file path) g.readPointer.toNat with
          | none => (none, g)
          | some d => (some (packetAt g d), afterPacket g d), s') := by
  obtain ⟨s', hrun⟩ := GroupOp.exec_consumePacket_of_steady h g topic
  rw [if_neg (not_not.mpr htopic)] at hrun
  obtain ⟨r, t, hrun', hkept, ht, -⟩ := h.onTopic.exec_consumePacket htopic
  obtain ⟨-, rfl⟩ := Prod.mk.inj (Option.some.inj (hrun'.symm.trans hrun))
  obtain ⟨hsteady, hfile⟩ := h.of_kept hkept ht
  exact ⟨t, hsteady, hfile, hkept.client, hrun⟩

/-- What an operation leaves is its result. -/
theorem CursorOp.exec_run_eq (h : s.OnTopic path) (g : Group) (op : CursorOp) :
    ∃ t, (op.run g).exec s = some (op.result g s.view, t) := by
  obtain ⟨t, -, -, hrun⟩ := computes_run h g op
  exact ⟨t, hrun⟩

/-! ### The functions that count from the read pointer -/

/-- Raising the read pointer to where it is. -/
theorem raiseTo_readPointer (g : Group) (v : Bytes) : (raiseTo g g.readPointer v).2 = g := by
  rw [raiseTo, if_neg (UInt64.lt_irrefl _)]
  split <;> rfl

/-- A move past the end of the data does nothing. -/
theorem moveOn_of_length_lt {count : UInt64} (h : v.length < (g.readPointer + count).toNat) :
    (moveOn g count v).2 = g := by
  rw [moveOn, if_pos h]

/-- Passing over a packet moves the read pointer. -/
theorem readPointer_ne_passOver (hv : v.length < 2 ^ 63)
    (h : topicFormat.parseAt v g.readPointer.toNat = some d) :
    (passOver g 1 v).2.readPointer ≠ g.readPointer := by
  rw [passOver_one_of_parseAt hv h]
  exact (UInt64.ne_of_lt (readPointer_lt_afterPacket hv h)).symm

/-- A function that leaves the group alone wherever it goes on. -/
theorem snd_elim_eq {view : Option Bytes} {f : Bytes → ℤ × Group}
    (hf : ∀ v, view = some v → (f v).2 = g) : (view.elim (-1, g) f).2 = g := by
  cases view with
  | none => rfl
  | some v => exact hf v rfl

theorem snd_unless_eq {b : Prop} [Decidable b] {r : ℤ × Group} (hr : r.2 = g) :
    (if b then ((-1 : ℤ), g) else r).2 = g := by
  split
  · rfl
  · exact hr

theorem stop_packetAt (hsmall : v.length < 2 ^ 63)
    (h : topicFormat.parseAt v g.readPointer.toNat = some d) :
    (packetAt g d).stop = (afterPacket g d).readPointer.toNat := by
  obtain ⟨-, hvalid, -, -⟩ := FrameFormat.parseAt_eq_some_iff.mp h
  have hlt := lt_of_le_maxPacketSize hvalid.2
  have hsize : (packetAt g d).packetSize.toNat = d.length := toNat_toUInt32 (by omega)
  have hoffset : (packetAt g d).offsetInTopic = g.readPointer := rfl
  rw [toNat_readPointer_afterPacket hsmall h, Packet.stop, hsize, hoffset, Nat.add_assoc]

/-- While nothing follows the packet, no way to acknowledge it changes the group. -/
theorem result_acks_of_length_le {content : Bytes} (hsmall : content.length < 2 ^ 63)
    (hd : topicFormat.parseAt content g.readPointer.toNat = some d) {view : Option Bytes}
    (hview : ∀ v, view = some v → v.length ≤ (packetAt g d).stop) {op : CursorOp}
    (hop : op ∈ (packetAt g d).acks topic) :
    (op.result (afterPacket g d) view).2 = afterPacket g d := by
  obtain ⟨-, hvalid, -, hfits⟩ := FrameFormat.parseAt_eq_some_iff.mp hd
  rw [topicFormat_headerLen] at hfits
  have hstop := stop_packetAt hsmall hd
  have hend := toNat_readPointer_afterPacket hsmall hd
  have hsize := toNat_frameSize hvalid.2
  have hraise (v : Bytes) : (raiseTo (afterPacket g d) (g.readPointer + (packetSizeHeaderSize +
      d.length.toUInt32.toUInt64)) v).2 = afterPacket g d := raiseTo_readPointer _ v
  -- The sum of a move does not wrap, so it lies behind the data.
  have hmove (v : Bytes) (hv : view = some v) : (moveOn (afterPacket g d)
      (packetSizeHeaderSize + d.length.toUInt32.toUInt64) v).2 = afterPacket g d := by
    refine moveOn_of_length_lt ?_
    have hle := hview v hv
    rw [UInt64.toNat_add, hsize]
    omega
  simp only [Packet.acks, List.mem_cons, List.not_mem_nil, or_false] at hop
  rcases hop with rfl | rfl | rfl | rfl | rfl
  · exact snd_elim_eq fun v _ => hraise v
  · exact snd_unless_eq (snd_elim_eq fun v _ => hraise v)
  · exact snd_unless_eq (snd_elim_eq hmove)
  · exact snd_unless_eq (snd_elim_eq fun v hv => passOver_of_length_le (hstop ▸ hview v hv) 1)
  · refine snd_unless_eq (snd_elim_eq fun v hv => ?_)
    rw [CursorOp.sumPacketSizes_eq]
    split
    · rfl
    · rw [Option.elim_some, CursorOp.frameTotal, CursorOp.frameTotal, UInt64.zero_add,
        UInt64.add_zero]
      exact hmove v hv

/-- After `consume_packet` has returned a packet of a file of whole frames, all ways to acknowledge
it leave the read pointer at the end of its frame exactly when their load shows nothing behind that
frame. -/
theorem acksAgree_iff (h : s.OnTopic path)
    (hg : topicFormat.AtBoundary (s.file path) g.readPointer.toNat)
    (hrun : (consumePacket g topic).exec s = some ((some p, g'), s')) :
    AcksAgree p topic g' s' ↔ ∀ v, s'.view = some v → v.length ≤ p.stop := by
  obtain ⟨htopic, hkept, ht, hsmall, d, hd, rfl, rfl⟩ := h.of_consumed hrun
  have hstop := stop_packetAt hsmall hd
  constructor
  · intro hagree v hv
    obtain ⟨r, g'', s'', hbatch, hend⟩ := hagree (.ackPacketBatch topic 1) (by simp [Packet.acks])
    obtain ⟨t, hbatch'⟩ := CursorOp.exec_run_eq ht (afterPacket g d) (.ackPacketBatch topic 1)
    have hattached : (afterPacket g d).attachedTopic = topic := htopic
    have hresult : (CursorOp.ackPacketBatch topic 1).result (afterPacket g d) s'.view =
        passOver (afterPacket g d) 1 v := by
      rw [CursorOp.result, hv, Option.elim_some, if_neg (by simp [hattached])]
    rw [hresult] at hbatch'
    obtain ⟨heq, -⟩ := Prod.mk.inj (Option.some.inj (hbatch.symm.trans hbatch'))
    by_contra hlong
    -- What the load shows is the file, and behind the packet is another frame of it.
    have hfile : v = s.file path := by
      rcases ht.view_eq hv with rfl | ⟨rfl, -⟩
      · rw [hkept.fs, Machine.file]
      · exact absurd (Nat.zero_le _) hlong
    have hnext : topicFormat.AtBoundary v (afterPacket g d).readPointer.toNat := by
      rw [hfile, toNat_readPointer_afterPacket hsmall hd]
      exact hg.next hd
    rw [hstop] at hlong hend
    cases hparse : topicFormat.parseAt v (afterPacket g d).readPointer.toNat with
    | none => exact hlong (hnext.length_le hparse)
    | some e =>
      refine readPointer_ne_passOver (hfile ▸ hsmall) hparse ?_
      rw [← heq]
      exact UInt64.toNat_inj.mp hend
  · intro hview op hop
    obtain ⟨t, hack⟩ := CursorOp.exec_run_eq ht (afterPacket g d) op
    refine ⟨(op.result (afterPacket g d) s'.view).1, (op.result (afterPacket g d) s'.view).2, t,
      hack, ?_⟩
    rw [result_acks_of_length_le hsmall hd hview hop, hstop]

/-- The payloads of a topic file with two frames. -/
def samplePayloads : List Bytes := [ascii "a", ascii "b"]

theorem valid_samplePayloads : ∀ d ∈ samplePayloads, topicFormat.Valid d := by decide

/-- A topic with that file. -/
def samplePayloadsTopic : Machine := .ofFile (ascii "t") (topicFormat.stream samplePayloads)

/-- A new group of the topic. -/
def samplePayloadsGroup : Group := ⟨ascii "g", 0, 0, 0⟩

theorem onTopic_samplePayloads : samplePayloadsTopic.OnTopic (ascii "t") :=
  Machine.onTopic_ofFile _ _

theorem atBoundary_samplePayloads : topicFormat.AtBoundary
    (samplePayloadsTopic.file (ascii "t")) samplePayloadsGroup.readPointer.toNat :=
  FrameFormat.atBoundary_zero valid_samplePayloads

theorem acksAgree_iff_sample : ∃ p g' s',
    (consumePacket samplePayloadsGroup 0).exec samplePayloadsTopic = some ((some p, g'), s') ∧
      (AcksAgree p 0 g' s' ↔ ∀ v, s'.view = some v → v.length ≤ p.stop) :=
  ⟨_, _, _, rfl, acksAgree_iff onTopic_samplePayloads atBoundary_samplePayloads rfl⟩

/-- The packet `a` is consumed, and `ack_packet_batch` of one packet skips `b`. -/
theorem not_acksAgree_sample : ∃ p g' s',
    (consumePacket samplePayloadsGroup 0).exec samplePayloadsTopic = some ((some p, g'), s') ∧
      ¬ AcksAgree p 0 g' s' := by
  refine ⟨_, _, _, rfl, fun hagree => ?_⟩
  obtain ⟨r, g'', s'', hrun, hend⟩ := hagree (.ackPacketBatch 0 1) (by simp [Packet.acks])
  have hskips := congrArg (Option.map fun x => x.1.2.readPointer.toNat) hrun
  rw [Option.map_some, hend] at hskips
  exact absurd hskips (by decide)

end SuparnaD

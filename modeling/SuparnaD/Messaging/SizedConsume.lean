import SuparnaD.Messaging.AckAgreement

/-!
# Consuming with a known size

`consume_packet_with_size` does not know the length header. It takes the given number of bytes from
the read pointer on, so the packet begins with the header of the frame and ends four bytes early,
and so does the read pointer.

## Main definitions

* `SizedAgrees`.

## Main results

* `exec_consumePacketWithSize_of_frame` : what the function does at a frame.
* `not_sizedAgrees` : it never agrees with `consume_packet`.
-/

namespace SuparnaD

open Broker

/-- `consume_packet_with_size` returns the packet that `consume_packet` returns and leaves the same
read pointer, and an acknowledgement of the packet leaves the read pointer at the end of the
frame. -/
def SizedAgrees (s : Machine) (g : Group) (topic : ℕ) (size : UInt64) : Prop :=
  ∃ p g₁ s₁ q g₂ s₂ r g₃ s₃,
    (consumePacketWithSize g topic size).exec s = some ((some p, g₁), s₁) ∧
    (consumePacket g topic).exec s = some ((some q, g₂), s₂) ∧
    (ackPacket g₁ p).exec s₁ = some ((r, g₃), s₃) ∧
    p.data = q.data ∧ p.packetSize = q.packetSize ∧ p.offsetInTopic = q.offsetInTopic ∧
    g₁.readPointer = g₂.readPointer ∧ g₃.readPointer.toNat = q.stop

variable {s s' : Machine} {path d : Bytes} {g g' : Group} {topic : ℕ} {p : Packet} {size : UInt64}

/-- A packet of a known size is that many bytes from the read pointer on. -/
theorem Machine.OnTopic.of_consumedSized (h : s.OnTopic path)
    (hrun : (consumePacketWithSize g topic size).exec s = some ((some p, g'), s')) :
    size.toNat ≤ maxPacketSize ∧ p.packetSize = size.toUInt32 ∧
      g'.readPointer = g.readPointer + size := by
  have hsome : ((none, g) : Option Packet × Group) ≠ (some p, g') := by
    rintro ⟨⟩
  rw [consumePacketWithSize_eq] at hrun
  obtain ⟨hsize, hrun⟩ := (CallProgram.run_unless_eq_some_iff hsome).mp hrun
  obtain ⟨-, hrun⟩ := (CallProgram.run_unless_eq_some_iff hsome).mp hrun
  refine ⟨Nat.le_of_not_lt (not_or.mp hsize).2, ?_⟩
  obtain ⟨s₁, -, -, ⟨-, hload⟩ | ⟨v, -, hshow, hload⟩⟩ :=
    h.exec_whenLoaded (none, g) (consumeSizedBody g size)
  · cases hload.symm.trans hrun
  obtain ⟨r, s₂, hbody, -, -, hcases⟩ := hshow.exec_consumeSizedBody g size
  obtain ⟨rfl, -⟩ := Prod.mk.inj (Option.some.inj (hbody.symm.trans (hload.symm.trans hrun)))
  rcases hcases with ⟨hnone, -⟩ | hsome
  · cases hnone
  · rw [consumeSized] at hsome
    split at hsome
    · cases hsome
    · obtain ⟨hp, rfl⟩ := Prod.mk.inj hsome
      obtain rfl := Option.some.inj hp
      exact ⟨rfl, rfl⟩

/-- A stream from a frame on. -/
theorem drop_of_parseAt {content : Bytes} {off : ℕ} (hg : topicFormat.AtBoundary content off)
    (hd : topicFormat.parseAt content off = some d) :
    ∃ after, content.drop off = topicFormat.frame d ++ after := by
  obtain ⟨ds, hds, rfl, k, hk, rfl⟩ := hg
  rw [FrameFormat.parseAt_start_eq hds hk] at hd
  obtain ⟨hlt, rfl⟩ := List.getElem?_eq_some_iff.mp hd
  refine ⟨topicFormat.stream (ds.drop (k + 1)), ?_⟩
  rw [FrameFormat.stream_split hlt, FrameFormat.start, List.append_assoc, List.drop_left]

/-- What is taken at a frame when only its length is known: its first bytes, with the header. -/
def sizedPacketAt (g : Group) (d : Bytes) : Packet :=
  ⟨d.length.toUInt32, (topicFormat.frame d).take d.length, g.readPointer⟩

/-- The group after it has consumed a frame whose length it knew. -/
def afterSizedPacket (g : Group) (d : Bytes) : Group :=
  { g with readPointer := g.readPointer + d.length.toUInt64, lastReadSize := d.length.toUInt64 }

theorem toNat_length {n : ℕ} (h : n ≤ maxPacketSize) : n.toUInt64.toNat = n := by
  have hlt := lt_of_le_maxPacketSize h
  exact toNat_toUInt64 (by omega)

theorem toNat_readPointer_afterSizedPacket {content : Bytes} (hsmall : content.length < 2 ^ 63)
    (hd : topicFormat.parseAt content g.readPointer.toNat = some d) :
    (afterSizedPacket g d).readPointer.toNat = g.readPointer.toNat + d.length := by
  obtain ⟨-, hvalid, -, hfits⟩ := FrameFormat.parseAt_eq_some_iff.mp hd
  rw [afterSizedPacket, UInt64.toNat_add, toNat_length hvalid.2]
  omega

theorem consumeSized_of_frame {content : Bytes} (hsmall : content.length < 2 ^ 63)
    (hg : topicFormat.AtBoundary content g.readPointer.toNat)
    (hd : topicFormat.parseAt content g.readPointer.toNat = some d) :
    consumeSized g d.length.toUInt64 content =
      (some (sizedPacketAt g d), afterSizedPacket g d) := by
  obtain ⟨-, hvalid, -, hfits⟩ := FrameFormat.parseAt_eq_some_iff.mp hd
  rw [topicFormat_headerLen] at hfits
  have hlt := lt_of_le_maxPacketSize hvalid.2
  have hsize := toNat_length hvalid.2
  have hnext := toNat_readPointer_afterSizedPacket hsmall hd
  rw [afterSizedPacket] at hnext
  obtain ⟨after, hafter⟩ := drop_of_parseAt hg hd
  have hdata : (content.drop g.readPointer.toNat).take d.length =
      (topicFormat.frame d).take d.length := by
    rw [hafter, List.take_append_of_le_length]
    rw [FrameFormat.length_frame]
    omega
  have hlen : ((topicFormat.frame d).take d.length).length = d.length := by
    rw [List.length_take, FrameFormat.length_frame]
    omega
  have hsize' : d.length.toUInt64.toUInt32 = d.length.toUInt32 := by
    rw [← UInt32.toNat_inj, UInt64.toNat_toUInt32, hsize, toNat_toUInt32 (by omega)]
    omega
  rw [consumeSized, hsize, hdata, hlen, hnext, if_neg (by omega), hsize']
  rfl

/-- At a frame of length `n` the function returns the first `n` bytes of the frame and leaves the
read pointer four bytes before its end. An acknowledgement of that packet takes it there. -/
theorem exec_consumePacketWithSize_of_frame (h : s.Steady path) (htopic : g.attachedTopic = topic)
    (hg : topicFormat.AtBoundary (s.file path) g.readPointer.toNat)
    (hd : topicFormat.parseAt (s.file path) g.readPointer.toNat = some d) :
    ∃ s₁ g₂ s₂, (consumePacketWithSize g topic d.length.toUInt64).exec s =
        some ((some (sizedPacketAt g d), afterSizedPacket g d), s₁) ∧
      (ackPacket (afterSizedPacket g d) (sizedPacketAt g d)).exec s₁ = some ((0, g₂), s₂) ∧
      (afterSizedPacket g d).readPointer.toNat = g.readPointer.toNat + d.length ∧
      g₂.readPointer.toNat = g.readPointer.toNat + (4 + d.length) := by
  obtain ⟨-, hvalid, -, hfits⟩ := FrameFormat.parseAt_eq_some_iff.mp hd
  rw [topicFormat_headerLen] at hfits
  have hsmall := h.small
  have hsize := toNat_length hvalid.2
  have hchecks : ¬ ((d.length.toUInt64 = 0 ∨ maxPacketSize < d.length.toUInt64.toNat) ∨
      g.attachedTopic ≠ topic) := by
    rw [hsize, ← UInt64.toNat_inj, hsize]
    rintro ((hzero | hlong) | hne)
    · exact absurd hzero (Nat.pos_iff_ne_zero.mp hvalid.1)
    · exact Nat.not_lt.mpr hvalid.2 hlong
    · exact hne htopic
  obtain ⟨s₁, hrun⟩ := GroupOp.exec_consumePacketWithSize_of_steady h g topic d.length.toUInt64
  obtain ⟨_, _, t, hrun', hkept, ht, -⟩ :=
    exec_consumePacketWithSize_reaches h.onTopic g topic d.length.toUInt64
  obtain ⟨-, rfl⟩ := Prod.mk.inj (Option.some.inj (hrun'.symm.trans hrun))
  rw [if_neg hchecks, consumeSized_of_frame hsmall hg hd] at hrun
  -- The acknowledgement adds the four bytes of the header again.
  obtain ⟨hsteady, hfile⟩ := h.of_kept hkept ht
  obtain ⟨s₂, hack⟩ := CursorOp.exec_run_eq ht (afterSizedPacket g d)
    (.ackPacket (sizedPacketAt g d))
  have hend : (g.readPointer + (packetSizeHeaderSize + d.length.toUInt32.toUInt64)).toNat =
      g.readPointer.toNat + (4 + d.length) := by
    rw [UInt64.toNat_add, toNat_frameSize hvalid.2]
    omega
  have hpointer := toNat_readPointer_afterSizedPacket hsmall hd
  have hraise : raiseTo (afterSizedPacket g d)
      (g.readPointer + (packetSizeHeaderSize + d.length.toUInt32.toUInt64)) (s.file path) =
      (0, { afterSizedPacket g d with readPointer :=
        g.readPointer + (packetSizeHeaderSize + d.length.toUInt32.toUInt64) }) := by
    rw [raiseTo, if_neg (by omega), if_pos (by rw [UInt64.lt_iff_toNat_lt]; omega)]
  rw [CursorOp.result, hsteady.view_eq, hfile, Option.elim_some] at hack
  exact ⟨t, _, s₂, hrun, hack.trans (congrArg (fun r => some (r, s₂)) hraise), hpointer, hend⟩

/-- The two functions never agree. -/
theorem not_sizedAgrees (h : s.OnTopic path) (g : Group) (topic : ℕ) (size : UInt64) :
    ¬ SizedAgrees s g topic size := by
  rintro ⟨p, g₁, s₁, q, g₂, s₂, r, g₃, s₃, hsized, hconsume, -, -, hsize, -, hpointer, -⟩
  obtain ⟨hmax, hp, hg₁⟩ := h.of_consumedSized hsized
  obtain ⟨-, -, -, hsmall, d, hd, rfl, rfl⟩ := h.of_consumed hconsume
  obtain ⟨-, hvalid, -, -⟩ := FrameFormat.parseAt_eq_some_iff.mp hd
  -- The same size would mean the same number of bytes, but the cursors are four bytes apart.
  have hframe : size = packetSizeHeaderSize + d.length.toUInt32.toUInt64 := by
    rw [hg₁, afterPacket] at hpointer
    exact (UInt64.add_right_inj g.readPointer).mp hpointer
  have hlong := toNat_frameSize hvalid.2
  rw [← hframe] at hlong
  have hlt := lt_of_le_maxPacketSize hvalid.2
  have hsame := congrArg UInt32.toNat (hp.symm.trans hsize)
  have hlen : (packetAt g d).packetSize.toNat = d.length := toNat_toUInt32 (by omega)
  rw [hlen, UInt64.toNat_toUInt32] at hsame
  omega

theorem not_sizedAgrees_secondFrame :
    ¬ SizedAgrees samplePayloadsTopic { samplePayloadsGroup with readPointer := 5 } 0 1 :=
  not_sizedAgrees onTopic_samplePayloads _ 0 1

/-- The frame of `a` is consumed with the size `1`: the packet is the first byte of its header, and
the read pointer is left behind that byte. -/
theorem not_sizedAgrees_firstFrame :
    ¬ SizedAgrees samplePayloadsTopic samplePayloadsGroup 0 1 := by
  rintro ⟨p, g₁, s₁, q, g₂, s₂, r, g₃, s₃, hsized, hconsume, -, -, -, -, hpointer, -⟩
  have hone := congrArg (Option.map fun x => x.1.2.readPointer) hsized
  have hfive := congrArg (Option.map fun x => x.1.2.readPointer) hconsume
  rw [Option.map_some, hpointer] at hone
  exact absurd (hone.trans hfive.symm) (by decide)

end SuparnaD

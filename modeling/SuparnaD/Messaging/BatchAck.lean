import SuparnaD.Foundation.FrameParsing
import SuparnaD.Messaging.AckAgreement

/-!
# Batch acknowledgement beside consumption

`ack_packet_batch` walks over the frames of the file with a loop of its own. It accepts a header
that states no length or a length that `consume_packet` refuses, and when the walk ends early it
keeps the packets passed over so far and returns `-1`.

## Main definitions

* `wholeAt` : a header with all the bytes that it states.
* `consumeTimes`, `takePackets` : successive calls of `consume_packet`.
* `BatchMatches`.

## Main results

* `batchWalk_succ` : one round of the loop of `ack_packet_batch`.
* `batchWalk_of_le_frames` : over the frames of the file the two walks agree.
* `batchMatches_iff`.
-/

namespace SuparnaD

open Broker

/-- The length in the header at an offset, if the data holds the header and all the bytes that it
states. -/
def wholeAt (v : Bytes) (off : ℕ) : Option UInt32 :=
  (headerAt v off).filter fun size => off + 4 + size.toNat ≤ v.length

/-- Call `consume_packet` up to `count` times, as long as it returns packets. -/
def consumeTimes (topic : ℕ) : ℕ → Group → Broker (List Packet × Group)
  | 0, g => return ([], g)
  | count + 1, g => do
    match ← consumePacket g topic with
    | (none, g') => return ([], g')
    | (some p, g') =>
      let (packets, g'') ← consumeTimes topic count g'
      return (p :: packets, g'')

/-- `ack_packet_batch` returns `0` exactly when so many calls of `consume_packet` all return a
packet, and then leaves the same read pointer; when it returns `-1` it leaves the group alone. -/
def BatchMatches (s : Machine) (g : Group) (topic : ℕ) (count : UInt64) : Prop :=
  ∃ r g₁ s₁ packets g₂ s₂,
    (ackPacketBatch g topic count).exec s = some ((r, g₁), s₁) ∧
    (consumeTimes topic count.toNat g).exec s = some ((packets, g₂), s₂) ∧
    (r = 0 ↔ packets.length = count.toNat) ∧
    (r = 0 → g₁.readPointer = g₂.readPointer) ∧
    (r = -1 → g₁.readPointer = g.readPointer ∧ g₁.lastReadSize = g.lastReadSize)

variable {s s' : Machine} {path v d : Bytes} {g : Group} {topic : ℕ} {off : ℕ}

/-! ### The frames that the two walks accept -/

theorem wholeAt_eq_some_iff {size : UInt32} : wholeAt v off = some size ↔
    headerAt v off = some size ∧ off + 4 + size.toNat ≤ v.length := by
  rw [wholeAt, Option.filter_eq_some_iff, decide_eq_true_iff]

/-- A frame is a whole header with a length that is neither zero nor too large. -/
theorem wholeAt_of_parseAt (h : topicFormat.parseAt v off = some d) :
    wholeAt v off = some d.length.toUInt32 := by
  cases hhead : headerAt v off with
  | none => cases (parseAt_of_headerAt_none hhead).symm.trans h
  | some size =>
    rw [parseAt_of_headerAt hhead] at h
    split at h
    swap
    · cases h
    rename_i hfits
    have hlen : d.length = size.toNat := by
      rw [← Option.some.inj h, List.length_take, List.length_drop]
      omega
    have hback : d.length.toUInt32 = size := by
      rw [hlen]
      exact UInt32.ofNat_toNat
    rw [hback]
    exact wholeAt_eq_some_iff.mpr ⟨hhead, hfits.1⟩

/-- One round of the loop of `ack_packet_batch`. -/
theorem batchWalk_succ (hv : v.length < 2 ^ 63) (count : ℕ) (off passed : UInt64) :
    batchWalk v (count + 1) off passed =
      match wholeAt v off.toNat with
      | none => (off, passed)
      | some size =>
        batchWalk v count (off + (packetSizeHeaderSize + size.toUInt64)) (passed + 1) := by
  rw [batchWalk]
  cases hhead : headerAt v off.toNat with
  | none => rw [wholeAt, hhead, Option.filter_none]
  | some size =>
    have hfit := le_length_of_headerAt hhead
    have hsize := size.toNat_lt
    have hfour : packetSizeHeaderSize.toNat = 4 := rfl
    have hsum : (off + (packetSizeHeaderSize + size.toUInt64)).toNat =
        off.toNat + 4 + size.toNat := by
      rw [UInt64.toNat_add, UInt64.toNat_add, UInt32.toNat_toUInt64, hfour]
      omega
    dsimp only
    rw [hsum, wholeAt, hhead, Option.filter_some]
    by_cases hlong : v.length < off.toNat + 4 + size.toNat
    · rw [if_pos hlong, if_neg (by simpa using hlong)]
    · rw [if_neg hlong, if_pos (by simpa using hlong)]

/-! ### Consuming several packets -/

/-- The packets that successive calls of `consume_packet` return, and the group after them. -/
def takePackets (v : Bytes) : ℕ → Group → List Packet × Group
  | 0, g => ([], g)
  | count + 1, g =>
    match topicFormat.parseAt v g.readPointer.toNat with
    | none => ([], g)
    | some d =>
      (packetAt g d :: (takePackets v count (afterPacket g d)).1,
        (takePackets v count (afterPacket g d)).2)

theorem exec_consumeTimes (h : s.Steady path) (htopic : g.attachedTopic = topic) (count : ℕ) :
    ∃ s', (consumeTimes topic count g).exec s =
      some (takePackets (s.file path) count g, s') := by
  induction count generalizing s g with
  | zero => exact ⟨s, rfl⟩
  | succ count ih =>
    obtain ⟨s₁, hsteady, hfile, -, hrun⟩ := h.exec_consumePacket htopic
    simp only [consumeTimes, CallProgram.run_bind, hrun, Option.bind_some, takePackets]
    cases topicFormat.parseAt (s.file path) g.readPointer.toNat with
    | none => exact ⟨s₁, rfl⟩
    | some d =>
      obtain ⟨s₂, hrest⟩ := ih hsteady (g := afterPacket g d) htopic
      refine ⟨s₂, ?_⟩
      simp only [CallProgram.run_bind, hrest, hfile, Option.bind_some, CallProgram.pure_eq_ret,
        CallProgram.run_ret]

/-- Consumption goes on as long as there are frames. -/
theorem length_takePackets (hv : v.length < 2 ^ 63) (count : ℕ) (g : Group) :
    (takePackets v count g).1.length =
      min count (topicFormat.frames v g.readPointer.toNat).length := by
  induction count generalizing g with
  | zero => rw [Nat.zero_min]; rfl
  | succ count ih =>
    rw [takePackets]
    cases hparse : topicFormat.parseAt v g.readPointer.toNat with
    | none => rw [FrameFormat.frames_of_none hparse]; rfl
    | some d =>
      dsimp only
      rw [FrameFormat.frames_of_some hparse, List.length_cons, List.length_cons, ih,
        toNat_readPointer_afterPacket hv hparse, Nat.succ_min_succ]
      rfl

/-! ### The two walks -/

/-- Over the frames of the file `ack_packet_batch` goes as far as `consume_packet`. -/
theorem batchWalk_of_le_frames (hv : v.length < 2 ^ 63) {count : ℕ} {g : Group}
    (hcount : count ≤ (topicFormat.frames v g.readPointer.toNat).length) (passed : UInt64) :
    batchWalk v count g.readPointer passed =
      ((takePackets v count g).2.readPointer, passed + UInt64.ofNat count) := by
  induction count generalizing g passed with
  | zero => exact congrArg _ (UInt64.add_zero passed).symm
  | succ count ih =>
    rw [batchWalk_succ hv, takePackets]
    cases hparse : topicFormat.parseAt v g.readPointer.toNat with
    | none =>
      rw [FrameFormat.frames_of_none hparse] at hcount
      exact absurd hcount (Nat.not_succ_le_zero _)
    | some d =>
      rw [FrameFormat.frames_of_some hparse, List.length_cons, topicFormat_headerLen,
        ← toNat_readPointer_afterPacket hv hparse] at hcount
      rw [wholeAt_of_parseAt hparse]
      refine (ih (g := afterPacket g d) (Nat.le_of_succ_le_succ hcount) (passed + 1)).trans ?_
      rw [UInt64.add_assoc, UInt64.add_comm 1, UInt64.ofNat_add]
      rfl

/-- The number of packets passed over does not wrap. -/
theorem le_passed_batchWalk (hv : v.length < 2 ^ 63) {count : ℕ} {off passed : UInt64}
    (hcount : passed.toNat + count < 2 ^ 64) :
    passed.toNat ≤ (batchWalk v count off passed).2.toNat := by
  induction count generalizing off passed with
  | zero => exact Nat.le_refl _
  | succ count ih =>
    rw [batchWalk_succ hv]
    have hone : (passed + 1).toNat = passed.toNat + 1 := by
      have : (1 : UInt64).toNat = 1 := rfl
      rw [UInt64.toNat_add, this]
      omega
    split
    · exact Nat.le_refl _
    · refine Nat.le_trans (Nat.le_succ _) (Nat.le_trans (Nat.le_of_eq hone.symm) (ih ?_))
      omega

/-- A walk that passes over a whole header moves on and counts it. -/
theorem batchWalk_of_wholeAt (hv : v.length < 2 ^ 63) {count : ℕ} {off : UInt64} {size : UInt32}
    (hcount : count + 1 < 2 ^ 64) (hwhole : wholeAt v off.toNat = some size) :
    0 < (batchWalk v (count + 1) off 0).2 ∧ off < (batchWalk v (count + 1) off 0).1 := by
  obtain ⟨-, hfits⟩ := wholeAt_eq_some_iff.mp hwhole
  have hfour : packetSizeHeaderSize.toNat = 4 := rfl
  rw [batchWalk_succ hv, hwhole]
  dsimp only
  constructor
  · rw [UInt64.lt_iff_toNat_lt]
    have hone : (0 + 1 : UInt64).toNat + count < 2 ^ 64 := by
      rw [Nat.add_comm]
      exact hcount
    exact le_passed_batchWalk hv hone
  · refine UInt64.lt_of_lt_of_le ?_ (le_batchWalk hv _ _ _)
    have hsize := size.toNat_lt
    rw [UInt64.lt_iff_toNat_lt, UInt64.toNat_add, UInt64.toNat_add, UInt32.toNat_toUInt64, hfour]
    omega

/-! ### When they agree -/

section

variable {count : UInt64} (hv : v.length < 2 ^ 63) (hcount : count ≠ 0)

include hv hcount

theorem passOver_of_le_frames
    (hmany : count.toNat ≤ (topicFormat.frames v g.readPointer.toNat).length) :
    (passOver g count v).1 = 0 ∧
      (passOver g count v).2.readPointer = (takePackets v count.toNat g).2.readPointer := by
  rw [passOver, batchWalk_of_le_frames hv hmany, UInt64.zero_add, UInt64.ofNat_toNat]
  dsimp only
  rw [if_pos rfl, if_pos (UInt64.pos_iff_ne_zero.mpr hcount)]
  exact ⟨rfl, rfl⟩

theorem passOver_of_wholeAt_none (hnone : wholeAt v g.readPointer.toNat = none) :
    passOver g count v = (-1, g) := by
  have hne : count.toNat ≠ 0 := fun hzero => hcount (UInt64.toNat_inj.mp hzero)
  obtain ⟨n, hn⟩ := Nat.exists_eq_succ_of_ne_zero hne
  rw [passOver, hn, Nat.succ_eq_add_one, batchWalk_succ hv, hnone]
  dsimp only
  rw [if_neg hcount.symm, if_neg (UInt64.lt_irrefl _)]

/-- Whatever it returns, a walk that has taken a step has moved the group. -/
theorem lt_readPointer_passOver {size : UInt32}
    (hwhole : wholeAt v g.readPointer.toNat = some size) :
    g.readPointer < (passOver g count v).2.readPointer := by
  have hne : count.toNat ≠ 0 := fun hzero => hcount (UInt64.toNat_inj.mp hzero)
  obtain ⟨n, hn⟩ := Nat.exists_eq_succ_of_ne_zero hne
  have hlt := count.toNat_lt
  have hsmall : n + 1 < 2 ^ 64 := by omega
  obtain ⟨hpassed, hmoved⟩ := batchWalk_of_wholeAt hv hsmall hwhole
  rw [passOver, hn, Nat.succ_eq_add_one]
  dsimp only
  rw [if_pos hpassed]
  exact hmoved

end

theorem passOver_fst (g : Group) (count : UInt64) (v : Bytes) :
    (passOver g count v).1 = 0 ∨ (passOver g count v).1 = -1 := by
  rw [passOver]
  dsimp only
  split
  · exact .inl rfl
  · exact .inr rfl

/-- Batch acknowledgement is consumption exactly when the frames of the file suffice, or the walk
cannot take its first step. Otherwise it takes packets for acknowledged that `consume_packet`
refuses, or it moves the group and reports an error. -/
theorem batchMatches_iff (h : s.Steady path) (htopic : g.attachedTopic = topic) {count : UInt64}
    (hcount : count ≠ 0) : BatchMatches s g topic count ↔
      count.toNat ≤ (topicFormat.frames (s.file path) g.readPointer.toNat).length ∨
        wholeAt (s.file path) g.readPointer.toNat = none := by
  have hv := h.small
  obtain ⟨t₁, hbatch⟩ := CursorOp.exec_run_eq h.onTopic g (.ackPacketBatch topic count)
  have hresult : (CursorOp.ackPacketBatch topic count).result g s.view =
      passOver g count (s.file path) := by
    rw [CursorOp.result, h.view_eq, if_neg (by simp [hcount, htopic]), Option.elim_some]
  rw [hresult] at hbatch
  obtain ⟨t₂, htimes⟩ := exec_consumeTimes h htopic count.toNat
  generalize s.file path = v at *
  have hpackets := length_takePackets hv count.toNat g
  constructor
  · rintro ⟨r, g₁, s₁, packets, g₂, s₂, hrun₁, hrun₂, hiff, -, hkeep⟩
    obtain ⟨heq₁, -⟩ := Prod.mk.inj (Option.some.inj (hbatch.symm.trans hrun₁))
    obtain ⟨heq₂, -⟩ := Prod.mk.inj (Option.some.inj (htimes.symm.trans hrun₂))
    by_contra hcond
    obtain ⟨hfew, hsome⟩ := not_or.mp hcond
    obtain ⟨size, hwhole⟩ := Option.ne_none_iff_exists'.mp hsome
    have hmoved := lt_readPointer_passOver hv hcount hwhole
    have hcode := passOver_fst g count v
    rw [heq₁] at hmoved hcode
    rcases hcode with hzero | hneg
    · have hall := hiff.mp hzero
      rw [heq₂, hall] at hpackets
      omega
    · exact (UInt64.ne_of_lt hmoved) (hkeep hneg).1.symm
  · intro hcond
    refine ⟨(passOver g count v).1, (passOver g count v).2, t₁, (takePackets v count.toNat g).1,
      (takePackets v count.toNat g).2, t₂, hbatch, htimes, ?_⟩
    rw [hpackets]
    rcases hcond with hmany | hnone
    · obtain ⟨hzero, hpointer⟩ := passOver_of_le_frames hv hcount hmany
      rw [hzero, Nat.min_eq_left hmany]
      exact ⟨by simp, fun _ => hpointer, fun hr => absurd hr (by decide)⟩
    · have hparse : topicFormat.parseAt v g.readPointer.toNat = none := by
        by_contra hsome
        obtain ⟨d, hd⟩ := Option.ne_none_iff_exists'.mp hsome
        cases (wholeAt_of_parseAt hd).symm.trans hnone
      have hne : 0 ≠ count.toNat := fun hzero => hcount (UInt64.toNat_inj.mp hzero.symm)
      rw [passOver_of_wholeAt_none hv hcount hnone, FrameFormat.frames_of_none hparse,
        List.length_nil, Nat.min_zero]
      have hcode : ¬ (-1 : ℤ) = 0 := by decide
      exact ⟨⟨fun hr => absurd hr hcode, fun heq => absurd heq hne⟩, fun hr => absurd hr hcode,
        fun _ => ⟨rfl, rfl⟩⟩

/-- A topic file with a frame and the first half of another one. -/
def sampleTruncated : Machine := .ofFile (ascii "t") [1, 0, 0, 0, 65, 1, 0]

theorem steady_sampleTruncated : sampleTruncated.Steady (ascii "t") :=
  ⟨Machine.onTopic_ofFile _ _, rfl, rfl, by decide⟩

theorem batchMatches_iff_sample : BatchMatches sampleTruncated samplePayloadsGroup 0 1 ↔
    (1 : UInt64).toNat ≤ (topicFormat.frames (sampleTruncated.file (ascii "t"))
        samplePayloadsGroup.readPointer.toNat).length ∨
      wholeAt (sampleTruncated.file (ascii "t")) samplePayloadsGroup.readPointer.toNat = none :=
  batchMatches_iff steady_sampleTruncated rfl (by decide)

/-- A batch of two packets fails after the first and has moved the group past it. -/
theorem not_batchMatches_sample : ¬ BatchMatches sampleTruncated samplePayloadsGroup 0 2 := by
  rintro ⟨r, g₁, s₁, packets, g₂, s₂, hrun, -, -, -, hkeep⟩
  have hcode := congrArg (Option.map fun x => (x.1.1, x.1.2.readPointer)) hrun
  have hmoved : ((ackPacketBatch samplePayloadsGroup 0 2).exec sampleTruncated).map
      (fun x => (x.1.1, x.1.2.readPointer)) = some (-1, 5) := by decide
  obtain ⟨hr, hpointer⟩ := Prod.mk.inj (Option.some.inj (hmoved.symm.trans hcode))
  exact absurd (hpointer.trans (hkeep hr.symm).1) (by decide)

end SuparnaD

import SuparnaD.Messaging.TopicReading

/-!
# How the read pointer moves

The functions of `messaging/ack_packet.c` and `messaging/manage_groups.c` that set the read pointer,
as functions of the bytes that their load shows. The sums stay sums of `size_t`: a sum that wraps
passes the comparison with the length of the data, and the read pointer goes back.

## Main definitions

* `raiseTo`, `moveOn`, `passOver`, `clampTo` : the four ways to set the read pointer.
* `CursorOp`, with `CursorOp.run`, `CursorOp.result` and `CursorOp.Forward`.

## Main results

* `passOver_one_of_parseAt` : passing over one packet is like consuming it.
* `CursorOp.computes_run` : every operation computes its result from what its load shows.
* `le_readPointer_passOver` : passing over packets never goes back.
* `CursorOp.readPointer_le_iff` : the read pointer does not go back exactly when no sum wraps.
-/

namespace SuparnaD

open Broker

/-! ### The four ways to set the read pointer -/

/-- Raise the read pointer to the end of a packet within the data. -/
def raiseTo (g : Group) (stop : UInt64) (v : Bytes) : ℤ × Group :=
  if v.length < stop.toNat then (-1, g)
  else if g.readPointer < stop then (0, { g with readPointer := stop })
  else (0, g)

/-- Move the read pointer on, unless the sum exceeds the length of the data. -/
def moveOn (g : Group) (count : UInt64) (v : Bytes) : ℤ × Group :=
  if v.length < (g.readPointer + count).toNat then (-1, g)
  else (0, { g with readPointer := g.readPointer + count, lastReadSize := count })

/-- The offset after at most `count` packets, and the number of packets passed over so far. -/
def batchWalk (v : Bytes) : ℕ → UInt64 → UInt64 → UInt64 × UInt64
  | 0, off, passed => (off, passed)
  | count + 1, off, passed =>
    match headerAt v off.toNat with
    | none => (off, passed)
    | some size =>
      if v.length < (off + (packetSizeHeaderSize + size.toUInt64)).toNat then (off, passed)
      else batchWalk v count (off + (packetSizeHeaderSize + size.toUInt64)) (passed + 1)

/-- Move the read pointer over the next packets. -/
def passOver (g : Group) (count : UInt64) (v : Bytes) : ℤ × Group :=
  let r := batchWalk v count.toNat g.readPointer 0
  (if r.2 = count then 0 else -1,
    if 0 < r.2 then { g with readPointer := r.1, lastReadSize := r.1 - g.readPointer } else g)

/-- Set the read pointer, at most to the end of the data. -/
def clampTo (g : Group) (target : UInt64) (v : Bytes) : ℤ × Group :=
  (0, { g with readPointer :=
    if v.length.toUInt64 < target then v.length.toUInt64 else target })

/-- Passing over one packet is like consuming it. -/
theorem passOver_one_of_parseAt {g : Group} {v d : Bytes} (hv : v.length < 2 ^ 63)
    (h : topicFormat.parseAt v g.readPointer.toNat = some d) :
    passOver g 1 v = (0, afterPacket g d) := by
  obtain ⟨hvalue, hvalid, -, hfits⟩ := FrameFormat.parseAt_eq_some_iff.mp h
  have hmax := lt_of_le_maxPacketSize hvalid.2
  rw [topicFormat_headerLen] at hvalue hfits
  have hsize : u32OfBytes ((v.drop g.readPointer.toNat).take 4) = d.length.toUInt32 := by
    rw [← UInt32.toNat_inj, toNat_u32OfBytes, toNat_toUInt32 (by omega)]
    exact hvalue
  have hhead : headerAt v g.readPointer.toNat = some d.length.toUInt32 := by
    rw [headerAt, if_pos (by omega), hsize]
  have hend := toNat_readPointer_afterPacket hv h
  rw [afterPacket] at hend
  have hsub : g.readPointer + (packetSizeHeaderSize + d.length.toUInt32.toUInt64) - g.readPointer =
      packetSizeHeaderSize + d.length.toUInt32.toUInt64 := by
    rw [UInt64.add_comm, UInt64.add_sub_cancel]
  have hlong : ¬ v.length <
      (g.readPointer + (packetSizeHeaderSize + d.length.toUInt32.toUInt64)).toNat := by
    rw [hend]
    omega
  have hwalk : batchWalk v (1 : UInt64).toNat g.readPointer 0 =
      (g.readPointer + (packetSizeHeaderSize + d.length.toUInt32.toUInt64), 1) := by
    change batchWalk v (0 + 1) g.readPointer 0 = _
    rw [batchWalk, hhead]
    dsimp only
    rw [if_neg hlong]
    rfl
  rw [passOver, hwalk]
  dsimp only
  rw [if_pos rfl, if_pos (by decide), hsub, afterPacket]

/-- At the end of the data there is nothing to pass over. -/
theorem passOver_of_length_le {g : Group} {v : Bytes} (h : v.length ≤ g.readPointer.toNat)
    (count : UInt64) : (passOver g count v).2 = g := by
  have hhead : headerAt v g.readPointer.toNat = none := by
    rw [headerAt, if_neg (by omega)]
  have hwalk (n : ℕ) : batchWalk v n g.readPointer 0 = (g.readPointer, 0) := by
    cases n with
    | zero => rfl
    | succ n => rw [batchWalk, hhead]
  rw [passOver, hwalk]
  rfl

/-! ### The functions of the source -/

section

variable {s : Machine} {path : Bytes} (h : s.OnTopic path)

include h

theorem Machine.OnTopic.computes_ackPacket (g : Group) (packet : Packet) :
    s.Computes path (ackPacket g packet) fun view => view.elim (-1, g)
      (raiseTo g (packet.offsetInTopic + (packetSizeHeaderSize + packet.packetSize.toUInt64))) := by
  refine h.computes_whenLoaded fun s' v hshow => ?_
  simp only [CallProgram.run_bind, hshow.exec_chunkSize, Option.bind_some, hshow.lt_size_iff,
    CallProgram.run_ite, CallProgram.pure_eq_ret, CallProgram.run_ret, raiseTo]
  split_ifs <;> rfl

/-- Two checks before the load that give up with the same result. -/
theorem Machine.OnTopic.computes_checked {α : Type} {refused : α} {p : Broker α}
    {f : Option Bytes → α} (b c : Prop) [Decidable b] [Decidable c]
    (hp : s.Computes path p f) :
    s.Computes path (if b then pure refused else if c then pure refused else p)
      fun view => if b ∨ c then refused else f view := by
  by_cases hb : b
  · simp only [hb, true_or, ↓reduceIte]
    exact h.computes_pure refused
  by_cases hc : c
  · simp only [hb, hc, or_true, ↓reduceIte]
    exact h.computes_pure refused
  · simpa only [hb, hc, or_self, ↓reduceIte] using hp

theorem Machine.OnTopic.computes_ackPacketBySize (g : Group) (topic : ℕ) (packetSize : UInt64) :
    s.Computes path (ackPacketBySize g topic packetSize) fun view =>
      if packetSize = 0 ∨ g.attachedTopic ≠ topic then (-1, g)
      else view.elim (-1, g) (moveOn g (packetSizeHeaderSize + packetSize)) := by
  refine h.computes_checked _ _ (h.computes_whenLoaded fun s' v hshow => ?_)
  simp only [CallProgram.run_bind, hshow.exec_chunkSize, Option.bind_some, hshow.lt_size_iff,
    CallProgram.run_ite, CallProgram.pure_eq_ret, CallProgram.run_ret, moveOn, UInt64.add_assoc]
  split_ifs <;> rfl

theorem Machine.OnTopic.computes_ackPacketByOffset (g : Group) (topic : ℕ)
    (offset packetSize : UInt64) :
    s.Computes path (ackPacketByOffset g topic offset packetSize) fun view =>
      if packetSize = 0 ∨ g.attachedTopic ≠ topic then (-1, g)
      else view.elim (-1, g) (raiseTo g (offset + (packetSizeHeaderSize + packetSize))) := by
  refine h.computes_checked _ _ (h.computes_whenLoaded fun s' v hshow => ?_)
  simp only [CallProgram.run_bind, hshow.exec_chunkSize, Option.bind_some, hshow.lt_size_iff,
    CallProgram.run_ite, CallProgram.pure_eq_ret, CallProgram.run_ret, raiseTo]
  split_ifs <;> rfl

omit h in
theorem Machine.Shows.exec_ackBatchLoop {v : Bytes} (hshow : s.Shows path v) (count : ℕ)
    (off passed : UInt64) :
    (ackBatchLoop count off passed).exec s = some (batchWalk v count off passed, s) := by
  induction count generalizing off passed with
  | zero => rfl
  | succ count ih =>
    rw [ackBatchLoop, hshow.exec_readHeader off (off, passed), batchWalk, headerAt]
    split
    · simp only [CallProgram.run_bind, hshow.exec_chunkSize, Option.bind_some, hshow.lt_size_iff,
        CallProgram.run_ite, ih, CallProgram.pure_eq_ret, CallProgram.run_ret]
      split <;> rfl
    · rfl

theorem Machine.OnTopic.computes_ackPacketBatch (g : Group) (topic : ℕ) (count : UInt64) :
    s.Computes path (ackPacketBatch g topic count) fun view =>
      if count = 0 ∨ g.attachedTopic ≠ topic then (-1, g)
      else view.elim (-1, g) (passOver g count) := by
  refine h.computes_checked _ _ (h.computes_whenLoaded fun s' v hshow => ?_)
  simp only [CallProgram.run_bind, hshow.exec_ackBatchLoop, Option.bind_some,
    CallProgram.pure_eq_ret, CallProgram.run_ret, passOver]

theorem Machine.OnTopic.computes_ackPacketBatchBySize (g : Group) (topic : ℕ)
    (packetSizes : List UInt64) :
    s.Computes path (ackPacketBatchBySize g topic packetSizes) fun view =>
      if packetSizes.length = 0 ∨ g.attachedTopic ≠ topic then (-1, g)
      else view.elim (-1, g) fun v =>
        (sumPacketSizes 0 packetSizes).elim (-1, g) fun total => moveOn g total v := by
  refine h.computes_checked _ _ (h.computes_whenLoaded fun s' v hshow => ?_)
  cases sumPacketSizes 0 packetSizes with
  | none => rfl
  | some total =>
    simp only [CallProgram.run_bind, hshow.exec_chunkSize, Option.bind_some, hshow.lt_size_iff,
      CallProgram.run_ite, CallProgram.pure_eq_ret, CallProgram.run_ret, moveOn,
      Option.elim_some]
    split_ifs <;> rfl

theorem Machine.OnTopic.computes_setGroupPointer (g : Group) (offset : UInt64) :
    s.Computes path (setGroupPointer g offset) fun view =>
      view.elim (-1, g) (clampTo g offset) := by
  refine h.computes_whenLoaded fun s' v hshow => ?_
  simp only [CallProgram.run_bind, hshow.exec_chunkSize, Option.bind_some,
    CallProgram.pure_eq_ret, CallProgram.run_ret, clampTo]

theorem Machine.OnTopic.computes_advanceGroupPointer (g : Group) (bytes : UInt64) :
    s.Computes path (advanceGroupPointer g bytes) fun view =>
      view.elim (-1, g) (clampTo g (g.readPointer + bytes)) := by
  refine h.computes_whenLoaded fun s' v hshow => ?_
  simp only [CallProgram.run_bind, hshow.exec_chunkSize, Option.bind_some,
    CallProgram.pure_eq_ret, CallProgram.run_ret, clampTo]

end

/-! ### What stays -/

/-- The second group has the id and the topic of the first. -/
structure Group.Same (g g' : Group) : Prop where
  groupId : g'.groupId = g.groupId
  attachedTopic : g'.attachedTopic = g.attachedTopic

theorem Group.Same.elim {α : Type} {g : Group} {f : α → ℤ × Group} (hf : ∀ a, g.Same (f a).2)
    (o : Option α) : g.Same (o.elim (-1, g) f).2 := by
  cases o with
  | none => exact ⟨rfl, rfl⟩
  | some a => exact hf a

theorem Group.Same.unless {p : Prop} [Decidable p] {g : Group} {r : ℤ × Group}
    (h : g.Same r.2) : g.Same (if p then ((-1 : ℤ), g) else r).2 := by
  split
  · exact ⟨rfl, rfl⟩
  · exact h

theorem same_raiseTo (g : Group) (stop : UInt64) (v : Bytes) : g.Same (raiseTo g stop v).2 := by
  rw [raiseTo]
  split_ifs <;> exact ⟨rfl, rfl⟩

theorem same_moveOn (g : Group) (count : UInt64) (v : Bytes) : g.Same (moveOn g count v).2 := by
  rw [moveOn]
  split_ifs <;> exact ⟨rfl, rfl⟩

theorem same_passOver (g : Group) (count : UInt64) (v : Bytes) :
    g.Same (passOver g count v).2 := by
  rw [passOver]
  dsimp only
  split_ifs <;> exact ⟨rfl, rfl⟩

theorem same_clampTo (g : Group) (target : UInt64) (v : Bytes) :
    g.Same (clampTo g target v).2 := ⟨rfl, rfl⟩

/-! ### When the read pointer goes back -/

/-- The sum of two sizes is not cut to 64 bits. -/
def FitsSize (a b : UInt64) : Prop := a.toNat + b.toNat < 2 ^ 64

instance (a b : UInt64) : Decidable (FitsSize a b) := inferInstanceAs (Decidable (_ < _))

theorem le_add_iff_fitsSize (a b : UInt64) : a ≤ a + b ↔ FitsSize a b := by
  have ha := a.toNat_lt
  have hb := b.toNat_lt
  rw [FitsSize, UInt64.le_iff_toNat_le, UInt64.toNat_add]
  omega

variable {v : Bytes}

theorem le_readPointer_raiseTo (g : Group) (stop : UInt64) (v : Bytes) :
    g.readPointer ≤ (raiseTo g stop v).2.readPointer := by
  rw [raiseTo]
  split_ifs with hlong hraise
  · exact UInt64.le_refl _
  · exact UInt64.le_of_lt hraise
  · exact UInt64.le_refl _

theorem le_readPointer_moveOn_iff (g : Group) (count : UInt64) (v : Bytes) :
    g.readPointer ≤ (moveOn g count v).2.readPointer ↔
      ((g.readPointer + count).toNat ≤ v.length → FitsSize g.readPointer count) := by
  rw [moveOn]
  split_ifs with hlong
  · simp only [UInt64.le_refl, Nat.not_le.mpr hlong, false_imp_iff]
  · rw [le_add_iff_fitsSize]
    simp only [Nat.not_lt.mp hlong, true_imp_iff]

/-- Data in memory is so short that the offsets of whole packets do not wrap. -/
theorem le_batchWalk (hv : v.length < 2 ^ 63) (count : ℕ) (off passed : UInt64) :
    off ≤ (batchWalk v count off passed).1 := by
  induction count generalizing off passed with
  | zero => exact UInt64.le_refl _
  | succ count ih =>
    rw [batchWalk, headerAt]
    split
    · exact UInt64.le_refl _
    rename_i size hsize
    split
    · exact UInt64.le_refl _
    · split at hsize
      swap
      · cases hsize
      refine UInt64.le_trans ?_ (ih _ _)
      have hsize' := size.toNat_lt
      have hfour : packetSizeHeaderSize.toNat = 4 := rfl
      rw [le_add_iff_fitsSize, FitsSize, UInt64.toNat_add, UInt32.toNat_toUInt64, hfour]
      omega

theorem le_readPointer_passOver (hv : v.length < 2 ^ 63) (g : Group) (count : UInt64) :
    g.readPointer ≤ (passOver g count v).2.readPointer := by
  rw [passOver]
  dsimp only
  split_ifs
  · exact le_batchWalk hv _ _ _
  · exact UInt64.le_refl _

theorem le_readPointer_clampTo_iff (hv : v.length < 2 ^ 63) (g : Group) (target : UInt64) :
    g.readPointer ≤ (clampTo g target v).2.readPointer ↔
      g.readPointer.toNat ≤ v.length ∧ g.readPointer ≤ target := by
  have hlen : v.length.toUInt64.toNat = v.length := toNat_toUInt64 (by omega)
  simp only [clampTo, UInt64.le_iff_toNat_le]
  split_ifs with hcut <;> rw [UInt64.lt_iff_toNat_lt, hlen] at hcut
  · rw [hlen]
    omega
  · omega

/-! ### Every operation at once -/

/-- The operations that acknowledge packets, and `advance_group_pointer`. -/
inductive CursorOp where
  | ackPacket (packet : Packet)
  | ackPacketBySize (topic : ℕ) (packetSize : UInt64)
  | ackPacketByOffset (topic : ℕ) (offset packetSize : UInt64)
  | ackPacketBatch (topic : ℕ) (count : UInt64)
  | ackPacketBatchBySize (topic : ℕ) (packetSizes : List UInt64)
  | advanceGroupPointer (bytes : UInt64)
  deriving DecidableEq, Repr

namespace CursorOp

/-- The function of the source. -/
def run (g : Group) : CursorOp → Broker (ℤ × Group)
  | .ackPacket packet => SuparnaD.ackPacket g packet
  | .ackPacketBySize topic packetSize => SuparnaD.ackPacketBySize g topic packetSize
  | .ackPacketByOffset topic offset packetSize =>
    SuparnaD.ackPacketByOffset g topic offset packetSize
  | .ackPacketBatch topic count => SuparnaD.ackPacketBatch g topic count
  | .ackPacketBatchBySize topic packetSizes => SuparnaD.ackPacketBatchBySize g topic packetSizes
  | .advanceGroupPointer bytes => SuparnaD.advanceGroupPointer g bytes

/-- What the operation computes from what its load shows. -/
def result (g : Group) (view : Option Bytes) : CursorOp → ℤ × Group
  | .ackPacket packet => view.elim (-1, g)
      (raiseTo g (packet.offsetInTopic + (packetSizeHeaderSize + packet.packetSize.toUInt64)))
  | .ackPacketBySize topic packetSize =>
    if packetSize = 0 ∨ g.attachedTopic ≠ topic then (-1, g)
    else view.elim (-1, g) (moveOn g (packetSizeHeaderSize + packetSize))
  | .ackPacketByOffset topic offset packetSize =>
    if packetSize = 0 ∨ g.attachedTopic ≠ topic then (-1, g)
    else view.elim (-1, g) (raiseTo g (offset + (packetSizeHeaderSize + packetSize)))
  | .ackPacketBatch topic count =>
    if count = 0 ∨ g.attachedTopic ≠ topic then (-1, g)
    else view.elim (-1, g) (passOver g count)
  | .ackPacketBatchBySize topic packetSizes =>
    if packetSizes.length = 0 ∨ g.attachedTopic ≠ topic then (-1, g)
    else view.elim (-1, g) fun v =>
      (sumPacketSizes 0 packetSizes).elim (-1, g) fun total => moveOn g total v
  | .advanceGroupPointer bytes => view.elim (-1, g) (clampTo g (g.readPointer + bytes))

theorem computes_run {s : Machine} {path : Bytes} (h : s.OnTopic path) (g : Group)
    (op : CursorOp) : s.Computes path (op.run g) fun view => op.result g view := by
  cases op with
  | ackPacket packet => exact h.computes_ackPacket g packet
  | ackPacketBySize topic packetSize => exact h.computes_ackPacketBySize g topic packetSize
  | ackPacketByOffset topic offset packetSize =>
    exact h.computes_ackPacketByOffset g topic offset packetSize
  | ackPacketBatch topic count => exact h.computes_ackPacketBatch g topic count
  | ackPacketBatchBySize topic packetSizes =>
    exact h.computes_ackPacketBatchBySize g topic packetSizes
  | advanceGroupPointer bytes => exact h.computes_advanceGroupPointer g bytes

/-- An operation keeps the id and the topic of the group. -/
theorem sameGroup_result (g : Group) (view : Option Bytes) (op : CursorOp) :
    g.Same (op.result g view).2 := by
  cases op with
  | ackPacket packet => exact .elim (fun v => same_raiseTo g _ v) view
  | ackPacketBySize topic packetSize => exact .unless (.elim (fun v => same_moveOn g _ v) view)
  | ackPacketByOffset topic offset packetSize =>
    exact .unless (.elim (fun v => same_raiseTo g _ v) view)
  | ackPacketBatch topic count => exact .unless (.elim (fun v => same_passOver g _ v) view)
  | ackPacketBatchBySize topic packetSizes =>
    exact .unless (.elim (fun v => .elim (fun total => same_moveOn g total v) _) view)
  | advanceGroupPointer bytes => exact .elim (fun v => same_clampTo g _ v) view

/-- The number of bytes that packets of the given sizes take, as a `size_t`. -/
def frameTotal : List UInt64 → UInt64
  | [] => 0
  | packetSize :: rest => packetSizeHeaderSize + packetSize + frameTotal rest

/-- The sum that sets the read pointer does not wrap, if the operation gets as far as that sum. An
advance also needs a read pointer within the data. -/
def Forward (g : Group) (view : Option Bytes) : CursorOp → Prop
  | .ackPacket _ | .ackPacketByOffset .. | .ackPacketBatch .. => True
  | .ackPacketBySize topic packetSize =>
    packetSize ≠ 0 → g.attachedTopic = topic → ∀ v, view = some v →
      (g.readPointer + (packetSizeHeaderSize + packetSize)).toNat ≤ v.length →
        FitsSize g.readPointer (packetSizeHeaderSize + packetSize)
  | .ackPacketBatchBySize topic packetSizes =>
    0 ∉ packetSizes → g.attachedTopic = topic → ∀ v, view = some v →
      (g.readPointer + frameTotal packetSizes).toNat ≤ v.length →
        FitsSize g.readPointer (frameTotal packetSizes)
  | .advanceGroupPointer bytes => ∀ v, view = some v →
      g.readPointer.toNat ≤ v.length ∧ FitsSize g.readPointer bytes

theorem sumPacketSizes_eq (total : UInt64) (packetSizes : List UInt64) :
    sumPacketSizes total packetSizes =
      if 0 ∈ packetSizes then none
      else some (total + frameTotal packetSizes) := by
  induction packetSizes generalizing total with
  | nil => simp [sumPacketSizes, frameTotal]
  | cons packetSize rest ih =>
    rw [sumPacketSizes]
    split_ifs with hzero hmem hmem
    · rfl
    · exact absurd (hzero ▸ List.mem_cons_self) hmem
    · rw [ih, if_pos ((List.mem_cons.mp hmem).resolve_left (Ne.symm hzero))]
    · rw [ih, if_neg fun hrest => hmem (List.mem_cons_of_mem _ hrest), frameTotal,
        UInt64.add_assoc]

theorem le_readPointer_result_iff (g : Group) {view : Option Bytes}
    (hview : ∀ v, view = some v → v.length < 2 ^ 63) (op : CursorOp) :
    g.readPointer ≤ (op.result g view).2.readPointer ↔ op.Forward g view := by
  cases view with
  | none => cases op <;> simp [result, Forward]
  | some v =>
  have hv := hview v rfl
  cases op with
  | ackPacket packet =>
    simpa only [result, Forward, iff_true, Option.elim_some] using le_readPointer_raiseTo ..
  | ackPacketBySize topic packetSize =>
    by_cases hguard : packetSize = 0 ∨ g.attachedTopic ≠ topic
    · rcases hguard with hguard | hguard <;> simp [result, Forward, hguard]
    · rw [not_or, not_not] at hguard
      simp [result, Forward, hguard, le_readPointer_moveOn_iff]
  | ackPacketByOffset topic offset packetSize =>
    simp only [result, Forward, iff_true, Option.elim_some]
    split_ifs
    · exact UInt64.le_refl _
    · exact le_readPointer_raiseTo ..
  | ackPacketBatch topic count =>
    simp only [result, Forward, iff_true, Option.elim_some]
    split_ifs
    · exact UInt64.le_refl _
    · exact le_readPointer_passOver hv g count
  | ackPacketBatchBySize topic packetSizes =>
    by_cases hguard : packetSizes.length = 0 ∨ g.attachedTopic ≠ topic
    · rcases hguard with hguard | hguard
      · rw [List.length_eq_zero_iff] at hguard
        have hlt := g.readPointer.toNat_lt
        simp [result, Forward, hguard, FitsSize, frameTotal, hlt]
      · simp [result, Forward, hguard]
    · rw [not_or, not_not] at hguard
      by_cases hzero : 0 ∈ packetSizes
      · simp [result, Forward, hguard, sumPacketSizes_eq, hzero]
      · simp [result, Forward, hguard, sumPacketSizes_eq, hzero, le_readPointer_moveOn_iff]
  | advanceGroupPointer bytes =>
    simp [result, Forward, le_readPointer_clampTo_iff hv, le_add_iff_fitsSize]

/-- An operation on a group leaves the read pointer where it was or moves it on, exactly when the
sum that sets the read pointer does not wrap. -/
theorem readPointer_le_iff {s : Machine} {path : Bytes} (h : s.OnTopic path) (g : Group)
    (op : CursorOp) :
    ∃ r g' s', (op.run g).exec s = some ((r, g'), s') ∧
      (g.readPointer ≤ g'.readPointer ↔ op.Forward g s.view) := by
  obtain ⟨s', -, -, hrun⟩ := computes_run h g op
  refine ⟨_, _, s', hrun, le_readPointer_result_iff g (fun v hv => ?_) op⟩
  exact h.length_view_lt hv

/-- A group at offset 10 of a topic file of 20 bytes. -/
def sampleGroup : Group := ⟨ascii "g", 0, 10, 0⟩

/-- The topic of `sampleGroup`. -/
def sampleMachine : Machine :=
  .ofFile (ascii "t") (List.replicate 20 65)

theorem readPointer_le_iff_sample :
    ∃ r g' s', ((CursorOp.advanceGroupPointer 7).run sampleGroup).exec sampleMachine =
        some ((r, g'), s') ∧
      (sampleGroup.readPointer ≤ g'.readPointer ↔
        (CursorOp.advanceGroupPointer 7).Forward sampleGroup sampleMachine.view) :=
  readPointer_le_iff (Machine.onTopic_ofFile _ _) sampleGroup (.advanceGroupPointer 7)

/-- The `packet_size` `-5` of a client moves the group from offset 10 back to offset 9. -/
theorem readPointer_lt_of_negative_size :
    ∃ g' s', ((CursorOp.ackPacketBySize 0 (sizeOfInt (atoi (ascii "-5")))).run
        sampleGroup).exec sampleMachine = some ((0, g'), s') ∧
      ¬ sampleGroup.readPointer ≤ g'.readPointer :=
  ⟨_, _, rfl, by decide⟩

end CursorOp

end SuparnaD

import SuparnaD.Messaging.CursorMoves
import SuparnaD.Messaging.ReadOnly

/-!
# The operations on a consumer group

All functions that work on a group and a topic, each as one `GroupOp`. An operation loads the chunk
and computes its result and the new group from what the load shows; when storage and allocation
succeed this is the content of the file.

## Main definitions

* `readOn`, `consumeSized` : reading bytes, and a packet of a known size.
* `GroupOp`, with `GroupOp.run` and `GroupOp.result`.
* `Group.Reaches` : the read pointer stays or is set within the data.

## Main results

* `GroupOp.exec_run` : an operation returns, changes no file, and sets the read pointer within the
  file or not at all.
* `GroupOp.exec_run_of_steady` : an operation computes its result from the content of the file.
-/

namespace SuparnaD

open Broker CallProgram

/-! ### Reading bytes and packets of a known size -/

/-- Read at most `size` bytes and move past them. -/
def readOn (g : Group) (size : UInt64) (v : Bytes) : Option Bytes × Group :=
  let bytes := (v.drop g.readPointer.toNat).take size.toNat
  (some bytes, if 0 < bytes.length then
      { g with
        lastReadSize := bytes.length.toUInt64
        readPointer := g.readPointer + bytes.length.toUInt64 }
    else g)

/-- Take a packet of the given size at the read pointer, and move past it. -/
def consumeSized (g : Group) (packetSize : UInt64) (v : Bytes) : Option Packet × Group :=
  let data := (v.drop g.readPointer.toNat).take packetSize.toNat
  if v.length < (g.readPointer + packetSize).toNat ∨ data.length ≠ packetSize.toNat then (none, g)
  else (some ⟨packetSize.toUInt32, data, g.readPointer⟩,
    { g with readPointer := g.readPointer + packetSize, lastReadSize := packetSize })

variable {s s' : Machine} {path : Bytes}

/-- What `read_from_group` does when the chunk is loaded. -/
def readBody (g : Group) (size : UInt64) : Broker (Option Bytes × Group) := do
  let bytes ← chunkRead size g.readPointer
  if 0 < bytes.length then
    let bytesRead := bytes.length.toUInt64
    return (some bytes, { g with
      lastReadSize := bytesRead
      readPointer := g.readPointer + bytesRead })
  return (some bytes, g)

theorem readFromGroup_eq (g : Group) (size : UInt64) :
    readFromGroup g size = whenLoaded (none, g) (readBody g size) := rfl

theorem quiet_readBody (g : Group) (size : UInt64) : (readBody g size).Quiet :=
  (quiet_chunkRead _ _).bind fun _ => Within.ite (fun _ => quiet_pure _) fun _ => quiet_pure _

theorem Machine.Shows.exec_readBody {v : Bytes} (h : s.Shows path v) (g : Group)
    (size : UInt64) : (readBody g size).exec s = some (readOn g size v, s) := by
  simp only [readBody, CallProgram.run_bind, h.exec_chunkRead, Option.bind_some,
    CallProgram.run_ite, CallProgram.pure_eq_ret, CallProgram.run_ret, readOn]
  split <;> rfl

theorem Machine.OnTopic.computes_readFromGroup (h : s.OnTopic path) (g : Group) (size : UInt64) :
    s.Computes path (readFromGroup g size) fun view => view.elim (none, g) (readOn g size) := by
  rw [readFromGroup_eq]
  exact h.computes_whenLoaded fun s' v hshow => hshow.exec_readBody g size

/-- What `consume_packet_with_size` does when the chunk is loaded. -/
def consumeSizedBody (g : Group) (packetSize : UInt64) : Broker (Option Packet × Group) := do
  if (← chunkSize) < g.readPointer + packetSize then
    return (none, g)
  if !(← malloc) then
    return (none, g)
  if !(← malloc) then
    return (none, g)
  let data ← chunkRead packetSize g.readPointer
  if data.length ≠ packetSize.toNat then
    return (none, g)
  return (some ⟨packetSize.toUInt32, data, g.readPointer⟩, { g with
    readPointer := g.readPointer + packetSize
    lastReadSize := packetSize })

theorem consumePacketWithSize_eq (g : Group) (topic : ℕ) (packetSize : UInt64) :
    consumePacketWithSize g topic packetSize =
      if packetSize = 0 ∨ maxPacketSize < packetSize.toNat then pure (none, g)
      else if g.attachedTopic ≠ topic then pure (none, g)
      else whenLoaded (none, g) (consumeSizedBody g packetSize) := rfl

theorem quiet_consumeSizedBody (g : Group) (packetSize : UInt64) :
    (consumeSizedBody g packetSize).Quiet := by
  refine quiet_chunkSize.bind fun _ => .unless _ ?_
  refine quiet_malloc.bind fun _ => .unless _ (quiet_malloc.bind fun _ => .unless _ ?_)
  exact (quiet_chunkRead _ _).bind fun _ => .unless _ (quiet_pure _)

/-- The packet is taken from the bytes that are loaded, unless memory runs out. -/
theorem Machine.Shows.exec_consumeSizedBody {v : Bytes} (h : s.Shows path v) (g : Group)
    (packetSize : UInt64) :
    ∃ r s', (consumeSizedBody g packetSize).exec s = some (r, s') ∧ s.Kept s' ∧ s'.Shows path v ∧
      (r = (none, g) ∧ s.faults ≠ [] ∨ r = consumeSized g packetSize v) := by
  rw [consumeSizedBody]
  simp only [CallProgram.run_bind perform chunkSize, h.exec_chunkSize, Option.bind_some,
    h.lt_size_iff]
  by_cases hlong : v.length < (g.readPointer + packetSize).toNat
  · refine ⟨(none, g), s, ?_, .refl s, h, .inr ?_⟩
    · simp only [hlong, ↓reduceIte, CallProgram.pure_eq_ret, CallProgram.run_ret]
    · rw [consumeSized, if_pos (.inl hlong)]
  rw [if_neg hlong]
  obtain ⟨s₁, hkept, hshow, ⟨hrun, hfaults⟩ | hrun⟩ := s.exec_allocations (none, g) (do
    let data ← chunkRead packetSize g.readPointer
    if data.length ≠ packetSize.toNat then
      return (none, g)
    return (some (⟨packetSize.toUInt32, data, g.readPointer⟩ : Packet), { g with
      readPointer := g.readPointer + packetSize
      lastReadSize := packetSize }))
  · exact ⟨_, s₁, hrun, hkept, hshow path v h, .inl ⟨rfl, hfaults⟩⟩
  refine ⟨consumeSized g packetSize v, s₁, hrun.trans ?_, hkept, hshow path v h, .inr rfl⟩
  simp only [CallProgram.run_bind, (hshow path v h).exec_chunkRead, Option.bind_some,
    CallProgram.run_ite, CallProgram.pure_eq_ret, CallProgram.run_ret, consumeSized, hlong,
    false_or]
  split <;> rfl

/-! ### Where the read pointer can go -/

/-- The read pointer is where it was, or among the first `n` offsets of the data. -/
def Group.Reaches (g g' : Group) (n : ℕ) : Prop :=
  g'.readPointer = g.readPointer ∨ g'.readPointer.toNat ≤ n

theorem Group.Reaches.refl (g : Group) (n : ℕ) : g.Reaches g n := .inl rfl

theorem Group.Reaches.mono {g g' : Group} {m n : ℕ} (h : g.Reaches g' m) (hmn : m ≤ n) :
    g.Reaches g' n := h.imp_right fun hle => Nat.le_trans hle hmn

theorem Group.Reaches.unless {p : Prop} [Decidable p] {g : Group} {n : ℕ} {r : ℤ × Group}
    (h : g.Reaches r.2 n) : g.Reaches (if p then ((-1 : ℤ), g) else r).2 n := by
  split
  · exact .refl g n
  · exact h

theorem reaches_raiseTo (g : Group) (stop : UInt64) (v : Bytes) :
    g.Reaches (raiseTo g stop v).2 v.length := by
  rw [raiseTo]
  split_ifs with hlong
  · exact .refl g _
  · exact .inr (Nat.le_of_not_lt hlong)
  · exact .refl g _

theorem reaches_moveOn (g : Group) (count : UInt64) (v : Bytes) :
    g.Reaches (moveOn g count v).2 v.length := by
  rw [moveOn]
  split_ifs with hlong
  · exact .refl g _
  · exact .inr (Nat.le_of_not_lt hlong)

theorem reaches_clampTo (g : Group) (target : UInt64) {v : Bytes} (hv : v.length < 2 ^ 63) :
    g.Reaches (clampTo g target v).2 v.length := by
  have hlen : v.length.toUInt64.toNat = v.length := toNat_toUInt64 (by omega)
  refine .inr ?_
  dsimp only [clampTo]
  split_ifs with hcut
  · exact Nat.le_of_eq hlen
  · rwa [UInt64.lt_iff_toNat_lt, hlen, Nat.not_lt] at hcut

theorem batchWalk_eq_or_le (v : Bytes) (count : ℕ) (off passed : UInt64) :
    (batchWalk v count off passed).1 = off ∨
      (batchWalk v count off passed).1.toNat ≤ v.length := by
  induction count generalizing off passed with
  | zero => exact .inl rfl
  | succ count ih =>
    rw [batchWalk]
    split
    · exact .inl rfl
    split
    · exact .inl rfl
    · rename_i hfits
      rcases ih _ _ with heq | hle
      · exact .inr (heq ▸ Nat.le_of_not_lt hfits)
      · exact .inr hle

theorem reaches_passOver (g : Group) (count : UInt64) (v : Bytes) :
    g.Reaches (passOver g count v).2 v.length := by
  rw [passOver]
  dsimp only
  split_ifs
  · exact batchWalk_eq_or_le v _ _ _
  · exact .refl g _

theorem reaches_readOn (g : Group) (size : UInt64) {v : Bytes} (hv : v.length < 2 ^ 63) :
    g.Reaches (readOn g size v).2 v.length := by
  rw [readOn]
  dsimp only
  split_ifs with hread
  · refine .inr ?_
    rw [List.length_take, List.length_drop] at hread ⊢
    rw [toNat_add_toUInt64 (by omega)]
    omega
  · exact .refl g _

theorem reaches_consumeSized (g : Group) (packetSize : UInt64) (v : Bytes) :
    g.Reaches (consumeSized g packetSize v).2 v.length := by
  rw [consumeSized]
  split_ifs with hfails
  · exact .refl g _
  · exact .inr (Nat.le_of_not_lt (not_or.mp hfails).1)

theorem CursorOp.reaches_result (g : Group) {v : Bytes} (hv : v.length < 2 ^ 63) (op : CursorOp) :
    g.Reaches (op.result g (some v)).2 v.length := by
  cases op with
  | ackPacket packet => exact reaches_raiseTo g _ v
  | ackPacketBySize topic packetSize => exact .unless (reaches_moveOn g _ v)
  | ackPacketByOffset topic offset packetSize => exact .unless (reaches_raiseTo g _ v)
  | ackPacketBatch topic count => exact .unless (reaches_passOver g _ v)
  | ackPacketBatchBySize topic packetSizes =>
    refine .unless ?_
    rw [Option.elim_some]
    cases sumPacketSizes 0 packetSizes with
    | none => exact .refl g _
    | some total => exact reaches_moveOn g total v
  | advanceGroupPointer bytes => exact reaches_clampTo g _ hv

/-- A load shows no more than the file. -/
theorem Machine.OnTopic.length_view_le (h : s.OnTopic path) {v : Bytes} (hv : s.view = some v) :
    v.length ≤ (s.file path).length := by
  rcases h.view_eq hv with rfl | ⟨rfl, -⟩
  · exact Nat.le_refl _
  · exact Nat.zero_le _

/-- An operation that computes the new group from what its load shows. -/
theorem Machine.Computes.reaches {α : Type} {g : Group} {p : Broker (α × Group)}
    {f : Option Bytes → α × Group} (h : s.Computes path p f) (hs : s.OnTopic path)
    (hnone : (f none).2 = g)
    (hsome : ∀ v : Bytes, v.length < 2 ^ 63 → g.Reaches (f (some v)).2 v.length) :
    ∃ a g' s', p.exec s = some ((a, g'), s') ∧ s.Kept s' ∧ s'.OnTopic path ∧
      g.Reaches g' (s.file path).length := by
  obtain ⟨s', hkept, ht, hrun⟩ := h
  refine ⟨_, _, s', hrun, hkept, ht, ?_⟩
  cases hv : s.view with
  | none => exact hnone ▸ .refl _ _
  | some v => exact (hsome v (hs.length_view_lt hv)).mono (hs.length_view_le hv)

/-- `consume_packet` moves past a packet of the file or leaves the group as it was. -/
theorem exec_consumePacket_reaches (h : s.OnTopic path) (g : Group) (topic : ℕ) :
    ∃ p g' s', (consumePacket g topic).exec s = some ((p, g'), s') ∧ s.Kept s' ∧
      s'.OnTopic path ∧ g.Reaches g' (s.file path).length := by
  by_cases htopic : g.attachedTopic = topic
  · obtain ⟨r, s', hrun, hkept, ht, ⟨rfl, -⟩ | ⟨d, hd, hsmall, rfl⟩⟩ :=
      h.exec_consumePacket htopic
    · exact ⟨_, _, s', hrun, hkept, ht, .refl g _⟩
    · refine ⟨_, _, s', hrun, hkept, ht, .inr ?_⟩
      have hfits := (FrameFormat.parseAt_eq_some_iff.mp hd).2.2.2
      rw [topicFormat_headerLen] at hfits
      rw [toNat_readPointer_afterPacket hsmall hd, Machine.file]
      omega
  · refine ⟨none, g, s, ?_, .refl s, h, .refl g _⟩
    rw [consumePacket_eq, if_pos htopic]
    rfl

theorem exec_consumePacketWithSize_reaches (h : s.OnTopic path) (g : Group) (topic : ℕ)
    (packetSize : UInt64) :
    ∃ p g' s', (consumePacketWithSize g topic packetSize).exec s = some ((p, g'), s') ∧
      s.Kept s' ∧ s'.OnTopic path ∧ g.Reaches g' (s.file path).length := by
  rw [consumePacketWithSize_eq]
  by_cases hsize : packetSize = 0 ∨ maxPacketSize < packetSize.toNat
  · exact ⟨none, g, s, by rw [if_pos hsize]; rfl, .refl s, h, .refl g _⟩
  by_cases htopic : g.attachedTopic ≠ topic
  · exact ⟨none, g, s, by rw [if_neg hsize, if_pos htopic]; rfl, .refl s, h, .refl g _⟩
  rw [if_neg hsize, if_neg htopic]
  obtain ⟨s₁, hkept₁, ht₁, ⟨-, hrun⟩ | ⟨v, hv, hshow, hrun⟩⟩ :=
    h.exec_whenLoaded (none, g) (consumeSizedBody g packetSize)
  · exact ⟨none, g, s₁, hrun, hkept₁, ht₁, .refl g _⟩
  obtain ⟨r, s₂, hbody, hkept₂, hshow₂, hcases⟩ := hshow.exec_consumeSizedBody g packetSize
  refine ⟨r.1, r.2, s₂, hrun.trans hbody, hkept₁.trans hkept₂, hshow₂.onTopic, ?_⟩
  rcases hcases with ⟨rfl, -⟩ | rfl
  · exact .refl g _
  · exact (reaches_consumeSized g packetSize v).mono (h.length_view_le hv)

/-! ### Every operation at once -/

/-- The operations on a group. -/
inductive GroupOp where
  | setGroupPointer (offset : UInt64)
  | resetGroupPointer
  | readFromGroup (size : UInt64)
  | groupHasMoreData
  | consumePacket (topic : ℕ)
  | consumePacketWithSize (topic : ℕ) (packetSize : UInt64)
  /-- The operations that acknowledge packets, and `advance_group_pointer`. -/
  | cursor (op : CursorOp)
  deriving DecidableEq, Repr

/-- What an operation returns. -/
inductive GroupResult where
  | code (r : ℤ)
  | bytes (b : Option Bytes)
  | more (b : Bool)
  | packet (p : Option Packet)
  deriving DecidableEq, Repr

/-- The operation gets as far as its load. -/
def CursorOp.loads (g : Group) : CursorOp → Bool
  | .ackPacket _ | .advanceGroupPointer _ => true
  | .ackPacketBySize topic packetSize | .ackPacketByOffset topic _ packetSize =>
    decide (¬ (packetSize = 0 ∨ g.attachedTopic ≠ topic))
  | .ackPacketBatch topic count => decide (¬ (count = 0 ∨ g.attachedTopic ≠ topic))
  | .ackPacketBatchBySize topic packetSizes =>
    decide (¬ (packetSizes.length = 0 ∨ g.attachedTopic ≠ topic))

namespace GroupOp

/-- The operation gets as far as its load. -/
def loads (g : Group) : GroupOp → Bool
  | .setGroupPointer _ | .resetGroupPointer | .readFromGroup _ | .groupHasMoreData => true
  | .consumePacket topic => decide (g.attachedTopic = topic)
  | .consumePacketWithSize topic packetSize =>
    decide (¬ ((packetSize = 0 ∨ maxPacketSize < packetSize.toNat) ∨ g.attachedTopic ≠ topic))
  | .cursor op => op.loads g

/-- The function of the source, with the group after it. -/
def run (g : Group) : GroupOp → Broker (GroupResult × Group)
  | .setGroupPointer offset => Prod.map .code id <$> SuparnaD.setGroupPointer g offset
  | .resetGroupPointer => Prod.map .code id <$> SuparnaD.resetGroupPointer g
  | .readFromGroup size => Prod.map .bytes id <$> SuparnaD.readFromGroup g size
  | .groupHasMoreData => (fun b => (.more b, g)) <$> SuparnaD.groupHasMoreData g
  | .consumePacket topic => Prod.map .packet id <$> SuparnaD.consumePacket g topic
  | .consumePacketWithSize topic packetSize =>
    Prod.map .packet id <$> SuparnaD.consumePacketWithSize g topic packetSize
  | .cursor op => Prod.map .code id <$> op.run g

/-- What the operation computes from the content of the file. -/
def result (g : Group) (v : Bytes) : GroupOp → GroupResult × Group
  | .setGroupPointer offset => (clampTo g offset v).map .code id
  | .resetGroupPointer => (clampTo g 0 v).map .code id
  | .readFromGroup size => (readOn g size v).map .bytes id
  | .groupHasMoreData => (.more (decide (g.readPointer.toNat < v.length)), g)
  | .consumePacket topic =>
    if g.attachedTopic ≠ topic then (.packet none, g)
    else match topicFormat.parseAt v g.readPointer.toNat with
      | none => (.packet none, g)
      | some d => (.packet (some (packetAt g d)), afterPacket g d)
  | .consumePacketWithSize topic packetSize =>
    if (packetSize = 0 ∨ maxPacketSize < packetSize.toNat) ∨ g.attachedTopic ≠ topic then
      (.packet none, g)
    else (consumeSized g packetSize v).map .packet id
  | .cursor op => (op.result g (some v)).map .code id

theorem exec_map_of_eq {α β : Type} {p : Broker α} {a : α} (hrun : p.exec s = some (a, s'))
    (f : α → β) : (f <$> p).exec s = some (f a, s') :=
  (CallProgram.run_map perform f p s).trans (congrArg (Option.map _) hrun)

/-- Rename the result of an operation. -/
theorem exec_map_result {α : Type} {f : α → GroupResult} {g : Group} {n : ℕ}
    {p : Broker (α × Group)}
    (h : ∃ a g' s', p.exec s = some ((a, g'), s') ∧ s.Kept s' ∧ s'.OnTopic path ∧
      g.Reaches g' n) :
    ∃ r g' s', (Prod.map f id <$> p).exec s = some ((r, g'), s') ∧ s.Kept s' ∧ s'.OnTopic path ∧
      g.Reaches g' n := by
  obtain ⟨a, g', s', hrun, hrest⟩ := h
  exact ⟨f a, g', s', exec_map_of_eq hrun _, hrest⟩

/-- An operation returns, changes no file, and leaves the read pointer where it was or within the
file. -/
theorem exec_run (h : s.OnTopic path) (g : Group) (op : GroupOp) :
    ∃ r g' s', (op.run g).exec s = some ((r, g'), s') ∧ s.Kept s' ∧ s'.OnTopic path ∧
      g.Reaches g' (s.file path).length := by
  cases op with
  | setGroupPointer offset =>
    exact exec_map_result ((h.computes_setGroupPointer g offset).reaches h rfl fun v hv =>
      reaches_clampTo g offset hv)
  | resetGroupPointer =>
    exact exec_map_result ((h.computes_setGroupPointer g 0).reaches h rfl fun v hv =>
      reaches_clampTo g 0 hv)
  | readFromGroup size =>
    exact exec_map_result ((h.computes_readFromGroup g size).reaches h rfl fun v hv =>
      reaches_readOn g size hv)
  | groupHasMoreData =>
    obtain ⟨s', hkept, ht, hrun⟩ := h.computes_groupHasMoreData g
    exact ⟨_, g, s', exec_map_of_eq hrun _, hkept, ht, .refl g _⟩
  | consumePacket topic => exact exec_map_result (exec_consumePacket_reaches h g topic)
  | consumePacketWithSize topic packetSize =>
    exact exec_map_result (exec_consumePacketWithSize_reaches h g topic packetSize)
  | cursor op =>
    refine exec_map_result ((CursorOp.computes_run h g op).reaches h ?_ fun v hv =>
      CursorOp.reaches_result g hv op)
    cases op <;> simp [CursorOp.result]

/-! ### Operations when nothing fails -/

theorem loadsFirst_cursor {g : Group} {op : CursorOp} (h : op.loads g = true) :
    (op.run g).LoadsFirst := by
  cases op with
  | ackPacket packet =>
    exact loadsFirst_whenLoaded (quiet_chunkSize.bind fun _ => .unless _
      (.unless _ (quiet_pure _))).looks
  | ackPacketBySize topic packetSize =>
    obtain ⟨hsize, htopic⟩ := not_or.mp (of_decide_eq_true h)
    exact (loadsFirst_whenLoaded (quiet_chunkSize.bind fun _ =>
      .unless _ (quiet_pure _)).looks).checked hsize htopic
  | ackPacketByOffset topic offset packetSize =>
    obtain ⟨hsize, htopic⟩ := not_or.mp (of_decide_eq_true h)
    exact (loadsFirst_whenLoaded (quiet_chunkSize.bind fun _ =>
      .unless _ (.unless _ (quiet_pure _))).looks).checked hsize htopic
  | ackPacketBatch topic count =>
    obtain ⟨hcount, htopic⟩ := not_or.mp (of_decide_eq_true h)
    exact (loadsFirst_whenLoaded
      ((quiet_ackBatchLoop _ _ _).bind fun _ => quiet_pure _).looks).checked hcount htopic
  | ackPacketBatchBySize topic packetSizes =>
    obtain ⟨hcount, htopic⟩ := not_or.mp (of_decide_eq_true h)
    refine (loadsFirst_whenLoaded (Broker.Quiet.looks ?_)).checked hcount htopic
    cases sumPacketSizes 0 packetSizes with
    | none => exact quiet_pure _
    | some total => exact quiet_chunkSize.bind fun _ => .unless _ (quiet_pure _)
  | advanceGroupPointer bytes =>
    exact loadsFirst_whenLoaded (quiet_chunkSize.bind fun _ => quiet_pure _).looks

/-- An operation that gives up before its load touches nothing. -/
theorem run_of_not_loads {g : Group} {op : GroupOp} (h : op.loads g = false) :
    ∃ r, op.run g = pure (r, g) := by
  cases op with
  | consumePacket topic =>
    refine ⟨.packet none, ?_⟩
    rw [run, consumePacket_eq, if_pos (of_decide_eq_false h)]
    rfl
  | consumePacketWithSize topic packetSize =>
    refine ⟨.packet none, ?_⟩
    rcases not_not.mp (of_decide_eq_false h) with hsize | htopic
    · rw [run, consumePacketWithSize_eq, if_pos hsize]
      rfl
    · rw [run, consumePacketWithSize_eq, if_pos htopic, ite_self]
      rfl
  | cursor op =>
    cases op with
    | ackPacketBySize topic packetSize =>
      refine ⟨.code (-1), ?_⟩
      rcases not_not.mp (of_decide_eq_false h) with hsize | htopic
      · rw [run, CursorOp.run, SuparnaD.ackPacketBySize, if_pos hsize]
        rfl
      · rw [run, CursorOp.run, SuparnaD.ackPacketBySize, if_pos htopic, ite_self]
        rfl
    | ackPacketByOffset topic offset packetSize =>
      refine ⟨.code (-1), ?_⟩
      rcases not_not.mp (of_decide_eq_false h) with hsize | htopic
      · rw [run, CursorOp.run, SuparnaD.ackPacketByOffset, if_pos hsize]
        rfl
      · rw [run, CursorOp.run, SuparnaD.ackPacketByOffset, if_pos htopic, ite_self]
        rfl
    | ackPacketBatch topic count =>
      refine ⟨.code (-1), ?_⟩
      rcases not_not.mp (of_decide_eq_false h) with hcount | htopic
      · rw [run, CursorOp.run, SuparnaD.ackPacketBatch, if_pos hcount]
        rfl
      · rw [run, CursorOp.run, SuparnaD.ackPacketBatch, if_pos htopic, ite_self]
        rfl
    | ackPacketBatchBySize topic packetSizes =>
      refine ⟨.code (-1), ?_⟩
      rcases not_not.mp (of_decide_eq_false h) with hcount | htopic
      · rw [run, CursorOp.run, SuparnaD.ackPacketBatchBySize, if_pos hcount]
        rfl
      · rw [run, CursorOp.run, SuparnaD.ackPacketBatchBySize, if_pos htopic, ite_self]
        rfl
    | ackPacket | advanceGroupPointer => cases h
  | setGroupPointer | resetGroupPointer | readFromGroup | groupHasMoreData => cases h

/-- When nothing fails, an operation that gets as far as its load leaves the chunk with the content
of the file. -/
theorem shows_of_exec_run (h : s.Steady path) {g : Group} {op : GroupOp}
    (hloads : op.loads g = true) {r : GroupResult × Group}
    (hrun : (op.run g).exec s = some (r, s')) : s'.Shows path (s.file path) := by
  have hmap {α β : Type} {f : α → β} {p : Broker α} {b : β} (hp : p.LoadsFirst)
      (hrun : (f <$> p).exec s = some (b, s')) : s'.Shows path (s.file path) := by
    obtain ⟨⟨a, t⟩, ha, heq⟩ := Option.map_eq_some_iff.mp
      ((CallProgram.run_map perform f p s).symm.trans hrun)
    obtain ⟨-, rfl⟩ := Prod.mk.inj heq
    exact h.exec_loadsFirst hp ha
  cases op with
  | setGroupPointer | resetGroupPointer =>
    exact hmap (loadsFirst_whenLoaded (quiet_chunkSize.bind fun _ => quiet_pure _).looks) hrun
  | readFromGroup size =>
    exact hmap (loadsFirst_whenLoaded (quiet_readBody g size).looks) hrun
  | groupHasMoreData =>
    exact hmap (loadsFirst_whenLoaded (quiet_chunkSize.bind fun _ => quiet_pure _).looks) hrun
  | consumePacket topic =>
    refine hmap (p := SuparnaD.consumePacket g topic) ?_ hrun
    rw [consumePacket_eq, if_neg (not_not.mpr (of_decide_eq_true hloads))]
    exact loadsFirst_whenLoaded (looks_consumeLoaded g)
  | consumePacketWithSize topic packetSize =>
    refine hmap (p := SuparnaD.consumePacketWithSize g topic packetSize) ?_ hrun
    obtain ⟨hsize, htopic⟩ := not_or.mp (of_decide_eq_true hloads)
    rw [consumePacketWithSize_eq]
    exact (loadsFirst_whenLoaded (quiet_consumeSizedBody g packetSize).looks).checked hsize htopic
  | cursor op => exact hmap (loadsFirst_cursor hloads) hrun

theorem exec_consumePacket_of_steady (h : s.Steady path) (g : Group) (topic : ℕ) :
    ∃ s', (SuparnaD.consumePacket g topic).exec s =
      some (if g.attachedTopic ≠ topic then (none, g)
        else match topicFormat.parseAt (s.file path) g.readPointer.toNat with
          | none => (none, g)
          | some d => (some (packetAt g d), afterPacket g d), s') := by
  by_cases htopic : g.attachedTopic = topic
  swap
  · refine ⟨s, ?_⟩
    rw [consumePacket_eq, if_pos htopic, if_pos htopic]
    rfl
  rw [if_neg (not_not.mpr htopic)]
  obtain ⟨r, s', hrun, -, -, ⟨rfl, hnone⟩ | ⟨d, hd, -, rfl⟩⟩ := h.onTopic.exec_consumePacket htopic
  · refine ⟨s', ?_⟩
    have hparse : topicFormat.parseAt (s.file path) g.readPointer.toNat = none := by
      cases hfile : s.fs.read path with
      | none => exact FrameFormat.parseAt_of_length_le (by simp [Machine.file, hfile])
      | some content =>
        have hcontent : s.file path = content := by rw [Machine.file, hfile, Option.getD_some]
        rw [hcontent]
        exact hnone content ⟨h.onTopic, h.chunk, h.faults, hfile, hcontent ▸ h.small⟩
    rw [hrun, hparse]
  · refine ⟨s', ?_⟩
    rw [hrun, Machine.file, hd]

theorem exec_consumePacketWithSize_of_steady (h : s.Steady path) (g : Group) (topic : ℕ)
    (packetSize : UInt64) :
    ∃ s', (SuparnaD.consumePacketWithSize g topic packetSize).exec s =
      some (if (packetSize = 0 ∨ maxPacketSize < packetSize.toNat) ∨ g.attachedTopic ≠ topic then
          (none, g)
        else consumeSized g packetSize (s.file path), s') := by
  rw [consumePacketWithSize_eq]
  by_cases hsize : packetSize = 0 ∨ maxPacketSize < packetSize.toNat
  · exact ⟨s, by rw [if_pos hsize, if_pos (.inl hsize)]; rfl⟩
  by_cases htopic : g.attachedTopic ≠ topic
  · exact ⟨s, by rw [if_neg hsize, if_pos htopic, if_pos (.inr htopic)]; rfl⟩
  rw [if_neg hsize, if_neg htopic, if_neg (not_or.mpr ⟨hsize, htopic⟩)]
  obtain ⟨s₁, hkept, hshow, hrun⟩ := h.exec_whenLoaded (none, g) (consumeSizedBody g packetSize)
  obtain ⟨r, s₂, hbody, -, -, ⟨-, hfaults⟩ | rfl⟩ := hshow.exec_consumeSizedBody g packetSize
  · exact absurd (hkept.faults h.faults) hfaults
  · exact ⟨s₂, hrun.trans hbody⟩

/-- When nothing fails, an operation computes its result from the content of the file. -/
theorem exec_run_of_steady (h : s.Steady path) (g : Group) (op : GroupOp) :
    ∃ s', (op.run g).exec s = some (op.result g (s.file path), s') ∧ s'.Steady path ∧
      s'.fs = s.fs ∧
      if op.loads g then s'.Shows path (s.file path) else s' = s := by
  have hresult : ∃ s', (op.run g).exec s = some (op.result g (s.file path), s') := by
    have hview {α : Type} {p : Broker α} {f : Option Bytes → α} (hc : s.Computes path p f) :
        ∃ s', p.exec s = some (f (some (s.file path)), s') := by
      obtain ⟨s', -, -, hrun⟩ := hc
      exact ⟨s', h.view_eq ▸ hrun⟩
    cases op with
    | setGroupPointer offset =>
      obtain ⟨s', hrun⟩ := hview (h.onTopic.computes_setGroupPointer g offset)
      exact ⟨s', exec_map_of_eq hrun _⟩
    | resetGroupPointer =>
      obtain ⟨s', hrun⟩ := hview (h.onTopic.computes_setGroupPointer g 0)
      exact ⟨s', exec_map_of_eq hrun _⟩
    | readFromGroup size =>
      obtain ⟨s', hrun⟩ := hview (h.onTopic.computes_readFromGroup g size)
      exact ⟨s', exec_map_of_eq hrun _⟩
    | groupHasMoreData =>
      obtain ⟨s', hrun⟩ := hview (h.onTopic.computes_groupHasMoreData g)
      exact ⟨s', exec_map_of_eq hrun _⟩
    | consumePacket topic =>
      obtain ⟨s', hrun⟩ := exec_consumePacket_of_steady h g topic
      refine ⟨s', (exec_map_of_eq hrun _).trans ?_⟩
      rw [result]
      split_ifs
      · rfl
      · cases topicFormat.parseAt (s.file path) g.readPointer.toNat <;> rfl
    | consumePacketWithSize topic packetSize =>
      obtain ⟨s', hrun⟩ := exec_consumePacketWithSize_of_steady h g topic packetSize
      refine ⟨s', (exec_map_of_eq hrun _).trans ?_⟩
      rw [result]
      split_ifs <;> rfl
    | cursor op =>
      obtain ⟨s', hrun⟩ := hview (CursorOp.computes_run h.onTopic g op)
      exact ⟨s', exec_map_of_eq hrun _⟩
  obtain ⟨s', hrun⟩ := hresult
  obtain ⟨r, g', t, hrun', hkept, ht, -⟩ := exec_run h.onTopic g op
  obtain ⟨-, rfl⟩ := Prod.mk.inj (Option.some.inj (hrun'.symm.trans hrun))
  refine ⟨t, hrun, ⟨ht, hkept.chunk.trans h.chunk, hkept.faults h.faults, ?_⟩, hkept.fs, ?_⟩
  · rw [Machine.file, hkept.fs]
    exact h.small
  · split_ifs with hloads
    · exact shows_of_exec_run h hloads hrun
    · obtain ⟨r, hpure⟩ := run_of_not_loads (Bool.not_eq_true _ ▸ hloads)
      rw [hpure] at hrun
      exact (CallProgram.run_pure_eq_some_iff.mp hrun).2.symm

end GroupOp

end SuparnaD

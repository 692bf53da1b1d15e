import SuparnaD.Messaging.AckAgreement

/-!
# Acknowledging several sizes at once

`ack_packet_batch_by_size` adds up all sizes and compares one total with the length of the file;
`ack_packet_by_size` compares the end of each packet. As long as the total does not wrap, the ends
of the packets grow, so the last one decides and the two agree. A zero size is refused by both.

## Main definitions

* `ackEachBySize` : call `ack_packet_by_size` for one size after the other.
* `frameBytes` : the number of bytes that packets of the given sizes take.
* `SizesMatch`.

## Main results

* `moveEach_eq` : what the single calls come to.
* `sizesMatch_of_sizes`.
-/

namespace SuparnaD

open Broker

/-- Call `ack_packet_by_size` for each size, as long as it succeeds. -/
def ackEachBySize (topic : ℕ) : List UInt64 → Group → Broker (ℤ × Group)
  | [], g => return (0, g)
  | packetSize :: rest, g => do
    let (r, g') ← ackPacketBySize g topic packetSize
    if r ≠ 0 then
      return (-1, g')
    ackEachBySize topic rest g'

/-- `ack_packet_batch_by_size` returns `0` exactly when `ack_packet_by_size` succeeds for each size
in turn, and then leaves the same read pointer; when it returns `-1` it leaves the group alone. -/
def SizesMatch (s : Machine) (g : Group) (topic : ℕ) (packetSizes : List UInt64) : Prop :=
  ∃ r g₁ s₁ r' g₂ s₂,
    (ackPacketBatchBySize g topic packetSizes).exec s = some ((r, g₁), s₁) ∧
    (ackEachBySize topic packetSizes g).exec s = some ((r', g₂), s₂) ∧
    (r = 0 ∨ r = -1) ∧ (r = 0 ↔ r' = 0) ∧
    (r = 0 → g₁.readPointer = g₂.readPointer) ∧ (r = -1 → g₁ = g)

/-- The number of bytes that packets of the given sizes take in a file. -/
def frameBytes : List UInt64 → ℕ
  | [] => 0
  | packetSize :: rest => 4 + packetSize.toNat + frameBytes rest

/-- What the single calls come to on the bytes that their loads show. -/
def moveEach (v : Bytes) : List UInt64 → Group → ℤ × Group
  | [], g => (0, g)
  | packetSize :: rest, g =>
    if packetSize = 0 then (-1, g)
    else
      let r := moveOn g (packetSizeHeaderSize + packetSize) v
      if r.1 ≠ 0 then (-1, r.2) else moveEach v rest r.2

variable {s s' : Machine} {path v : Bytes} {g : Group} {topic : ℕ} {packetSizes : List UInt64}

/-! ### The sum of the sizes -/

theorem frameBytes_le (h : ∀ packetSize ∈ packetSizes, packetSize.toNat ≤ maxPacketSize) :
    frameBytes packetSizes ≤ packetSizes.length * (4 + maxPacketSize) := by
  induction packetSizes with
  | nil => exact Nat.le_of_eq (Nat.zero_mul _).symm
  | cons packetSize rest ih =>
    obtain ⟨hhead, hrest⟩ := List.forall_mem_cons.mp h
    rw [frameBytes, List.length_cons, Nat.succ_mul]
    have := ih hrest
    omega

/-- The `size_t` total is the number of bytes, if that is below `2 ^ 64`. -/
theorem toNat_frameTotal (h : frameBytes packetSizes < 2 ^ 64) :
    (CursorOp.frameTotal packetSizes).toNat = frameBytes packetSizes := by
  induction packetSizes with
  | nil => rfl
  | cons packetSize rest ih =>
    rw [frameBytes] at h
    have hfour : packetSizeHeaderSize.toNat = 4 := rfl
    have hrest := ih (by omega)
    rw [CursorOp.frameTotal, UInt64.toNat_add, UInt64.toNat_add, hfour, hrest, frameBytes]
    omega

/-- A move by a count that does not wrap. -/
theorem moveOn_eq {g : Group} {count : UInt64} (v : Bytes)
    (h : g.readPointer.toNat + count.toNat < 2 ^ 64) :
    moveOn g count v =
      if g.readPointer.toNat + count.toNat ≤ v.length then
        (0, { g with readPointer := g.readPointer + count, lastReadSize := count })
      else (-1, g) := by
  rw [moveOn, UInt64.toNat_add, Nat.mod_eq_of_lt h]
  split_ifs with hlong hfits hfits
  · omega
  · rfl
  · rfl
  · omega

/-- The single calls succeed exactly when no size is zero and all the packets fit; they then leave
the read pointer behind the last packet. -/
theorem moveEach_eq (h : g.readPointer.toNat + frameBytes packetSizes < 2 ^ 64)
    (hstart : g.readPointer.toNat ≤ v.length) :
    ((moveEach v packetSizes g).1 = 0 ↔
        0 ∉ packetSizes ∧ g.readPointer.toNat + frameBytes packetSizes ≤ v.length) ∧
      ((moveEach v packetSizes g).1 = 0 → (moveEach v packetSizes g).2.readPointer =
        g.readPointer + CursorOp.frameTotal packetSizes) := by
  induction packetSizes generalizing g with
  | nil =>
    refine ⟨?_, fun _ => (UInt64.add_zero g.readPointer).symm⟩
    simp only [moveEach, frameBytes, List.not_mem_nil, not_false_eq_true, true_and, true_iff]
    exact hstart
  | cons packetSize rest ih =>
    have hfailed : ¬ (-1 : ℤ) = 0 := by omega
    rw [frameBytes] at h
    by_cases hzero : packetSize = 0
    · rw [moveEach, if_pos hzero]
      refine ⟨⟨fun hr => absurd hr hfailed, fun hall => ?_⟩, fun hr => absurd hr hfailed⟩
      exact absurd (hzero ▸ List.mem_cons_self) hall.1
    have hcount : (packetSizeHeaderSize + packetSize).toNat = 4 + packetSize.toNat := by
      have hfour : packetSizeHeaderSize.toNat = 4 := rfl
      rw [UInt64.toNat_add, hfour]
      omega
    have hsmall : g.readPointer.toNat + (packetSizeHeaderSize + packetSize).toNat < 2 ^ 64 := by
      omega
    have hmove := moveOn_eq v hsmall
    rw [moveEach, if_neg hzero, frameBytes, CursorOp.frameTotal]
    by_cases hfits : g.readPointer.toNat + (packetSizeHeaderSize + packetSize).toNat ≤ v.length
    · -- The first packet fits, and the others start behind it.
      rw [hmove, if_pos hfits]
      have hnext : (g.readPointer + (packetSizeHeaderSize + packetSize)).toNat =
          g.readPointer.toNat + (4 + packetSize.toNat) := by
        rw [UInt64.toNat_add, hcount]
        omega
      obtain ⟨hiff, hpointer⟩ := ih (g := { g with
        readPointer := g.readPointer + (packetSizeHeaderSize + packetSize)
        lastReadSize := packetSizeHeaderSize + packetSize })
        (by dsimp only; omega) (by dsimp only; omega)
      dsimp only at hiff hpointer
      rw [hnext] at hiff
      simp only [ne_eq, not_true_eq_false, ↓reduceIte]
      refine ⟨hiff.trans (and_congr ?_ ?_), fun hr => ?_⟩
      · simp only [List.mem_cons, Ne.symm hzero, false_or]
      · rw [Nat.add_assoc]
      · rw [hpointer hr, UInt64.add_assoc]
    · -- The first packet ends behind the file, and so do all of them together.
      rw [hmove, if_neg hfits]
      simp only [ne_eq, hfailed, not_false_eq_true, ↓reduceIte, false_iff, false_imp_iff, and_true,
        not_and]
      intro
      omega

/-! ### The two ways -/

/-- The single calls on a topic whose storage works. -/
theorem exec_ackEachBySize (h : s.Steady path) (packetSizes : List UInt64)
    (htopic : g.attachedTopic = topic) :
    ∃ s', (ackEachBySize topic packetSizes g).exec s =
      some (moveEach (s.file path) packetSizes g, s') := by
  induction packetSizes generalizing s g with
  | nil => exact ⟨s, rfl⟩
  | cons packetSize rest ih =>
    obtain ⟨s₁, hkept, ht, hrun⟩ := h.onTopic.computes_ackPacketBySize g topic packetSize
    simp only [h.view_eq, Option.elim_some, htopic, ne_eq, not_true_eq_false, or_false] at hrun
    obtain ⟨hsteady, hfile⟩ := h.of_kept hkept ht
    simp only [ackEachBySize, CallProgram.run_bind, hrun, Option.bind_some, moveEach]
    by_cases hzero : packetSize = 0
    · rw [if_pos hzero, if_pos hzero]
      exact ⟨s₁, rfl⟩
    rw [if_neg hzero, if_neg hzero, ← hfile]
    split_ifs
    · exact ⟨s₁, rfl⟩
    · exact ih hsteady ((same_moveOn g _ _).attachedTopic.trans htopic)

/-- When there is no chunk, no call succeeds. -/
theorem exec_ackEachBySize_of_none (h : s.OnTopic path) (hview : s.view = none)
    (hne : packetSizes ≠ []) :
    ∃ s', (ackEachBySize topic packetSizes g).exec s = some ((-1, g), s') := by
  obtain ⟨packetSize, rest, rfl⟩ := List.exists_cons_of_ne_nil hne
  obtain ⟨s₁, -, -, hrun⟩ := h.computes_ackPacketBySize g topic packetSize
  simp only [hview, Option.elim_none, ite_self] at hrun
  refine ⟨s₁, ?_⟩
  simp only [ackEachBySize, CallProgram.run_bind, hrun, Option.bind_some]
  rfl

/-- The batch on a topic whose storage works. -/
theorem exec_ackPacketBatchBySize (h : s.Steady path) (hne : packetSizes ≠ [])
    (htopic : g.attachedTopic = topic) :
    ∃ s', (ackPacketBatchBySize g topic packetSizes).exec s = some
      (if 0 ∈ packetSizes then (-1, g)
        else moveOn g (CursorOp.frameTotal packetSizes) (s.file path), s') := by
  obtain ⟨s₁, -, -, hrun⟩ := h.onTopic.computes_ackPacketBatchBySize g topic packetSizes
  refine ⟨s₁, hrun.trans (congrArg (fun r => some (r, s₁)) ?_)⟩
  dsimp only
  rw [if_neg (by simp [hne, htopic]), h.view_eq, Option.elim_some, CursorOp.sumPacketSizes_eq]
  split_ifs
  · rfl
  · rw [Option.elim_some, UInt64.zero_add]

/-- Acknowledging sizes all at once is acknowledging them one by one. -/
theorem sizesMatch_of_sizes (h : s.OnTopic path) (hfaults : s.faults = [])
    (hsmall : (s.file path).length < 2 ^ 62) (htopic : g.attachedTopic = topic)
    (hstart : g.readPointer.toNat ≤ (s.file path).length) (hne : packetSizes ≠ [])
    (hlen : packetSizes.length ≤ 2 ^ 32)
    (hsizes : ∀ packetSize ∈ packetSizes, packetSize.toNat ≤ maxPacketSize) :
    SizesMatch s g topic packetSizes := by
  have hfailed : ¬ (-1 : ℤ) = 0 := by omega
  cases hchunk : s.chunk with
  | none =>
    have hview : s.view = none := by rw [Machine.view, hchunk]
    obtain ⟨s₁, -, -, hrun⟩ := h.computes_ackPacketBatchBySize g topic packetSizes
    simp only [hview, Option.elim_none, ite_self] at hrun
    obtain ⟨s₂, hrun'⟩ := exec_ackEachBySize_of_none h hview hne
    exact ⟨-1, g, s₁, -1, g, s₂, hrun, hrun', .inr rfl, Iff.rfl, fun _ => rfl, fun _ => rfl⟩
  | some c =>
  have hsteady : s.Steady path := ⟨h, by rw [hchunk]; rfl, hfaults, by omega⟩
  have hbytes : frameBytes packetSizes ≤ 2 ^ 32 * (4 + maxPacketSize) :=
    Nat.le_trans (frameBytes_le hsizes) (Nat.mul_le_mul_right _ hlen)
  have hmax : 4 + maxPacketSize = 10485764 := rfl
  rw [hmax] at hbytes
  have hsum : g.readPointer.toNat + frameBytes packetSizes < 2 ^ 64 := by omega
  have htotal := toNat_frameTotal (Nat.lt_of_le_of_lt (Nat.le_add_left _ _) hsum)
  obtain ⟨hiff, hpointer⟩ := moveEach_eq hsum hstart
  obtain ⟨s₁, hbatch⟩ := exec_ackPacketBatchBySize hsteady hne htopic
  obtain ⟨s₂, heach⟩ := exec_ackEachBySize hsteady packetSizes htopic
  by_cases hzero : 0 ∈ packetSizes
  · rw [if_pos hzero] at hbatch
    have hfails : ¬ (moveEach (s.file path) packetSizes g).1 = 0 := fun hr => (hiff.mp hr).1 hzero
    exact ⟨_, _, s₁, _, _, s₂, hbatch, heach, .inr rfl, iff_of_false hfailed hfails,
      fun hr => absurd hr hfailed, fun _ => rfl⟩
  rw [if_neg hzero, moveOn_eq _ (by omega), htotal] at hbatch
  by_cases hfits : g.readPointer.toNat + frameBytes packetSizes ≤ (s.file path).length
  · rw [if_pos hfits] at hbatch
    have hzero' := hiff.mpr ⟨hzero, hfits⟩
    exact ⟨_, _, s₁, _, _, s₂, hbatch, heach, .inl rfl, iff_of_true rfl hzero',
      fun _ => (hpointer hzero').symm, fun hr => absurd hr (by omega)⟩
  · rw [if_neg hfits] at hbatch
    have hfails : ¬ (moveEach (s.file path) packetSizes g).1 = 0 := fun hr => hfits (hiff.mp hr).2
    exact ⟨_, _, s₁, _, _, s₂, hbatch, heach, .inr rfl, iff_of_false hfailed hfails,
      fun hr => absurd hr hfailed, fun _ => rfl⟩

theorem sizesMatch_of_sizes_sample :
    SizesMatch CursorOp.sampleMachine CursorOp.sampleGroup 0 [1, 1, 9] := by
  refine sizesMatch_of_sizes (Machine.onTopic_ofFile _ _) rfl (by decide) rfl (by decide)
    (List.cons_ne_nil _ _) (by decide) ?_
  rw [List.forall_mem_cons, List.forall_mem_cons, List.forall_mem_singleton]
  decide

end SuparnaD

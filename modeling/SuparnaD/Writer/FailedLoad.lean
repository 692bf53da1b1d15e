import SuparnaD.Writer.ChunkLog

/-!
# Loads that fail

`chunk_load` reads the file into the live buffer and only then compares the number of bytes. A load
that fails before the read leaves the chunk alone. One that falls short has overwritten the start of
the buffer, while the sizes still describe the old content: the next save writes bytes of the file
in place of what has been appended.

## Main definitions

* `Writer.delivered` : the bytes that the read of a load puts into the buffer.
* `Chunk.Unharmed` : the visible bytes, the sizes and every later save are as before.

## Main results

* `Writer.chunkLoad_of_failed` : the chunk after a load that has failed.
* `Writer.unharmed_iff`.
-/

namespace SuparnaD

/-- The second chunk has the visible bytes and the sizes of the first, and a save does with it what
it does with the first. -/
structure Chunk.Unharmed (c c' : Chunk) : Prop where
  content : c'.content = c.content
  size : c'.size = c.size
  persistedSize : c'.persistedSize = c.persistedSize
  save : ∀ o file, (Writer.chunkSaveDelta o file c').1 = (Writer.chunkSaveDelta o file c).1 ∧
    (Writer.chunkSaveDelta o file c').2.2 = (Writer.chunkSaveDelta o file c).2.2

namespace Writer

variable {c c' : Chunk} {o : IoOutcome} {file : Option Bytes}

/-- The bytes that the read of a load puts into the buffer, if the load gets as far as the read. -/
def delivered (o : IoOutcome) (file : Option Bytes) (c : Chunk) : Option Bytes :=
  (seenFile o file).bind fun content =>
    if ¬ o.tells ∨ 2 ^ 63 ≤ content.length then none
    else if c.capacity < content.length.toUInt64 ∧ ¬ o.alloc then none
    else some (content.take (o.transferred content.length))

/-- A load that fails has changed nothing, or has put the delivered bytes at the start of a buffer
that is large enough. -/
theorem chunkLoad_of_failed (hfail : (chunkLoad o file c).1 = -1) :
    (delivered o file c = none ∧ (chunkLoad o file c).2 = c) ∨
      ∃ bytes n, delivered o file c = some bytes ∧ bytes.length ≤ n ∧ n < 2 ^ 63 ∧
        (chunkLoad o file c).2 = { roomFor c n with
          data := writeAt (roomFor c n).data 0 bytes } := by
  cases hseen : seenFile o file with
  | none =>
    rw [chunkLoad_of_none hseen] at hfail
    exact absurd hfail (by omega : (0 : ℤ) ≠ -1)
  | some content =>
    have hload := chunkLoad_of_some hseen c
    have hdelivered : delivered o file c =
        if ¬ o.tells ∨ 2 ^ 63 ≤ content.length then none
        else if c.capacity < content.length.toUInt64 ∧ ¬ o.alloc then none
        else some (content.take (o.transferred content.length)) := by
      rw [delivered, hseen, Option.bind_some]
    split_ifs at hload hdelivered with htell hroom hshort
    · exact .inl ⟨hdelivered, congrArg Prod.snd hload⟩
    · exact .inl ⟨hdelivered, congrArg Prod.snd hload⟩
    · refine .inr ⟨_, content.length, hdelivered, ?_, Nat.lt_of_not_le (not_or.mp htell).2,
        congrArg Prod.snd hload⟩
      rw [List.length_take]
      exact Nat.min_le_right _ _
    · rw [hload] at hfail
      exact absurd hfail (by omega : (0 : ℤ) ≠ -1)

/-- Bytes at the start of a buffer leave the first `n` as they were exactly when they are these
bytes, as far as they reach. -/
theorem take_writeAt_zero_eq_iff {buf bytes : Bytes} {n : ℕ} :
    (writeAt buf 0 bytes).take n = buf.take n ↔ bytes.take n = (buf.take n).take bytes.length := by
  have hbuf : buf.take n =
      (buf.take n).take bytes.length ++ (buf.drop bytes.length).take (n - bytes.length) := by
    rw [← List.drop_take, List.take_append_drop]
  have hwrite : (writeAt buf 0 bytes).take n =
      bytes.take n ++ (buf.drop bytes.length).take (n - bytes.length) := by
    rw [writeAt, List.take_zero, List.nil_append, Nat.zero_add, List.take_append]
  rw [hwrite]
  nth_rewrite 1 [hbuf]
  exact List.append_left_inj _

/-- A save depends on the visible bytes and the sizes only. -/
theorem unharmed_of_content (h : c.WellFormed) (h' : c'.WellFormed)
    (hcontent : c'.content = c.content) (hsize : c'.size = c.size)
    (hsaved : c'.persistedSize = c.persistedSize) : c.Unharmed c' := by
  have hdelta : (c'.data.drop c'.persistedSize.toNat).take (c'.size - c'.persistedSize).toNat =
      (c.data.drop c.persistedSize.toNat).take (c.size - c.persistedSize).toNat := by
    have hlog : c'.log h' = c.log h :=
      DeltaLog.ext hcontent (congrArg UInt64.toNat hsaved)
    rw [h'.represents.delta_eq, h.represents.delta_eq, hlog]
  refine ⟨hcontent, hsize, hsaved, fun o file => ?_⟩
  rw [hsize, hsaved] at hdelta
  rw [chunkSaveDelta, chunkSaveDelta, hsize, hsaved]
  dsimp only
  rw [hdelta]
  split_ifs <;> exact ⟨rfl, rfl⟩

/-- A load that fails leaves the chunk as it was, for its readers and for later saves, exactly when
the bytes that its read has delivered are those that the chunk already has at its start. -/
theorem unharmed_iff (h : c.WellFormed) (hfail : (chunkLoad o file c).1 = -1) :
    c.Unharmed (chunkLoad o file c).2 ↔
      ∀ bytes, delivered o file c = some bytes →
        bytes.take c.size.toNat = c.content.take bytes.length := by
  rcases chunkLoad_of_failed hfail with ⟨hnone, hsame⟩ | ⟨bytes, n, hsome, hlen, hn, heq⟩
  · refine iff_of_true ?_ fun bytes hbytes => by cases hnone.symm.trans hbytes
    rw [hsame]
    exact unharmed_of_content h h rfl rfl rfl
  obtain ⟨hroom, hcap, hsize, hsaved, -⟩ := roomFor_wellFormed h hn
  have hkept : (roomFor c n).data.take c.size.toNat = c.content := by
    rw [Chunk.content, roomFor]
    split_ifs with hgrow
    · rw [UInt64.lt_iff_toNat_lt, toNat_toUInt64 (by omega)] at hgrow
      have hle := h.size_le
      exact take_reallocBuffer (by omega) (by rw [h.length_data]; exact hle)
    · rfl
  have hcontent : (chunkLoad o file c).2.content = c.content ↔
      bytes.take c.size.toNat = c.content.take bytes.length := by
    rw [heq, Chunk.content]
    dsimp only
    rw [hsize, ← hkept]
    exact take_writeAt_zero_eq_iff
  have hsizes : (chunkLoad o file c).2.size = c.size ∧
      (chunkLoad o file c).2.persistedSize = c.persistedSize := by
    rw [heq]
    exact ⟨hsize, hsaved⟩
  have hwf : (chunkLoad o file c).2.WellFormed := by
    rw [heq]
    refine ⟨?_, hroom.capacity_lt, hroom.size_le, hroom.persisted_le⟩
    dsimp only
    rw [length_writeAt (by rw [hroom.length_data]; omega), hroom.length_data]
  constructor
  · intro hunharmed bytes' hbytes
    obtain rfl := Option.some.inj (hsome.symm.trans hbytes)
    exact hcontent.mp hunharmed.content
  · intro hbytes
    exact unharmed_of_content h hwf (hcontent.mpr (hbytes bytes hsome)) hsizes.1 hsizes.2

/-- A chunk that has loaded two bytes and appended a third. -/
def sampleAppended : Chunk := ⟨ascii "t", [65, 66, 67, 0], 3, 4, 2⟩

/-- Meanwhile the file has grown to four bytes. -/
def sampleGrown : Option Bytes := some [65, 66, 120, 121]

theorem wellFormed_sampleAppended : sampleAppended.WellFormed :=
  ⟨rfl, by decide, by decide, by decide⟩

/-- A read that falls short by two bytes has delivered what the chunk had loaded before. -/
theorem unharmed_iff_sample :
    sampleAppended.Unharmed (chunkLoad { missing := 2 } sampleGrown sampleAppended).2 ↔
      ∀ bytes, delivered { missing := 2 } sampleGrown sampleAppended = some bytes →
        bytes.take sampleAppended.size.toNat = sampleAppended.content.take bytes.length :=
  unharmed_iff wellFormed_sampleAppended rfl

/-- A read that falls short by one byte has overwritten the byte that has been appended. -/
theorem not_unharmed_sample :
    (chunkLoad { missing := 1 } sampleGrown sampleAppended).1 = -1 ∧
      ¬ sampleAppended.Unharmed (chunkLoad { missing := 1 } sampleGrown sampleAppended).2 :=
  ⟨rfl, fun h => absurd h.content (by decide)⟩

end Writer

end SuparnaD

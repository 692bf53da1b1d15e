import SuparnaD.Messaging.DictionarySpecs

/-!
# Training a dictionary

The loops of `train_dictionary`: the samples are copied into buffers of their own, whose pointers
stand in an array, and all of them are freed at every way out. The invariant of both loops is the
list of buffers that the array leads to.

## Main definitions

* `buffersHeld`, `slotsOf` : the buffers, and their pointers.

## Main results

* `freeBuffers_spec`, `copySamples_spec` : the loops.
* `trainDictionary_spec`.
-/

namespace SuparnaD

open EncoderM CallProgram

/-- The buffers with their contents. -/
def buffersHeld (buffers : List (ℕ × Bytes)) : Multiset (ℕ × EncoderObject) :=
  (buffers.map fun x => (x.1, EncoderObject.block x.2) : List (ℕ × EncoderObject))

/-- The pointers to the buffers. -/
def slotsOf (buffers : List (ℕ × Bytes)) : List (Option ℕ) := buffers.map fun x => some x.1

variable {zstd : ZstdContexts} {memory : FreshMemory} {fs : FileSystem} {fine : Prop}
  {m : Multiset (ℕ × EncoderObject)} {array p : ℕ} {slots : List (Option ℕ)}

theorem buffersHeld_cons (x : ℕ × Bytes) (buffers : List (ℕ × Bytes)) :
    buffersHeld (x :: buffers) = {(x.1, .block x.2)} + buffersHeld buffers := rfl

theorem buffersHeld_append (buffers buffers' : List (ℕ × Bytes)) :
    buffersHeld (buffers ++ buffers') = buffersHeld buffers + buffersHeld buffers' := by
  rw [buffersHeld, List.map_append]
  rfl

/-! ### The array -/

theorem spec_mallocPointers {count : ℕ} (hcount : count * 8 < 2 ^ 63) :
    Spec zstd memory (Here fs fine m) (mallocPointers count) fun r s m' =>
      Here fs fine (objectAt r (.pointers (List.replicate count none)) + m) s m' ∧
        (fine → r.isSome = true) := by
  have hbytes : (count.toUInt64 * 8).toNat = count * 8 := by
    have height : (8 : UInt64).toNat = 8 := rfl
    rw [UInt64.toNat_mul, toNat_toUInt64 (by omega), height]
    exact Nat.mod_eq_of_lt (by omega)
  refine .issue fun s m' F hheld h => ?_
  obtain ⟨a, s', m'', hrun, hheld', h', hgranted⟩ := exists_make h hheld
    (s.outcome.alloc && decide (count * 8 < 2 ^ 63)) (.pointers (List.replicate count none))
  refine ⟨a, s', m'', ?_, hheld', h', fun hf => ?_⟩
  · simpa only [performEncoder, hbytes, Nat.mul_div_cancel count (by omega : 0 < 8)] using hrun
  · rw [hgranted, EncoderState.outcome_of_faults (h.2.1 hf)]
    simpa using hcount

theorem spec_setPointer {i : ℕ} (hi : i < slots.length) (pointer : ℕ) :
    Spec zstd memory (Here fs fine ({(array, .pointers slots)} + m)) (setPointer array i pointer)
      fun _ => Here fs fine ({(array, .pointers (slots.set i (some pointer)))} + m) := by
  refine (spec_change (c := .setPointer array i pointer)
    (fun _ : Unit => .pointers (slots.set i (some pointer))) (fun _ => True)
    fun s _ _ hget => ⟨(), trivial, .inl ?_⟩).post fun _ _ _ h => h.1
  simp only [performEncoder, hget _ mem_self, hi, ↓reduceIte]

theorem spec_getPointer {i : ℕ} (hi : slots[i]? = some (some p)) :
    Spec zstd memory (Here fs fine ({(array, .pointers slots)} + m)) (getPointer array i)
      fun r s m' => Here fs fine ({(array, .pointers slots)} + m) s m' ∧ r = p := by
  refine spec_change (c := .getPointer array i) (fun _ : ℕ => .pointers slots) _
    fun s _ _ hget => ⟨p, rfl, .inr ⟨?_, rfl⟩⟩
  simp only [performEncoder, hget _ mem_self, hi, Option.join_some, Option.map_some]

theorem spec_memcpy {bytes data : Bytes} (hlen : bytes.length = data.length) :
    Spec zstd memory (Here fs fine ({(p, .block bytes)} + m)) (memcpy p data)
      fun _ => Here fs fine ({(p, .block data)} + m) := by
  have hwrite : writeAt bytes 0 data = data := by
    rw [Decoded.writeAt_zero, ← hlen, List.drop_length, List.append_nil]
  refine (spec_change (c := .memcpy p data) (fun _ : Unit => .block data) (fun _ => True)
    fun s _ _ hget => ⟨(), trivial, .inl ?_⟩).post fun _ _ _ h => h.1
  simp only [performEncoder, hget _ mem_self, hlen, Nat.le_refl, ↓reduceIte, hwrite]

/-! ### The loops -/

/-- The loop frees the buffers that the rest of the array leads to. -/
theorem freeBuffers_spec (buffers : List (ℕ × Bytes)) (j : ℕ)
    (hslots : ∀ i x, buffers[i]? = some x → slots[j + i]? = some (some x.1)) :
    Spec zstd memory (Here fs fine ({(array, .pointers slots)} + (buffersHeld buffers + m)))
      (freeBuffers array buffers.length j)
      fun _ => Here fs fine ({(array, .pointers slots)} + m) := by
  induction buffers generalizing j with
  | nil => exact .pure fun _ _ h => by rwa [show buffersHeld [] + m = m from zero_add m] at h
  | cons x buffers ih =>
    have hfirst : slots[j]? = some (some x.1) := hslots 0 x rfl
    have hrest : ∀ i y, buffers[i]? = some y → slots[j + 1 + i]? = some (some y.1) := by
      intro i y hy
      rw [Nat.add_right_comm, Nat.add_assoc]
      exact hslots (i + 1) y hy
    refine (spec_getPointer hfirst).bind fun pointer => .of_imp fun hpointer => ?_
    subst hpointer
    rw [buffersHeld_cons, add_assoc, add_left_comm]
    exact (spec_free _).bind fun _ => ih (j + 1) hrest

/-- How the copying loop ends: all samples have been copied, or memory has run out and everything
has been freed. -/
def CopiesSamples (fs : FileSystem) (fine : Prop) (array : ℕ) (buffers : List (ℕ × Bytes))
    (rest : List Bytes) (r : Bool) (s : EncoderState) (m : Multiset (ℕ × EncoderObject)) : Prop :=
  match r with
  | true => ∃ buffers',
    Here fs fine ({(array, .pointers (slotsOf buffers'))} + (buffersHeld buffers' + 0)) s m ∧
      buffers'.map Prod.snd = buffers.map Prod.snd ++ rest
  | false => Here fs fine 0 s m ∧ ¬ (fine ∧ ∀ d ∈ rest, d.length < 2 ^ 63)

/-- The loop keeps the buffers so far in the first places of the array. -/
theorem copySamples_spec (buffers : List (ℕ × Bytes)) (rest : List Bytes) :
    Spec zstd memory
      (Here fs fine ({(array, .pointers (slotsOf buffers ++ List.replicate rest.length none))} +
        (buffersHeld buffers + 0)))
      (copySamples array buffers.length rest) (CopiesSamples fs fine array buffers rest) := by
  induction rest generalizing buffers with
  | nil =>
    refine .pure fun s m h => ⟨buffers, ?_, (List.append_nil _).symm⟩
    rwa [List.length_nil, List.replicate_zero, List.append_nil] at h
  | cons sample rest ih =>
    refine (spec_malloc _).bind fun buffer => .of_imp fun hmalloc => ?_
    cases buffer with
    | none =>
      rw [objectAt, Option.elim_none, zero_add]
      refine (freeBuffers_spec buffers 0 fun i x hx => ?_).bind fun _ =>
        (spec_freePointers _).bind fun _ => .pure fun s m h => ⟨h, fun hok => ?_⟩
      · rw [Nat.zero_add, List.getElem?_append_left, slotsOf, List.getElem?_map, hx]
        · rfl
        · rw [slotsOf, List.length_map]
          exact (List.getElem?_eq_some_iff.mp hx).1
      · exact absurd (hmalloc.2 hok.1 (hok.2 _ List.mem_cons_self)) Bool.false_ne_true
    | some buffer =>
      have hlen : (slotsOf buffers).length = buffers.length := List.length_map ..
      show Spec zstd memory (Here fs fine ({(buffer, _)} + _)) _ _
      rw [add_left_comm]
      refine (spec_setPointer ?_ buffer).bind fun _ => ?_
      · rw [List.length_append, hlen, List.length_replicate, List.length_cons]
        omega
      rw [add_left_comm]
      refine (spec_memcpy (hmalloc.1 rfl)).bind fun _ => ?_
      have hslots : (slotsOf buffers ++ List.replicate (sample :: rest).length none).set
          buffers.length (some buffer) =
          slotsOf (buffers ++ [(buffer, sample)]) ++ List.replicate rest.length none := by
        rw [List.length_cons, List.replicate_succ, ← hlen,
          List.set_append_right _ _ (Nat.le_refl _), Nat.sub_self, List.set_cons_zero, slotsOf,
          slotsOf, List.map_append, List.append_assoc]
        rfl
      have hbuffers : {(buffer, EncoderObject.block sample)} + (buffersHeld buffers + 0) =
          buffersHeld (buffers ++ [(buffer, sample)]) + 0 := by
        rw [buffersHeld_append, buffersHeld_cons, add_left_comm, add_assoc]
        rfl
      rw [hslots, add_left_comm, hbuffers]
      have hnext := ih (buffers ++ [(buffer, sample)])
      rw [List.length_append, List.length_singleton] at hnext
      refine hnext.post fun r s m h => ?_
      cases r with
      | true =>
        obtain ⟨buffers', hhere, hsamples⟩ := h
        refine ⟨buffers', hhere, ?_⟩
        rw [hsamples, List.map_append, List.append_assoc]
        rfl
      | false => exact ⟨h.1, fun hok => h.2 ⟨hok.1, (List.forall_mem_cons.mp hok.2).2⟩⟩

/-! ### The library -/

/-- The array leads to the samples. -/
theorem samples_slotsOf {s : EncoderState} {buffers : List (ℕ × Bytes)}
    (hblocks : ∀ x ∈ buffers, s.block x.1 = some x.2) :
    s.samples (slotsOf buffers) ((buffers.map Prod.snd).map List.length) =
      some (buffers.map Prod.snd) := by
  induction buffers with
  | nil => rfl
  | cons x buffers ih =>
    obtain ⟨hx, hrest⟩ := List.forall_mem_cons.mp hblocks
    have hnext := ih hrest
    rw [EncoderState.samples] at hnext ⊢
    simp only [slotsOf, List.map_cons, List.zip_cons_cons, List.mapM_cons] at hnext ⊢
    rw [hnext]
    simp [hx]

theorem spec_trainFromBuffer {capacity : ℕ} {bytes : Bytes} (hlen : bytes.length = capacity)
    (buffers : List (ℕ × Bytes)) :
    Spec zstd memory
      (Here fs fine ({(p, .block bytes)} +
        ({(array, .pointers (slotsOf buffers))} + (buffersHeld buffers + m))))
      (trainFromBuffer p capacity array ((buffers.map Prod.snd).map List.length)) fun r s m' =>
        Here fs fine
          ({(p, filled bytes (zstd.trainFromBuffer capacity (buffers.map Prod.snd)) r)} +
            ({(array, .pointers (slotsOf buffers))} + (buffersHeld buffers + m))) s m' ∧
          ((r.isSome = true →
            (zstd.trainFromBuffer capacity (buffers.map Prod.snd)).map List.length = r) ∧
          (fine → (zstd.trainFromBuffer capacity (buffers.map Prod.snd)).isSome = true →
            r.isSome = true)) := by
  refine spec_change (c := .trainFromBuffer p capacity array _) (fun r : Option ℕ =>
    filled bytes (zstd.trainFromBuffer capacity (buffers.map Prod.snd)) r) _
    fun s _ hfine hget => ?_
  have harray := hget (array, .pointers (slotsOf buffers)) (Multiset.mem_add.mpr (.inr mem_self))
  have hblock : s.block p = some bytes := by rw [EncoderState.block, hget _ mem_self]
  have hsamples : s.samples (slotsOf buffers) ((buffers.map Prod.snd).map List.length) =
      some (buffers.map Prod.snd) := by
    refine samples_slotsOf fun x hx => ?_
    have hmem : (x.1, EncoderObject.block x.2) ∈ buffersHeld buffers :=
      Multiset.mem_coe.mpr (List.mem_map_of_mem hx)
    rw [EncoderState.block, hget _ (Multiset.mem_add.mpr (.inr (Multiset.mem_add.mpr (.inr
      (Multiset.mem_add.mpr (.inl hmem))))))]
  have hlengths : (slotsOf buffers).length = ((buffers.map Prod.snd).map List.length).length := by
    simp only [slotsOf, List.length_map]
  simp only [performEncoder, harray, hblock, hlen, Nat.lt_irrefl, hlengths, hsamples, ne_eq,
    not_true_eq_false, or_self, ↓reduceIte, Option.bind_some]
  cases hout : zstd.trainFromBuffer capacity (buffers.map Prod.snd) with
  | none => exact ⟨none, ⟨fun _ => rfl, fun _ h => h⟩, .inr ⟨rfl, rfl⟩⟩
  | some out => exact exists_fill (hlen ▸ zstd.length_trainFromBuffer hout) hfine

/-! ### The function -/

/-- The library makes this dictionary of the samples. -/
def ZstdContexts.Trains (zstd : ZstdContexts) (samples : Samples) (dictionarySize : UInt64)
    (out : Bytes) : Prop :=
  zstd.trainFromBuffer (trainedSize dictionarySize).toNat samples.list = some out

/-- There are samples, and the library makes a dictionary of them. -/
def ZstdContexts.TakesSamples (zstd : ZstdContexts) (samples : Samples) (dictionarySize : UInt64) :
    Prop :=
  samples.list ≠ [] ∧ (∀ d ∈ samples.list, d.length < 2 ^ 63) ∧
    ∃ out, zstd.Trains samples dictionarySize out

theorem trainedSize_lt (dictionarySize : UInt64) : (trainedSize dictionarySize).toNat < 2 ^ 63 := by
  rw [trainedSize]
  split_ifs with hout
  · decide
  · have hle := UInt64.le_iff_toNat_le.mp (UInt64.not_lt.mp (not_or.mp hout).2)
    have hmax : maxDictionarySize.toNat < 2 ^ 63 := by decide
    omega

/-- The buffers and their array are freed. -/
theorem spec_freeAll (buffers : List (ℕ × Bytes)) {β : Type} {q : EncoderM β}
    {Q : β → EncoderState → Multiset (ℕ × EncoderObject) → Prop}
    (hq : Spec zstd memory (Here fs fine m) q Q) :
    Spec zstd memory
      (Here fs fine ({(array, .pointers (slotsOf buffers))} + (buffersHeld buffers + m)))
      (do freeBuffers array buffers.length 0; free array; q) Q := by
  refine (freeBuffers_spec buffers 0 fun i x hx => ?_).bind fun _ =>
    (spec_freePointers _).bind fun _ => hq
  rw [Nat.zero_add, slotsOf, List.getElem?_map, hx]
  rfl

theorem trainDictionary_spec (samples : Samples) (dictionarySize : UInt64) :
    Spec zstd memory (Here fs fine 0) (trainDictionary (some samples) dictionarySize)
      (HandsOut fs fine (zstd.TakesSamples samples dictionarySize)
        (zstd.Trains samples dictionarySize)) := by
  refine .ite (fun hempty => handsOut_failed (by decide) fun h => ?_) fun _ => ?_
  · exact h.2.1 (List.length_eq_zero_iff.mp hempty)
  refine (spec_mallocPointers samples.fits).bind fun array => .of_imp fun harray => ?_
  cases array with
  | none => exact handsOut_failed (by decide) fun h => absurd (harray h.1) Bool.false_ne_true
  | some array =>
  refine (copySamples_spec [] samples.list).bind fun copied => ?_
  cases copied with
  | false => exact .of_imp fun hfails => handsOut_failed (by decide) fun h => hfails ⟨h.1, h.2.2.1⟩
  | true =>
  refine .exists_pre fun buffers => .of_imp fun hsamples => ?_
  obtain ⟨list, hfits⟩ := samples
  obtain rfl : buffers.map Prod.snd = list := hsamples
  have hcount : (buffers.map Prod.snd).length = buffers.length := List.length_map ..
  refine (spec_malloc _).bind fun dictionary => .of_imp fun hmalloc => ?_
  cases dictionary with
  | none =>
    rw [objectAt, Option.elim_none, zero_add]
    simp only [hcount]
    refine spec_freeAll buffers (handsOut_failed (by decide) fun h => ?_)
    exact absurd (hmalloc.2 h.1 (trainedSize_lt _)) Bool.false_ne_true
  | some dictionary =>
  refine (spec_trainFromBuffer (hmalloc.1 rfl) buffers).bind fun result => .of_imp fun hresult => ?_
  rw [add_left_comm, add_left_comm {(dictionary, _)}]
  simp only [hcount]
  refine spec_freeAll buffers ?_
  cases result with
  | none =>
    refine (spec_free _).bind fun _ => handsOut_failed (by decide) fun h => ?_
    obtain ⟨out, hout⟩ := h.2.2.2
    exact absurd (hresult.2 h.1 (Option.isSome_of_eq_some hout)) Bool.false_ne_true
  | some actualDictSize =>
    obtain ⟨out, hout, rfl⟩ := Option.map_eq_some_iff.mp (hresult.1 rfl)
    rw [filled, hout]
    exact handsOut_filled hout

end SuparnaD

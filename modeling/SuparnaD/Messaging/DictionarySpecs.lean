import SuparnaD.Messaging.EncoderCalls

/-!
# What the functions of dictionaries leave behind

Whatever memory, the files and the Zstd library do, a function that fails holds nothing at its end,
and one that succeeds holds exactly the block that it hands out: every context, stream and buffer
has been given back, once.

## Main definitions

* `HandsOut`, `SavesDictionary` : how a function ends.

## Main results

* `encodeStringWithDict_spec`, `fetchDictionary_spec`, `saveDictionary_spec`.
-/

namespace SuparnaD

open EncoderM CallProgram

variable {zstd : ZstdContexts} {memory : FreshMemory} {fs : FileSystem} {fine : Prop} {p : ℕ}

/-! ### How a function ends -/

/-- A function ends with a result other than `0` and holds nothing, or it hands out a block, holds
nothing else, and the bytes that count satisfy `good`. It does not fail without faults if `ok`
holds. -/
def HandsOut (fs : FileSystem) (fine ok : Prop) (good : Bytes → Prop) (r : Handed)
    (s : EncoderState) (m : Multiset (ℕ × EncoderObject)) : Prop :=
  s.fs = fs ∧ (fine → s.faults = []) ∧
    (r.result ≠ 0 ∧ r.pointer = none ∧ m = 0 ∧ ¬ (fine ∧ ok) ∨
      ∃ pointer bytes, r.result = 0 ∧ r.pointer = some pointer ∧ m = {(pointer, .block bytes)} ∧
        r.size ≤ bytes.length ∧ good (bytes.take r.size))

/-- A block into which the bytes have been written is handed out. -/
theorem handsOut_filled {ok : Prop} {good : Bytes → Prop} {bytes out : Bytes} (hgood : good out) :
    Spec zstd memory (Here fs fine ({(p, .block (writeAt bytes 0 out))} + 0))
      (pure ⟨0, some p, out.length⟩) (HandsOut fs fine ok good) := by
  refine .pure fun _ _ h => ⟨h.1, h.2.1, .inr ⟨p, writeAt bytes 0 out, rfl, rfl, ?_, ?_, ?_⟩⟩
  · rw [h.2.2, add_zero]
  · rw [Decoded.writeAt_zero, List.length_append]
    exact Nat.le_add_right _ _
  · rw [Decoded.writeAt_zero, List.take_left]
    exact hgood

theorem handsOut_failed {ok : Prop} {good : Bytes → Prop} {result : ℤ} (hresult : result ≠ 0)
    (hok : ¬ (fine ∧ ok)) : Spec zstd memory (Here fs fine 0) (pure (.failed result))
      (HandsOut fs fine ok good) :=
  .pure fun _ _ h => ⟨h.1, h.2.1, .inl ⟨hresult, rfl, h.2.2, hok⟩⟩

/-! ### `encode_string_with_dict` -/

/-- The compressed form of a text. -/
def ZstdContexts.Encodes (zstd : ZstdContexts) (json : Bytes) (dictionary : Option Bytes)
    (compressionLevel : ℤ) (out : Bytes) : Prop :=
  (loadedDictionary dictionary).all zstd.loadDictionary = true ∧
    zstd.compress2 (loadedDictionary dictionary) (some (zstd.levelFor compressionLevel))
      (zstd.compressBound json.length) json = some out

/-- The library takes the text, the dictionary and the level. -/
def ZstdContexts.Takes (zstd : ZstdContexts) (json : Bytes) (dictionary : Option Bytes)
    (compressionLevel : ℤ) : Prop :=
  json ≠ [] ∧ zstd.setCompressionLevel (zstd.levelFor compressionLevel) = true ∧
    zstd.compressBound json.length < 2 ^ 63 ∧
    ∃ out, zstd.Encodes json dictionary compressionLevel out

theorem encodeStringWithDict_spec (json : Bytes) (dictionary : Option Bytes)
    (compressionLevel : ℤ) :
    Spec zstd memory (Here fs fine 0)
      (encodeStringWithDict zstd.toZstd (some json) dictionary compressionLevel)
      (HandsOut fs fine (zstd.Takes json dictionary compressionLevel)
        (zstd.Encodes json dictionary compressionLevel)) := by
  refine .ite (fun hempty => handsOut_failed (by decide) fun h => ?_) fun _ => ?_
  · exact h.2.1 (List.length_eq_zero_iff.mp hempty)
  refine spec_createCCtx.bind fun cctx => .of_imp fun hcctx => ?_
  cases cctx with
  | none => exact handsOut_failed (by decide) fun h => absurd (hcctx h.1) Bool.false_ne_true
  | some cctx =>
  refine (spec_loadIfGiven dictionary).bind fun loads => .of_imp fun hloads => ?_
  cases loads with
  | false =>
    refine (spec_freeCCtx _ _).bind fun _ => handsOut_failed (by decide) fun h => ?_
    obtain ⟨out, hout⟩ := h.2.2.2.2
    exact absurd (hloads.2 h.1 hout.1) Bool.false_ne_true
  | true =>
  refine (spec_setCompressionLevel _ _).bind fun takes => .of_imp fun htakes => ?_
  cases takes with
  | false =>
    refine (spec_freeCCtx _ _).bind fun _ => handsOut_failed (by decide) fun h => ?_
    exact absurd (htakes h.2.2.1) Bool.false_ne_true
  | true =>
  refine (spec_malloc _).bind fun compressedData => .of_imp fun hmalloc => ?_
  cases compressedData with
  | none =>
    rw [objectAt, Option.elim_none, zero_add]
    refine (spec_freeCCtx _ _).bind fun _ => handsOut_failed (by decide) fun h => ?_
    exact absurd (hmalloc.2 h.1 h.2.2.2.1) Bool.false_ne_true
  | some compressedData =>
  have hlen := hmalloc.1 rfl
  refine (spec_compress2 hlen json).bind fun result => .of_imp fun hresult => ?_
  rw [add_left_comm]
  refine (spec_freeCCtx _ _).bind fun _ => ?_
  cases result with
  | none =>
    refine (spec_free _).bind fun _ => handsOut_failed (by decide) fun h => ?_
    obtain ⟨out, hout⟩ := h.2.2.2.2
    exact absurd (hresult.2 h.1 (Option.isSome_of_eq_some hout.2)) Bool.false_ne_true
  | some compressedSize =>
    obtain ⟨out, hout, rfl⟩ := Option.map_eq_some_iff.mp (hresult.1 rfl)
    rw [filled, hout]
    exact handsOut_filled ⟨hloads.1 rfl, hout⟩

/-! ### `fetch_dictionary` -/

/-- The dictionary that a file holds. -/
def FileSystem.HoldsDictionary (fs : FileSystem) (path dictionary : Bytes) : Prop :=
  fs.read path = some dictionary ∧ dictionary ≠ []

theorem fetchDictionary_spec (path : Bytes) :
    Spec zstd memory (Here fs fine 0) (fetchDictionary (some path))
      (HandsOut fs fine (∃ d, fs.HoldsDictionary path d ∧ d.length < 2 ^ 63)
        (fs.HoldsDictionary path)) := by
  have hshown : ∀ {d}, fs.HoldsDictionary path d → fs.shown path = d := fun hd => by
    rw [FileSystem.shown, hd.1, Option.getD_some]
  refine (spec_fopenRead path).bind fun file => .of_imp fun hopen => ?_
  cases file with
  | none =>
    refine handsOut_failed (by decide) ?_
    rintro ⟨hf, d, hd, -⟩
    exact absurd (hopen.2 hf (Option.isSome_of_eq_some hd.1)) Bool.false_ne_true
  | some file =>
  obtain ⟨content, hcontent⟩ := Option.isSome_iff_exists.mp (hopen.1 rfl)
  refine (spec_fseekEnd _ _).bind fun seeks => .of_imp fun hseeks => ?_
  cases seeks with
  | false =>
    refine (spec_fcloseReader _ _).bind fun _ => handsOut_failed (by decide) fun h => ?_
    exact absurd (hseeks h.1) Bool.false_ne_true
  | true =>
  refine (spec_ftell _ _).bind fun fileSize => .of_imp fun htell => ?_
  cases fileSize with
  | none =>
    refine (spec_fcloseReader _ _).bind fun _ => handsOut_failed (by decide) ?_
    rintro ⟨hf, d, hd, hlen⟩
    refine absurd (htell.2 hf ?_) Bool.false_ne_true
    rwa [if_pos rfl, hshown hd]
  | some fileSize =>
  obtain rfl : fileSize = content.length := by
    have hsize := Option.some.inj (htell.1 rfl)
    rwa [if_pos rfl, FileSystem.shown, hcontent] at hsize
  refine .ite (fun hempty => ?_) fun hsize => ?_
  · refine (spec_fcloseReader _ _).bind fun _ => handsOut_failed (by decide) ?_
    rintro ⟨-, d, hd, -⟩
    rw [hd.1, Option.some.injEq] at hcontent
    exact hd.2 (by rw [hcontent, List.length_eq_zero_iff.mp hempty])
  refine (spec_fseekStart _ _).bind fun rewinds => .of_imp fun hrewinds => ?_
  cases rewinds with
  | false =>
    refine (spec_fcloseReader _ _).bind fun _ => handsOut_failed (by decide) fun h => ?_
    exact absurd (hrewinds h.1) Bool.false_ne_true
  | true =>
  refine (spec_malloc _).bind fun dictionary => .of_imp fun hmalloc => ?_
  cases dictionary with
  | none =>
    rw [objectAt, Option.elim_none, zero_add]
    refine (spec_fcloseReader _ _).bind fun _ => handsOut_failed (by decide) ?_
    rintro ⟨hf, d, hd, hlen⟩
    rw [hd.1, Option.some.injEq] at hcontent
    exact absurd (hmalloc.2 hf (hcontent ▸ hlen)) Bool.false_ne_true
  | some dictionary =>
  refine (spec_fread (hmalloc.1 rfl)).bind fun readSize => .of_imp fun hread => ?_
  refine (spec_fcloseReader _ _).bind fun _ => .ite (fun hshort => ?_) fun hwhole => ?_
  · refine (spec_free _).bind fun _ => handsOut_failed (by decide) fun h => hshort ?_
    rw [hread h.1, FileSystem.shown, hcontent, Option.getD_some, Nat.min_self]
  · rw [not_not.mp hwhole, FileSystem.shown, hcontent, Option.getD_some, List.take_length]
    refine handsOut_filled ⟨hcontent, fun hnil => hsize ?_⟩
    rw [hnil, List.length_nil]

/-! ### `save_dictionary` -/

/-- The dictionary is not saved, or a part of it takes the place of the file. The part is all of it
when there are no faults, and less when the result is `-3`. -/
def SavesDictionary (fs : FileSystem) (fine : Prop) (dictionary path : Bytes) (r : ℤ)
    (s : EncoderState) (m : Multiset (ℕ × EncoderObject)) : Prop :=
  (fine → s.faults = []) ∧ m = 0 ∧
    (r = -2 ∧ s.fs = fs ∧ ¬ fine ∨
      ∃ k ≤ dictionary.length, s.fs = fs.write path (some (dictionary.take k)) ∧
        (r = 0 ∨ r = -3 ∧ k < dictionary.length) ∧ (fine → r = 0 ∧ k = dictionary.length))

theorem FileSystem.write_write (fs : FileSystem) (path : Bytes) (content content' : Option Bytes) :
    (fs.write path content).write path content' = fs.write path content' := by
  rw [write, write, write, Function.update_idem]

theorem saveDictionary_spec {dictionary : Bytes} (hdictionary : dictionary ≠ []) (path : Bytes) :
    Spec zstd memory (Here fs fine 0) (saveDictionary (some dictionary) (some path))
      (SavesDictionary fs fine dictionary path) := by
  refine .ite (fun hempty => absurd (List.length_eq_zero_iff.mp hempty) hdictionary) fun _ => ?_
  refine (spec_fopenWrite path).bind fun file => .of_imp fun hopen => ?_
  cases file with
  | none =>
    refine .pure fun s m h => ⟨h.2.1, ?_, .inl ⟨rfl, h.1, fun hf => ?_⟩⟩
    · rw [h.2.2, objectAt, Option.elim_none, zero_add]
    · exact absurd (hopen hf) Bool.false_ne_true
  | some file =>
  refine (spec_fwrite _ _ _).bind fun written => .of_imp fun hwrite => ?_
  obtain ⟨hle, hwritten⟩ := hwrite
  refine (spec_fcloseWriter _ _).bind fun _ => ?_
  have hsaved (k : ℕ) : (fs.write path (some [])).write path (some
      ((fs.write path (some [])).shown path ++ ([] ++ dictionary.take written).take k)) =
        fs.write path (some (dictionary.take (min k written))) := by
    rw [FileSystem.write_write, FileSystem.shown, FileSystem.read_write, Option.getD_some,
      List.nil_append, List.nil_append, List.take_take]
  refine .ite (fun hshort => .pure ?_) fun hwhole => .pure ?_
  · rintro s m ⟨k, -, -, hfs, hfine, hm⟩
    refine ⟨hfine, hm, .inr ⟨min k written, by omega, hfs.trans (hsaved k), .inr ⟨rfl, by omega⟩,
      fun hf => absurd (hwritten hf) hshort⟩⟩
  · rintro s m ⟨k, hk, hall, hfs, hfine, hm⟩
    refine ⟨hfine, hm, .inr ⟨min k written, by omega, hfs.trans (hsaved k), .inl rfl,
      fun hf => ⟨rfl, ?_⟩⟩⟩
    have := hall hf
    rw [List.nil_append, List.length_take] at this
    omega

end SuparnaD

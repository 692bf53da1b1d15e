import Mathlib.Algebra.Order.Group.Multiset
import SuparnaD.Foundation.ResourceTriples
import SuparnaD.Messaging.DecoderAgreement
import SuparnaD.Messaging.Dictionary

/-!
# The objects of dictionaries

Triples for the calls that the functions with a dictionary issue. An assertion lists the objects
that are held: blocks, arrays, contexts and streams. A call that makes an object adds it, one that
gives an object back takes it away, and the others change one object or two.

## Main definitions

* `EncoderState.held`, `Here` : the live objects, and an assertion about them.

## Main results

* `exists_make`, `spec_give`, `spec_change` : the three kinds of calls.
* `spec_malloc`, `spec_compress2`, `spec_fread`, `spec_fcloseWriter` and so on : each call.
-/

namespace SuparnaD

open EncoderM CallProgram

/-- The live objects. -/
def EncoderState.held (s : EncoderState) : Multiset (ℕ × EncoderObject) := s.objects.live

/-- The files are these, the given objects are held, and no fault is to come if `fine` holds. -/
def Here (fs : FileSystem) (fine : Prop) (m : Multiset (ℕ × EncoderObject)) (s : EncoderState)
    (m' : Multiset (ℕ × EncoderObject)) : Prop :=
  s.fs = fs ∧ (fine → s.faults = []) ∧ m' = m

/-- The object at a pointer, unless it is null. -/
def objectAt (pointer : Option ℕ) (object : EncoderObject) : Multiset (ℕ × EncoderObject) :=
  pointer.elim 0 fun p => {(p, object)}

/-- A triple about a program of these calls. -/
abbrev EncoderM.Spec {α : Type} (zstd : ZstdContexts) (memory : FreshMemory)
    (P : EncoderState → Multiset (ℕ × EncoderObject) → Prop) (p : EncoderM α)
    (Q : α → EncoderState → Multiset (ℕ × EncoderObject) → Prop) : Prop :=
  Triple (performEncoder zstd memory) EncoderState.held P p Q

section

variable {zstd : ZstdContexts} {memory : FreshMemory} {fs : FileSystem} {fine : Prop}
  {m m' F : Multiset (ℕ × EncoderObject)} {s : EncoderState} {p : ℕ} {o : EncoderObject}

/-! ### States -/

theorem EncoderState.outcome_of_faults (h : s.faults = []) : s.outcome = .ok := by
  rw [outcome, h]
  rfl

theorem Here.next (h : Here fs fine m s m') : Here fs fine m s.next m' :=
  ⟨h.1, fun hfine => by rw [EncoderState.next, h.2.1 hfine, List.tail_nil], h.2.2⟩

/-- A change of the objects. -/
theorem Here.objects (h : Here fs fine m s m') (objects : HandleHeap EncoderObject)
    (m'' : Multiset (ℕ × EncoderObject)) :
    Here fs fine m'' { s.next with objects := objects } m'' :=
  ⟨h.1, h.next.2.1, rfl⟩

/-- The object that an assertion mentions first is live. -/
theorem Here.get (h : Here fs fine ({(p, o)} + m) s m') (hheld : s.held = m' + F) :
    s.objects.get p = some o := by
  obtain ⟨-, -, rfl⟩ := h
  rw [add_assoc] at hheld
  exact HandleHeap.get_of_live hheld

theorem Here.block {bytes : Bytes} (h : Here fs fine ({(p, .block bytes)} + m) s m')
    (hheld : s.held = m' + F) : s.block p = some bytes := by
  rw [EncoderState.block, h.get hheld]

theorem held_put (h : Here fs fine ({(p, o)} + m) s m') (hheld : s.held = m' + F)
    (o' : EncoderObject) : (s.put p o').held = {(p, o')} + m + F := by
  obtain ⟨-, -, rfl⟩ := h
  rw [add_assoc] at hheld ⊢
  exact HandleHeap.live_set hheld o'

theorem held_drop (h : Here fs fine ({(p, o)} + m) s m') (hheld : s.held = m' + F) :
    (s.drop p).held = m + F := by
  obtain ⟨-, -, rfl⟩ := h
  rw [add_assoc] at hheld
  exact HandleHeap.live_free hheld

/-- What making an object does. -/
theorem exists_make (h : Here fs fine m s m') (hheld : s.held = m' + F) (granted : Bool)
    (o : EncoderObject) : ∃ a s' m'', some (s.make granted o) = some (a, s') ∧
      s'.held = m'' + F ∧ Here fs fine (objectAt a o + m) s' m'' ∧ a.isSome = granted := by
  cases granted with
  | true =>
    refine ⟨_, _, _, rfl, ?_, h.objects _ _, rfl⟩
    obtain ⟨-, -, rfl⟩ := h
    show (s.objects.alloc o).live = _
    rw [HandleHeap.live_alloc, show s.objects.live = _ from hheld, add_assoc]
    rfl
  | false =>
    refine ⟨_, _, _, rfl, hheld, ?_, rfl⟩
    rw [objectAt, Option.elim_none, zero_add]
    exact h.next

/-! ### Single calls -/

theorem spec_malloc (size : ℕ) : Spec zstd memory (Here fs fine m) (malloc size) fun r s m' =>
    Here fs fine (objectAt r (.block (memory.block size.toUInt64)) + m) s m' ∧
      ((r.isSome = true → (memory.block size.toUInt64).length = size) ∧
        (fine → size < 2 ^ 63 → r.isSome = true)) := by
  refine .issue fun s m' F hheld h => ?_
  obtain ⟨a, s', m'', hrun, hheld', h', hgranted⟩ := exists_make h hheld
    (s.outcome.alloc && decide (size < 2 ^ 63)) (.block (memory.block size.toUInt64))
  refine ⟨a, s', m'', hrun, hheld', h', fun ha => ?_, fun hfine hsize => ?_⟩
  · have hsize := (Bool.and_eq_true_iff.mp (hgranted.symm.trans ha)).2
    rw [memory.length_block]
    exact toNat_toUInt64 (Nat.lt_trans (of_decide_eq_true hsize) (by omega))
  · rw [hgranted, EncoderState.outcome_of_faults (h.2.1 hfine)]
    simpa using hsize

theorem spec_createCCtx : Spec zstd memory (Here fs fine m) createCCtx fun r s m' =>
    Here fs fine (objectAt r (.context none none) + m) s m' ∧ (fine → r.isSome = true) := by
  refine .issue fun s m' F hheld h => ?_
  obtain ⟨a, s', m'', hrun, hheld', h', hgranted⟩ := exists_make h hheld s.outcome.alloc
    (.context none none)
  refine ⟨a, s', m'', hrun, hheld', h', fun hfine => ?_⟩
  rw [hgranted, EncoderState.outcome_of_faults (h.2.1 hfine)]
  rfl

theorem spec_fopenRead (path : Bytes) : Spec zstd memory (Here fs fine m) (fopenRead path)
    fun r s m' => Here fs fine (objectAt r (.reader path 0) + m) s m' ∧
      ((r.isSome = true → (fs.read path).isSome = true) ∧
        (fine → (fs.read path).isSome = true → r.isSome = true)) := by
  refine .issue fun s m' F hheld h => ?_
  obtain ⟨a, s', m'', hrun, hheld', h', hgranted⟩ := exists_make h hheld
    (s.outcome.opens && (s.fs.read path).isSome) (.reader path 0)
  rw [h.1] at hgranted
  refine ⟨a, s', m'', hrun, hheld', h', fun ha => ?_, fun hfine hfile => ?_⟩
  · exact (Bool.and_eq_true_iff.mp (hgranted.symm.trans ha)).2
  · rw [hgranted, EncoderState.outcome_of_faults (h.2.1 hfine), hfile]
    rfl

/-- A call that gives an object back. -/
theorem spec_give {c : EncoderCall} {a : encoderCalls.Answer c}
    (hc : ∀ s : EncoderState, s.objects.get p = some o →
      performEncoder zstd memory c s = some (a, s.drop p)) :
    Spec zstd memory (Here fs fine ({(p, o)} + m)) (.issue c) fun _ => Here fs fine m :=
  .issue fun s _ _ hheld h =>
    ⟨a, s.drop p, m, hc s (h.get hheld), held_drop h hheld, h.objects _ _⟩

theorem spec_free (bytes : Bytes) : Spec zstd memory (Here fs fine ({(p, .block bytes)} + m))
    (free p) fun _ => Here fs fine m :=
  spec_give (a := ()) fun s hget => by simp only [performEncoder, hget]

theorem spec_freePointers (slots : List (Option ℕ)) :
    Spec zstd memory (Here fs fine ({(p, .pointers slots)} + m)) (free p)
      fun _ => Here fs fine m :=
  spec_give (a := ()) fun s hget => by simp only [performEncoder, hget]

theorem spec_freeCCtx (dictionary : Option Bytes) (level : Option ℤ) :
    Spec zstd memory (Here fs fine ({(p, .context dictionary level)} + m)) (freeCCtx p)
      fun _ => Here fs fine m :=
  spec_give (a := ()) fun s hget => by simp only [performEncoder, hget]

theorem spec_fcloseReader (path : Bytes) (position : ℕ) :
    Spec zstd memory (Here fs fine ({(p, .reader path position)} + m)) (fclose p)
      fun _ => Here fs fine m :=
  spec_give (a := ()) fun s hget => by simp only [performEncoder, hget]

/-- A call that changes an object, or fails and changes none. -/
theorem spec_change {c : EncoderCall} (o' : encoderCalls.Answer c → EncoderObject)
    (Q : encoderCalls.Answer c → Prop)
    (hc : ∀ s : EncoderState, s.fs = fs → (fine → s.outcome = .ok) →
      (∀ x ∈ {(p, o)} + m, s.objects.get x.1 = some x.2) →
      ∃ a, Q a ∧ (performEncoder zstd memory c s = some (a, s.put p (o' a)) ∨
        performEncoder zstd memory c s = some (a, s.next) ∧ o' a = o)) :
    Spec zstd memory (Here fs fine ({(p, o)} + m)) (.issue c) fun a s m' =>
      Here fs fine ({(p, o' a)} + m) s m' ∧ Q a := by
  refine .issue fun s m' F hheld h => ?_
  have hget : ∀ x ∈ {(p, o)} + m, s.objects.get x.1 = some x.2 := by
    intro x hx
    rw [← HandleHeap.mem_live, show s.objects.live = _ from hheld, h.2.2]
    exact Multiset.mem_add.mpr (.inl hx)
  obtain ⟨a, hQ, hrun | ⟨hrun, hsame⟩⟩ := hc s h.1
    (fun hfine => EncoderState.outcome_of_faults (h.2.1 hfine)) hget
  · exact ⟨a, s.put p (o' a), _, hrun, held_put h hheld _, h.objects _ _, hQ⟩
  · exact ⟨a, s.next, m', hrun, hheld, hsame ▸ h.next, hQ⟩

theorem mem_self : (p, o) ∈ {(p, o)} + m :=
  Multiset.mem_add.mpr (.inl (Multiset.mem_singleton_self _))

theorem spec_loadIfGiven (dictionary : Option Bytes) :
    Spec zstd memory (Here fs fine ({(p, .context none none)} + m)) (loadIfGiven p dictionary)
      fun r s m' =>
        Here fs fine ({(p, .context (if r then loadedDictionary dictionary else none) none)} + m)
          s m' ∧
          ((r = true → (loadedDictionary dictionary).all zstd.loadDictionary = true) ∧
            (fine → (loadedDictionary dictionary).all zstd.loadDictionary = true → r = true)) := by
  rw [loadIfGiven]
  cases loadedDictionary dictionary with
  | none => exact .pure fun s m' h => ⟨h, fun _ => rfl, fun _ _ => rfl⟩
  | some d =>
    refine spec_change (c := .loadDictionary p d)
      (fun r : Bool => .context (if r then some d else none) none) _ fun s _ hfine hget => ?_
    simp only [performEncoder, hget _ mem_self]
    by_cases hload : (s.outcome.alloc && zstd.loadDictionary d) = true
    · refine ⟨true, ⟨fun _ => (Bool.and_eq_true_iff.mp hload).2, fun _ _ => rfl⟩, .inl ?_⟩
      rw [if_pos hload]
      rfl
    · refine ⟨false, ⟨nofun, fun hf htakes => absurd ?_ hload⟩, .inr ⟨if_neg hload, rfl⟩⟩
      rw [hfine hf]
      exact htakes

theorem spec_setCompressionLevel (dictionary : Option Bytes) (level : ℤ) :
    Spec zstd memory (Here fs fine ({(p, .context dictionary none)} + m))
      (setCompressionLevel p level) fun r s m' =>
        Here fs fine ({(p, .context dictionary (if r then some level else none))} + m) s m' ∧
          (zstd.setCompressionLevel level = true → r = true) := by
  refine spec_change (c := .setCompressionLevel p level)
    (fun r : Bool => .context dictionary (if r then some level else none)) _ fun s _ _ hget => ?_
  simp only [performEncoder, hget _ mem_self]
  by_cases htakes : zstd.setCompressionLevel level = true
  · exact ⟨true, fun _ => rfl, .inl (if_pos htakes)⟩
  · exact ⟨false, fun h => absurd h htakes, .inr ⟨if_neg htakes, rfl⟩⟩

/-- What a call of the library leaves in a buffer. -/
def filled (bytes : Bytes) (out : Option Bytes) (answer : Option ℕ) : EncoderObject :=
  .block (if answer.isSome then writeAt bytes 0 (out.getD []) else bytes)

/-- The library fills a buffer that is long enough, or reports an error. -/
theorem exists_fill {bytes out : Bytes} (hfit : out.length ≤ bytes.length)
    (hfine : fine → s.outcome = .ok) : ∃ a : Option ℕ,
      ((a.isSome = true → (some out).map List.length = a) ∧
        (fine → (some out).isSome = true → a.isSome = true)) ∧
      (s.fill s.outcome.alloc p bytes out = some (a, s.put p (filled bytes (some out) a)) ∨
        s.fill s.outcome.alloc p bytes out = some (a, s.next) ∧
          filled bytes (some out) a = .block bytes) := by
  rw [EncoderState.fill, if_pos hfit]
  by_cases halloc : s.outcome.alloc = true
  · exact ⟨some out.length, ⟨fun _ => rfl, fun _ _ => rfl⟩, .inl (if_pos halloc)⟩
  · refine ⟨none, ⟨nofun, fun hf _ => absurd ?_ halloc⟩, .inr ⟨if_neg halloc, rfl⟩⟩
    rw [hfine hf]
    rfl

theorem spec_compress2 {cctx capacity : ℕ} {dictionary : Option Bytes} {level : Option ℤ}
    {bytes : Bytes} (hlen : bytes.length = capacity) (data : Bytes) :
    Spec zstd memory
      (Here fs fine ({(p, .block bytes)} + ({(cctx, .context dictionary level)} + m)))
      (compress2 cctx p capacity data) fun r s m' =>
        Here fs fine ({(p, filled bytes (zstd.compress2 dictionary level capacity data) r)} +
          ({(cctx, .context dictionary level)} + m)) s m' ∧
          ((r.isSome = true →
            (zstd.compress2 dictionary level capacity data).map List.length = r) ∧
          (fine → (zstd.compress2 dictionary level capacity data).isSome = true →
            r.isSome = true)) := by
  refine spec_change (c := .compress2 cctx p capacity data) (fun r : Option ℕ =>
    filled bytes (zstd.compress2 dictionary level capacity data) r) _ fun s _ hfine hget => ?_
  have hctx := hget (cctx, .context dictionary level) (Multiset.mem_add.mpr (.inr mem_self))
  have hblock : s.block p = some bytes := by rw [EncoderState.block, hget _ mem_self]
  simp only [performEncoder, hctx, hblock, hlen, Nat.lt_irrefl, ↓reduceIte]
  cases hout : zstd.compress2 dictionary level capacity data with
  | none => exact ⟨none, ⟨nofun, nofun⟩, .inr ⟨rfl, rfl⟩⟩
  | some out => exact exists_fill (hlen ▸ zstd.length_compress2 hout) hfine

/-! ### Streams -/

/-- What a stream for reading shows. -/
abbrev FileSystem.shown (fs : FileSystem) (path : Bytes) : Bytes := (fs.read path).getD []

theorem spec_fseekEnd (path : Bytes) (position : ℕ) :
    Spec zstd memory (Here fs fine ({(p, .reader path position)} + m)) (fseekEnd p)
      fun r s m' => Here fs fine
        ({(p, .reader path (if r then (fs.shown path).length else position))} + m) s m' ∧
          (fine → r = true) := by
  refine spec_change (c := .fseekEnd p)
    (fun r : Bool => .reader path (if r then (fs.shown path).length else position)) _
    fun s hfs hfine hget => ?_
  simp only [performEncoder, hget _ mem_self, hfs]
  by_cases htells : s.outcome.tells = true
  · exact ⟨true, fun _ => rfl, .inl (if_pos htells)⟩
  · refine ⟨false, fun hf => absurd ?_ htells, .inr ⟨if_neg htells, rfl⟩⟩
    rw [hfine hf]
    rfl

theorem spec_fseekStart (path : Bytes) (position : ℕ) :
    Spec zstd memory (Here fs fine ({(p, .reader path position)} + m)) (fseekStart p)
      fun r s m' => Here fs fine ({(p, .reader path (if r then 0 else position))} + m) s m' ∧
        (fine → r = true) := by
  refine spec_change (c := .fseekStart p) (fun r : Bool => .reader path (if r then 0 else position))
    _ fun s _ hfine hget => ?_
  simp only [performEncoder, hget _ mem_self]
  by_cases htells : s.outcome.tells = true
  · exact ⟨true, fun _ => rfl, .inl (if_pos htells)⟩
  · refine ⟨false, fun hf => absurd ?_ htells, .inr ⟨if_neg htells, rfl⟩⟩
    rw [hfine hf]
    rfl

theorem spec_ftell (path : Bytes) (position : ℕ) :
    Spec zstd memory (Here fs fine ({(p, .reader path position)} + m)) (ftell p)
      fun r s m' => Here fs fine ({(p, .reader path position)} + m) s m' ∧
        ((r.isSome = true → r = some position) ∧
          (fine → position < 2 ^ 63 → r.isSome = true)) := by
  refine spec_change (c := .ftell p) (fun _ : Option ℕ => .reader path position) _
    fun s _ hfine hget => ?_
  simp only [performEncoder, hget _ mem_self]
  by_cases htells : s.outcome.tells = true ∧ position < 2 ^ 63
  · exact ⟨some position, ⟨fun _ => rfl, fun _ _ => rfl⟩, .inr ⟨by rw [if_pos htells], trivial⟩⟩
  · refine ⟨none, ⟨nofun, fun hf hsmall => absurd ⟨?_, hsmall⟩ htells⟩,
      .inr ⟨by rw [if_neg htells], trivial⟩⟩
    rw [hfine hf]
    rfl

/-- Reading from the start of a stream into a block of the right length. -/
theorem spec_fread {path bytes : Bytes} {stream count : ℕ} (hlen : bytes.length = count) :
    Spec zstd memory (Here fs fine ({(p, .block bytes)} + ({(stream, .reader path 0)} + m)))
      (fread p count stream) fun r s m' =>
        Here fs fine ({(stream, .reader path r)} +
          ({(p, .block (writeAt bytes 0 ((fs.shown path).take r)))} + m)) s m' ∧
          (fine → r = min count (fs.shown path).length) := by
  refine .issue fun s m' F hheld h => ?_
  have hblock := h.block hheld
  have hswap : Here fs fine ({(stream, .reader path 0)} + ({(p, .block bytes)} + m)) s m' := by
    rwa [add_left_comm] at h
  obtain ⟨hfs, hfine, rfl⟩ := id hswap
  set data := ((fs.shown path).drop 0).take (s.outcome.transferred count) with hdata
  have htake : (fs.shown path).take data.length = data := by
    rw [hdata, List.drop_zero, List.length_take, ← List.take_eq_take_min]
  have hrun : performEncoder zstd memory (.fread p count stream) s =
      some (data.length, { s.next with
        objects := (s.objects.set p (.block (writeAt bytes 0 data))).set stream
          (.reader path (0 + data.length)) }) := by
    simp only [performEncoder, hswap.get hheld, hblock, hlen, Nat.lt_irrefl, ↓reduceIte, hfs, hdata]
  refine ⟨data.length, _, _, hrun, ?_, hswap.objects _ _, fun hf => ?_⟩
  · have hlive : s.objects.live = {(p, .block bytes)} + ({(stream, .reader path 0)} + m + F) := by
      rw [show s.objects.live = _ from hheld, add_left_comm, add_assoc]
    have hset := HandleHeap.live_set hlive (.block (writeAt bytes 0 data))
    rw [add_assoc, add_left_comm] at hset
    show HandleHeap.live _ = _
    rw [HandleHeap.live_set hset, htake, Nat.zero_add, add_assoc, add_assoc]
  · rw [hdata, List.drop_zero, List.length_take, EncoderState.outcome_of_faults (hfine hf)]
    rfl

theorem spec_fopenWrite (path : Bytes) :
    Spec zstd memory (Here fs fine m) (fopenWrite path) fun r s m' =>
      Here (if r.isSome then fs.write path (some []) else fs) fine
        (objectAt r (.writer path []) + m) s m' ∧ (fine → r.isSome = true) := by
  refine .issue fun s m' F hheld h => ?_
  by_cases hopens : s.outcome.opens = true
  · refine ⟨some s.objects.fresh, _, _, if_pos hopens, ?_, ⟨?_, h.next.2.1, rfl⟩, fun _ => rfl⟩
    · obtain ⟨-, -, rfl⟩ := h
      show (s.objects.alloc _).live = _
      rw [HandleHeap.live_alloc, show s.objects.live = _ from hheld, add_assoc]
      rfl
    · rw [h.1]
      rfl
  · refine ⟨none, s.next, m', if_neg hopens, hheld, ?_, fun hf => absurd ?_ hopens⟩
    · rw [objectAt, Option.elim_none, zero_add]
      exact h.next
    · rw [EncoderState.outcome_of_faults (h.2.1 hf)]
      rfl

theorem spec_fwrite (path pending data : Bytes) :
    Spec zstd memory (Here fs fine ({(p, .writer path pending)} + m)) (fwrite p data)
      fun r s m' => Here fs fine ({(p, .writer path (pending ++ data.take r))} + m) s m' ∧
        (r ≤ data.length ∧ (fine → r = data.length)) := by
  refine spec_change (c := .fwrite p data)
    (fun r : ℕ => .writer path (pending ++ data.take r)) _ fun s _ hfine hget => ?_
  simp only [performEncoder, hget _ mem_self]
  refine ⟨_, ⟨s.outcome.transferred_le _, fun hf => ?_⟩, .inl rfl⟩
  rw [hfine hf, IoOutcome.ok_transferred]

/-- Closing a stream saves what was in its buffer, or a part of it. -/
theorem spec_fcloseWriter (path pending : Bytes) :
    Spec zstd memory (Here fs fine ({(p, .writer path pending)} + m)) (fclose p)
      fun _ s m' => ∃ k ≤ pending.length, (fine → k = pending.length) ∧
        Here (fs.write path (some (fs.shown path ++ pending.take k))) fine m s m' := by
  refine .issue fun s m' F hheld h => ?_
  refine ⟨(), { s.drop p with fs := s.fs.write path (some ((s.fs.read path).getD [] ++
    pending.take (s.outcome.transferred pending.length))) }, m, ?_, held_drop h hheld,
    s.outcome.transferred pending.length, s.outcome.transferred_le _, fun hf => ?_, ?_⟩
  · simp only [performEncoder, h.get hheld]
  · rw [EncoderState.outcome_of_faults (h.2.1 hf), IoOutcome.ok_transferred]
  · rw [← h.1]
    exact ⟨rfl, h.next.2.1, rfl⟩

end

end SuparnaD

import SuparnaD.Api.TopicRequests
import SuparnaD.Foundation.Runs

/-!
# Concurrent requests for a new topic

Any number of requests for one topic name run at once, each with a chunk of its own, and take turns
call by call. The test whether the file exists and the save of the initial data are separate calls,
so two requests can both find no file and both save. A run is free of races as long as nobody saves
the initial data of a file that exists by then, and every save that writes reaches the file of the
topic whole.

## Main definitions

* `OwnChunks`, `performFor` : the files with one chunk for each request.
* `TopicRace`, `TopicRace.step`, `TopicRace.start` : the runs.
* `TopicRace.RaceFree`, `TopicRace.Meets`.

## Main results

* `RequestAccount.Describes.perform` : what one call does, in terms of the account.
* `TopicRace.Tracked.step` : what one turn keeps.
* `TopicRace.raceFree_of_meets`.
-/

namespace SuparnaD

open Broker CallProgram

/-! ### One call of a request -/

/-- The part of the buffer that is not saved. -/
def Chunk.unsaved (c : Chunk) : Bytes :=
  (c.data.drop c.persistedSize.toNat).take (c.size - c.persistedSize).toNat

/-- A save writes nothing: `fopen` fails, or `fwrite` takes no byte for a file that exists. -/
def Machine.SavesNothing (s : Machine) (c : Chunk) : Prop :=
  s.outcome.opens = false ∨
    s.outcome.transferred c.unsaved.length = 0 ∧ (s.fs.read c.filePath).isSome

instance (s : Machine) (c : Chunk) : Decidable (s.SavesNothing c) :=
  inferInstanceAs (Decidable (_ ∨ _))

/-- A save writes all its bytes to the file at the path, and the initial data to a new file only. -/
structure Machine.SavesWhole (s : Machine) (path : Bytes) (c : Chunk) : Prop where
  whole : s.outcome.transferred c.unsaved.length = c.unsaved.length
  samePath : resolve path = resolve c.filePath
  initial : c.unsaved = initialData → s.fs.read path = none

instance (s : Machine) (path : Bytes) (c : Chunk) : Decidable (s.SavesWhole path c) :=
  decidable_of_iff (s.outcome.transferred c.unsaved.length = c.unsaved.length ∧
      resolve path = resolve c.filePath ∧ (c.unsaved = initialData → s.fs.read path = none))
    ⟨fun h => ⟨h.1, h.2.1, h.2.2⟩, fun h => ⟨h.whole, h.samePath, h.initial⟩⟩

/-- What a save of unsaved bytes has to meet. -/
def Machine.SavesWell (s : Machine) (path : Bytes) : Prop :=
  ∀ c ∈ s.chunk, c.unsaved ≠ [] → s.SavesNothing c ∨ s.SavesWhole path c

instance (s : Machine) (path : Bytes) : Decidable (s.SavesWell path) :=
  match h : s.chunk with
  | none => .isTrue fun c hc => by rw [h] at hc; cases hc
  | some c => decidable_of_iff (c.unsaved ≠ [] → s.SavesNothing c ∨ s.SavesWhole path c)
    ⟨fun hc c' hc' => by rw [h] at hc'; cases hc'; exact hc, fun hc => hc c (h ▸ rfl)⟩

/-- What a call of a request does to the file of the topic. -/
inductive FileEffect (event : Option Bytes) (x x' : RequestAccount) (file file' : Option Bytes) :
    Prop
  /-- The file is as it was. -/
  | same (hfile : file' = file) (hmade : x'.made = x.made) (hstored : x'.stored = x.stored)
    (hseen : x'.seen = true → x.seen = true ∨ file.isSome)
  /-- The request has made the file. -/
  | made (hnone : file = none) (hfile : file' = some initialData) (hmade : x'.made = true)
    (hstored : x'.stored = x.stored)
  /-- The request has added its event. -/
  | stored {d : Bytes} (hevent : event = some d) (hfirst : x.stored = false)
    (hstored : x'.stored = true) (hmade : x'.made = x.made) (hseen : x'.seen = x.seen)
    (hsome : x.seen = true) (hfile : file' = some (file.getD [] ++ topicFormat.frame d))

theorem FileSystem.write_read_self (fs : FileSystem) (path : Bytes) :
    fs.write path (fs.read path) = fs := by
  rw [write, read, Function.update_eq_self]

theorem FileSystem.read_congr (fs : FileSystem) {p q : Bytes} (h : resolve p = resolve q) :
    fs.read p = fs.read q := congrArg fs.files h

namespace Writer

variable {o : IoOutcome} {pending : Bytes}

theorem saveCount_of_nothing {n : ℕ} {P : Prop} (h : o.opens = false ∨ o.transferred n = 0 ∧ P) :
    saveCount o n = 0 := by
  rw [saveCount]
  rcases h with hclosed | ⟨hzero, -⟩
  · rw [hclosed, if_neg Bool.false_ne_true]
  · rw [hzero, ite_self]

theorem savedFile_of_nothing {file : Option Bytes}
    (h : o.opens = false ∨ o.transferred pending.length = 0 ∧ file.isSome) :
    savedFile o file pending = file := by
  have hcount := saveCount_of_nothing h
  rcases h with hclosed | ⟨-, hsome⟩
  · rw [savedFile, if_pos (.inr (by rw [hclosed]; exact Bool.false_ne_true))]
  · obtain ⟨content, rfl⟩ := Option.isSome_iff_exists.mp hsome
    rw [savedFile_some, hcount, List.take_zero, List.append_nil]

theorem savedFile_of_whole (file : Option Bytes) (hne : pending ≠ []) (hopens : o.opens = true)
    (hwhole : o.transferred pending.length = pending.length) :
    savedFile o file pending = some (file.getD [] ++ pending) := by
  rw [savedFile, if_neg, saveCount, if_pos hopens, hwhole, List.take_length]
  rintro (hnil | hclosed)
  · exact hne hnil
  · exact hclosed hopens

end Writer

/-- What a save that meets this does: it fails and saves nothing, or it has nothing to save, or it
adds all to the file of the topic. -/
theorem Machine.SavesWell.save_cases {s : Machine} {path : Bytes} {c : Chunk}
    {l : DeltaLog UInt8} (hwell : s.SavesWell path) (hs : s.chunk = some c)
    (hc : c.Represents l) :
    let w := Writer.chunkSaveDelta s.outcome (s.fs.read c.filePath) c
    w.2.1.filePath = c.filePath ∧
      (w.1 = -1 ∧ w.2.1 = c ∧ (s.fs.write c.filePath w.2.2).read path = s.fs.read path ∨
        w.1 = 0 ∧ w.2.1.Represents l.commit ∧
          (l.pending = [] ∧ (s.fs.write c.filePath w.2.2).read path = s.fs.read path ∨
            l.pending ≠ [] ∧ (l.pending = initialData → s.fs.read path = none) ∧
              (s.fs.write c.filePath w.2.2).read path =
                some ((s.fs.read path).getD [] ++ l.pending))) := by
  intro w
  have hunsaved : c.unsaved = l.pending := hc.delta_eq
  obtain ⟨hpath, hfile, hcases⟩ :=
    Writer.chunkSaveDelta_cases hc s.outcome (s.fs.read c.filePath)
  refine ⟨hpath, ?_⟩
  -- Where the file does not change, it is written back as it was.
  have hback (h : Writer.savedFile s.outcome (s.fs.read c.filePath) l.pending =
      s.fs.read c.filePath) : (s.fs.write c.filePath w.2.2).read path = s.fs.read path := by
    rw [hfile, h, FileSystem.write_read_self]
  by_cases hnil : l.pending = []
  · have hread := hback (by rw [Writer.savedFile, if_pos (.inl hnil)])
    rcases hcases with ⟨hzero, -, hrep⟩ | ⟨hneg, -, hsame⟩
    · exact .inr ⟨hzero, hrep, .inl ⟨hnil, hread⟩⟩
    · exact .inl ⟨hneg, hsame, hread⟩
  have hpos : 0 < l.pending.length := List.length_pos_iff.mpr hnil
  by_cases hnothing : s.SavesNothing c
  · rw [Machine.SavesNothing, hunsaved] at hnothing
    have hcount := Writer.saveCount_of_nothing hnothing
    rcases hcases with ⟨-, hdone, -⟩ | ⟨hneg, -, hsame⟩
    · omega
    · exact .inl ⟨hneg, hsame, hback (Writer.savedFile_of_nothing hnothing)⟩
  have hwhole := (hwell c hs (hunsaved ▸ hnil)).resolve_left hnothing
  have hopens : s.outcome.opens = true := by
    by_contra hclosed
    exact hnothing (.inl (Bool.not_eq_true _ ▸ hclosed))
  have hcount := hwhole.whole
  rw [hunsaved] at hcount
  rcases hcases with ⟨hzero, -, hrep⟩ | ⟨-, hshort, -⟩
  · refine .inr ⟨hzero, hrep, .inr ⟨hnil, fun h => hwhole.initial (hunsaved.trans h), ?_⟩⟩
    rw [FileSystem.read_congr _ hwhole.samePath, FileSystem.read_write, hfile,
      Writer.savedFile_of_whole _ hnil hopens hcount, FileSystem.read_congr _ hwhole.samePath]
  · rw [Writer.saveCount, if_pos hopens, hcount] at hshort
    exact absurd hshort (Nat.lt_irrefl _)

namespace RequestAccount

/-- The account says what the chunk has to save. -/
def Describes (x : RequestAccount) : Option Chunk → Prop
  | none => x.chunk = none
  | some c => ∃ l, c.Represents l ∧ x.chunk = some (c.filePath, l.pending)

variable {path : Bytes} {event : Option Bytes} {x : RequestAccount} {s s' : Machine}

theorem Describes.isSome_eq {c : Option Chunk} (h : x.Describes c) :
    x.chunk.isSome = c.isSome := by
  cases c with
  | none => exact congrArg Option.isSome h
  | some c =>
    obtain ⟨l, -, hx⟩ := h
    exact congrArg Option.isSome hx

/-- A save of a chunk that the account describes. -/
theorem Describes.perform_chunkSaveDelta (h : x.Describes s.chunk)
    (hpre : (requestSpec path event).pre .chunkSaveDelta x) {r : ℤ}
    (hcall : perform .chunkSaveDelta s = some (r, s')) (hwell : s.SavesWell path) :
    ∃ x', (requestSpec path event).step .chunkSaveDelta x r x' ∧ x'.Describes s'.chunk ∧
      FileEffect event x x' (s.fs.read path) (s'.fs.read path) := by
  cases hs : s.chunk with
  | none =>
    rw [perform, hs] at hcall
    obtain ⟨rfl, rfl⟩ := Prod.mk.inj (Option.some.inj hcall)
    exact ⟨x, .inr ⟨by decide, rfl⟩, hs ▸ h, .same rfl rfl rfl .inl⟩
  | some c =>
  rw [perform, hs] at hcall
  obtain ⟨rfl, rfl⟩ := Prod.mk.inj (Option.some.inj hcall)
  rw [hs] at h
  obtain ⟨l, hc, hx⟩ := h
  have hpending : x.unsaved = l.pending := by rw [RequestAccount.unsaved, hx]; rfl
  obtain ⟨hpath, ⟨hneg, hkept, hread⟩ | ⟨hzero, hrep, hadded⟩⟩ := hwell.save_cases hs hc
  · exact ⟨x, .inr ⟨by rw [hneg]; decide, rfl⟩, ⟨l, by rwa [hkept], by rw [hx, hpath]⟩,
      .same hread rfl rfl .inl⟩
  have hcleared : x.chunk.map (fun c => (c.1, ([] : Bytes))) = some
      ((Writer.chunkSaveDelta s.outcome (s.fs.read c.filePath) c).2.1.filePath,
        l.commit.pending) := by
    rw [hx, hpath, DeltaLog.pending_commit, Option.map_some]
  rcases hadded with ⟨hnil, hread⟩ | ⟨hne, hinitial, hread⟩
  · refine ⟨x, .inl ⟨hzero, (saved_of_nil (hpending.trans hnil)).symm⟩, ⟨_, hrep, ?_⟩,
      .same hread rfl rfl .inl⟩
    rw [hx, hpath, hnil, DeltaLog.pending_commit]
  rcases hpre with hempty | hdata | ⟨hseen, hstored, d, hevent, hd, hframe⟩
  · exact absurd (hpending.symm.trans hempty) hne
  · have hdata' : l.pending = initialData := hpending.symm.trans hdata
    have hnone := hinitial hdata'
    refine ⟨x.saved, .inl ⟨hzero, rfl⟩, ⟨_, hrep, ?_⟩, .made hnone ?_ ?_ ?_⟩
    · rw [saved_of_initialData hdata]
      exact hcleared
    · rw [hnone, hdata'] at hread
      exact hread
    · rw [saved_of_initialData hdata]
    · rw [saved_of_initialData hdata]
  · refine ⟨x.saved, .inl ⟨hzero, rfl⟩, ⟨_, hrep, ?_⟩, .stored hevent hstored ?_ ?_ ?_ hseen ?_⟩
    · rw [saved_of_frame hframe hd]
      exact hcleared
    · rw [saved_of_frame hframe hd]
    · rw [saved_of_frame hframe hd]
    · rw [saved_of_frame hframe hd]
    · rw [← hframe, hpending]
      exact hread

/-- A load of a chunk that has nothing to save. -/
theorem Describes.chunkLoad {c : Chunk} (h : x.Describes (some c)) (hnil : x.unsaved = [])
    (o : IoOutcome) (file : Option Bytes) : x.Describes (some (Writer.chunkLoad o file c).2) := by
  obtain ⟨l, hc, hx⟩ := h
  have hpending : l.pending = [] := by rwa [RequestAccount.unsaved, hx] at hnil
  obtain ⟨hpath, ⟨-, hrep⟩ | ⟨-, hwf, hsize, hsaved⟩⟩ :=
    Writer.chunkLoad_cases hc.wellFormed o file
  · exact ⟨_, hrep, by rw [hx, hpath, hpending, DeltaLog.pending_load]⟩
  · refine ⟨_, hwf.represents, ?_⟩
    rw [hx, hpath, hpending, hwf.represents.size_le_persistedSize_iff.mp]
    rw [hsize, hsaved]
    exact hc.size_le_persistedSize_iff.mpr hpending

theorem Describes.chunkAppend {c : Chunk} (h : x.Describes (some c)) {o : IoOutcome} {data : Bytes}
    (hdata : data.length < 2 ^ 63) {r : ℤ × Chunk} (hrun : Writer.chunkAppend o c data = some r) :
    r.1 = 0 ∧ (x.append data).Describes (some r.2) ∨ r.1 ≠ 0 ∧ x.Describes (some r.2) := by
  obtain ⟨l, hc, hx⟩ := h
  obtain ⟨hpath, ⟨hzero, -, hrep⟩ | ⟨hneg, hkept⟩⟩ := Writer.chunkAppend_cases hc o hdata hrun
  · refine .inl ⟨hzero, _, hrep, ?_⟩
    rw [RequestAccount.append, hx, Option.map_some, DeltaLog.pending_append, hpath]
  · refine .inr ⟨fun hzero => ?_, l, hkept ▸ hc, by rw [hx, hpath]⟩
    cases hneg.symm.trans hzero

/-- What one call does, in terms of the account. -/
theorem Describes.perform (h : x.Describes s.chunk) {c : BrokerCall} {r : brokerCalls.Answer c}
    (hpre : (requestSpec path event).pre c x) (hcall : SuparnaD.perform c s = some (r, s'))
    (hwell : c = .chunkSaveDelta → s.SavesWell path) :
    ∃ x', (requestSpec path event).step c x r x' ∧ x'.Describes s'.chunk ∧
      FileEffect event x x' (s.fs.read path) (s'.fs.read path) := by
  have hsame (y : RequestAccount) (hmade : y.made = x.made) (hstored : y.stored = x.stored)
      (hseen : y.seen = x.seen) : FileEffect event x y (s.fs.read path) (s.fs.read path) :=
    .same rfl hmade hstored fun hy => .inl (hseen.symm.trans hy)
  cases c with
  | chunkSaveDelta => exact h.perform_chunkSaveDelta hpre hcall (hwell rfl)
  | hasChunk =>
    obtain ⟨rfl, rfl⟩ := Prod.mk.inj (Option.some.inj hcall)
    exact ⟨x, ⟨h.isSome_eq.symm, rfl⟩, h, hsame x rfl rfl rfl⟩
  | chunkInit filePath =>
    obtain ⟨rfl, rfl⟩ := Prod.mk.inj (Option.some.inj hcall)
    refine ⟨_, rfl, ?_, hsame _ rfl rfl rfl⟩
    cases hinit : Writer.chunkInit s.outcome filePath with
    | none => rfl
    | some c =>
      obtain ⟨rfl, hrep⟩ := Writer.chunkInit_represents hinit
      exact ⟨_, hrep, by rw [DeltaLog.pending_load]; rfl⟩
  | chunkFree =>
    obtain ⟨-, rfl⟩ := Prod.mk.inj (Option.some.inj hcall)
    exact ⟨_, rfl, rfl, hsame _ rfl rfl rfl⟩
  | chunkLoad =>
    refine ⟨x, rfl, ?_⟩
    cases hs : s.chunk with
    | none =>
      rw [SuparnaD.perform, hs] at hcall
      obtain ⟨-, rfl⟩ := Prod.mk.inj (Option.some.inj hcall)
      exact ⟨h, hsame x rfl rfl rfl⟩
    | some c =>
      rw [SuparnaD.perform, hs] at hcall
      obtain ⟨-, rfl⟩ := Prod.mk.inj (Option.some.inj hcall)
      rw [hs] at h
      exact ⟨h.chunkLoad hpre _ _, hsame x rfl rfl rfl⟩
  | chunkAppend data =>
    cases hs : s.chunk with
    | none =>
      rw [SuparnaD.perform, hs] at hcall
      obtain ⟨rfl, rfl⟩ := Prod.mk.inj (Option.some.inj hcall)
      exact ⟨x, .inr ⟨show (-1 : ℤ) ≠ 0 by omega, rfl⟩, h, hsame x rfl rfl rfl⟩
    | some c =>
      rw [SuparnaD.perform, hs] at hcall
      obtain ⟨⟨r', c'⟩, hrun, heq⟩ := Option.map_eq_some_iff.mp hcall
      obtain ⟨rfl, rfl⟩ := Prod.mk.inj heq
      rw [hs] at h
      rcases h.chunkAppend hpre hrun with ⟨hzero, hx⟩ | ⟨hne, hx⟩
      · exact ⟨x.append data, .inl ⟨hzero, rfl⟩, hx, hsame _ rfl rfl rfl⟩
      · exact ⟨x, .inr ⟨hne, rfl⟩, hx, hsame x rfl rfl rfl⟩
  | chunkRead size offset =>
    refine ⟨x, rfl, ?_⟩
    cases hs : s.chunk with
    | none | some c =>
      simp only [SuparnaD.perform, hs] at hcall
      obtain ⟨-, rfl⟩ := Prod.mk.inj (Option.some.inj hcall)
      exact ⟨h, hsame x rfl rfl rfl⟩
  | chunkSize =>
    obtain ⟨c, -, heq⟩ := Option.map_eq_some_iff.mp hcall
    obtain ⟨-, rfl⟩ := Prod.mk.inj heq
    exact ⟨x, rfl, h, hsame x rfl rfl rfl⟩
  | malloc | stat _ | send _ | read _ =>
    obtain ⟨-, rfl⟩ := Prod.mk.inj (Option.some.inj hcall)
    exact ⟨x, rfl, h, hsame x rfl rfl rfl⟩
  | mkdir p =>
    have hkept := sameFiles_of_perform (c := .mkdir p) trivial hcall
    refine ⟨x, rfl, hkept.chunk ▸ h, ?_⟩
    rw [hkept.read]
    exact hsame x rfl rfl rfl
  | fopenRead p =>
    obtain ⟨rfl, rfl⟩ := Prod.mk.inj (Option.some.inj hcall)
    refine ⟨_, rfl, h, .same rfl rfl rfl fun hseen => ?_⟩
    rcases Bool.or_eq_true_iff.mp hseen with hold | hfound
    · exact .inl hold
    · obtain ⟨hfound, hp⟩ := Bool.and_eq_true_iff.mp hfound
      rw [← of_decide_eq_true hp]
      exact .inr (Bool.and_eq_true_iff.mp hfound).2

end RequestAccount

/-! ### Runs of many requests -/

/-- The files with a chunk for each request. -/
structure OwnChunks (ι : Type) where
  /-- The files and directories. -/
  fs : FileSystem
  /-- How the coming calls to storage and to the allocator turn out. -/
  faults : List IoOutcome
  /-- The client. -/
  client : Client
  /-- The chunk of each request. -/
  chunk : ι → Option Chunk

namespace OwnChunks

variable {ι : Type}

/-- What a call of one request works on. -/
def machine (s : OwnChunks ι) (i : ι) : Machine := ⟨s.fs, s.faults, s.chunk i, s.client⟩

/-- The state after a call of one request. -/
def after [DecidableEq ι] (s : OwnChunks ι) (i : ι) (m : Machine) : OwnChunks ι :=
  ⟨m.fs, m.faults, m.client, Function.update s.chunk i m.chunk⟩

end OwnChunks

/-- The effect of a call of one request. -/
def performFor {ι : Type} [DecidableEq ι] (i : ι) : CallHandler brokerCalls (OwnChunks ι) :=
  fun c s => (perform c (s.machine i)).map fun r => (r.1, s.after i r.2)

/-- Requests that share the files. -/
abbrev TopicRace (ι : Type) : Type := CallPool brokerCalls ι RequestResult (OwnChunks ι)

namespace TopicRace

variable {ι : Type} [DecidableEq ι]

/-- One turn of one request. -/
def step (t : TopicRace ι) (i : ι) : Option (Option (CallEvent brokerCalls) × TopicRace ι) :=
  CallPool.step (performFor i) t i

/-- Before the first call of any request. -/
def start (topicName : Bytes) (requests : ι → TopicRequest) (fs : FileSystem)
    (faults : List IoOutcome) : TopicRace ι :=
  ⟨⟨fs, faults, ⟨[], [], []⟩, fun _ => none⟩, fun i => (requests i).run topicName⟩

/-- The file of the topic. -/
def file (t : TopicRace ι) (path : Bytes) : Option Bytes := t.state.fs.read path

/-- The request has returned with this result. -/
def Returned (t : TopicRace ι) (i : ι) (a : RequestResult) : Prop :=
  (t.threads i).returned = some a

/-- The file holds the initial data once and then a frame for each event; without a file there is
no event. -/
def HoldsEvents : Option Bytes → List Bytes → Prop
  | none, events => events = []
  | some content, events => content = initialData ++ topicFormat.stream events

/-- The file of the topic is the initial data followed by whole frames, at most one for each publish
and exactly one for each that has returned `0`. Whoever has got a topic finds the file, and at most
one call of `create_topic` has returned a topic. -/
structure RaceFree (t : TopicRace ι) (requests : ι → TopicRequest) (path : Bytes) : Prop where
  events : ∃ log : List (ι × Bytes), HoldsEvents (t.file path) (log.map Prod.snd) ∧
    ∀ i, SharedTopic.eventsOf log i <+: (requests i).event.toList ∧
      ∀ a, t.Returned i a → SharedTopic.eventsOf log i = (requests i).published a
  hasTopic : ∀ i a, t.Returned i a → a.hasTopic = true → (t.file path).isSome
  created : ∀ i j a b, t.Returned i a → t.Returned j b → a.created = true → b.created = true →
    i = j

/-- A request whose next call is a save of unsaved bytes saves well. -/
def Meets (t : TopicRace ι) (path : Bytes) (i : ι) : Prop :=
  (t.threads i).next = some .chunkSaveDelta → (t.state.machine i).SavesWell path

instance (t : TopicRace ι) (path : Bytes) (i : ι) : Decidable (t.Meets path i) :=
  inferInstanceAs (Decidable (_ → _))

instance (t : TopicRace ι) (i : ι) (a : RequestResult) : Decidable (t.Returned i a) :=
  inferInstanceAs (Decidable (_ = _))

variable {t t' : TopicRace ι} {requests : ι → TopicRequest} {topicName path : Bytes}
  {x : ι → RequestAccount} {log : List (ι × Bytes)} {i : ι}

/-- The accounts of all requests together describe the file. -/
structure Account (requests : ι → TopicRequest) (file : Option Bytes) (x : ι → RequestAccount)
    (log : List (ι × Bytes)) : Prop where
  holds : HoldsEvents file (log.map Prod.snd)
  events : ∀ i, SharedTopic.eventsOf log i =
    if (x i).stored then (requests i).event.toList else []
  seen : ∀ i, (x i).seen = true → file.isSome
  made : ∀ i, (x i).made = true → file.isSome
  once : ∀ i j, (x i).made = true → (x j).made = true → i = j

/-- What one call keeps. -/
theorem Account.effect {file file' : Option Bytes} {y : RequestAccount}
    (h : Account requests file x log)
    (heffect : FileEffect (requests i).event (x i) y file file') :
    ∃ log', Account requests file' (Function.update x i y) log' := by
  cases heffect with
  | same hfile hmade hstored hseen =>
    subst hfile
    have hsame (j : ι) : (Function.update x i y j).made = (x j).made ∧
        (Function.update x i y j).stored = (x j).stored := by
      by_cases hne : j = i
      · rw [hne, Function.update_self]
        exact ⟨hmade, hstored⟩
      · rw [Function.update_of_ne hne]
        exact ⟨rfl, rfl⟩
    refine ⟨log, h.holds, fun j => ?_, ?_, fun j hj => h.made j ((hsame j).1 ▸ hj),
      fun j k hj hk => h.once j k ((hsame j).1 ▸ hj) ((hsame k).1 ▸ hk)⟩
    · rw [(hsame j).2]
      exact h.events j
    · rw [Function.forall_update_iff x fun _ z => z.seen = true → file'.isSome]
      exact ⟨fun hy => (hseen hy).elim (h.seen i) id, fun j _ => h.seen j⟩
  | made hnone hfile hmade hstored =>
    subst hnone hfile
    have hlog : log = [] := List.map_eq_nil_iff.mp h.holds
    subst hlog
    have hothers (j : ι) (hj : (Function.update x i y j).made = true) : j = i := by
      by_contra hne
      rw [Function.update_of_ne hne] at hj
      cases h.made j hj
    refine ⟨[], ?_, ?_, fun _ _ => rfl, fun _ _ => rfl, fun j k hj hk =>
      (hothers j hj).trans (hothers k hk).symm⟩
    · rw [HoldsEvents, List.map_nil, FrameFormat.stream_nil, List.append_nil]
    · rw [Function.forall_update_iff x fun j z => SharedTopic.eventsOf [] j =
        if z.stored then (requests j).event.toList else []]
      exact ⟨hstored ▸ h.events i, fun j _ => h.events j⟩
  | @stored d hevent hfirst hstored hmade hseen hsome hfile =>
    obtain ⟨content, rfl⟩ := Option.isSome_iff_exists.mp (h.seen i hsome)
    subst hfile
    have hsame (j : ι) : (Function.update x i y j).made = (x j).made := by
      by_cases hne : j = i
      · rw [hne, Function.update_self, hmade]
      · rw [Function.update_of_ne hne]
    refine ⟨log ++ [(i, d)], ?_, ?_, fun _ _ => rfl, fun _ _ => rfl,
      fun j k hj hk => h.once j k (hsame j ▸ hj) (hsame k ▸ hk)⟩
    · rw [HoldsEvents, List.map_append, FrameFormat.stream_append, ← List.append_assoc, ← h.holds,
        List.map_singleton, FrameFormat.stream_cons, FrameFormat.stream_nil, List.append_nil]
      rfl
    · rw [Function.forall_update_iff x fun j z => SharedTopic.eventsOf (log ++ [(i, d)]) j =
        if z.stored then (requests j).event.toList else []]
      refine ⟨?_, fun j hne => ?_⟩
      · rw [SharedTopic.eventsOf_append_self, h.events, hfirst, hstored, hevent]
        rfl
      · rw [SharedTopic.eventsOf_append_of_ne hne, h.events]

/-- The invariant: every request keeps to its account, and the accounts together describe the
file. -/
structure Tracked (t : TopicRace ι) (requests : ι → TopicRequest) (path : Bytes)
    (x : ι → RequestAccount) (log : List (ι × Bytes)) : Prop where
  describes : ∀ i, (x i).Describes (t.state.chunk i)
  ensures : ∀ i, (t.threads i).Ensures (requestSpec path (requests i).event) (requests i).Returns
    (x i)
  account : Account requests (t.file path) x log

/-- The invariant says that there have been no races. -/
theorem Tracked.raceFree (h : t.Tracked requests path x log) : t.RaceFree requests path := by
  have hreturns {i : ι} {a : RequestResult} (ha : t.Returned i a) :
      (requests i).Returns a (x i) := by
    have hensures := h.ensures i
    rwa [returned_eq_some_iff.mp ha] at hensures
  refine ⟨⟨log, h.account.holds, fun i => ⟨?_, fun a ha => ?_⟩⟩, fun i a ha htopic => ?_,
    fun i j a b ha hb hcreated hcreated' => ?_⟩
  · rw [h.account.events]
    split
    · exact List.prefix_refl _
    · exact List.nil_prefix
  · rw [h.account.events]
    exact (hreturns ha).stored
  · exact h.account.seen i ((hreturns ha).hasTopic htopic)
  · exact h.account.once i j ((hreturns ha).created hcreated) ((hreturns hb).created hcreated')

/-- What one turn keeps. -/
theorem Tracked.step (h : t.Tracked requests path x log) {event : Option (CallEvent brokerCalls)}
    (hmeets : t.Meets path i) (hstep : t.step i = some (event, t')) :
    ∃ x' log', t'.Tracked requests path x' log' := by
  rcases CallPool.step_eq_some_iff.mp hstep with
    ⟨a, -, -, rfl⟩ | ⟨c, k, r, s', hthread, hcall, -, rfl⟩
  · exact ⟨x, log, h⟩
  obtain ⟨⟨r', m⟩, hperform, heq⟩ := Option.map_eq_some_iff.mp hcall
  obtain ⟨rfl, rfl⟩ := Prod.mk.inj heq
  have hensures := h.ensures i
  rw [hthread] at hensures
  obtain ⟨y, hy, hdescribes, heffect⟩ := (h.describes i).perform hensures.1 hperform
    fun hc => hmeets ((congrArg next hthread).trans (congrArg some hc))
  obtain ⟨log', haccount⟩ := h.account.effect heffect
  refine ⟨Function.update x i y, log', fun j => ?_, CallPool.ensures_update h.ensures hthread hy,
    haccount⟩
  show (Function.update x i y j).Describes (Function.update t.state.chunk i m.chunk j)
  by_cases hne : j = i
  · subst hne
    rwa [Function.update_self, Function.update_self]
  · rw [Function.update_of_ne hne, Function.update_of_ne hne]
    exact h.describes j

theorem tracked_start (topicName : Bytes) (requests : ι → TopicRequest) {fs : FileSystem}
    (faults : List IoOutcome)
    (hnew : fs.read (topicPath topicName defaultTopicBasePath) = none) :
    (start topicName requests fs faults).Tracked requests
      (topicPath topicName defaultTopicBasePath) (fun _ => .fresh) [] := by
  refine ⟨fun _ => rfl, fun i => (requests i).ensures_run topicName, ?_, fun _ => rfl,
    fun _ h => Bool.noConfusion h, fun _ h => Bool.noConfusion h, fun _ _ h => Bool.noConfusion h⟩
  show HoldsEvents (fs.read _) []
  rw [hnew]
  rfl

/-- A run whose saves write whole, and the initial data to a new file only, is free of races. -/
theorem raceFree_of_meets (topicName : Bytes) (requests : ι → TopicRequest) {fs : FileSystem}
    (faults : List IoOutcome)
    (hnew : fs.read (topicPath topicName defaultTopicBasePath) = none) {turns : List ι}
    (hmeets : ∀ e ∈ trace step (start topicName requests fs faults) turns,
      e.before.Meets (topicPath topicName defaultTopicBasePath) e.op) :
    ∀ e ∈ trace step (start topicName requests fs faults) turns,
      e.after.RaceFree requests (topicPath topicName defaultTopicBasePath) := by
  refine trace_rule
    (fun t : TopicRace ι => ∃ x log,
      t.Tracked requests (topicPath topicName defaultTopicBasePath) x log)
    (fun t i => t.Meets (topicPath topicName defaultTopicBasePath) i) ?_
    ⟨_, [], tracked_start topicName requests faults hnew⟩ hmeets
  rintro t i event t' ⟨x, log, h⟩ hmeets hstep
  obtain ⟨x', log', h'⟩ := h.step hmeets hstep
  exact ⟨⟨x', log', h'⟩, h'.raceFree⟩

/-- A file system without files. -/
def noFiles : FileSystem := ⟨fun _ => none, fun _ => false⟩

/-- A publish and a call of `create_topic`. -/
def sampleRequests : Bool → TopicRequest
  | false => .publish (ascii "a")
  | true => .createTopic

/-- The path of the topic of both. -/
def samplePath : Bytes := topicPath (ascii "t") defaultTopicBasePath

/-- The second request creates the topic before the first one looks for it. -/
def sampleTurns : List Bool := List.replicate 12 true ++ List.replicate 12 false

theorem raceFree_of_meets_sample :
    (∃ e ∈ trace step (start (ascii "t") sampleRequests noFiles []) sampleTurns,
      e.after.Returned false ⟨false, true, 0⟩ ∧ e.after.Returned true ⟨true, true, -1⟩) ∧
    ∀ e ∈ trace step (start (ascii "t") sampleRequests noFiles []) sampleTurns,
      e.after.RaceFree sampleRequests samplePath :=
  ⟨by decide +kernel, raceFree_of_meets (ascii "t") sampleRequests [] rfl (by decide +kernel)⟩

/-- The second request finds no file, then the first one creates the topic and publishes, then the
second one goes on. -/
def sampleRace : List Bool :=
  List.replicate 2 true ++ List.replicate 19 false ++ List.replicate 10 true

/-- Both create the topic, and the initial data lands after the event for a second time. -/
theorem not_raceFree_sample :
    ∃ e ∈ trace step (start (ascii "t") sampleRequests noFiles []) sampleRace,
      e.after.Returned false ⟨true, true, 0⟩ ∧ e.after.Returned true ⟨true, true, -1⟩ ∧
      e.after.file samplePath =
        some (initialData ++ topicFormat.frame (ascii "a") ++ initialData) ∧
      ¬ e.after.RaceFree sampleRequests samplePath := by
  have hrace : ∃ e ∈ trace step (start (ascii "t") sampleRequests noFiles []) sampleRace,
      e.after.Returned false ⟨true, true, 0⟩ ∧ e.after.Returned true ⟨true, true, -1⟩ ∧
      e.after.file samplePath =
        some (initialData ++ topicFormat.frame (ascii "a") ++ initialData) := by
    decide +kernel
  obtain ⟨e, he, hpublish, hcreate, hfile⟩ := hrace
  refine ⟨e, he, hpublish, hcreate, hfile, fun h => ?_⟩
  cases h.created false true _ _ hpublish hcreate rfl rfl

end TopicRace

end SuparnaD

import SuparnaD.Messaging.SharedTopic

/-!
# Independent handles on one topic file

Every handle has a chunk of its own and runs its calls one after the other, while other handles
write to the same file between any two of its calls to the writer. What a chunk shows of the file
may be out of date by any amount, but what a handle has to save is exactly what its call in progress
has appended. So each save adds whole frames to the file, and nothing is lost or written twice.

## Main definitions

* `TopicHandle`, `TopicHandles`, `TopicHandles.step` : handles with their calls, and one turn.
* `TopicHandle.Progress` : how far a handle has come with its call.

## Main results

* `TopicHandles.Tracked.step` : what one turn keeps.
* `TopicHandles.wholeFrames_of_succeeds`.
-/

namespace SuparnaD

open Broker

/-- A handle on the topic file, with the calls that it runs. -/
structure TopicHandle where
  /-- Its chunk. -/
  chunk : Option Chunk
  /-- The calls that have not begun. -/
  todo : List TopicCall
  /-- The call in progress and what remains of it. -/
  current : Option (TopicCall × Broker ℤ)
  /-- The calls that have returned, with their results. -/
  finished : List (TopicCall × ℤ)

/-- Handles that share the files. -/
structure TopicHandles (ι : Type) where
  /-- The files and directories. -/
  fs : FileSystem
  /-- How the coming calls to storage and to the allocator turn out. -/
  faults : List IoOutcome
  /-- The client. -/
  client : Client
  /-- The handles. -/
  handle : ι → TopicHandle
  /-- The saves that have succeeded, in their order, each with the handle and the events of the call
  that has saved. -/
  saves : List (ι × List Bytes)

/-- The events that the call is given to publish. -/
def TopicCall.events (call : TopicCall) : List Bytes := call.items.filterMap id

/-- The events of the calls that have returned `0`. -/
def TopicHandle.published (h : TopicHandle) : List Bytes :=
  h.finished.flatMap fun f => f.1.published f.2

namespace TopicHandles

variable {ι : Type} [DecidableEq ι]

/-- What a call of a handle works on. -/
def machine (t : TopicHandles ι) (i : ι) : Machine :=
  ⟨t.fs, t.faults, (t.handle i).chunk, t.client⟩

/-- The content of the file at a path. -/
def file (t : TopicHandles ι) (path : Bytes) : Bytes := (t.fs.read path).getD []

/-- Replace a handle. -/
def withHandle (t : TopicHandles ι) (i : ι) (h : TopicHandle) : TopicHandles ι :=
  { t with handle := Function.update t.handle i h }

/-- A call to the writer or to the allocator has returned for a handle. -/
def withMachine (t : TopicHandles ι) (i : ι) (s : Machine) (current : TopicCall × Broker ℤ)
    (saves : List (ι × List Bytes)) : TopicHandles ι :=
  { fs := s.fs
    faults := s.faults
    client := s.client
    handle := Function.update t.handle i
      { t.handle i with chunk := s.chunk, current := some current }
    saves := saves }

/-- A save that has succeeded. -/
def isSaved (event : CallEvent brokerCalls) : Bool :=
  event.1 = .chunkSaveDelta && writerResult event = 0

/-- One turn of a handle: it begins a call, issues one call to the writer or to the allocator, or
returns. -/
def step (t : TopicHandles ι) (i : ι) :
    Option (Option (CallEvent brokerCalls) × TopicHandles ι) :=
  match (t.handle i).current with
  | none =>
    match (t.handle i).todo with
    | [] => some (none, t)
    | call :: todo =>
      some (none, t.withHandle i { t.handle i with todo := todo, current := some (call, call.run) })
  | some (call, .ret r) =>
    some (none, t.withHandle i { t.handle i with
      current := none
      finished := (t.handle i).finished ++ [(call, r)] })
  | some (call, .call c k) =>
    (perform c (t.machine i)).map fun r => (some ⟨c, r.1⟩, t.withMachine i r.2 (call, k r.1)
      (if isSaved ⟨c, r.1⟩ then t.saves ++ [(i, call.events)] else t.saves))

/-- The events that a handle has saved. -/
def savedBy (t : TopicHandles ι) (i : ι) : List Bytes :=
  (t.saves.filter fun s => s.1 = i).flatMap Prod.snd

/-- The handles have been opened on the file, at whatever times, and no call has begun. -/
structure Opened (t : TopicHandles ι) (path : Bytes) : Prop where
  chunk : ∀ i, ∃ l, (t.machine i).Logs path l ∧ l.pending = []
  idle : ∀ i, (t.handle i).current = none ∧ (t.handle i).finished = []
  saves : t.saves = []

end TopicHandles

/-! ### How far a handle has come -/

/-- How far a handle has come: what its chunk has to save belongs to the call in progress, and the
events that it has saved are those of its calls that have returned `0`. -/
inductive TopicHandle.Progress (h : TopicHandle) (pending : Bytes) (saved : List Bytes) : Prop
  /-- It is between two calls. -/
  | idle (hcurrent : h.current = none) (hpending : pending = []) (hsaved : saved = h.published)
  /-- Its call is about to return. -/
  | returned {call : TopicCall} {r : ℤ} (hcurrent : h.current = some (call, .ret r))
    (hpending : pending = []) (hsaved : saved = h.published ++ call.published r)
  /-- Its call has appended some events, and maybe the header of the next. -/
  | working {call : TopicCall} {p : Broker ℤ} {done : List Bytes} {n : ℕ}
    (hcurrent : h.current = some (call, p)) (hthread : call.ThreadAt done n p)
    (hnext : p.next ≠ none) (heven : n % 2 = 0 → pending = topicFormat.stream done)
    (hodd : n % 2 = 1 → ∃ d, p.next = some (.chunkAppend d) ∧
      pending = topicFormat.stream done ++ eventHeader d)
    (hsaved : saved = h.published)

namespace TopicCall

variable {call : TopicCall} {done : List Bytes} {p : Broker ℤ}

/-- A thread that has not appended anything has no events behind it. -/
theorem ThreadAt.eq_nil (h : call.ThreadAt done 0 p) : done = [] := by
  generalize hn : (0 : ℕ) = n at h
  cases h with
  | quiet h => rfl
  | opening hitems hvalid h => rfl
  | between hitems hvalid h | finished hitems => exact List.length_eq_zero_iff.mp (by omega)
  | middle hitems hvalid h => omega

/-- A thread saves when it has appended all its events, and then returns. -/
theorem ThreadAt.of_save {n : ℕ} {k : brokerCalls.Answer .chunkSaveDelta → Broker ℤ}
    (h : call.ThreadAt done n (.call .chunkSaveDelta k)) :
    k (0 : ℤ) = .ret 0 ∧ call.items = done.map some := by
  cases h with
  | quiet h => exact h.1.elim
  | opening hitems hvalid h =>
    obtain ⟨k', hk', -⟩ := h.eq_call
    cases hk'
  | @between _ rest _ hitems hvalid h =>
    cases rest with
    | nil =>
      obtain ⟨k', hk', hrest⟩ := h.eq_call
      cases hk'
      rw [List.append_nil] at hitems
      exact ⟨hrest.eq_ret, hitems⟩
    | cons d rest =>
      obtain ⟨k', hk', -⟩ := h.eq_call
      cases hk'
  | middle hitems hvalid h =>
    obtain ⟨k', hk', -⟩ := h.eq_call
    cases hk'

/-- Items that are all events. -/
theorem uniform_of_events (h : ∀ item ∈ call.items, IsEvent item) : call.Uniform := by
  intro item items hitems _
  rw [hitems] at h
  exact (List.forall_mem_cons.mp h).2

end TopicCall

namespace TopicHandle.Progress

variable {h h' : TopicHandle} {call : TopicCall} {p : Broker ℤ} {saved : List Bytes}

/-- The call has appended nothing so far. -/
theorem of_threadAt (hcurrent : h.current = some (call, p)) (hthread : call.ThreadAt [] 0 p)
    (hsaved : saved = h.published) : h.Progress [] saved := by
  cases hp : p with
  | ret r =>
    rw [hp] at hcurrent hthread
    refine .returned hcurrent rfl ?_
    rcases hthread.cases with ⟨r', hret, hdone⟩ | ⟨_, _, hcall, -⟩ | ⟨_, hcall, -⟩ |
      ⟨_, _, hcall, -⟩ | ⟨_, _, hcall, -⟩
    · cases hret
      rw [← hdone, List.append_nil, hsaved]
    all_goals cases hcall
  | call c k =>
    rw [hp] at hcurrent hthread
    refine .working hcurrent hthread (Option.some_ne_none c) (fun _ => rfl) (fun hodd => ?_) hsaved
    cases hodd

end TopicHandle.Progress

namespace Machine

variable {s s' : Machine} {path : Bytes} {l : DeltaLog UInt8}

/-- What a machine represents depends on its chunk only. -/
theorem Logs.of_chunk (h : s.Logs path l) (hchunk : s'.chunk = s.chunk) : s'.Logs path l := by
  obtain ⟨c, hs, hc⟩ := h
  exact ⟨c, hchunk.trans hs, hc⟩

end Machine

/-! ### The invariant -/

namespace TopicHandles

variable {ι : Type} [DecidableEq ι] {t t' : TopicHandles ι} {path content : Bytes} {i j : ι}

/-- The invariant: the file holds one whole frame for each event that has been saved, and every
handle has to save what its call in progress has appended. -/
structure Tracked (t : TopicHandles ι) (path content : Bytes) : Prop where
  file : t.file path = content ++ topicFormat.stream (t.saves.flatMap Prod.snd)
  handles : ∀ i, ∃ l, (t.machine i).Logs path l ∧
    (t.handle i).Progress l.pending (t.savedBy i)
  valid : ∀ i, ∀ call ∈ (t.handle i).todo, ∀ item ∈ call.items, IsEvent item

/-- A turn of one handle leaves the others as they were. -/
theorem Tracked.update (h : t.Tracked path content)
    (hfile : t'.file path = content ++ topicFormat.stream (t'.saves.flatMap Prod.snd))
    (hothers : ∀ j, j ≠ i → t'.handle j = t.handle j ∧ t'.savedBy j = t.savedBy j)
    (hown : ∃ l, (t'.machine i).Logs path l ∧ (t'.handle i).Progress l.pending (t'.savedBy i))
    (htodo : (t'.handle i).todo ⊆ (t.handle i).todo) : t'.Tracked path content := by
  refine ⟨hfile, fun j => ?_, fun j call hcall => ?_⟩
  · by_cases hne : j = i
    · exact hne ▸ hown
    · obtain ⟨l, hlogs, hprogress⟩ := h.handles j
      obtain ⟨hsame, hsaved⟩ := hothers j hne
      refine ⟨l, hlogs.of_chunk (congrArg TopicHandle.chunk hsame), ?_⟩
      rwa [hsame, hsaved]
  · by_cases hne : j = i
    · subst hne
      exact h.valid j call (htodo hcall)
    · rw [(hothers j hne).1] at hcall
      exact h.valid j call hcall

/-- A handle begins a call or returns from one. -/
theorem Tracked.withHandle (h : t.Tracked path content) {g : TopicHandle} {l : DeltaLog UInt8}
    (hlogs : (t.machine i).Logs path l) (hchunk : g.chunk = (t.handle i).chunk)
    (hprogress : g.Progress l.pending (t.savedBy i)) (htodo : g.todo ⊆ (t.handle i).todo) :
    (t.withHandle i g).Tracked path content := by
  have hself : (t.withHandle i g).handle i = g := Function.update_self ..
  refine h.update (i := i) h.file (fun j hne => ⟨Function.update_of_ne hne .., rfl⟩)
    ⟨l, hlogs.of_chunk ?_, ?_⟩ ?_
  · exact (congrArg TopicHandle.chunk hself).trans hchunk
  · rw [hself]
    exact hprogress
  · rwa [hself]

/-- A handle goes on with its call and has not saved. -/
theorem Tracked.withMachine (h : t.Tracked path content) {s : Machine} {l : DeltaLog UInt8}
    {current : TopicCall × Broker ℤ} (hlogs : s.Logs path l)
    (hprogress : TopicHandle.Progress
      { t.handle i with chunk := s.chunk, current := some current } l.pending (t.savedBy i))
    (hfile : s.file path = t.file path) :
    (t.withMachine i s current t.saves).Tracked path content := by
  have hself : (t.withMachine i s current t.saves).handle i =
      { t.handle i with chunk := s.chunk, current := some current } := Function.update_self ..
  refine h.update (i := i) (hfile.trans h.file)
    (fun j hne => ⟨Function.update_of_ne hne .., rfl⟩) ⟨l, hlogs.of_chunk ?_, ?_⟩ ?_
  · exact congrArg TopicHandle.chunk hself
  · rw [hself]
    exact hprogress
  · rw [hself]
    exact List.Subset.refl _

theorem savedBy_append_self (t : TopicHandles ι) (i : ι) (events : List Bytes) :
    ((t.saves ++ [(i, events)]).filter fun s => s.1 = i).flatMap Prod.snd =
      t.savedBy i ++ events := by
  simp [savedBy, List.filter_append]

theorem savedBy_append_of_ne (t : TopicHandles ι) (hne : j ≠ i) (events : List Bytes) :
    ((t.saves ++ [(i, events)]).filter fun s => s.1 = j).flatMap Prod.snd = t.savedBy j := by
  simp [savedBy, List.filter_append, hne.symm]

/-- A handle saves what its call has appended. -/
theorem Tracked.save (h : t.Tracked path content) {s : Machine} {l : DeltaLog UInt8}
    {call : TopicCall} {events : List Bytes} (hlogs : s.Logs path l) (hpending : l.pending = [])
    (hitems : call.items = events.map some) (hsaved : t.savedBy i = (t.handle i).published)
    (hfile : s.file path = t.file path ++ topicFormat.stream events) :
    Tracked (t.withMachine i s (call, .ret 0) (t.saves ++ [(i, call.events)])) path content := by
  have hevents : call.events = events := by
    rw [TopicCall.events, hitems, List.filterMap_map]
    exact List.filterMap_some
  rw [hevents]
  have hself : (t.withMachine i s (call, .ret 0) (t.saves ++ [(i, events)])).handle i =
      { t.handle i with chunk := s.chunk, current := some (call, .ret 0) } :=
    Function.update_self ..
  refine h.update (i := i) ?_ (fun j hne => ⟨Function.update_of_ne hne .., ?_⟩)
    ⟨l, hlogs.of_chunk (congrArg TopicHandle.chunk hself), ?_⟩ ?_
  · show _ = content ++ topicFormat.stream ((t.saves ++ [(i, events)]).flatMap Prod.snd)
    rw [List.flatMap_append, FrameFormat.stream_append, ← List.append_assoc, ← h.file,
      List.flatMap_singleton]
    exact hfile
  · exact t.savedBy_append_of_ne hne events
  · rw [hself]
    refine .returned rfl hpending ?_
    rw [TopicCall.published_zero hitems]
    exact (t.savedBy_append_self i events).trans (congrArg (· ++ events) hsaved)
  · rw [hself]
    exact List.Subset.refl _

/-- What one call of a program that is under way keeps. -/
theorem Tracked.called (h : t.Tracked path content) {call : TopicCall} {c : BrokerCall}
    {k : brokerCalls.Answer c → Broker ℤ} {r : brokerCalls.Answer c} {s : Machine}
    {l : DeltaLog UInt8} {done : List Bytes} {n : ℕ} (hlogs : (t.machine i).Logs path l)
    (hthread : call.ThreadAt done n (.call c k))
    (heven : n % 2 = 0 → l.pending = topicFormat.stream done)
    (hodd : n % 2 = 1 → ∃ d, some c = some (.chunkAppend d) ∧
      l.pending = topicFormat.stream done ++ eventHeader d)
    (hsaved : t.savedBy i = (t.handle i).published) (hok : Succeeds (some ⟨c, r⟩))
    (hcall : perform c (t.machine i) = some (r, s)) :
    Tracked (t.withMachine i s (call, k r)
      (if isSaved ⟨c, r⟩ then t.saves ++ [(i, call.events)] else t.saves)) path content := by
  rcases hthread.cases with ⟨r', heq, -⟩ | ⟨c, k, heq, rfl, hreads, hthread'⟩ |
    ⟨k, heq, hn, -⟩ | ⟨d, k, heq, hn, hpayload, hthread'⟩ | ⟨d, k, heq, hn, hd, hgoes, hthread'⟩ <;>
    cases heq
  · -- It reads, and has nothing to save.
    obtain rfl := hthread.eq_nil
    have hpending : l.pending = [] := heven rfl
    have hfound (b : Bool) (heq : (⟨c, r⟩ : CallEvent brokerCalls) = ⟨.hasChunk, b⟩) :
        b = true := by
      cases heq
      obtain ⟨hchunk, -⟩ := Prod.mk.inj (Option.some.inj hcall)
      obtain ⟨c, hs, -⟩ := hlogs
      rw [← hchunk, hs, Option.isSome_some]
    obtain ⟨l', hlogs', hpending', hfile⟩ :=
      hlogs.perform_reads hcall hreads hok fun _ => hpending
    have hunsaved : isSaved ⟨c, r⟩ = false := by
      cases c with
      | chunkSaveDelta => exact hreads.elim
      | _ => rfl
    rw [hunsaved]
    refine h.withMachine hlogs' ?_ hfile
    rw [hpending', hpending]
    exact .of_threadAt rfl (hthread' r hfound) hsaved
  · -- It saves.
    obtain rfl : r = (0 : ℤ) := hok
    obtain ⟨hret, hitems⟩ := hthread.of_save
    obtain ⟨hlogs', hfile⟩ := hlogs.perform_chunkSaveDelta hcall
    rw [heven hn] at hfile
    have hall := h.save (i := i) hlogs' (DeltaLog.pending_commit l) hitems hsaved hfile
    rw [← hret] at hall
    exact hall
  · -- It appends the header of an event.
    obtain rfl : r = (0 : ℤ) := hok
    obtain ⟨hlogs', hfile⟩ := hlogs.perform_chunkAppend
      (by rw [length_eventHeader]; decide) (eventHeader_ne_nil d) hcall
    refine h.withMachine hlogs' (.working rfl hthread' ?_ (fun hn' => ?_) (fun _ => ?_) hsaved)
      hfile
    · rw [hpayload]
      exact Option.some_ne_none _
    · omega
    · exact ⟨d, hpayload, by rw [DeltaLog.pending_append, heven hn]⟩
  · -- It appends the payload.
    obtain rfl : r = (0 : ℤ) := hok
    obtain ⟨hlogs', hfile⟩ := hlogs.perform_chunkAppend (length_lt_of_valid hd)
      (List.length_pos_iff.mp hd.1) hcall
    obtain ⟨d', hd', hpending⟩ := hodd hn
    obtain rfl : d = d' := BrokerCall.chunkAppend.inj (Option.some.inj hd')
    refine h.withMachine hlogs' (.working rfl hthread' hgoes (fun _ => ?_) (fun hn' => ?_) hsaved)
      hfile
    · rw [DeltaLog.pending_append, hpending, FrameFormat.stream_append, FrameFormat.stream_cons,
        FrameFormat.stream_nil, List.append_nil, topicFormat_frame, List.append_assoc]
      rfl
    · omega

/-- What one turn keeps. -/
theorem Tracked.step (h : t.Tracked path content) {event : Option (CallEvent brokerCalls)}
    (hok : Succeeds event) (hstep : t.step i = some (event, t')) : t'.Tracked path content := by
  obtain ⟨l, hlogs, hprogress⟩ := h.handles i
  cases hprogress with
  | idle hcurrent hpending hsaved =>
    rw [TopicHandles.step, hcurrent] at hstep
    cases htodo : (t.handle i).todo with
    | nil =>
      simp only [htodo] at hstep
      obtain ⟨-, rfl⟩ := Prod.mk.inj (Option.some.inj hstep)
      exact h
    | cons call todo =>
      simp only [htodo] at hstep
      obtain ⟨-, rfl⟩ := Prod.mk.inj (Option.some.inj hstep)
      have hvalid := h.valid i call (htodo ▸ List.mem_cons_self)
      refine h.withHandle hlogs rfl ?_ (htodo ▸ List.subset_cons_self call todo)
      rw [hpending]
      exact .of_threadAt rfl (TopicCall.threadAt_run (TopicCall.uniform_of_events hvalid)) hsaved
  | @returned call r hcurrent hpending hsaved =>
    rw [TopicHandles.step, hcurrent] at hstep
    obtain ⟨-, rfl⟩ := Prod.mk.inj (Option.some.inj hstep)
    refine h.withHandle hlogs rfl (.idle rfl hpending ?_) (List.Subset.refl _)
    rw [hsaved, TopicHandle.published, TopicHandle.published, List.flatMap_append,
      List.flatMap_singleton]
  | @working call p done n hcurrent hthread hnext heven hodd hsaved =>
    cases p with
    | ret r => exact absurd rfl hnext
    | call c k =>
      rw [TopicHandles.step, hcurrent] at hstep
      obtain ⟨⟨r, s⟩, hcall, heq⟩ := Option.map_eq_some_iff.mp hstep
      obtain ⟨rfl, rfl⟩ := Prod.mk.inj heq
      exact h.called hlogs hthread heven hodd hsaved hok hcall

/-! ### Runs -/

theorem Opened.tracked (h : t.Opened path)
    (hvalid : ∀ i, ∀ call ∈ (t.handle i).todo, ∀ item ∈ call.items, IsEvent item) :
    t.Tracked path (t.file path) := by
  refine ⟨?_, fun i => ?_, hvalid⟩
  · rw [h.saves, List.flatMap_nil, FrameFormat.stream_nil, List.append_nil]
  · obtain ⟨l, hlogs, hpending⟩ := h.chunk i
    obtain ⟨hcurrent, hfinished⟩ := h.idle i
    refine ⟨l, hlogs, .idle hcurrent hpending ?_⟩
    rw [savedBy, h.saves, TopicHandle.published, hfinished]
    rfl

/-- Between two calls, a handle has saved the events of its calls that have returned `0`. -/
theorem Tracked.savedBy_eq (h : t.Tracked path content) (hidle : (t.handle i).current = none) :
    t.savedBy i = (t.handle i).published := by
  obtain ⟨l, -, hprogress⟩ := h.handles i
  cases hprogress with
  | idle hcurrent hpending hsaved => exact hsaved
  | returned hcurrent hpending hsaved => cases hidle.symm.trans hcurrent
  | working hcurrent hthread hnext heven hodd hsaved => cases hidle.symm.trans hcurrent

/-- Whatever the order of the turns, the file is the initial content followed by one whole frame for
each event that has been saved, in the order of the saves, and between two calls the events that a
handle has saved are those of its calls that have returned `0`. -/
theorem wholeFrames_of_succeeds (h : t.Opened path)
    (hvalid : ∀ i, ∀ call ∈ (t.handle i).todo, ∀ item ∈ call.items, IsEvent item) {turns : List ι}
    (hok : ∀ e ∈ trace step t turns, Succeeds e.result) :
    ∀ e ∈ trace step t turns,
      e.after.file path = t.file path ++ topicFormat.stream (e.after.saves.flatMap Prod.snd) ∧
        ∀ i, (e.after.handle i).current = none →
          e.after.savedBy i = (e.after.handle i).published := by
  refine trace_rule (fun t' : TopicHandles ι => t'.Tracked path (t.file path))
    (fun (t' : TopicHandles ι) i => ∀ event t'', t'.step i = some (event, t'') → Succeeds event) ?_
    (h.tracked hvalid) fun e he => ?_
  · intro t₁ i event t₂ h₁ hok₁ hstep
    have h₂ := h₁.step (hok₁ event t₂ hstep) hstep
    exact ⟨h₂, h₂.file, fun j hidle => h₂.savedBy_eq hidle⟩
  · intro event t'' hstep
    obtain ⟨heq, -⟩ := Prod.mk.inj (Option.some.inj ((step_of_mem_trace he).symm.trans hstep))
    exact heq ▸ hok e he

/-- A call of `consume_packet`. -/
def sampleReader : Broker ℤ := (fun _ => 0) <$> consumePacket ⟨ascii "g", 0, 0, 0⟩ 0

theorem readsOnly_sampleReader : sampleReader.ReadsOnly :=
  (readsOnly_consumePacket _ _).map fun _ _ => trivial

/-- Two new handles on a file of two bytes. The first loads it, publishes and consumes; the second
publishes a batch and knows nothing of the first. -/
def sampleHandles : TopicHandles Bool where
  fs := .ofFile (ascii "t") (ascii "\x7b\x7d")
  faults := []
  client := ⟨[], [], []⟩
  handle
    | false => ⟨Writer.chunkInit .ok (ascii "t"), [.reader chunkLoad readsOnly_chunkLoad,
        .publishEvent (some (ascii "a")), .reader sampleReader readsOnly_sampleReader], none, []⟩
    | true => ⟨Writer.chunkInit .ok (ascii "t"),
        [.publishEventBatch [some (ascii "b"), some (ascii "c")]], none, []⟩
  saves := []

/-- The first handle publishes while the second stands before its save. -/
def sampleTurns : List Bool :=
  List.replicate 3 false ++ List.replicate 6 true ++ List.replicate 6 false ++
    List.replicate 2 true ++ List.replicate 12 false

theorem wholeFrames_of_succeeds_sample :
    (∃ e ∈ trace step sampleHandles sampleTurns, e.after.saves =
        [(false, [ascii "a"]), (true, [ascii "b", ascii "c"])]) ∧
      ∀ e ∈ trace step sampleHandles sampleTurns,
        e.after.file (ascii "t") = sampleHandles.file (ascii "t") ++
            topicFormat.stream (e.after.saves.flatMap Prod.snd) ∧
          ∀ i, (e.after.handle i).current = none →
            e.after.savedBy i = (e.after.handle i).published := by
  have hlogs (s : Machine) (hs : s.chunk = Writer.chunkInit .ok (ascii "t")) :
      ∃ l, s.Logs (ascii "t") l ∧ l.pending = [] :=
    ⟨.load [], ⟨_, hs, rfl, (Writer.chunkInit_represents (o := .ok) rfl).2⟩, rfl⟩
  refine ⟨by decide +kernel, wholeFrames_of_succeeds ⟨fun i => ?_, fun i => ?_, rfl⟩ ?_ ?_⟩
  · match i with
    | false | true => exact hlogs _ rfl
  · match i with
    | false | true => exact ⟨rfl, rfl⟩
  · have ha : IsEvent (some (ascii "a")) := ⟨_, rfl, by decide⟩
    have hb : IsEvent (some (ascii "b")) := ⟨_, rfl, by decide⟩
    have hc : IsEvent (some (ascii "c")) := ⟨_, rfl, by decide⟩
    intro i call hcall
    match i with
    | false =>
      simp only [sampleHandles, List.mem_cons, List.not_mem_nil, or_false] at hcall
      rcases hcall with rfl | rfl | rfl <;> simp [TopicCall.items, ha]
    | true =>
      simp only [sampleHandles, List.mem_cons, List.not_mem_nil, or_false] at hcall
      subst hcall
      simp [TopicCall.items, hb, hc]
  · decide +kernel

end TopicHandles

end SuparnaD

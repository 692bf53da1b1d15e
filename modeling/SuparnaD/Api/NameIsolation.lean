import SuparnaD.Api.TopicPaths
import SuparnaD.System.Paths

/-!
# Which files topic names lead to

Every non-empty text is accepted as the name of a topic, and its file is `name.topic` below the base
path, whatever slashes and dots the name contains. Names that spell one path in two ways share a
file, and a name that climbs leads out of the base directory. For a name that does not climb the
file lies in the base directory, and two such names share a file only when they spell one path.

## Main definitions

* `nameParts` : the parts of a name.
* `StoredAt` : the file of a topic that one of the entry points gives for a name.
* `Inside`, `NamesIsolated`.

## Main results

* `resolve_topicPath` : a name that does not climb stays below the base path.
* `exec_publish_elsewhere` : publishing on a topic changes no other file.
* `storedAt_isolated`.
-/

namespace SuparnaD

open Broker CallProgram

/-- The parts of the path `./name.topic`. -/
def nameParts (topicName : Bytes) : List Bytes := (resolve (topicPath topicName (ascii "."))).parts

/-- The file of a topic that `create_topic`, a publish or `SET_TOPIC` gives for a name. An existing
topic is opened at a path that is cut to 511 bytes; names with which that happens are left out. -/
inductive StoredAt (topicName : Bytes) : Bytes → Bytes → Prop
  | created {basePath : Bytes} {s s' : Machine} {topic : Topic} {c : Chunk}
      (hrun : (createTopic topicName basePath).exec s = some (some topic, s'))
      (hchunk : s'.chunk = some c) : StoredAt topicName basePath c.filePath
  | published {s s' : Machine} {topic : Topic} {c : Chunk} (hlen : topicName.length ≤ 496)
      (hrun : (getOrCreateTopic topicName).exec s = some (some topic, s'))
      (hchunk : s'.chunk = some c) : StoredAt topicName defaultTopicBasePath c.filePath
  | selected {st st' : SessionState} {r : ℤ} {th : ℕ} {t : TopicObject} {c : Chunk}
      (hlen : topicName.length ≤ 496) (hrun : handleSetTopic topicName st = some (r, st'))
      (hth : st'.session.topic = some th) (ht : st'.world.topics.get th = some t)
      (hchunk : t.chunkHandle = some c) : StoredAt topicName defaultTopicBasePath c.filePath

/-- The path lies in the directory of the base path. -/
def Inside (basePath path : Bytes) : Prop :=
  (resolve path).absolute = (resolve basePath).absolute ∧
    ∃ rest, rest ≠ [] ∧ dotDot ∉ rest ∧ (resolve path).parts = (resolve basePath).parts ++ rest

/-- Different names lead to different files in the directory of the base path. -/
def NamesIsolated : Prop :=
  ∀ basePath topicName₁ topicName₂ path₁ path₂, StoredAt topicName₁ basePath path₁ →
    StoredAt topicName₂ basePath path₂ → topicName₁ ≠ topicName₂ →
      resolve path₁ ≠ resolve path₂ ∧ Inside basePath path₁ ∧ Inside basePath path₂

variable {topicName topicName₁ topicName₂ basePath path path₁ path₂ : Bytes} {s s' : Machine}

/-! ### The path of a name -/

/-- The name with its extension, from the base path on. -/
theorem topicPath_eq (topicName basePath : Bytes) :
    topicPath topicName basePath = basePath ++ 47 :: (topicName ++ ascii ".topic") := by
  have hslash : ascii "/" = [47] := rfl
  rw [topicPath, hslash, List.append_assoc, List.append_assoc, List.singleton_append]

theorem nameParts_eq (topicName : Bytes) :
    nameParts topicName = (walk false [] (topicName ++ ascii ".topic")).reverse := by
  rw [nameParts, topicPath_eq, resolve_eq,
    startsWith_slash_append (u := ascii ".") (List.cons_ne_nil _ _), walk_append_slash]
  rfl

/-- A name that does not climb stays below the base path. -/
theorem resolve_topicPath (hbase : basePath ≠ []) (hstay : dotDot ∉ nameParts topicName) :
    resolve (topicPath topicName basePath) =
      ⟨(resolve basePath).absolute, (resolve basePath).parts ++ nameParts topicName⟩ := by
  rw [nameParts_eq, List.mem_reverse] at hstay
  rw [topicPath_eq, resolve_eq, startsWith_slash_append hbase, walk_append_slash]
  have hwalk (absolute : Bool) (base : List Bytes) :
      walk absolute base (topicName ++ ascii ".topic") =
        walk false [] (topicName ++ ascii ".topic") ++ base := walk_append hstay
  rw [hwalk, List.reverse_append, nameParts_eq, resolve_eq]

/-- A part that ends like the extension is neither empty nor a part of dots. -/
theorem pushPart_of_getLast {parts : List Bytes} {absolute : Bool} {part : Bytes}
    (hlast : part.getLast? = some 99) : pushPart absolute parts part = part :: parts := by
  refine pushPart_down ?_ ?_
  · rintro (rfl | rfl) <;> cases hlast
  · rintro rfl
    cases hlast

theorem getLast_append_topic (bytes : Bytes) : (bytes ++ ascii ".topic").getLast? = some 99 := by
  rw [List.getLast?_append]
  rfl

/-- The last part of a name is the name of its file. -/
theorem nameParts_ne_nil (topicName : Bytes) : nameParts topicName ≠ [] := by
  have hlast := getLast_append_topic topicName
  rw [nameParts_eq]
  refine fun hnil => ?_
  rw [List.reverse_eq_nil_iff] at hnil
  by_cases hslash : 47 ∈ topicName ++ ascii ".topic"
  · obtain ⟨u, v, hsplit, hv⟩ := exists_last_slash hslash
    rw [hsplit] at hlast hnil
    rw [walk_append_slash, walk_of_not_mem hv, pushPart_of_getLast] at hnil
    · cases hnil
    · cases v with
      | nil =>
        rw [List.getLast?_append] at hlast
        cases hlast
      | cons b v =>
        rw [List.getLast?_append, List.getLast?_cons_cons,
          List.getLast?_eq_some_getLast (List.cons_ne_nil b v), Option.some_or] at hlast
        rw [List.getLast?_eq_some_getLast (List.cons_ne_nil b v), hlast]
  · rw [walk_of_not_mem hslash, pushPart_of_getLast hlast] at hnil
    cases hnil

/-- A name without slashes is one part. -/
theorem nameParts_of_not_mem (hslash : 47 ∉ topicName) :
    nameParts topicName = [topicName ++ ascii ".topic"] := by
  have hmem : 47 ∉ topicName ++ ascii ".topic" := by
    rw [List.mem_append, not_or]
    exact ⟨hslash, by decide⟩
  rw [nameParts_eq, walk_of_not_mem hmem, pushPart_of_getLast (getLast_append_topic topicName)]
  rfl

/-! ### The entry points -/

/-- The empty path is not made. -/
theorem exec_ensureDirectoryExists_nil {r : ℤ}
    (hrun : (ensureDirectoryExists []).exec s = some (r, s')) : r ≠ 0 := by
  obtain ⟨granted, s₁, -, hrun⟩ := run_bind_eq_some_iff.mp hrun
  split at hrun
  · obtain ⟨rfl, -⟩ := run_pure_eq_some_iff.mp hrun
    decide
  obtain ⟨found, s₂, hstat, hrun⟩ := run_bind_eq_some_iff.mp hrun
  have hmissing : (stat []).exec s₁ = some (s₁.outcome.opens && false, s₁.next) := rfl
  obtain ⟨rfl, rfl⟩ := Prod.mk.inj (Option.some.inj (hmissing.symm.trans hstat))
  rw [Bool.and_false] at hrun
  obtain ⟨made, s₃, hmkdir, hrun⟩ := run_bind_eq_some_iff.mp hrun
  obtain rfl : made = .failed := by
    have hcall := (run_issue perform (BrokerCall.mkdir []) s₁.next).symm.trans hmkdir
    rw [perform] at hcall
    split_ifs at hcall <;> exact (Prod.mk.inj (Option.some.inj hcall)).1.symm
  obtain ⟨rfl, -⟩ := run_pure_eq_some_iff.mp hrun
  decide

/-- No topic is made below the empty base path. -/
theorem basePath_ne_nil {topic : Topic}
    (hrun : (createTopic topicName basePath).exec s = some (some topic, s')) : basePath ≠ [] := by
  rintro rfl
  rcases exec_createTopic_cases hrun with ⟨hnone, -⟩ | ⟨t, ⟨-, s₁, s₂, -, hmade, -⟩, -⟩
  · cases hnone
  · exact exec_ensureDirectoryExists_nil hmade rfl

/-- The file of a topic is the one that its name and the base path spell. -/
theorem StoredAt.path_eq (h : StoredAt topicName basePath path) :
    path = topicPath topicName basePath ∧ basePath ≠ [] := by
  cases h with
  | created hrun hchunk => exact ⟨(isOn_of_createTopic hrun).2 _ hchunk, basePath_ne_nil hrun⟩
  | published hlen hrun hchunk =>
    exact ⟨(publishOpens_of_length hlen _ _ _ hrun).2 _ hchunk, List.cons_ne_nil _ _⟩
  | selected hlen hrun hth ht hchunk =>
    exact ⟨(sessionOpens_of_length hlen _ _ _ _ _ hrun hth ht).2 _ hchunk, List.cons_ne_nil _ _⟩

/-! ### Where events are stored -/

/-- The chunk, if there is one, belongs to the file at the path. -/
def Machine.ChunkAt (s : Machine) (path : Bytes) : Prop :=
  ∀ c, s.chunk = some c → c.filePath = path

/-- The chunk still belongs to the file at the path, and no other file has changed. -/
structure Machine.Elsewhere (path : Bytes) (s s' : Machine) : Prop where
  chunk : s'.ChunkAt path
  others : ∀ p, resolve p ≠ resolve path → s'.fs.read p = s.fs.read p

/-- The calls that publishing consists of. -/
def BrokerCall.Publishes : BrokerCall → Prop
  | .malloc | .hasChunk | .chunkAppend _ | .chunkSaveDelta => True
  | _ => False

theorem filePath_chunkAppend {o : IoOutcome} {c : Chunk} {data : Bytes} {r : ℤ × Chunk}
    (hrun : Writer.chunkAppend o c data = some r) : r.2.filePath = c.filePath := by
  cases Writer.appendStep_of_chunkAppend hrun <;> rfl

theorem filePath_chunkSaveDelta (o : IoOutcome) (file : Option Bytes) (c : Chunk) :
    (Writer.chunkSaveDelta o file c).2.1.filePath = c.filePath := by
  rw [Writer.chunkSaveDelta]
  dsimp only
  split_ifs <;> rfl

theorem elsewhere_of_perform {c : BrokerCall} (h : c.Publishes) (hs : s.ChunkAt path)
    {r : brokerCalls.Answer c} (hcall : perform c s = some (r, s')) : s.Elsewhere path s' := by
  cases c with
  | malloc | hasChunk =>
    obtain ⟨-, rfl⟩ := Prod.mk.inj (Option.some.inj hcall)
    exact ⟨hs, fun _ _ => rfl⟩
  | chunkAppend data =>
    cases hchunk : s.chunk with
    | none =>
      rw [perform, hchunk] at hcall
      obtain ⟨-, rfl⟩ := Prod.mk.inj (Option.some.inj hcall)
      exact ⟨hs, fun _ _ => rfl⟩
    | some c =>
      rw [perform, hchunk, Option.map_eq_some_iff] at hcall
      obtain ⟨rc, happend, heq⟩ := hcall
      obtain ⟨-, rfl⟩ := Prod.mk.inj heq
      refine ⟨fun c' hc' => ?_, fun _ _ => rfl⟩
      rw [← Option.some.inj hc', filePath_chunkAppend happend, hs c hchunk]
  | chunkSaveDelta =>
    cases hchunk : s.chunk with
    | none =>
      rw [perform, hchunk] at hcall
      obtain ⟨-, rfl⟩ := Prod.mk.inj (Option.some.inj hcall)
      exact ⟨hs, fun _ _ => rfl⟩
    | some c =>
      rw [perform, hchunk] at hcall
      obtain ⟨-, rfl⟩ := Prod.mk.inj (Option.some.inj hcall)
      refine ⟨fun c' hc' => ?_, fun p hp => ?_⟩
      · rw [← Option.some.inj hc', filePath_chunkSaveDelta, hs c hchunk]
      · rw [← hs c hchunk] at hp
        exact FileSystem.read_write_of_ne _ hp _
  | _ => exact h.elim

/-- A program of such calls changes no other file. -/
theorem elsewhere_of_within {α : Type} {p : Broker α}
    (hp : p.Within BrokerCall.Publishes fun _ => True) (hs : s.ChunkAt path) {a : α}
    (hrun : p.exec s = some (a, s')) : s.Elsewhere path s' := by
  refine hp.invariant (J := s.Elsewhere path) (fun c r t t' hc hcall ht => ?_) hrun
    ⟨hs, fun _ _ => rfl⟩
  have hnext := elsewhere_of_perform hc ht.chunk hcall
  exact ⟨hnext.chunk, fun p h => (hnext.others p h).trans (ht.others p h)⟩

theorem publishes_batchLoop (items : List (Option Bytes)) :
    (publishBatchLoop items).Within BrokerCall.Publishes fun _ => True := by
  induction items with
  | nil => exact ⟨trivial, fun _ => .ite (fun _ => trivial) fun _ => trivial⟩
  | cons item items ih =>
    cases item with
    | none => trivial
    | some d =>
      refine .ite (fun _ => trivial) fun _ => ?_
      refine Within.bind (Q := fun _ => True) ?_ fun _ _ => .ite (fun _ => trivial) fun _ => ih
      refine ⟨trivial, fun _ => .ite (fun _ => trivial) fun _ => ?_⟩
      exact ⟨trivial, fun _ => .ite (fun _ => trivial) fun _ => trivial⟩

/-- Publishing on a topic changes no other file than that of the topic. -/
theorem exec_publish_elsewhere {p : PublishCall} {r : ℤ} (hs : s.ChunkAt path)
    (hrun : p.run.exec s = some (r, s')) : s.Elsewhere path s' := by
  rcases p.exec_run_cases hrun with ⟨-, -, faults, rfl⟩ | ⟨item, items, faults, -, -, -, hloop, -⟩
  · exact ⟨hs, fun _ _ => rfl⟩
  · have helse : (s.withFaults faults).Elsewhere path s' :=
      elsewhere_of_within (publishes_batchLoop (item :: items)) hs hloop
    exact ⟨helse.chunk, helse.others⟩

/-- Names that do not climb are kept apart by their parts, within the base directory, and what is
published under one of them changes no file of another. -/
theorem storedAt_isolated (h₁ : StoredAt topicName₁ basePath path₁)
    (h₂ : StoredAt topicName₂ basePath path₂) (hstay₁ : dotDot ∉ nameParts topicName₁)
    (hstay₂ : dotDot ∉ nameParts topicName₂) :
    Inside basePath path₁ ∧ Inside basePath path₂ ∧
      (resolve path₁ = resolve path₂ ↔ nameParts topicName₁ = nameParts topicName₂) ∧
      (topicName₁ ≠ topicName₂ → 47 ∉ topicName₁ → 47 ∉ topicName₂ →
        resolve path₁ ≠ resolve path₂) ∧
      ∀ (p : PublishCall) (s : Machine) (r : ℤ) (s' : Machine), s.ChunkAt path₁ →
        p.run.exec s = some (r, s') → nameParts topicName₁ ≠ nameParts topicName₂ →
          s'.fs.read path₂ = s.fs.read path₂ := by
  obtain ⟨rfl, hbase⟩ := h₁.path_eq
  obtain ⟨rfl, -⟩ := h₂.path_eq
  have hiff : resolve (topicPath topicName₁ basePath) = resolve (topicPath topicName₂ basePath) ↔
      nameParts topicName₁ = nameParts topicName₂ := by
    rw [resolve_topicPath hbase hstay₁, resolve_topicPath hbase hstay₂, Path.mk.injEq,
      and_iff_right rfl, List.append_cancel_left_eq]
  refine ⟨?_, ?_, hiff, ?_, ?_⟩
  · rw [Inside, resolve_topicPath hbase hstay₁]
    exact ⟨rfl, _, nameParts_ne_nil topicName₁, hstay₁, rfl⟩
  · rw [Inside, resolve_topicPath hbase hstay₂]
    exact ⟨rfl, _, nameParts_ne_nil topicName₂, hstay₂, rfl⟩
  · intro hne hslash₁ hslash₂ hsame
    rw [hiff, nameParts_of_not_mem hslash₁, nameParts_of_not_mem hslash₂] at hsame
    exact hne (List.append_cancel_right (List.cons.inj hsame).1)
  · intro p s r s' hs hrun hne
    exact (exec_publish_elsewhere hs hrun).others _ fun hsame => hne (hiff.mp hsame.symm)

/-- A topic below `b` in an empty file system. -/
theorem storedAt_b {path : Bytes} {topic : Topic}
    (hrun : ((createTopic topicName (ascii "b")).exec emptyMachine).bind
      (fun r => r.2.chunk.map fun c => (r.1, c.filePath)) = some (some topic, path)) :
    StoredAt topicName (ascii "b") path := by
  obtain ⟨⟨r, s'⟩, hcreate, hmap⟩ := Option.bind_eq_some_iff.mp hrun
  obtain ⟨c, hc, heq⟩ := Option.map_eq_some_iff.mp hmap
  obtain ⟨rfl, rfl⟩ := Prod.mk.inj heq
  exact .created hcreate hc

theorem storedAt_isolated_sample :
    Inside (ascii "b") (ascii "b/a.topic") ∧ Inside (ascii "b") (ascii "b/./c.topic") ∧
      (resolve (ascii "b/a.topic") = resolve (ascii "b/./c.topic") ↔
        nameParts (ascii "a") = nameParts (ascii "./c")) ∧
      (ascii "a" ≠ ascii "./c" → 47 ∉ ascii "a" → 47 ∉ ascii "./c" →
        resolve (ascii "b/a.topic") ≠ resolve (ascii "b/./c.topic")) ∧
      ∀ (p : PublishCall) (s : Machine) (r : ℤ) (s' : Machine), s.ChunkAt (ascii "b/a.topic") →
        p.run.exec s = some (r, s') → nameParts (ascii "a") ≠ nameParts (ascii "./c") →
          s'.fs.read (ascii "b/./c.topic") = s.fs.read (ascii "b/./c.topic") :=
  storedAt_isolated (storedAt_b rfl) (storedAt_b rfl) (by decide) (by decide)

/-- Two names share a file, and one leads out of the base directory. -/
theorem not_namesIsolated : ¬ NamesIsolated ∧
    ∃ path, StoredAt (ascii "../a") (ascii "b") path ∧ ¬ Inside (ascii "b") path := by
  constructor
  · intro hisolated
    have hplain : StoredAt (ascii "a") (ascii "b") (ascii "b/a.topic") := storedAt_b rfl
    have hdotted : StoredAt (ascii "./a") (ascii "b") (ascii "b/./a.topic") := storedAt_b rfl
    exact (hisolated _ _ _ _ _ hplain hdotted (by decide)).1 (by decide)
  · refine ⟨ascii "b/../a.topic", storedAt_b rfl, ?_⟩
    rintro ⟨-, rest, hne, -, hparts⟩
    have hlen := congrArg List.length hparts
    have hone : (resolve (ascii "b/../a.topic")).parts.length = 1 := by decide
    have hbase : (resolve (ascii "b")).parts.length = 1 := by decide
    rw [List.length_append, hone, hbase] at hlen
    exact hne (List.length_eq_zero_iff.mp (by omega))

end SuparnaD

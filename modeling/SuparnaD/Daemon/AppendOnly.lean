import SuparnaD.Daemon.Steps
import SuparnaD.Foundation.FrameParsing

/-!
# Files only grow

No call of either server removes a file or changes bytes that a file holds, whatever storage, the
allocator, the HTTP library and the clients do. A packet that is in a topic file stays there, at its
offset, as long as the program runs.

## Main definitions

* `FileSystem.Grows` : files and directories are added, and files grow at their ends.

## Main results

* `FileSystem.storageRelation_grows` : every call keeps it.
* `Daemon.packet_stays`.
-/

namespace SuparnaD

open Broker

namespace FileSystem

/-- Files and directories are only added, and files grow at their ends. -/
structure Grows (fs fs' : FileSystem) : Prop where
  files : ∀ p content, fs.files p = some content → ∃ more, fs'.files p = some (content ++ more)
  dirs : ∀ p, fs.dirs p = true → fs'.dirs p = true

theorem Grows.refl (fs : FileSystem) : fs.Grows fs :=
  ⟨fun _ content h => ⟨[], by rw [h, List.append_nil]⟩, fun _ => id⟩

theorem Grows.trans {fs fs' fs'' : FileSystem} (h : fs.Grows fs') (h' : fs'.Grows fs'') :
    fs.Grows fs'' := by
  refine ⟨fun p content hfile => ?_, fun p hp => h'.dirs p (h.dirs p hp)⟩
  obtain ⟨more, hmore⟩ := h.files p content hfile
  obtain ⟨more', hmore'⟩ := h'.files p _ hmore
  exact ⟨more ++ more', by rw [hmore', List.append_assoc]⟩

/-- A file is written back with more bytes at its end. -/
theorem grows_write {fs : FileSystem} {path : Bytes} {content' : Option Bytes}
    (h : ∀ content, fs.read path = some content → ∃ more, content' = some (content ++ more)) :
    fs.Grows (fs.write path content') := by
  refine ⟨fun p content hfile => ?_, fun _ => id⟩
  by_cases hp : p = resolve path
  · subst hp
    obtain ⟨more, rfl⟩ := h content hfile
    exact ⟨more, Function.update_self ..⟩
  · exact ⟨[], (Function.update_of_ne hp ..).trans (by rw [hfile, List.append_nil])⟩

theorem grows_mkdir (fs : FileSystem) (path : Bytes) : fs.Grows (fs.mkdir path).2 := by
  refine ⟨fun p content hfile => ⟨[], by rw [files_mkdir, hfile, List.append_nil]⟩, fun p hp => ?_⟩
  simp only [mkdir]
  split_ifs
  · exact hp
  · exact hp
  · by_cases hself : p = resolve path
    · subst hself
      exact Function.update_self ..
    · exact (Function.update_of_ne hself ..).trans hp
  · exact hp

end FileSystem

/-- A save adds bytes at the end of the file. -/
theorem Writer.chunkSaveDelta_grows (o : IoOutcome) (file : Option Bytes) (c : Chunk)
    {content : Bytes} (h : file = some content) :
    ∃ more, (Writer.chunkSaveDelta o file c).2.2 = some (content ++ more) := by
  subst h
  have hsame : ∃ more, some content = some (content ++ more) :=
    ⟨[], by rw [List.append_nil]⟩
  rw [Writer.chunkSaveDelta]
  dsimp only
  split_ifs
  · exact hsame
  · exact ⟨_, rfl⟩
  · exact ⟨_, rfl⟩
  · exact hsame

/-- Every call of the broker lets files only grow. -/
theorem FileSystem.storageRelation_grows : StorageRelation fun x y => x.1.Grows y.1 where
  refl x := Grows.refl x.1
  trans _ _ _ := Grows.trans
  perform {c s s' r} hcall := by
    cases c with
    | chunkSaveDelta =>
      cases hs : s.chunk with
      | none =>
        rw [SuparnaD.perform, hs] at hcall
        obtain ⟨-, rfl⟩ := Prod.mk.inj (Option.some.inj hcall)
        exact .refl _
      | some c =>
        rw [SuparnaD.perform, hs] at hcall
        obtain ⟨-, rfl⟩ := Prod.mk.inj (Option.some.inj hcall)
        exact grows_write fun content hfile => Writer.chunkSaveDelta_grows _ _ _ hfile
    | mkdir path =>
      rw [SuparnaD.perform] at hcall
      split_ifs at hcall <;> obtain ⟨-, rfl⟩ := Prod.mk.inj (Option.some.inj hcall)
      · exact grows_mkdir _ _
      · exact .refl _
    | chunkAppend data =>
      cases hs : s.chunk with
      | none =>
        rw [SuparnaD.perform, hs] at hcall
        obtain ⟨-, rfl⟩ := Prod.mk.inj (Option.some.inj hcall)
        exact .refl _
      | some c =>
        rw [SuparnaD.perform, hs] at hcall
        obtain ⟨r', -, heq⟩ := Option.map_eq_some_iff.mp hcall
        obtain ⟨-, rfl⟩ := Prod.mk.inj heq
        exact .refl _
    | chunkInit path | chunkFree =>
      obtain ⟨-, rfl⟩ := Prod.mk.inj (Option.some.inj hcall)
      exact .refl _
    | _ =>
      show s.fs.Grows s'.fs
      rw [Machine.perform_reads_fs hcall trivial]
      exact .refl _

namespace Daemon

/-- A packet that is in a topic file stays there, at its offset. -/
theorem packet_stays {d : Daemon} {path content : Bytes} (hfile : d.fs.read path = some content)
    (ops : List DaemonOp) : ∃ content', (runEnd Daemon.step d ops).fs.read path = some content' ∧
      content <+: content' ∧ ∀ off p, topicFormat.parseAt content off = some p →
        topicFormat.parseAt content' off = some p := by
  obtain ⟨more, hmore⟩ :=
    (FileSystem.storageRelation_grows.run d ops).files (resolve path) content hfile
  have hprefix : content <+: content ++ more := List.prefix_append _ _
  exact ⟨_, hmore, hprefix, fun off p hp => FrameFormat.parseAt_of_isPrefix hp hprefix⟩

/-- A session selects a topic with one event and consumes it, and a request publishes another. The
request brings its body in the first call, which libmicrohttpd never does. -/
def sampleTurns : List DaemonOp :=
  [.socket (.command 0 (ascii "SET_TOPIC t")), .socket (.command 0 (ascii "SET_GROUP g")),
    .http 0 urlPublish methodPost sampleBody, .http 0 urlPublish methodPost [],
    .socket (.command 0 (ascii "CONSUME"))]

/-- The program before these turns. -/
def sampleTopic : Daemon :=
  .onFiles (.ofFile (ascii "./topics/t.topic") (topicFormat.stream [ascii "a"]))

theorem packet_stays_sample : ∃ content',
    (runEnd Daemon.step sampleTopic sampleTurns).fs.read (ascii "./topics/t.topic") =
        some content' ∧
      topicFormat.stream [ascii "a"] <+: content' ∧
        ∀ off p, topicFormat.parseAt (topicFormat.stream [ascii "a"]) off = some p →
          topicFormat.parseAt content' off = some p :=
  packet_stays (d := sampleTopic) (FileSystem.read_ofFile _ _) sampleTurns

end Daemon

end SuparnaD

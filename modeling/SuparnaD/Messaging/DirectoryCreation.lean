import SuparnaD.Messaging.TopicCreation
import SuparnaD.System.Paths

/-!
# Directories on the way to a topic

`ensure_directory_exists` cuts the path at each separator and makes what is missing of the part
before it. When it comes to a directory, everything above is there already. A separator at the very
start cuts off the empty path, which can neither be found nor made.

## Main definitions

* `FileSystem.HasAll` : a directory is there with everything above it.
* `FileSystem.Grown` : directories have been added and nothing else has changed.
* `FileSystem.Free` : no file is in the way.
* `DirectoryEnsured`.

## Main results

* `exec_ensureDirectory`, `exec_ensurePrefixes` : one directory, and the loop.
* `directoryEnsured_iff`.
-/

namespace SuparnaD

open Broker

namespace FileSystem

/-- There is a directory at the path, and at every path above it. -/
def HasAll (fs : FileSystem) (p : Path) : Prop :=
  ∀ k, fs.isDir ⟨p.absolute, p.parts.take k⟩ = true

/-- The directories are still there, and the files are the same. -/
structure Grown (fs fs' : FileSystem) : Prop where
  files : fs'.files = fs.files
  dirs : ∀ p, fs.isDir p = true → fs'.isDir p = true

/-- There is no file at the path, nor at what stands before one of its slashes. -/
def Free (fs : FileSystem) (path : Bytes) : Prop :=
  ∀ u, (u = path ∨ ∃ v, path = u ++ 47 :: v) → fs.read u = none

/-- What stands before each slash of the path is there. -/
def HasAbove (fs : FileSystem) (path : Bytes) : Prop :=
  ∀ u v, path = u ++ 47 :: v → fs.HasAll (resolve u)

variable {fs fs' fs'' : FileSystem} {p : Path} {path before : Bytes} {b : UInt8}

theorem Grown.refl (fs : FileSystem) : fs.Grown fs := ⟨rfl, fun _ h => h⟩

theorem Grown.trans (h : fs.Grown fs') (h' : fs'.Grown fs'') : fs.Grown fs'' :=
  ⟨h'.files.trans h.files, fun p hp => h'.dirs p (h.dirs p hp)⟩

theorem HasAll.grown (h : fs.HasAll p) (hgrown : fs.Grown fs') : fs'.HasAll p :=
  fun k => hgrown.dirs _ (h k)

theorem HasAbove.grown (h : fs.HasAbove path) (hgrown : fs.Grown fs') : fs'.HasAbove path :=
  fun u v huv => (h u v huv).grown hgrown

theorem Free.grown (h : fs.Free path) (hgrown : fs.Grown fs') : fs'.Free path := by
  intro u hu
  rw [read, hgrown.files]
  exact h u hu

theorem hasAll_nil (fs : FileSystem) (absolute : Bool) : fs.HasAll ⟨absolute, []⟩ := by
  intro k
  rw [List.take_nil]
  rfl

theorem HasAll.of_isPrefix (h : fs.HasAll p) {parts : List Bytes} (hparts : parts <+: p.parts) :
    fs.HasAll ⟨p.absolute, parts⟩ := by
  intro k
  rw [List.prefix_iff_eq_take.mp hparts, List.take_take]
  exact h _

/-- A directory completes what is above it. -/
theorem HasAll.of_dropLast {absolute : Bool} {parts : List Bytes}
    (habove : fs.HasAll ⟨absolute, parts.dropLast⟩) (hdir : fs.isDir ⟨absolute, parts⟩ = true) :
    fs.HasAll ⟨absolute, parts⟩ := by
  intro k
  rcases Nat.lt_or_ge k parts.length with hlt | hge
  · have h := habove k
    rw [List.dropLast_eq_take, List.take_take, Nat.min_eq_left (by omega)] at h
    exact h
  · rw [List.take_of_length_le hge]
    exact hdir

/-- What is above a relative path is there when what stands before its slashes is. -/
theorem HasAbove.hasAll_dropLast (h : fs.HasAbove path) (hrelative : path.head? ≠ some 47) :
    fs.HasAll ⟨(resolve path).absolute, (resolve path).parts.dropLast⟩ := by
  rw [resolve_eq]
  dsimp only
  rw [List.dropLast_reverse]
  by_cases hslash : 47 ∈ path
  · obtain ⟨u, v, rfl, hv⟩ := exists_last_slash hslash
    have hu : u ≠ [] := by
      rintro rfl
      exact hrelative rfl
    rw [startsWith_slash_append hu, walk_append_slash, walk_of_not_mem hv]
    exact (h u v rfl).of_isPrefix (List.reverse_prefix.mpr (tail_pushPart_suffix _ _ _))
  · rw [walk_of_not_mem hslash]
    have hsuffix := tail_pushPart_suffix (startsWith (ascii "/") path) [] path
    rw [List.suffix_nil.mp hsuffix]
    exact hasAll_nil fs _

/-- One more byte, which may be a slash. -/
theorem HasAbove.snoc (h : fs.HasAbove before) (hb : b = 47 → fs.HasAll (resolve before)) :
    fs.HasAbove (before ++ [b]) := by
  intro u v huv
  rcases List.eq_nil_or_concat v with rfl | ⟨v, c, rfl⟩
  · obtain ⟨rfl, heq⟩ := List.append_inj' huv rfl
    exact hb (List.cons.inj heq).1
  · rw [List.concat_eq_append, ← List.cons_append, ← List.append_assoc] at huv
    exact h u v (List.append_inj' huv rfl).1

end FileSystem

/-- `ensure_directory_exists` returns `0`, and the path is there with everything above it. -/
def DirectoryEnsured (s : Machine) (path : Bytes) : Prop :=
  ∃ s', (ensureDirectoryExists path).exec s = some (0, s') ∧ s'.fs.HasAll (resolve path) ∧
    s.fs.Grown s'.fs

variable {s : Machine} {path : Bytes}

theorem exec_stat (hfaults : s.faults = []) (path : Bytes) :
    (stat path).exec s = some (s.fs.stat path, s.next) := by
  have hrun : (stat path).exec s = some (s.outcome.opens && s.fs.stat path, s.next) := rfl
  rw [hrun, Machine.outcome_of_faults hfaults, IoOutcome.ok_opens, Bool.true_and]

theorem exec_mkdir (hfaults : s.faults = []) (path : Bytes) :
    (mkdir path).exec s =
      some ((s.fs.mkdir path).1, { s.next with fs := (s.fs.mkdir path).2 }) := by
  refine (CallProgram.run_issue perform (BrokerCall.mkdir path) s).trans ?_
  rw [perform, Machine.outcome_of_faults hfaults]
  rfl

namespace FileSystem

variable {fs : FileSystem}

/-- What is found at a path without a file is a directory. -/
theorem isDir_of_stat (hstat : fs.stat path = true) (hfree : fs.read path = none) :
    fs.isDir (resolve path) = true := by
  rw [stat, hfree, Option.isSome_none, Bool.or_false, Bool.and_eq_true] at hstat
  exact hstat.2

/-- A missing directory is made below one that is there. -/
theorem mkdir_of_not_stat (hne : path ≠ []) (hstat : fs.stat path = false)
    (habove : fs.isDir ⟨(resolve path).absolute, (resolve path).parts.dropLast⟩ = true) :
    (fs.mkdir path).1 = .created ∧ fs.Grown (fs.mkdir path).2 ∧
      (fs.mkdir path).2.isDir (resolve path) = true := by
  have hmade : fs.mkdir path =
      (.created, { fs with dirs := Function.update fs.dirs (resolve path) true }) := by
    rw [mkdir, if_neg hne, if_neg (by rw [hstat]; decide), if_pos habove]
  rw [hmade]
  refine ⟨rfl, ⟨rfl, fun p hp => ?_⟩, ?_⟩
  · rw [isDir, Bool.or_eq_true] at hp ⊢
    refine hp.imp_right fun hdir => ?_
    dsimp only
    rw [Function.update_apply]
    split_ifs
    · rfl
    · exact hdir
  · rw [isDir, Bool.or_eq_true]
    exact .inr (Function.update_self ..)

end FileSystem

/-- With everything above it, a directory is found or made, unless there is a file. -/
theorem exec_ensureDirectory (hfaults : s.faults = []) (hne : path ≠ [])
    (habove : s.fs.HasAll ⟨(resolve path).absolute, (resolve path).parts.dropLast⟩) :
    ∃ s', (ensureDirectory path).exec s = some (0, s') ∧ s'.faults = [] ∧ s.fs.Grown s'.fs ∧
      (s.fs.read path = none → s'.fs.HasAll (resolve path)) := by
  have hfaults' := (Machine.kept_next s).faults hfaults
  cases hstat : s.fs.stat path with
  | true =>
    have hfound := exec_stat hfaults path
    rw [hstat] at hfound
    refine ⟨s.next, CallProgram.run_bind_eq_some_iff.mpr ⟨true, s.next, hfound, rfl⟩, hfaults',
      .refl _, fun hfree => ?_⟩
    exact habove.of_dropLast (FileSystem.isDir_of_stat hstat hfree)
  | false =>
    have hmissing := exec_stat hfaults path
    rw [hstat] at hmissing
    have hparent := habove (resolve path).parts.dropLast.length
    rw [List.take_length] at hparent
    obtain ⟨hcreated, hgrown, hdir⟩ := FileSystem.mkdir_of_not_stat hne hstat hparent
    have hmake := exec_mkdir hfaults' path
    have hfs : s.next.fs = s.fs := rfl
    rw [hfs, hcreated] at hmake
    refine ⟨{ s.next.next with fs := (s.fs.mkdir path).2 },
      CallProgram.run_bind_eq_some_iff.mpr ⟨false, s.next, hmissing, ?_⟩,
      (Machine.kept_next s.next).faults hfaults', hgrown,
      fun _ => (habove.grown hgrown).of_dropLast hdir⟩
    exact CallProgram.run_bind_eq_some_iff.mpr ⟨_, _, hmake, rfl⟩

/-- The empty path is neither found nor made. -/
theorem exec_ensureDirectory_nil (hfaults : s.faults = []) :
    ∃ s', (ensureDirectory []).exec s = some (-1, s') := by
  have hfaults' := (Machine.kept_next s).faults hfaults
  exact ⟨_, CallProgram.run_bind_eq_some_iff.mpr ⟨false, s.next, exec_stat hfaults [],
    CallProgram.run_bind_eq_some_iff.mpr ⟨.failed, _, exec_mkdir hfaults' [], rfl⟩⟩⟩

/-- The loop, once what has been scanned starts with some byte that is no separator. -/
theorem exec_ensurePrefixes (before rest : Bytes) (hfaults : s.faults = []) (hbefore : before ≠ [])
    (hrelative : before.head? ≠ some 47) (hfree : s.fs.Free (before ++ rest))
    (habove : s.fs.HasAbove before) :
    ∃ s', (ensurePrefixes before rest).exec s = some (0, s') ∧
      s'.fs.HasAll (resolve (before ++ rest)) ∧ s.fs.Grown s'.fs := by
  induction rest generalizing before s with
  | nil =>
    obtain ⟨s', hrun, -, hgrown, hall⟩ :=
      exec_ensureDirectory hfaults hbefore (habove.hasAll_dropLast hrelative)
    rw [List.append_nil] at hfree ⊢
    exact ⟨s', hrun, hall (hfree before (.inl rfl)), hgrown⟩
  | cons b rest ih =>
    have hsnoc : before ++ b :: rest = (before ++ [b]) ++ rest := by
      rw [List.append_assoc, List.singleton_append]
    have hbefore' : before ++ [b] ≠ [] := List.append_ne_nil_of_left_ne_nil hbefore _
    have hrelative' : (before ++ [b]).head? ≠ some 47 := by
      rw [List.head?_append_of_ne_nil before hbefore]
      exact hrelative
    rw [ensurePrefixes]
    split_ifs with hsep
    · obtain ⟨s₁, hrun₁, hfaults₁, hgrown₁, hall₁⟩ :=
        exec_ensureDirectory hfaults hbefore (habove.hasAll_dropLast hrelative)
      have habove₁ : s₁.fs.HasAbove (before ++ [b]) := by
        refine (habove.grown hgrown₁).snoc fun hb => hall₁ ?_
        subst hb
        exact hfree before (.inr ⟨rest, rfl⟩)
      obtain ⟨s', hrun', hall', hgrown'⟩ :=
        ih _ hfaults₁ hbefore' hrelative' (hsnoc ▸ hfree.grown hgrown₁) habove₁
      refine ⟨s', CallProgram.run_bind_eq_some_iff.mpr ⟨0, s₁, hrun₁, hrun'⟩, ?_,
        hgrown₁.trans hgrown'⟩
      rw [hsnoc]
      exact hall'
    · obtain ⟨s', hrun', hall', hgrown'⟩ := ih _ hfaults hbefore' hrelative' (hsnoc ▸ hfree)
        (habove.snoc fun hb => absurd (.inl hb) hsep)
      refine ⟨s', hrun', ?_, hgrown'⟩
      rw [hsnoc]
      exact hall'

theorem exec_ensureDirectoryExists (hfaults : s.faults = []) (path : Bytes) :
    (ensureDirectoryExists path).exec s = (ensurePrefixes [] path).exec s.next := by
  rw [ensureDirectoryExists]
  simp only [CallProgram.run_bind, Machine.exec_malloc_ok hfaults, Option.bind_some, Bool.not_true,
    Bool.false_eq_true, ↓reduceIte]

/-- A path that begins with a separator is given up at once. -/
theorem exec_ensureDirectoryExists_of_sep (hfaults : s.faults = []) (rest : Bytes) {b : UInt8}
    (hsep : b = 47 ∨ b = 92) :
    ∃ s', (ensureDirectoryExists (b :: rest)).exec s = some (-1, s') := by
  obtain ⟨s', hrun⟩ := exec_ensureDirectory_nil ((Machine.kept_next s).faults hfaults)
  refine ⟨s', ?_⟩
  rw [exec_ensureDirectoryExists hfaults, ensurePrefixes, if_pos hsep]
  exact CallProgram.run_bind_eq_some_iff.mpr ⟨-1, s', hrun, rfl⟩

/-- The directories of a path are made unless the path begins with a separator. -/
theorem directoryEnsured_iff (hne : path ≠ []) (hfaults : s.faults = [])
    (hfree : s.fs.Free path) :
    DirectoryEnsured s path ↔ path.head? ≠ some 47 ∧ path.head? ≠ some 92 := by
  cases path with
  | nil => exact absurd rfl hne
  | cons b rest =>
    simp only [List.head?_cons, ne_eq, Option.some.injEq]
    by_cases hsep : b = 47 ∨ b = 92
    · refine iff_of_false ?_ fun h => hsep.elim h.1 h.2
      rintro ⟨s', hrun, -⟩
      obtain ⟨s'', hrun'⟩ := exec_ensureDirectoryExists_of_sep hfaults rest hsep
      cases hrun.symm.trans hrun'
    · refine iff_of_true ?_ (not_or.mp hsep)
      have habove : s.next.fs.HasAbove [b] := by
        intro u v huv
        obtain ⟨rfl, hb⟩ : u = [] ∧ b = 47 := by
          cases u with
          | nil => exact ⟨rfl, (List.cons.inj huv).1⟩
          | cons c u =>
            have hlen := congrArg List.length huv
            simp only [List.length_cons, List.length_append, List.length_nil] at hlen
            omega
        exact absurd (.inl hb) hsep
      obtain ⟨s', hrun, hall, hgrown⟩ := exec_ensurePrefixes [b] rest
        ((Machine.kept_next s).faults hfaults) (List.cons_ne_nil _ _)
        (fun h => hsep (.inl (Option.some.inj h))) hfree habove
      refine ⟨s', ?_, hall, hgrown⟩
      rw [exec_ensureDirectoryExists hfaults, ensurePrefixes, if_neg hsep]
      exact hrun

theorem directoryEnsured_iff_sample :
    DirectoryEnsured emptyMachine (ascii "a//b/") ↔
      (ascii "a//b/").head? ≠ some 47 ∧ (ascii "a//b/").head? ≠ some 92 :=
  directoryEnsured_iff (List.cons_ne_nil _ _) rfl fun _ _ => rfl

/-- An absolute path is not made. -/
theorem not_directoryEnsured_absolute : ¬ DirectoryEnsured emptyMachine (ascii "/a") := by
  rintro ⟨s', hrun, -⟩
  obtain ⟨s'', hrun'⟩ : ∃ s'', (ensureDirectoryExists (ascii "/a")).exec emptyMachine =
    some (-1, s'') := ⟨_, rfl⟩
  cases hrun.symm.trans hrun'

end SuparnaD

import SuparnaD.Daemon.HostedSessions
import SuparnaD.Daemon.Safety

/-!
# Every client thread ends

The clients are taken to be such that every connection delivers finitely many pieces and is then
closed, and that every `send` returns. As long as memory suffices for the sessions, no thread of the
hosted program is stuck then: it can take its next step until it has ended, whatever the loop, the
other threads and the HTTP requests do in the meantime. And it has few steps to take: one for each
piece that is still to be read, and six at most besides.

A client that neither sends nor closes keeps its thread in `recv` for ever, for there is no timeout.

## Main definitions

* `Host.stepsLeft` : a bound on the steps of a thread.

## Main results

* `Host.Proceeds.stepsLeft_lt`, `Host.Proceeds.stepsLeft_eq` : what a step does to the bound.
* `Host.exists_step` : a thread that has not ended can take a step.
* `Host.threads_end`.
-/

namespace SuparnaD

/-- The steps of a thread with so many pieces to read. -/
def ThreadStage.stepsLeft (unread : ℕ) : ThreadStage → ℕ
  | .absent | .ended _ => 0
  | .returned _ _ => 1
  | .closing _ _ => 2
  | .leaving _ _ => 3
  | .serving _ _ => unread + 4
  | .entered _ _ => unread + 5
  | .created _ => unread + 6

theorem ThreadStage.stepsLeft_of_not_reads {stage : ThreadStage} (h : stage.reads = false)
    (m n : ℕ) : stage.stepsLeft m = stage.stepsLeft n := by
  cases stage <;> first | rfl | cases h

namespace Host

/-- The pieces that a thread has not read yet. -/
def unread (h : Host) (number : ℕ) : ℕ :=
  ((h.connectionOf (.thread number)).bind h.connections).elim 0 List.length

/-- A bound on the steps that a thread is still going to take. -/
def stepsLeft (h : Host) (number : ℕ) : ℕ := (h.threads number).stepsLeft (h.unread number)

variable {h h' : Host} {number : ℕ} {op : HostOp} {r : HostResult}

theorem unread_of_connection {fd : ℕ} {pieces : List Bytes}
    (hfd : h.connectionOf (.thread number) = some fd) (hpieces : h.connections fd = some pieces) :
    h.unread number = pieces.length := by
  rw [unread, hfd, Option.bind_some, hpieces, Option.elim_some]

theorem stepsLeft_of_connection {stage : ThreadStage} (hold : h.threads number = stage) {fd : ℕ}
    (hfd : stage.connection h.data = some fd) {pieces : List Bytes}
    (hpieces : h.connections fd = some pieces) :
    h.stepsLeft number = stage.stepsLeft pieces.length := by
  have hunread : h.unread number = pieces.length :=
    unread_of_connection (by rw [connectionOf, hold]; exact hfd) hpieces
  rw [stepsLeft, hold, hunread]

theorem stepsLeft_of_stage {stage : ThreadStage} (hold : h.threads number = stage) :
    h.stepsLeft number = stage.stepsLeft (h.unread number) := by
  rw [stepsLeft, hold]

theorem stepsLeft_lt_of_stage {stage : ThreadStage} (hold : h'.threads number = stage)
    (hstage : stage ≠ .absent) (hlt : ∀ n, stage.stepsLeft n < h.stepsLeft number) :
    h'.threads number ≠ .absent ∧ h'.stepsLeft number < h.stepsLeft number := by
  rw [stepsLeft_of_stage hold, hold]
  exact ⟨hstage, hlt _⟩

theorem stepsLeft_lt_of_connection {stage stage' : ThreadStage} {fd : ℕ}
    {pieces pieces' : List Bytes} (hold : h.threads number = stage)
    (hfd : stage.connection h.data = some fd) (hpieces : h.connections fd = some pieces)
    (hold' : h'.threads number = stage') (hfd' : stage'.connection h'.data = some fd)
    (hpieces' : h'.connections fd = some pieces') (hstage' : stage' ≠ .absent)
    (hlt : stage'.stepsLeft pieces'.length < stage.stepsLeft pieces.length) :
    h'.threads number ≠ .absent ∧ h'.stepsLeft number < h.stepsLeft number := by
  rw [stepsLeft_of_connection hold hfd hpieces, stepsLeft_of_connection hold' hfd' hpieces', hold']
  exact ⟨hstage', hlt⟩

/-- A thread that may still read has an open descriptor. -/
theorem Sound.exists_connection (hs : h.Sound) (hreads : (h.threads number).reads = true) :
    ∃ fd, h.connectionOf (.thread number) = some fd := by
  cases hstage : h.threads number with
  | created block =>
    have hblock : h.blockOf (.thread number) = some block := by rw [blockOf, hstage]; rfl
    obtain ⟨fd, hfd⟩ := hs.blocks.exists_eq hblock
    exact ⟨fd, by rw [connectionOf, hstage]; exact hfd⟩
  | entered block fd | serving block fd => exact ⟨fd, by rw [connectionOf, hstage]; rfl⟩
  | _ =>
    rw [hstage] at hreads
    cases hreads

namespace Proceeds

/-- A step of another party leaves the bound alone. -/
theorem stepsLeft_eq (hp : h.Proceeds op r h') (hs : h.Sound)
    (hne : op.actor ≠ some (.thread number)) (hold : h.threads number ≠ .absent) :
    h'.stepsLeft number = h.stepsLeft number := by
  have hthread := hp.threads_eq hs.toNumbered hne hold
  rw [stepsLeft, stepsLeft, hthread]
  cases hreads : (h.threads number).reads with
  | false => exact ThreadStage.stepsLeft_of_not_reads hreads _ _
  | true =>
    obtain ⟨fd, hfd⟩ := hs.exists_connection hreads
    obtain ⟨pieces, hpieces⟩ := hs.connections.exists_eq hfd
    obtain ⟨hfd', hconnection⟩ := hp.frame hs hne hfd
    rw [unread_of_connection hfd hpieces, unread_of_connection hfd' (hconnection.trans hpieces)]

/-- A step of the thread itself uses up a part of it. -/
theorem stepsLeft_lt (hp : h.Proceeds op r h') (hs : h.Sound)
    (hactor : op.actor = some (.thread number)) :
    h'.threads number ≠ .absent ∧ h'.stepsLeft number < h.stepsLeft number := by
  cases hp with
  | accept | acceptFails | fill | mallocFails | create | createFails | discard | refuse | http =>
    cases hactor
  | @enter k _ block fd hold hfd =>
    obtain rfl := Holder.thread.inj (Option.some.inj hactor)
    have hconnection : h.connectionOf (.thread k) = some fd := by rw [connectionOf, hold]; exact hfd
    obtain ⟨pieces, hpieces⟩ := hs.connections.exists_eq hconnection
    exact stepsLeft_lt_of_connection hold hfd hpieces (Function.update_self ..) rfl hpieces
      ThreadStage.noConfusion (Nat.lt_succ_self _)
  | @calloc k block fd hold =>
    obtain rfl := Holder.thread.inj (Option.some.inj hactor)
    have hconnection : h.connectionOf (.thread k) = some fd := by rw [connectionOf, hold]; rfl
    obtain ⟨pieces, hpieces⟩ := hs.connections.exists_eq hconnection
    exact stepsLeft_lt_of_connection hold rfl hpieces (Function.update_self ..) rfl hpieces
      ThreadStage.noConfusion (Nat.lt_succ_self _)
  | blank hold hrecv | command hold hrecv =>
    obtain rfl := Holder.thread.inj (Option.some.inj hactor)
    exact stepsLeft_lt_of_connection hold rfl hrecv hold rfl (Function.update_self ..)
      ThreadStage.noConfusion (Nat.lt_succ_self _)
  | callocFails hold | hangUp hold | quit hold | leave hold | close hold | free hold =>
    obtain rfl := (Holder.thread.inj (Option.some.inj hactor)).symm
    refine stepsLeft_lt_of_stage (Function.update_self ..) ThreadStage.noConfusion fun _ => ?_
    rw [stepsLeft_of_stage hold]
    simp only [ThreadStage.stepsLeft]
    omega

end Proceeds

/-! ### Runs -/

/-- A thread that has been created, among resources in order. -/
structure Threaded (h : Host) (number : ℕ) : Prop where
  sound : h.Sound
  created : h.threads number ≠ .absent

namespace Threaded

variable (ht : h.Threaded number) (hstep : h.step op = some (r, h'))

include ht hstep

theorem step : h'.Threaded number := by
  refine ⟨ht.sound.step hstep, ?_⟩
  by_cases hactor : op.actor = some (.thread number)
  · exact ((ht.sound.proceeds hstep).stepsLeft_lt ht.sound hactor).1
  · rw [(ht.sound.proceeds hstep).threads_eq ht.sound.toNumbered hactor ht.created]
    exact ht.created

theorem stepsLeft_lt (hactor : op.actor = some (.thread number)) :
    h'.stepsLeft number < h.stepsLeft number :=
  ((ht.sound.proceeds hstep).stepsLeft_lt ht.sound hactor).2

theorem stepsLeft_eq (hne : op.actor ≠ some (.thread number)) :
    h'.stepsLeft number = h.stepsLeft number :=
  (ht.sound.proceeds hstep).stepsLeft_eq ht.sound hne ht.created

omit hstep

theorem run (ops : List HostOp) : (runEnd Host.step h ops).Threaded number :=
  runEnd_rule (fun h : Host => h.Threaded number) (fun _ _ _ _ ht hstep => ht.step hstep) ht ops

/-- What a thread does in a run uses up the bound. -/
theorem stepsLeft_run (ops : List HostOp) : (runEnd Host.step h ops).stepsLeft number +
    (trace Host.step h ops).countP (fun x => x.op.actor = some (.thread number)) ≤
      h.stepsLeft number :=
  countP_trace_rule (fun h : Host => h.Threaded number) (fun h : Host => h.stepsLeft number)
    (fun op => op.actor = some (.thread number))
    (fun _ _ _ _ ht hstep hactor => ht.stepsLeft_lt hstep (of_decide_eq_true hactor))
    (fun _ _ _ _ ht hstep hother =>
      Nat.le_of_eq (ht.stepsLeft_eq hstep (of_decide_eq_false hother)))
    (fun _ _ _ _ ht hstep => ht.step hstep) ht ops

end Threaded

/-- A thread that has not ended can take a step. -/
theorem exists_step (hsessions : h.daemon.server.Steadfast) (hold : h.threads number ≠ .absent) :
    (∃ leftOpen, h.threads number = .ended leftOpen) ∨
      ∀ works, ∃ r h', h.step (.thread number works) = some (r, h') := by
  have hturn (h' : Host) (hdaemon : h'.daemon = h.daemon) (op : ServerOp) :
      ∃ r h'', h'.turn (.socket op) = some (r, h'') := by
    obtain ⟨r, d, hrun⟩ := Daemon.exists_turn hsessions op
    exact ⟨_, _, by rw [turn, hdaemon, hrun]; rfl⟩
  rw [or_iff_not_imp_left]
  intro hended works
  rw [step, handleClientThread]
  cases hstage : h.threads number with
  | absent => exact absurd hstage hold
  | ended leftOpen => exact absurd ⟨leftOpen, hstage⟩ hended
  | created block =>
    dsimp only
    split <;> exact ⟨_, _, rfl⟩
  | entered block fd =>
    dsimp only
    split <;> exact ⟨_, _, rfl⟩
  | serving block fd =>
    dsimp only
    rw [serve]
    split
    · exact ⟨_, _, rfl⟩
    · exact ⟨_, _, rfl⟩
    · dsimp only
      split_ifs
      · exact ⟨_, _, rfl⟩
      · exact ⟨_, _, rfl⟩
      · exact hturn (h.afterRecv fd _) rfl _
  | leaving block fd => exact hturn (h.withThread number (.closing block fd)) rfl _
  | closing block fd | returned block leftOpen => exact ⟨_, _, rfl⟩

/-- The sessions of the hosted program are those of a run of the daemon. -/
theorem steadfast_runEnd (hs : h.Sound) (hsessions : h.daemon.server.Steadfast)
    (ops : List HostOp) : (runEnd Host.step h ops).daemon.server.Steadfast := by
  rw [(daemon_run hs ops).1]
  exact Daemon.steadfast_run hsessions _

/-- With enough memory for the sessions every client thread ends, if each client closes its
connection after finitely many pieces and takes or refuses what is sent to it. However the run goes
on from a state that the program can reach, a thread that has been created there has ended, or it
can take its next step and has taken fewer than `stepsLeft` steps: one for each piece that it had
not read yet, and six besides at most. -/
theorem threads_end {fs : FileSystem} {faults : List IoOutcome} {clients : ℕ → Client}
    {mhd : List Bool} (halloc : ∀ o ∈ faults, o.alloc = true) {ops : List HostOp} {h : Host}
    (hreached : runEnd Host.step (start (.start fs faults clients mhd)) ops = h) {number : ℕ}
    (hcreated : h.threads number ≠ .absent) (more : List HostOp) :
    (∃ leftOpen, (runEnd Host.step h more).threads number = .ended leftOpen) ∨
      (trace Host.step h more).countP (fun x => x.op.actor = some (.thread number)) <
          h.stepsLeft number ∧
        ∀ works, ∃ r h', (runEnd Host.step h more).step (.thread number works) = some (r, h') := by
  have hsound := sound_start (.start fs faults clients mhd)
  have hs : h.Sound :=
    hreached ▸ runEnd_rule Sound (fun _ _ _ _ hs hstep => hs.step hstep) hsound ops
  have hsessions : h.daemon.server.Steadfast :=
    hreached ▸ steadfast_runEnd hsound (Server.steadfast_start fs halloc clients) ops
  have hthread : h.Threaded number := ⟨hs, hcreated⟩
  have hend := hthread.run more
  refine (exists_step (steadfast_runEnd hs hsessions more) hend.created).imp_right
    fun hnext => ⟨?_, hnext⟩
  -- The bound is not used up, for the next step still uses up a part of it.
  obtain ⟨r, h', hstep⟩ := hnext true
  have hless := hend.stepsLeft_lt hstep rfl
  have hcount := hthread.stepsLeft_run more
  omega

/-- A connection has got its thread. -/
def sampleServed : Host := runEnd Host.step (start Daemon.sampleRefused)
  [.accept 4 [ascii "CONSUME\n", ascii "QUIT\n"], .loop true, .loop true]

/-- The thread does all that it has to do. -/
def sampleSteps : List HostOp := List.replicate 7 (.thread 0 true)

theorem threads_end_sample : sampleServed.stepsLeft 0 = 8 ∧
    ((∃ leftOpen, (runEnd Host.step sampleServed sampleSteps).threads 0 = .ended leftOpen) ∨
      (trace Host.step sampleServed sampleSteps).countP
          (fun x => x.op.actor = some (.thread 0)) < sampleServed.stepsLeft 0 ∧
        ∀ works, ∃ r h',
          (runEnd Host.step sampleServed sampleSteps).step (.thread 0 works) = some (r, h')) := by
  have halloc : ∀ o ∈ [{ IoOutcome.ok with opens := false }], o.alloc = true := fun _ ho =>
    List.mem_singleton.mp ho ▸ rfl
  exact ⟨by decide +kernel, threads_end halloc rfl (by decide +kernel) sampleSteps⟩

end Host

end SuparnaD

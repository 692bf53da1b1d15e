import SuparnaD.Daemon.AppendOnly
import SuparnaD.Socket.SessionIsolation

/-!
# No session uses a freed object

As long as memory suffices, the selections of all sessions stay coherent in every run of the
program, whatever storage, the HTTP library and the clients do. So every command that a session can
be sent comes to an end, as long as each `send` returns: none uses a topic or a group that has been
freed, by this session or by another one.

## Main results

* `Daemon.steadfast_step` : a turn keeps the invariant of the sessions.
* `Daemon.sessions_safe`.
-/

namespace SuparnaD

/-- A change of the files does not touch the selections. -/
theorem Server.Steadfast.withStorage {s : Server} (h : s.Steadfast) (fs : FileSystem)
    {faults : List IoOutcome} (halloc : ∀ o ∈ faults, o.alloc = true) :
    ({ s with world := { s.world with fs := fs, faults := faults } } : Server).Steadfast :=
  ⟨h.owned.withStorage fs faults,
    fun i => ⟨(h.sessions i).sound, halloc, (h.sessions i).topic, (h.sessions i).groupId,
      (h.sessions i).coherent⟩, h.apart⟩

namespace Daemon

/-- A turn keeps the selections of all sessions coherent. -/
theorem steadfast_step {d d' : Daemon} {op : DaemonOp} {r : DaemonResult}
    (h : d.server.Steadfast) (hstep : d.step op = some (r, d')) : d'.server.Steadfast := by
  cases op with
  | socket op =>
    obtain ⟨⟨r', s'⟩, hrun, heq⟩ := Option.map_eq_some_iff.mp hstep
    obtain ⟨-, rfl⟩ := Prod.mk.inj heq
    obtain ⟨r'', s'', hrun', hs''⟩ := h.step op
    obtain ⟨-, rfl⟩ := Prod.mk.inj (Option.some.inj (hrun'.symm.trans hrun))
    exact hs''
  | goodbye i =>
    obtain ⟨-, rfl⟩ := Prod.mk.inj (Option.some.inj hstep)
    have hi := h.sessions i
    exact h.update ((SessionState.idle_replied _ _).keepsToOwn (h.owned.bounded i))
      (SessionState.sparesTopics_of_topics rfl rfl)
      ⟨hi.sound, hi.alloc, hi.topic, hi.groupId, hi.coherent⟩
  | http request url method uploadData =>
    have hspent := storageRelation_faults.step hstep
    obtain ⟨ret, st, hrun, -, rfl⟩ := step_http_eq_some_iff.mp hstep
    exact h.withStorage st.machine.fs fun o ho => (h.sessions 0).alloc o (hspent.mem ho)

theorem steadfast_run {d : Daemon} (h : d.server.Steadfast) (ops : List DaemonOp) :
    (runEnd Daemon.step d ops).server.Steadfast :=
  runEnd_rule (fun d => d.server.Steadfast) (fun _ _ _ _ h hstep => steadfast_step h hstep) h ops

theorem exists_turn {d : Daemon} (h : d.server.Steadfast) (op : ServerOp) :
    ∃ r d', d.step (.socket op) = some (r, d') := by
  obtain ⟨r', s', hrun, -⟩ := h.step op
  exact ⟨_, _, congrArg (Option.map _) hrun⟩

/-- In every state that the program can reach with enough memory, every turn of every session comes
to an end, as long as each `send` returns, and the sessions have coherent selections, no two of them
the same topic. -/
theorem sessions_safe {fs : FileSystem} {faults : List IoOutcome} {clients : ℕ → Client}
    {mhd : List Bool} (halloc : ∀ o ∈ faults, o.alloc = true) (ops : List DaemonOp) :
    ∀ x ∈ trace Daemon.step (start fs faults clients mhd) ops,
      (∀ op : ServerOp, ∃ r d', x.after.step (.socket op) = some (r, d')) ∧
        (∀ i, (x.after.server.view i).Coherent) ∧
          ∀ i j th, (x.after.server.sessions i).topic = some th →
            (x.after.server.sessions j).topic = some th → i = j := by
  refine trace_always (fun d => d.server.Steadfast) (fun d op r d' hd hstep => ?_)
    (Server.steadfast_start fs halloc clients) ops
  have hd' := steadfast_step hd hstep
  exact ⟨hd', exists_turn hd', fun i => (hd'.sessions i).coherent, hd'.apart⟩

/-- The program whose first call to the storage is refused. -/
def sampleRefused : Daemon :=
  start (.ofFile (ascii "./topics/t.topic") (topicFormat.stream []))
    [{ IoOutcome.ok with opens := false }] (fun _ => ⟨[], [], []⟩) []

theorem sessions_safe_sample : (trace Daemon.step sampleRefused sampleTurns).length = 5 ∧
    ∀ x ∈ trace Daemon.step sampleRefused sampleTurns,
      (∀ op : ServerOp, ∃ r d', x.after.step (.socket op) = some (r, d')) ∧
        (∀ i, (x.after.server.view i).Coherent) ∧
          ∀ i j th, (x.after.server.sessions i).topic = some th →
            (x.after.server.sessions j).topic = some th → i = j :=
  ⟨by decide +kernel, sessions_safe (fun _ ho => List.mem_singleton.mp ho ▸ rfl) sampleTurns⟩

end Daemon

end SuparnaD

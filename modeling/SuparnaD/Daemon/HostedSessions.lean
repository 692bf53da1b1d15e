import SuparnaD.Daemon.HostResources

/-!
# The sessions of the hosted connections

With a command or a call of the request handler as one step, the hosted program is a run of the
daemon: its sessions take their turns in the order in which the threads get to them, and a request
is a turn of its own. The session of a connection reads the pieces of that connection and nothing
else, in their order, and it is carried out once. It may be cut short only by the end of the run; a
connection without a thread or without memory has no turn at all.

## Main definitions

* `Host.turns`, `Host.sessionOps`, `Host.incoming` : what happens in a run.
* `Host.Awaits` : what the session of a connection is still going to do.

## Main results

* `Host.Awaits.step`, `Host.Awaits.run` : what the session does in a step and in a run.
* `Host.daemon_run` : the daemon goes through a run of its own.
* `Host.serves_connections`.
-/

namespace SuparnaD

/-- The turn that a step shows. -/
def HostResult.daemonTurn : HostResult → Option (DaemonOp × DaemonResult)
  | .turn op r => some (op, r)
  | _ => none

/-- The pieces of the connection that is accepted. -/
def HostOp.pieces : HostOp → Option (List Bytes)
  | .accept _ pieces => some pieces
  | _ => none

/-- The party that takes a step. -/
def HostOp.actor : HostOp → Option Holder
  | .accept _ _ | .acceptFails | .loop _ => some .loop
  | .thread number _ => some (.thread number)
  | .http _ _ _ _ => none

/-- The session that takes a turn. -/
def DaemonOp.session : DaemonOp → Option ℕ
  | .socket (.command i _) | .socket (.disconnect i) | .goodbye i => some i
  | .http _ _ _ _ => none

namespace ThreadStage

/-- The session of the thread has begun. -/
def begun : ThreadStage → Bool
  | .serving _ _ | .leaving _ _ | .closing _ _ => true
  | .returned _ leftOpen | .ended leftOpen => leftOpen.isNone
  | _ => false

/-- The session of the thread has ended. -/
def finished : ThreadStage → Bool
  | .closing _ _ => true
  | .returned _ leftOpen | .ended leftOpen => leftOpen.isNone
  | _ => false

/-- The session of the thread may still read from the connection. -/
def reads : ThreadStage → Bool
  | .created _ | .entered _ _ | .serving _ _ => true
  | _ => false

theorem reads_of_finished {stage : ThreadStage} (h : stage.finished = true) :
    stage.reads = false := by
  cases stage <;> first | rfl | cases h

theorem begun_of_finished {stage : ThreadStage} (h : stage.finished = true) :
    stage.begun = true := by
  cases stage <;> first | rfl | exact h

theorem begun_of_leavesOpen {stage : ThreadStage} (h : stage.leavesOpen = true) :
    stage.begun = false := by
  cases stage with
  | returned _ leftOpen | ended leftOpen => cases leftOpen <;> first | rfl | cases h
  | _ => cases h

end ThreadStage

namespace Host

/-- The turns of a run, with their results. -/
def turns (h : Host) (ops : List HostOp) : List (DaemonOp × DaemonResult) :=
  (trace Host.step h ops).filterMap fun x => x.result.daemonTurn

/-- The turns of one session in a step. -/
def opsOf (number : ℕ) (r : HostResult) : List DaemonOp :=
  (r.daemonTurn.map Prod.fst).toList.filter fun op => op.session = some number

/-- The turns of one session in a run. -/
def sessionOps (h : Host) (number : ℕ) (ops : List HostOp) : List DaemonOp :=
  ((h.turns ops).map Prod.fst).filter fun op => op.session = some number

/-- The connections that are accepted in a run. -/
def incoming (h : Host) (ops : List HostOp) : List (List Bytes) :=
  (trace Host.step h ops).filterMap fun x => x.op.pieces

/-- The party that holds the connection of a session as long as there is something to read. -/
def Reader (h : Host) (number : ℕ) : Holder → Prop
  | .loop => h.loop.number = some number
  | .thread k => k = number ∧ (h.threads number).reads

/-- What the session of a connection is still going to do. -/
inductive Awaits (h : Host) (number : ℕ) : List DaemonOp → Prop where
  | reading {x : Holder} {fd : ℕ} {pieces : List Bytes} (hx : h.Reader number x)
      (hfd : h.connectionOf x = some fd) (hpieces : h.connections fd = some pieces) :
      Awaits h number (sessionTurns number pieces)
  | leaving {block fd : ℕ} (hold : h.threads number = .leaving block fd) :
      Awaits h number [.socket (.disconnect number)]
  | finished (hold : (h.threads number).finished) : Awaits h number []

/-- The connection will have no session. -/
def Abandoned (h : Host) (number : ℕ) : Prop :=
  number < h.accepted ∧
    ((h.threads number).leavesOpen ∨ h.threads number = .absent ∧ h.loop.number ≠ some number)

variable {h h' : Host} {number : ℕ} {op : HostOp} {r : HostResult} {todo : List DaemonOp}

theorem opsOf_turn (number : ℕ) (turn : DaemonOp) (r : DaemonResult) :
    opsOf number (.turn turn r) = if turn.session = some number then [turn] else [] := by
  simp [opsOf, HostResult.daemonTurn, List.filter_cons]

theorem opsOf_turn_self {number : ℕ} {turn : DaemonOp} (h : turn.session = some number)
    (r : DaemonResult) : opsOf number (.turn turn r) = [turn] := by
  rw [opsOf_turn, if_pos h]

/-! ### What a step leaves alone -/

namespace Proceeds

variable (hp : h.Proceeds op r h')

include hp

theorem loop_eq (hne : op.actor ≠ some .loop) : h'.loop = h.loop := by
  cases hp <;> first | rfl | exact absurd rfl hne

theorem threads_eq (hs : h.Numbered) (hne : op.actor ≠ some (.thread number))
    (hold : h.threads number ≠ .absent) : h'.threads number = h.threads number := by
  have hother {k : ℕ} (hk : some (Holder.thread k) ≠ some (.thread number))
      (stage : ThreadStage) : Function.update h.threads k stage number = h.threads number :=
    Function.update_of_ne (fun heq : number = k => hk (by rw [heq])) ..
  cases hp with
  | accept | acceptFails | fill | mallocFails | createFails | discard | refuse | blank | command
  | http => rfl
  | @create k fd block hloop =>
    have hnext := hs.next k (by rw [hloop]; rfl)
    exact Function.update_of_ne (fun heq : number = k => hold (by rw [heq, hnext.2])) ..
  | enter | calloc | callocFails | hangUp | quit | leave | close | free => exact hother hne _

/-- A turn of a session is a step of its thread, and the session has begun. -/
theorem begun_of_turn (hturn : opsOf number r ≠ []) : op.actor = some (.thread number) ∧
    (h.threads number).begun = true ∧ (h'.threads number).begun = true := by
  have hsession {turn : DaemonOp} {r : DaemonResult} (hne : opsOf number (.turn turn r) ≠ []) :
      turn.session = some number := by
    by_contra hother
    exact hne (by rw [opsOf_turn, if_neg hother])
  cases hp with
  | quit hold =>
    obtain rfl := Option.some.inj (hsession hturn)
    refine ⟨rfl, by rw [hold]; rfl, ?_⟩
    exact congrArg ThreadStage.begun (threads_withThread_self _ _ _)
  | command hold =>
    obtain rfl := Option.some.inj (hsession hturn)
    exact ⟨rfl, by rw [hold]; rfl, congrArg ThreadStage.begun hold⟩
  | leave hold =>
    obtain rfl := Option.some.inj (hsession hturn)
    refine ⟨rfl, by rw [hold]; rfl, ?_⟩
    exact congrArg ThreadStage.begun (threads_withThread_self _ _ _)
  | http => cases hsession hturn
  | _ => exact absurd rfl hturn

/-- A step of one party leaves the connections of the others alone. -/
theorem frame (hs : h.Sound) {x : Holder} {fd : ℕ} (hne : op.actor ≠ some x)
    (hfd : h.connectionOf x = some fd) :
    h'.connectionOf x = some fd ∧ h'.connections fd = h.connections fd := by
  have hne {y : Holder} (hactor : op.actor = some y) : x ≠ y := fun heq => hne (heq ▸ hactor)
  have hloop (h : Host) (stage : LoopStage) (hx : x ≠ .loop) :
      (h.withLoop stage).connectionOf x = h.connectionOf x := by
    rw [connectionOf_withLoop, Function.update_of_ne hx]
  have hthread (h : Host) {k : ℕ} (stage : ThreadStage) (hx : x ≠ .thread k) :
      (h.withThread k stage).connectionOf x = h.connectionOf x := by
    rw [connectionOf_withThread, Function.update_of_ne hx]
  -- The descriptor of another party is another descriptor.
  have hput {y : Holder} {fd' : ℕ} (hy : h.connectionOf y = some fd') (hx : x ≠ y)
      (v : Option (List Bytes)) : Function.update h.connections fd' v fd = h.connections fd :=
    Function.update_of_ne (fun heq : fd = fd' => hx (hs.connections.unique hfd (heq ▸ hy))) ..
  cases hp with
  | accept _ hclosed =>
    refine ⟨(hloop _ _ (hne rfl)).trans hfd, Function.update_of_ne ?_ ..⟩
    rintro rfl
    exact hs.connections.ne_of_eq_none hclosed x hfd
  | acceptFails | http => exact ⟨hfd, rfl⟩
  | fill => exact ⟨(hloop _ _ (hne rfl)).trans (hs.connectionOf_alloc _ ▸ hfd), rfl⟩
  | mallocFails | createFails => exact ⟨(hloop _ _ (hne rfl)).trans hfd, rfl⟩
  | create hstage =>
    refine ⟨(hloop _ _ (hne rfl)).trans ((hthread _ _ ?_).trans hfd), rfl⟩
    rintro rfl
    rw [connectionOf, (hs.next _ (by rw [hstage]; rfl)).2] at hfd
    cases hfd
  | discard hstage =>
    have hblock : h.blockOf .loop = some _ := congrArg LoopStage.block hstage
    have hdata := hs.connectionOf_free hblock fun k _ => Holder.noConfusion
    exact ⟨(hloop _ _ (hne rfl)).trans (hdata ▸ hfd), rfl⟩
  | refuse hstage =>
    have hy : h.connectionOf .loop = some _ := congrArg LoopStage.connection hstage
    exact ⟨(hloop _ _ (hne rfl)).trans hfd, hput hy (hne rfl) _⟩
  | enter | calloc | callocFails | hangUp | leave => exact ⟨(hthread _ _ (hne rfl)).trans hfd, rfl⟩
  | @blank k _ _ fd' _ _ hold | @command k _ _ fd' _ _ _ _ hold =>
    have hy : h.connectionOf (.thread k) = some fd' := by rw [connectionOf, hold]; rfl
    exact ⟨hfd, hput hy (hne rfl) _⟩
  | @quit k _ _ fd' _ _ _ _ hold | @close k _ _ fd' hold =>
    have hy : h.connectionOf (.thread k) = some fd' := by rw [connectionOf, hold]; rfl
    exact ⟨(hthread _ _ (hne rfl)).trans hfd, hput hy (hne rfl) _⟩
  | @free k _ block _ hold =>
    have hblock : h.blockOf (.thread k) = some block := by rw [blockOf, hold]; rfl
    have hdata := hs.connectionOf_free hblock fun j hj heq => by
      cases hold.symm.trans ((Holder.thread.inj heq).symm ▸ hj)
    exact ⟨(hthread _ _ (hne rfl)).trans (hdata ▸ hfd), rfl⟩

end Proceeds

/-! ### What the session of a connection is going to do -/

namespace Awaits

variable (hw : h.Awaits number todo)

include hw

/-- Every such connection has been accepted. -/
theorem lt_accepted (hs : h.Sound) : number < h.accepted := by
  by_contra hge
  have habsent := hs.absent number (Nat.not_lt.mp hge)
  cases hw with
  | @reading x _ _ hx =>
    cases x with
    | loop => exact hge (hs.next number hx).1
    | thread k => exact absurd hx.2 (by rw [habsent]; exact Bool.false_ne_true)
  | leaving hold => cases habsent.symm.trans hold
  | finished hold => exact absurd hold (by rw [habsent]; exact Bool.false_ne_true)

theorem of_reads (hs : h.Sound) (hreads : (h.threads number).reads = true) : ∃ fd pieces,
    h.connectionOf (.thread number) = some fd ∧ h.connections fd = some pieces ∧
      todo = sessionTurns number pieces := by
  cases hw with
  | @reading x fd pieces hx hfd hpieces =>
    cases x with
    | loop => exact absurd hreads (by rw [(hs.next number hx).2]; exact Bool.false_ne_true)
    | thread k =>
      obtain rfl := hx.1
      exact ⟨fd, pieces, hfd, hpieces, rfl⟩
  | leaving hold => exact absurd hreads (by rw [hold]; exact Bool.false_ne_true)
  | finished hold => cases hreads.symm.trans (ThreadStage.reads_of_finished hold)

theorem of_leaving (hs : h.Sound) {block fd : ℕ} (hold : h.threads number = .leaving block fd) :
    todo = [.socket (.disconnect number)] := by
  cases hw with
  | @reading x _ _ hx =>
    cases x with
    | loop => cases hold.symm.trans (hs.next number hx).2
    | thread k => exact absurd hx.2 (by rw [hold]; exact Bool.false_ne_true)
  | leaving => rfl
  | finished hfinished => exact absurd hfinished (by rw [hold]; exact Bool.false_ne_true)

theorem of_finished (hs : h.Sound) (hfinished : (h.threads number).finished = true) :
    todo = [] := by
  cases hw with
  | @reading x _ _ hx =>
    cases x with
    | loop => exact absurd hfinished (by rw [(hs.next number hx).2]; exact Bool.false_ne_true)
    | thread k => cases hx.2.symm.trans (ThreadStage.reads_of_finished hfinished)
  | leaving hold => exact absurd hfinished (by rw [hold]; exact Bool.false_ne_true)
  | finished => rfl

/-- A step of another party leaves the session as it is. -/
theorem of_other (hs : h.Sound) (hp : h.Proceeds op r h')
    (hloop : op.actor = some .loop → h.loop.number ≠ some number)
    (hthread : op.actor ≠ some (.thread number)) :
    opsOf number r = [] ∧ h'.Awaits number todo := by
  refine ⟨by_contra fun hturn => hthread (hp.begun_of_turn hturn).1, ?_⟩
  cases hw with
  | @reading x fd pieces hx hfd hpieces =>
    cases x with
    | loop =>
      have hne : op.actor ≠ some .loop := fun hactor => hloop hactor hx
      obtain ⟨hfd', hconnection⟩ := hp.frame hs hne hfd
      refine .reading (x := .loop) ?_ hfd' (hconnection.trans hpieces)
      exact (congrArg LoopStage.number (hp.loop_eq hne)).trans hx
    | thread k =>
      obtain ⟨rfl, hreads⟩ := hx
      obtain ⟨hfd', hconnection⟩ := hp.frame hs hthread hfd
      refine .reading (x := .thread k) ⟨rfl, ?_⟩ hfd' (hconnection.trans hpieces)
      have hne : h.threads k ≠ .absent := fun habsent => by rw [habsent] at hreads; cases hreads
      rwa [hp.threads_eq hs.toNumbered hthread hne]
  | leaving hold =>
    refine .leaving ((hp.threads_eq hs.toNumbered hthread ?_).trans hold)
    rw [hold]
    exact ThreadStage.noConfusion
  | finished hold =>
    refine .finished ?_
    have hne : h.threads number ≠ .absent := fun habsent => by rw [habsent] at hold; cases hold
    rwa [hp.threads_eq hs.toNumbered hthread hne]

/-- The loop hands the connection to a thread, or gives it up. -/
theorem loop_step (hs : h.Sound) (hp : h.Proceeds op r h') (hactor : op.actor = some .loop)
    (hnumber : h.loop.number = some number) :
    opsOf number r = [] ∧ (h'.Awaits number todo ∨ h'.Abandoned number) := by
  have haccepted := hs.next number hnumber
  obtain ⟨fd, pieces, hfd, hpieces, rfl⟩ : ∃ fd pieces, h.loop.connection = some fd ∧
      h.connections fd = some pieces ∧ todo = sessionTurns number pieces := by
    cases hw with
    | @reading x fd pieces hx hfd hpieces =>
      cases x with
      | loop => exact ⟨fd, pieces, hfd, hpieces, rfl⟩
      | thread k => exact absurd hx.2 (by rw [haccepted.2]; exact Bool.false_ne_true)
    | leaving hold => cases haccepted.2.symm.trans hold
    | finished hold => exact absurd hold (by rw [haccepted.2]; exact Bool.false_ne_true)
  cases hp with
  | accept hloop =>
    rw [hloop] at hnumber
    cases hnumber
  | acceptFails => exact ⟨rfl, .inl (.reading (x := .loop) hnumber hfd hpieces)⟩
  | fill hloop =>
    rw [hloop] at hnumber hfd
    exact ⟨rfl, .inl (.reading (x := .loop) hnumber hfd hpieces)⟩
  | mallocFails hloop | createFails hloop =>
    exact ⟨rfl, .inr ⟨haccepted.1, .inr ⟨haccepted.2, nofun⟩⟩⟩
  | @create k fd' block hloop =>
    rw [hloop] at hnumber hfd
    obtain rfl := Option.some.inj hnumber
    obtain rfl := Option.some.inj hfd
    have hself : ((h.withThread k (.created block)).withLoop .accepting).threads k =
        .created block := threads_withThread_self ..
    refine ⟨rfl, .inl (.reading (x := .thread k) ⟨rfl, by rw [hself]; rfl⟩ ?_ hpieces)⟩
    rw [connectionOf, hself]
    exact hs.filled k fd' block hloop
  | discard hloop | refuse hloop =>
    rw [hloop] at hnumber
    cases hnumber
  | http | enter | calloc | callocFails | hangUp | blank | quit | command | leave | close | free =>
    cases hactor

/-- A step of the thread takes the next turn of the session, or none. -/
theorem thread_step (hs : h.Sound) {works : Bool}
    (hp : h.Proceeds (.thread number works) r h') :
    (∃ rest, todo = opsOf number r ++ rest ∧ h'.Awaits number rest) ∨
      opsOf number r = [] ∧ h'.Abandoned number := by
  have haccepted := hw.lt_accepted hs
  have hself (h : Host) (stage : ThreadStage) :
      (h.withThread number stage).threads number = stage := threads_withThread_self ..
  have hread {block fd : ℕ} {pieces : List Bytes} (hold : h.threads number = .serving block fd)
      (hrecv : h.connections fd = some pieces) :
      h.connectionOf (.thread number) = some fd ∧ todo = sessionTurns number pieces := by
    obtain ⟨fd', pieces', hholds, hpieces, rfl⟩ := hw.of_reads hs (by rw [hold]; rfl)
    have hfd : h.connectionOf (.thread number) = some fd := by rw [connectionOf, hold]; rfl
    obtain rfl := Option.some.inj (hfd.symm.trans hholds)
    exact ⟨hfd, by rw [Option.some.inj (hrecv.symm.trans hpieces)]⟩
  cases hp with
  | enter hold hfd =>
    obtain ⟨fd, pieces, hholds, hpieces, rfl⟩ := hw.of_reads hs (by rw [hold]; rfl)
    rw [connectionOf, hold] at hholds
    obtain rfl := Option.some.inj (hfd.symm.trans hholds)
    refine .inl ⟨_, rfl, .reading (x := .thread number) ⟨rfl, by rw [hself]; rfl⟩ ?_ hpieces⟩
    rw [connectionOf, hself]
    rfl
  | calloc hold =>
    obtain ⟨fd, pieces, hholds, hpieces, rfl⟩ := hw.of_reads hs (by rw [hold]; rfl)
    rw [connectionOf, hold] at hholds
    obtain rfl := Option.some.inj hholds
    refine .inl ⟨_, rfl, .reading (x := .thread number) ⟨rfl, by rw [hself]; rfl⟩ ?_ hpieces⟩
    rw [connectionOf, hself]
    rfl
  | callocFails hold => exact .inr ⟨rfl, haccepted, .inl (by rw [hself]; rfl)⟩
  | hangUp hold hrecv =>
    obtain ⟨-, rfl⟩ := hread hold hrecv
    exact .inl ⟨_, rfl, .leaving (hself _ _)⟩
  | blank hold hrecv hblank =>
    obtain ⟨hholds, rfl⟩ := hread hold hrecv
    refine .inl ⟨_, ?_, .reading (x := .thread number) ⟨rfl, ?_⟩ hholds (Function.update_self ..)⟩
    · rw [sessionTurns, if_pos hblank]
      rfl
    · exact congrArg ThreadStage.reads hold
  | quit hold hrecv hblank hquit =>
    obtain ⟨-, rfl⟩ := hread hold hrecv
    refine .inl ⟨_, ?_, .leaving (hself _ _)⟩
    rw [sessionTurns, if_neg hblank, if_pos hquit, opsOf_turn_self rfl]
    rfl
  | command hold hrecv hblank hquit =>
    obtain ⟨hholds, rfl⟩ := hread hold hrecv
    refine .inl ⟨_, ?_, .reading (x := .thread number) ⟨rfl, ?_⟩ hholds (Function.update_self ..)⟩
    · rw [sessionTurns, if_neg hblank, if_neg hquit, opsOf_turn_self rfl]
      rfl
    · exact congrArg ThreadStage.reads hold
  | leave hold =>
    obtain rfl := hw.of_leaving hs hold
    refine .inl ⟨[], by rw [opsOf_turn_self rfl]; rfl, .finished ?_⟩
    exact congrArg ThreadStage.finished (hself _ _)
  | close hold =>
    obtain rfl := hw.of_finished hs (by rw [hold]; rfl)
    exact .inl ⟨[], rfl, .finished (congrArg ThreadStage.finished (hself _ _))⟩
  | free hold =>
    have hfinished : (h.threads number).finished = true := by
      cases hw with
      | @reading x _ _ hx =>
        cases x with
        | loop => cases hold.symm.trans (hs.next number hx).2
        | thread k => exact absurd hx.2 (by rw [hold]; exact Bool.false_ne_true)
      | leaving hleaving => cases hold.symm.trans hleaving
      | finished hfinished => exact hfinished
    obtain rfl := hw.of_finished hs hfinished
    rw [hold] at hfinished
    exact .inl ⟨[], rfl, .finished ((congrArg ThreadStage.finished (hself _ _)).trans hfinished)⟩

/-- What the session still has to do is its turn in the step and what it then has to do, unless the
connection is given up before the session has begun. -/
theorem step (hs : h.Sound) (hp : h.Proceeds op r h') :
    (∃ rest, todo = opsOf number r ++ rest ∧ h'.Awaits number rest) ∨
      opsOf number r = [] ∧ h'.Abandoned number := by
  by_cases hthread : op.actor = some (.thread number)
  · obtain ⟨works, rfl⟩ : ∃ works, op = .thread number works := by
      cases op with
      | thread k works =>
        obtain rfl := Holder.thread.inj (Option.some.inj hthread)
        exact ⟨works, rfl⟩
      | _ => cases hthread
    exact hw.thread_step hs hp
  by_cases hloop : op.actor = some .loop ∧ h.loop.number = some number
  · obtain ⟨hnone, hawaits | habandoned⟩ := hw.loop_step hs hp hloop.1 hloop.2
    · exact .inl ⟨todo, by rw [hnone]; rfl, hawaits⟩
    · exact .inr ⟨hnone, habandoned⟩
  · obtain ⟨hnone, hawaits⟩ := hw.of_other hs hp (fun hactor heq => hloop ⟨hactor, heq⟩) hthread
    exact .inl ⟨todo, by rw [hnone]; rfl, hawaits⟩

end Awaits

/-- A session that has begun goes on or has ended. -/
theorem begun_step (hs : h.Sound) (hp : h.Proceeds op r h')
    (hbegun : (h.threads number).begun = true) : (h'.threads number).begun = true := by
  have hne : h.threads number ≠ .absent := fun habsent => by
    rw [habsent] at hbegun
    cases hbegun
  by_cases hactor : op.actor = some (.thread number)
  swap
  · rwa [hp.threads_eq hs.toNumbered hactor hne]
  have hself (h : Host) (stage : ThreadStage) :
      (h.withThread number stage).threads number = stage := threads_withThread_self ..
  cases hp with
  | accept | acceptFails | fill | mallocFails | create | createFails | discard | refuse | http =>
    cases hactor
  | enter hold | calloc hold | callocFails hold =>
    obtain rfl := Holder.thread.inj (Option.some.inj hactor)
    rw [hold] at hbegun
    cases hbegun
  | hangUp | quit | leave | close =>
    obtain rfl := Holder.thread.inj (Option.some.inj hactor)
    exact congrArg ThreadStage.begun (hself _ _)
  | blank | command => exact hbegun
  | free hold =>
    obtain rfl := Holder.thread.inj (Option.some.inj hactor)
    rw [hold] at hbegun
    exact (congrArg ThreadStage.begun (hself _ _)).trans hbegun

theorem Proceeds.accepted_le (hp : h.Proceeds op r h') : h.accepted ≤ h'.accepted := by
  cases hp with
  | accept => exact Nat.le_succ _
  | _ => exact Nat.le_refl _

/-- Without a thread and with another connection at the loop, there is no thread after a step. -/
theorem Proceeds.absent (hp : h.Proceeds op r h') (hlt : number < h.accepted)
    (habsent : h.threads number = .absent) (hnumber : h.loop.number ≠ some number) :
    h'.threads number = .absent ∧ h'.loop.number ≠ some number := by
  have hother {k : ℕ} {old : ThreadStage} (hold : h.threads k = old) (hne : old ≠ .absent)
      (stage : ThreadStage) : Function.update h.threads k stage number = .absent := by
    refine (Function.update_of_ne ?_ ..).trans habsent
    rintro rfl
    exact hne (hold.symm.trans habsent)
  cases hp with
  | accept => exact ⟨habsent, fun heq => Nat.lt_irrefl _ (Option.some.inj heq ▸ hlt)⟩
  | acceptFails | blank | command | http => exact ⟨habsent, hnumber⟩
  | fill hloop =>
    rw [hloop] at hnumber
    exact ⟨habsent, hnumber⟩
  | mallocFails | createFails | discard | refuse => exact ⟨habsent, nofun⟩
  | create hloop =>
    rw [hloop] at hnumber
    exact ⟨(Function.update_of_ne (fun heq => hnumber (congrArg some heq.symm)) ..).trans habsent,
      nofun⟩
  | enter hold | calloc hold | callocFails hold | hangUp hold | quit hold | leave hold | close hold
  | free hold => exact ⟨hother hold ThreadStage.noConfusion _, hnumber⟩

/-- A connection without a session stays without one. -/
theorem Abandoned.step (hab : h.Abandoned number) (hs : h.Sound)
    (hstep : h.step op = some (r, h')) : opsOf number r = [] ∧ h'.Abandoned number := by
  have hp := hs.proceeds hstep
  obtain ⟨hlt, hopen | ⟨habsent, hnumber⟩⟩ := hab
  · refine ⟨by_contra fun hturn => ?_, Nat.lt_of_lt_of_le hlt hp.accepted_le, .inl ?_⟩
    · cases (hp.begun_of_turn hturn).2.1.symm.trans (ThreadStage.begun_of_leavesOpen hopen)
    · exact (leavesOpen_step hs hstep number).mpr (.inl hopen)
  · refine ⟨by_contra fun hturn => ?_, Nat.lt_of_lt_of_le hlt hp.accepted_le,
      .inr (hp.absent hlt habsent hnumber)⟩
    have hbegun := (hp.begun_of_turn hturn).2.1
    rw [habsent] at hbegun
    cases hbegun

/-! ### Runs -/

theorem turns_cons (hstep : h.step op = some (r, h')) (ops : List HostOp) :
    h.turns (op :: ops) = r.daemonTurn.toList ++ h'.turns ops :=
  filterMap_trace_cons _ hstep ops

theorem sessionOps_cons (hstep : h.step op = some (r, h')) (number : ℕ) (ops : List HostOp) :
    h.sessionOps number (op :: ops) = opsOf number r ++ h'.sessionOps number ops := by
  rw [sessionOps, sessionOps, turns_cons hstep, List.map_append, List.filter_append, opsOf]
  cases r.daemonTurn <;> rfl

theorem sessionOps_cons_of_none (hstep : h.step op = none) (number : ℕ) (ops : List HostOp) :
    h.sessionOps number (op :: ops) = [] := by
  rw [sessionOps, Host.turns, trace_cons_of_none hstep]
  rfl

/-- A session that has not begun at the end of a run has taken no turn. -/
theorem sessionOps_eq_nil (hs : h.Sound) {ops : List HostOp}
    (hend : ((runEnd Host.step h ops).threads number).begun = false) :
    (h.threads number).begun = false ∧ h.sessionOps number ops = [] := by
  induction ops generalizing h with
  | nil => exact ⟨hend, rfl⟩
  | cons op ops ih =>
    cases hstep : h.step op with
    | none =>
      simp only [runEnd, hstep] at hend
      exact ⟨hend, sessionOps_cons_of_none hstep number ops⟩
    | some rh =>
      obtain ⟨r, h'⟩ := rh
      have hp := hs.proceeds hstep
      rw [runEnd_cons_of_some hstep] at hend
      obtain ⟨hnot, hnil⟩ := ih (hs.step hstep) hend
      rw [sessionOps_cons hstep, hnil, List.append_nil, ← Bool.not_eq_true]
      refine ⟨fun hbegun => ?_, by_contra fun hturn => ?_⟩
      · cases hnot.symm.trans (begun_step hs hp hbegun)
      · cases hnot.symm.trans (hp.begun_of_turn hturn).2.2

theorem Abandoned.run (hab : h.Abandoned number) (hs : h.Sound) (ops : List HostOp) :
    h.sessionOps number ops = [] ∧ (runEnd Host.step h ops).Abandoned number := by
  induction ops generalizing h with
  | nil => exact ⟨rfl, hab⟩
  | cons op ops ih =>
    cases hstep : h.step op with
    | none =>
      simp only [runEnd, hstep]
      exact ⟨sessionOps_cons_of_none hstep number ops, hab⟩
    | some rh =>
      obtain ⟨hnil, hab'⟩ := hab.step hs hstep
      obtain ⟨hrest, hend⟩ := ih hab' (hs.step hstep)
      rw [runEnd_cons_of_some hstep, sessionOps_cons hstep, hnil, hrest]
      exact ⟨rfl, hend⟩

/-- The todo of the session in a run are the first of those that it had to take. -/
theorem Awaits.run (hw : h.Awaits number todo) (hs : h.Sound) (ops : List HostOp) :
    ∃ rest, todo = h.sessionOps number ops ++ rest ∧
      ((runEnd Host.step h ops).Awaits number rest ∨
        (runEnd Host.step h ops).Abandoned number) := by
  induction ops generalizing h todo with
  | nil => exact ⟨todo, rfl, .inl hw⟩
  | cons op ops ih =>
    cases hstep : h.step op with
    | none =>
      simp only [runEnd, hstep, sessionOps_cons_of_none hstep]
      exact ⟨todo, rfl, .inl hw⟩
    | some rh =>
      have hs' := hs.step hstep
      rw [runEnd_cons_of_some hstep, sessionOps_cons hstep]
      rcases hw.step hs (hs.proceeds hstep) with ⟨rest, rfl, hw'⟩ | ⟨hnil, hab⟩
      · obtain ⟨more, rfl, hend⟩ := ih hw' hs'
        exact ⟨more, (List.append_assoc _ _ _).symm, hend⟩
      · obtain ⟨hrest, hend⟩ := hab.run hs' ops
        rw [hnil, hrest]
        exact ⟨todo, rfl, .inr hend⟩

/-- A connection that is accepted in a run has its session from then on. -/
theorem incoming_run (hs : h.Sound) (hge : h.accepted ≤ number) {ops : List HostOp}
    {pieces : List Bytes} (hpieces : (h.incoming ops)[number - h.accepted]? = some pieces) :
    ∃ rest, sessionTurns number pieces = h.sessionOps number ops ++ rest ∧
      ((runEnd Host.step h ops).Awaits number rest ∨
        (runEnd Host.step h ops).Abandoned number) := by
  induction ops generalizing h with
  | nil => cases hpieces
  | cons op ops ih =>
    cases hstep : h.step op with
    | none =>
      rw [incoming, trace_cons_of_none hstep] at hpieces
      cases hpieces
    | some rh =>
      obtain ⟨r, h'⟩ := rh
      have hs' := hs.step hstep
      have hp := hs.proceeds hstep
      -- A connection that is still to come has no thread.
      have hnil : opsOf number r = [] := by
        by_contra hturn
        have hbegun := (hp.begun_of_turn hturn).2.1
        rw [hs.absent number hge] at hbegun
        cases hbegun
      rw [runEnd_cons_of_some hstep, sessionOps_cons hstep, hnil, List.nil_append]
      rw [incoming, trace_cons_of_some hstep, List.filterMap_cons] at hpieces
      cases hp with
      | @accept fd pieces' hloop hfd =>
        obtain rfl | hgt := Nat.eq_or_lt_of_le hge
        · rw [Nat.sub_self] at hpieces
          obtain rfl := Option.some.inj hpieces
          have hw : Awaits ({ h.afterRecv fd pieces' with accepted := h.accepted + 1 }.withLoop
              (.accepted h.accepted fd)) h.accepted (sessionTurns h.accepted pieces') :=
            .reading (x := .loop) rfl rfl (Function.update_self ..)
          exact hw.run hs' ops
        · refine ih hs' hgt ?_
          have hindex : number - h.accepted = number - (h.accepted + 1) + 1 := by omega
          rw [hindex] at hpieces
          exact hpieces
      | _ => exact ih hs' hge hpieces

theorem accepted_run (hs : h.Sound) (ops : List HostOp) :
    (runEnd Host.step h ops).accepted = h.accepted + (h.incoming ops).length := by
  induction ops generalizing h with
  | nil => rfl
  | cons op ops ih =>
    cases hstep : h.step op with
    | none =>
      rw [incoming, trace_cons_of_none hstep]
      simp only [runEnd, hstep]
      rfl
    | some rh =>
      obtain ⟨r, h'⟩ := rh
      rw [runEnd_cons_of_some hstep, ih (hs.step hstep), incoming, incoming,
        trace_cons_of_some hstep, List.filterMap_cons]
      cases hs.proceeds hstep with
      | accept => exact (Nat.add_right_comm _ _ _).trans (Nat.add_assoc _ _ _)
      | _ => rfl

/-! ### The run of the daemon -/

/-- A step is a turn of the daemon, or the daemon does nothing. -/
theorem Proceeds.daemon_step (hp : h.Proceeds op r h') :
    r.daemonTurn.elim (h'.daemon = h.daemon) fun turn =>
      h.daemon.step turn.1 = some (turn.2, h'.daemon) := by
  cases hp with
  | quit _ _ _ _ hturn | command _ _ _ _ hturn | leave _ hturn | http hturn => exact hturn
  | _ => exact rfl

/-- The daemon goes through a run of its own. -/
theorem daemon_run (hs : h.Sound) (ops : List HostOp) :
    (runEnd Host.step h ops).daemon = runEnd Daemon.step h.daemon ((h.turns ops).map Prod.fst) ∧
      (trace Daemon.step h.daemon ((h.turns ops).map Prod.fst)).map
        (fun x => (x.op, x.result)) = h.turns ops := by
  induction ops generalizing h with
  | nil => exact ⟨rfl, rfl⟩
  | cons op ops ih =>
    cases hstep : h.step op with
    | none =>
      rw [Host.turns, trace_cons_of_none hstep]
      simp only [runEnd, hstep]
      exact ⟨rfl, rfl⟩
    | some rh =>
      obtain ⟨r, h'⟩ := rh
      have hdaemon := (hs.proceeds hstep).daemon_step
      obtain ⟨hend, htrace⟩ := ih (hs.step hstep)
      rw [runEnd_cons_of_some hstep, turns_cons hstep, List.map_append]
      cases hturn : r.daemonTurn with
      | none =>
        rw [hturn] at hdaemon
        rw [Option.toList_none, List.map_nil, List.nil_append, List.nil_append, ← hdaemon]
        exact ⟨hend, htrace⟩
      | some turn =>
        rw [hturn] at hdaemon
        rw [Option.toList_some, List.map_singleton, List.singleton_append, List.singleton_append,
          runEnd_cons_of_some hdaemon, trace_cons_of_some hdaemon, List.map_cons, htrace]
        exact ⟨hend, rfl⟩

/-- The turns of the session of a connection are the first of those that its pieces ask for, and all
of them when it has ended. -/
theorem session_run (daemon : Daemon) {ops : List HostOp} {pieces : List Bytes}
    (hpieces : ((start daemon).incoming ops)[number]? = some pieces) :
    (start daemon).sessionOps number ops <+: sessionTurns number pieces ∧
      (((runEnd Host.step (start daemon) ops).threads number).finished = true →
        (start daemon).sessionOps number ops = sessionTurns number pieces) := by
  have hend : (runEnd Host.step (start daemon) ops).Sound :=
    runEnd_rule Sound (fun _ _ _ _ hs hstep => hs.step hstep) (sound_start daemon) ops
  obtain ⟨rest, heq, hstage⟩ := incoming_run (sound_start daemon) (Nat.zero_le number) hpieces
  refine ⟨⟨rest, heq.symm⟩, fun hfinished => ?_⟩
  rcases hstage with hawaits | ⟨-, hopen | ⟨habsent, -⟩⟩
  · rw [heq, hawaits.of_finished hend hfinished, List.append_nil]
  · cases (ThreadStage.begun_of_finished hfinished).symm.trans
      (ThreadStage.begun_of_leavesOpen hopen)
  · rw [habsent] at hfinished
    cases hfinished

/-- From the start of the program, the sessions and the requests go through a run of the daemon. The
session of a connection takes the turns that the pieces of the connection ask for, in their order
and none twice; it has taken all of them when its thread closes the descriptor. A session that has
not begun has taken no turn, and one that has begun is that of a connection. -/
theorem serves_connections (daemon : Daemon) (ops : List HostOp) :
    (runEnd Host.step (start daemon) ops).daemon =
      runEnd Daemon.step daemon (((start daemon).turns ops).map Prod.fst) ∧
    (trace Daemon.step daemon (((start daemon).turns ops).map Prod.fst)).map
      (fun x => (x.op, x.result)) = (start daemon).turns ops ∧
    ∀ number,
      (((runEnd Host.step (start daemon) ops).threads number).begun = false →
        (start daemon).sessionOps number ops = []) ∧
      (((runEnd Host.step (start daemon) ops).threads number).begun = true →
        number < ((start daemon).incoming ops).length) ∧
      ∀ pieces, ((start daemon).incoming ops)[number]? = some pieces →
        (start daemon).sessionOps number ops <+: sessionTurns number pieces ∧
        (((runEnd Host.step (start daemon) ops).threads number).finished = true →
          (start daemon).sessionOps number ops = sessionTurns number pieces) := by
  have hs := sound_start daemon
  have hend : (runEnd Host.step (start daemon) ops).Sound :=
    runEnd_rule Sound (fun _ _ _ _ hs hstep => hs.step hstep) hs ops
  obtain ⟨hdaemon, htrace⟩ := daemon_run hs ops
  refine ⟨hdaemon, htrace, fun number => ⟨fun hnot => (sessionOps_eq_nil hs hnot).2,
    fun hbegun => ?_, fun pieces hpieces => session_run daemon hpieces⟩⟩
  by_contra hge
  have haccepted := (accepted_run hs ops).trans (Nat.zero_add _)
  rw [hend.absent number (haccepted ▸ Nat.not_lt.mp hge)] at hbegun
  cases hbegun

end Host

end SuparnaD

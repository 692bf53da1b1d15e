import SuparnaD.Daemon.HostServer

/-!
# Descriptors and blocks of the hosted sessions

The loop of the server hands each connection to a thread, through a block that the loop allocates
and the thread frees. However the loop, the threads and the requests take turns and however their
calls turn out, every open descriptor and every live block is in the custody of the loop or of one
thread. So a descriptor is closed once at most, by the party that holds it, and a session never
reads from the connection of another client, even when the kernel gives descriptors out again.

A thread whose `calloc` fails is the only one that leaves a descriptor open for good.

## Main definitions

* `Holder`, `Host.connectionOf`, `Host.blockOf` : who holds what.
* `Host.Sound` : descriptors and blocks are in custody.

## Main results

* `Host.Sound.step`.
* `Host.resources_kept`.
-/

namespace SuparnaD

/-- The parties that hold descriptors and blocks. -/
inductive Holder where
  /-- The loop of the server. -/
  | loop
  /-- The thread of a connection. -/
  | thread (number : ℕ)
  deriving DecidableEq, Repr

namespace LoopStage

/-- The number of a connection that has no thread yet. -/
def number : LoopStage → Option ℕ
  | .accepted number _ | .filled number _ _ => some number
  | _ => none

/-- The descriptor of the loop. -/
def connection : LoopStage → Option ℕ
  | .accepting => none
  | .accepted _ fd | .filled _ fd _ | .discarding fd _ | .refusing fd => some fd

/-- The block of the loop. -/
def block : LoopStage → Option ℕ
  | .filled _ _ block | .discarding _ block => some block
  | _ => none

end LoopStage

namespace ThreadStage

/-- The descriptor of the thread. At first it is in the block. -/
def connection (data : HandleHeap ℕ) : ThreadStage → Option ℕ
  | .absent => none
  | .created block => data.get block
  | .entered _ fd | .serving _ fd | .leaving _ fd | .closing _ fd => some fd
  | .returned _ leftOpen | .ended leftOpen => leftOpen

/-- The block of the thread. -/
def block : ThreadStage → Option ℕ
  | .absent | .ended _ => none
  | .created block | .entered block _ | .serving block _ | .leaving block _ | .closing block _
  | .returned block _ => some block

/-- The thread has left its descriptor open. -/
def leavesOpen : ThreadStage → Bool
  | .returned _ leftOpen | .ended leftOpen => leftOpen.isSome
  | _ => false

end ThreadStage

namespace Host

/-- Who holds which descriptor. -/
def connectionOf (h : Host) : Holder → Option ℕ
  | .loop => h.loop.connection
  | .thread number => (h.threads number).connection h.data

/-- Who holds which block. -/
def blockOf (h : Host) : Holder → Option ℕ
  | .loop => h.loop.block
  | .thread number => (h.threads number).block

/-- A connection gets a thread once at most. -/
structure Numbered (h : Host) : Prop where
  absent : ∀ number, h.accepted ≤ number → h.threads number = .absent
  next : ∀ number, h.loop.number = some number →
    number < h.accepted ∧ h.threads number = .absent

/-- Every open descriptor and every live block has one holder. -/
structure Sound (h : Host) : Prop extends Numbered h where
  connections : Custody h.connections h.connectionOf
  blocks : Custody h.data.get h.blockOf
  filled : ∀ number fd block, h.loop = .filled number fd block → h.data.get block = some fd

/-- What a step does when it misuses nothing. -/
inductive Proceeds (h : Host) : HostOp → HostResult → Host → Prop where
  | accept {fd : ℕ} {pieces : List Bytes} (hloop : h.loop = .accepting)
      (hfd : h.connections fd = none) :
      Proceeds h (.accept fd pieces) .quiet
        ({ h.afterRecv fd pieces with accepted := h.accepted + 1 }.withLoop
          (.accepted h.accepted fd))
  | acceptFails : Proceeds h .acceptFails .quiet h
  | fill {number fd : ℕ} (hloop : h.loop = .accepted number fd) :
      Proceeds h (.loop true) .quiet
        ({ h with data := h.data.alloc fd }.withLoop (.filled number fd h.data.fresh))
  | mallocFails {number fd : ℕ} (hloop : h.loop = .accepted number fd) :
      Proceeds h (.loop false) .quiet (h.withLoop (.refusing fd))
  | create {number fd block : ℕ} (hloop : h.loop = .filled number fd block) :
      Proceeds h (.loop true) .quiet
        ((h.withThread number (.created block)).withLoop .accepting)
  | createFails {number fd block : ℕ} (hloop : h.loop = .filled number fd block) :
      Proceeds h (.loop false) .quiet (h.withLoop (.discarding fd block))
  | discard {works : Bool} {fd block : ℕ} (hloop : h.loop = .discarding fd block) :
      Proceeds h (.loop works) .quiet
        ({ h with data := h.data.free block }.withLoop (.refusing fd))
  | refuse {works : Bool} {fd : ℕ} (hloop : h.loop = .refusing fd) :
      Proceeds h (.loop works) .quiet
        ({ h with connections := Function.update h.connections fd none }.withLoop .accepting)
  | enter {number : ℕ} {works : Bool} {block fd : ℕ} (hold : h.threads number = .created block)
      (hfd : h.data.get block = some fd) :
      Proceeds h (.thread number works) .quiet (h.withThread number (.entered block fd))
  | calloc {number block fd : ℕ} (hold : h.threads number = .entered block fd) :
      Proceeds h (.thread number true) .quiet (h.withThread number (.serving block fd))
  | callocFails {number block fd : ℕ} (hold : h.threads number = .entered block fd) :
      Proceeds h (.thread number false) .quiet (h.withThread number (.returned block (some fd)))
  | hangUp {number : ℕ} {works : Bool} {block fd : ℕ}
      (hold : h.threads number = .serving block fd) (hrecv : h.connections fd = some []) :
      Proceeds h (.thread number works) .quiet (h.withThread number (.leaving block fd))
  | blank {number : ℕ} {works : Bool} {block fd : ℕ} {piece : Bytes} {pieces : List Bytes}
      (hold : h.threads number = .serving block fd)
      (hrecv : h.connections fd = some (piece :: pieces))
      (hblank : (pieceCommand piece).length = 0) :
      Proceeds h (.thread number works) .quiet (h.afterRecv fd pieces)
  | quit {number : ℕ} {works : Bool} {block fd : ℕ} {piece : Bytes} {pieces : List Bytes}
      {r : DaemonResult} {d : Daemon} (hold : h.threads number = .serving block fd)
      (hrecv : h.connections fd = some (piece :: pieces))
      (hblank : (pieceCommand piece).length ≠ 0) (hquit : isQuit (pieceCommand piece) = true)
      (hturn : h.daemon.step (.goodbye number) = some (r, d)) :
      Proceeds h (.thread number works) (.turn (.goodbye number) r)
        { (h.afterRecv fd pieces).withThread number (.leaving block fd) with daemon := d }
  | command {number : ℕ} {works : Bool} {block fd : ℕ} {piece : Bytes} {pieces : List Bytes}
      {r : DaemonResult} {d : Daemon} (hold : h.threads number = .serving block fd)
      (hrecv : h.connections fd = some (piece :: pieces))
      (hblank : (pieceCommand piece).length ≠ 0) (hquit : ¬ isQuit (pieceCommand piece) = true)
      (hturn : h.daemon.step (.socket (.command number (pieceCommand piece))) = some (r, d)) :
      Proceeds h (.thread number works) (.turn (.socket (.command number (pieceCommand piece))) r)
        { h.afterRecv fd pieces with daemon := d }
  | leave {number : ℕ} {works : Bool} {block fd : ℕ} {r : DaemonResult} {d : Daemon}
      (hold : h.threads number = .leaving block fd)
      (hturn : h.daemon.step (.socket (.disconnect number)) = some (r, d)) :
      Proceeds h (.thread number works) (.turn (.socket (.disconnect number)) r)
        { h.withThread number (.closing block fd) with daemon := d }
  | close {number : ℕ} {works : Bool} {block fd : ℕ}
      (hold : h.threads number = .closing block fd) :
      Proceeds h (.thread number works) .quiet
        ({ h with connections := Function.update h.connections fd none }.withThread number
          (.returned block none))
  | free {number : ℕ} {works : Bool} {block : ℕ} {leftOpen : Option ℕ}
      (hold : h.threads number = .returned block leftOpen) :
      Proceeds h (.thread number works) .quiet
        ({ h with data := h.data.free block }.withThread number (.ended leftOpen))
  | http {request : ℕ} {url method uploadData : Bytes} {r : DaemonResult} {d : Daemon}
      (hturn : h.daemon.step (.http request url method uploadData) = some (r, d)) :
      Proceeds h (.http request url method uploadData)
        (.turn (.http request url method uploadData) r) { h with daemon := d }

variable {h h' : Host} {number block fd : ℕ} {stage : ThreadStage} {r : HostResult} {op : HostOp}
  {works : Bool}

theorem turn_eq_some_iff {turn : DaemonOp} : h.turn turn = some (r, h') ↔
    ∃ r' d, h.daemon.step turn = some (r', d) ∧ r = .turn turn r' ∧
      h' = { h with daemon := d } := by
  rw [Host.turn, Option.map_eq_some_iff]
  constructor
  · rintro ⟨⟨r', d⟩, hstep, heq⟩
    cases heq
    exact ⟨r', d, hstep, rfl, rfl⟩
  · rintro ⟨r', d, hstep, rfl, rfl⟩
    exact ⟨(r', d), hstep, rfl⟩

@[simp] theorem threads_withThread_self (h : Host) (number : ℕ) (stage : ThreadStage) :
    (h.withThread number stage).threads number = stage := Function.update_self ..

theorem connectionOf_withThread (h : Host) (number : ℕ) (stage : ThreadStage) :
    (h.withThread number stage).connectionOf =
      Function.update h.connectionOf (.thread number) (stage.connection h.data) := by
  ext1 holder
  rcases holder with _ | k
  · rfl
  · by_cases hk : k = number
    · subst hk
      simp only [connectionOf, withThread, Function.update_self]
    · simp only [connectionOf, withThread, Function.update_of_ne hk,
        Function.update_of_ne fun heq => hk (Holder.thread.inj heq)]

theorem blockOf_withThread (h : Host) (number : ℕ) (stage : ThreadStage) :
    (h.withThread number stage).blockOf =
      Function.update h.blockOf (.thread number) stage.block := by
  ext1 holder
  rcases holder with _ | k
  · rfl
  · by_cases hk : k = number
    · subst hk
      simp only [blockOf, withThread, Function.update_self]
    · simp only [blockOf, withThread, Function.update_of_ne hk,
        Function.update_of_ne fun heq => hk (Holder.thread.inj heq)]

theorem connectionOf_withLoop (h : Host) (stage : LoopStage) : (h.withLoop stage).connectionOf =
    Function.update h.connectionOf .loop stage.connection := by
  ext1 holder
  rcases holder with _ | k
  · rw [Function.update_self]
    rfl
  · rw [Function.update_of_ne (by simp)]
    rfl

theorem blockOf_withLoop (h : Host) (stage : LoopStage) :
    (h.withLoop stage).blockOf = Function.update h.blockOf .loop stage.block := by
  ext1 holder
  rcases holder with _ | k
  · rw [Function.update_self]
    rfl
  · rw [Function.update_of_ne (by simp)]
    rfl

/-- The descriptors that the threads hold depend on the blocks of the threads only. -/
theorem connectionOf_withData (h : Host) {data : HandleHeap ℕ}
    (hdata : ∀ number block, h.threads number = .created block →
      data.get block = h.data.get block) :
    ({ h with data := data } : Host).connectionOf = h.connectionOf := by
  ext1 holder
  rcases holder with _ | k
  · rfl
  · simp only [connectionOf]
    cases hk : h.threads k with
    | created block => exact hdata k block hk
    | _ => rfl

theorem sound_start (daemon : Daemon) : (start daemon).Sound where
  connections := by
    have hnone : (start daemon).connectionOf = fun _ => none := by
      ext1 holder
      cases holder <;> rfl
    rw [hnone]
    exact .nothing
  blocks := by
    have hnone : (start daemon).blockOf = fun _ => none := by
      ext1 holder
      cases holder <;> rfl
    have hempty : (start daemon).data.get = fun _ => none := by
      ext1 block
      exact HandleHeap.get_empty
    rw [hnone, hempty]
    exact .nothing
  absent _ _ := rfl
  next _ hnumber := by cases hnumber
  filled _ _ _ hloop := by cases hloop

namespace Numbered

variable (hs : h.Numbered)

include hs

/-- Only the stages count. -/
theorem congr (hloop : h'.loop = h.loop) (hthreads : h'.threads = h.threads)
    (haccepted : h'.accepted = h.accepted) : h'.Numbered where
  absent k hk := hthreads ▸ hs.absent k (haccepted ▸ hk)
  next k hk := by
    rw [haccepted, hthreads]
    exact hs.next k (hloop ▸ hk)

/-- A thread that exists comes to a new stage. -/
theorem withThread {old : ThreadStage} (hold : h.threads number = old) (hne : old ≠ .absent) :
    (h.withThread number stage).Numbered where
  absent k hk := by
    have hkn : k ≠ number := fun heq => hne (hold.symm.trans (hs.absent number (heq ▸ hk)))
    exact (Function.update_of_ne hkn ..).trans (hs.absent k hk)
  next k hk := by
    have hnext := hs.next k hk
    have hkn : k ≠ number := fun heq => hne (hold.symm.trans (heq ▸ hnext.2))
    exact ⟨hnext.1, (Function.update_of_ne hkn ..).trans hnext.2⟩

end Numbered

namespace Sound

variable (hs : h.Sound)

include hs

theorem withDaemon (daemon : Daemon) : ({ h with daemon := daemon } : Host).Sound :=
  ⟨hs.toNumbered.congr rfl rfl rfl, hs.connections, hs.blocks, hs.filled⟩

/-- A thread goes on with what it holds. -/
theorem moveThread (stage : ThreadStage) {old : ThreadStage} (hold : h.threads number = old)
    (hne : old ≠ .absent) (hconnection : stage.connection h.data = old.connection h.data)
    (hblock : stage.block = old.block) : (h.withThread number stage).Sound where
  toNumbered := hs.toNumbered.withThread hold hne
  connections := by
    rw [connectionOf_withThread, hconnection, ← hold]
    exact (Function.update_eq_self (.thread number) h.connectionOf).symm ▸ hs.connections
  blocks := by
    rw [blockOf_withThread, hblock, ← hold]
    exact (Function.update_eq_self (.thread number) h.blockOf).symm ▸ hs.blocks
  filled := hs.filled

/-- The loop goes on with what it holds, without a thread to come. -/
theorem moveLoop {stage : LoopStage} (hnumber : stage.number = none)
    (hconnection : stage.connection = h.loop.connection) (hblock : stage.block = h.loop.block) :
    (h.withLoop stage).Sound where
  absent := hs.absent
  next k hk := by cases hnumber.symm.trans hk
  connections := by
    rw [connectionOf_withLoop, hconnection]
    exact (Function.update_eq_self Holder.loop h.connectionOf).symm ▸ hs.connections
  blocks := by
    rw [blockOf_withLoop, hblock]
    exact (Function.update_eq_self Holder.loop h.blockOf).symm ▸ hs.blocks
  filled k fd block hloop := by
    have hk : stage.number = some k := congrArg LoopStage.number hloop
    cases hnumber.symm.trans hk

/-- A new block is not one of those that the threads have. -/
theorem connectionOf_alloc (fd : ℕ) :
    ({ h with data := h.data.alloc fd } : Host).connectionOf = h.connectionOf := by
  refine connectionOf_withData h fun k b hk => HandleHeap.get_alloc_of_ne fun heq => ?_
  have hholds : h.blockOf (.thread k) = some b := by rw [blockOf, hk]; rfl
  obtain ⟨v, hv⟩ := hs.blocks.exists_eq hholds
  exact absurd (HandleHeap.lt_fresh_of_get hv) (heq ▸ Nat.lt_irrefl _)

/-- A block is freed by its holder, whose descriptor is not in it. -/
theorem connectionOf_free {x : Holder} (hx : h.blockOf x = some block)
    (hrun : ∀ k, h.threads k = .created block → x ≠ .thread k) :
    ({ h with data := h.data.free block } : Host).connectionOf = h.connectionOf := by
  refine connectionOf_withData h fun k b hk => HandleHeap.get_free_of_ne fun heq => ?_
  have hholds : h.blockOf (.thread k) = some block := by rw [blockOf, hk, ← heq]; rfl
  exact hrun k (heq ▸ hk) (hs.blocks.unique hx hholds)

/-! ### The loop -/

theorem accept (hloop : h.loop = .accepting) (hfd : h.connections fd = none)
    (pieces : List Bytes) : (({ h.afterRecv fd pieces with
      accepted := h.accepted + 1 } : Host).withLoop (.accepted h.accepted fd)).Sound where
  absent k hk := hs.absent k (Nat.le_of_succ_le hk)
  next k hk := by
    obtain rfl := Option.some.inj hk
    exact ⟨Nat.lt_succ_self _, hs.absent _ (Nat.le_refl _)⟩
  connections := by
    have hfree : h.connectionOf .loop = none := by rw [connectionOf, hloop]; rfl
    rw [connectionOf_withLoop]
    exact hs.connections.acquire hfd hfree pieces
  blocks := by
    have hsame : h.blockOf .loop = (LoopStage.accepted h.accepted fd).block := by
      rw [blockOf, hloop]
      rfl
    rw [blockOf_withLoop, ← hsame]
    exact (Function.update_eq_self Holder.loop h.blockOf).symm ▸ hs.blocks
  filled k fd block hfilled := by cases hfilled

theorem fill (hloop : h.loop = .accepted number fd) : (({ h with
    data := h.data.alloc fd } : Host).withLoop (.filled number fd h.data.fresh)).Sound where
  absent := hs.absent
  next k hk := hs.next k (by rw [hloop]; exact hk)
  connections := by
    have hsame : h.connectionOf .loop = (LoopStage.filled number fd h.data.fresh).connection := by
      rw [connectionOf, hloop]
      rfl
    rw [connectionOf_withLoop, hs.connectionOf_alloc, ← hsame, Function.update_eq_self]
    exact hs.connections
  blocks := by
    have hfree : h.blockOf .loop = none := by rw [blockOf, hloop]; rfl
    rw [blockOf_withLoop]
    exact hs.blocks.alloc hfree fd
  filled k fd' block hfilled := by
    obtain ⟨-, rfl, rfl⟩ := LoopStage.filled.inj hfilled
    exact HandleHeap.get_alloc_self

theorem create (hloop : h.loop = .filled number fd block) :
    ((h.withThread number (.created block)).withLoop .accepting).Sound where
  absent k hk := by
    have hnext := hs.next number (by rw [hloop]; rfl)
    have hkn : k ≠ number := fun heq => absurd hnext.1 (Nat.not_lt.mpr (heq ▸ hk))
    exact (Function.update_of_ne hkn ..).trans (hs.absent k hk)
  next k hk := by cases hk
  connections := by
    have habsent := (hs.next number (by rw [hloop]; rfl)).2
    have hholds : h.connectionOf .loop = some fd := by rw [connectionOf, hloop]; rfl
    have hfree : h.connectionOf (.thread number) = none := by rw [connectionOf, habsent]; rfl
    have hmoved := hs.connections.transfer hholds hfree
    rw [connectionOf_withLoop, connectionOf_withThread, ThreadStage.connection,
      hs.filled number fd block hloop, Function.update_comm Holder.noConfusion]
    exact hmoved
  blocks := by
    have habsent := (hs.next number (by rw [hloop]; rfl)).2
    have hholds : h.blockOf .loop = some block := by rw [blockOf, hloop]; rfl
    have hfree : h.blockOf (.thread number) = none := by rw [blockOf, habsent]; rfl
    have hmoved := hs.blocks.transfer hholds hfree
    rw [blockOf_withLoop, blockOf_withThread, Function.update_comm Holder.noConfusion]
    exact hmoved
  filled k fd block hfilled := by cases hfilled

/-- The loop gives its block back. -/
theorem discard (hloop : h.loop = .discarding fd block) :
    (({ h with data := h.data.free block } : Host).withLoop (.refusing fd)).Sound where
  absent := hs.absent
  next k hk := by cases hk
  connections := by
    have hholds : h.blockOf .loop = some block := by rw [blockOf, hloop]; rfl
    have hdata := hs.connectionOf_free hholds fun k _ => Holder.noConfusion
    have hsame : h.connectionOf .loop = (LoopStage.refusing fd).connection := by
      rw [connectionOf, hloop]
      rfl
    rw [connectionOf_withLoop, hdata, ← hsame, Function.update_eq_self]
    exact hs.connections
  blocks := by
    have hholds : h.blockOf .loop = some block := by rw [blockOf, hloop]; rfl
    rw [blockOf_withLoop]
    exact hs.blocks.free hholds
  filled k fd block hfilled := by cases hfilled

/-- The loop closes its descriptor. -/
theorem refuse (hloop : h.loop = .refusing fd) : (({ h with
    connections := Function.update h.connections fd none } : Host).withLoop .accepting).Sound where
  absent := hs.absent
  next k hk := by cases hk
  connections := by
    have hholds : h.connectionOf .loop = some fd := by rw [connectionOf, hloop]; rfl
    rw [connectionOf_withLoop]
    exact hs.connections.release hholds
  blocks := by
    have hsame : h.blockOf .loop = LoopStage.accepting.block := by rw [blockOf, hloop]; rfl
    rw [blockOf_withLoop, ← hsame]
    exact (Function.update_eq_self Holder.loop h.blockOf).symm ▸ hs.blocks
  filled k fd block hfilled := by cases hfilled

/-! ### The threads -/

/-- The thread closes its descriptor. -/
theorem closeThread (hold : h.threads number = .closing block fd) : (({ h with
    connections := Function.update h.connections fd none } : Host).withThread number
      (.returned block none)).Sound where
  toNumbered := .withThread (hs.toNumbered.congr rfl rfl rfl) hold ThreadStage.noConfusion
  connections := by
    have hholds : h.connectionOf (.thread number) = some fd := by rw [connectionOf, hold]; rfl
    rw [connectionOf_withThread]
    exact hs.connections.release hholds
  blocks := by
    have hsame : h.blockOf (.thread number) = (ThreadStage.returned block none).block := by
      rw [blockOf, hold]
      rfl
    rw [blockOf_withThread, ← hsame]
    exact (Function.update_eq_self (.thread number) h.blockOf).symm ▸ hs.blocks
  filled := hs.filled

/-- The thread gives its block back. -/
theorem freeThread {leftOpen : Option ℕ} (hold : h.threads number = .returned block leftOpen) :
    (({ h with data := h.data.free block } : Host).withThread number (.ended leftOpen)).Sound where
  toNumbered := .withThread (hs.toNumbered.congr rfl rfl rfl) hold ThreadStage.noConfusion
  connections := by
    have hholds : h.blockOf (.thread number) = some block := by rw [blockOf, hold]; rfl
    have hdata := hs.connectionOf_free hholds fun k hk heq => by
      cases hold.symm.trans ((Holder.thread.inj heq).symm ▸ hk)
    have hsame : h.connectionOf (.thread number) = leftOpen := by rw [connectionOf, hold]; rfl
    rw [connectionOf_withThread, hdata, ThreadStage.connection, ← hsame, Function.update_eq_self]
    exact hs.connections
  blocks := by
    have hholds : h.blockOf (.thread number) = some block := by rw [blockOf, hold]; rfl
    rw [blockOf_withThread]
    exact hs.blocks.free hholds
  filled k fd b hfilled := by
    -- The loop has another block.
    have hholds : h.blockOf (.thread number) = some block := by rw [blockOf, hold]; rfl
    have hloop : h.blockOf .loop = some b := by
      rw [blockOf, show h.loop = .filled k fd b from hfilled]
      rfl
    have hne : b ≠ block := fun heq =>
      Holder.noConfusion (hs.blocks.unique hholds (heq ▸ hloop))
    exact (HandleHeap.get_free_of_ne hne).trans (hs.filled k fd b hfilled)

/-! ### Steps -/

theorem proceeds_loop (hstep : h.runServerLoop works = some (r, h')) :
    h.Proceeds (.loop works) r h' := by
  rw [Host.runServerLoop] at hstep
  cases hloop : h.loop <;> simp only [hloop] at hstep
  case accepting => cases hstep
  case accepted number fd =>
    cases works <;> cases hstep
    · exact .mallocFails hloop
    · exact .fill hloop
  case filled number fd block =>
    cases works <;> cases hstep
    · exact .createFails hloop
    · exact .create hloop
  case discarding fd block =>
    have hholds : h.blockOf .loop = some block := by rw [blockOf, hloop]; rfl
    obtain ⟨v, hv⟩ := hs.blocks.exists_eq hholds
    simp only [freeData, hv] at hstep
    cases hstep
    exact .discard hloop
  case refusing fd =>
    have hholds : h.connectionOf .loop = some fd := by rw [connectionOf, hloop]; rfl
    obtain ⟨pieces, hpieces⟩ := hs.connections.exists_eq hholds
    simp only [Host.close, hpieces] at hstep
    cases hstep
    exact .refuse hloop

theorem proceeds_serve (hold : h.threads number = .serving block fd)
    (hstep : h.serve number block fd = some (r, h')) : h.Proceeds (.thread number works) r h' := by
  have hholds : h.connectionOf (.thread number) = some fd := by rw [connectionOf, hold]; rfl
  obtain ⟨pieces, hpieces⟩ := hs.connections.exists_eq hholds
  simp only [Host.serve, hpieces] at hstep
  cases pieces with
  | nil =>
    cases hstep
    exact .hangUp hold hpieces
  | cons piece pieces =>
    dsimp only at hstep
    split_ifs at hstep with hblank hquit
    · cases hstep
      exact .blank hold hpieces hblank
    · obtain ⟨r', d, hturn, rfl, rfl⟩ := turn_eq_some_iff.mp hstep
      exact .quit hold hpieces hblank hquit hturn
    · obtain ⟨r', d, hturn, rfl, rfl⟩ := turn_eq_some_iff.mp hstep
      exact .command hold hpieces hblank hquit hturn

theorem proceeds_thread (hstep : h.handleClientThread number works = some (r, h')) :
    h.Proceeds (.thread number works) r h' := by
  rw [Host.handleClientThread] at hstep
  cases hold : h.threads number <;> simp only [hold] at hstep
  case absent | ended => cases hstep
  case created block =>
    have hholds : h.blockOf (.thread number) = some block := by rw [blockOf, hold]; rfl
    obtain ⟨fd, hfd⟩ := hs.blocks.exists_eq hholds
    simp only [hfd] at hstep
    cases hstep
    exact .enter hold hfd
  case entered block fd =>
    cases works <;> cases hstep
    · exact .callocFails hold
    · exact .calloc hold
  case serving block fd => exact hs.proceeds_serve hold hstep
  case leaving block fd =>
    obtain ⟨r', d, hturn, rfl, rfl⟩ := turn_eq_some_iff.mp hstep
    exact .leave hold hturn
  case closing block fd =>
    have hholds : h.connectionOf (.thread number) = some fd := by rw [connectionOf, hold]; rfl
    obtain ⟨pieces, hpieces⟩ := hs.connections.exists_eq hholds
    simp only [Host.close, hpieces] at hstep
    cases hstep
    exact .close hold
  case returned block leftOpen =>
    have hholds : h.blockOf (.thread number) = some block := by rw [blockOf, hold]; rfl
    obtain ⟨v, hv⟩ := hs.blocks.exists_eq hholds
    simp only [freeData, hv] at hstep
    cases hstep
    exact .free hold

/-- No step misuses a descriptor or a block. -/
theorem proceeds (hstep : h.step op = some (r, h')) : h.Proceeds op r h' := by
  cases op with
  | accept fd pieces =>
    rw [Host.step] at hstep
    split_ifs at hstep with hready
    cases hstep
    exact .accept hready.1 hready.2
  | acceptFails =>
    rw [Host.step] at hstep
    split_ifs at hstep
    cases hstep
    exact .acceptFails
  | loop works => exact hs.proceeds_loop hstep
  | thread number works => exact hs.proceeds_thread hstep
  | http request url method uploadData =>
    obtain ⟨r', d, hturn, rfl, rfl⟩ := turn_eq_some_iff.mp hstep
    exact .http hturn

/-- The session takes a piece from its own connection. -/
theorem afterRecv {pieces : List Bytes} (hold : h.threads number = .serving block fd) :
    (h.afterRecv fd pieces).Sound := by
  have hholds : h.connectionOf (.thread number) = some fd := by rw [connectionOf, hold]; rfl
  exact ⟨hs.toNumbered.congr rfl rfl rfl, hs.connections.put hholds pieces, hs.blocks, hs.filled⟩

/-- Every step keeps descriptors and blocks in custody. -/
theorem step (hstep : h.step op = some (r, h')) : h'.Sound := by
  cases hs.proceeds hstep with
  | accept hloop hfd => exact hs.accept hloop hfd _
  | acceptFails => exact hs
  | fill hloop => exact hs.fill hloop
  | mallocFails hloop => exact hs.moveLoop rfl (by rw [hloop]; rfl) (by rw [hloop]; rfl)
  | create hloop => exact hs.create hloop
  | createFails hloop => exact hs.moveLoop rfl (by rw [hloop]; rfl) (by rw [hloop]; rfl)
  | discard hloop => exact hs.discard hloop
  | refuse hloop => exact hs.refuse hloop
  | enter hold hfd => exact hs.moveThread _ hold nofun hfd.symm rfl
  | calloc hold | callocFails hold | hangUp hold =>
    exact hs.moveThread _ hold nofun rfl rfl
  | blank hold => exact hs.afterRecv hold
  | quit hold =>
    exact ((hs.afterRecv hold).moveThread (.leaving _ _) hold nofun rfl rfl).withDaemon _
  | command hold => exact (hs.afterRecv hold).withDaemon _
  | leave hold => exact (hs.moveThread (.closing _ _) hold nofun rfl rfl).withDaemon _
  | close hold => exact hs.closeThread hold
  | free hold => exact hs.freeThread hold
  | http => exact hs.withDaemon _

end Sound

theorem Proceeds.ne_misuse (hp : h.Proceeds op r h') : r ≠ .misuse := by
  cases hp <;> exact HostResult.noConfusion

/-! ### Descriptors that stay open -/

/-- In this step the `calloc` of the thread fails. -/
def CallocFails (number : ℕ) (x : RunStep Host HostOp HostResult) : Prop :=
  x.op = .thread number false ∧ ∃ block fd, x.before.threads number = .entered block fd

theorem leavesOpen_update {k : ℕ} {old : ThreadStage} (hold : h.threads k = old)
    (hstage : stage.leavesOpen = old.leavesOpen) (number : ℕ) :
    (Function.update h.threads k stage number).leavesOpen = (h.threads number).leavesOpen := by
  by_cases hk : number = k
  · rw [hk, Function.update_self, hold, hstage]
  · rw [Function.update_of_ne hk]

/-- A thread leaves its descriptor open when its `calloc` fails, and never else. -/
theorem leavesOpen_step (hs : h.Sound) (hstep : h.step op = some (r, h')) (number : ℕ) :
    (h'.threads number).leavesOpen ↔
      (h.threads number).leavesOpen ∨ CallocFails number ⟨h, op, r, h'⟩ := by
  have hsame (heq : (h'.threads number).leavesOpen = (h.threads number).leavesOpen)
      (hnot : op = .thread number false → ∀ block fd, h.threads number ≠ .entered block fd) :
      (h'.threads number).leavesOpen ↔
        (h.threads number).leavesOpen ∨ CallocFails number ⟨h, op, r, h'⟩ := by
    rw [heq, or_iff_left fun ⟨hop, block, fd, hentered⟩ => hnot hop block fd hentered]
  cases hs.proceeds hstep with
  | accept | acceptFails | fill | mallocFails | createFails | discard | refuse | http =>
    exact hsame rfl nofun
  | create hloop =>
    have habsent := (hs.next _ (by rw [hloop]; rfl)).2
    exact hsame (leavesOpen_update habsent (by rfl) number) nofun
  | calloc hold => exact hsame (leavesOpen_update hold (by rfl) number) nofun
  | enter hold | hangUp hold | quit hold | leave hold | close hold | free hold =>
    refine hsame (leavesOpen_update hold (by rfl) number) fun hop block fd hentered => ?_
    cases hop
    cases hold.symm.trans hentered
  | blank hold | command hold =>
    refine hsame rfl fun hop block fd hentered => ?_
    cases hop
    cases hold.symm.trans hentered
  | @callocFails k block fd hold =>
    by_cases hk : k = number
    · subst hk
      refine iff_of_true ?_ (.inr ⟨rfl, block, fd, hold⟩)
      rw [threads_withThread_self]
      rfl
    · refine hsame ?_ fun hop => absurd (HostOp.thread.inj hop).1 hk
      exact congrArg ThreadStage.leavesOpen (Function.update_of_ne (Ne.symm hk) ..)

theorem leavesOpen_run (hs : h.Sound) (ops : List HostOp) (number : ℕ) :
    ((runEnd Host.step h ops).threads number).leavesOpen ↔
      (h.threads number).leavesOpen ∨ ∃ x ∈ trace Host.step h ops, CallocFails number x := by
  induction ops generalizing h with
  | nil => simp
  | cons op ops ih =>
    cases hstep : h.step op with
    | none => simp [runEnd, trace, hstep]
    | some rh =>
      rw [runEnd_cons_of_some hstep, trace_cons_of_some hstep, ih (hs.step hstep),
        leavesOpen_step hs hstep, or_assoc, List.exists_mem_cons_iff]

/-- In a run from the start of the program no closed descriptor and no freed block is ever used. At
its end every open descriptor and every live block has exactly one holder, and a thread has left its
descriptor open exactly if its `calloc` has failed. -/
theorem resources_kept (daemon : Daemon) (ops : List HostOp) :
    (∀ x ∈ trace Host.step (start daemon) ops, x.result ≠ .misuse) ∧
    Custody (runEnd Host.step (start daemon) ops).connections
      (runEnd Host.step (start daemon) ops).connectionOf ∧
    Custody (runEnd Host.step (start daemon) ops).data.get
      (runEnd Host.step (start daemon) ops).blockOf ∧
    ∀ number, ((runEnd Host.step (start daemon) ops).threads number).leavesOpen ↔
      ∃ x ∈ trace Host.step (start daemon) ops, CallocFails number x := by
  have hend : (runEnd Host.step (start daemon) ops).Sound :=
    runEnd_rule Sound (fun _ _ _ _ hs hstep => hs.step hstep) (sound_start daemon) ops
  refine ⟨?_, hend.connections, hend.blocks, fun number => ?_⟩
  · exact trace_always Sound
      (fun h op r h' hs hstep => ⟨hs.step hstep, (hs.proceeds hstep).ne_misuse⟩)
      (sound_start daemon) ops
  · have hnone : ((start daemon).threads number).leavesOpen = false := rfl
    simp only [leavesOpen_run (sound_start daemon), hnone, Bool.false_eq_true, false_or]

end Host

end SuparnaD

import Osfmk.Lib.Trace
import Osfmk.Kern.Semaphore

/-!
# Lock sets

`kern/sync_lock.c`, one ulock of a lock set and the threads that use it.  A ulock that is held is given
to a waiter when it is released, and its owner can also hand it over to a thread that accepts it,
whoever of the two comes first.  A step is a section under the locks of the set and of the ulock, or
what is done after one: a waiter asserts its wait, or finds out why it was woken; a thread that has
served another one wakes it.
-/

namespace Osfmk

/-- The operations that block. -/
inductive UlockOp
  | acquire
  | handoff
  | accept
  deriving DecidableEq

/-- What a thread finds in `wait_result`: `KERN_SUCCESS`, `KERN_LOCK_UNSTABLE`, `THREAD_INTERRUPTED`,
or `KERN_LOCK_SET_DESTROYED`. -/
inductive UlockResult
  | success
  | unstable
  | interrupted
  | destroyed
  deriving DecidableEq

/-- The thread has got what it waited for. -/
def UlockResult.ok : UlockResult → Bool
  | .success | .unstable => true
  | _ => false

/-- Where a thread is. -/
inductive UlockPc (T : Type)
  | idle
  /-- It is on the queue, or in `ho_thread`, and has released the locks. -/
  | published (op : UlockOp)
  /-- It has asserted its wait, and has not looked at `wait_link.prev` yet. -/
  | asleep (op : UlockOp)
  /-- It has found `LOCK_OPERATION_ABORTED`, and waits for the locks. -/
  | aborted (op : UlockOp)
  /-- It has served another thread, and has released the locks. -/
  | completing (thread : T) (result : UlockResult)
  deriving DecidableEq

/-- The operation that a thread waits in. -/
def UlockPc.op {T : Type} : UlockPc T → Option UlockOp
  | .published op | .asleep op | .aborted op => some op
  | _ => none

/-- A thread; the last two fields are a history. -/
structure UlockThread (T : Type) where
  pc : UlockPc T
  waiting : Bool
  linked : Bool
  result : UlockResult
  /-- It was told that it holds the ulock, and has not given it up. -/
  believes : Bool
  /-- The operation that it waits in has been completed in its favour. -/
  served : Bool

/-- The thread holds the ulock: it believes so, or its operation has been completed and will return. -/
def UlockThread.holds {T : Type} (x : UlockThread T) : Bool :=
  x.believes || (x.served && decide (x.pc.op ≠ some .handoff))

/-- The wake-up of a thread is due. -/
def UlockThread.due {T : Type} (x : UlockThread T) : Bool := x.served && x.waiting

/-- `struct ulock`, `active` of its lock set, whether it is on the lists of the set, and the threads. -/
structure Ulock (T : Type) where
  active : Bool
  stable : Bool
  held : Bool
  owner : Option T
  hoThread : Option T
  blockedThreads : List T
  blockedCount : ℤ
  onHeld : Bool
  onHandoff : Bool
  /-- Something was taken off a list that was not on it. -/
  corrupt : Bool
  policy : SyncPolicy
  priority : T → ℕ
  th : T → UlockThread T

namespace Ulock

variable {T : Type} [DecidableEq T]

def setTh (s : Ulock T) (t : T) (x : UlockThread T) : Ulock T :=
  { s with th := Function.update s.th t x }

/-- What a successful operation returns. -/
def outcome (s : Ulock T) : UlockResult := if s.stable then .success else .unstable

/-- `LOCK_OPERATION_COMPLETE` and `clear_wait`. -/
def wake (x : UlockThread T) (result : UlockResult) : UlockThread T :=
  if x.waiting then { x with linked := false, waiting := false, result := result }
  else { x with linked := false }

/-- The ulock is free, and a thread takes it. -/
def take (s : Ulock T) (t : T) : Ulock T :=
  { s with onHeld := true, owner := some t, held := true }.setTh t { s.th t with believes := true }

def lockAcquire (s : Ulock T) (t : T) : Ulock T :=
  if s.active = false then s
  else if s.held then
    { s with blockedThreads := Sema.syncPolicyEnqueue s.policy s.priority s.blockedThreads t
             blockedCount := s.blockedCount + 1 }.setTh t
      { s.th t with pc := .published .acquire, linked := true }
  else s.take t

def lockTry (s : Ulock T) (t : T) : Ulock T :=
  if s.active = false then s
  else if s.held then s
  else s.take t

/-- A thread gives the ulock to another one, and is going to wake it. -/
def serve (s : Ulock T) (t a : T) : Ulock T :=
  ({ s with owner := some a }.setTh a { s.th a with served := true }).setTh t
    { s.th t with believes := false, pc := .completing a s.outcome }

def lockRelease (s : Ulock T) (t : T) : Ulock T :=
  if s.active = false then s
  else if s.owner ≠ some t then s
  else
    match s.blockedThreads with
    | a :: rest =>
      { s with blockedThreads := rest, blockedCount := s.blockedCount - 1 }.serve t a
    | [] =>
      { s with onHeld := false, owner := none, held := false }.setTh t
        { s.th t with believes := false }

/-- The ulock is taken off `handoff_ulocks`. -/
def leaveHandoff (s : Ulock T) : Ulock T :=
  { s with onHandoff := false, corrupt := s.corrupt || !s.onHandoff, hoThread := none }

/-- A thread waits for the other side of a hand-off. -/
def publish (s : Ulock T) (t : T) (op : UlockOp) : Ulock T :=
  { s with onHandoff := true, hoThread := some t }.setTh t { s.th t with pc := .published op }

def lockHandoff (s : Ulock T) (t : T) : Ulock T :=
  if s.active = false then s
  else if s.owner ≠ some t then s
  else
    match s.hoThread with
    | some a => s.leaveHandoff.serve t a
    | none => s.publish t .handoff

def lockHandoffAccept (s : Ulock T) (t : T) : Ulock T :=
  if s.active = false then s
  else
    match s.hoThread with
    | some h =>
      -- another thread waits to accept
      if s.owner ≠ some h then s
      else
        ({ s.leaveHandoff with owner := some t }.setTh h
          { s.th h with served := true, believes := false }).setTh t
            { s.th t with believes := true, pc := .completing h .success }
    | none => s.publish t .accept

/-- `lock_set_destroy`, for a ulock on `held_ulocks`: its waiters are woken. -/
def destroyHeld (s : Ulock T) : Ulock T :=
  if s.onHeld then
    { s with
      onHeld := false
      owner := none
      blockedThreads := []
      blockedCount := s.blockedCount - s.blockedThreads.length
      th := fun t => if t ∈ s.blockedThreads then wake (s.th t) .destroyed else s.th t }
  else s

/-- `lock_set_destroy`, for a ulock on `handoff_ulocks`; `none` stands for a panic. -/
def destroyHandoff (s : Ulock T) : Option (Ulock T) :=
  if s.onHandoff then
    s.hoThread.map fun a =>
      { s with onHandoff := false, th := fun t => if t = a then wake (s.th t) .destroyed else s.th t }
  else some s

def lockSetDestroy (s : Ulock T) : Option (Ulock T) :=
  if s.active = false then some s
  else { s with active := false }.destroyHeld.destroyHandoff

/-- `assert_wait` and `thread_block`. -/
def assertWait (s : Ulock T) (t : T) : Option (Ulock T) :=
  match (s.th t).pc with
  | .published op => some (s.setTh t { s.th t with pc := .asleep op, waiting := true })
  | _ => none

/-- `clear_wait` with `THREAD_INTERRUPTED`. -/
def abort (s : Ulock T) (t : T) : Option (Ulock T) :=
  if (s.th t).waiting then
    some (s.setTh t { s.th t with waiting := false, result := .interrupted })
  else none

/-- The thread runs again: it has been aborted, or returns `wait_result`. -/
def resume (s : Ulock T) (t : T) : Option (Ulock T) :=
  match (s.th t).pc with
  | .asleep op =>
    if (s.th t).waiting then none
    else if (s.th t).linked then some (s.setTh t { s.th t with pc := .aborted op })
    else
      some (s.setTh t { s.th t with
        pc := .idle
        served := false
        believes := (s.th t).believes || (decide (op ≠ .handoff) && (s.th t).result.ok) })
  | _ => none

/-- An operation that has been aborted is undone. -/
def cleanup (s : Ulock T) (t : T) : Option (Ulock T) :=
  match (s.th t).pc with
  | .aborted .acquire =>
    some ({ s with
      blockedThreads := s.blockedThreads.erase t
      corrupt := s.corrupt || !decide (t ∈ s.blockedThreads)
      blockedCount := s.blockedCount - 1 }.setTh t { s.th t with pc := .idle, served := false })
  | .aborted _ =>
    some ((if s.active then s.leaveHandoff else s).setTh t
      { s.th t with pc := .idle, served := false })
  | _ => none

/-- The thread that has been served is woken. -/
def complete (s : Ulock T) (t : T) : Option (Ulock T) :=
  match (s.th t).pc with
  | .completing a result =>
    some ((s.setTh a (wake (s.th a) result)).setTh t { s.th t with pc := .idle })
  | _ => none

/-- What can happen: a thread makes a call, goes on in one, or is aborted. -/
inductive Act (T : Type)
  | acquire (t : T)
  | tryLock (t : T)
  | release (t : T)
  | handoff (t : T)
  | accept (t : T)
  | destroy
  | assertWait (t : T)
  | abort (t : T)
  | resume (t : T)
  | cleanup (t : T)
  | complete (t : T)

/-- A step; a thread in the middle of a call makes no other. -/
def step (s : Ulock T) : Act T → Option (Ulock T)
  | .acquire t => if (s.th t).pc = .idle then some (s.lockAcquire t) else none
  | .tryLock t => if (s.th t).pc = .idle then some (s.lockTry t) else none
  | .release t => if (s.th t).pc = .idle then some (s.lockRelease t) else none
  | .handoff t => if (s.th t).pc = .idle then some (s.lockHandoff t) else none
  | .accept t => if (s.th t).pc = .idle then some (s.lockHandoffAccept t) else none
  | .destroy => s.lockSetDestroy
  | .assertWait t => s.assertWait t
  | .abort t => s.abort t
  | .resume t => s.resume t
  | .cleanup t => s.cleanup t
  | .complete t => s.complete t

/-- `lock_set_create`, for threads that have not waited on anything of the kind; what is in
`wait_link.prev` is left open. -/
structure Initial (s : Ulock T) : Prop where
  active : s.active = true
  held : s.held = false
  owner : s.owner = none
  hoThread : s.hoThread = none
  blocked : s.blockedThreads = []
  onHeld : s.onHeld = false
  onHandoff : s.onHandoff = false
  th : ∀ t, (s.th t).pc = .idle ∧ (s.th t).waiting = false ∧ (s.th t).believes = false ∧
    (s.th t).served = false

end Ulock

end Osfmk

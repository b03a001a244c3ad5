import Mathlib

/-!
# Waiting for events

A thread that waits for an event is linked on the wait queue of the event's hash value
(`kern/sched_prim.c`).  It is woken through the event by `thread_wakeup_prim`, or directly by
`clear_wait_locked`, which is also what its timeout calls.
-/

open Function (update)

namespace Osfmk

def noEvent : BitVec 32 := 0

def wakingEvent : BitVec 32 := ~~~0

def waitHash (event : BitVec 32) : ℕ := (if event.toInt < 0 then ~~~event else event).toNat % 59

/-- The results of a wait. -/
inductive ThreadResult
  | awakened
  | timedOut
  | interrupted
  | shouldTerminate
  | restart
  | other (kr : ℕ)
  deriving DecidableEq

/-- `timer.set`. -/
inductive Telt
  | unset
  | set
  | pending
  deriving DecidableEq

/-- Where a thread is: on a processor, switched out and about to be dispatched, on a run queue, or on
none. -/
inductive Place
  | running
  | leaving
  | queued
  | blocked
  deriving DecidableEq

/-- A thread on a processor or a run queue. -/
def Place.runnable : Place → Bool
  | .running | .queued => true
  | .leaving | .blocked => false

/-- A thread, as far as waiting goes. -/
structure WaitThread where
  waitEvent : BitVec 32
  run : Bool
  wait : Bool
  susp : Bool
  unint : Bool
  waitResult : ThreadResult
  timer : Telt
  place : Place
  /-- History: the number of the wait that the thread has asserted last. -/
  waitId : ℕ
  /-- History: the wait that the timeout has been set for. -/
  timerFor : ℕ
  expired : ℕ → Bool

/-- The cases of the switch of `clear_wait_locked` and `thread_wakeup_prim`. -/
inductive Wake
  | setrun
  | clear
  | notWaiting
  deriving DecidableEq

namespace WaitThread

/-- The switch over `TH_WAIT`, `TH_RUN`, `TH_SUSP` and `TH_UNINT`. -/
def wake (th : WaitThread) : Wake :=
  match th.wait, th.run, th.susp, th.unint with
  | true, false, true, true | true, false, false, true | true, false, false, false => .setrun
  | true, false, true, false | true, true, true, true | true, true, false, true
  | true, true, true, false | true, true, false, false => .clear
  | false, _, _, _ => .notWaiting

/-- The end of a wait: the timer is reset, and the thread is put on a run queue if it sleeps. -/
def endWait (th : WaitThread) (result : ThreadResult) : WaitThread :=
  let th := { th with timer := .unset }
  match th.wake with
  | .setrun => { th with wait := false, run := true, waitResult := result, place := .queued }
  | .clear => { th with wait := false, waitResult := result }
  | .notWaiting => th

/-- The end of a wait calls `thread_setrun` on a thread that is runnable. -/
def reruns (th : WaitThread) : Bool := decide (th.wake = .setrun) && th.place.runnable

end WaitThread

/-- A call of `clear_wait_locked` that has dropped the lock of the thread. -/
structure Clear (T : Type) where
  thread : T
  event : BitVec 32
  result : ThreadResult
  aim : ℕ

/-- The wait queues and the threads `T`; the calls in progress are numbered by `C`. -/
structure Waits (T C : Type) where
  waitQueue : ℕ → List T
  threads : T → WaitThread
  /-- The wake queues of the calls of `thread_wakeup_prim`. -/
  wakers : C → Option (ThreadResult × List T)
  clearing : C → Option (Clear T)
  /-- `thread_wakeup_prim` or `thread_dispatch` has panicked. -/
  panicked : Bool
  /-- `thread_setrun` has been called on a thread that is runnable. -/
  rerun : Bool

namespace Waits

variable {T C : Type} [DecidableEq T] [DecidableEq C]

/-- The fields of a thread are written. -/
def put (s : Waits T C) (t : T) (th : WaitThread) : Waits T C :=
  { s with threads := update s.threads t th }

/-- The end of a wait. -/
def endWait (s : Waits T C) (t : T) (result : ThreadResult) : Waits T C :=
  { s.put t ((s.threads t).endWait result) with rerun := s.rerun || (s.threads t).reruns }

/-- `__assert_wait`, by the thread itself; `none` stands for its panic. -/
def assertWait (s : Waits T C) (t : T) (event : BitVec 32) (interruptible first : Bool) :
    Option (Waits T C) :=
  let th := s.threads t
  if th.waitEvent ≠ noEvent then none
  else
    let th := { th with
      wait := true
      unint := th.unint || !interruptible
      waitId := th.waitId + 1 }
    if event ≠ noEvent then
      let index := waitHash event
      let q := if first then t :: s.waitQueue index else s.waitQueue index ++ [t]
      let s := { s with waitQueue := update s.waitQueue index q }
      some (s.put t { th with waitEvent := event })
    else some (s.put t th)

/-- The loop of `thread_wakeup_prim` over a wait queue: the threads to wake, and those that stay. -/
def wakeupScan (oneThread : Bool) (wakes : T → Bool) : List T → List T × List T
  | [] => ([], [])
  | t :: q =>
    if wakes t then
      if oneThread then ([t], q)
      else (t :: (wakeupScan oneThread wakes q).1, (wakeupScan oneThread wakes q).2)
    else ((wakeupScan oneThread wakes q).1, t :: (wakeupScan oneThread wakes q).2)

/-- `thread_wakeup_prim` with the lock of the wait queue held. -/
def wakeup (s : Waits T C) (c : C) (event : BitVec 32) (oneThread : Bool) (result : ThreadResult) :
    Waits T C :=
  let index := waitHash event
  let r := wakeupScan oneThread (fun t => decide ((s.threads t).waitEvent = event)) (s.waitQueue index)
  { s with
    waitQueue := update s.waitQueue index r.2
    threads := fun t => if t ∈ r.1 then { s.threads t with waitEvent := wakingEvent } else s.threads t
    wakers := update s.wakers c (some (result, r.1)) }

/-- `thread_wakeup_prim` wakes the next thread of its wake queue, or returns. -/
def wakeupNext (s : Waits T C) (c : C) : Option (Waits T C) :=
  match s.wakers c with
  | none => none
  | some (_, []) => some { s with wakers := update s.wakers c none }
  | some (result, t :: rest) =>
    let s := { s with wakers := update s.wakers c (some (result, rest)) }
    if (s.threads t).wake = .notWaiting then some { s with panicked := true }
    else
      let s := s.endWait t result
      some (s.put t { s.threads t with waitEvent := noEvent })

/-- `clear_wait_locked`, up to where it drops the lock of the thread; `aim` is the wait that it is to
end. -/
def clearWaitLocked (s : Waits T C) (c : C) (t : T) (result : ThreadResult) (interruptOnly : Bool)
    (aim : ℕ) : Waits T C :=
  let th := s.threads t
  if interruptOnly = true ∧ th.unint = true then s
  else if th.waitEvent = wakingEvent then s
  else if th.waitEvent ≠ noEvent then
    { s with clearing := update s.clearing c (some ⟨t, th.waitEvent, result, aim⟩) }
  else s.endWait t result

/-- `clear_wait_locked` once it holds the locks of the wait queue and of the thread. -/
def clearWaitRelocked (s : Waits T C) (c : C) (op : Clear T) : Waits T C :=
  let s := { s with clearing := update s.clearing c none }
  if (s.threads op.thread).waitEvent = op.event then
    let index := waitHash op.event
    let s := { s with
      waitQueue := update s.waitQueue index ((s.waitQueue index).erase op.thread) }
    (s.put op.thread { s.threads op.thread with waitEvent := noEvent }).endWait op.thread op.result
  else s

/-- `thread_set_timeout`, by the thread itself; `none` stands for its failed assertion. -/
def threadSetTimeout (s : Waits T C) (t : T) : Option (Waits T C) :=
  let th := s.threads t
  if th.wait = false then some s
  else if th.timer = .set then none
  else some (s.put t { th with timer := .set, timerFor := th.waitId })

/-- `softclock` takes an expired timer off its list. -/
def softclock (s : Waits T C) (t : T) : Option (Waits T C) :=
  let th := s.threads t
  if th.timer = .set then
    some (s.put t { th with timer := .pending, expired := update th.expired th.timerFor true })
  else none

def threadTimeout (s : Waits T C) (c : C) (t : T) : Waits T C :=
  let th := s.threads t
  if th.timer = .pending then
    (s.put t { th with timer := .unset }).clearWaitLocked c t .timedOut false th.timerFor
  else s

/-- `thread_setrun`, from where it is called for a thread that has been taken off a processor or has
been stopped. -/
def threadSetrun (s : Waits T C) (t : T) : Waits T C :=
  { s.put t { s.threads t with place := .queued } with
    rerun := s.rerun || (s.threads t).place.runnable }

def threadDispatch (s : Waits T C) (t : T) : Waits T C :=
  let th := s.threads t
  match th.run, th.wait, th.unint with
  | true, false, _ => s.threadSetrun t
  | true, true, _ | false, true, false => s.put t { th with run := false, place := .blocked }
  | _, _, _ => { s with panicked := true }

def threadUnstop (s : Waits T C) (t : T) : Waits T C :=
  let th := s.threads t
  if th.run = false ∧ th.wait = false ∧ th.susp = true then
    (s.put t { th with susp := false, run := true }).threadSetrun t
  else s.put t { th with susp := false }

/-- The steps. -/
inductive Act (T C : Type)
  | assertWait (t : T) (event : BitVec 32) (interruptible first : Bool)
  | wakeup (c : C) (event : BitVec 32) (oneThread : Bool) (result : ThreadResult)
  | wakeupNext (c : C)
  | clearWait (c : C) (t : T) (result : ThreadResult) (interruptOnly : Bool)
  | clearWaitRelocked (c : C)
  | threadSetTimeout (t : T)
  | softclock (t : T)
  | threadTimeout (c : C) (t : T)
  | leave (t : T)
  | threadDispatch (t : T)
  | invoke (t : T)
  | threadStop (t : T)
  | threadUnstop (t : T)

/-- One step. -/
def step (s : Waits T C) : Act T C → Option (Waits T C)
  | .assertWait t event interruptible first =>
    if (s.threads t).place = .running ∧ event ≠ wakingEvent then
      s.assertWait t event interruptible first
    else none
  | .wakeup c event oneThread result =>
    if s.wakers c = none ∧ result ≠ .timedOut then some (s.wakeup c event oneThread result) else none
  | .wakeupNext c => s.wakeupNext c
  | .clearWait c t result interruptOnly =>
    if (s.clearing c).isNone ∧ result ≠ .timedOut then
      some (s.clearWaitLocked c t result interruptOnly (s.threads t).waitId)
    else none
  | .clearWaitRelocked c => (s.clearing c).map fun op => s.clearWaitRelocked c op
  | .threadSetTimeout t =>
    if (s.threads t).place = .running then s.threadSetTimeout t else none
  | .softclock t => s.softclock t
  | .threadTimeout c t => if (s.clearing c).isNone then some (s.threadTimeout c t) else none
  | .leave t =>
    if (s.threads t).place = .running then some (s.put t { s.threads t with place := .leaving })
    else none
  | .threadDispatch t =>
    if (s.threads t).place = .leaving then some (s.threadDispatch t) else none
  | .invoke t =>
    if (s.threads t).place = .queued then
      some (s.put t { s.threads t with place := .running, unint := false })
    else none
  | .threadStop t => some (s.put t { s.threads t with susp := true })
  | .threadUnstop t => some (s.threadUnstop t)

end Waits

end Osfmk

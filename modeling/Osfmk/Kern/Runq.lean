import Mathlib

/-!
# Run queues

The run queues of `kern/sched_prim.c`: one queue of threads for each priority, a bitmap of the queues
that are not empty, the first of them, and two counts.  Every processor and every processor set has a
run queue.
-/

namespace Osfmk

/-- `NRQS`, with and without `MACH_RT`. -/
def nrqs (machRt : Bool) : ℕ := if machRt then 128 else 32

def lpri (machRt : Bool) : ℕ := nrqs machRt - 3

/-- `DEPRESSPRI`, which is `MINPRI`. -/
def depressPri (machRt : Bool) : ℕ := nrqs machRt - 2

def idlePri (machRt : Bool) : ℕ := nrqs machRt - 1

/-- `struct run_queue`. -/
structure RunQueue (T : Type) where
  runq : ℕ → List T
  bitmap : ℕ → Bool
  low : ℕ
  count : ℤ
  depressCount : ℤ

/-- The loop of `ffsbit`; it does not get to the end. -/
def ffsFrom (bits : ℕ → Bool) : ℕ → ℕ → ℕ
  | 0, _ => 0
  | fuel + 1, offset => if bits offset then offset else ffsFrom bits fuel (offset + 1)

def ffsbit (machRt : Bool) (bits : ℕ → Bool) : ℕ := ffsFrom bits (nrqs machRt) 0

namespace RunQueue

variable {T : Type}

/-- The run queue that `pset_init` and `processor_init` set up. -/
def init (machRt : Bool) : RunQueue T where
  runq _ := []
  bitmap := Function.update (fun _ => false) (idlePri machRt) true
  low := idlePri machRt
  count := 0
  depressCount := 0

/-- `run_queue_enqueue`, with the number of the queue. -/
def enqueue (machRt : Bool) (rq : RunQueue T) (th : T) (whichq : ℕ) (tail : Bool) : RunQueue T where
  runq := Function.update rq.runq whichq
    (if tail then rq.runq whichq ++ [th] else th :: rq.runq whichq)
  bitmap := Function.update rq.bitmap whichq true
  low := if whichq < rq.low then whichq else rq.low
  count := rq.count + 1
  depressCount := if whichq = depressPri machRt then rq.depressCount + 1 else rq.depressCount

/-- What `rem_runq` and the two routines that choose a thread do after they have unlinked a thread:
`queue` is where they look whether it was the last one. -/
def update (machRt : Bool) (rq : RunQueue T) (runq : ℕ → List T) (whichq queue : ℕ) : RunQueue T :=
  let bitmap := if runq queue = [] then Function.update rq.bitmap queue false else rq.bitmap
  { runq := runq
    bitmap := bitmap
    low := if runq queue = [] then ffsbit machRt bitmap else rq.low
    count := rq.count - 1
    depressCount := if whichq = depressPri machRt then rq.depressCount - 1 else rq.depressCount }

end RunQueue

open Function (update)

/-- The policies. -/
inductive Policy
  | timeshare
  | rr
  | fifo
  deriving DecidableEq

/-- `processor->state`. -/
inductive ProcState
  | offLine
  | running
  | idle
  | dispatching
  | assign
  | shutdown
  deriving DecidableEq

/-- A run queue is part of a processor or of a processor set. -/
inductive RunqId (P S : Type)
  | processor (p : P)
  | pset (s : S)
  deriving DecidableEq

/-- The processors `P`, processor sets `S` and threads `T`. -/
structure Sched (P S T : Type) where
  rq : RunqId P S → RunQueue T
  schedPri : T → ℤ
  runq : T → Option (RunqId P S)
  whichq : T → ℕ
  policy : T → Policy
  priority : T → ℤ
  depressPriority : T → ℤ
  cpuUsage : T → BitVec 32
  schedUsage : T → BitVec 32
  cpuDelta : T → BitVec 32
  schedDelta : T → BitVec 32
  schedStamp : T → BitVec 32
  boundProcessor : T → Option P
  threadPset : T → S
  schedTick : BitVec 32
  state : P → ProcState
  nextThread : P → Option T
  procPset : P → S
  idleThread : P → T
  /-- The processors on the idle queue; `idle_count` is their number. -/
  idleQueue : S → List P
  masterProcessor : P

namespace Sched

variable {P S T : Type} [DecidableEq P] [DecidableEq S] [DecidableEq T] (machRt : Bool)

/-- `run_queue_enqueue`; `none` stands for its panic. -/
def runQueueEnqueue (s : Sched P S T) (rq : RunqId P S) (th : T) (tail : Bool) :
    Option (Sched P S T) :=
  if s.schedPri th < 0 ∨ s.schedPri th > depressPri machRt then none
  else
    let whichq := (s.schedPri th).toNat
    some { s with
      rq := update s.rq rq ((s.rq rq).enqueue machRt th whichq tail)
      runq := update s.runq th (some rq)
      whichq := update s.whichq th whichq }

/-- `rem_runq`; it returns the run queue that the thread was on. -/
def remRunq (s : Sched P S T) (th : T) : Sched P S T × Option (RunqId P S) :=
  match s.runq th with
  | none => (s, none)
  | some rq =>
    let runq := fun p => ((s.rq rq).runq p).erase th
    ({ s with
      rq := update s.rq rq
        ((s.rq rq).update machRt runq (s.whichq th) (s.schedPri th).toNat)
      runq := update s.runq th none }, some rq)

/-- The first thread of the queue `low` is taken off. -/
def takeLow (s : Sched P S T) (rq : RunqId P S) : Option (Sched P S T × T) :=
  let low := (s.rq rq).low
  match (s.rq rq).runq low with
  | [] => none
  | th :: rest =>
    some ({ s with
      rq := update s.rq rq
        ((s.rq rq).update machRt (update (s.rq rq).runq low rest) (s.whichq th) low)
      runq := update s.runq th none }, th)

/-- `choose_pset_thread`; `none` stands for its panic. -/
def choosePsetThread (s : Sched P S T) (myprocessor : P) (pset : S) : Option (Sched P S T × T) :=
  if (s.rq (.pset pset)).count > 0 then takeLow machRt s (.pset pset)
  else if s.state myprocessor = .running then
    some ({ s with
      state := update s.state myprocessor .idle
      idleQueue := update s.idleQueue pset
        (if myprocessor = s.masterProcessor then s.idleQueue pset ++ [myprocessor]
          else myprocessor :: s.idleQueue pset) }, s.idleThread myprocessor)
  else some (s, s.idleThread myprocessor)

def chooseThread (s : Sched P S T) (myprocessor : P) : Option (Sched P S T × T) :=
  let runq := s.rq (.processor myprocessor)
  let pset := s.procPset myprocessor
  if runq.count > 0 ∧ runq.low ≤ (s.rq (.pset pset)).low then takeLow machRt s (.processor myprocessor)
  else choosePsetThread machRt s myprocessor pset

/-- `do_priority_computation`, with `PRI_SHIFT` 18 and `SCHED_SHIFT` 7. -/
def doPriorityComputation (s : Sched P S T) (th : T) : ℤ :=
  let pri := s.priority th + ((s.schedUsage th) >>> (18 + 7)).toNat
  if pri > lpri machRt then lpri machRt else pri

def waitShift : List (ℕ × ℤ) :=
  [(1, 1), (1, 3), (1, -3), (2, -7), (3, 5), (3, -5), (4, -8), (5, 7), (5, -7), (6, -10), (7, 10),
    (7, -9), (8, -11), (9, 12), (9, -11), (10, -13), (11, 14), (11, -13), (12, -15), (13, 17),
    (13, -15), (14, -17), (15, 19), (16, 18), (16, -19), (17, 22), (18, 20), (18, -20), (19, 26),
    (20, 22), (20, -22), (21, -27)]

/-- A usage that has aged for some ticks. -/
def age (ticks : BitVec 32) (usage : BitVec 32) : BitVec 32 :=
  let (shift1, shift2) := waitShift.getD ticks.toNat (0, 0)
  if shift2 > 0 then (usage >>> shift1) + (usage >>> shift2.toNat)
  else (usage >>> shift1) - (usage >>> (-shift2).toNat)

/-- The first part of `update_priority`; `delta` is what `thread_timer_delta` adds to `cpu_delta` and
to `sched_delta`. -/
def ageUsage (s : Sched P S T) (th : T) (delta : BitVec 32 × BitVec 32) : Sched P S T :=
  let ticks := s.schedTick - s.schedStamp th
  let cpu := s.cpuUsage th + (s.cpuDelta th + delta.1)
  let sched := s.schedUsage th + (s.schedDelta th + delta.2)
  { s with
    schedStamp := update s.schedStamp th (s.schedStamp th + ticks)
    cpuUsage := update s.cpuUsage th (if ticks > 30 then 0 else age ticks cpu)
    schedUsage := update s.schedUsage th (if ticks > 30 then 0 else age ticks sched)
    cpuDelta := update s.cpuDelta th 0
    schedDelta := update s.schedDelta th 0 }

/-- Where a routine runs: `current_processor` and `current_thread`, and what `thread_timer_delta`
finds. -/
structure Env (P T : Type) where
  processor : P
  thread : T
  delta : BitVec 32 × BitVec 32

/-- A thread is dispatched onto an idle processor. -/
def dispatch (s : Sched P S T) (processor : P) (pset : S) (th : T) : Sched P S T :=
  { s with
    idleQueue := update s.idleQueue pset ((s.idleQueue pset).erase processor)
    nextThread := update s.nextThread processor (some th)
    state := update s.state processor .dispatching }

/-- The preemption check of `thread_setrun`: a processor that is being dispatched gets the thread, and
the one it would have got is put on the run queue instead. -/
def preempt (s : Sched P S T) (processor : P) (th : T) : Option (Sched P S T × T) :=
  if s.state processor = .dispatching then
    match s.nextThread processor with
    | none => none
    | some curTh => some ({ s with nextThread := update s.nextThread processor (some th) }, curTh)
  else some (s, th)

/-- `thread_setrun` after the update of the priority. -/
def setrunUpdated (s : Sched P S T) (env : Env P T) (th : T) (mayPreempt tail : Bool) :
    Option (Sched P S T) :=
  match s.boundProcessor th with
  | none =>
    let pset := s.threadPset th
    match s.idleQueue pset with
    | processor :: _ => some (s.dispatch processor pset th)
    | [] =>
      if mayPreempt = true ∧ pset = s.procPset env.processor ∧ s.schedPri env.thread > s.schedPri th then
        (s.preempt env.processor th).bind fun (s, th) =>
          runQueueEnqueue machRt s (.pset pset) th tail
      else runQueueEnqueue machRt s (.pset pset) th tail
  | some processor =>
    if s.state processor = .idle then some (s.dispatch processor (s.procPset processor) th)
    else if processor = env.processor ∧
        (s.boundProcessor env.thread = none ∨ s.schedPri env.thread > s.schedPri th) then
      (s.preempt processor th).bind fun (s, th) =>
        runQueueEnqueue machRt s (.processor processor) th tail
    else runQueueEnqueue machRt s (.processor processor) th tail

/-- `update_priority`. -/
def updatePriority (s : Sched P S T) (env : Env P T) (th : T) : Option (Sched P S T) :=
  let s := s.ageUsage th env.delta
  if s.policy th = .timeshare ∧ s.depressPriority th < 0 then
    let tempPri := doPriorityComputation machRt s th
    let (s, rq) := remRunq machRt s th
    let s := { s with schedPri := update s.schedPri th tempPri }
    if rq.isSome then setrunUpdated machRt s env th true true else some s
  else some s

def threadSetrun (s : Sched P S T) (env : Env P T) (th : T) (mayPreempt tail : Bool) :
    Option (Sched P S T) :=
  (if s.schedStamp th ≠ s.schedTick then updatePriority machRt s env th else some s).bind fun s =>
    setrunUpdated machRt s env th mayPreempt tail

def setPri (s : Sched P S T) (env : Env P T) (th : T) (pri : ℤ) (resched : Bool) :
    Option (Sched P S T) :=
  let (s, rq) := remRunq machRt s th
  let s := { s with schedPri := update s.schedPri th pri }
  match rq with
  | none => some s
  | some rq =>
    if resched then threadSetrun machRt s env th true true else runQueueEnqueue machRt s rq th true

def computePriority (s : Sched P S T) (env : Env P T) (th : T) (resched : Bool) :
    Option (Sched P S T) :=
  if s.policy th = .timeshare then
    let pri := doPriorityComputation machRt s th
    if s.depressPriority th < 0 then setPri machRt s env th pri resched
    else some { s with depressPriority := update s.depressPriority th pri }
  else setPri machRt s env th (s.priority th) resched

def threadDepressPriority (s : Sched P S T) (th : T) : Sched P S T :=
  { s with
    depressPriority := if s.depressPriority th < 0 then
      update s.depressPriority th (s.priority th) else s.depressPriority
    priority := update s.priority th (depressPri machRt)
    schedPri := update s.schedPri th (depressPri machRt) }

/-- The base priority of a thread before its depression. -/
def undepress (s : Sched P S T) (th : T) : Sched P S T :=
  { s with
    priority := update s.priority th (s.depressPriority th)
    depressPriority := update s.depressPriority th (-1) }

def threadDepressTimeout (s : Sched P S T) (env : Env P T) (th : T) : Option (Sched P S T) :=
  if 0 ≤ s.depressPriority th then computePriority machRt (s.undepress th) env th false
  else if s.depressPriority th = -2 then
    some { s with depressPriority := update s.depressPriority th (-1) }
  else some s

/-- `thread_depress_abort_fast`. -/
def threadDepressAbort (s : Sched P S T) (env : Env P T) (th : T) : Option (Sched P S T) :=
  if 0 ≤ s.depressPriority th then computePriority machRt (s.undepress th) env th true
  else if s.depressPriority th = -2 then
    computePriority machRt { s with depressPriority := update s.depressPriority th (-1) } env
      th true
  else some s

/-- The inner loop of `do_runq_scan`; `.error` stands for its return when there is no more room. -/
def scanQueue (stuck locks : T → Bool) : List T → ℤ → List T → Except (List T) (ℤ × List T)
  | [], count, found => .ok (count, found)
  | thread :: rest, count, found =>
    if stuck thread then
      -- `MAX_STUCK_THREADS`
      if found.length = 64 then .error found
      else scanQueue stuck locks rest (count - 1) (if locks thread then found ++ [thread] else found)
    else scanQueue stuck locks rest (count - 1) found

/-- The outer loop of `do_runq_scan`, from a queue on; `none` means that it leaves the array of the
queues. -/
def scanFrom (stuck locks : T → Bool) (rq : RunQueue T) : ℕ → ℕ → ℤ → List T → Option (Bool × List T)
  | fuel, q, count, found =>
    if count > 0 then
      match fuel with
      | 0 => none
      | fuel + 1 =>
        match scanQueue stuck locks (rq.runq q) count found with
        | .error found => some (true, found)
        | .ok (count, found) => scanFrom stuck locks rq fuel (q + 1) count found
    else some (false, found)

/-- `do_runq_scan`: whether it ran out of space, and the threads it found. -/
def doRunqScan (stuck locks : T → Bool) (rq : RunQueue T) (found : List T) : Option (Bool × List T) :=
  scanFrom stuck locks rq (nrqs machRt - rq.low) rq.low rq.count found

end Sched

end Osfmk

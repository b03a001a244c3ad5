import Osfmk.Lib.Census
import Osfmk.Kern.Clock

/-!
# Semaphores

`kern/sync_sema.c` and `kern/sync_policy.c`, one semaphore and the threads that use it.  A step is a
section under the lock of the semaphore, or the wakening of a thread by someone else.
-/

open Osfmk.Trace (of_guard)
open Function (update update_eq_self update_of_ne update_self)
open List

namespace Osfmk

open Census

/-- The policies of `sync_policy_enqueue`. -/
inductive SyncPolicy
  | fifo
  | fixedPriority
  deriving DecidableEq

/-- `thread->wait_result`, as far as a waiter on a semaphore can find it. -/
inductive WaitResult
  | success
  | timedOut
  | interrupted
  | destroyed
  deriving DecidableEq

/-- Where a thread is in `semaphore_wait_common`. -/
inductive SemaPc
  | out
  /-- It has queued itself, and has not read `wait_link.prev` yet. -/
  | blocked
  /-- It has found `SEMAPHORE_OPERATION_ABORTED`, and waits for the lock. -/
  | aborted
  deriving DecidableEq

/-- What `semaphore_wait_common` returns. -/
inductive SemaReturn
  | terminated
  | invalidValue
  | operationTimedOut
  | aborted
  | result (r : WaitResult)
  deriving DecidableEq

/-- A signed number of 32 bits. -/
def int32 (n : ℤ) : ℤ := (n + 2 ^ 31) % 2 ^ 32 - 2 ^ 31

/-- `struct semaphore`, the threads, and a history of the calls. -/
structure Sema (T : Type) where
  count : ℤ
  active : Bool
  blockedThreads : List T
  policy : SyncPolicy
  priority : T → ℕ
  waitLinkPrev : T → Bool
  /-- The thread has asserted a wait, and nobody has cleared it. -/
  waiting : T → Bool
  timed : T → Bool
  waitResult : T → WaitResult
  pc : T → SemaPc
  /-- A thread was taken off the queue that was not on it, or one off an empty queue. -/
  corrupt : Bool
  signals : ℕ
  successes : ℕ
  returned : Option SemaReturn

namespace Sema

variable {T : Type} [DecidableEq T]

def semaphoreCreate (policy : SyncPolicy) (value : ℤ) (priority : T → ℕ) : Sema T where
  count := value
  active := true
  blockedThreads := []
  policy := policy
  priority := priority
  waitLinkPrev _ := false
  waiting _ := false
  timed _ := false
  waitResult _ := .success
  pc _ := .out
  corrupt := false
  signals := 0
  successes := 0
  returned := none

/-- `sync_policy_enqueue` with `SYNC_POLICY_FIXED_PRIORITY`: before the first thread with a greater
number. -/
def insertByPriority (priority : T → ℕ) (thread : T) : List T → List T
  | [] => [thread]
  | scan :: rest =>
    if priority scan ≤ priority thread then scan :: insertByPriority priority thread rest
    else thread :: scan :: rest

def syncPolicyEnqueue (policy : SyncPolicy) (priority : T → ℕ) (queue : List T) (thread : T) : List T :=
  match policy with
  | .fixedPriority => insertByPriority priority thread queue
  | .fifo => queue ++ [thread]

def syncPolicyRemqueue (s : Sema T) (thread : T) : Sema T :=
  if thread ∈ s.blockedThreads then
    { s with blockedThreads := s.blockedThreads.erase thread }
  else { s with corrupt := true }

/-- `clear_wait`: a thread that does not wait any more keeps its result. -/
def clearWait (s : Sema T) (thread : T) (result : WaitResult) : Sema T :=
  if s.waiting thread then
    { s with
      waiting := update s.waiting thread false
      waitResult := update s.waitResult thread result }
  else s

/-- `SEMAPHORE_OPERATION_COMPLETE` and `clear_wait`. -/
def complete (s : Sema T) (thread : T) (result : WaitResult) : Sema T :=
  clearWait { s with waitLinkPrev := update s.waitLinkPrev thread false } thread result

/-- `semaphore->count++`, and the first thread of the queue is woken. -/
def dequeue (s : Sema T) (result : WaitResult) : Sema T :=
  match s.blockedThreads with
  | [] => { s with count := int32 (s.count + 1), corrupt := true }
  | thread :: rest =>
    complete { s with count := int32 (s.count + 1), blockedThreads := rest } thread result

/-- The loop of `semaphore_destroy`. -/
def destroyLoop : ℕ → Sema T → Sema T
  | 0, s => s
  | fuel + 1, s =>
    if s.count < 0 then destroyLoop fuel (dequeue s .destroyed)
    else { s with count := int32 (s.count + 1) }

def semaphoreDestroy (s : Sema T) : Sema T :=
  if s.active = false then s
  else
    let s := { s with active := false }
    if s.count < 0 then destroyLoop ((-s.count).toNat + 1) s else s

def semaphoreSignal (s : Sema T) : Sema T :=
  if s.active = false then s
  else
    let s := { s with signals := s.signals + 1 }
    if 0 ≤ s.count then { s with count := int32 (s.count + 1) } else dequeue s .success

/-- The loop of `semaphore_signal_all`. -/
def signalLoop : ℕ → Sema T → Sema T
  | 0, s => s
  | fuel + 1, s =>
    if 0 ≤ s.count then { s with count := int32 (s.count + 1) }
    else
      let s := dequeue s .success
      if s.count < 0 then signalLoop fuel s else s

def semaphoreSignalAll (s : Sema T) : Sema T :=
  if s.active = false then s
  else { signalLoop ((-s.count).toNat + 1) s with count := 0 }

/-- `semaphore_signal_thread`, which returns `KERN_NOT_WAITING` for a thread that is not on the
queue. -/
def semaphoreSignalThread (s : Sema T) (thread : T) : Sema T :=
  if s.active = false then s
  else if thread ∈ s.blockedThreads then
    let s := { s with signals := s.signals + 1 }
    let s := { s with
      blockedThreads := s.blockedThreads.erase thread, count := int32 (s.count + 1) }
    complete s thread .success
  else s

/-- The computation of `ticks_to_wait`, an `int`, which is compared with the seconds as an unsigned
number; `none` is a wait without a timeout. -/
def waitTicks (hz : ℕ) (waitTime : TvalSpec) : Except SemaReturn (Option ℤ) :=
  if waitTime.bad then .error .invalidValue
  else
    let ticks := waitTime.tvSec * hz % 2 ^ 32
    if ticks < waitTime.tvSec then .ok none
    else
      let t := int32 (int32 ticks + waitTime.tvNsec / 10 ^ 9 / hz)
      if t < int32 ticks then .ok none
      else if ticks = 0 then .error .operationTimedOut
      else .ok (some t)

/-- Whether there is a timeout; `semaphore_wait` has none. -/
def timeLimit (hz : ℕ) : Option TvalSpec → Except SemaReturn Bool
  | none => .ok false
  | some waitTime => (waitTicks hz waitTime).map Option.isSome

/-- A thread leaves `semaphore_wait_common`. -/
def leave (s : Sema T) (thread : T) (r : SemaReturn) : Sema T :=
  { s with
    pc := update s.pc thread .out
    returned := some r
    successes := if r = .result .success then s.successes + 1 else s.successes }

/-- `semaphore_wait_common` up to where the thread blocks. -/
def semaphoreWait (hz : ℕ) (s : Sema T) (thread : T) (waitTime : Option TvalSpec) : Sema T :=
  match timeLimit hz waitTime with
  | .error r => leave s thread r
  | .ok timed =>
    if s.active = false then leave s thread .terminated
    else
      let s := { s with count := int32 (s.count - 1) }
      if s.count < 0 then
        { s with
          blockedThreads := syncPolicyEnqueue s.policy s.priority s.blockedThreads thread
          waitLinkPrev := update s.waitLinkPrev thread true
          waiting := update s.waiting thread true
          timed := update s.timed thread timed
          pc := update s.pc thread .blocked }
      else leave s thread (.result .success)

/-- `semaphore_wait_common` after `thread_block`: the test without the lock. -/
def resume (s : Sema T) (thread : T) : Sema T :=
  if s.waitLinkPrev thread then { s with pc := update s.pc thread .aborted }
  else leave s thread (.result (s.waitResult thread))

/-- The section that an aborted thread enters. -/
def leaveAborted (s : Sema T) (thread : T) : Sema T :=
  let s :=
    if s.active then
      let s := syncPolicyRemqueue s thread
      { s with count := int32 (s.count + 1) }
    else s
  leave s thread (if s.waitResult thread = .timedOut then .operationTimedOut else .aborted)

/-- What can happen next. -/
inductive Act (T : Type)
  | wait (thread : T) (waitTime : Option TvalSpec)
  | resume (thread : T)
  | leaveAborted (thread : T)
  | signal
  | signalAll
  | signalThread (thread : T)
  | destroy
  /-- `clear_wait` with `THREAD_INTERRUPTED`, by someone else. -/
  | abort (thread : T)
  | timeout (thread : T)
  | setPriority (thread : T) (priority : ℕ)

/-- A step, if it is possible. -/
def step (hz : ℕ) (s : Sema T) : Act T → Option (Sema T)
  | .wait thread waitTime =>
    if s.pc thread = .out then some (semaphoreWait hz s thread waitTime) else none
  | .resume thread =>
    if s.pc thread = .blocked ∧ s.waiting thread = false then some (resume s thread) else none
  | .leaveAborted thread =>
    if s.pc thread = .aborted then some (leaveAborted s thread) else none
  | .signal => some (semaphoreSignal s)
  | .signalAll => some (semaphoreSignalAll s)
  | .signalThread thread => some (semaphoreSignalThread s thread)
  | .destroy => some (semaphoreDestroy s)
  | .abort thread => some (clearWait s thread .interrupted)
  | .timeout thread => if s.timed thread then some (clearWait s thread .timedOut) else none
  | .setPriority thread priority =>
    some { s with priority := update s.priority thread priority }

/-- A thread is in `semaphore_wait_common`, and has counted itself. -/
def isIn (s : Sema T) (thread : T) : Bool := decide (s.pc thread ≠ .out)

/-- The queue and the count fit. -/
structure Counted (s : Sema T) : Prop where
  neg : s.count < 0 → (s.blockedThreads.length : ℤ) = -s.count
  nonneg : 0 ≤ s.count → s.blockedThreads = []
  nodup : s.blockedThreads.Nodup
  inside : ∀ t ∈ s.blockedThreads, s.isIn t = true

/-- The count is the first one, with a signal more for each that succeeded, less the waits that
succeeded and the threads that have counted themselves and not returned. -/
def Balanced [Fintype T] (value : ℤ) (s : Sema T) : Prop :=
  s.count = value + s.signals - s.successes - tally s.isIn

/-- Signals take threads off the queue that still wait, and the count stays within an `int`. -/
def Apart (s : Sema T) : Act T → Prop
  | .wait _ _ => s.active = true → -2 ^ 31 < s.count
  | .signal => s.active = true →
      s.count < 2 ^ 31 - 1 ∧ ∀ t rest, s.blockedThreads = t :: rest → s.waiting t = true
  | .signalAll => s.active = true → ∀ t ∈ s.blockedThreads, s.waiting t = true
  | .signalThread thread => s.active = true → thread ∈ s.blockedThreads → s.waiting thread = true
  | _ => True

theorem int32_of_bounds {n : ℤ} (hl : -2 ^ 31 ≤ n) (hh : n < 2 ^ 31) : int32 n = n := by
  unfold int32
  omega

section

omit [DecidableEq T]

theorem insertByPriority_perm (priority : T → ℕ) (thread : T) (l : List T) :
    (insertByPriority priority thread l).Perm (thread :: l) := by
  induction l with
  | nil => exact .refl _
  | cons scan rest ih =>
    rw [insertByPriority]
    split
    · exact (ih.cons scan).trans (.swap thread scan rest)
    · exact .refl _

theorem syncPolicyEnqueue_perm (policy : SyncPolicy) (priority : T → ℕ) (queue : List T) (thread : T) :
    (syncPolicyEnqueue policy priority queue thread).Perm (thread :: queue) := by
  cases policy with
  | fixedPriority => exact insertByPriority_perm priority thread queue
  | fifo => exact perm_append_singleton thread queue

/-- A thread belongs on the queue. -/
def queued (s : Sema T) (t : T) : Bool :=
  match s.pc t with
  | .out => false
  | .blocked => s.waitLinkPrev t
  | .aborted => true

/-- What holds of an active semaphore. -/
structure Inv (s : Sema T) : Prop where
  lists : Lists s.blockedThreads s.queued
  /-- A thread that waits is on the queue, and has not been told that it was signalled. -/
  waits : ∀ t, s.waiting t = true → s.pc t = .blocked ∧ s.waitLinkPrev t = true
  /-- A thread that was told so has the result of a signal. -/
  signalled : ∀ t, s.pc t = .blocked → s.waitLinkPrev t = false → s.waitResult t = .success
  length : (s.blockedThreads.length : ℤ) = max (-s.count) 0
  low : -2 ^ 31 ≤ s.count
  high : s.count < 2 ^ 31

/-- What the steps other than `semaphore_signal_all` leave as it is. -/
def net [Fintype T] (s : Sema T) : ℤ := s.count - s.signals + s.successes + tally s.isIn

theorem Inv.counted {s : Sema T} (h : Inv s) : Counted s where
  neg hc := by have := h.length; omega
  nonneg hc := by
    have := h.length
    apply eq_nil_of_length_eq_zero
    omega
  nodup := h.lists.nodup
  inside t ht := by
    have hq := (h.lists.mem t).mp ht
    unfold queued at hq
    unfold isIn
    cases hp : s.pc t <;> simp [hp] at hq ⊢

theorem inv_create (policy : SyncPolicy) {value : ℤ} (h0 : 0 ≤ value) (h1 : value < 2 ^ 31)
    (priority : T → ℕ) : Inv (semaphoreCreate policy value priority) where
  lists := ⟨nodup_nil, fun t => by simp [semaphoreCreate, queued]⟩
  waits t ht := by cases ht
  signalled t ht := by cases ht
  length := by simp [semaphoreCreate, h0]
  low := by simp only [semaphoreCreate]; omega
  high := h1

end

section Steps

variable {s s' : Sema T} {t : T}

omit [DecidableEq T] in
theorem Inv.change (h : Inv s) (hpc : ∀ u, u ≠ t → s'.pc u = s.pc u)
    (hprev : ∀ u, u ≠ t → s'.waitLinkPrev u = s.waitLinkPrev u)
    (hwait : ∀ u, u ≠ t → s'.waiting u = s.waiting u)
    (hres : ∀ u, u ≠ t → s'.waitResult u = s.waitResult u)
    (hlists : (∀ u, u ≠ t → s'.queued u = s.queued u) → Lists s'.blockedThreads s'.queued)
    (hw : s'.waiting t = true → s'.pc t = .blocked ∧ s'.waitLinkPrev t = true)
    (hs : s'.pc t = .blocked → s'.waitLinkPrev t = false → s'.waitResult t = .success)
    (hlen : (s'.blockedThreads.length : ℤ) = max (-s'.count) 0)
    (hlow : -2 ^ 31 ≤ s'.count) (hhigh : s'.count < 2 ^ 31) : Inv s' where
  lists := hlists fun u hne => by simp only [queued, hpc u hne, hprev u hne]
  waits u hu := by
    rcases eq_or_ne u t with rfl | hne
    · exact hw hu
    · rw [hpc u hne, hprev u hne]
      exact h.waits u (by rw [← hwait u hne, hu])
  signalled u hu hp := by
    rcases eq_or_ne u t with rfl | hne
    · exact hs hu hp
    · rw [hres u hne]
      exact h.signalled u (by rw [← hpc u hne, hu]) (by rw [← hprev u hne, hp])
  length := hlen
  low := hlow
  high := hhigh

theorem Inv.clearWait (h : Inv s) (t : T) (r : WaitResult) : Inv (clearWait s t r) := by
  unfold Sema.clearWait
  split
  · next hw =>
    obtain ⟨hpc, hprev⟩ := h.waits t hw
    refine h.change (t := t) (fun _ _ => rfl) (fun _ _ => rfl)
      (fun u hne => update_of_ne hne ..) (fun u hne => update_of_ne hne ..)
      (fun _ => h.lists) (fun hw' => ?_) (fun _ hp => ?_) h.length h.low h.high
    · simp at hw'
    · exact absurd (hprev.symm.trans hp) (by decide)
  · exact h

theorem Inv.complete (h : Inv s) (hw : s.waiting t = true) {n : ℤ} (hn : n = s.count + 1) :
    Inv (Sema.complete { s with blockedThreads := s.blockedThreads.erase t, count := n } t
      .success) := by
  obtain ⟨hpc, hprev⟩ := h.waits t hw
  have hmem : t ∈ s.blockedThreads := by
    rw [h.lists.mem, queued, hpc]
    exact hprev
  have hlen : (s.blockedThreads.erase t).length = s.blockedThreads.length - 1 :=
    length_erase_of_mem hmem
  have hpos : 0 < s.blockedThreads.length := length_pos_of_mem hmem
  have hlength := h.length
  have hlow := h.low
  unfold Sema.complete Sema.clearWait
  rw [if_pos hw]
  refine h.change (t := t) (fun _ _ => rfl) (fun u hne => update_of_ne hne ..)
    (fun u hne => update_of_ne hne ..) (fun u hne => update_of_ne hne ..)
    (fun hq => h.lists.erase hq ?_) (fun hw' => ?_) (fun _ _ => update_self ..) ?_ ?_ ?_
  · simp [queued, hpc]
  · simp at hw'
  all_goals dsimp only; omega

theorem Inv.dequeue (h : Inv s) (hc : s.count < 0)
    (hw : ∀ u rest, s.blockedThreads = u :: rest → s.waiting u = true) :
    Inv (Sema.dequeue s .success) ∧ ∃ u ∈ s.blockedThreads, Sema.dequeue s .success =
      Sema.complete { s with
        blockedThreads := s.blockedThreads.erase u, count := s.count + 1 } u .success := by
  have hlength := h.length
  have hlow := h.low
  cases hq : s.blockedThreads with
  | nil =>
    rw [hq] at hlength
    simp only [length_nil] at hlength
    omega
  | cons u rest =>
    have hcount : int32 (s.count + 1) = s.count + 1 := int32_of_bounds (by omega) (by omega)
    have heq : Sema.dequeue s .success = Sema.complete { s with
        blockedThreads := s.blockedThreads.erase u, count := s.count + 1 } u .success := by
      rw [Sema.dequeue, hq, erase_cons_head]
      rw [hcount]
    refine ⟨?_, u, mem_cons_self, ?_⟩
    · rw [heq]
      exact h.complete (hw u rest hq) rfl
    · rw [heq, hq]

section Net

variable [Fintype T]

/-- What a step keeps, as long as the semaphore is active after it. -/
structure Keeps (s s' : Sema T) : Prop where
  corrupt : s'.corrupt = false
  inv : s'.active = true → Inv s'
  net : s'.active = true → s'.net = s.net

theorem tally_isIn (hpc : ∀ u, u ≠ t → s'.pc u = s.pc u) :
    tally s'.isIn = tally s.isIn - ind (s.isIn t) + ind (s'.isIn t) :=
  tally_change fun u hne => by simp only [isIn, hpc u hne]

omit [DecidableEq T] in
theorem net_of_pc (hpc : s'.pc = s.pc)
    (hc : s'.count - s'.signals + s'.successes = s.count - s.signals + s.successes) :
    s'.net = s.net := by
  have hin : s'.isIn = s.isIn := by
    funext u
    simp only [isIn, hpc]
  rw [Sema.net, hc, hin, Sema.net]

theorem net_change (hpc : ∀ u, u ≠ t → s'.pc u = s.pc u)
    (hc : s'.count - s'.signals + s'.successes + ind (s'.isIn t) =
      s.count - s.signals + s.successes + ind (s.isIn t)) : s'.net = s.net := by
  rw [Sema.net, Sema.net, tally_isIn hpc]
  omega

theorem clearWait_net (s : Sema T) (t : T) (r : WaitResult) :
    (Sema.clearWait s t r).net = s.net ∧ (Sema.clearWait s t r).corrupt = s.corrupt ∧
      (Sema.clearWait s t r).active = s.active := by
  unfold Sema.clearWait
  split <;> exact ⟨rfl, rfl, rfl⟩

theorem complete_net (s : Sema T) (t : T) (r : WaitResult) :
    (Sema.complete s t r).net = s.net ∧ (Sema.complete s t r).corrupt = s.corrupt ∧
      (Sema.complete s t r).active = s.active :=
  clearWait_net _ t r

theorem timeLimit_error {hz : ℕ} {waitTime : Option TvalSpec} {r : SemaReturn}
    (h : timeLimit hz waitTime = .error r) : r ≠ .result .success := by
  cases waitTime with
  | none => cases h
  | some tv =>
    rw [timeLimit, waitTicks] at h
    dsimp only at h
    split_ifs at h <;> cases h <;> decide

omit [Fintype T] in
theorem Inv.goOn (h : Inv s) (hw : s.waiting t = false) {pc : SemaPc} {r : Option SemaReturn} {n : ℕ}
    (hpc : pc ≠ .blocked) (hq : { s with pc := update s.pc t pc }.queued t = s.queued t) :
    Inv { s with pc := update s.pc t pc, returned := r, successes := n } := by
  refine h.change (t := t) (fun u hne => update_of_ne hne ..) (fun _ _ => rfl)
    (fun _ _ => rfl) (fun _ _ => rfl) (fun hothers => h.lists.congr fun u => ?_) (fun hw' => ?_)
    (fun hb => ?_) h.length h.low h.high
  · rcases eq_or_ne u t with rfl | hne
    · exact hq
    · exact hothers u hne
  · exact absurd (hw.symm.trans hw') (by decide)
  · exact absurd ((update_self ..).symm.trans hb) hpc

variable (hcorrupt : s.corrupt = false) (h : s.active = true → Inv s)
include hcorrupt h

theorem keeps_signal
    (hap : Apart s .signal) : Keeps s (semaphoreSignal s) := by
  rw [semaphoreSignal]
  split
  · exact ⟨hcorrupt, h, fun _ => rfl⟩
  next hact =>
  rw [Bool.not_eq_false] at hact
  obtain ⟨hbound, hhead⟩ := hap hact
  have hinv := h hact
  have hlow := hinv.low
  dsimp only
  split
  · next hc =>
    -- nobody waits
    have hcount : int32 (s.count + 1) = s.count + 1 := int32_of_bounds (by omega) (by omega)
    have hlength := hinv.length
    refine ⟨hcorrupt, fun _ => ?_, fun _ => ?_⟩
    · rw [hcount]
      refine ⟨hinv.lists, hinv.waits, hinv.signalled, ?_, ?_, ?_⟩
      all_goals dsimp only; omega
    · rw [hcount]
      refine net_of_pc (by rfl) ?_
      push_cast
      ring
  · next hc =>
    have hinv' : Inv { s with signals := s.signals + 1 } :=
      { hinv with low := hlow }
    obtain ⟨hdq, u, hu, heq⟩ := hinv'.dequeue (by dsimp only; omega) hhead
    obtain ⟨hnet, hcor, -⟩ := complete_net { s with
      signals := s.signals + 1, blockedThreads := s.blockedThreads.erase u
      count := s.count + 1 } u .success
    refine ⟨?_, fun _ => hdq, fun _ => ?_⟩
    · rw [heq, hcor]
      exact hcorrupt
    · rw [heq, hnet]
      refine net_of_pc (by rfl) ?_
      push_cast
      ring

theorem keeps_signalThread
    (hap : Apart s (.signalThread t)) : Keeps s (semaphoreSignalThread s t) := by
  rw [semaphoreSignalThread]
  split
  · exact ⟨hcorrupt, h, fun _ => rfl⟩
  next hact =>
  rw [Bool.not_eq_false] at hact
  have hinv := h hact
  split
  · next hmem =>
    have hlength := hinv.length
    have hpos : 0 < s.blockedThreads.length := length_pos_of_mem hmem
    have hlow := hinv.low
    have hcount : int32 (s.count + 1) = s.count + 1 := int32_of_bounds (by omega) (by omega)
    have hinv' : Inv { s with signals := s.signals + 1 } :=
      ⟨hinv.lists, hinv.waits, hinv.signalled, hlength, hlow, hinv.high⟩
    obtain ⟨hnet, hcor, -⟩ := complete_net { s with
      signals := s.signals + 1, blockedThreads := s.blockedThreads.erase t
      count := int32 (s.count + 1) } t .success
    refine ⟨by rw [hcor]; exact hcorrupt, fun _ => ?_, fun _ => ?_⟩
    · exact hinv'.complete (hap hact hmem) hcount
    · rw [hnet, hcount]
      refine net_of_pc (by rfl) ?_
      push_cast
      ring
  · exact ⟨hcorrupt, h, fun _ => rfl⟩

theorem keeps_wait {hz : ℕ} {waitTime : Option TvalSpec} (hpc : s.pc t = .out) (hap : Apart s (.wait t waitTime)) :
    Keeps s (semaphoreWait hz s t waitTime) := by
  have hout : ∀ r, r ≠ .result .success → Keeps s (leave s t r) := by
    intro r hr
    have hself : update s.pc t .out = s.pc := by rw [← hpc, update_eq_self]
    rw [leave, hself, if_neg hr]
    refine ⟨hcorrupt, fun hact => ?_, fun _ => rfl⟩
    have hinv := h hact
    exact { hinv with }
  rw [semaphoreWait]
  split
  · next r hr =>
    exact hout r (timeLimit_error hr)
  next timed _ =>
  split
  · exact hout _ (by decide)
  next hact =>
  rw [Bool.not_eq_false] at hact
  have hinv := h hact
  have hlow := hap hact
  have hhigh := hinv.high
  have hlength := hinv.length
  have hcount : int32 (s.count - 1) = s.count - 1 := int32_of_bounds (by omega) (by omega)
  dsimp only
  rw [hcount]
  split
  · next hc =>
    -- the thread queues itself
    have hperm := syncPolicyEnqueue_perm s.policy s.priority s.blockedThreads t
    have hold : s.queued t = false := by rw [queued, hpc]
    refine ⟨hcorrupt, fun _ => ?_, fun _ => ?_⟩
    · refine hinv.change (t := t) (fun u hne => update_of_ne hne ..)
        (fun u hne => update_of_ne hne ..) (fun u hne => update_of_ne hne ..)
        (fun _ _ => rfl) (fun hq => ?_) (fun _ => ⟨update_self .., update_self ..⟩)
        (fun _ hp => ?_) ?_ ?_ ?_
      · exact (hinv.lists.cons hq hold (by simp [queued])).perm hperm
      · simp at hp
      · rw [hperm.length_eq, length_cons]
        push_cast
        omega
      all_goals dsimp only; omega
    · refine net_change (t := t) (fun u hne => update_of_ne hne ..) ?_
      simp [isIn, hpc]
      omega
  · next hc =>
    have hself : update s.pc t .out = s.pc := by rw [← hpc, update_eq_self]
    rw [leave, if_pos rfl]
    rw [hself]
    refine ⟨hcorrupt, fun _ => ?_, fun _ => ?_⟩
    · refine ⟨hinv.lists, hinv.waits, hinv.signalled, ?_, ?_, ?_⟩
      all_goals dsimp only; omega
    · refine net_of_pc (by rfl) ?_
      push_cast
      ring

theorem keeps_resume
    (hpc : s.pc t = .blocked) (hw : s.waiting t = false) : Keeps s (resume s t) := by
  rw [resume]
  split
  · next hprev =>
    refine ⟨hcorrupt, fun hact => ?_, fun _ => ?_⟩
    · exact (h hact).goOn hw nofun (by simp [queued, hpc, hprev])
    · refine net_change (t := t) (fun u hne => update_of_ne hne ..) ?_
      simp [isIn, hpc]
  next hprev =>
  rw [Bool.not_eq_true] at hprev
  refine ⟨hcorrupt, fun hact => ?_, fun hact => ?_⟩
  · exact (h hact).goOn hw nofun (by simp [queued, hpc, hprev])
  · -- it was signalled, and succeeds
    have hres := (h hact).signalled t hpc hprev
    refine net_change (t := t) (fun u hne => update_of_ne hne ..) ?_
    simp [isIn, leave, hpc, hres]
    omega

theorem keeps_leaveAborted
    (hpc : s.pc t = .aborted) : Keeps s (leaveAborted s t) := by
  rw [leaveAborted]
  dsimp only
  split
  · next hact =>
    have hinv := h hact
    have hmem : t ∈ s.blockedThreads := by rw [hinv.lists.mem, queued, hpc]
    have hlen : (s.blockedThreads.erase t).length = s.blockedThreads.length - 1 :=
      length_erase_of_mem hmem
    have hpos : 0 < s.blockedThreads.length := length_pos_of_mem hmem
    have hlength := hinv.length
    have hlow := hinv.low
    have hw : s.waiting t = false := by
      by_contra hw
      rw [Bool.not_eq_false] at hw
      exact absurd ((hinv.waits t hw).1.symm.trans hpc) (by decide)
    have hcount : int32 (s.count + 1) = s.count + 1 := int32_of_bounds (by omega) (by omega)
    rw [syncPolicyRemqueue, if_pos hmem]
    rw [hcount, leave, if_neg (by split <;> decide)]
    refine ⟨hcorrupt, fun _ => ?_, fun _ => ?_⟩
    · refine hinv.change (t := t) (fun u hne => update_of_ne hne ..) (fun _ _ => rfl)
        (fun _ _ => rfl) (fun _ _ => rfl) (fun hq => hinv.lists.erase hq ?_) (fun hw' => ?_)
        (fun hb => ?_) ?_ ?_ ?_
      · simp [queued]
      · exact absurd (hw.symm.trans hw') (by decide)
      · simp at hb
      all_goals dsimp only; omega
    · refine net_change (t := t) (fun u hne => update_of_ne hne ..) ?_
      simp [isIn, hpc]
      omega
  · next hact => exact ⟨hcorrupt, fun hact' => absurd hact' hact, fun hact' => absurd hact' hact⟩

end Net

theorem complete_fields (s : Sema T) (t : T) (r : WaitResult) :
    (complete s t r).blockedThreads = s.blockedThreads ∧ (complete s t r).count = s.count ∧
      (complete s t r).corrupt = s.corrupt ∧ (complete s t r).active = s.active ∧
      ∀ u, u ≠ t → (complete s t r).waiting u = s.waiting u := by
  unfold complete clearWait
  split
  · exact ⟨rfl, rfl, rfl, rfl, fun u hne => update_of_ne hne ..⟩
  · exact ⟨rfl, rfl, rfl, rfl, fun _ _ => rfl⟩

theorem signalLoop_inv (fuel : ℕ) :
    ∀ s : Sema T, Inv s → s.corrupt = false → (∀ u ∈ s.blockedThreads, s.waiting u = true) →
      s.count < 2 ^ 31 - 1 → -s.count < fuel →
      Inv (signalLoop fuel s) ∧ (signalLoop fuel s).corrupt = false ∧ 0 ≤ (signalLoop fuel s).count := by
  induction fuel with
  | zero =>
    intro s h hcorrupt _ hhigh hfuel
    exact ⟨h, hcorrupt, by rw [signalLoop]; omega⟩
  | succ fuel ih =>
    intro s h hcorrupt hwait hhigh hfuel
    have hlength := h.length
    have hlow := h.low
    rw [signalLoop]
    split
    · next hc =>
      have hcount : int32 (s.count + 1) = s.count + 1 := int32_of_bounds (by omega) (by omega)
      rw [hcount]
      refine ⟨⟨h.lists, h.waits, h.signalled, ?_, ?_, ?_⟩, hcorrupt, ?_⟩
      all_goals dsimp only; omega
    next hc =>
    obtain ⟨hdq, u, hu, heq⟩ := h.dequeue (by omega)
      fun v rest hv => hwait v (by rw [hv]; exact mem_cons_self)
    obtain ⟨hq, hcount, hcor, -, hother⟩ := complete_fields { s with
      blockedThreads := s.blockedThreads.erase u, count := s.count + 1 } u .success
    rw [← heq] at hq hcount hcor hother
    dsimp only at hq hcount hcor hother ⊢
    split
    · apply ih _ hdq (by rw [hcor, hcorrupt])
      · intro v hv
        rw [hq] at hv
        obtain ⟨hne, hv⟩ := h.lists.nodup.mem_erase_iff.mp hv
        rw [hother v hne]
        exact hwait v hv
      · omega
      · push_cast at hfuel
        omega
    · exact ⟨hdq, by rw [hcor, hcorrupt], by omega⟩

omit [DecidableEq T] in
theorem Inv.reset (h : Inv s) (hc : 0 ≤ s.count) : Inv { s with count := 0 } := by
  refine ⟨h.lists, h.waits, h.signalled, ?_, by simp, by simp⟩
  have hlength := h.length
  dsimp only
  omega

theorem good_signalAll (hcorrupt : s.corrupt = false) (h : s.active = true → Inv s)
    (hap : Apart s .signalAll) :
    (semaphoreSignalAll s).corrupt = false ∧
      ((semaphoreSignalAll s).active = true → Inv (semaphoreSignalAll s)) := by
  rw [semaphoreSignalAll]
  split
  · exact ⟨hcorrupt, h⟩
  next hact =>
  rw [Bool.not_eq_false] at hact
  rcases lt_or_ge s.count 0 with hneg | hpos
  · obtain ⟨hinv, hcor, hc⟩ := signalLoop_inv ((-s.count).toNat + 1) s (h hact) hcorrupt (hap hact)
      (by omega) (by omega)
    exact ⟨hcor, fun _ => hinv.reset hc⟩
  · rw [signalLoop, if_pos hpos]
    exact ⟨hcorrupt, fun _ => (h hact).reset hpos⟩

theorem destroyLoop_corrupt (fuel : ℕ) :
    ∀ s : Sema T, s.corrupt = false → (s.blockedThreads.length : ℤ) = max (-s.count) 0 →
      -2 ^ 31 ≤ s.count → (destroyLoop fuel s).corrupt = false := by
  induction fuel with
  | zero => intro s hcorrupt _ _; exact hcorrupt
  | succ fuel ih =>
    intro s hcorrupt hlength hlow
    rw [destroyLoop]
    split
    · next hc =>
      have hcount : int32 (s.count + 1) = s.count + 1 := int32_of_bounds (by omega) (by omega)
      cases hq : s.blockedThreads with
      | nil =>
        rw [hq, length_nil] at hlength
        omega
      | cons u rest =>
        have heq : dequeue s .destroyed = complete { s with
            count := int32 (s.count + 1), blockedThreads := rest } u .destroyed := by
          rw [dequeue, hq]
        obtain ⟨hq', hcount', hcor, -, -⟩ := complete_fields { s with
          count := int32 (s.count + 1), blockedThreads := rest } u .destroyed
        rw [← heq] at hq' hcount' hcor
        dsimp only at hq' hcount' hcor
        rw [hq, length_cons] at hlength
        apply ih
        · rw [hcor, hcorrupt]
        · rw [hq', hcount', hcount]
          push_cast at hlength
          omega
        · rw [hcount', hcount]
          omega
    · exact hcorrupt

theorem dequeue_active (s : Sema T) (r : WaitResult) : (dequeue s r).active = s.active := by
  rw [dequeue]
  split
  · rfl
  · exact (complete_fields _ _ _).2.2.2.1

theorem destroyLoop_active (fuel : ℕ) : ∀ s : Sema T, (destroyLoop fuel s).active = s.active := by
  induction fuel with
  | zero => intro s; rfl
  | succ fuel ih =>
    intro s
    rw [destroyLoop]
    split
    · rw [ih, dequeue_active]
    · rfl

theorem signalLoop_active (fuel : ℕ) : ∀ s : Sema T, (signalLoop fuel s).active = s.active := by
  induction fuel with
  | zero => intro s; rfl
  | succ fuel ih =>
    intro s
    rw [signalLoop]
    split
    · rfl
    · dsimp only
      split
      · rw [ih, dequeue_active]
      · rw [dequeue_active]

theorem good_destroy (hcorrupt : s.corrupt = false) (h : s.active = true → Inv s) :
    (semaphoreDestroy s).corrupt = false ∧ (semaphoreDestroy s).active = false := by
  rw [semaphoreDestroy]
  split
  · next hact => exact ⟨hcorrupt, hact⟩
  next hact =>
  rw [Bool.not_eq_false] at hact
  have hinv := h hact
  dsimp only
  split
  · exact ⟨destroyLoop_corrupt _ _ hcorrupt hinv.length hinv.low, destroyLoop_active _ _⟩
  · exact ⟨hcorrupt, rfl⟩

section Runs

variable {hz : ℕ} {a : Act T}

theorem step_active (hs : step hz s a = some s') (hact : s'.active = true) : s.active = true := by
  cases a with
  | wait t waitTime =>
    obtain ⟨-, rfl⟩ := of_guard hs
    revert hact
    rw [semaphoreWait]
    dsimp only
    repeat' split
    all_goals exact id
  | resume t =>
    obtain ⟨-, rfl⟩ := of_guard hs
    revert hact
    rw [resume]
    split <;> exact id
  | leaveAborted t =>
    obtain ⟨-, rfl⟩ := of_guard hs
    revert hact
    rw [leaveAborted, syncPolicyRemqueue]
    repeat' split
    all_goals exact id
  | signal =>
    cases hs
    revert hact
    rw [semaphoreSignal]
    split
    · exact id
    dsimp only
    split
    · exact id
    · rw [dequeue_active]
      exact id
  | signalAll =>
    cases hs
    revert hact
    rw [semaphoreSignalAll]
    split
    · exact id
    · dsimp only
      rw [signalLoop_active]
      exact id
  | signalThread t =>
    cases hs
    revert hact
    rw [semaphoreSignalThread]
    split
    · exact id
    split
    · dsimp only
      rw [(complete_fields _ _ _).2.2.2.1]
      exact id
    · exact id
  | destroy =>
    cases hs
    by_contra hn
    rw [semaphoreDestroy, if_pos (Bool.not_eq_true _ ▸ hn)] at hact
    exact hn hact
  | abort t =>
    cases hs
    revert hact
    rw [clearWait]
    split <;> exact id
  | timeout t =>
    obtain ⟨-, rfl⟩ := of_guard hs
    revert hact
    rw [clearWait]
    split <;> exact id
  | setPriority t priority =>
    cases hs
    exact hact

/-- What every step keeps. -/
def Good (s : Sema T) : Prop := s.corrupt = false ∧ (s.active = true → Inv s)

variable [Fintype T]

omit [DecidableEq T] in
theorem Keeps.good (h : Keeps s s') : Good s' := ⟨h.corrupt, h.inv⟩

theorem keeps_clearWait (hg : Good s) (r : WaitResult) : Keeps s (clearWait s t r) := by
  obtain ⟨hnet, hcor, hact⟩ := clearWait_net s t r
  exact ⟨by rw [hcor, hg.1], fun ha => (hg.2 (by rw [← hact, ha])).clearWait t r, fun _ => hnet⟩

/-- **One step**: the invariant is kept, and the balance too unless everybody is signalled. -/
theorem step_good (hg : Good s) (hap : Apart s a) (hs : step hz s a = some s') :
    Good s' ∧ (a ≠ .signalAll → s'.active = true → s'.net = s.net) := by
  obtain ⟨hcorrupt, hinv⟩ := hg
  have hkeeps : Keeps s s' → Good s' ∧ (a ≠ .signalAll → s'.active = true → s'.net = s.net) :=
    fun hk => ⟨hk.good, fun _ => hk.net⟩
  cases a with
  | wait t waitTime =>
    obtain ⟨hpc, rfl⟩ := of_guard hs
    exact hkeeps (keeps_wait hcorrupt hinv hpc hap)
  | resume t =>
    obtain ⟨⟨hpc, hw⟩, rfl⟩ := of_guard hs
    exact hkeeps (keeps_resume hcorrupt hinv hpc hw)
  | leaveAborted t =>
    obtain ⟨hpc, rfl⟩ := of_guard hs
    exact hkeeps (keeps_leaveAborted hcorrupt hinv hpc)
  | signal =>
    cases hs
    exact hkeeps (keeps_signal hcorrupt hinv hap)
  | signalAll =>
    cases hs
    exact ⟨good_signalAll hcorrupt hinv hap, fun hne => absurd rfl hne⟩
  | signalThread t =>
    cases hs
    exact hkeeps (keeps_signalThread hcorrupt hinv hap)
  | destroy =>
    cases hs
    obtain ⟨hcor, hact⟩ := good_destroy hcorrupt hinv
    exact ⟨⟨hcor, fun ha => absurd (hact.symm.trans ha) (by decide)⟩,
      fun _ ha => absurd (hact.symm.trans ha) (by decide)⟩
  | abort t =>
    cases hs
    exact hkeeps (keeps_clearWait ⟨hcorrupt, hinv⟩ _)
  | timeout t =>
    obtain ⟨-, rfl⟩ := of_guard hs
    exact hkeeps (keeps_clearWait ⟨hcorrupt, hinv⟩ _)
  | setPriority t priority =>
    cases hs
    refine hkeeps ⟨hcorrupt, fun ha => ?_, fun _ => net_of_pc (by rfl) rfl⟩
    have h := hinv ha
    exact { h with }

/-- **The count and the queue of a semaphore fit.**  In every run in which no signal takes a thread
off the queue that an abort or a timeout has wakened, and the count stays within an `int`: no thread
is taken off the queue that is not on it, and while the semaphore is active its queue holds as many
distinct threads as its count is below zero, each in its wait. -/
theorem counted_of_run (policy : SyncPolicy) (value : ℤ) (h0 : 0 ≤ value) (h1 : value < 2 ^ 31)
    (priority : T → ℕ) {as : List (Act T)} {s : Sema T}
    (hm : Trace.Meets (step hz) Apart (semaphoreCreate policy value priority) as)
    (hr : Trace.run (step hz) (semaphoreCreate policy value priority) as = some s) :
    s.corrupt = false ∧ (s.active = true → Counted s ∧
      ((∀ a ∈ as, a ≠ .signalAll) → Balanced value s)) := by
  have hinit : Good (semaphoreCreate policy value priority) :=
    ⟨rfl, fun _ => inv_create policy h0 h1 priority⟩
  have hgood : Good s := Trace.invariant (fun _ _ _ hg hap hs => (step_good hg hap hs).1) as _ _
    hinit hm hr
  refine ⟨hgood.1, fun hact => ⟨(hgood.2 hact).counted, fun hall => ?_⟩⟩
  have hnet0 : (semaphoreCreate policy value priority).net = value := by
    simp [net, semaphoreCreate, tally, isIn]
  -- while it is active, the balance stays what it was at the beginning
  have hkept : Good s ∧ (s.active = true → s.net = value) := by
    refine Trace.invariant (I := fun s => Good s ∧ (s.active = true → s.net = value)) ?_ as _ _
      ⟨hinit, fun _ => hnet0⟩ (hm.and as _ hall) hr
    rintro s a s' ⟨hg, hnet⟩ ⟨hap, hne⟩ hs
    obtain ⟨hg', hkeep⟩ := step_good hg hap hs
    refine ⟨hg', fun ha => ?_⟩
    rw [hkeep hne ha]
    exact hnet (step_active hs ha)
  have hvalue := hkept.2 hact
  rw [net] at hvalue
  rw [Balanced]
  omega

/-- Two threads wait, one is signalled and the other aborted. -/
def signalOneAbortOther : List (Act Bool) :=
  [.wait true none, .wait false none, .signal, .resume true, .abort false, .resume false,
    .leaveAborted false]

theorem counted_of_run_two :
    ∃ s : Sema Bool, Trace.run (step 100) (semaphoreCreate .fifo 0 fun _ => 0)
        signalOneAbortOther = some s ∧
      s.corrupt = false ∧ Counted s ∧ Balanced 0 s := by
  obtain ⟨s, hs⟩ : ∃ s : Sema Bool, Trace.run (step 100) (semaphoreCreate .fifo 0 fun _ => 0)
      signalOneAbortOther = some s := ⟨_, rfl⟩
  have hm : Trace.Meets (step 100) Apart (semaphoreCreate .fifo 0 fun _ => 0)
      signalOneAbortOther := by
    refine ⟨fun _ => by decide, fun s1 h₁ => ?_⟩
    cases h₁
    refine ⟨fun _ => by decide, fun s2 h2 => ?_⟩
    cases h2
    refine ⟨fun _ => ⟨by decide, fun t rest hq => by cases hq; rfl⟩, fun s3 h3 => ?_⟩
    cases h3
    refine ⟨trivial, fun s4 h4 => ⟨trivial, fun s5 h5 => ⟨trivial, fun s6 h6 => ?_⟩⟩⟩
    exact ⟨trivial, fun _ _ => trivial⟩
  obtain ⟨hcorrupt, h⟩ := counted_of_run .fifo 0 (by decide) (by decide) (fun _ => 0) hm hs
  have hact : s.active = true := by cases hs; rfl
  refine ⟨s, hs, hcorrupt, (h hact).1, (h hact).2 fun a ha => ?_⟩
  simp only [signalOneAbortOther, mem_cons, not_mem_nil, or_false] at ha
  rcases ha with rfl | rfl | rfl | rfl | rfl | rfl | rfl <;> exact nofun

/-- A thread waits and is aborted, finds out, and is signalled before it has the lock: it is taken
off the queue twice, and the count is 1 although it was 0 at first, one signal was given and nobody
took it. -/
theorem signal_of_aborted :
    ∃ s : Sema Unit, Trace.run (step 100) (semaphoreCreate .fifo 0 fun _ => 0)
        [.wait () none, .abort (), .resume (), .signal, .leaveAborted ()] = some s ∧
      s.active = true ∧ s.corrupt = true ∧ s.count = 1 :=
  ⟨_, rfl, rfl, rfl, rfl⟩

end Runs

end Steps

end Sema

end Osfmk

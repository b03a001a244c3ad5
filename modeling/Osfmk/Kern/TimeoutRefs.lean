import Osfmk.Kern.Wait
import Osfmk.Lib.Trace

/-!
# The reference that a timeout holds

`set_timeout` takes a reference to the thread whose timer it sets, for as long as the timeout is on its
way (`mach_clock.c`).  `reset_timeout` gives it back when it takes the timer off the queue, and
`thread_timeout` when it finds that the timer that fired has not been cancelled (`sched_prim.c`).  In
between, the thread of `softclock` has taken the timer off the queue, marked it as pending, and holds
no lock.

## Main results

* `refs_of_run` — the references of the thread after every run.
-/

namespace Osfmk.TimeoutRefs

/-- Who has the lock on the thread: nobody, `set_timeout` before it takes its reference, or
`reset_timeout` before it gives a reference back. -/
inductive Holder
  | nobody
  | setting
  | resetting
  deriving DecidableEq

/-- Where the thread of `softclock` stands with the timer: elsewhere, before the call of
`thread_timeout`, or before the call of `thread_deallocate`. -/
inductive Soft
  | elsewhere
  | calling
  | releasing
  deriving DecidableEq

structure State where
  set : Telt
  holder : Holder
  soft : Soft
  refCount : ℤ

/-- The sections of the four functions. -/
inductive Act
  | setTimeout
  | takeRef
  | resetTimeout
  | dropRef
  | softclock
  | threadTimeout
  | threadDeallocate
  deriving DecidableEq

/-- A step.  The lock on the thread is held in `set_timeout` and `reset_timeout`, and a timer that is
set is not set again. -/
def step (s : State) : Act → Option State
  | .setTimeout =>
    if s.holder = .nobody ∧ s.set ≠ .set then some { s with set := .set, holder := .setting }
    else none
  | .takeRef =>
    if s.holder = .setting then
      some { s with refCount := s.refCount + 1, holder := .nobody }
    else none
  | .resetTimeout =>
    if s.holder = .nobody then
      some { s with set := .unset, holder := if s.set = .set then .resetting else .nobody }
    else none
  | .dropRef =>
    if s.holder = .resetting then
      some { s with refCount := s.refCount - 1, holder := .nobody }
    else none
  | .softclock =>
    if s.soft = .elsewhere ∧ s.set = .set then some { s with set := .pending, soft := .calling }
    else none
  | .threadTimeout =>
    if s.soft = .calling ∧ s.holder = .nobody then
      if s.set = .pending then some { s with set := .unset, soft := .releasing }
      else some { s with soft := .elsewhere }
    else none
  | .threadDeallocate =>
    if s.soft = .releasing ∧ s.holder = .nobody then
      some { s with refCount := s.refCount - 1, soft := .elsewhere }
    else none

/-- A timer that has fired is cancelled, or set again, before `thread_timeout` has looked at it. -/
def cancels (s : State) (a : Act) : Bool :=
  decide (s.set = .pending) && decide (a = .setTimeout ∨ a = .resetTimeout)

/-- How often this happens in a run. -/
def cancelled : State → List Act → ℕ
  | _, [] => 0
  | s, a :: as => (cancels s a).toNat + (step s a).elim 0 fun s' => cancelled s' as

/-- The references that are held for the timer: one for a timer that is set or pending, one that is
about to be given back by either side, and none for one that is about to be taken. -/
def held (s : State) : ℤ :=
  (if s.set = .unset then 0 else 1) + (if s.soft = .releasing then 1 else 0) +
    match s.holder with
    | .nobody => 0
    | .setting => -1
    | .resetting => 1

/-- **A step keeps the balance**, unless it cancels a timer that has fired. -/
theorem step_balance {s s' : State} {a : Act} (h : step s a = some s') :
    s'.refCount - held s' = s.refCount - held s + (cancels s a).toNat := by
  obtain ⟨timer, holder, soft, refCount⟩ := s
  cases a with
  | setTimeout =>
    obtain ⟨⟨hh, hs⟩, rfl⟩ := Trace.of_guard h
    cases hh
    cases timer with
    | unset => simp [held, cancels]
    | set => exact absurd rfl hs
    | pending =>
      simp [held, cancels]
      omega
  | takeRef =>
    obtain ⟨hh, rfl⟩ := Trace.of_guard h
    cases hh
    simp [held, cancels]
    omega
  | resetTimeout =>
    obtain ⟨hh, rfl⟩ := Trace.of_guard h
    cases hh
    cases timer with
    | unset => simp [held, cancels]
    | set =>
      simp [held, cancels]
      omega
    | pending =>
      simp [held, cancels]
      omega
  | dropRef =>
    obtain ⟨hh, rfl⟩ := Trace.of_guard h
    cases hh
    simp [held, cancels]
    omega
  | softclock =>
    obtain ⟨⟨hf, hs⟩, rfl⟩ := Trace.of_guard h
    cases hf
    cases hs
    simp [held, cancels]
  | threadTimeout =>
    rw [step] at h
    split at h
    · next hg =>
      obtain ⟨hf, hh⟩ := hg
      cases hf
      cases hh
      cases timer with
      | pending => cases h; simp [held, cancels]
      | unset => cases h; simp [held, cancels]
      | set => cases h; simp [held, cancels]
    · cases h
  | threadDeallocate =>
    obtain ⟨⟨hf, hh⟩, rfl⟩ := Trace.of_guard h
    cases hf
    cases hh
    simp [held, cancels]
    omega

/-- **The references after a run**, by induction on the steps. -/
theorem run_balance : ∀ (acts : List Act) (s s' : State), Trace.run step s acts = some s' →
    s'.refCount - held s' = s.refCount - held s + cancelled s acts := by
  intro acts
  induction acts with
  | nil =>
    intro s s' h
    cases h
    simp [cancelled]
  | cons a acts ih =>
    intro s s' h
    obtain ⟨s1, hs, hrun⟩ := Trace.run_cons h
    rw [ih s1 s' hrun, step_balance hs, cancelled, hs, Option.elim_some, Nat.cast_add, add_assoc]

/-- No timeout is set or on its way. -/
def Quiet (s : State) : Prop := s.set = .unset ∧ s.holder = .nobody ∧ s.soft = .elsewhere

theorem Quiet.held {s : State} (h : Quiet s) : held s = 0 := by
  rw [TimeoutRefs.held, h.1, h.2.1, h.2.2]
  rfl

/-- **The references balance exactly when no timer is cancelled in the window** between the sections of
`softclock` and `thread_timeout`; each time it happens, a reference is left over. -/
theorem refs_of_run {s0 s : State} {acts : List Act} (h0 : Quiet s0)
    (hrun : Trace.run step s0 acts = some s) :
    s.refCount = s0.refCount + held s + cancelled s0 acts ∧
      (Quiet s → (s.refCount = s0.refCount ↔ cancelled s0 acts = 0)) := by
  have hbal := run_balance acts s0 s hrun
  rw [h0.held] at hbal
  refine ⟨by omega, fun hq => ?_⟩
  rw [hq.held] at hbal
  omega

/-- A thread with one reference, and no timeout. -/
def quiet : State := ⟨.unset, .nobody, .elsewhere, 1⟩

theorem refs_of_run_fires : ∃ s, Trace.run step quiet [.setTimeout, .softclock, .takeRef,
    .threadTimeout, .threadDeallocate, .setTimeout, .takeRef, .resetTimeout, .dropRef] = some s ∧
      s.refCount = 1 := by
  have hq : Quiet quiet := ⟨rfl, rfl, rfl⟩
  have hrun : Trace.run step quiet [.setTimeout, .softclock, .takeRef, .threadTimeout,
    .threadDeallocate, .setTimeout, .takeRef, .resetTimeout, .dropRef] = some _ := rfl
  exact ⟨_, hrun, ((refs_of_run hq hrun).2 ⟨rfl, rfl, rfl⟩).mpr rfl⟩

/-- A timer is cancelled after it has fired: its reference is never given back. -/
theorem resetTimeout_loses_reference : ∃ s, Trace.run step quiet [.setTimeout, .takeRef, .softclock,
    .resetTimeout, .threadTimeout] = some s ∧ Quiet s ∧ s.refCount = 2 :=
  ⟨_, rfl, ⟨rfl, rfl, rfl⟩, rfl⟩

end Osfmk.TimeoutRefs

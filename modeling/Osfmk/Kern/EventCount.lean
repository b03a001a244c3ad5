import Osfmk.Lib.Always

/-!
# Event counters

`evc_wait` takes an event that has been counted, or records its thread and blocks; `evc_signal`
counts an event and wakes the thread that is recorded (`kern/eventcount.c`).  The event that wakes a
thread stays counted, and a thread whose wait is aborted stays recorded.

## Main results

* `events_of_run` — the events are conserved exactly in the runs in which nobody is woken and the
  counter does not wrap.
-/

open Function (update update_of_ne update_self)

namespace Osfmk.EventCount

/-- Where a thread is in `evc_wait`. -/
inductive Pc
  | idle
  /-- After `assert_wait`: the thread still runs (`TH_RUN | TH_WAIT`). -/
  | asserted
  /-- Blocked (`TH_WAIT`). -/
  | asleep
  /-- Runnable again, and about to return. -/
  | awake (aborted : Bool)
  deriving DecidableEq

/-- An event counter and its threads; `count` has 32 bits. -/
structure State (T : Type) where
  count : ℕ
  waitingThread : Option T
  pc : T → Pc
  panicked : Bool
  /-- For the specification: the calls of `evc_signal`, and the waits that ended without an abort. -/
  signals : ℕ
  successes : ℕ

inductive Act (T : Type)
  | evcWait (t : T)
  | block (t : T)
  | abort (t : T)
  | return (t : T)
  | evcSignal

variable {T : Type}

/-- The section of `evc_signal` under the lock. -/
def evcSignal [DecidableEq T] (s : State T) : State T :=
  let s' := { s with
    count := (s.count + 1) % 2 ^ 32, waitingThread := none, signals := s.signals + 1 }
  match s.waitingThread with
  | none => s'
  | some t =>
    match s.pc t with
    | .asleep => { s' with pc := update s.pc t (.awake false) }
    | _ => { s' with panicked := true }

def step [DecidableEq T] (s : State T) : Act T → Option (State T)
  | .evcWait t =>
    if s.pc t ≠ .idle then none
    else if s.count ≠ 0 then some { s with count := s.count - 1, successes := s.successes + 1 }
    else if s.waitingThread = none then
      some { s with waitingThread := some t, pc := update s.pc t .asserted }
    else some s
  | .block t => if s.pc t = .asserted then some { s with pc := update s.pc t .asleep } else none
  | .abort t =>
    if s.pc t = .asserted ∨ s.pc t = .asleep then
      some { s with pc := update s.pc t (.awake true) } else none
  | .return t =>
    match s.pc t with
    | .awake aborted => some { s with
        pc := update s.pc t .idle
        successes := if aborted then s.successes else s.successes + 1 }
    | _ => none
  | .evcSignal => some (evcSignal s)

/-- A step does what the counter is for. -/
structure Right (s : State T) (a : Act T) (s' : State T) : Prop where
  counted : s'.successes ≤ s'.signals
  signal : a = .evcSignal →
    Xor (∃ t, s.pc t = .asleep ∧ s'.pc t = .awake false) (s'.count = s.count + 1)
  aborted : ∀ t, a = .return t → s.pc t = .awake true → s'.waitingThread ≠ some t
  panicked : s'.panicked = false

/-- No thread is recorded when a signal comes, the counter has room for it, and no thread returns. -/
def Fine (s : State T) : Act T → Prop
  | .evcSignal => s.waitingThread = none ∧ s.count + 1 < 2 ^ 32
  | .return _ => False
  | _ => True

/-- Every event is counted or has been taken, a thread in `evc_wait` is recorded while none is counted,
and nobody has been woken. -/
structure Inv (s : State T) : Prop where
  balance : s.successes + s.count = s.signals
  awake : ∀ t, s.pc t ≠ .awake false
  waiting : ∀ t, s.pc t ≠ .idle → s.waitingThread = some t
  zero : s.waitingThread ≠ none → s.count = 0
  panicked : s.panicked = false

variable {s s' : State T} {a : Act T}

/-- A counter that is set up. -/
def evcInit : State T := ⟨0, none, fun _ => .idle, false, 0, 0⟩

theorem evcInit_inv : Inv (evcInit : State T) := 
  ⟨rfl, nofun, fun _ h => absurd rfl h, fun h => absurd rfl h, rfl⟩

theorem Right.of_inv (h : Inv s') (hsignal : a ≠ .evcSignal) (hreturn : ∀ t, a ≠ .return t) :
    Right s a s' :=
  ⟨h.balance ▸ Nat.le_add_right _ _, fun ha => absurd ha hsignal, fun t ha => absurd ha (hreturn t),
    h.panicked⟩

variable [DecidableEq T]

/-- A thread moves within `evc_wait`, and nobody else is there. -/
theorem Inv.move (h : Inv s) {t : T} (hw : s.waitingThread = none ∨ s.waitingThread = some t)
    (hzero : s.count = 0) {pc : Pc} (hpc : pc ≠ .awake false) : Inv { s with waitingThread := some t, pc := update s.pc t pc } := by
  refine ⟨h.balance, fun u => ?_, fun u hu => ?_, fun _ => hzero, h.panicked⟩
  · dsimp only
    by_cases hut : u = t
    · rw [hut, update_self]
      exact hpc
    · rw [update_of_ne hut]
      exact h.awake u
  · dsimp only at hu ⊢
    by_contra hne
    rw [update_of_ne fun hut => hne (by rw [hut])] at hu
    have hwait := h.waiting u hu
    rcases hw with hw | hw
    · rw [hw] at hwait
      cases hwait
    · exact hne (hw ▸ hwait)

theorem Inv.evcWait (h : Inv s) {t : T} (hs : step s (.evcWait t) = some s') : Inv s' := by
  rw [step] at hs
  split at hs
  · cases hs
  split at hs
  · next hcount =>
    cases hs
    have hbal := h.balance
    exact ⟨by dsimp only; omega, h.awake, h.waiting, fun hw => absurd (h.zero hw) hcount, h.panicked⟩
  next hcount =>
  split at hs
  · next hnone =>
    cases hs
    exact h.move (.inl hnone) (not_not.mp hcount) nofun
  · cases hs
    exact h

/-- **Every fine step keeps the invariant**. -/
theorem Inv.step (h : Inv s) (hf : Fine s a) (hs : step s a = some s') : Inv s' := by
  cases a with
  | evcWait t => exact h.evcWait hs
  | block t =>
    obtain ⟨ht, rfl⟩ := Trace.of_guard hs
    have hw := h.waiting t (by rw [ht]; nofun)
    exact hw ▸ h.move (.inr hw) (h.zero (by rw [hw]; nofun)) nofun
  | abort t =>
    obtain ⟨ht, rfl⟩ := Trace.of_guard hs
    have hw := h.waiting t (by rcases ht with ht | ht <;> rw [ht] <;> nofun)
    exact hw ▸ h.move (.inr hw) (h.zero (by rw [hw]; nofun)) nofun
  | «return» t => exact hf.elim
  | evcSignal =>
    cases hs
    have hbal := h.balance
    obtain ⟨hw, hroom⟩ := hf
    rw [evcSignal, hw]
    dsimp only
    rw [Nat.mod_eq_of_lt hroom]
    exact ⟨by dsimp only; omega, h.awake, fun t ht => hw.symm.trans (h.waiting t ht),
      fun hw => absurd rfl hw, h.panicked⟩

/-- A signal that finds a thread wakes it and is counted, or panics. -/
theorem not_right_evcSignal (h : Inv s) {t : T} (ht : s.waitingThread = some t) :
    ¬ Right s .evcSignal (evcSignal s) := by
  intro hr
  have hzero := h.zero (by rw [ht]; nofun)
  unfold evcSignal at hr
  rw [ht] at hr
  dsimp only at hr
  split at hr
  · next hpc =>
    have hwoken : ∃ u, s.pc u = .asleep ∧ update s.pc t (.awake false) u = .awake false :=
      ⟨t, hpc, update_self ..⟩
    rcases hr.signal rfl with hx | hx
    · exact hx.2 (by dsimp only; rw [hzero]; rfl)
    · exact hx.2 hwoken
  · cases hr.panicked

theorem right_iff (h : Inv s) (hs : EventCount.step s a = some s') : Right s a s' ↔ Fine s a := by
  cases a with
  | evcWait t => exact iff_of_true (.of_inv (h.step (a := .evcWait t) trivial hs) nofun nofun) trivial
  | block t => exact iff_of_true (.of_inv (h.step (a := .block t) trivial hs) nofun nofun) trivial
  | abort t => exact iff_of_true (.of_inv (h.step (a := .abort t) trivial hs) nofun nofun) trivial
  | «return» t =>
    refine iff_of_false (fun hr => ?_) id
    rw [EventCount.step] at hs
    split at hs
    · next aborted hpc =>
      cases hs
      -- the thread has been aborted and is still recorded
      have hab : aborted = true := by
        cases aborted with
        | true => rfl
        | false => exact absurd hpc (h.awake t)
      exact hr.aborted t rfl (hab ▸ hpc) (h.waiting t (by rw [hpc]; nofun))
    · cases hs
  | evcSignal =>
    cases hs
    cases hw : s.waitingThread with
    | some t =>
      refine iff_of_false (not_right_evcSignal h hw) fun hf => ?_
      rw [Fine, hw] at hf
      cases hf.1
    | none =>
      have hnone : ¬ ∃ t, s.pc t = .asleep ∧ (evcSignal s).pc t = .awake false := by
        rw [evcSignal, hw]
        exact fun ⟨t, _, hawake⟩ => h.awake t hawake
      have hcount : (evcSignal s).count = (s.count + 1) % 2 ^ 32 := by
        rw [evcSignal, hw]
      constructor
      · intro hr
        refine ⟨hw, ?_⟩
        have hx := ((hr.signal rfl).resolve_left fun hx => hnone hx.1).1
        rw [hcount] at hx
        exact Nat.mod_eq_iff_lt (by norm_num) |>.mp hx
      · intro hf
        have hi := h.step (a := .evcSignal) hf rfl
        refine ⟨hi.balance ▸ Nat.le_add_right _ _, fun _ => .inr ⟨?_, hnone⟩, nofun, hi.panicked⟩
        rw [hcount, Nat.mod_eq_of_lt hf.2]

/-- **The events are conserved exactly in the runs in which nobody is woken**: no signal comes while a
thread is recorded or with the counter at its largest value, and no wait that has been aborted returns. -/
theorem events_of_run (acts : List (Act T)) {s : State T} (hrun : Trace.run step evcInit acts = some s) :
    Trace.Always step Right evcInit acts ↔ Trace.Meets step Fine evcInit acts := by
  refine Trace.always_iff_meets (I := Inv) ?_ ?_ acts evcInit s evcInit_inv hrun
  · intro s a s' h hs
    exact right_iff h hs
  · intro s a s' h hf hs
    exact h.step hf hs

/-- A wait takes an event that has been counted, and another thread blocks. -/
theorem events_of_run_counted : Trace.Always step Right (evcInit : State Bool)
    [.evcSignal, .evcWait true, .evcWait false, .block false] :=
  (events_of_run _ (s := ⟨0, some false, _, false, 1, 1⟩) rfl).mpr
    ⟨⟨rfl, by decide⟩, fun _ h => Option.some.inj h ▸ ⟨trivial, fun _ h => Option.some.inj h ▸
      ⟨trivial, fun _ h => Option.some.inj h ▸ ⟨trivial, fun _ _ => trivial⟩⟩⟩⟩

/-- One signal ends two waits. -/
theorem evcSignal_counts_twice : ∃ s, Trace.run step (evcInit : State Unit)
    [.evcWait (), .block (), .evcSignal, .return (), .evcWait ()] = some s ∧
      s.signals = 1 ∧ s.successes = 2 :=
  ⟨_, rfl, rfl, rfl⟩

end Osfmk.EventCount

import Osfmk.Lib.Trace
import Osfmk.Kern.Wait

/-!
# Waits in every run

In every interleaving of the routines a thread is linked on a wait queue exactly when it waits for an
event of that hash value, `thread_wakeup_prim` does not panic, and `thread_setrun` is not called on a
thread that is runnable.
-/

set_option linter.unusedSectionVars false

open Osfmk.Trace (of_guard)
open Function (update update_apply update_eq_self update_idem update_of_ne update_self)
open List Option

namespace Osfmk

theorem forall_update {C α : Type} [DecidableEq C] {f : C → Option α} {o : Option α} {c : C}
    {q : α → Prop} (ho : ∀ x ∈ o, q x) (hf : ∀ k x, f k = some x → q x) :
    ∀ k x, update f c o k = some x → q x := by
  intro k x hk
  rw [update_apply] at hk
  split at hk
  · exact ho x hk
  · exact hf k x hk

namespace WaitThread

variable {th : WaitThread}

/-- A thread that waits for an event has `TH_WAIT` set, and one that is anywhere has `TH_RUN`. -/
structure Ok (th : WaitThread) : Prop where
  wait : th.waitEvent ≠ noEvent → th.wait = true
  place : th.run = true ↔ th.place ≠ .blocked

theorem wake_cases (th : WaitThread) :
    th.wake = .setrun ∧ th.wait = true ∧ th.run = false ∨ th.wake = .clear ∧ th.wait = true ∨
      th.wake = .notWaiting ∧ th.wait = false := by
  unfold wake
  split <;> simp_all

theorem wake_ne_notWaiting (h : th.wait = true) : th.wake ≠ .notWaiting := by
  rcases th.wake_cases with ⟨hw, -⟩ | ⟨hw, -⟩ | ⟨-, hf⟩
  · rw [hw]
    decide
  · rw [hw]
    decide
  · rw [h] at hf
    cases hf

theorem Ok.reruns (h : th.Ok) : th.reruns = false := by
  unfold WaitThread.reruns
  rcases th.wake_cases with ⟨-, -, hr⟩ | ⟨hw, -⟩ | ⟨hw, -⟩
  · have hp : th.place = .blocked := by
      by_contra hp
      rw [h.place.mpr hp] at hr
      cases hr
    rw [hp, Place.runnable, Bool.and_false]
  · rw [hw]
    rfl
  · rw [hw]
    rfl

theorem endWait_cases (th : WaitThread) (result : ThreadResult) : th.wait = true ∧
        (th.endWait result = { th with
            timer := .unset, wait := false, run := true, waitResult := result, place := .queued } ∨
          th.endWait result = { th with timer := .unset, wait := false, waitResult := result }) ∨
      th.wait = false ∧ th.endWait result = { th with timer := .unset } := by
  unfold endWait
  dsimp only
  rcases { th with timer := .unset }.wake_cases with ⟨hw, hwait, -⟩ | ⟨hw, hwait⟩ | ⟨hw, hwait⟩
  · rw [hw]
    exact .inl ⟨hwait, .inl rfl⟩
  · rw [hw]
    exact .inl ⟨hwait, .inr rfl⟩
  · rw [hw]
    exact .inr ⟨hwait, rfl⟩

theorem endWait_frame (th : WaitThread) (result : ThreadResult) :
    (th.endWait result).waitEvent = th.waitEvent ∧ (th.endWait result).waitId = th.waitId ∧
      (th.endWait result).expired = th.expired ∧ (th.endWait result).timer = .unset ∧
        (th.endWait result).wait = false := by
  rcases th.endWait_cases result with ⟨-, h | h⟩ | ⟨hw, h⟩ <;> rw [h]
  · exact ⟨rfl, rfl, rfl, rfl, rfl⟩
  · exact ⟨rfl, rfl, rfl, rfl, rfl⟩
  · exact ⟨rfl, rfl, rfl, rfl, hw⟩

theorem endWait_waitResult (th : WaitThread) (result : ThreadResult) (h : th.wait = true) :
    (th.endWait result).waitResult = result := by
  rcases th.endWait_cases result with ⟨-, he | he⟩ | ⟨hw, -⟩
  · rw [he]
  · rw [he]
  · rw [h] at hw
    cases hw

theorem Ok.endWait_place (h : th.Ok) (result : ThreadResult) :
    (th.endWait result).run = true ↔ (th.endWait result).place ≠ .blocked := by
  rcases th.endWait_cases result with ⟨-, he | he⟩ | ⟨-, he⟩ <;> rw [he]
  · exact iff_of_true rfl nofun
  · exact h.place
  · exact h.place

theorem Ok.endWait (h : th.Ok) (result : ThreadResult) (hev : th.waitEvent = noEvent) :
    (th.endWait result).Ok :=
  ⟨fun hne => absurd ((th.endWait_frame result).1.trans hev) hne, h.endWait_place result⟩

end WaitThread

namespace Waits

variable {T C : Type} [DecidableEq T] [DecidableEq C] {s s' : Waits T C} {t u : T} {c : C}
  {th : WaitThread} {result : ThreadResult} {a : Act T C}

@[simp] theorem put_threads_self (s : Waits T C) (t : T) (th : WaitThread) :
    (s.put t th).threads t = th := update_self ..

theorem put_threads_of_ne (s : Waits T C) (th : WaitThread) (h : u ≠ t) :
    (s.put t th).threads u = s.threads u := update_of_ne h ..

/-- The event of a thread that is linked on a wait queue. -/
def OnQueue (event : BitVec 32) (index : ℕ) : Prop :=
  event ≠ noEvent ∧ event ≠ wakingEvent ∧ waitHash event = index

/-- The wait queues link the threads that wait for events; a thread with the transitional event is on
one wake queue. -/
structure Inv (s : Waits T C) : Prop where
  queue : ∀ b t, t ∈ s.waitQueue b ↔ OnQueue (s.threads t).waitEvent b
  nodup : ∀ b, (s.waitQueue b).Nodup
  ok : ∀ t, (s.threads t).Ok
  woken : ∀ c r l, s.wakers c = some (r, l) → r ≠ .timedOut ∧ l.Nodup ∧
    ∀ t ∈ l, (s.threads t).waitEvent = wakingEvent
  once : ∀ c c' r r' l l' t, s.wakers c = some (r, l) → s.wakers c' = some (r', l') → t ∈ l →
    t ∈ l' → c = c'
  clears : ∀ c op, s.clearing c = some op → op.event ≠ noEvent ∧ op.event ≠ wakingEvent
  panicked : s.panicked = false
  rerun : s.rerun = false

theorem Inv.put (h : Inv s) (th : WaitThread) (hev : th.waitEvent = (s.threads t).waitEvent) (hok : th.Ok) :
    Inv (s.put t th) := by
  have hevent : ∀ u, ((s.put t th).threads u).waitEvent = (s.threads u).waitEvent := by
    intro u
    by_cases hu : u = t
    · rw [hu, put_threads_self, hev]
    · rw [put_threads_of_ne s th hu]
  refine { h with queue := fun b u => ?_, ok := fun u => ?_, woken := fun c r l hc => ?_ }
  · rw [hevent]
    exact h.queue b u
  · by_cases hu : u = t
    · rw [hu, put_threads_self]
      exact hok
    · rw [put_threads_of_ne s th hu]
      exact h.ok u
  obtain ⟨hr, hn, hl⟩ := h.woken c r l hc
  refine ⟨hr, hn, fun u hu => ?_⟩
  rw [hevent]
  exact hl u hu

theorem Inv.endWait (h : Inv s) (result : ThreadResult) (hev : (s.threads t).waitEvent = noEvent) :
    Inv (s.endWait t result) := by
  have hput := h.put ((s.threads t).endWait result) ((s.threads t).endWait_frame result).1
    ((h.ok t).endWait result hev)
  refine { hput with rerun := ?_ }
  show (s.rerun || (s.threads t).reruns) = false
  rw [h.rerun, (h.ok t).reruns]
  rfl

theorem Inv.setEvent (h : Inv s) (event : BitVec 32) (index : ℕ) (q : List T)
    (hth : th.waitEvent = event) (hok : th.Ok) (hnext : ∀ c r l, s.wakers c = some (r, l) → t ∉ l)
    (hq : q.Nodup) (hself : ∀ b, t ∈ update s.waitQueue index q b ↔ OnQueue event b)
    (hother : ∀ u, u ≠ t → (u ∈ q ↔ u ∈ s.waitQueue index)) :
    Inv ({ s with waitQueue := update s.waitQueue index q }.put t th) := by
  refine { h with
    queue := fun b u => ?_
    nodup := fun b => ?_
    ok := fun u => ?_
    woken := fun c r l hc => ?_ }
  · by_cases hu : u = t
    · rw [hu, put_threads_self, hth]
      exact hself b
    · rw [put_threads_of_ne _ _ hu]
      refine Iff.trans ?_ (h.queue b u)
      show u ∈ update s.waitQueue index q b ↔ _
      by_cases hb : b = index
      · rw [hb, update_self]
        exact hother u hu
      · rw [update_of_ne hb]
  · show (update s.waitQueue index q b).Nodup
    by_cases hb : b = index
    · rw [hb, update_self]
      exact hq
    · rw [update_of_ne hb]
      exact h.nodup b
  · by_cases hu : u = t
    · rw [hu, put_threads_self]
      exact hok
    · rw [put_threads_of_ne _ _ hu]
      exact h.ok u
  · obtain ⟨hr, hn, hl⟩ := h.woken c r l hc
    refine ⟨hr, hn, fun u hu => ?_⟩
    have hut : u ≠ t := fun he => hnext c r l hc (he ▸ hu)
    rw [put_threads_of_ne _ _ hut]
    exact hl u hu

theorem Inv.not_woken (h : Inv s) (hev : (s.threads t).waitEvent ≠ wakingEvent) (c : C)
    (r : ThreadResult) (l : List T) (hc : s.wakers c = some (r, l)) : t ∉ l :=
  fun ht => hev ((h.woken c r l hc).2.2 t ht)

theorem noEvent_ne_wakingEvent : noEvent ≠ wakingEvent := by decide

theorem Inv.not_mem (h : Inv s) (hev : (s.threads t).waitEvent = noEvent) (b : ℕ) :
    t ∉ s.waitQueue b := fun ht => ((h.queue b t).mp ht).1 hev

/-- **`assert_wait` keeps the invariant**. -/
theorem Inv.assertWait (h : Inv s) {event : BitVec 32} {interruptible first : Bool}
    (hev : event ≠ wakingEvent) (hs : s.assertWait t event interruptible first = some s') :
    Inv s' := by
  obtain ⟨hno, hs⟩ := ite_none_left_eq_some.mp hs
  have hno : (s.threads t).waitEvent = noEvent := not_not.mp hno
  split at hs
  · next hne =>
    cases hs
    refine h.setEvent event _ _ rfl ⟨fun _ => rfl, (h.ok t).place⟩
      (h.not_woken (by rw [hno]; exact noEvent_ne_wakingEvent)) ?_ (fun b => ?_) fun u hu => ?_
    · have hn := h.not_mem hno (waitHash event)
      split
      · exact List.nodup_cons.mpr ⟨hn, h.nodup _⟩
      · exact (List.nodup_cons.mpr ⟨hn, h.nodup _⟩).perm (perm_append_singleton _ _).symm
    · by_cases hb : b = waitHash event
      · rw [hb, update_self]
        refine iff_of_true ?_ ⟨hne, hev, rfl⟩
        split
        · exact mem_cons_self
        · exact mem_append_right _ (mem_singleton_self t)
      · rw [update_of_ne hb]
        exact iff_of_false (h.not_mem hno b) fun ho => hb ho.2.2.symm
    · split
      · simp [hu]
      · simp [hu]
  · cases hs
    exact h.put _ rfl ⟨fun hne => absurd hno hne, (h.ok t).place⟩

theorem wakeupScan_perm (oneThread : Bool) (wakes : T → Bool) (q : List T) :
    ((wakeupScan oneThread wakes q).1 ++ (wakeupScan oneThread wakes q).2).Perm q ∧
      ∀ t ∈ (wakeupScan oneThread wakes q).1, wakes t = true := by
  induction q with
  | nil => exact ⟨List.Perm.refl _, nofun⟩
  | cons t q ih =>
    rw [wakeupScan]
    split
    case isTrue hw =>
      split
      case isTrue =>
        exact ⟨List.Perm.refl _, fun u hu => by rw [mem_singleton.mp hu]; exact hw⟩
      case isFalse =>
        refine ⟨ih.1.cons t, fun u hu => ?_⟩
        rcases mem_cons.mp hu with rfl | hu
        · exact hw
        · exact ih.2 u hu
    case isFalse =>
      exact ⟨perm_middle.trans (ih.1.cons t), ih.2⟩

section

variable (h : Inv s)
include h

/-- **`thread_wakeup_prim` keeps the invariant** while it holds the lock of the wait queue. -/
theorem Inv.wakeup {event : BitVec 32} {oneThread : Bool} (hr : result ≠ .timedOut) :
    Inv (s.wakeup c event oneThread result) := by
  unfold Waits.wakeup
  dsimp only
  obtain ⟨hperm, hwakes⟩ := wakeupScan_perm oneThread
    (fun t => decide ((s.threads t).waitEvent = event)) (s.waitQueue (waitHash event))
  generalize wakeupScan oneThread (fun t => decide ((s.threads t).waitEvent = event))
    (s.waitQueue (waitHash event)) = r at hperm hwakes ⊢
  have hnodup := hperm.nodup_iff.mpr (h.nodup (waitHash event))
  have hmem : ∀ t, t ∈ s.waitQueue (waitHash event) ↔ t ∈ r.1 ∨ t ∈ r.2 := fun t =>
    hperm.mem_iff.symm.trans mem_append
  have hdisj : ∀ t ∈ r.1, t ∉ r.2 := fun t h1 h2 =>
    (nodup_append.mp hnodup).2.2 t h1 t h2 rfl
  -- the threads to wake were linked on the queue
  have hon : ∀ t ∈ r.1, OnQueue (s.threads t).waitEvent (waitHash event) := fun t ht =>
    (h.queue _ t).mp ((hmem t).mpr (.inl ht))
  refine { h with
    queue := fun b t => ?_
    nodup := fun b => ?_
    ok := fun t => ?_
    woken := fun k r' l hk => ?_
    once := fun k k' r1 r2 l l' t hk hk' hl hl' => ?_ }
  · dsimp only
    by_cases ht : t ∈ r.1
    · rw [if_pos ht]
      refine iff_of_false (fun hb => ?_) fun ho => ho.2.1 rfl
      by_cases hbi : b = waitHash event
      · rw [hbi, update_self] at hb
        exact hdisj t ht hb
      · rw [update_of_ne hbi, h.queue] at hb
        exact hbi (hb.2.2.symm.trans (hon t ht).2.2)
    rw [if_neg ht, ← h.queue]
    by_cases hbi : b = waitHash event
    · rw [hbi, update_self, hmem]
      exact (or_iff_right ht).symm
    · rw [update_of_ne hbi]
  · dsimp only
    by_cases hbi : b = waitHash event
    · rw [hbi, update_self]
      exact (nodup_append.mp hnodup).2.1
    · rw [update_of_ne hbi]
      exact h.nodup b
  · dsimp only
    split
    · next ht => exact ⟨fun _ => (h.ok t).wait (hon t ht).1, (h.ok t).place⟩
    · exact h.ok t
  · dsimp only at hk ⊢
    by_cases hkc : k = c
    · rw [hkc, update_self] at hk
      cases hk
      exact ⟨hr, (nodup_append.mp hnodup).1, fun t ht => by rw [if_pos ht]⟩
    rw [update_of_ne hkc] at hk
    obtain ⟨hr', hn, hl⟩ := h.woken k r' l hk
    refine ⟨hr', hn, fun t ht => ?_⟩
    split
    · rfl
    · exact hl t ht
  · -- a thread of another wake queue has the transitional event, so it was not linked
    have hold : ∀ j r3 l3, s.wakers j = some (r3, l3) → t ∈ l3 → t ∉ r.1 := fun j r3 l3 hj hl3 ht =>
      (hon t ht).2.1 ((h.woken j r3 l3 hj).2.2 t hl3)
    dsimp only at hk hk'
    by_cases hkc : k = c <;> by_cases hkc' : k' = c
    · rw [hkc, hkc']
    · rw [hkc, update_self] at hk
      rw [update_of_ne hkc'] at hk'
      cases hk
      exact absurd hl (hold k' _ _ hk' hl')
    · rw [hkc', update_self] at hk'
      rw [update_of_ne hkc] at hk
      cases hk'
      exact absurd hl' (hold k _ _ hk hl)
    · rw [update_of_ne hkc] at hk
      rw [update_of_ne hkc'] at hk'
      exact h.once k k' r1 r2 l l' t hk hk' hl hl'

theorem Inv.setWakers {w : C → Option (ThreadResult × List T)}
    (hw : ∀ k r l, w k = some (r, l) → ∃ l0, s.wakers k = some (r, l0) ∧ l.Sublist l0) :
    Inv { s with wakers := w } := by
  refine { h with
    woken := fun k r l hk => ?_
    once := fun k k' r r' l l' t hk hk' hl hl' => ?_ }
  · obtain ⟨l0, h0, hsub⟩ := hw k r l hk
    obtain ⟨hr, hn, hev⟩ := h.woken k r l0 h0
    exact ⟨hr, hn.sublist hsub, fun t ht => hev t (hsub.subset ht)⟩
  · obtain ⟨l0, h0, hsub⟩ := hw k r l hk
    obtain ⟨l1, h₁, hsub'⟩ := hw k' r' l' hk'
    exact h.once k k' r r' l0 l1 t h0 h₁ (hsub.subset hl) (hsub'.subset hl')

theorem Inv.clearWaking (th : WaitThread) (hev : (s.threads t).waitEvent = wakingEvent)
    (hnext : ∀ c r l, s.wakers c = some (r, l) → t ∉ l) (hth : th.waitEvent = noEvent)
    (hok : th.Ok) : Inv (s.put t th) := by
  have hset := h.setEvent noEvent 0 (s.waitQueue 0) hth hok hnext (h.nodup 0) (fun b => ?_)
    fun _ _ => Iff.rfl
  · rw [update_eq_self] at hset
    exact hset
  · rw [update_eq_self, h.queue, hev]
    exact iff_of_false (fun ho => ho.2.1 rfl) fun ho => ho.1 rfl

/-- **`thread_wakeup_prim` wakes a thread**, and does not panic. -/
theorem Inv.wakeupNext (hs : s.wakeupNext c = some s') : Inv s' := by
  unfold Waits.wakeupNext at hs
  split at hs
  case h_1 => cases hs
  case h_2 =>
    cases hs
    refine h.setWakers fun k r l hk => ?_
    by_cases hkc : k = c
    · rw [hkc, update_self] at hk
      cases hk
    · rw [update_of_ne hkc] at hk
      exact ⟨l, hk, List.Sublist.refl l⟩
  case h_3 result t rest hc =>
    obtain ⟨-, hn, hev⟩ := h.woken c result (t :: rest) hc
    have htw := hev t mem_cons_self
    have hwait := (h.ok t).wait (by rw [htw]; exact noEvent_ne_wakingEvent.symm)
    have hdrop : Inv { s with wakers := update s.wakers c (some (result, rest)) } := by
      refine h.setWakers fun k r l hk => ?_
      by_cases hkc : k = c
      · rw [hkc, update_self] at hk
        cases hk
        exact ⟨t :: rest, hkc ▸ hc, sublist_cons_self t rest⟩
      · rw [update_of_ne hkc] at hk
        exact ⟨l, hk, List.Sublist.refl l⟩
    -- it was on no other wake queue, and once on this one
    have hnext : ∀ k r l, update s.wakers c (some (result, rest)) k = some (r, l) → t ∉ l := by
      intro k r l hk ht
      by_cases hkc : k = c
      · rw [hkc, update_self] at hk
        cases hk
        exact (List.nodup_cons.mp hn).1 ht
      · rw [update_of_ne hkc] at hk
        exact hkc (h.once k c r result l (t :: rest) t hk hc ht mem_cons_self)
    have hput := hdrop.clearWaking { (s.threads t).endWait result with waitEvent := noEvent }
      htw hnext rfl ⟨fun hne => absurd rfl hne, (h.ok t).endWait_place result⟩
    rw [if_neg (WaitThread.wake_ne_notWaiting hwait)] at hs
    cases hs
    simp only [Waits.endWait, Waits.put, update_self, update_idem]
    refine { hput with rerun := ?_ }
    rw [h.rerun, (h.ok t).reruns]
    rfl

theorem Inv.clearWaitLocked (c : C) (t : T) (result : ThreadResult) (interruptOnly : Bool)
    (aim : ℕ) : Inv (s.clearWaitLocked c t result interruptOnly aim) := by
  unfold Waits.clearWaitLocked
  dsimp only
  split
  · exact h
  split
  · exact h
  next hwk =>
  split
  · next hno =>
    refine { h with clears := forall_update (fun op hop => ?_) h.clears }
    cases hop
    exact ⟨hno, hwk⟩
  · next hno => exact h.endWait result (not_not.mp hno)

theorem Inv.clearDone (c : C) :
    Inv { s with clearing := update s.clearing c none } :=
  { h with clears := forall_update (fun _ hop => by cases hop) h.clears }

/-- **`clear_wait_locked` keeps the invariant** when it holds both locks. -/
theorem Inv.clearWaitRelocked {op : Clear T} (hc : s.clearing c = some op) :
    Inv (s.clearWaitRelocked c op) := by
  obtain ⟨hno, hwk⟩ := h.clears c op hc
  have hdone := h.clearDone c
  unfold Waits.clearWaitRelocked
  dsimp only
  split
  · next hev =>
    -- the thread is unlinked, and has no event any more
    refine Inv.endWait (hdone.setEvent noEvent _ _ rfl ?_ ?_ ?_ ?_ ?_) op.result ?_
    · exact ⟨fun hne => absurd rfl hne, (h.ok op.thread).place⟩
    · exact h.not_woken (by rw [hev]; exact hwk)
    · exact (h.nodup _).erase _
    · intro b
      refine iff_of_false (fun hb => ?_) fun ho => ho.1 rfl
      by_cases hbi : b = waitHash op.event
      · rw [hbi, update_self] at hb
        exact (h.nodup _).not_mem_erase hb
      rw [update_of_ne hbi] at hb
      have ho := (h.queue b op.thread).mp hb
      rw [hev] at ho
      exact hbi ho.2.2.symm
    · intro u hu
      exact mem_erase_of_ne hu
    · rw [put_threads_self]
  · exact hdone

theorem Inv.threadSetrun (hp : (s.threads t).place.runnable = false)
    (hr : (s.threads t).run = true) : Inv (s.threadSetrun t) := by
  have hput := h.put { s.threads t with place := .queued } rfl
    ⟨(h.ok t).wait, iff_of_true hr nofun⟩
  refine { hput with rerun := ?_ }
  show (s.rerun || (s.threads t).place.runnable) = false
  rw [h.rerun, hp]
  rfl

theorem Inv.threadDispatch (hp : (s.threads t).place = .leaving) :
    Inv (s.threadDispatch t) := by
  have hr : (s.threads t).run = true := (h.ok t).place.mpr (by rw [hp]; decide)
  unfold Waits.threadDispatch
  dsimp only
  rw [hr]
  cases (s.threads t).wait with
  | false => exact h.threadSetrun (by rw [hp]; rfl) hr
  | true =>
    exact h.put _ rfl ⟨fun _ => rfl, iff_of_false nofun fun hne => hne rfl⟩

theorem Inv.threadUnstop (t : T) : Inv (s.threadUnstop t) := by
  unfold Waits.threadUnstop
  dsimp only
  split
  · next hc =>
    have hp : (s.threads t).place = .blocked := by
      by_contra hp
      rw [(h.ok t).place.mpr hp] at hc
      cases hc.1
    have hput := h.put { s.threads t with susp := false, run := true, place := .queued } rfl
      ⟨(h.ok t).wait, iff_of_true rfl nofun⟩
    simp only [Waits.threadSetrun, Waits.put, update_self, update_idem]
    refine { hput with rerun := ?_ }
    rw [h.rerun, hp]
    rfl
  · exact h.put _ rfl ⟨(h.ok t).wait, (h.ok t).place⟩

/-- **Every step keeps the invariant**. -/
theorem Inv.step (hs : s.step a = some s') : Inv s' := by
  cases a with
  | assertWait t event interruptible first =>
    obtain ⟨hc, hs⟩ := ite_none_right_eq_some.mp hs
    exact h.assertWait hc.2 hs
  | wakeup c event oneThread result =>
    obtain ⟨hc, rfl⟩ := of_guard hs
    exact h.wakeup hc.2
  | wakeupNext c => exact h.wakeupNext hs
  | clearWait c t result interruptOnly =>
    obtain ⟨-, rfl⟩ := of_guard hs
    exact h.clearWaitLocked c t result interruptOnly _
  | clearWaitRelocked c =>
    obtain ⟨op, hc, rfl⟩ := map_eq_some_iff.mp hs
    exact h.clearWaitRelocked hc
  | threadSetTimeout t =>
    obtain ⟨-, hs⟩ := ite_none_right_eq_some.mp hs
    rw [Waits.threadSetTimeout] at hs
    split at hs
    · cases hs
      exact h
    split at hs
    · cases hs
    · cases hs
      exact h.put _ rfl ⟨(h.ok t).wait, (h.ok t).place⟩
  | softclock t =>
    obtain ⟨-, rfl⟩ := of_guard hs
    exact h.put _ rfl ⟨(h.ok t).wait, (h.ok t).place⟩
  | threadTimeout c t =>
    obtain ⟨-, rfl⟩ := of_guard hs
    unfold Waits.threadTimeout
    dsimp only
    split
    · refine Inv.clearWaitLocked ?_ c t _ _ _
      exact h.put _ rfl ⟨(h.ok t).wait, (h.ok t).place⟩
    · exact h
  | leave t =>
    obtain ⟨hp, rfl⟩ := of_guard hs
    have hr : (s.threads t).run = true := (h.ok t).place.mpr (by rw [hp]; decide)
    exact h.put _ rfl ⟨(h.ok t).wait, iff_of_true hr nofun⟩
  | threadDispatch t =>
    obtain ⟨hp, rfl⟩ := of_guard hs
    exact h.threadDispatch hp
  | invoke t =>
    obtain ⟨hp, rfl⟩ := of_guard hs
    have hr : (s.threads t).run = true := (h.ok t).place.mpr (by rw [hp]; decide)
    exact h.put _ rfl ⟨(h.ok t).wait, iff_of_true hr nofun⟩
  | threadStop t =>
    cases hs
    exact h.put _ rfl ⟨(h.ok t).wait, (h.ok t).place⟩
  | threadUnstop t =>
    cases hs
    exact h.threadUnstop t

end

/-- The timer of a thread is that of its wait. -/
structure Timed (th : WaitThread) : Prop where
  current : th.timer ≠ .unset → th.wait = true ∧ th.timerFor = th.waitId
  expired : th.timer = .pending → th.expired th.timerFor = true

/-- A call of `clear_wait_locked` in progress would end the wait that it is to end. -/
structure OnAim (th : WaitThread) (op : Clear T) : Prop where
  aim : th.waitEvent = op.event → op.aim = th.waitId
  timedOut : op.result = .timedOut → th.expired op.aim = true

/-- Timeouts and calls are those of the wait they would end. -/
structure Aimed (s : Waits T C) : Prop where
  timed : ∀ t, Timed (s.threads t)
  clears : ∀ c op, s.clearing c = some op → OnAim (s.threads op.thread) op

/-- A thread does not wait for an event again while a call is about to clear its earlier wait for it,
and it does not assert a wait before its last one has ended. -/
def Fresh (s : Waits T C) : Act T C → Prop
  | .assertWait t event _ _ => (s.threads t).wait = false ∧
      ∀ c op, s.clearing c = some op → op.thread = t → op.event ≠ event
  | _ => True

/-- A wait that ends with `THREAD_TIMED_OUT` is one whose timeout has expired, and a call of
`clear_wait_locked` ends the wait that was in progress when it was made. -/
structure EndsOwn (s : Waits T C) (a : Act T C) (s' : Waits T C) : Prop where
  timedOut : ∀ t, (s.threads t).wait = true → (s'.threads t).wait = false →
    (s'.threads t).waitResult = .timedOut → (s.threads t).expired (s.threads t).waitId = true
  aim : ∀ c op, a = .clearWaitRelocked c → s.clearing c = some op →
    (s.threads op.thread).wait = true → (s'.threads op.thread).wait = false →
      op.aim = (s.threads op.thread).waitId

theorem Aimed.put (h : Aimed s) (th : WaitThread) (hclears : ∀ c op, s.clearing c = some op →
      op.event ≠ noEvent ∧ op.event ≠ wakingEvent) (htimed : Timed th)
    (hev : th.waitEvent = (s.threads t).waitEvent ∨ th.waitEvent = noEvent)
    (hid : th.waitId = (s.threads t).waitId)
    (hexp : ∀ n, (s.threads t).expired n = true → th.expired n = true) : Aimed (s.put t th) := by
  refine ⟨fun u => ?_, fun c op hc => ?_⟩
  · by_cases hu : u = t
    · rw [hu, put_threads_self]
      exact htimed
    · rw [put_threads_of_ne _ _ hu]
      exact h.timed u
  · have hop := h.clears c op hc
    by_cases hu : op.thread = t
    · rw [hu, put_threads_self]
      rw [hu] at hop
      refine ⟨fun he => ?_, fun hr => hexp _ (hop.timedOut hr)⟩
      rw [hid]
      rcases hev with hev | hev
      · exact hop.aim (hev.symm.trans he)
      · exact absurd (he.symm.trans hev) (hclears c op hc).1
    · rw [put_threads_of_ne _ _ hu]
      exact hop

theorem Aimed.endWait (h : Aimed s) (hi : ∀ c op, s.clearing c = some op →
    op.event ≠ noEvent ∧ op.event ≠ wakingEvent) (t : T) (result : ThreadResult) :
    Aimed (s.endWait t result) := by
  obtain ⟨hev, hid, hexp, htimer, -⟩ := (s.threads t).endWait_frame result
  have hput := h.put ((s.threads t).endWait result) hi
    ⟨fun hne => absurd htimer hne, fun hp => by rw [htimer] at hp; cases hp⟩ (.inl hev) hid
    fun n hn => by rw [hexp]; exact hn
  exact ⟨hput.timed, hput.clears⟩

theorem Aimed.assertWait (hi : Inv s) (h : Aimed s) {event : BitVec 32} {interruptible first : Bool}
    (hwait : (s.threads t).wait = false)
    (hfresh : ∀ c op, s.clearing c = some op → op.thread = t → op.event ≠ event)
    (hs : s.assertWait t event interruptible first = some s') : Aimed s' := by
  have hunset : (s.threads t).timer = .unset := by
    by_contra hne
    have hc := ((h.timed t).current hne).1
    rw [hwait] at hc
    cases hc
  -- whatever becomes of the queues, the thread has a new wait that no call is aimed at
  have hnew : ∀ (s1 : Waits T C) (th : WaitThread), s1.threads = s.threads →
      s1.clearing = s.clearing → th.timer = .unset → th.expired = (s.threads t).expired →
        (th.waitEvent = event ∨ th.waitEvent = noEvent) → Aimed (s1.put t th) := by
    intro s1 th hth hcl htimer hexp hev
    refine ⟨fun u => ?_, fun c op hc => ?_⟩
    · by_cases hu : u = t
      · rw [hu, put_threads_self]
        exact ⟨fun hne => absurd htimer hne, fun hp => by rw [htimer] at hp; cases hp⟩
      · rw [put_threads_of_ne _ _ hu, hth]
        exact h.timed u
    · have hc' : s.clearing c = some op := hcl ▸ hc
      have hop := h.clears c op hc'
      by_cases hu : op.thread = t
      · rw [hu, put_threads_self]
        rw [hu] at hop
        refine ⟨fun he => ?_, fun hr => by rw [hexp]; exact hop.timedOut hr⟩
        rcases hev with hev | hev
        · exact absurd (he.symm.trans hev) (hfresh c op hc' hu)
        · exact absurd (he.symm.trans hev) (hi.clears c op hc').1
      · rw [put_threads_of_ne _ _ hu, hth]
        exact hop
  obtain ⟨hno, hs⟩ := ite_none_left_eq_some.mp hs
  split at hs
  · cases hs
    exact hnew _ _ rfl rfl hunset rfl (.inl rfl)
  · cases hs
    exact hnew _ _ rfl rfl hunset rfl (.inr (not_not.mp hno))

theorem Aimed.wakeup (hi : Inv s) (h : Aimed s) (c : C) (event : BitVec 32) (oneThread : Bool)
    (result : ThreadResult) : Aimed (s.wakeup c event oneThread result) := by
  unfold Waits.wakeup
  refine ⟨fun t => ?_, fun k op hk => ?_⟩
  · dsimp only
    split
    · exact ⟨(h.timed t).current, (h.timed t).expired⟩
    · exact h.timed t
  · have hop := h.clears k op hk
    dsimp only
    split
    · exact ⟨fun he => absurd he.symm (hi.clears k op hk).2, hop.timedOut⟩
    · exact hop

theorem Aimed.wakeupNext (hi : Inv s) (h : Aimed s) (hs : s.wakeupNext c = some s') : Aimed s' := by
  unfold Waits.wakeupNext at hs
  split at hs
  case h_1 => cases hs
  case h_2 =>
    cases hs
    exact ⟨h.timed, h.clears⟩
  case h_3 result t rest hc =>
    dsimp only at hs
    split at hs
    · cases hs
      exact ⟨h.timed, h.clears⟩
    cases hs
    have hdrop : Aimed { s with wakers := update s.wakers c (some (result, rest)) } :=
      ⟨h.timed, h.clears⟩
    have hend := hdrop.endWait hi.clears t result
    exact hend.put _ hi.clears ⟨(hend.timed t).current, (hend.timed t).expired⟩ (.inr rfl) rfl
      fun _ hn => hn

theorem Aimed.clearWaitLocked (h : Aimed s) (hi : ∀ c op, s.clearing c = some op →
      op.event ≠ noEvent ∧ op.event ≠ wakingEvent) (c : C) (t : T) (result : ThreadResult)
    (interruptOnly : Bool) (aim : ℕ) (haim : aim = (s.threads t).waitId)
    (hto : result = .timedOut → (s.threads t).expired aim = true) :
    Aimed (s.clearWaitLocked c t result interruptOnly aim) := by
  unfold Waits.clearWaitLocked
  dsimp only
  split
  · exact h
  split
  · exact h
  split
  · refine ⟨h.timed, forall_update (fun op hop => ?_) h.clears⟩
    cases hop
    exact ⟨fun _ => haim, hto⟩
  · exact h.endWait hi t result

theorem Aimed.clearWaitRelocked (hi : Inv s) (h : Aimed s) (c : C) (op : Clear T) :
    Aimed (s.clearWaitRelocked c op) := by
  have hdone : Aimed { s with clearing := update s.clearing c none } :=
    ⟨h.timed, forall_update (fun _ hop => by cases hop) h.clears⟩
  have hidone := hi.clearDone c
  unfold Waits.clearWaitRelocked
  dsimp only
  split
  · have hq : Aimed { s with
        clearing := update s.clearing c none
        waitQueue := update s.waitQueue (waitHash op.event)
          ((s.waitQueue (waitHash op.event)).erase op.thread) } := ⟨hdone.timed, hdone.clears⟩
    have hp := hq.put { s.threads op.thread with waitEvent := noEvent } hidone.clears
      ⟨(h.timed op.thread).current, (h.timed op.thread).expired⟩ (.inr rfl) rfl fun _ hn => hn
    exact hp.endWait hidone.clears op.thread op.result
  · exact hdone

/-- The scheduling of a thread changes, and its wait does not. -/
def Moved (s s' : Waits T C) : Prop :=
  s'.clearing = s.clearing ∧ ∃ t run susp unint place,
    s'.threads = update s.threads t { s.threads t with run, susp, unint, place }

theorem Moved.of_step (ha : a ∈ [.leave t, .threadDispatch t, .invoke t, .threadStop t, .threadUnstop t])
    (hs : s.step a = some s') : Moved s s' := by
  simp only [mem_cons, not_mem_nil, or_false] at ha
  rcases ha with rfl | rfl | rfl | rfl | rfl
  · obtain ⟨-, rfl⟩ := of_guard hs
    exact ⟨rfl, t, _, _, _, _, rfl⟩
  · obtain ⟨-, rfl⟩ := of_guard hs
    unfold Waits.threadDispatch
    dsimp only
    split
    · exact ⟨rfl, t, _, _, _, _, rfl⟩
    · exact ⟨rfl, t, _, _, _, _, rfl⟩
    · exact ⟨rfl, t, _, _, _, _, rfl⟩
    · exact ⟨rfl, t, _, _, _, _, (update_eq_self t _).symm⟩
  · obtain ⟨-, rfl⟩ := of_guard hs
    exact ⟨rfl, t, _, _, _, _, rfl⟩
  · cases hs
    exact ⟨rfl, t, _, _, _, _, rfl⟩
  · cases hs
    unfold Waits.threadUnstop
    dsimp only
    split
    · simp only [Waits.threadSetrun, Waits.put, update_self, update_idem]
      exact ⟨rfl, t, _, _, _, _, rfl⟩
    · exact ⟨rfl, t, _, _, _, _, rfl⟩

theorem Aimed.moved (hi : Inv s) (h : Aimed s) (hm : Moved s s') : Aimed s' := by
  obtain ⟨hc, t, run, susp, unint, place, ht⟩ := hm
  have hp := h.put { s.threads t with run, susp, unint, place } hi.clears
    ⟨(h.timed t).current, (h.timed t).expired⟩ (.inl rfl) rfl fun _ hn => hn
  refine ⟨?_, ?_⟩
  · rw [ht]
    exact hp.timed
  · rw [ht, hc]
    exact hp.clears

/-- **Every step keeps the aims** if the waits are fresh. -/
theorem Aimed.step (hi : Inv s) (h : Aimed s) (hf : Fresh s a) (hs : s.step a = some s') :
    Aimed s' := by
  cases a with
  | assertWait t event interruptible first =>
    obtain ⟨-, hs⟩ := ite_none_right_eq_some.mp hs
    exact h.assertWait hi hf.1 hf.2 hs
  | wakeup c event oneThread result =>
    obtain ⟨-, rfl⟩ := of_guard hs
    exact h.wakeup hi c event oneThread result
  | wakeupNext c => exact h.wakeupNext hi hs
  | clearWait c t result interruptOnly =>
    obtain ⟨hc, rfl⟩ := of_guard hs
    exact h.clearWaitLocked hi.clears c t result interruptOnly _ rfl fun hr => absurd hr hc.2
  | clearWaitRelocked c =>
    obtain ⟨op, -, rfl⟩ := map_eq_some_iff.mp hs
    exact h.clearWaitRelocked hi c op
  | threadSetTimeout t =>
    obtain ⟨-, hs⟩ := ite_none_right_eq_some.mp hs
    rw [Waits.threadSetTimeout] at hs
    split at hs
    · cases hs
      exact h
    next hw =>
    split at hs
    · cases hs
    cases hs
    exact h.put _ hi.clears
      ⟨fun _ => ⟨Bool.eq_true_of_not_eq_false hw, rfl⟩, nofun⟩ (.inl rfl) rfl
      fun _ hn => hn
  | softclock t =>
    obtain ⟨hset, rfl⟩ := of_guard hs
    refine h.put _ hi.clears ⟨fun _ => (h.timed t).current (by rw [hset]; decide), fun _ => ?_⟩ (.inl rfl)
      rfl fun n hn => ?_
    · exact update_self ..
    dsimp only
    rw [update_apply]
    split
    · rfl
    · exact hn
  | threadTimeout c t =>
    obtain ⟨-, rfl⟩ := of_guard hs
    unfold Waits.threadTimeout
    dsimp only
    split
    · next hp =>
      have hcur := ((h.timed t).current (by rw [hp]; decide)).2
      have hunset := h.put { s.threads t with timer := .unset } hi.clears
        ⟨fun hne => absurd rfl hne, nofun⟩ (.inl rfl) rfl fun _ hn => hn
      refine hunset.clearWaitLocked hi.clears c t _ _ _ ?_ fun _ => ?_
      · rw [put_threads_self]
        exact hcur
      · rw [put_threads_self]
        exact (h.timed t).expired hp
    · exact h
  | leave t | threadDispatch t | invoke t | threadStop t | threadUnstop t =>
    exact h.moved hi (.of_step (t := t) (by simp) hs)

theorem EndsOwn.of_wait (h : ∀ t, (s.threads t).wait = true → (s'.threads t).wait = true) :
    EndsOwn s a s' where
  timedOut t hw hw' := by
    rw [h t hw] at hw'
    cases hw'
  aim c op _ _ hw hw' := by
    rw [h op.thread hw] at hw'
    cases hw'

theorem EndsOwn.put (hs : s'.threads = update s.threads t th)
    (hw : th.wait = (s.threads t).wait ∨ th.wait = true) : EndsOwn s a s' := by
  refine EndsOwn.of_wait fun u hu => ?_
  rw [hs, update_apply]
  split
  · next he =>
    rw [he] at hu
    exact hw.elim (fun h => h.trans hu) id
  · exact hu

theorem EndsOwn.endWait (t : T) (th : WaitThread) (result : ThreadResult)
    (hs : s'.threads = update s.threads t th)
    (hres : (s.threads t).wait = true → th.waitResult = result)
    (hto : result = .timedOut → (s.threads t).expired (s.threads t).waitId = true)
    (haim : ∀ c op, a = .clearWaitRelocked c → s.clearing c = some op →
      op.aim = (s.threads op.thread).waitId) : EndsOwn s a s' where
  timedOut u hw hw' hr := by
    rw [hs, update_apply] at hr hw'
    split at hr
    · next he =>
      rw [he] at hw ⊢
      exact hto ((hres hw).symm.trans hr)
    · next he =>
      rw [if_neg he, hw] at hw'
      cases hw'
  aim c op ha hc _ _ := haim c op ha hc

theorem endsOwn_wakeupNext (hi : Inv s) (hs : s.wakeupNext c = some s') :
    EndsOwn s (.wakeupNext c) s' := by
  unfold Waits.wakeupNext at hs
  split at hs
  case h_1 => cases hs
  case h_2 =>
    cases hs
    exact EndsOwn.of_wait fun _ hw => hw
  case h_3 result t rest hc =>
    dsimp only at hs
    split at hs
    · cases hs
      exact EndsOwn.of_wait fun _ hw => hw
    cases hs
    refine EndsOwn.endWait t { (s.threads t).endWait result with waitEvent := noEvent } result
      ?_ (fun hw => WaitThread.endWait_waitResult _ result hw)
      (fun hr => absurd hr (hi.woken c result _ hc).1) nofun
    simp only [Waits.endWait, Waits.put, update_self, update_idem]

theorem endsOwn_clearWaitLocked {s0 : Waits T C} (th : WaitThread)
    (hthreads : s.threads = update s0.threads t th) (hw : th.wait = (s0.threads t).wait)
    (hna : ∀ k, a ≠ .clearWaitRelocked k) (interruptOnly : Bool) (aim : ℕ)
    (hto : result = .timedOut → (s0.threads t).expired (s0.threads t).waitId = true) :
    EndsOwn s0 a (s.clearWaitLocked c t result interruptOnly aim) := by
  unfold Waits.clearWaitLocked
  dsimp only
  split
  · exact EndsOwn.put hthreads (.inl hw)
  split
  · exact EndsOwn.put hthreads (.inl hw)
  split
  · exact EndsOwn.put hthreads (.inl hw)
  refine EndsOwn.endWait t _ result ?_
    (fun hwait => WaitThread.endWait_waitResult th result (hw.trans hwait)) hto
    fun k _ ha => absurd ha (hna k)
  simp only [Waits.endWait, Waits.put, hthreads, update_self, update_idem]

theorem endsOwn_clearWaitRelocked (h : Aimed s) {op : Clear T} (hc : s.clearing c = some op) :
    EndsOwn s (.clearWaitRelocked c) (s.clearWaitRelocked c op) := by
  have hop := h.clears c op hc
  unfold Waits.clearWaitRelocked
  dsimp only
  split
  · next hev =>
    have haim := hop.aim hev
    refine EndsOwn.endWait op.thread
      ({ s.threads op.thread with waitEvent := noEvent }.endWait op.result) op.result ?_ (fun hw => ?_)
      (fun hr => ?_) fun k op' hk hc' => ?_
    · simp only [Waits.endWait, Waits.put, update_self, update_idem]
    · exact WaitThread.endWait_waitResult _ op.result hw
    · rw [← haim]
      exact hop.timedOut hr
    cases hk
    rw [hc] at hc'
    cases hc'
    exact haim
  · exact EndsOwn.of_wait fun _ hw => hw

/-- **A wait ends by what was meant for it**. -/
theorem Aimed.endsOwn (hi : Inv s) (h : Aimed s) (hs : s.step a = some s') : EndsOwn s a s' := by
  cases a with
  | assertWait t event interruptible first =>
    obtain ⟨-, hs⟩ := ite_none_right_eq_some.mp hs
    unfold Waits.assertWait at hs
    dsimp only at hs
    split at hs
    · cases hs
    split at hs
    · cases hs
      exact EndsOwn.put rfl (.inr rfl)
    · cases hs
      exact EndsOwn.put rfl (.inr rfl)
  | wakeup c event oneThread result =>
    obtain ⟨-, rfl⟩ := of_guard hs
    refine EndsOwn.of_wait fun t hw => ?_
    unfold Waits.wakeup
    dsimp only
    split
    · exact hw
    · exact hw
  | wakeupNext c => exact endsOwn_wakeupNext hi hs
  | clearWait c t result interruptOnly =>
    obtain ⟨hc, rfl⟩ := of_guard hs
    exact endsOwn_clearWaitLocked _ (update_eq_self t s.threads).symm rfl
      (by nofun) interruptOnly _ fun hr => absurd hr hc.2
  | clearWaitRelocked c =>
    obtain ⟨op, hc, rfl⟩ := map_eq_some_iff.mp hs
    exact endsOwn_clearWaitRelocked h hc
  | threadSetTimeout t =>
    obtain ⟨-, hs⟩ := ite_none_right_eq_some.mp hs
    rw [Waits.threadSetTimeout] at hs
    split at hs
    · cases hs
      exact EndsOwn.of_wait fun _ hw => hw
    split at hs
    · cases hs
    · cases hs
      exact EndsOwn.put rfl (.inl rfl)
  | softclock t =>
    obtain ⟨-, rfl⟩ := of_guard hs
    exact EndsOwn.put rfl (.inl rfl)
  | threadTimeout c t =>
    obtain ⟨-, rfl⟩ := of_guard hs
    unfold Waits.threadTimeout
    dsimp only
    split
    · next hp =>
      have hcur := ((h.timed t).current (by rw [hp]; decide)).2
      refine endsOwn_clearWaitLocked { s.threads t with timer := .unset } rfl rfl
        (by nofun) _ _ fun _ => ?_
      rw [← hcur]
      exact (h.timed t).expired hp
    · exact EndsOwn.of_wait fun _ hw => hw
  | leave t | threadDispatch t | invoke t | threadStop t | threadUnstop t =>
    obtain ⟨-, u, run, susp, unint, place, hu⟩ := Moved.of_step (t := t) (by simp) hs
    exact EndsOwn.put hu (.inl rfl)

/-- No thread waits, and no call is in progress. -/
structure Initial (s : Waits T C) : Prop where
  waitQueue : ∀ b, s.waitQueue b = []
  waitEvent : ∀ t, (s.threads t).waitEvent = noEvent
  timer : ∀ t, (s.threads t).timer = .unset
  place : ∀ t, (s.threads t).run = true ↔ (s.threads t).place ≠ .blocked
  wakers : ∀ c, s.wakers c = none
  clearing : ∀ c, s.clearing c = none
  fine : s.panicked = false ∧ s.rerun = false

theorem Initial.inv (h : Initial s) : Inv s where
  queue b t := by
    rw [h.waitQueue b, h.waitEvent t]
    exact iff_of_false nofun fun ho => ho.1 rfl
  nodup b := by
    rw [h.waitQueue b]
    exact nodup_nil
  ok t := ⟨fun hne => absurd (h.waitEvent t) hne, h.place t⟩
  woken c r l hc := by
    rw [h.wakers c] at hc
    cases hc
  once c c' r r' l l' t hc := by
    rw [h.wakers c] at hc
    cases hc
  clears c op hc := by
    rw [h.clearing c] at hc
    cases hc
  panicked := h.fine.1
  rerun := h.fine.2

theorem Initial.aimed (h : Initial s) : Aimed s where
  timed t := ⟨fun hne => absurd (h.timer t) hne, fun hp => by rw [h.timer t] at hp; cases hp⟩
  clears c op hc := by
    rw [h.clearing c] at hc
    cases hc

/-- **Waiting is exact in every run**: a thread is linked on a wait queue exactly when it waits for an
event with that hash value, `thread_setrun` is not called on a thread that is runnable, and
`thread_wakeup_prim` does not panic. -/
theorem exact_of_run (acts : List (Act T C)) (s0 s : Waits T C) (h0 : Initial s0)
    (hr : Trace.run step s0 acts = some s) :
    (∀ b t, t ∈ s.waitQueue b ↔ OnQueue (s.threads t).waitEvent b) ∧ s.rerun = false ∧
      s.panicked = false ∧
        (Trace.Meets step Fresh s0 acts → ∀ a s', s.step a = some s' → EndsOwn s a s') := by
  have h : Inv s := Trace.invariant_of_step (fun _ _ _ h hs => h.step hs) acts s0 s h0.inv hr
  refine ⟨h.queue, h.rerun, h.panicked, fun hm a s' hs => ?_⟩
  have hboth : Inv s ∧ Aimed s := Trace.invariant (P := Fresh) (I := fun s => Inv s ∧ Aimed s)
    (fun _ _ _ h hf hs => ⟨h.1.step hs, h.2.step h.1 hf hs⟩) acts s0 s ⟨h0.inv, h0.aimed⟩ hm hr
  exact hboth.2.endsOwn h hs

/-- Two threads on processors. -/
def twoThreads : Waits Bool Bool where
  waitQueue _ := []
  threads _ :=
    { waitEvent := noEvent, run := true, wait := false, susp := false, unint := false,
      waitResult := .awakened, timer := .unset, place := .running, waitId := 0, timerFor := 0,
      expired := fun _ => false }
  wakers _ := none
  clearing _ := none
  panicked := false
  rerun := false

theorem twoThreads_initial : Initial twoThreads where
  waitQueue _ := rfl
  waitEvent _ := rfl
  timer _ := rfl
  place _ := iff_of_true rfl nofun
  wakers _ := rfl
  clearing _ := rfl
  fine := ⟨rfl, rfl⟩

/-- A thread waits with a timeout, which expires. -/
def timeoutRun : List (Act Bool Bool) :=
  [.assertWait true 64 true false, .threadSetTimeout true, .leave true, .threadDispatch true,
    .softclock true, .threadTimeout false true]

/-- The timeout ends the wait it was set for. -/
theorem exact_of_run_timeout : ∃ s s', Trace.run step twoThreads timeoutRun = some s ∧
      s.step (.clearWaitRelocked false) = some s' ∧ (s'.threads true).waitResult = .timedOut ∧
        (s'.threads true).place = .queued ∧ EndsOwn s (.clearWaitRelocked false) s' := by
  refine ⟨_, _, rfl, rfl, rfl, rfl, (exact_of_run timeoutRun twoThreads _ twoThreads_initial
    rfl).2.2.2 ?_ _ _ rfl⟩
  refine ⟨⟨rfl, nofun⟩, fun _ _ => ⟨trivial, fun _ _ => ⟨trivial, fun _ _ =>
    ⟨trivial, fun _ _ => ⟨trivial, fun _ _ => ⟨trivial, fun _ _ => trivial⟩⟩⟩⟩⟩⟩

/-- **A timeout ends a later wait**: while `clear_wait_locked` waits for the lock of the wait queue, the
thread is woken, and waits for the same event again, without a timeout. -/
theorem timeout_ends_later_wait : ∃ s s', Trace.run step twoThreads (timeoutRun ++
        [.wakeup true 64 false .awakened, .wakeupNext true, .invoke true,
          .assertWait true 64 true false]) = some s ∧
      s.step (.clearWaitRelocked false) = some s' ∧ (s.threads true).timer = .unset ∧
        (s'.threads true).waitResult = .timedOut ∧ ¬ EndsOwn s (.clearWaitRelocked false) s' := by
  refine ⟨_, _, rfl, rfl, rfl, rfl, fun he => ?_⟩
  have hexp := he.timedOut true rfl rfl rfl
  cases hexp

end Waits

end Osfmk

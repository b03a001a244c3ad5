import Osfmk.Lib.Trace
import Osfmk.Kern.RunqInv

/-!
# The run queues in every run

Every routine that puts a thread on a run queue, takes one off or changes a priority keeps the
invariant of the run queues.  It follows that the routines that choose a thread take one of the best
priority, and that the scan for stuck threads ends.
-/

set_option linter.unusedSectionVars false

open Function (update_apply)
open List Option

namespace Osfmk.Sched

variable {P S T : Type} [DecidableEq P] [DecidableEq S] [DecidableEq T] {machRt : Bool}
  {s s' : Sched P S T} {th : T} {q : RunqId P S} {env : Env P T}

section

variable (h : Inv machRt s)
include h

theorem Inv.dispatch (hl : Loose s th) (processor : P) (pset : S) :
    Inv machRt (s.dispatch processor pset th) where
  wf := h.wf
  queued := h.queued
  onq := h.onq
  next p u hp := by
    simp only [Sched.dispatch, update_apply] at hp
    split at hp
    · cases hp
      exact hl.1
    · exact h.next p u hp
  distinct p p' u hp hp' := by
    simp only [Sched.dispatch, update_apply] at hp hp'
    split at hp <;> split at hp'
    case isTrue.isTrue h1 h2 => rw [h1, h2]
    case isTrue.isFalse =>
      cases hp
      exact absurd hp' (hl.2 p')
    case isFalse.isTrue =>
      cases hp'
      exact absurd hp (hl.2 p)
    case isFalse.isFalse => exact h.distinct p p' u hp hp'
  dispatching p hp := by
    simp only [Sched.dispatch, update_apply] at hp ⊢
    split
    · exact nofun
    · next hne =>
      rw [if_neg hne] at hp
      exact h.dispatching p hp

theorem Inv.preempt (hl : Loose s th) {processor : P} {u : T}
    (hs : s.preempt processor th = some (s', u)) : Inv machRt s' ∧ Loose s' u := by
  rw [Sched.preempt] at hs
  split at hs
  case isTrue hd =>
    cases hn : s.nextThread processor with
    | none => exact absurd hn (h.dispatching processor hd)
    | some v =>
      rw [hn] at hs
      cases hs
      have hne : u ≠ th := fun he => hl.2 processor (he ▸ hn)
      have hinv := h.dispatch hl processor (s.procPset processor)
      refine ⟨hinv.congr rfl rfl rfl rfl (fun _ _ _ => rfl) fun p hp => ?_, h.next processor u hn,
        fun p hp => ?_⟩
      · simp only [Sched.dispatch, update_apply]
        split
        · rfl
        · exact hp
      · simp only [update_apply] at hp
        split at hp
        · cases hp
          exact hne rfl
        · next hpne => exact hpne (h.distinct p processor u hp hn)
  case isFalse =>
    cases hs
    exact ⟨h, hl⟩

/-- **`thread_setrun` keeps the invariant** once the priority is up to date. -/
theorem Inv.setrunUpdated (hl : Loose s th) {mayPreempt tail : Bool}
    (hs : setrunUpdated machRt s env th mayPreempt tail = some s') : Inv machRt s' := by
  -- with or without preemption, some loose thread is put on a run queue
  have hpre : ∀ {processor : P} (q : RunqId P S) (k : Sched P S T × T → Option (Sched P S T)),
      (∀ r, k r = runQueueEnqueue machRt r.1 q r.2 tail) →
        (s.preempt processor th).bind k = some s' → Inv machRt s' := by
    intro processor q k hk hb
    obtain ⟨r, h1, h2⟩ := bind_eq_some_iff.mp hb
    obtain ⟨hinv, hloose⟩ := h.preempt hl h1
    rw [hk] at h2
    exact hinv.enqueue hloose h2
  unfold Sched.setrunUpdated at hs
  split at hs
  case h_1 =>
    dsimp only at hs
    split at hs
    · cases hs
      exact h.dispatch hl _ _
    · split at hs
      · exact hpre _ _ (fun _ => rfl) hs
      · exact h.enqueue hl hs
  case h_2 =>
    split at hs
    · cases hs
      exact h.dispatch hl _ _
    · split at hs
      · exact hpre _ _ (fun _ => rfl) hs
      · exact h.enqueue hl hs

theorem Inv.ageUsage (th : T) (delta : BitVec 32 × BitVec 32) :
    Inv machRt (s.ageUsage th delta) :=
  h.congr rfl rfl rfl rfl (fun _ _ _ => rfl) fun _ hp => hp

theorem Inv.loose_remRunq (hq : s.runq th = some q) :
    Loose (Sched.remRunq machRt s th).1 th := by
  refine ⟨(h.remRunq th).2, fun p => ?_⟩
  rw [(remRunq_frame machRt s th).1]
  exact h.next_ne hq p

/-- **`update_priority` keeps the invariant**, and a loose thread stays loose. -/
theorem Inv.updatePriority (hs : updatePriority machRt s env th = some s') :
    Inv machRt s' ∧ (Loose s th → Loose s' th) := by
  have ha := h.ageUsage th env.delta
  rw [Sched.updatePriority] at hs
  dsimp only at hs
  split at hs
  case isTrue =>
    have hrem := ha.remRunq th
    have hset := hrem.1.setSchedPri hrem.2 (doPriorityComputation machRt (s.ageUsage th env.delta) th)
    rw [remRunq_snd] at hs
    cases hr : (s.ageUsage th env.delta).runq th with
    | none =>
      rw [hr] at hs
      cases hs
      refine ⟨hset, fun hl => ⟨hrem.2, fun p hp => hl.2 p ?_⟩⟩
      dsimp only at hp
      rw [(remRunq_frame machRt _ th).1] at hp
      exact hp
    | some q =>
      rw [hr] at hs
      refine ⟨hset.setrunUpdated (ha.loose_remRunq hr) hs, fun hl => ?_⟩
      exact absurd (hl.1.symm.trans hr) nofun
  case isFalse =>
    cases hs
    exact ⟨ha, id⟩

theorem Inv.threadSetrun (hl : Loose s th) {mayPreempt tail : Bool}
    (hs : threadSetrun machRt s env th mayPreempt tail = some s') : Inv machRt s' := by
  rw [Sched.threadSetrun] at hs
  obtain ⟨s1, h1, h2⟩ := bind_eq_some_iff.mp hs
  split at h1
  · obtain ⟨hinv, hloose⟩ := h.updatePriority h1
    exact hinv.setrunUpdated (hloose hl) h2
  · cases h1
    exact h.setrunUpdated hl h2

/-- **`set_pri` keeps the invariant**. -/
theorem Inv.setPri {pri : ℤ} {resched : Bool}
    (hs : setPri machRt s env th pri resched = some s') : Inv machRt s' := by
  have hrem := h.remRunq th
  have hset := hrem.1.setSchedPri hrem.2 pri
  rw [Sched.setPri] at hs
  dsimp only at hs
  rw [remRunq_snd] at hs
  cases hr : s.runq th with
  | none =>
    rw [hr] at hs
    cases hs
    exact hset
  | some q =>
    rw [hr] at hs
    dsimp only at hs
    split at hs
    · exact hset.threadSetrun (h.loose_remRunq hr) hs
    · exact hset.enqueue (h.loose_remRunq hr) hs

theorem Inv.computePriority {resched : Bool}
    (hs : computePriority machRt s env th resched = some s') : Inv machRt s' := by
  rw [Sched.computePriority] at hs
  dsimp only at hs
  split at hs
  · split at hs
    · exact h.setPri hs
    · cases hs
      exact h.congr rfl rfl rfl rfl (fun _ _ _ => rfl) fun _ hp => hp
  · exact h.setPri hs

theorem Inv.threadDepressPriority (hth : s.runq th = none) :
    Inv machRt (threadDepressPriority machRt s th) :=
  (h.setSchedPri hth (depressPri machRt)).congr rfl rfl rfl rfl (fun _ _ _ => rfl) fun _ hp => hp

theorem Inv.undepress (th : T) : Inv machRt (s.undepress th) :=
  h.congr rfl rfl rfl rfl (fun _ _ _ => rfl) fun _ hp => hp

theorem Inv.threadDepressTimeout
    (hs : threadDepressTimeout machRt s env th = some s') : Inv machRt s' := by
  rw [Sched.threadDepressTimeout] at hs
  split at hs
  · exact (h.undepress th).computePriority hs
  split at hs
  · cases hs
    exact h.congr rfl rfl rfl rfl (fun _ _ _ => rfl) fun _ hp => hp
  · cases hs
    exact h

theorem Inv.threadDepressAbort
    (hs : threadDepressAbort machRt s env th = some s') : Inv machRt s' := by
  rw [Sched.threadDepressAbort] at hs
  split at hs
  · exact (h.undepress th).computePriority hs
  split at hs
  · have h' : Inv machRt { s with
        depressPriority := Function.update s.depressPriority th (-1) } :=
      h.congr rfl rfl rfl rfl (fun _ _ _ => rfl) fun _ hp => hp
    exact h'.computePriority hs
  · cases hs
    exact h

/-- A thread is on one of two run queues. -/
def Queued (s : Sched P S T) (q : RunqId P S) (th : T) : Prop := ∃ p, th ∈ (s.rq q).runq p

theorem Inv.count_pos (q : RunqId P S) :
    (s.rq q).count > 0 ↔ ∃ th, Queued s q th := by
  refine (h.wf q).count_pos.trans ⟨?_, ?_⟩
  · rintro ⟨p, hp⟩
    obtain ⟨th, hth⟩ := exists_mem_of_ne_nil _ hp
    exact ⟨th, p, hth⟩
  · rintro ⟨th, p, hth⟩
    exact ⟨p, ne_nil_of_mem hth⟩

theorem Inv.low_le (hq : Queued s q th) : ((s.rq q).low : ℤ) ≤ s.schedPri th := by
  obtain ⟨p, hp⟩ := hq
  have hlt : p < idlePri machRt := lt_of_le_of_lt (h.schedPri_le hp) (depressPri_lt machRt)
  have hle := (h.wf q).low.2 (((h.wf q).bits p hlt).mpr (ne_nil_of_mem hp))
  rw [(h.queued q p th hp).1]
  exact_mod_cast hle

theorem Inv.low_cons (hlt : (s.rq q).low < idlePri machRt) :
    ∃ th rest, (s.rq q).runq (s.rq q).low = th :: rest ∧ Queued s q th ∧
      s.schedPri th = (s.rq q).low := by
  rcases (h.wf q).low_cases with ⟨-, hne⟩ | ⟨heq, -⟩
  · obtain ⟨th, rest, hl⟩ := exists_cons_of_ne_nil hne
    have hm : th ∈ (s.rq q).runq (s.rq q).low := hl ▸ mem_cons_self
    exact ⟨th, rest, hl, ⟨_, hm⟩, (h.queued q _ th hm).1⟩
  · exact absurd heq (Nat.ne_of_lt hlt)

theorem Inv.low_lt (hq : Queued s q th) : (s.rq q).low < idlePri machRt := by
  obtain ⟨p, hp⟩ := hq
  rcases (h.wf q).low_cases with ⟨hlt, -⟩ | ⟨-, hall⟩
  · exact hlt
  · rw [hall p] at hp
    cases hp

theorem Inv.takeLow_isSome (hq : ∃ th, Queued s q th) :
    ∃ s' th, Sched.takeLow machRt s q = some (s', th) ∧ Queued s q th ∧
      s.schedPri th = (s.rq q).low := by
  obtain ⟨u, hu⟩ := hq
  obtain ⟨th, rest, hl, hth, hpri⟩ := h.low_cons (h.low_lt hu)
  have hs : ∃ s', Sched.takeLow machRt s q = some (s', th) := by
    unfold Sched.takeLow
    dsimp only
    rw [hl]
    exact ⟨_, rfl⟩
  exact hs.imp fun _ hs => ⟨th, hs, hth, hpri⟩

/-- A thread of the best priority on the run queues `Q`, or the idle thread when there is none. -/
def Best (s : Sched P S T) (Q : RunqId P S → Prop) (myprocessor : P) (th : T) : Prop :=
  (∃ q, Q q ∧ Queued s q th) ∧ (∀ q u, Q q → Queued s q u → s.schedPri th ≤ s.schedPri u) ∨
    (∀ q u, Q q → ¬ Queued s q u) ∧ th = s.idleThread myprocessor

/-- **`choose_pset_thread` returns a thread of the best priority**. -/
theorem Inv.choosePsetThread_best (myprocessor : P) (pset : S) :
    ∃ s' th, choosePsetThread machRt s myprocessor pset = some (s', th) ∧
      Best s (· = .pset pset) myprocessor th := by
  rw [choosePsetThread]
  split
  case isTrue hc =>
    obtain ⟨s', th, hs, hq, hpri⟩ := h.takeLow_isSome ((h.count_pos _).mp hc)
    refine ⟨s', th, hs, Or.inl ⟨⟨_, rfl, hq⟩, ?_⟩⟩
    rintro q u rfl hu
    rw [hpri]
    exact h.low_le hu
  case isFalse hc =>
    have hnone : ∀ q u, q = .pset pset → ¬ Queued s q u := by
      rintro q u rfl hu
      exact hc ((h.count_pos _).mpr ⟨u, hu⟩)
    split
    · exact ⟨_, _, rfl, Or.inr ⟨hnone, rfl⟩⟩
    · exact ⟨_, _, rfl, Or.inr ⟨hnone, rfl⟩⟩

/-- The run queues that a processor looks at. -/
def Own (s : Sched P S T) (myprocessor : P) (q : RunqId P S) : Prop :=
  q = .processor myprocessor ∨ q = .pset (s.procPset myprocessor)

/-- **`choose_thread` returns a thread of the best priority** on the two run queues. -/
theorem Inv.chooseThread_best (myprocessor : P) :
    ∃ s' th, chooseThread machRt s myprocessor = some (s', th) ∧
      Best s (Own s myprocessor) myprocessor th := by
  unfold chooseThread
  dsimp only
  split
  case isTrue hc =>
    obtain ⟨s', th, hs, hq, hpri⟩ := h.takeLow_isSome ((h.count_pos _).mp hc.1)
    refine ⟨s', th, hs, Or.inl ⟨⟨_, Or.inl rfl, hq⟩, ?_⟩⟩
    rintro q u (rfl | rfl) hu
    · rw [hpri]
      exact h.low_le hu
    · rw [hpri]
      exact le_trans (by exact_mod_cast hc.2) (h.low_le hu)
  case isFalse hc =>
    -- a thread on the queue of the processor is not as good as one of the processor set
    have hbetter : ∀ u, Queued s (.processor myprocessor) u →
        ∃ v, Queued s (.pset (s.procPset myprocessor)) v ∧ s.schedPri v ≤ s.schedPri u := by
      intro u hu
      have hcount := (h.count_pos _).mpr ⟨u, hu⟩
      have hlt := not_le.mp fun hle => hc ⟨hcount, hle⟩
      obtain ⟨v, -, -, hv, hpri⟩ := h.low_cons (hlt.trans (h.low_lt hu))
      refine ⟨v, hv, ?_⟩
      rw [hpri]
      exact le_trans (by exact_mod_cast hlt.le) (h.low_le hu)
    obtain ⟨s', th, hs, hbest⟩ := h.choosePsetThread_best myprocessor (s.procPset myprocessor)
    refine ⟨s', th, hs, ?_⟩
    rcases hbest with ⟨⟨q, rfl, hq⟩, hle⟩ | ⟨hnone, rfl⟩
    · refine Or.inl ⟨⟨_, Or.inr rfl, hq⟩, ?_⟩
      rintro q u (rfl | rfl) hu
      · obtain ⟨v, hv, hvu⟩ := hbetter u hu
        exact (hle _ v rfl hv).trans hvu
      · exact hle _ u rfl hu
    refine Or.inr ⟨?_, rfl⟩
    rintro q u (rfl | rfl) hu
    · obtain ⟨v, hv, -⟩ := hbetter u hu
      exact hnone _ v rfl hv
    · exact hnone _ u rfl hu

theorem Inv.choosePsetThread {myprocessor : P} {pset : S}
    (hs : choosePsetThread machRt s myprocessor pset = some (s', th)) : Inv machRt s' := by
  rw [Sched.choosePsetThread] at hs
  split at hs
  · exact (h.takeLow hs).1
  split at hs
  · cases hs
    refine h.congr rfl rfl rfl rfl (fun _ _ _ => rfl) fun p hp => ?_
    simp only [update_apply] at hp
    split at hp
    · cases hp
    · exact hp
  · cases hs
    exact h

theorem Inv.chooseThread {myprocessor : P}
    (hs : chooseThread machRt s myprocessor = some (s', th)) : Inv machRt s' := by
  unfold Sched.chooseThread at hs
  dsimp only at hs
  split at hs
  · exact (h.takeLow hs).1
  · exact h.choosePsetThread hs

end

theorem scanQueue_count {stuck locks : T → Bool} {l found found' : List T} {count count' : ℤ}
    (h : scanQueue stuck locks l count found = .ok (count', found')) :
    count' = count - l.length := by
  induction l generalizing count found with
  | nil =>
    cases h
    simp
  | cons th l ih =>
    rw [scanQueue] at h
    rw [length_cons]
    push_cast
    split at h
    · split at h
      · cases h
      · have := ih h
        omega
    · have := ih h
      omega

theorem scanFrom_isSome {stuck locks : T → Bool} {rq : RunQueue T} (fuel : ℕ) :
    ∀ (p : ℕ) (count : ℤ) (found : List T),
      count ≤ ∑ x ∈ Finset.range fuel, ((rq.runq (p + x)).length : ℤ) →
        (scanFrom stuck locks rq fuel p count found).isSome := by
  induction fuel with
  | zero =>
    intro p count found hc
    rw [Finset.range_zero, Finset.sum_empty] at hc
    rw [scanFrom, if_neg (not_lt.mpr hc)]
    rfl
  | succ fuel ih =>
    intro p count found hc
    rw [scanFrom]
    split
    case isTrue =>
      split
      · rfl
      next count' found' hq =>
      refine ih (p + 1) count' found' ?_
      rw [Finset.sum_range_succ'] at hc
      have hq' := scanQueue_count hq
      have hshift : ∑ x ∈ Finset.range fuel, ((rq.runq (p + 1 + x)).length : ℤ)
          = ∑ x ∈ Finset.range fuel, ((rq.runq (p + (x + 1))).length : ℤ) :=
        Finset.sum_congr rfl fun x _ => by rw [Nat.add_right_comm, Nat.add_assoc]
      rw [hshift]
      simp only [Nat.add_zero] at hc
      omega
    case isFalse => rfl

/-- **`do_runq_scan` ends**: it finds as many threads as the count says before it leaves the array. -/
theorem Inv.doRunqScan_isSome (h : Inv machRt s) (q : RunqId P S) (stuck locks : T → Bool)
    (found : List T) : (doRunqScan machRt stuck locks (s.rq q) found).isSome := by
  have hwf := h.wf q
  refine scanFrom_isSome _ _ _ _ (le_of_eq ?_)
  rw [hwf.count]
  have hlow : (s.rq q).low ≤ nrqs machRt := (hwf.low.2 hwf.idle).trans (idlePri_lt machRt).le
  -- the queues before the first one are empty
  have hbefore : ∑ x ∈ Finset.range (s.rq q).low, (((s.rq q).runq x).length : ℤ) = 0 := by
    refine Finset.sum_eq_zero fun x hx => ?_
    have hxlow := Finset.mem_range.mp hx
    have hnil : (s.rq q).runq x = [] := by
      by_contra hne
      have hle := hwf.low.2 ((hwf.bits x (hxlow.trans_le (hwf.low.2 hwf.idle))).mpr hne)
      omega
    rw [hnil]
    rfl
  have hsplit := Finset.sum_range_add (fun x => (((s.rq q).runq x).length : ℤ)) (s.rq q).low
    (nrqs machRt - (s.rq q).low)
  rw [Nat.add_sub_cancel' hlow, hbefore, zero_add] at hsplit
  exact hsplit

/-- The calls, in any order, and what else changes what they read. -/
inductive Act (P S T : Type)
  | runQueueEnqueue (rq : RunqId P S) (th : T) (tail : Bool)
  | remRunq (th : T)
  | setPri (env : Env P T) (th : T) (pri : ℤ) (resched : Bool)
  | updatePriority (env : Env P T) (th : T)
  | computePriority (env : Env P T) (th : T) (resched : Bool)
  | threadSetrun (env : Env P T) (th : T) (mayPreempt tail : Bool)
  | chooseThread (myprocessor : P)
  | choosePsetThread (myprocessor : P) (pset : S)
  | threadDepressPriority (th : T)
  | threadDepressTimeout (env : Env P T) (th : T)
  | threadDepressAbort (env : Env P T) (th : T)
  | schedTick
  /-- An idle processor sees that it is being dispatched, and takes its next thread. -/
  | take (processor : P)
  /-- `thread_policy` and `thread_priority`, before they compute the scheduled priority. -/
  | setPolicy (th : T) (policy : Policy) (priority : ℤ)
  | bind (th : T) (processor : Option P)

/-- One call. -/
def step [Fintype P] (machRt : Bool) (s : Sched P S T) : Act P S T → Option (Sched P S T)
  | .runQueueEnqueue rq th tail =>
    if s.runq th = none ∧ ∀ p, s.nextThread p ≠ some th then
      runQueueEnqueue machRt s rq th tail
    else none
  | .remRunq th => some (remRunq machRt s th).1
  | .setPri env th pri resched => setPri machRt s env th pri resched
  | .updatePriority env th => updatePriority machRt s env th
  | .computePriority env th resched => computePriority machRt s env th resched
  | .threadSetrun env th mayPreempt tail =>
    if s.runq th = none ∧ ∀ p, s.nextThread p ≠ some th then
      threadSetrun machRt s env th mayPreempt tail
    else none
  | .chooseThread myprocessor => (chooseThread machRt s myprocessor).map (·.1)
  | .choosePsetThread myprocessor pset => (choosePsetThread machRt s myprocessor pset).map (·.1)
  | .threadDepressPriority th =>
    if s.runq th = none then some (threadDepressPriority machRt s th) else none
  | .threadDepressTimeout env th => threadDepressTimeout machRt s env th
  | .threadDepressAbort env th => threadDepressAbort machRt s env th
  | .schedTick => some { s with schedTick := s.schedTick + 1 }
  | .take processor =>
    if s.state processor = .dispatching then
      some { s with
        state := Function.update s.state processor .running
        nextThread := Function.update s.nextThread processor none }
    else none
  | .setPolicy th policy priority =>
    some { s with
      policy := Function.update s.policy th policy
      priority := Function.update s.priority th priority }
  | .bind th processor =>
    some { s with boundProcessor := Function.update s.boundProcessor th processor }

theorem Inv.take (h : Inv machRt s) (processor : P) : Inv machRt { s with
      state := Function.update s.state processor .running
      nextThread := Function.update s.nextThread processor none } where
  wf := h.wf
  queued := h.queued
  onq := h.onq
  next p u hp := by
    simp only [update_apply] at hp
    split at hp
    · cases hp
    · exact h.next p u hp
  distinct p p' u hp hp' := by
    simp only [update_apply] at hp hp'
    obtain ⟨-, hp⟩ := ite_none_left_eq_some.mp hp
    split at hp'
    · cases hp'
    · exact h.distinct p p' u hp hp'
  dispatching p hp := by
    simp only [update_apply] at hp ⊢
    split
    · next he =>
      rw [if_pos he] at hp
      cases hp
    · next hne =>
      rw [if_neg hne] at hp
      exact h.dispatching p hp

/-- **Every call keeps the invariant**. -/
theorem Inv.step [Fintype P] (h : Inv machRt s) {a : Act P S T} (hs : step machRt s a = some s') :
    Inv machRt s' := by
  cases a with
  | runQueueEnqueue rq th tail =>
    obtain ⟨hl, hs⟩ := ite_none_right_eq_some.mp hs
    exact h.enqueue hl hs
  | remRunq th =>
    cases hs
    exact (h.remRunq th).1
  | setPri env th pri resched => exact h.setPri hs
  | updatePriority env th => exact (h.updatePriority hs).1
  | computePriority env th resched => exact h.computePriority hs
  | threadSetrun env th mayPreempt tail =>
    obtain ⟨hl, hs⟩ := ite_none_right_eq_some.mp hs
    exact h.threadSetrun hl hs
  | chooseThread myprocessor =>
    obtain ⟨⟨s1, th⟩, h1, rfl⟩ := map_eq_some_iff.mp hs
    exact h.chooseThread h1
  | choosePsetThread myprocessor pset =>
    obtain ⟨⟨s1, th⟩, h1, rfl⟩ := map_eq_some_iff.mp hs
    exact h.choosePsetThread h1
  | threadDepressPriority th =>
    obtain ⟨hth, rfl⟩ := Trace.of_guard hs
    exact h.threadDepressPriority hth
  | threadDepressTimeout env th => exact h.threadDepressTimeout hs
  | threadDepressAbort env th => exact h.threadDepressAbort hs
  | take processor =>
    obtain ⟨-, rfl⟩ := Trace.of_guard hs
    exact h.take processor
  | schedTick | setPolicy th policy priority | bind th processor =>
    cases hs
    exact h.congr rfl rfl rfl rfl (fun _ _ _ => rfl) fun _ hp => hp

/-- The run queues as they are set up, with no thread. -/
structure Initial (machRt : Bool) (s : Sched P S T) : Prop where
  rq : ∀ q, s.rq q = RunQueue.init machRt
  runq : ∀ th, s.runq th = none
  nextThread : ∀ p, s.nextThread p = none
  state : ∀ p, s.state p ≠ .dispatching

theorem Initial.inv (h : Initial machRt s) : Inv machRt s where
  wf q := by
    rw [h.rq q]
    exact RunQueue.WF.init machRt
  queued q p th hm := by
    rw [h.rq q] at hm
    cases hm
  onq th q hq := by
    rw [h.runq th] at hq
    cases hq
  next p th hp := h.runq th
  distinct p p' th hp := by
    rw [h.nextThread p] at hp
    cases hp
  dispatching p hp := absurd hp (h.state p)

/-- What holds of the run queues, and of the routines that read them. -/
structure Consistent (machRt : Bool) (s : Sched P S T) : Prop where
  /-- The bitmap, the first queue and the counts of a run queue are those of its queues. -/
  wf : ∀ q, (s.rq q).WF machRt
  /-- A queued thread is on the queue of its priority, and its fields name that queue. -/
  queued : ∀ q p th, th ∈ (s.rq q).runq p → s.schedPri th = p ∧ s.runq th = some q ∧ s.whichq th = p
  unique : ∀ q q' p p' th, th ∈ (s.rq q).runq p → th ∈ (s.rq q').runq p' → q = q' ∧ p = p'
  named : ∀ th q, s.runq th = some q → Queued s q th
  unqueued : ∀ th, s.runq th = none → ∀ q, ¬ Queued s q th
  chooseThread : ∀ myprocessor, ∃ s' th, chooseThread machRt s myprocessor = some (s', th) ∧
    Best s (Own s myprocessor) myprocessor th
  choosePsetThread : ∀ myprocessor pset, ∃ s' th,
    choosePsetThread machRt s myprocessor pset = some (s', th) ∧
      Best s (· = .pset pset) myprocessor th
  doRunqScan : ∀ q stuck locks found, (doRunqScan machRt stuck locks (s.rq q) found).isSome

theorem Inv.consistent (h : Inv machRt s) : Consistent machRt s where
  wf := h.wf
  queued := h.queued
  unique q q' p p' th hm hm' := by
    obtain ⟨hp, hq, -⟩ := h.queued q p th hm
    obtain ⟨hp', hq', -⟩ := h.queued q' p' th hm'
    exact ⟨some.inj (hq.symm.trans hq'), by exact_mod_cast hp.symm.trans hp'⟩
  named th q hq := ⟨_, h.onq th q hq⟩
  unqueued th hth q := fun ⟨p, hm⟩ => h.not_mem hth q p hm
  chooseThread := h.chooseThread_best
  choosePsetThread := h.choosePsetThread_best
  doRunqScan := h.doRunqScan_isSome

/-- **The run queues are consistent in every run**: the summaries of each run queue are those of its
queues, each thread is where its fields say, the two routines that choose a thread return a queued one
of least priority, and the scan for stuck threads ends. -/
theorem runq_of_run [Fintype P] (acts : List (Act P S T)) (s0 s : Sched P S T)
    (h0 : Initial machRt s0) (hr : Trace.run (step machRt) s0 acts = some s) :
    Consistent machRt s := by
  have h : Inv machRt s :=
    Trace.invariant_of_step (fun _ _ _ h hs => h.step hs) acts s0 s h0.inv hr
  exact h.consistent

/-- One processor, and two threads of the same priority. -/
def oneProcessor : Sched Unit Unit Bool where
  rq _ := RunQueue.init false
  schedPri _ := 6
  runq _ := none
  whichq _ := 0
  policy _ := .timeshare
  priority _ := 6
  depressPriority _ := -1
  cpuUsage _ := 0
  schedUsage _ := 0
  cpuDelta _ := 0
  schedDelta _ := 0
  schedStamp _ := 0
  boundProcessor _ := none
  threadPset _ := ()
  schedTick := 0
  state _ := .running
  nextThread _ := none
  procPset _ := ()
  idleThread _ := true
  idleQueue _ := []
  masterProcessor := ()

/-- A thread is queued, and its priority changes while it is. -/
def setPriRun : List (Act Unit Unit Bool) :=
  [.threadSetrun ⟨(), true, 0⟩ false false true, .setPri ⟨(), true, 0⟩ false 3 false]

theorem runq_of_run_setPri :
    ∃ s, Trace.run (step false) oneProcessor setPriRun = some s ∧ (s.rq (.pset ())).low = 3 ∧
      (s.rq (.pset ())).runq 3 = [false] ∧ Consistent false s :=
  ⟨_, rfl, rfl, rfl, runq_of_run setPriRun oneProcessor _
    ⟨fun _ => rfl, fun _ => rfl, fun _ => rfl, nofun⟩ rfl⟩

end Osfmk.Sched

import Osfmk.Kern.Runq

/-!
# The invariant of the run queues

The bitmap, the first queue and the counts of a run queue say what its queues hold, and a thread is
on the queue of its priority if its `runq` field names the run queue, and on no queue otherwise.
-/

open Function (update update_apply update_of_ne update_self)
open List

namespace Osfmk

variable {machRt : Bool}

theorem three_le_nrqs (machRt : Bool) : 3 ≤ nrqs machRt := by cases machRt <;> decide

theorem idlePri_lt (machRt : Bool) : idlePri machRt < nrqs machRt := by cases machRt <;> decide

theorem depressPri_lt (machRt : Bool) : depressPri machRt < idlePri machRt := by
  cases machRt <;> decide

theorem ffsFrom_spec {bits : ℕ → Bool} (fuel : ℕ) :
    ∀ (offset p : ℕ), offset ≤ p → p < offset + fuel → bits p = true →
      bits (ffsFrom bits fuel offset) = true ∧
        ∀ x, offset ≤ x → bits x = true → ffsFrom bits fuel offset ≤ x := by
  induction fuel with
  | zero =>
    intro offset p h1 h2
    omega
  | succ fuel ih =>
    intro offset p h1 h2 hp
    rw [ffsFrom]
    split
    case isTrue hb => exact ⟨hb, fun x hx _ => hx⟩
    case isFalse hb =>
      have hne : ∀ x, bits x = true → x ≠ offset := fun x hx he => hb (he ▸ hx)
      have hnp := hne p hp
      obtain ⟨h3, h4⟩ := ih (offset + 1) p (by omega) (by omega) hp
      refine ⟨h3, fun x hx hbx => h4 x ?_ hbx⟩
      have hnx := hne x hbx
      omega

/-- **`ffsbit` finds the least bit** while the bit of the idle priority is set. -/
theorem ffsbit_isLeast {bits : ℕ → Bool} (h : bits (idlePri machRt) = true) :
    IsLeast {p | bits p = true} (ffsbit machRt bits) := by
  obtain ⟨h1, h2⟩ := ffsFrom_spec (nrqs machRt) 0 (idlePri machRt) (Nat.zero_le _)
    (by rw [Nat.zero_add]; exact idlePri_lt machRt) h
  exact ⟨h1, fun x hx => h2 x (Nat.zero_le x) hx⟩

namespace RunQueue

variable {T : Type} {rq : RunQueue T}

/-- The summaries of a run queue fit its queues. -/
structure WF (machRt : Bool) (rq : RunQueue T) : Prop where
  bits : ∀ p, p < idlePri machRt → (rq.bitmap p = true ↔ rq.runq p ≠ [])
  idle : rq.bitmap (idlePri machRt) = true
  low : IsLeast {p | rq.bitmap p = true} rq.low
  count : rq.count = ∑ p ∈ Finset.range (nrqs machRt), ((rq.runq p).length : ℤ)
  depress : rq.depressCount = (rq.runq (depressPri machRt)).length
  high : ∀ p, idlePri machRt ≤ p → rq.runq p = []
  nodup : ∀ p, (rq.runq p).Nodup

theorem WF.init (machRt : Bool) : WF machRt (init machRt : RunQueue T) := by
  have hbit : ∀ p, (RunQueue.init machRt : RunQueue T).bitmap p = true ↔ p = idlePri machRt := by
    intro p
    simp only [RunQueue.init, update_apply]
    split <;> simp_all
  refine ⟨fun p hp => ?_, (hbit _).mpr rfl, ⟨(hbit _).mpr rfl, fun p hp => ?_⟩, ?_, rfl,
    fun _ _ => rfl, fun _ => nodup_nil⟩
  · exact iff_of_false (fun h => (Nat.ne_of_lt hp) ((hbit p).mp h)) fun h => h rfl
  · exact ((hbit p).mp hp).ge
  · simp [RunQueue.init]

theorem sum_change {n p : ℕ} (hp : p < n) {runq runq' : ℕ → List T}
    (h : ∀ x, x ≠ p → runq' x = runq x) :
    ∑ x ∈ Finset.range n, ((runq' x).length : ℤ) =
      ∑ x ∈ Finset.range n, ((runq x).length : ℤ) - (runq p).length + (runq' p).length := by
  have hmem : p ∈ Finset.range n := Finset.mem_range.mpr hp
  rw [← Finset.add_sum_erase _ _ hmem, ← Finset.add_sum_erase (Finset.range n) _ hmem]
  have hrest : ∑ x ∈ (Finset.range n).erase p, ((runq' x).length : ℤ)
      = ∑ x ∈ (Finset.range n).erase p, ((runq x).length : ℤ) :=
    Finset.sum_congr rfl fun x hx => by rw [h x (Finset.ne_of_mem_erase hx)]
  rw [hrest]
  omega

section

variable (h : WF machRt rq)
include h

theorem WF.enqueue {p : ℕ} (hp : p ≤ depressPri machRt) {th : T}
    (hth : th ∉ rq.runq p) (tail : Bool) : WF machRt (rq.enqueue machRt th p tail) := by
  have hpi : p < idlePri machRt := lt_of_le_of_lt hp (depressPri_lt machRt)
  have hself : (rq.enqueue machRt th p tail).runq p =
      if tail then rq.runq p ++ [th] else th :: rq.runq p := update_self ..
  have hother : ∀ x, x ≠ p → (rq.enqueue machRt th p tail).runq x = rq.runq x := fun x hx =>
    update_of_ne hx ..
  have hlen : ((rq.enqueue machRt th p tail).runq p).length = (rq.runq p).length + 1 := by
    rw [hself]
    cases tail <;> simp
  have hbit : ∀ x, x ≠ p → (rq.enqueue machRt th p tail).bitmap x = rq.bitmap x := fun x hx =>
    update_of_ne hx ..
  have hbitp : (rq.enqueue machRt th p tail).bitmap p = true := update_self ..
  refine ⟨fun x hx => ?_, ?_, ?_, ?_, ?_, fun x hx => ?_, fun x => ?_⟩
  · by_cases hxp : x = p
    · rw [hxp, hbitp]
      refine iff_of_true rfl fun hnil => ?_
      rw [hnil] at hlen
      simp at hlen
    · rw [hbit x hxp, hother x hxp]
      exact h.bits x hx
  · rw [hbit _ (Nat.ne_of_gt hpi)]
    exact h.idle
  · have hlow : (rq.enqueue machRt th p tail).low = if p < rq.low then p else rq.low := rfl
    rw [hlow]
    split
    case isTrue hlt =>
      refine ⟨hbitp, fun x hx => ?_⟩
      by_cases hxp : x = p
      · exact hxp.ge
      · rw [Set.mem_ofPred_eq, hbit x hxp] at hx
        exact hlt.le.trans (h.low.2 hx)
    case isFalse hlt =>
      refine ⟨?_, fun x hx => ?_⟩
      · by_cases hlp : rq.low = p
        · rw [Set.mem_ofPred_eq, hlp]
          exact hbitp
        · rw [Set.mem_ofPred_eq, hbit _ hlp]
          exact h.low.1
      · by_cases hxp : x = p
        · rw [hxp]
          exact not_lt.mp hlt
        · rw [Set.mem_ofPred_eq, hbit x hxp] at hx
          exact h.low.2 hx
  · rw [sum_change (hpi.trans (idlePri_lt machRt)) hother, ← h.count, hlen]
    simp only [RunQueue.enqueue]
    push_cast
    omega
  · have hd : (rq.enqueue machRt th p tail).depressCount =
        if p = depressPri machRt then rq.depressCount + 1 else rq.depressCount := rfl
    rw [hd]
    split
    case isTrue heq =>
      subst heq
      rw [hlen, h.depress]
      push_cast
      rfl
    case isFalse hne =>
      rw [hother _ (Ne.symm hne)]
      exact h.depress
  · rw [hother x (by omega)]
    exact h.high x hx
  · by_cases hxp : x = p
    · subst hxp
      rw [hself]
      cases tail
      · exact List.nodup_cons.mpr ⟨hth, h.nodup x⟩
      refine nodup_append.mpr ⟨h.nodup x, nodup_singleton th, ?_⟩
      rintro a ha b hb rfl
      rw [mem_singleton.mp hb] at ha
      exact hth ha
    · rw [hother x hxp]
      exact h.nodup x

theorem WF.update {p : ℕ} (hp : p ≤ depressPri machRt) {runq : ℕ → List T}
    (hother : ∀ x, x ≠ p → runq x = rq.runq x) (hlen : (runq p).length + 1 = (rq.runq p).length)
    (hn : (runq p).Nodup) : WF machRt (rq.update machRt runq p p) := by
  have hpi : p < idlePri machRt := lt_of_le_of_lt hp (depressPri_lt machRt)
  have hbit : ∀ x, x ≠ p → (rq.update machRt runq p p).bitmap x = rq.bitmap x := fun x hx => by
    simp only [RunQueue.update]
    split
    · exact update_of_ne hx ..
    · rfl
  have hbitp : (rq.update machRt runq p p).bitmap p = true ↔ runq p ≠ [] := by
    simp only [RunQueue.update]
    split
    case isTrue hnil => simp [hnil]
    case isFalse hnil =>
      refine iff_of_true ((h.bits p hpi).mpr fun he => ?_) hnil
      rw [he] at hlen
      simp at hlen
  have hidle : (rq.update machRt runq p p).bitmap (idlePri machRt) = true := by
    rw [hbit _ (Nat.ne_of_gt hpi)]
    exact h.idle
  refine ⟨fun x hx => ?_, hidle, ?_, ?_, ?_, fun x hx => ?_, fun x => ?_⟩
  · by_cases hxp : x = p
    · rw [hxp]
      exact hbitp
    · rw [hbit x hxp]
      exact (h.bits x hx).trans (by rw [show (rq.update machRt runq p p).runq x = rq.runq x from
        hother x hxp])
  · have hlow : (rq.update machRt runq p p).low =
        if runq p = [] then ffsbit machRt (rq.update machRt runq p p).bitmap else rq.low := rfl
    rw [hlow]
    split
    case isTrue => exact ffsbit_isLeast hidle
    case isFalse hnil =>
      -- the bitmap has not changed
      have hsame : (rq.update machRt runq p p).bitmap = rq.bitmap := by
        simp only [RunQueue.update, if_neg hnil]
      rw [hsame]
      exact h.low
  · have hs := sum_change (hpi.trans (idlePri_lt machRt)) hother
    have hc : (rq.update machRt runq p p).count = rq.count - 1 := rfl
    rw [hc, h.count, show (rq.update machRt runq p p).runq = runq from rfl, hs]
    omega
  · have hd : (rq.update machRt runq p p).depressCount =
        if p = depressPri machRt then rq.depressCount - 1 else rq.depressCount := rfl
    rw [hd, show (rq.update machRt runq p p).runq = runq from rfl]
    split
    case isTrue heq =>
      subst heq
      rw [h.depress]
      omega
    case isFalse hne =>
      rw [hother _ (Ne.symm hne)]
      exact h.depress
  · exact (hother x (by omega)).trans (h.high x hx)
  · by_cases hxp : x = p
    · rw [hxp]
      exact hn
    · rw [show (rq.update machRt runq p p).runq x = rq.runq x from hother x hxp]
      exact h.nodup x

theorem WF.low_cases : (rq.low < idlePri machRt ∧ rq.runq rq.low ≠ []) ∨
      rq.low = idlePri machRt ∧ ∀ p, rq.runq p = [] := by
  rcases lt_or_eq_of_le (h.low.2 h.idle) with hlt | heq
  · exact Or.inl ⟨hlt, (h.bits _ hlt).mp h.low.1⟩
  refine Or.inr ⟨heq, fun p => ?_⟩
  rcases lt_or_ge p (idlePri machRt) with hp | hp
  · by_contra hne
    have hle := h.low.2 ((h.bits p hp).mpr hne)
    omega
  · exact h.high p hp

theorem WF.count_pos : 0 < rq.count ↔ ∃ p, rq.runq p ≠ [] := by
  rw [h.count]
  constructor
  · intro hpos
    by_contra hall
    push Not at hall
    rw [Finset.sum_eq_zero fun p _ => by rw [hall p]; rfl] at hpos
    exact lt_irrefl _ hpos
  · rintro ⟨p, hp⟩
    have hlt : p < nrqs machRt := by
      by_contra hge
      exact hp (h.high p ((idlePri_lt machRt).le.trans (not_lt.mp hge)))
    have hlen : 0 < ((rq.runq p).length : ℤ) := by
      exact_mod_cast length_pos_of_ne_nil hp
    exact hlen.trans_le (Finset.single_le_sum (f := fun p => ((rq.runq p).length : ℤ))
      (fun _ _ => Int.natCast_nonneg _) (Finset.mem_range.mpr hlt))

end

end RunQueue

namespace Sched

variable {P S T : Type} {s s' : Sched P S T} {th : T} {q : RunqId P S}

/-- The run queues are well formed, the fields of the threads say where they are, and a thread that
is being dispatched is on no queue. -/
structure Inv (machRt : Bool) (s : Sched P S T) : Prop where
  wf : ∀ q, (s.rq q).WF machRt
  queued : ∀ q p th, th ∈ (s.rq q).runq p → s.schedPri th = p ∧ s.runq th = some q ∧ s.whichq th = p
  onq : ∀ th q, s.runq th = some q → th ∈ (s.rq q).runq (s.schedPri th).toNat
  next : ∀ p th, s.nextThread p = some th → s.runq th = none
  distinct : ∀ p p' th, s.nextThread p = some th → s.nextThread p' = some th → p = p'
  dispatching : ∀ p, s.state p = .dispatching → s.nextThread p ≠ none

/-- A thread is on no queue, and no processor is about to run it. -/
def Loose (s : Sched P S T) (th : T) : Prop := s.runq th = none ∧ ∀ p, s.nextThread p ≠ some th

section

variable (h : Inv machRt s)
include h

theorem Inv.next_ne (hq : s.runq th = some q) (p : P) : s.nextThread p ≠ some th :=
  fun hp => by
    rw [h.next p th hp] at hq
    cases hq

theorem Inv.not_mem (hth : s.runq th = none) (q : RunqId P S) (p : ℕ) :
    th ∉ (s.rq q).runq p := fun hm => by
  rw [(h.queued q p th hm).2.1] at hth
  cases hth

theorem Inv.schedPri_le {p : ℕ} (hm : th ∈ (s.rq q).runq p) :
    p ≤ depressPri machRt := by
  have hlt : p < idlePri machRt := by
    by_contra hge
    rw [(h.wf q).high p (not_lt.mp hge)] at hm
    cases hm
  have := three_le_nrqs machRt
  unfold idlePri at hlt
  unfold depressPri
  omega

theorem Inv.congr (hrq : s'.rq = s.rq) (hrunq : s'.runq = s.runq)
    (hwhich : s'.whichq = s.whichq) (hnext : s'.nextThread = s.nextThread)
    (hpri : ∀ th q, s.runq th = some q → s'.schedPri th = s.schedPri th)
    (hstate : ∀ p, s'.state p = .dispatching → s.state p = .dispatching) : Inv machRt s' where
  wf := hrq ▸ h.wf
  queued q p th hm := by
    rw [hrq] at hm
    obtain ⟨h1, h2, h3⟩ := h.queued q p th hm
    rw [hpri th q h2, hrunq, hwhich]
    exact ⟨h1, h2, h3⟩
  onq th q hq := by
    rw [hrunq] at hq
    rw [hrq, hpri th q hq]
    exact h.onq th q hq
  next p th hp := by
    rw [hnext] at hp
    rw [hrunq]
    exact h.next p th hp
  distinct := by
    rw [hnext]
    exact h.distinct
  dispatching p hp := by
    rw [hnext]
    exact h.dispatching p (hstate p hp)

theorem Inv.setSchedPri [DecidableEq T] (hth : s.runq th = none) (pri : ℤ) :
    Inv machRt { s with schedPri := update s.schedPri th pri } := by
  refine h.congr rfl rfl rfl rfl (fun u q hu => ?_) fun _ hp => hp
  refine update_of_ne (fun he => ?_) ..
  rw [he, hth] at hu
  cases hu

end

variable [DecidableEq P] [DecidableEq S] [DecidableEq T]

section

variable (h : Inv machRt s)
include h

/-- **`run_queue_enqueue` keeps the invariant**. -/
theorem Inv.enqueue (hl : Loose s th) {tail : Bool}
    (hs : runQueueEnqueue machRt s q th tail = some s') : Inv machRt s' := by
  rw [runQueueEnqueue] at hs
  split at hs
  case isTrue => cases hs
  case isFalse hok =>
    cases hs
    push Not at hok
    have hpri : s.schedPri th = ((s.schedPri th).toNat : ℤ) := (Int.toNat_of_nonneg hok.1).symm
    have hle : (s.schedPri th).toNat ≤ depressPri machRt := by omega
    have hmem : ∀ k p u, u ∈ (update s.rq q ((s.rq q).enqueue machRt th
        (s.schedPri th).toNat tail) k).runq p ↔
          u ∈ (s.rq k).runq p ∨ u = th ∧ k = q ∧ p = (s.schedPri th).toNat := by
      intro k p u
      by_cases hk : k = q
      · subst hk
        rw [update_self]
        by_cases hp : p = (s.schedPri th).toNat
        · subst hp
          simp only [RunQueue.enqueue, update_self]
          cases tail <;> simp [or_comm]
        · simp [RunQueue.enqueue, hp]
      · rw [update_of_ne hk]
        simp [hk]
    refine ⟨fun k => ?_, fun k p u hu => ?_, fun u k hu => ?_, fun p u hp => ?_, h.distinct,
      h.dispatching⟩
    · by_cases hk : k = q
      · subst hk
        dsimp only
        rw [update_self]
        exact (h.wf k).enqueue hle (h.not_mem hl.1 k _) tail
      · dsimp only
        rw [update_of_ne hk]
        exact h.wf k
    · dsimp only at hu ⊢
      rcases (hmem k p u).mp hu with hu | ⟨rfl, rfl, rfl⟩
      · have hne : u ≠ th := fun he => h.not_mem hl.1 k p (he ▸ hu)
        rw [update_of_ne hne, update_of_ne hne]
        exact h.queued k p u hu
      · rw [update_self, update_self]
        exact ⟨hpri, rfl, rfl⟩
    · dsimp only at hu ⊢
      refine (hmem k _ u).mpr ?_
      by_cases hut : u = th
      · rw [hut, update_self] at hu
        cases hu
        exact Or.inr ⟨hut, rfl, by rw [hut]⟩
      · rw [update_of_ne hut] at hu
        exact Or.inl (h.onq u k hu)
    · have hne : u ≠ th := fun he => hl.2 p (he ▸ hp)
      dsimp only
      rw [update_of_ne hne]
      exact h.next p u hp

theorem Inv.unlink {p : ℕ} (hth : th ∈ (s.rq q).runq p) {runq : ℕ → List T}
    (hother : ∀ x, x ≠ p → runq x = (s.rq q).runq x)
    (hmem : ∀ u, u ∈ runq p ↔ u ∈ (s.rq q).runq p ∧ u ≠ th)
    (hlen : (runq p).length + 1 = ((s.rq q).runq p).length) (hn : (runq p).Nodup) :
    Inv machRt { s with
      rq := update s.rq q ((s.rq q).update machRt runq p p)
      runq := update s.runq th none } := by
  obtain ⟨hpri, hrunq, -⟩ := h.queued q p th hth
  have hle := h.schedPri_le hth
  have hmem' : ∀ k x u, u ∈ (update s.rq q ((s.rq q).update machRt runq p p) k).runq x ↔
      u ∈ (s.rq k).runq x ∧ u ≠ th := by
    intro k x u
    by_cases hk : k = q
    · subst hk
      rw [update_self]
      by_cases hx : x = p
      · subst hx
        exact hmem u
      rw [show ((s.rq k).update machRt runq p p).runq x = (s.rq k).runq x from hother x hx]
      refine ⟨fun hu => ⟨hu, fun he => hx ?_⟩, And.left⟩
      have := (h.queued k x u hu).1
      rw [he, hpri] at this
      exact_mod_cast this.symm
    rw [update_of_ne hk]
    refine ⟨fun hu => ⟨hu, fun he => hk ?_⟩, And.left⟩
    have := (h.queued k x u hu).2.1
    rw [he, hrunq] at this
    exact (Option.some.inj this).symm
  refine ⟨fun k => ?_, fun k x u hu => ?_, fun u k hu => ?_, fun x u hx => ?_, h.distinct,
    h.dispatching⟩
  · dsimp only
    by_cases hk : k = q
    · subst hk
      rw [update_self]
      exact (h.wf k).update hle hother hlen hn
    · rw [update_of_ne hk]
      exact h.wf k
  · dsimp only at hu ⊢
    obtain ⟨hu, hne⟩ := (hmem' k x u).mp hu
    rw [update_of_ne hne]
    exact h.queued k x u hu
  · dsimp only at hu ⊢
    have hne : u ≠ th := fun he => by
      rw [he, update_self] at hu
      cases hu
    rw [update_of_ne hne] at hu
    exact (hmem' k _ u).mpr ⟨h.onq u k hu, hne⟩
  · dsimp only
    have hne : u ≠ th := fun he => h.next_ne hrunq x (he ▸ hx)
    rw [update_of_ne hne]
    exact h.next x u hx

/-- **`rem_runq` keeps the invariant**, and leaves the thread on no queue. -/
theorem Inv.remRunq (th : T) :
    Inv machRt (remRunq machRt s th).1 ∧ (Sched.remRunq machRt s th).1.runq th = none := by
  rw [Sched.remRunq]
  cases hr : s.runq th with
  | none => exact ⟨h, hr⟩
  | some q =>
    have hm := h.onq th q hr
    obtain ⟨hpri, -, hw⟩ := h.queued q _ th hm
    have hn := (h.wf q).nodup (s.schedPri th).toNat
    refine ⟨?_, update_self ..⟩
    dsimp only
    rw [hw]
    refine h.unlink hm (fun x hx => erase_of_not_mem fun hu => hx ?_) (fun u => ?_) ?_ (hn.erase th)
    · have hx' := (h.queued q x th hu).1
      rw [hx']
      rfl
    · rw [hn.mem_erase_iff]
      exact and_comm
    · rw [length_erase_of_mem hm]
      have := length_pos_of_mem hm
      omega

end

theorem remRunq_snd (machRt : Bool) (s : Sched P S T) (th : T) :
    (remRunq machRt s th).2 = s.runq th := by
  rw [remRunq]
  cases s.runq th <;> rfl

theorem remRunq_frame (machRt : Bool) (s : Sched P S T) (th : T) :
    (remRunq machRt s th).1.nextThread = s.nextThread ∧
      (remRunq machRt s th).1.schedStamp = s.schedStamp := by
  rw [remRunq]
  cases s.runq th <;> exact ⟨rfl, rfl⟩

/-- **Taking the first thread of the first queue off keeps the invariant**. -/
theorem Inv.takeLow (h : Inv machRt s) (hs : takeLow machRt s q = some (s', th)) :
    Inv machRt s' ∧ th ∈ (s.rq q).runq (s.rq q).low ∧ s'.runq th = none ∧
      s'.nextThread = s.nextThread := by
  rw [Sched.takeLow] at hs
  cases hl : (s.rq q).runq (s.rq q).low with
  | nil =>
    rw [hl] at hs
    cases hs
  | cons u rest =>
    rw [hl] at hs
    cases hs
    have hm : th ∈ (s.rq q).runq (s.rq q).low := hl ▸ mem_cons_self
    obtain ⟨-, -, hw⟩ := h.queued q _ th hm
    have hn := (h.wf q).nodup (s.rq q).low
    rw [hl] at hn
    have hn' := List.nodup_cons.mp hn
    refine ⟨?_, mem_cons_self, update_self .., rfl⟩
    rw [hw]
    refine h.unlink hm (fun x hx => update_of_ne hx ..) (fun u => ?_) ?_ ?_
    · rw [update_self, hl, mem_cons]
      refine ⟨fun hu => ⟨Or.inr hu, fun he => hn'.1 (he ▸ hu)⟩, fun hu => hu.1.resolve_left hu.2⟩
    · rw [update_self, hl, length_cons]
    · rw [update_self]
      exact hn'.2

end Sched

end Osfmk

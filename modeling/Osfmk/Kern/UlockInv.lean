import Osfmk.Kern.Ulock

/-!
# Who holds a ulock

What the threads that use a ulock know about it, and that every step of `Ulock.step` keeps it, as long
as nobody is served before it sleeps.
-/

set_option linter.unusedSectionVars false

open Function (update update_apply update_of_ne update_self)
open Option (some.inj)

namespace Osfmk

namespace Ulock

variable {T : Type} [DecidableEq T]

/-- What a thread knows about itself. -/
structure LocalOk (x : UlockThread T) : Prop where
  waiting : x.waiting = true → ∃ op, x.pc = .asleep op
  served : x.served = true → ∃ op, x.pc = .asleep op
  woken : x.served = true → x.waiting = false → x.linked = false ∧ x.result.ok = true
  empty : ∀ op, x.pc = .asleep op → x.served = false → x.waiting = false → x.result.ok = false

/-- What it knows about the ulock, before the lock set is destroyed: whether it is the owner, is on the
queue, is in `ho_thread`. -/
structure ActiveOk (x : UlockThread T) (own queued pending : Prop) : Prop where
  believes : x.believes = true → own
  owner : own → x.believes = true ∨ x.served = true ∧ x.pc.op ≠ some .handoff
  granted : x.served = true → x.pc.op ≠ some .handoff → own
  queued : queued ↔ x.pc.op = some .acquire ∧ x.served = false
  pending : pending ↔ (x.pc.op = some .handoff ∨ x.pc.op = some .accept) ∧ x.served = false
  giver : x.pc.op = some .handoff → x.served = false → own
  taker : x.pc.op = some .accept → x.served = false → ¬ own
  linked : x.pc.op = some .acquire → x.served = false → x.linked = true
  marked : ∀ op, x.pc = .asleep op → x.served = false → x.waiting = false → x.linked = true

/-- The wake-ups that are due are those that somebody is about to do. -/
structure Wakers (th : T → UlockThread T) : Prop where
  due : ∀ a, (th a).due = true ↔ ∃ u r, (th u).pc = .completing a r
  one : ∀ t u a r q, (th t).pc = .completing a r → (th u).pc = .completing a q → t = u
  ok : ∀ u a r, (th u).pc = .completing a r → r.ok = true

/-- What holds of the ulock itself, before the lock set is destroyed. -/
structure LockOk (s : Ulock T) : Prop where
  nodup : s.blockedThreads.Nodup
  held : s.held = true ↔ s.owner ≠ none
  onHeld : s.onHeld = s.held
  onHandoff : s.onHandoff = true ↔ s.hoThread ≠ none

/-- **What holds between two steps.** -/
structure Inv (s : Ulock T) : Prop where
  loc : ∀ t, LocalOk (s.th t)
  wakers : Wakers s.th
  act : s.active = true → ∀ t,
    ActiveOk (s.th t) (s.owner = some t) (t ∈ s.blockedThreads) (s.hoThread = some t)
  lock : s.active = true → LockOk s
  one : s.active = false → ∀ t u, (s.th t).holds = true → (s.th u).holds = true → t = u

variable {s s' : Ulock T} {t a : T} {th th' : T → UlockThread T} {x : UlockThread T}

theorem Wakers.congr (h : Wakers th)
    (hpc : ∀ u a r, (th' u).pc = .completing a r ↔ (th u).pc = .completing a r)
    (hdue : ∀ u, (th' u).due = (th u).due) : Wakers th' := by
  refine ⟨fun a => ?_, fun t u a r q ht hu => ?_, fun u a r hu => h.ok u a r ((hpc u a r).mp hu)⟩
  · rw [hdue, h.due]
    simp only [hpc]
  · exact h.one t u a r q ((hpc t a r).mp ht) ((hpc u a q).mp hu)

theorem Wakers.set (h : Wakers th) (hpc : ∀ a r, x.pc = .completing a r ↔ (th t).pc = .completing a r)
    (hdue : x.due = (th t).due) : Wakers (update th t x) := by
  refine h.congr (fun u a r => ?_) fun u => ?_
  · rw [update_apply]
    split
    · next hu => rw [hu, hpc]
    · rfl
  rw [update_apply]
  split
  · next hu => rw [hu, hdue]
  · rfl

variable {op : UlockOp} {r : UlockResult} {y : UlockThread T}

theorem due_update {b : T} (hy : y.due = (th t).due) (hba : b ≠ a) :
    (update (update th a x) t y b).due = (th b).due := by
  rw [update_apply]
  split
  · next hbt => rw [hy, hbt]
  · rw [update_of_ne hba]

theorem Wakers.serve (h : Wakers th) (hta : t ≠ a)
    (hidle : (th t).pc = .idle) (hold : (th a).due = false) (hx : x.due = true)
    (hxpc : x.pc = (th a).pc) (hy : y.pc = .completing a r) (hydue : y.due = (th t).due)
    (hr : r.ok = true) : Wakers (update (update th a x) t y) := by
  -- nobody was going to wake it before
  have hno : ∀ u q, (th u).pc ≠ .completing a q := by
    intro u q hu
    have hdue := (h.due a).mpr ⟨u, q, hu⟩
    rw [hold] at hdue
    cases hdue
  have hpc : ∀ u b q, (update (update th a x) t y u).pc = .completing b q ↔
      u = t ∧ b = a ∧ q = r ∨ (th u).pc = .completing b q := by
    intro u b q
    rw [update_apply, update_apply]
    by_cases hut : u = t
    · rw [if_pos hut, hy, hut, hidle, UlockPc.completing.injEq]
      constructor
      · rintro ⟨hb, hq⟩
        exact Or.inl ⟨rfl, hb.symm, hq.symm⟩
      · rintro (⟨-, hb, hq⟩ | hf)
        · exact ⟨hb.symm, hq.symm⟩
        · cases hf
    rw [if_neg hut]
    split
    · next hua =>
      rw [hxpc, hua]
      exact ⟨Or.inr, fun hor => hor.elim (fun hf => absurd (hua ▸ hf.1) hut) id⟩
    · exact ⟨Or.inr, fun hor => hor.elim (fun hf => absurd hf.1 hut) id⟩
  refine ⟨fun b => ?_, fun v u b q q' hv hu => ?_, fun u b q hu => ?_⟩
  · simp only [hpc]
    by_cases hba : b = a
    · rw [hba, update_of_ne (Ne.symm hta), update_self, hx]
      exact ⟨fun _ => ⟨t, r, Or.inl ⟨rfl, rfl, rfl⟩⟩, fun _ => rfl⟩
    rw [due_update hydue hba, h.due]
    constructor
    · rintro ⟨u, q, hu⟩
      exact ⟨u, q, Or.inr hu⟩
    · rintro ⟨u, q, ⟨-, hb, -⟩ | hu⟩
      · exact absurd hb hba
      · exact ⟨u, q, hu⟩
  · rcases (hpc v b q).mp hv with ⟨hv, hb, -⟩ | hv
    · rcases (hpc u b q').mp hu with ⟨hu, -, -⟩ | hu
      · rw [hv, hu]
      · rw [hb] at hu
        exact absurd hu (hno u q')
    · rcases (hpc u b q').mp hu with ⟨-, hb, -⟩ | hu
      · rw [hb] at hv
        exact absurd hv (hno v q)
      · exact h.one v u b q q' hv hu
  · rcases (hpc u b q).mp hu with ⟨-, -, hq⟩ | hu
    · rw [hq]
      exact hr
    · exact h.ok u b q hu

theorem Wakers.complete (h : Wakers th)
    (ht : (th t).pc = .completing a r) (hta : t ≠ a) (hx : x.due = false) (hxpc : x.pc = (th a).pc)
    (hypc : y.pc = .idle) (hydue : y.due = (th t).due) :
    Wakers (update (update th a x) t y) := by
  have hpc : ∀ u b q, (update (update th a x) t y u).pc = .completing b q ↔
      u ≠ t ∧ (th u).pc = .completing b q := by
    intro u b q
    rw [update_apply, update_apply]
    by_cases hut : u = t
    · rw [if_pos hut, hypc]
      exact ⟨nofun, fun hf => absurd hut hf.1⟩
    rw [if_neg hut]
    split
    · next hua =>
      rw [hxpc, hua]
      exact ⟨fun hp => ⟨fun he => hut (hua.trans he), hp⟩, fun hp => hp.2⟩
    · exact ⟨fun hp => ⟨hut, hp⟩, fun hp => hp.2⟩
  refine ⟨fun b => ?_, fun v u b q q' hv hu => ?_, fun u b q hu => h.ok u b q ((hpc u b q).mp hu).2⟩
  · simp only [hpc]
    by_cases hba : b = a
    · rw [hba, update_of_ne (Ne.symm hta), update_self, hx]
      refine ⟨nofun, ?_⟩
      rintro ⟨u, q, hut, hu⟩
      exact absurd (h.one u t a q r hu ht) hut
    rw [due_update hydue hba, h.due]
    constructor
    · rintro ⟨u, q, hu⟩
      refine ⟨u, q, fun hut => ?_, hu⟩
      rw [hut, ht] at hu
      exact hba (UlockPc.completing.inj hu).1.symm
    · rintro ⟨u, q, -, hu⟩
      exact ⟨u, q, hu⟩
  · exact h.one v u b q q' ((hpc v b q).mp hv).2 ((hpc u b q').mp hu).2

section Records

variable {own queued pending : Prop}

theorem activeOk_off (hop : x.pc.op = none) (hs : x.served = false) :
    ActiveOk x own queued pending ↔ (x.believes = true ↔ own) ∧ ¬ queued ∧ ¬ pending := by
  constructor
  · intro h
    have := h.believes
    have := h.owner
    have := h.queued
    have := h.pending
    grind
  · rintro ⟨hb, hq, hp⟩
    constructor <;> grind [UlockPc.op]

theorem activeOk_acquire (hop : x.pc.op = some .acquire) (hs : x.served = false) :
    ActiveOk x own queued pending ↔
      (x.believes = true ↔ own) ∧ queued ∧ ¬ pending ∧ x.linked = true := by
  constructor
  · intro h
    have := h.believes
    have := h.owner
    have := h.queued
    have := h.pending
    have := h.linked
    grind
  · rintro ⟨hb, hq, hp, hl⟩
    constructor <;> grind

theorem activeOk_handoff (hop : x.pc.op = some .handoff) (hs : x.served = false) :
    ActiveOk x own queued pending ↔ own ∧ x.believes = true ∧ ¬ queued ∧ pending ∧
      (x.pc = .asleep .handoff → x.waiting = false → x.linked = true) := by
  constructor
  · intro h
    have := h.owner
    have := h.queued
    have := h.pending
    have := h.giver
    have := h.marked .handoff
    grind
  · rintro ⟨ho, hb, hq, hp, hm⟩
    constructor <;> grind [UlockPc.op]

theorem activeOk_accept (hop : x.pc.op = some .accept) (hs : x.served = false) :
    ActiveOk x own queued pending ↔ ¬ own ∧ x.believes = false ∧ ¬ queued ∧ pending ∧
      (x.pc = .asleep .accept → x.waiting = false → x.linked = true) := by
  constructor
  · intro h
    have := h.believes
    have := h.queued
    have := h.pending
    have := h.taker
    have := h.marked .accept
    grind
  · rintro ⟨ho, hb, hq, hp, hm⟩
    constructor <;> grind [UlockPc.op]

theorem activeOk_granted (hop : x.pc.op ≠ some .handoff) (hs : x.served = true) :
    ActiveOk x own queued pending ↔ own ∧ ¬ queued ∧ ¬ pending := by
  constructor
  · intro h
    have := h.granted
    have := h.queued
    have := h.pending
    grind
  · rintro ⟨ho, hq, hp⟩
    constructor <;> grind

theorem activeOk_given (hop : x.pc.op = some .handoff) (hs : x.served = true) :
    ActiveOk x own queued pending ↔ (x.believes = true ↔ own) ∧ ¬ queued ∧ ¬ pending := by
  constructor
  · intro h
    have := h.believes
    have := h.owner
    have := h.queued
    have := h.pending
    grind
  · rintro ⟨hb, hq, hp⟩
    constructor <;> grind

theorem LocalOk.of_idle (hx : LocalOk x) (hpc : x.pc = .idle) :
    x.waiting = false ∧ x.served = false := by
  constructor
  · by_contra hw
    obtain ⟨op, hop⟩ := hx.waiting (by simpa using hw)
    rw [hpc] at hop
    cases hop
  · by_contra hw
    obtain ⟨op, hop⟩ := hx.served (by simpa using hw)
    rw [hpc] at hop
    cases hop

theorem localOk_awake (hw : x.waiting = false) (hs : x.served = false)
    (he : ∀ op, x.pc = .asleep op → x.result.ok = false) : LocalOk x := by
  refine ⟨fun h => ?_, fun h => ?_, fun h => ?_, fun op hpc _ _ => he op hpc⟩ <;> simp_all

/-- **The owner, and nobody else, holds the ulock.** -/
theorem ActiveOk.holds_iff (h : ActiveOk x own queued pending) : x.holds = true ↔ own := by
  have hb := h.believes
  have ho := h.owner
  have hg := h.granted
  simp only [UlockThread.holds, Bool.or_eq_true, Bool.and_eq_true, decide_eq_true_eq]
  constructor
  · rintro (h | ⟨hs, hop⟩)
    · exact hb h
    · exact hg hs hop
  · exact ho

end Records

theorem Inv.frame (h : Inv s) {x : UlockThread T} (hth : s'.th = update (update s.th a x) t y)
    (hx : LocalOk x) (hy : LocalOk y) (hw : Wakers s'.th) (hact : s'.active = s.active)
    (hrest : s.active = true → ∀ u, u ≠ t → u ≠ a → (s'.owner = some u ↔ s.owner = some u) ∧
      (u ∈ s'.blockedThreads ↔ u ∈ s.blockedThreads) ∧
      (s'.hoThread = some u ↔ s.hoThread = some u))
    (hxa : s.active = true → a ≠ t →
      ActiveOk x (s'.owner = some a) (a ∈ s'.blockedThreads) (s'.hoThread = some a))
    (hyt : s.active = true →
      ActiveOk y (s'.owner = some t) (t ∈ s'.blockedThreads) (s'.hoThread = some t))
    (hlock : s.active = true → LockOk s')
    (hone : s.active = false → (x.holds = true → (s.th a).holds = true) ∧
      (y.holds = true → (s.th t).holds = true)) : Inv s' := by
  refine ⟨fun u => ?_, hw, fun hs u => ?_, fun hs => hlock (hact ▸ hs), fun hs u v hu hv => ?_⟩
  · rw [hth, update_apply, update_apply]
    split
    · exact hy
    split
    · exact hx
    · exact h.loc u
  · rw [hact] at hs
    rw [hth, update_apply, update_apply]
    split
    · next hut =>
      rw [hut]
      exact hyt hs
    split
    · next hut hua =>
      rw [hua]
      exact hxa hs fun he => hut (hua.trans he)
    next hut hua =>
    obtain ⟨ho, hq, hp⟩ := hrest hs u hut hua
    rw [propext ho, propext hq, propext hp]
    exact h.act hs u
  · rw [hact] at hs
    -- nobody comes to hold a ulock of a lock set that has been destroyed
    have hold : ∀ w, (s'.th w).holds = true → (s.th w).holds = true := by
      intro w
      rw [hth, update_apply, update_apply]
      split
      · next hwt =>
        rw [hwt]
        exact (hone hs).2
      split
      · next hwa =>
        rw [hwa]
        exact (hone hs).1
      · exact id
    exact h.one hs u v (hold u hu) (hold v hv)

theorem Inv.set (h : Inv s) (hth : s'.th = update s.th t y)
    (hy : LocalOk y) (hpc : ∀ a r, y.pc = .completing a r ↔ (s.th t).pc = .completing a r)
    (hdue : y.due = (s.th t).due) (hact : s'.active = s.active)
    (hrest : s.active = true → ∀ u, u ≠ t → (s'.owner = some u ↔ s.owner = some u) ∧
      (u ∈ s'.blockedThreads ↔ u ∈ s.blockedThreads) ∧
      (s'.hoThread = some u ↔ s.hoThread = some u))
    (hyt : s.active = true →
      ActiveOk y (s'.owner = some t) (t ∈ s'.blockedThreads) (s'.hoThread = some t))
    (hlock : s.active = true → LockOk s')
    (hone : s.active = false → y.holds = true → (s.th t).holds = true) : Inv s' := by
  refine h.frame (t := t) (a := t) (x := y) (y := y) ?_ hy hy ?_ hact
    (fun hs u hut _ => hrest hs u hut) (fun _ hf => absurd rfl hf) hyt hlock
    fun hs => ⟨hone hs, hone hs⟩
  · rw [hth, Function.update_idem]
  · rw [hth]
    exact h.wakers.set hpc hdue

theorem outcome_ok (s : Ulock T) : s.outcome.ok = true := by
  unfold outcome
  split <;> rfl

section

variable (h : Inv s)
include h

theorem Inv.queued (hact : s.active = true) (ha : a ∈ s.blockedThreads) :
    (s.th a).served = false ∧ s.hoThread ≠ some a := by
  obtain ⟨hop, hs⟩ := (h.act hact a).queued.mp ha
  exact ⟨hs, ((activeOk_acquire hop hs).mp (h.act hact a)).2.2.1⟩

theorem Inv.pending (hact : s.active = true) (ha : s.hoThread = some a) :
    (s.th a).served = false ∧ a ∉ s.blockedThreads := by
  obtain ⟨hop, hs⟩ := (h.act hact a).pending.mp ha
  refine ⟨hs, ?_⟩
  rcases hop with hop | hop
  · exact ((activeOk_handoff hop hs).mp (h.act hact a)).2.2.1
  · exact ((activeOk_accept hop hs).mp (h.act hact a)).2.2.1

variable (hidle : (s.th t).pc = .idle)
include hidle

theorem Inv.idle (hact : s.active = true) :
    ((s.th t).believes = true ↔ s.owner = some t) ∧ t ∉ s.blockedThreads ∧ s.hoThread ≠ some t :=
  (activeOk_off (by rw [hidle]; rfl) ((h.loc t).of_idle hidle).2).mp (h.act hact t)

theorem Inv.take (hact : s.active = true)
    (hheld : s.held = false) : Inv (s.take t) := by
  obtain ⟨hw, hs⟩ := (h.loc t).of_idle hidle
  refine h.set (t := t) rfl (localOk_awake hw hs (by simp [hidle])) (fun _ _ => Iff.rfl) rfl rfl
    (fun ha u hu => ?_) (fun ha => ?_) (fun ha => ?_) (by simp [hact])
  · have hnone : s.owner = none := by
      by_contra hne
      rw [(h.lock ha).held.mpr hne] at hheld
      cases hheld
    simp [Ulock.take, setTh, hnone, Ne.symm hu]
  · obtain ⟨-, hq, hp⟩ := h.idle hidle ha
    refine (activeOk_off (x := { s.th t with believes := true }) ?_ hs).mpr ⟨?_, hq, hp⟩
    · rw [hidle]
      rfl
    · simp [Ulock.take, setTh]
  · have hl := h.lock ha
    exact ⟨hl.nodup, by simp [Ulock.take, setTh], rfl, hl.onHandoff⟩

theorem Inv.lockAcquire : Inv (s.lockAcquire t) := by
  unfold Ulock.lockAcquire
  split
  · exact h
  next hact =>
  rw [Bool.not_eq_false] at hact
  split
  · obtain ⟨hw, hs⟩ := (h.loc t).of_idle hidle
    have hperm := Sema.syncPolicyEnqueue_perm s.policy s.priority s.blockedThreads t
    refine h.set (t := t) rfl (localOk_awake hw hs (by simp)) (fun a r => ?_) rfl rfl
      (fun ha u hu => ?_) (fun ha => ?_) (fun ha => ?_) (by simp [hact])
    · simp [hidle]
    · simp [setTh, hperm.mem_iff, hu]
    · obtain ⟨ho, -, hp⟩ := h.idle hidle ha
      refine (activeOk_acquire (x := { s.th t with pc := .published .acquire, linked := true })
        rfl hs).mpr ⟨ho, ?_, hp, rfl⟩
      simp [setTh, hperm.mem_iff]
    · have hl := h.lock ha
      exact ⟨hperm.nodup_iff.mpr (hl.nodup.cons (h.idle hidle ha).2.1), hl.held, hl.onHeld, hl.onHandoff⟩
  · next hheld => exact h.take hidle hact (by simpa using hheld)

theorem Inv.lockTry : Inv (s.lockTry t) := by
  unfold Ulock.lockTry
  split
  · exact h
  next hact =>
  split
  · exact h
  · next hheld => exact h.take hidle (by simpa using hact) (by simpa using hheld)

theorem Inv.give (hon : s.active = true) (hown : s.owner = some t) (hpc : (s.th a).pc = .asleep op)
    (hop : op ≠ .handoff) (hw : (s.th a).waiting = true) (hs : (s.th a).served = false)
    (hth : s'.th = update (update s.th a { s.th a with served := true }) t
      { s.th t with believes := false, pc := .completing a r })
    (hr : r.ok = true) (hact : s'.active = s.active) (hown' : s'.owner = some a)
    (hq : s.active = true → ∀ u, u ∈ s'.blockedThreads ↔ u ∈ s.blockedThreads ∧ u ≠ a)
    (hp : s.active = true → ∀ u, s'.hoThread = some u ↔ s.hoThread = some u ∧ u ≠ a)
    (hlock : s.active = true → LockOk s') : Inv s' := by
  have hta : t ≠ a := by
    intro he
    rw [he, hpc] at hidle
    cases hidle
  obtain ⟨htw, hts⟩ := (h.loc t).of_idle hidle
  have hwk : Wakers s'.th := by
    rw [hth]
    refine h.wakers.serve hta hidle ?_ ?_ rfl rfl rfl hr
    · simp [UlockThread.due, hs]
    · simp [UlockThread.due, hw]
  refine h.frame hth ⟨fun _ => ⟨op, hpc⟩, fun _ => ⟨op, hpc⟩, fun _ hf => ?_, nofun⟩
    (localOk_awake htw hts (by simp)) hwk hact (fun ha u hut hua => ?_) (fun ha _ => ?_)
    (fun ha => ?_) hlock (by simp [hon])
  · rw [show ({ s.th a with served := true } : UlockThread T).waiting = true from hw] at hf
    cases hf
  · rw [hown', hown, hq ha, hp ha]
    simp [hua, Ne.symm hut, Ne.symm hua]
  · refine (activeOk_granted (x := { s.th a with served := true }) ?_ rfl).mpr ⟨hown', ?_, ?_⟩
    · simp [hpc, UlockPc.op, hop]
    · simp [hq ha]
    · simp [hp ha]
  obtain ⟨-, hnq, hnp⟩ := h.idle hidle ha
  refine (activeOk_off (x := { s.th t with believes := false, pc := .completing a r })
    rfl hts).mpr ⟨?_, ?_, ?_⟩
  · simp [hown', Ne.symm hta]
  · simp [hq ha, hnq]
  · simp [hp ha, hnp]

theorem Inv.lockRelease
    (hset : ∀ a rest, s.owner = some t → s.blockedThreads = a :: rest →
      (s.th a).pc = .asleep .acquire ∧ (s.th a).waiting = true) : Inv (s.lockRelease t) := by
  unfold Ulock.lockRelease
  split
  · exact h
  next hact =>
  split
  · exact h
  next hown =>
  rw [not_not] at hown
  rw [Bool.not_eq_false] at hact
  have hl := h.lock hact
  split
  · next a rest hb =>
    obtain ⟨hpc, hw⟩ := hset a rest hown hb
    obtain ⟨hs, hnp⟩ := h.queued hact (a := a) (by simp [hb])
    have hnd : a ∉ rest ∧ rest.Nodup := List.nodup_cons.mp (hb ▸ hl.nodup)
    have hheld : s.held = true := hl.held.mpr (by simp [hown])
    refine h.give hidle hact hown hpc (by decide) hw hs rfl (outcome_ok _) rfl rfl (fun _ u => ?_)
      (fun _ u => ?_) fun _ => ⟨hnd.2, ?_, hl.onHeld, hl.onHandoff⟩
    · simp only [Ulock.serve, setTh, hb, List.mem_cons]
      grind
    · simp only [Ulock.serve, setTh]
      grind
    · simp [Ulock.serve, setTh, hheld]
  · next hb =>
    obtain ⟨htw, hts⟩ := (h.loc t).of_idle hidle
    refine h.set (t := t) rfl (localOk_awake htw hts (by simp [hidle])) (fun _ _ => Iff.rfl) rfl rfl
      (fun ha u hu => ?_) (fun ha => ?_) (fun ha => ?_) (by simp [hact])
    · simp [setTh, hown, Ne.symm hu]
    · obtain ⟨-, hq, hp⟩ := h.idle hidle ha
      refine (activeOk_off (x := { s.th t with believes := false }) ?_ hts).mpr ⟨?_, hq, hp⟩
      · rw [hidle]
        rfl
      · simp [setTh]
    · exact ⟨hl.nodup, by simp [setTh], rfl, hl.onHandoff⟩

theorem Inv.publish (hact : s.active = true)
    (hno : s.hoThread = none)
    (hop : op = .handoff ∧ s.owner = some t ∨ op = .accept ∧ s.owner ≠ some t) :
    Inv (s.publish t op) := by
  obtain ⟨htw, hts⟩ := (h.loc t).of_idle hidle
  obtain ⟨ho, hq, -⟩ := h.idle hidle hact
  have hl := h.lock hact
  refine h.set (t := t) rfl (localOk_awake htw hts (by simp)) (fun a r => ?_) rfl rfl
    (fun ha u hu => ?_) (fun ha => ?_)
    (fun ha => ⟨hl.nodup, hl.held, hl.onHeld, by simp [Ulock.publish, setTh]⟩) (by simp [hact])
  · simp [hidle]
  · simp [Ulock.publish, setTh, hno, Ne.symm hu]
  rcases hop with ⟨rfl, hown⟩ | ⟨rfl, hown⟩
  · refine (activeOk_handoff (x := { s.th t with pc := .published .handoff }) rfl hts).mpr
      ⟨hown, ho.mpr hown, hq, rfl, nofun⟩
  refine (activeOk_accept (x := { s.th t with pc := .published .accept }) rfl hts).mpr
    ⟨hown, ?_, hq, rfl, nofun⟩
  rw [← Bool.not_eq_true]
  exact fun hb => hown (ho.mp hb)

theorem Inv.lockHandoff
    (hset : ∀ a, s.owner = some t → s.hoThread = some a →
      (s.th a).pc = .asleep .accept ∧ (s.th a).waiting = true) : Inv (s.lockHandoff t) := by
  unfold Ulock.lockHandoff
  split
  · exact h
  next hact =>
  split
  · exact h
  next hown =>
  rw [not_not] at hown
  rw [Bool.not_eq_false] at hact
  have hl := h.lock hact
  split
  · next a ha =>
    obtain ⟨hpc, hw⟩ := hset a hown ha
    obtain ⟨hs, hnq⟩ := h.pending hact ha
    have hheld : s.held = true := hl.held.mpr (by simp [hown])
    refine h.give hidle hact hown hpc (by decide) hw hs rfl (outcome_ok _) rfl rfl (fun _ u => ?_)
      (fun _ u => ?_) fun _ => ⟨hl.nodup, ?_, hl.onHeld, ?_⟩
    all_goals simp only [Ulock.serve, leaveHandoff, setTh]
    · grind
    · grind
    · simp [hheld]
    · simp
  · next ha => exact h.publish hidle hact ha (Or.inl ⟨rfl, hown⟩)

theorem Inv.lockHandoffAccept
    (hnot : s.hoThread = none → s.owner ≠ some t)
    (hset : ∀ a, s.hoThread = some a → s.owner = some a →
      (s.th a).pc = .asleep .handoff ∧ (s.th a).waiting = true) : Inv (s.lockHandoffAccept t) := by
  unfold Ulock.lockHandoffAccept
  split
  · exact h
  next hact =>
  rw [Bool.not_eq_false] at hact
  have hl := h.lock hact
  split
  · next a ha =>
    split
    · exact h
    next hown =>
    rw [not_not] at hown
    obtain ⟨hpc, hw⟩ := hset a ha hown
    obtain ⟨hs, hnq⟩ := h.pending hact ha
    obtain ⟨htw, hts⟩ := (h.loc t).of_idle hidle
    obtain ⟨-, htq, -⟩ := h.idle hidle hact
    have hta : t ≠ a := by
      intro he
      rw [he, hpc] at hidle
      cases hidle
    have hheld : s.held = true := hl.held.mpr (by simp [hown])
    refine h.frame (t := t) (a := a) rfl
      ⟨fun _ => ⟨_, hpc⟩, fun _ => ⟨_, hpc⟩, fun _ hf => ?_, nofun⟩
      (localOk_awake htw hts (by simp)) (h.wakers.serve hta hidle ?_ ?_ rfl rfl rfl rfl) rfl
      (fun _ u hut hua => ?_) (fun _ _ => ?_) (fun _ => ?_)
      (fun _ => ⟨hl.nodup, ?_, hl.onHeld, ?_⟩) (by simp [hact])
    · rw [show ({ s.th a with served := true, believes := false } : UlockThread T).waiting = true
        from hw] at hf
      cases hf
    · simp [UlockThread.due, hs]
    · simp [UlockThread.due, hw]
    · simp [leaveHandoff, setTh, hown, ha, Ne.symm hut, Ne.symm hua]
    · refine (activeOk_given (x := { s.th a with served := true, believes := false }) ?_ rfl).mpr
        ⟨?_, hnq, ?_⟩
      · simp [hpc, UlockPc.op]
      · simp [leaveHandoff, setTh, hta]
      · simp [leaveHandoff, setTh]
    · refine (activeOk_off (x := { s.th t with believes := true, pc := .completing a .success })
        rfl hts).mpr ⟨?_, htq, ?_⟩
      · simp [leaveHandoff, setTh]
      · simp [leaveHandoff, setTh]
    · simp [leaveHandoff, setTh, hheld]
    · simp [leaveHandoff, setTh]
  · next ha => exact h.publish hidle hact ha (Or.inr ⟨rfl, hnot ha⟩)

end

theorem due_of_unserved (hs : x.served = false) : x.due = false := by
  simp [UlockThread.due, hs]

theorem localOk_wake (hx : LocalOk x) (hs : x.served = false)
    (hr : r.ok = false) : LocalOk (wake x r) := by
  unfold wake
  split
  · exact localOk_awake rfl hs fun _ _ => hr
  · exact ⟨hx.waiting, hx.served, fun hf => absurd hf (by simp [hs]), hx.empty⟩

@[simp]
theorem wake_pc (x : UlockThread T) (r : UlockResult) : (wake x r).pc = x.pc := by
  unfold wake
  split <;> rfl

@[simp]
theorem wake_served (x : UlockThread T) (r : UlockResult) : (wake x r).served = x.served := by
  unfold wake
  split <;> rfl

@[simp]
theorem wake_holds (x : UlockThread T) (r : UlockResult) : (wake x r).holds = x.holds := by
  unfold wake
  split <;> rfl

theorem Inv.empty (h : Inv s) {q : T → Prop} [DecidablePred q]
    (hq : ∀ t, q t → (s.th t).served = false) (hr : r.ok = false) (hoff : s.active = false)
    (hact : s'.active = false)
    (hth : s'.th = fun t => if q t then wake (s.th t) r else s.th t) : Inv s' := by
  have hno : s'.active ≠ true := by simp [hact]
  have hholds : ∀ t, (s'.th t).holds = (s.th t).holds := by
    intro t
    rw [hth]
    dsimp only
    split
    · rw [wake_holds]
    · rfl
  refine ⟨fun t => ?_, h.wakers.congr (fun u a r => ?_) (fun u => ?_), fun ha => absurd ha hno,
    fun ha => absurd ha hno, fun _ t u => ?_⟩
  · rw [hth]
    dsimp only
    split
    · next ht => exact localOk_wake (h.loc t) (hq t ht) hr
    · exact h.loc t
  · rw [hth]
    dsimp only
    split
    · rw [wake_pc]
    · rfl
  · rw [hth]
    dsimp only
    split
    · next hu => rw [due_of_unserved (hq u hu), due_of_unserved (by rw [wake_served, hq u hu])]
    · rfl
  · rw [hholds, hholds]
    exact h.one hoff t u

theorem destroyHeld_served (s : Ulock T) (t : T) : (s.destroyHeld.th t).served = (s.th t).served := by
  unfold destroyHeld
  split
  · dsimp only
    split
    · rw [wake_served]
    · rfl
  · rfl

@[simp]
theorem destroyHeld_active (s : Ulock T) : s.destroyHeld.active = s.active := by
  unfold destroyHeld
  split <;> rfl

@[simp]
theorem destroyHeld_hoThread (s : Ulock T) : s.destroyHeld.hoThread = s.hoThread := by
  unfold destroyHeld
  split <;> rfl

theorem Inv.lockSetDestroy (h : Inv s) (hd : s.lockSetDestroy = some s') : Inv s' := by
  unfold Ulock.lockSetDestroy at hd
  split at hd
  · cases hd
    exact h
  next hact =>
  rw [Bool.not_eq_false] at hact
  have hoff : Inv { s with active := false } :=
    ⟨h.loc, h.wakers, nofun, nofun, fun _ t u ht hu => by
      rw [(h.act hact _).holds_iff] at ht hu
      exact some.inj (ht.symm.trans hu)⟩
  have hheld : Inv { s with active := false }.destroyHeld := by
    unfold destroyHeld
    split
    · exact hoff.empty (q := (· ∈ s.blockedThreads)) (fun t ht => (h.queued hact ht).1) rfl rfl rfl
        rfl
    · exact hoff
  unfold destroyHandoff at hd
  split at hd
  · rw [destroyHeld_hoThread, Option.map_eq_some_iff] at hd
    obtain ⟨a, ha, rfl⟩ := hd
    refine hheld.empty (q := (· = a)) (fun t ht => ?_) rfl (destroyHeld_active _)
      (destroyHeld_active _) rfl
    rw [destroyHeld_served, ht]
    exact (h.pending hact ha).1
  · cases hd
    exact hheld

theorem ActiveOk.goOn {own queued pending : Prop}
    (hx : ActiveOk x own queued pending) (hs : y.served = x.served) (hop : y.pc.op = x.pc.op)
    (hb : y.believes = x.believes) (hl : x.served = false → y.linked = x.linked)
    (hm : ∀ op, y.pc = .asleep op → x.served = false → y.waiting = false → y.linked = true) :
    ActiveOk y own queued pending where
  believes := by
    rw [hb]
    exact hx.believes
  owner := by
    rw [hb, hs, hop]
    exact hx.owner
  granted := by
    rw [hs, hop]
    exact hx.granted
  queued := by
    rw [hs, hop]
    exact hx.queued
  pending := by
    rw [hs, hop]
    exact hx.pending
  giver := by
    rw [hs, hop]
    exact hx.giver
  taker := by
    rw [hs, hop]
    exact hx.taker
  linked := by
    rw [hs, hop]
    exact fun ho hf => (hl hf).trans (hx.linked ho hf)
  marked := by
    rw [hs]
    exact hm

theorem Inv.goOn (h : Inv s) (hy : LocalOk y)
    (hpc : ∀ a r, y.pc = .completing a r ↔ (s.th t).pc = .completing a r)
    (hs : y.served = (s.th t).served) (hdue : y.due = (s.th t).due)
    (hop : y.pc.op = (s.th t).pc.op) (hb : y.believes = (s.th t).believes)
    (hl : y.linked = (s.th t).linked)
    (hm : s.active = true → ∀ op, y.pc = .asleep op → (s.th t).served = false →
      y.waiting = false → y.linked = true) : Inv (s.setTh t y) :=
  h.set rfl hy hpc hdue rfl (fun _ _ _ => ⟨Iff.rfl, Iff.rfl, Iff.rfl⟩)
    (fun ha => (h.act ha t).goOn hs hop hb (fun _ => hl) (hm ha))
    (fun ha => ⟨(h.lock ha).nodup, (h.lock ha).held, (h.lock ha).onHeld, (h.lock ha).onHandoff⟩)
    fun _ => by
      unfold UlockThread.holds
      rw [hs, hop, hb]
      exact id

theorem LocalOk.unserved (hx : LocalOk x) (hpc : ∀ op, x.pc ≠ .asleep op) : x.served = false := by
  rw [← Bool.not_eq_true]
  intro hs
  obtain ⟨op, hop⟩ := hx.served hs
  exact hpc op hop

theorem LocalOk.awake (hx : LocalOk x) (hpc : ∀ op, x.pc ≠ .asleep op) : x.waiting = false := by
  rw [← Bool.not_eq_true]
  intro hw
  obtain ⟨op, hop⟩ := hx.waiting hw
  exact hpc op hop

section

variable (h : Inv s)
include h

theorem Inv.assertWait (hd : s.assertWait t = some s') : Inv s' := by
  unfold Ulock.assertWait at hd
  split at hd <;> cases hd
  next op hpc =>
  have hs : (s.th t).served = false := (h.loc t).unserved (by simp [hpc])
  refine h.goOn ⟨fun _ => ⟨op, rfl⟩, fun _ => ⟨op, rfl⟩, nofun,
    nofun⟩
    (fun a r => ?_) rfl ?_ ?_ rfl rfl nofun
  · simp [hpc]
  · simp [UlockThread.due, hs]
  · rw [hpc]
    rfl

theorem Inv.abort (hno : ∀ u r, (s.th u).pc ≠ .completing t r)
    (hset : (s.th t).pc ≠ .asleep .acquire → (s.th t).linked = true)
    (hd : s.abort t = some s') : Inv s' := by
  obtain ⟨hw, ⟨⟩⟩ := Option.ite_none_right_eq_some.mp hd
  -- a thread that has been served is about to be woken
  have hs : (s.th t).served = false := by
    rw [← Bool.not_eq_true]
    intro hs
    obtain ⟨u, r, hu⟩ := (h.wakers.due t).mp (by simp [UlockThread.due, hs, hw])
    exact hno u r hu
  refine h.goOn (localOk_awake rfl hs fun _ _ => rfl) (fun _ _ => Iff.rfl) rfl ?_ rfl rfl rfl ?_
  · simp [UlockThread.due, hs]
  intro ha op hpc _ _
  by_cases hacq : (s.th t).pc = .asleep .acquire
  · exact (h.act ha t).linked (by rw [hacq]; rfl) hs
  · exact hset hacq

theorem Inv.resume (hd : s.resume t = some s') : Inv s' := by
  unfold Ulock.resume at hd
  split at hd
  · next op hpc =>
    obtain ⟨hw, hd⟩ := Option.ite_none_left_eq_some.mp hd
    rw [Bool.not_eq_true] at hw
    split at hd
    · next hlink =>
      cases hd
      have hs : (s.th t).served = false := by
        rw [← Bool.not_eq_true]
        intro hs
        rw [((h.loc t).woken hs hw).1] at hlink
        cases hlink
      refine h.goOn (localOk_awake hw hs (by simp)) (fun a r => ?_) rfl rfl ?_ rfl rfl
        nofun
      · simp [hpc]
      · rw [hpc]
        rfl
    · next hlink =>
      cases hd
      refine h.set (t := t) rfl (localOk_awake hw rfl (by simp)) (fun a r => ?_) ?_ rfl
        (fun _ _ _ => ⟨Iff.rfl, Iff.rfl, Iff.rfl⟩) (fun ha => ?_) (fun ha => ?_) fun _ hy => ?_
      · simp [hpc]
      · simp [UlockThread.due, hw]
      · -- it was served: otherwise it would have found its link
        have hx := h.act ha t
        have hs : (s.th t).served = true := by
          rw [← Bool.not_eq_false]
          intro hs
          exact hlink (hx.marked op hpc hs hw)
        have hok := ((h.loc t).woken hs hw).2
        refine (activeOk_off (x := { s.th t with
          pc := .idle
          served := false
          believes := (s.th t).believes || (decide (op ≠ .handoff) && (s.th t).result.ok) })
          rfl rfl).mpr ?_
        by_cases hop : op = .handoff
        · rw [activeOk_given (by rw [hpc, hop]; rfl) hs] at hx
          simpa [hop, setTh] using hx
        · rw [activeOk_granted (by simp [hpc, UlockPc.op, hop]) hs] at hx
          simpa [hop, hok, setTh] using hx
      · exact ⟨(h.lock ha).nodup, (h.lock ha).held, (h.lock ha).onHeld, (h.lock ha).onHandoff⟩
      · -- a thread that was not served finds no success
        have hempty := (h.loc t).empty op hpc
        simp only [UlockThread.holds, hpc, UlockPc.op] at hy ⊢
        grind
  · cases hd

theorem Inv.leave (hpc : (s.th t).pc = .aborted op)
    (hth : s'.th = update s.th t { s.th t with pc := .idle, served := false })
    (hact : s'.active = s.active) (hown : s.active = true → s'.owner = s.owner)
    (hq : s.active = true → ∀ u, u ∈ s'.blockedThreads ↔ u ∈ s.blockedThreads ∧ u ≠ t)
    (hp : s.active = true → ∀ u, s'.hoThread = some u ↔ s.hoThread = some u ∧ u ≠ t)
    (hlock : s.active = true → LockOk s') : Inv s' := by
  have hs : (s.th t).served = false := (h.loc t).unserved (by simp [hpc])
  have hw : (s.th t).waiting = false := (h.loc t).awake (by simp [hpc])
  refine h.set hth (localOk_awake hw rfl (by simp)) (fun a r => ?_) ?_ hact
    (fun ha u hu => ?_) (fun ha => ?_) hlock (fun _ => by simp [UlockThread.holds, hs])
  · simp [hpc]
  · simp [UlockThread.due, hs]
  · simp [hown ha, hq ha, hp ha, hu]
  have hx := h.act ha t
  refine (activeOk_off (x := { s.th t with pc := .idle, served := false }) rfl rfl).mpr
    ⟨⟨fun hb => ?_, fun ho => ?_⟩, by simp [hq ha], by simp [hp ha]⟩
  · rw [hown ha]
    exact hx.believes hb
  rw [hown ha] at ho
  rcases hx.owner ho with hb | ⟨hf, -⟩
  · exact hb
  · rw [hs] at hf
    cases hf

theorem Inv.cleanup (hd : s.cleanup t = some s') : Inv s' := by
  unfold Ulock.cleanup at hd
  split at hd
  · next hpc =>
    cases hd
    have hs : (s.th t).served = false := (h.loc t).unserved (by simp [hpc])
    refine h.leave hpc rfl rfl (fun _ => rfl) (fun ha u => ?_) (fun ha u => ?_) fun ha => ?_
    · simp only [setTh, (h.lock ha).nodup.mem_erase_iff]
      exact and_comm
    · have hnp := ((activeOk_acquire (by rw [hpc]; rfl) hs).mp (h.act ha t)).2.2.1
      exact ⟨fun hu => ⟨hu, fun he => hnp (he ▸ hu)⟩, And.left⟩
    · exact ⟨(h.lock ha).nodup.erase t, (h.lock ha).held, (h.lock ha).onHeld, (h.lock ha).onHandoff⟩
  · next op hop hpc =>
    cases hd
    have hs : (s.th t).served = false := (h.loc t).unserved (by simp [hpc])
    by_cases hact : s.active = true
    · rw [if_pos hact]
      have hho : s.hoThread = some t := by
        refine (h.act hact t).pending.mpr ⟨?_, hs⟩
        cases op with
        | acquire => exact absurd rfl hop
        | handoff => exact Or.inl (by rw [hpc]; rfl)
        | accept => exact Or.inr (by rw [hpc]; rfl)
      have hnq := (h.pending hact hho).2
      refine h.leave hpc rfl rfl (fun _ => rfl) (fun _ u => ?_) (fun _ u => ?_) fun _ => ?_
      · simp only [leaveHandoff, setTh]
        exact ⟨fun hu => ⟨hu, fun he => hnq (he ▸ hu)⟩, And.left⟩
      · simp only [leaveHandoff, setTh, hho]
        grind
      · exact ⟨(h.lock hact).nodup, (h.lock hact).held, (h.lock hact).onHeld,
          by simp [leaveHandoff, setTh]⟩
    · rw [if_neg hact]
      exact h.leave hpc rfl rfl (fun ha => absurd ha hact) (fun ha => absurd ha hact)
        (fun ha => absurd ha hact) fun ha => absurd ha hact
  · cases hd

theorem Inv.complete (hd : s.complete t = some s') : Inv s' := by
  unfold Ulock.complete at hd
  split at hd <;> cases hd
  next a r hpc =>
  have hdue := (h.wakers.due a).mpr ⟨t, r, hpc⟩
  simp only [UlockThread.due, Bool.and_eq_true] at hdue
  obtain ⟨hs, hw⟩ := hdue
  obtain ⟨op, hop⟩ := (h.loc a).served hs
  have hta : t ≠ a := by
    intro he
    rw [he, hop] at hpc
    cases hpc
  have htw : (s.th t).waiting = false := (h.loc t).awake (by simp [hpc])
  have hts : (s.th t).served = false := (h.loc t).unserved (by simp [hpc])
  have hwake : wake (s.th a) r = { s.th a with linked := false, waiting := false, result := r } := by
    unfold wake
    rw [if_pos hw]
  have hok := h.wakers.ok t a r hpc
  rw [hwake]
  refine h.frame (t := t) (a := a) rfl
    ⟨nofun, fun _ => ⟨op, hop⟩, fun _ _ => ⟨rfl, hok⟩, fun _ _ hf => ?_⟩
    (localOk_awake htw hts (by simp))
    (h.wakers.complete hpc hta (by simp [UlockThread.due]) rfl rfl rfl) rfl
    (fun _ _ _ _ => ⟨Iff.rfl, Iff.rfl, Iff.rfl⟩) (fun ha _ => ?_) (fun ha => ?_) (fun ha => ?_)
    fun _ => ⟨id, by simp [UlockThread.holds, hts]⟩
  · rw [show ({ s.th a with linked := false, waiting := false, result := r } :
      UlockThread T).served = true from hs] at hf
    cases hf
  · refine (h.act ha a).goOn rfl rfl rfl (fun hf => ?_) fun _ _ hf => ?_
    all_goals
      rw [hs] at hf
      cases hf
  · refine (h.act ha t).goOn rfl ?_ rfl (fun _ => rfl) nofun
    rw [hpc]
    rfl
  · exact ⟨(h.lock ha).nodup, (h.lock ha).held, (h.lock ha).onHeld, (h.lock ha).onHandoff⟩

end

/-- **The condition on a step.**  A waiter that is served sleeps, and has not been aborted; the owner
does not accept the ulock from itself; nobody is aborted between being served and being woken, and a
thread that is aborted in a hand-off has something left in `wait_link.prev`. -/
def Settled (s : Ulock T) : Act T → Prop
  | .release t => ∀ a rest, s.owner = some t → s.blockedThreads = a :: rest →
      (s.th a).pc = .asleep .acquire ∧ (s.th a).waiting = true
  | .handoff t => ∀ a, s.owner = some t → s.hoThread = some a →
      (s.th a).pc = .asleep .accept ∧ (s.th a).waiting = true
  | .accept t => (s.hoThread = none → s.owner ≠ some t) ∧
      ∀ a, s.hoThread = some a → s.owner = some a →
        (s.th a).pc = .asleep .handoff ∧ (s.th a).waiting = true
  | .abort t => (∀ u r, (s.th u).pc ≠ .completing t r) ∧
      ((s.th t).pc ≠ .asleep .acquire → (s.th t).linked = true)
  | _ => True

theorem Inv.step (h : Inv s) {act : Act T} (hset : s.Settled act) (hd : s.step act = some s') :
    Inv s' := by
  cases act with
  | acquire t =>
    obtain ⟨hidle, rfl⟩ := Trace.of_guard hd
    exact h.lockAcquire hidle
  | tryLock t =>
    obtain ⟨hidle, rfl⟩ := Trace.of_guard hd
    exact h.lockTry hidle
  | release t =>
    obtain ⟨hidle, rfl⟩ := Trace.of_guard hd
    exact h.lockRelease hidle hset
  | handoff t =>
    obtain ⟨hidle, rfl⟩ := Trace.of_guard hd
    exact h.lockHandoff hidle hset
  | accept t =>
    obtain ⟨hidle, rfl⟩ := Trace.of_guard hd
    exact h.lockHandoffAccept hidle hset.1 hset.2
  | destroy => exact h.lockSetDestroy hd
  | assertWait t => exact h.assertWait hd
  | abort t => exact h.abort hset.1 hset.2 hd
  | resume t => exact h.resume hd
  | cleanup t => exact h.cleanup hd
  | complete t => exact h.complete hd

theorem Initial.inv (h : s.Initial) : Inv s := by
  have hw : ∀ t, (s.th t).waiting = false := fun t => (h.th t).2.1
  have hs : ∀ t, (s.th t).served = false := fun t => (h.th t).2.2.2
  refine ⟨fun t => localOk_awake (hw t) (hs t) (by simp [(h.th t).1]), ⟨fun a => ?_, ?_, ?_⟩,
    fun _ t => ?_, fun _ => ⟨?_, ?_, ?_, ?_⟩, fun hf => ?_⟩
  · simp [UlockThread.due, hs, (h.th _).1]
  · simp [(h.th _).1]
  · simp [(h.th _).1]
  · refine (activeOk_off (by rw [(h.th t).1]; rfl) (hs t)).mpr ⟨?_, ?_, ?_⟩
    · simp [(h.th t).2.2.1, h.owner]
    · simp [h.blocked]
    · simp [h.hoThread]
  · simp [h.blocked]
  · simp [h.held, h.owner]
  · rw [h.onHeld, h.held]
  · simp [h.onHandoff, h.hoThread]
  · rw [h.active] at hf
    cases hf

/-- **One thread at most believes that it holds the ulock**; until the lock set is destroyed the ulock is
held if and only if somebody holds it, and whoever does is the owner. -/
structure Exclusive (s : Ulock T) : Prop where
  one : ∀ t u, (s.th t).believes = true → (s.th u).believes = true → t = u
  owner : s.active = true → ∀ t, (s.th t).holds = true ↔ s.owner = some t
  held : s.active = true → (s.held = true ↔ ∃ t, (s.th t).holds = true)

/-- **Nobody sleeps after its operation has been completed**, unless somebody is about to wake it. -/
def Awake (s : Ulock T) : Prop :=
  ∀ t, (s.th t).waiting = true → (s.th t).served = true → ∃ u r, (s.th u).pc = .completing t r

/-- **A thread that is not in a call is not in `ho_thread`.** -/
def Cleared (s : Ulock T) : Prop :=
  s.active = true → ∀ t, (s.th t).pc = .idle → s.hoThread ≠ some t

theorem Inv.exclusive (h : Inv s) : s.Exclusive := by
  have howner : s.active = true → ∀ t, (s.th t).holds = true ↔ s.owner = some t :=
    fun ha t => (h.act ha t).holds_iff
  refine ⟨fun t u ht hu => ?_, howner, fun ha => ?_⟩
  · have hholds : ∀ v, (s.th v).believes = true → (s.th v).holds = true := by
      intro v hv
      simp [UlockThread.holds, hv]
    by_cases ha : s.active = true
    · have ht := (howner ha t).mp (hholds t ht)
      have hu := (howner ha u).mp (hholds u hu)
      exact some.inj (ht.symm.trans hu)
    · exact h.one (by simpa using ha) t u (hholds t ht) (hholds u hu)
  · rw [(h.lock ha).held, Option.ne_none_iff_exists']
    simp only [howner ha]

theorem Inv.awake (h : Inv s) : s.Awake := by
  intro t hw hs
  exact (h.wakers.due t).mp (by simp [UlockThread.due, hs, hw])

theorem Inv.cleared (h : Inv s) : s.Cleared :=
  fun ha _ hidle => (h.idle hidle ha).2.2

/-- **In a run whose steps are settled, a ulock excludes, and nobody sleeps through its turn.** -/
theorem holder_of_run (acts : List (Act T)) (hinit : s.Initial)
    (hset : Trace.Meets Ulock.step Settled s acts) (hrun : Trace.run Ulock.step s acts = some s') :
    s'.Exclusive ∧ s'.Awake ∧ s'.Cleared := by
  have hinv : Inv s' := Trace.invariant (P := Settled) (I := Inv)
    (fun _ _ _ h hset hd => h.step hset hd) acts s s' hinit.inv hset hrun
  exact ⟨hinv.exclusive, hinv.awake, hinv.cleared⟩

/-- A ulock of a new lock set, and two threads. -/
def fresh : Ulock (Fin 2) where
  active := true
  stable := true
  held := false
  owner := none
  hoThread := none
  blockedThreads := []
  blockedCount := 0
  onHeld := false
  onHandoff := false
  corrupt := false
  policy := .fifo
  priority := fun _ => 0
  th := fun _ => ⟨.idle, false, false, .success, false, false⟩

theorem fresh_initial : fresh.Initial :=
  ⟨rfl, rfl, rfl, rfl, rfl, rfl, rfl, fun _ => ⟨rfl, rfl, rfl, rfl⟩⟩

/-- Thread 1 waits for the ulock, is given it by thread 0, and returns. -/
theorem holder_of_run_contended : ∃ s, Trace.run Ulock.step fresh
        [.acquire 0, .acquire 1, .assertWait 1, .release 0, .complete 0, .resume 1] = some s ∧
      (s.th 1).believes = true ∧ s.Exclusive ∧ s.Awake ∧ s.Cleared := by
  refine ⟨_, rfl, rfl, holder_of_run
    [.acquire 0, .acquire 1, .assertWait 1, .release 0, .complete 0, .resume 1] fresh_initial ?_ rfl⟩
  refine ⟨trivial, fun s1 h1 => ⟨trivial, fun s2 h2 => ⟨trivial, fun s3 h3 => ⟨?_, fun s4 h4 =>
    ⟨trivial, fun s5 h5 => ⟨trivial, fun _ _ => trivial⟩⟩⟩⟩⟩⟩
  cases h1
  cases h2
  cases h3
  intro a rest _ hb
  obtain ⟨rfl, -⟩ : 1 = a ∧ [] = rest := List.cons.inj hb
  exact ⟨rfl, rfl⟩

/-- **A waiter that is served before it sleeps.**  Thread 1 is on the queue and has released the locks;
thread 0 gives it the ulock, and its `clear_wait` finds nobody asleep; then thread 1 asserts its wait. -/
theorem release_before_wait : ∃ s, Trace.run Ulock.step fresh
        [.acquire 0, .acquire 1, .release 0, .complete 0, .assertWait 1] = some s ∧
      s.owner = some 1 ∧ (s.th 1).waiting = true ∧ (s.th 1).served = true ∧ ¬ s.Awake := by
  refine ⟨_, rfl, rfl, rfl, rfl, fun hawake => ?_⟩
  obtain ⟨u, r, hu⟩ := hawake 1 rfl rfl
  fin_cases u
  · cases hu
  · cases hu

/-- **An abort that is not noticed.**  A thread that waits to accept the ulock has never set its
`wait_link`, so that it takes an abort for the end of its operation, and stays in `ho_thread`. -/
theorem accept_abort_unnoticed :
    ∃ s, Trace.run Ulock.step fresh [.accept 1, .assertWait 1, .abort 1, .resume 1] = some s ∧
      s.hoThread = some 1 ∧ ¬ s.Cleared :=
  ⟨_, rfl, rfl, fun hcleared => hcleared rfl 1 rfl rfl⟩

end Ulock

end Osfmk

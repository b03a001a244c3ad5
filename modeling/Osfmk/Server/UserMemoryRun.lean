import Osfmk.Server.UserMemoryThreads

/-!
# A region in use stays mapped

The turns of the server threads that give regions back, flush them, or go on after a wait; and what holds
in every run.
-/

open Function (update update_idem update_of_ne update_self)
open List Option

namespace Osfmk

namespace UmServer

variable {P T R : Type} [DecidableEq P] [DecidableEq T] [DecidableEq R]

variable {s s' : UmServer P T R} {p : P} {c' : Cache T R} {r : R} {x : UmRegion T} {pc : UmPc T R}

/-- **A thread gives a region back**; the last user of a task that is aware of Mach flushes it. -/
theorem Inv.unlock {a n : ℕ} (h : Inv s) (hpc : s.pc p = .copying r a n)
    (hfree : ∀ x, s.cache.regions r = some x → x.refCount = 1 → s.cache.machAware x.task = true →
      r ∈ s.cache.mru ∧ s.Free p r) :
    ∃ c', s.cache.userMemoryUnlock r = some c' ∧ Inv (s.after p (some (c', .idle))) := by
  obtain ⟨x, hx, -, -⟩ := (h.pcs p).copying r a n hpc
  have hu : (s.pc p).uses = some r := by rw [hpc]; rfl
  obtain ⟨hne, hcount⟩ := counted_drop .idle (h.count r x hx) hu nofun
  have hset : Inv { s with
      cache := s.cache.setRegion r { x with refCount := x.refCount - 1 }
      pc := update s.pc p (.idle : UmPc T R) } := by
    refine h.setRefCount hx (by rw [hpc]; rfl) rfl idleOk hcount fun q hq => ?_
    rw [hu, show (UmPc.idle : UmPc T R).uses = none from rfl]
    simp [Ne.symm hq]
  unfold Cache.userMemoryUnlock
  rw [hx, bind_some, if_neg hne]
  dsimp only
  split
  · next hlast =>
    obtain ⟨hmru, hfr⟩ := hfree x hx (by omega) hlast.2
    have hfr' : ({ s with
        cache := s.cache.setRegion r { x with refCount := x.refCount - 1 }
        pc := update s.pc p (.idle : UmPc T R) } : UmServer P T R).Free p r := by
      intro q t hqp
      change (update s.pc p UmPc.idle q).needs ≠ _
      rw [update_of_ne hqp]
      exact hfr q t hqp
    obtain ⟨c1, h1, hinv⟩ := hset.flush (p := p) (update_self _ _ _)
      ⟨Cache.setRegion_self _ _ _, hmru⟩ hlast.1 hfr'
    refine ⟨c1.unmapRegion r { x with refCount := x.refCount - 1 }, ?_, hinv⟩
    rw [Cache.flushRegion, Cache.setRegion_self, bind_some, if_pos hlast.1]
    simp only at h1
    rw [h1, map_some]
  · exact ⟨_, rfl, hset⟩

/-- **The walk of a flush along the list of a task.**  The induction is on what is left of the list. -/
theorem Inv.walkArea (task : T) (start stop : ℕ) : ∀ (l : List R) {s : UmServer P T R}, Inv s →
    s.pc p = .idle → l.Nodup → (∀ r ∈ l, ∃ x, s.cache.Linked r x ∧ x.task = task) →
    (∀ r x, r ∈ l → s.cache.regions r = some x → Cache.inArea x start stop = true → s.Free p r) →
    ∃ m, Cache.walkArea task start stop l s.cache = some m ∧ Inv (s.after p (some m)) := by
  intro l
  induction l with
  | nil =>
    intro s h hidle _ _ _
    exact ⟨_, rfl, h.move (by rw [hidle]; rfl) (by rw [hidle]; rfl) rfl rfl
      nofun⟩
  | cons r l ih =>
    intro s h hidle hn hl hfree
    obtain ⟨hrl, hn⟩ := List.nodup_cons.mp hn
    obtain ⟨x, hx, ht⟩ := hl r mem_cons_self
    have hrest : ∀ q ∈ l, q ≠ r ∧ ∃ y, s.cache.Linked q y ∧ y.task = task :=
      fun q hq => ⟨fun he => hrl (he ▸ hq), hl q (mem_cons_of_mem r hq)⟩
    unfold Cache.walkArea
    rw [hx.1, bind_some]
    by_cases harea : Cache.inArea x start stop = true
    · have hfr := hfree r x mem_cons_self hx.1 harea
      rw [if_pos harea]
      by_cases hz : x.refCount = 0
      · obtain ⟨c1, h1, hinv⟩ := h.flush hidle hx hz hfr
        obtain ⟨-, hr1, -, -, hm1, -⟩ := h.lists.delete h1
        have hreg : ∀ q, q ≠ r → (c1.unmapRegion r x).regions q = s.cache.regions q := by
          intro q hq
          rw [← hr1]
          exact update_of_ne hq _ _
        rw [h1, bind_some, if_pos hz]
        refine ih hinv hidle hn (fun q hq => ?_) fun q y hq hy => ?_
        · obtain ⟨hne, y, hy, hyt⟩ := hrest q hq
          refine ⟨y, ⟨(hreg q hne).trans hy.1, ?_⟩, hyt⟩
          change q ∈ c1.mru
          rw [hm1]
          exact (mem_erase_of_ne hne).mpr hy.2
        · exact hfree q y (mem_cons_of_mem r hq) ((hreg q (hrest q hq).1).symm.trans hy)
      · obtain ⟨c1, h1, hinv⟩ := h.unlink _ l.head? start stop hidle hx hfr
          fun n hn' => hrest n (mem_of_mem_head? hn')
        rw [h1, bind_some, if_neg hz]
        exact ⟨_, rfl, hinv⟩
    · rw [if_neg harea]
      exact ih h hidle hn (fun q hq => (hrest q hq).2) fun q y hq =>
        hfree q y (mem_cons_of_mem r hq)

/-- The place of a thread that has some regions to free. -/
def ofRest : List R → UmPc T R
  | [] => .idle
  | r :: l => .drainTask r l

theorem Inv.walkTask : ∀ (l : List R) {s : UmServer P T R}, Inv s → s.pc p = ofRest l →
    ∃ m, Cache.walkTask l s.cache = some m ∧ Inv (s.after p (some m)) := by
  intro l
  induction l with
  | nil =>
    intro s h hpc
    exact ⟨_, rfl, h.move (by rw [hpc]; rfl) (by rw [hpc]; rfl) rfl rfl nofun⟩
  | cons r l ih =>
    intro s h hpc
    have hdr : (s.pc p).drains = r :: l := by rw [hpc]; rfl
    obtain ⟨⟨x, hx⟩, -⟩ := (h.pcs p).drains r (by rw [hdr]; exact mem_cons_self)
    have hnd := (h.pcs p).nodup
    rw [hdr, List.nodup_cons] at hnd
    unfold Cache.walkTask
    rw [hx, bind_some]
    split
    · next hz =>
      have hdl : (ofRest l : UmPc T R).drains = l := by cases l <;> rfl
      have hul : (ofRest l : UmPc T R).uses = none := by cases l <;> rfl
      have hnl : (ofRest l : UmPc T R).needs = none := by cases l <;> rfl
      have hinv := h.unmap (p := p) (ofRest l) hx hz (by rw [hdr]; exact mem_cons_self)
        (by rw [hul, hpc]; rfl) hnl hul (fun q => ?_) (by rw [hdl]; exact hnd.2)
      · obtain ⟨m, hm, hinv'⟩ := ih hinv (update_self _ _ _)
        refine ⟨m, hm, ?_⟩
        simp only [after, update_idem] at hinv' ⊢
        exact hinv'
      · rw [hdl, hdr, mem_cons]
        constructor
        · exact fun hq => ⟨Or.inr hq, fun he => hnd.1 (he ▸ hq)⟩
        · exact fun hq => hq.1.resolve_left hq.2
    · refine ⟨_, rfl, ?_⟩
      have hsame : s.after p (some (s.cache, .drainTask r l)) = s := by
        have hpc' : (UmPc.drainTask r l : UmPc T R) = s.pc p := hpc.symm
        simp only [after, hpc', Function.update_eq_self]
      rw [hsame]
      exact h

/-- **The flush of a task**: its regions are unlinked together, then freed one after the other. -/
theorem Inv.flushTask (task : T) (h : Inv s) (hidle : s.pc p = .idle)
    (hfree : ∀ r x, s.cache.Linked r x → x.task = task → s.Free p r) :
    ∃ m, s.cache.flushTaskStart task = some m ∧ Inv (s.after p (some m)) := by
  have hin := h.lists.intask task
  obtain ⟨c1, h1, hok⟩ := Cache.unlinkAll_fresh (s.cache.intask task) s.cache.intask h.lists h.fresh
    (h.lists.intaskNodup task) fun r hr => ((hin r).mp hr).elim fun x hx => hx.1.2
  obtain ⟨hl1, hr1, hs1, -, -, ht1, hm1⟩ := h.lists.unlinkAll h1
  have hdr : (ofRest (s.cache.intask task) : UmPc T R).drains = s.cache.intask task := by
    cases s.cache.intask task <;> rfl
  have hus : (ofRest (s.cache.intask task) : UmPc T R).uses = none := by
    cases s.cache.intask task <;> rfl
  have hne : (ofRest (s.cache.intask task) : UmPc T R).needs = none := by
    cases s.cache.intask task <;> rfl
  have hinv : Inv { s with
      cache := { c1 with intask := update c1.intask task [] }
      pc := update s.pc p (ofRest (s.cache.intask task)) } := by
    refine h.turn hl1 (h.frames.congr hr1 hs1) (hok.congr rfl rfl rfl) ?_ (fun q hqp => ?_)
      ⟨fun _ _ _ hc => ?_, fun _ _ hf => ?_, fun q hq => ?_, ?_⟩ (fun q y hy => ?_)
      (fun q r hqp hr hm => ?_) fun q y hy hm => ?_
    · refine le_trans ?_ h.room
      exact (subperm_of_subset hl1.mruNodup fun q hq => ((hm1 q).mp hq).1).length_le
    · refine (h.pcs q).mono (fun r z _ hz => ⟨z, hr1 ▸ hz, rfl, rfl⟩) (fun r t z hn hz => ?_)
        fun r z _ hz hm => ⟨⟨z, hr1 ▸ hz⟩, fun hm' => hm ((hm1 r).mp hm').1⟩
      refine ⟨z, ⟨hr1 ▸ hz.1, (hm1 r).mpr ⟨hz.2, fun hr => ?_⟩⟩, rfl⟩
      obtain ⟨y, hy, hyt⟩ := (hin r).mp hr
      exact hfree r y hy hyt q t hqp hn
    · rw [hc] at hus
      cases hus
    · rw [hne] at hf
      cases hf
    · rw [hdr] at hq
      obtain ⟨y, hy, -⟩ := (hin q).mp hq
      exact ⟨⟨y, hr1 ▸ hy.1⟩, fun hm => ((hm1 q).mp hm).2 hq⟩
    · rw [hdr]
      exact h.lists.intaskNodup task
    · exact counted_update (h.count q y (hr1 ▸ hy)) (by rw [hus, hidle]; rfl)
    · rw [hdr] at hm
      obtain ⟨y, hy, -⟩ := (hin r).mp hm
      exact ((h.pcs q).drains r hr).2 hy.2
    · by_cases hq : q ∈ s.cache.intask task
      · exact Or.inl (by rw [hdr]; exact hq)
      · refine Or.inr (h.own_ne (by rw [hidle]; rfl) (hr1 ▸ hy) fun hm' => hm ?_)
        exact (hm1 q).mpr ⟨hm', hq⟩
  obtain ⟨m, hm, hinv'⟩ := Inv.walkTask (s.cache.intask task) hinv (update_self _ _ _)
  refine ⟨m, ?_, ?_⟩
  · rw [Cache.flushTaskStart, h1, bind_some, ht1]
    rw [ht1] at hm
    exact hm
  · simp only [after, update_idem] at hinv' ⊢
    exact hinv'

/-- **A flush goes on after a wait**, with the region that it has saved. -/
theorem Inv.resumeArea {task : T} {nextP : Option R} {start stop : ℕ} (h : Inv s)
    (hpc : s.pc p = .drainArea r task nextP start stop) (hdone : s.cache.drained r = true)
    (hfree : ∀ q y, s.cache.Linked q y → y.task = task → Cache.inArea y start stop = true →
      s.Free p q) :
    ∃ m, (s.cache.regions r).bind (fun x =>
      (s.cache.unmapRegion r x).walkOn task start stop nextP) = some m ∧
      Inv (s.after p (some m)) := by
  have hdr : (s.pc p).drains = [r] := by rw [hpc]; rfl
  obtain ⟨⟨x, hx⟩, hnm⟩ := (h.pcs p).drains r (by rw [hdr]; exact mem_singleton_self r)
  have hz : x.refCount = 0 := by
    rw [Cache.drained, hx, all_some, decide_eq_true_eq] at hdone
    exact hdone
  have hinv := h.unmap (p := p) .idle hx hz (by rw [hdr]; exact mem_singleton_self r)
    (by rw [hpc]; rfl) rfl rfl (fun q => by rw [hdr]; simp [UmPc.drains]) nodup_nil
  have hlinked : ∀ q y, (s.cache.unmapRegion r x).Linked q y → s.cache.Linked q y := by
    intro q y hy
    have hne : q ≠ r := fun he => hnm (he ▸ hy.2)
    exact ⟨(update_of_ne hne _ _).symm.trans hy.1, hy.2⟩
  have hneeds := (h.pcs p).needs
  rw [hpc] at hneeds
  rw [hx, bind_some]
  cases nextP with
  | none => exact ⟨_, rfl, hinv⟩
  | some n =>
    obtain ⟨y, hy, hyt⟩ := hneeds n task rfl
    have hmem : n ∈ (s.cache.unmapRegion r x).intask task := (h.lists.intask task n).mpr ⟨y, hy, hyt⟩
    unfold Cache.walkOn
    dsimp only
    rw [if_pos hmem]
    have hsub := (dropWhile_sublist (fun q => decide (q ≠ n))
      (l := (s.cache.unmapRegion r x).intask task))
    obtain ⟨m, hm, hinv'⟩ := Inv.walkArea (p := p) task start stop _ hinv (update_self _ _ _)
      (hsub.nodup (hinv.lists.intaskNodup task))
      (fun q hq => (hinv.lists.intask task q).mp (hsub.subset hq)) fun q z hq hz hin q' t hqp => by
        obtain ⟨z', hz', hzt⟩ := (hinv.lists.intask task q).mp (hsub.subset hq)
        obtain rfl := some.inj (hz'.1.symm.trans hz)
        change (update s.pc p UmPc.idle q').needs ≠ _
        rw [update_of_ne hqp]
        exact hfree q z' (hlinked q z' hz') hzt hin q' t hqp
    refine ⟨m, hm, ?_⟩
    simp only [after, update_idem] at hinv' ⊢
    exact hinv'

/-- **The condition on a turn.** -/
def Calm (s : UmServer P T R) : Act P T R → Prop
  | .remapped p _ _ =>
    match s.pc p with
    | .mapping _ _ _ _ => s.cache.Ready ∧
      ∀ o y, s.cache.mru.length = userMemorySize → s.cache.mru.getLast? = some o →
        s.cache.regions o = some y → y.refCount = 0 ∧ s.Free p o
    | .extending r _ _ _ _ => ∀ x, s.cache.regions r = some x → x.refCount = 0
    | _ => True
  | .unlock p =>
    match s.pc p with
    | .copying r _ _ => ∀ x, s.cache.regions r = some x → x.refCount = 1 →
      s.cache.machAware x.task = true → r ∈ s.cache.mru ∧ s.Free p r
    | _ => True
  | .flushArea p task start stop => ∀ r x, s.cache.Linked r x → x.task = task →
    Cache.inArea x start stop = true → s.Free p r
  | .flushTask p task => ∀ r x, s.cache.Linked r x → x.task = task → s.Free p r
  | .resume p =>
    match s.pc p with
    | .drainArea _ task _ start stop => ∀ r x, s.cache.Linked r x → x.task = task →
      Cache.inArea x start stop = true → s.Free p r
    | _ => True
  | _ => True

theorem Inv.turn_calm (h : Inv s) {a : Act P T R} (hc : s.Calm a)
    {m : P × Option (Cache T R × UmPc T R)} (ht : s.turn a = some m) : Inv (s.after m.1 m.2) := by
  cases a with
  | lookup p task addr size prot =>
    obtain ⟨hidle, rfl⟩ := Trace.of_guard ht
    obtain ⟨m, hm, hinv⟩ := h.lookupStart task addr size prot hidle
    rw [hm]
    exact hinv
  | remapped p svr new =>
    unfold UmServer.turn at ht
    unfold Calm at hc
    dsimp only at ht hc
    split at ht
    · next task addr size prot hpc =>
      rw [hpc] at hc
      obtain ⟨hnew, rfl⟩ := Trace.of_guard ht
      obtain ⟨m, hm, hinv⟩ := h.missed svr hpc hnew hc.1 hc.2
      rw [hm]
      exact hinv
    · next r task addr size prot hpc =>
      rw [hpc] at hc
      cases ht
      obtain ⟨m, hm, hinv⟩ := h.extended svr hpc hc
      rw [hm]
      exact hinv
    · cases ht
  | unlock p =>
    unfold UmServer.turn at ht
    unfold Calm at hc
    dsimp only at ht hc
    split at ht
    · next r a n hpc =>
      rw [hpc] at hc
      cases ht
      obtain ⟨c', hm, hinv⟩ := h.unlock hpc hc
      rw [hm]
      exact hinv
    · cases ht
  | flushArea p task start stop =>
    obtain ⟨hidle, rfl⟩ := Trace.of_guard ht
    obtain ⟨m, hm, hinv⟩ := h.walkArea task start stop _ hidle (h.lists.intaskNodup task)
      (fun r hr => (h.lists.intask task r).mp hr) fun r x hr hx hin => by
        obtain ⟨y, hy, hyt⟩ := (h.lists.intask task r).mp hr
        obtain rfl := some.inj (hy.1.symm.trans hx)
        exact hc r y hy hyt hin
    rw [hm]
    exact hinv
  | flushTask p task =>
    obtain ⟨hidle, rfl⟩ := Trace.of_guard ht
    obtain ⟨m, hm, hinv⟩ := h.flushTask task hidle hc
    rw [hm]
    exact hinv
  | resume p =>
    unfold UmServer.turn at ht
    unfold Calm at hc
    dsimp only at ht hc
    split at ht
    · next r task nextP start stop hpc =>
      rw [hpc] at hc
      obtain ⟨hdone, rfl⟩ := Trace.of_guard ht
      obtain ⟨m, hm, hinv⟩ := h.resumeArea hpc hdone hc
      rw [hm]
      exact hinv
    · next r rest hpc =>
      obtain ⟨-, rfl⟩ := Trace.of_guard ht
      obtain ⟨m, hm, hinv⟩ := h.walkTask (r :: rest) hpc
      rw [hm]
      exact hinv
    · cases ht
  | change user => cases ht

theorem Inv.step (h : Inv s) {a : Act P T R} (hc : s.Calm a) (hs : s.step a = some s') : Inv s' := by
  unfold UmServer.step at hs
  rw [if_neg (by simp [h.safe])] at hs
  split at hs
  · next user =>
    cases hs
    refine ⟨h.safe, ?_, h.frames.congr rfl rfl, h.fresh.congr rfl rfl rfl, h.room, fun p => ?_, h.count,
      h.one, h.own⟩
    · exact { h.lists with }
    · exact (h.pcs p).mono (fun r x _ hx => ⟨x, hx, rfl, rfl⟩) (fun r t x _ hx => ⟨x, hx, rfl⟩)
        fun r x _ hx hr => ⟨⟨x, hx⟩, hr⟩
  · obtain ⟨m, hm, rfl⟩ := map_eq_some_iff.mp hs
    exact h.turn_calm hc hm

omit [DecidableEq P] in
theorem Initial.inv (h : s.Initial) : Inv s := by
  have hno : ∀ r x, s.cache.regions r ≠ some x := by
    intro r x hx
    rw [h.regions] at hx
    cases hx
  have hlink : ∀ r x, ¬ s.cache.Linked r x := fun r x hx => hno r x hx.1
  refine ⟨h.safe, ⟨?_, fun k r => ?_, fun t r => ?_, ?_, fun k => ?_, fun t => ?_, fun t r hr => ?_,
    fun t r hr => ?_⟩, ⟨fun r x hx => absurd hx (hno r x), fun r q x y p hx => absurd hx (hno r x)⟩,
    Or.inl ⟨?_, ?_⟩, ?_, fun p => ?_, fun r x hx => absurd hx (hno r x), fun p q r hr => ?_,
    fun r x hx => absurd hx (hno r x)⟩
  · simp [h.mru]
  · simp [h.chain, hlink]
  · simp [h.intask, hlink]
  · simp [h.mru]
  · simp [h.chain]
  · simp [h.intask]
  · simp [h.hint1] at hr
  · simp [h.hint2] at hr
  · simp [h.mru]
  · simp [h.mru]
  · simp [h.mru]
  · rw [h.pc]
    exact idleOk
  · rw [h.pc] at hr
    cases hr

/-- **What the threads can rely on**: no thread has gone astray; a region that a lookup has returned is
where it was, and its pages are mapped; every list holds live regions, each of them once, and so does
what a thread has saved; a region that is on no list has exactly one thread that will free it. -/
structure Safe (s : UmServer P T R) : Prop where
  fault : s.fault = false
  mapped : ∀ p r a n, s.pc p = .copying r a n →
    ∃ x, s.cache.regions r = some x ∧ x.svrAddr = a ∧ x.size = n ∧ x.Mapped s.cache.server
  lists : s.cache.Lists
  saved : ∀ p r t, (s.pc p).needs = some (r, t) → ∃ x, s.cache.Linked r x
  once : ∀ r x, s.cache.regions r = some x → r ∉ s.cache.mru → ∃! p, r ∈ (s.pc p).drains

omit [DecidableEq P] [DecidableEq T] in
theorem Inv.to_safe (h : Inv s) : s.Safe := by
  refine ⟨h.safe, fun p r a n hpc => ?_, h.lists, fun p r t hn => ?_, fun r x hx hr => ?_⟩
  · obtain ⟨x, hx, ha, hn⟩ := (h.pcs p).copying r a n hpc
    exact ⟨x, hx, ha, hn, h.frames.mapped r x hx⟩
  · obtain ⟨x, hx, -⟩ := (h.pcs p).needs r t hn
    exact ⟨x, hx⟩
  · obtain ⟨p, hp⟩ := h.own r x hx hr
    exact ⟨p, hp, fun q hq => h.one q p r hq hp⟩

/-- **In a run of calm turns a region in use stays mapped**, and nothing is freed twice. -/
theorem safe_of_run (acts : List (Act P T R)) (hinit : s.Initial)
    (hcalm : Trace.Meets UmServer.step Calm s acts)
    (hrun : Trace.run UmServer.step s acts = some s') : s'.Safe :=
  (Trace.invariant (P := Calm) (I := Inv) (fun _ _ _ h hc hs => h.step hc hs) acts s s' hinit.inv
    hcalm hrun).to_safe

/-- Two threads, and a task that has its pages 1 and 2. -/
def twoThreads (machAware : Bool) : UmServer (Fin 2) Unit ℕ where
  cache :=
    { regions := fun _ => none
      chain := fun _ => []
      intask := fun _ => []
      mru := []
      fresh := fun _ => false
      oldestFresh := none
      umHint1 := fun _ => none
      umHint2 := fun _ => none
      pid := fun _ => 1
      machAware := fun _ => machAware
      user := fun _ p => if p = 1 ∨ p = 2 then some 3 else none
      server := fun _ => none }
  pc := fun _ => .idle
  fault := false

theorem twoThreads_initial (b : Bool) : (twoThreads b).Initial :=
  ⟨rfl, fun _ => rfl, fun _ => rfl, fun _ => rfl, fun _ => rfl, rfl, fun _ => rfl, fun _ => rfl⟩

/-- Thread 0 copies while thread 1 flushes; thread 1 waits, and frees the region in the end. -/
theorem safe_of_run_flush : ∃ s, Trace.run UmServer.step (twoThreads false)
        [.lookup 0 () 0x1000 16 1, .remapped 0 (some 0x8000) 0, .flushArea 1 () 0 0x2000, .unlock 0,
          .resume 1] = some s ∧ s.cache.regions 0 = none ∧ s.Safe := by
  obtain ⟨s, hs, hgone⟩ : ∃ s, Trace.run UmServer.step (twoThreads false)
      [.lookup 0 () 0x1000 16 1, .remapped 0 (some 0x8000) 0, .flushArea 1 () 0 0x2000, .unlock 0,
        .resume 1] = some s ∧ s.cache.regions 0 = none := ⟨_, rfl, rfl⟩
  refine ⟨s, hs, hgone, safe_of_run _ (twoThreads_initial false) ?_ hs⟩
  refine .cons trivial rfl ?_
  refine ⟨⟨fun h => ?_, fun o y h => ?_⟩, fun s2 h2 => ?_⟩
  · cases h
  · cases h
  cases h2
  -- nobody will go on with a region
  refine ⟨fun r x _ _ _ q t _ hn => ?_, fun s3 h3 => ?_⟩
  · fin_cases q <;> cases hn
  cases h3
  refine .cons nofun rfl ?_
  refine ⟨fun r x _ _ _ q t _ hn => ?_, fun s5 _ => trivial⟩
  fin_cases q <;> cases hn

/-- **A region that is extended while another thread copies.**  Thread 0 has been told that the region is
at 0x8000; thread 1 needs one page more, and the region moves. -/
theorem extended_in_use : ∃ s, Trace.run UmServer.step (twoThreads false)
        [.lookup 0 () 0x1000 16 1, .remapped 0 (some 0x8000) 0, .lookup 1 () 0x1000 0x1800 1,
          .remapped 1 (some 0x10000) 1] = some s ∧
      s.pc 0 = .copying 0 0x8000 0x1000 ∧ s.cache.server 8 = none ∧ ¬ s.Safe := by
  refine ⟨_, rfl, rfl, rfl, fun h => ?_⟩
  obtain ⟨x, hx, ha, -⟩ := h.mapped 0 0 0x8000 0x1000 rfl
  cases hx
  cases ha

/-- **A region that is unlinked twice.**  Thread 1 has unlinked it and waits; thread 0 gives it back, and
unlinks it again because the task is aware of Mach. -/
theorem unlinked_twice : ∃ s, Trace.run UmServer.step (twoThreads true)
        [.lookup 0 () 0x1000 16 1, .remapped 0 (some 0x8000) 0, .flushArea 1 () 0 0x2000, .unlock 0] =
        some s ∧ ¬ s.Safe :=
  ⟨_, rfl, fun h => (by cases h.fault)⟩

end UmServer

end Osfmk

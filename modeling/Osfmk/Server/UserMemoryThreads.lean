import Osfmk.Lib.Trace
import Osfmk.Lib.Census
import Osfmk.Server.UserMemoryFresh

/-!
# Server threads and the cache

The threads of the server use the cache under one master lock, and switch only where it is released: in
the `vm_remap` of `map_region`, while they copy, and in `unmap_region` while somebody uses the region.
-/

set_option linter.unusedSectionVars false

open Function (update update_apply update_idem update_of_ne update_self)
open List Option

namespace Osfmk

/-- Where a thread is. -/
inductive UmPc (T R : Type)
  | idle
  | mapping (task : T) (addr size : ℕ) (prot : VmProt)
  /-- It maps a region of the cache again, to extend it. -/
  | extending (r : R) (task : T) (addr size : ℕ) (prot : VmProt)
  /-- A lookup has returned the region, which was mapped there. -/
  | copying (r : R) (svrAddr size : ℕ)
  /-- `user_memory_flush_area` waits until nobody uses the region; it has saved `next_p`. -/
  | drainArea (r : R) (task : T) (nextP : Option R) (start stop : ℕ)
  /-- `user_memory_flush_task` waits until nobody uses the region; others follow. -/
  | drainTask (r : R) (rest : List R)
  deriving DecidableEq

namespace UmPc

variable {T R : Type}

/-- The region that the thread copies from or to. -/
def uses : UmPc T R → Option R
  | .copying r _ _ => some r
  | _ => none

/-- The region that the thread will go on with, and its task. -/
def needs : UmPc T R → Option (R × T)
  | .extending r task _ _ _ => some (r, task)
  | .drainArea _ task nextP _ _ => nextP.map fun n => (n, task)
  | _ => none

/-- The regions that the thread has unlinked and will free. -/
def drains : UmPc T R → List R
  | .drainArea r _ _ _ _ => [r]
  | .drainTask r rest => r :: rest
  | _ => []

/-- The end of a lookup. -/
def returned [DecidableEq T] [DecidableEq R] (m : Cache T R × ℕ × Option R) : Cache T R × UmPc T R :=
  (m.1, match m.2.2 with
    | none => .idle
    | some r =>
      match m.1.regions r with
      | none => .idle
      | some x => .copying r x.svrAddr x.size)

end UmPc

namespace Cache

variable {T R : Type} [DecidableEq T] [DecidableEq R]

/-- `user_memory_lookup`, until it returns or blocks. -/
def lookupStart (c : Cache T R) (task : T) (addr size : ℕ) (prot : VmProt) :
    Option (Cache T R × UmPc T R) :=
  match c.hinted task addr size with
  | some r => (c.finish addr prot r).map UmPc.returned
  | none =>
    match c.find task addr size with
    | .miss => some (c, .mapping task addr size prot)
    | .short r => some (c, .extending r task addr size prot)
    | .whole r =>
      (c.touch r).bind fun c => (c.finishSlow task addr prot (some r)).map UmPc.returned

/-- `user_memory_lookup`, after the slow lookup. -/
def lookupEnd (task : T) (addr : ℕ) (prot : VmProt) (m : Cache T R × Option R) :
    Option (Cache T R × UmPc T R) :=
  (m.1.finishSlow task addr prot m.2).map UmPc.returned

/-- The walk of `user_memory_flush_area`, until it ends or has to wait. -/
def walkArea (task : T) (start stop : ℕ) : List R → Cache T R → Option (Cache T R × UmPc T R)
  | [], c => some (c, .idle)
  | r :: l, c =>
    (c.regions r).bind fun x =>
      if inArea x start stop then
        (c.userMemoryDelete r true).bind fun c =>
          if x.refCount = 0 then walkArea task start stop l (c.unmapRegion r x)
          else some (c, .drainArea r task l.head? start stop)
      else walkArea task start stop l c

/-- The walk goes on with the region that it has saved, which must still be on the list. -/
def walkOn (c : Cache T R) (task : T) (start stop : ℕ) : Option R → Option (Cache T R × UmPc T R)
  | none => some (c, .idle)
  | some n =>
    if n ∈ c.intask task then
      walkArea task start stop ((c.intask task).dropWhile fun r => decide (r ≠ n)) c
    else none

/-- The second pass of `user_memory_flush_task`, until it ends or has to wait. -/
def walkTask : List R → Cache T R → Option (Cache T R × UmPc T R)
  | [], c => some (c, .idle)
  | r :: l, c =>
    (c.regions r).bind fun x =>
      if x.refCount = 0 then walkTask l (c.unmapRegion r x) else some (c, .drainTask r l)

/-- `user_memory_flush_task`. -/
def flushTaskStart (c : Cache T R) (task : T) : Option (Cache T R × UmPc T R) :=
  (unlinkAll (c.intask task) c).bind fun c =>
    walkTask (c.intask task) { c with intask := update c.intask task [] }

/-- `unmap_region` after a wait: nobody uses the region. -/
def drained (c : Cache T R) (r : R) : Bool := (c.regions r).all fun x => decide (x.refCount = 0)

end Cache

/-- The cache and the threads. -/
structure UmServer (P T R : Type) where
  cache : Cache T R
  pc : P → UmPc T R
  /-- A thread has followed a link that leads nowhere, or has found a fatal bug. -/
  fault : Bool

namespace UmServer

variable {P T R : Type} [DecidableEq P] [DecidableEq T] [DecidableEq R]

/-- What can happen: a thread calls one of the functions, or goes on after it has blocked; the users'
mappings change. -/
inductive Act (P T R : Type)
  | lookup (p : P) (task : T) (addr size : ℕ) (prot : VmProt)
  | remapped (p : P) (svrAddr : Option ℕ) (new : R)
  | unlock (p : P)
  | flushArea (p : P) (task : T) (start stop : ℕ)
  | flushTask (p : P) (task : T)
  | resume (p : P)
  | change (user : T → ℕ → Option VmProt)

/-- The turn of a thread, if it is its turn. -/
def turn (s : UmServer P T R) : Act P T R → Option (P × Option (Cache T R × UmPc T R))
  | .lookup p task addr size prot =>
    if s.pc p = .idle then some (p, s.cache.lookupStart task addr size prot) else none
  | .remapped p svrAddr new =>
    match s.pc p with
    | .mapping task addr size prot =>
      if s.cache.regions new = none then
        some (p, (s.cache.missed task addr size svrAddr new).bind (Cache.lookupEnd task addr prot))
      else none
    | .extending r task addr size prot =>
      some (p, (s.cache.extended r addr size svrAddr).bind (Cache.lookupEnd task addr prot))
    | _ => none
  | .unlock p =>
    match s.pc p with
    | .copying r _ _ => some (p, (s.cache.userMemoryUnlock r).map fun c => (c, .idle))
    | _ => none
  | .flushArea p task start stop =>
    if s.pc p = .idle then some (p, Cache.walkArea task start stop (s.cache.intask task) s.cache)
    else none
  | .flushTask p task => if s.pc p = .idle then some (p, s.cache.flushTaskStart task) else none
  | .resume p =>
    match s.pc p with
    | .drainArea r task nextP start stop =>
      if s.cache.drained r then
        some (p, (s.cache.regions r).bind fun x =>
          (s.cache.unmapRegion r x).walkOn task start stop nextP)
      else none
    | .drainTask r rest =>
      if s.cache.drained r then some (p, Cache.walkTask (r :: rest) s.cache) else none
    | _ => none
  | .change _ => none

/-- The state after a turn. -/
def after (s : UmServer P T R) (p : P) : Option (Cache T R × UmPc T R) → UmServer P T R
  | none => { s with fault := true }
  | some m => { s with cache := m.1, pc := update s.pc p m.2 }

/-- A step; there is none after a fault. -/
def step (s : UmServer P T R) (a : Act P T R) : Option (UmServer P T R) :=
  if s.fault then none
  else
    match a with
    | .change user => some { s with cache := { s.cache with user := user } }
    | a => (s.turn a).map fun m => s.after m.1 m.2

/-- Before any lookup. -/
structure Initial (s : UmServer P T R) : Prop where
  safe : s.fault = false
  pc : ∀ p, s.pc p = .idle
  regions : ∀ r, s.cache.regions r = none
  chain : ∀ h, s.cache.chain h = []
  intask : ∀ t, s.cache.intask t = []
  mru : s.cache.mru = []
  hint1 : ∀ t, s.cache.umHint1 t = none
  hint2 : ∀ t, s.cache.umHint2 t = none

/-- What a thread relies on. -/
structure PcOk (c : Cache T R) (pc : UmPc T R) : Prop where
  copying : ∀ r a n, pc = .copying r a n → ∃ x, c.regions r = some x ∧ x.svrAddr = a ∧ x.size = n
  needs : ∀ r t, pc.needs = some (r, t) → ∃ x, c.Linked r x ∧ x.task = t
  drains : ∀ r ∈ pc.drains, (∃ x, c.regions r = some x) ∧ r ∉ c.mru
  nodup : pc.drains.Nodup

/-- The reference count of a region is the number of threads that use it. -/
def Counted (pc : P → UmPc T R) (r : R) (n : ℕ) : Prop :=
  ∃ l, Census.Lists l (fun p => decide ((pc p).uses = some r)) ∧ l.length = n

/-- **What holds between two turns.** -/
structure Inv (s : UmServer P T R) : Prop where
  safe : s.fault = false
  lists : s.cache.Lists
  frames : s.cache.Frames
  fresh : s.cache.FreshOk
  room : s.cache.mru.length ≤ userMemorySize
  pcs : ∀ p, PcOk s.cache (s.pc p)
  count : ∀ r x, s.cache.regions r = some x → Counted s.pc r x.refCount
  one : ∀ p q r, r ∈ (s.pc p).drains → r ∈ (s.pc q).drains → p = q
  own : ∀ r x, s.cache.regions r = some x → r ∉ s.cache.mru → ∃ p, r ∈ (s.pc p).drains

variable {s : UmServer P T R} {p : P} {c c' : Cache T R} {r : R} {x : UmRegion T}
  {pc pc' : UmPc T R}

theorem pcOk_of_quiet (hu : pc.uses = none) (hn : pc.needs = none) (hd : pc.drains = []) :
    PcOk c pc := by
  refine ⟨fun r a n h => ?_, fun r t h => ?_, fun r h => ?_, ?_⟩
  · rw [h] at hu
    cases hu
  · rw [hn] at h
    cases h
  · rw [hd] at h
    cases h
  · rw [hd]
    exact nodup_nil

theorem PcOk.mono (h : PcOk c pc) (hu : ∀ r x, pc.uses = some r → c.regions r = some x →
      ∃ y, c'.regions r = some y ∧ y.svrAddr = x.svrAddr ∧ y.size = x.size)
    (hn : ∀ r t x, pc.needs = some (r, t) → c.Linked r x → ∃ y, c'.Linked r y ∧ y.task = x.task)
    (hd : ∀ r x, r ∈ pc.drains → c.regions r = some x → r ∉ c.mru →
      (∃ y, c'.regions r = some y) ∧ r ∉ c'.mru) : PcOk c' pc := by
  refine ⟨fun r a n hpc => ?_, fun r t hpc => ?_, fun r hr => ?_, h.nodup⟩
  · obtain ⟨x, hx, rfl, rfl⟩ := h.copying r a n hpc
    exact hu r x (by rw [hpc]; rfl) hx
  · obtain ⟨x, hx, rfl⟩ := h.needs r t hpc
    exact hn r _ x hpc hx
  · obtain ⟨⟨x, hx⟩, hm⟩ := h.drains r hr
    exact hd r x hr hx hm

variable {task : T} {prot : VmProt} {addr n size : ℕ}

theorem counted_update (h : Counted s.pc r n) (hold : (s.pc p).uses = pc'.uses) :
    Counted (update s.pc p pc') r n := by
  refine Census.Counted.congr h fun q => ?_
  rw [update_apply]
  split
  · next hq => rw [hq, hold]
  · rfl

theorem counted_drop (pc' : UmPc T R) (h : Counted s.pc r n) (hold : (s.pc p).uses = some r)
    (hnew : pc'.uses ≠ some r) : n ≠ 0 ∧ Counted (update s.pc p pc') r (n - 1) :=
  Census.Counted.drop h (fun q hq => by rw [update_of_ne hq]) hold
    (by rw [update_self]; exact hnew)

theorem Inv.not_uses (h : Inv s) (hr : s.cache.regions r = none) (q : P) : (s.pc q).uses ≠ some r := by
  intro hq
  cases hpc : s.pc q with
  | copying r' a n =>
    rw [hpc] at hq
    obtain ⟨x, hx, -⟩ := (h.pcs q).copying r' a n hpc
    rw [some.inj hq, hr] at hx
    cases hx
  | _ =>
    rw [hpc] at hq
    cases hq

/-- **The rule for a turn**: the cache and one thread change. -/
theorem Inv.turn (h : Inv s) (hl : c'.Lists) (hf : c'.Frames) (hfr : c'.FreshOk)
    (hroom : c'.mru.length ≤ userMemorySize) (hothers : ∀ q, q ≠ p → PcOk c' (s.pc q))
    (hself : PcOk c' pc')
    (hcount : ∀ r x, c'.regions r = some x → Counted (update s.pc p pc') r x.refCount)
    (hone : ∀ q r, q ≠ p → r ∈ (s.pc q).drains → r ∉ pc'.drains)
    (hown : ∀ r x, c'.regions r = some x → r ∉ c'.mru →
      r ∈ pc'.drains ∨ ∃ q, q ≠ p ∧ r ∈ (s.pc q).drains) :
    Inv { s with cache := c', pc := update s.pc p pc' } := by
  refine ⟨h.safe, hl, hf, hfr, hroom, fun q => ?_, hcount, fun q q' r hq hq' => ?_,
    fun r x hx hr => ?_⟩
  · dsimp only
    rw [update_apply]
    split
    · exact hself
    · next hq => exact hothers q hq
  · simp only [update_apply] at hq hq'
    split at hq <;> split at hq'
    · next h1 h2 => rw [h1, h2]
    · next h1 h2 => exact absurd hq (hone q' r h2 hq')
    · next h1 h2 => exact absurd hq' (hone q r h1 hq)
    · exact h.one q q' r hq hq'
  · rcases hown r x hx hr with hr | ⟨q, hqp, hq⟩
    · exact ⟨p, by simpa using hr⟩
    · exact ⟨q, by simpa [update_of_ne hqp] using hq⟩

theorem Inv.move (h : Inv s) (hu : (s.pc p).uses = none) (hd : (s.pc p).drains = [])
    (hu' : pc'.uses = none) (hd' : pc'.drains = [])
    (hn' : ∀ r t, pc'.needs = some (r, t) → ∃ x, s.cache.Linked r x ∧ x.task = t) :
    Inv { s with cache := s.cache, pc := update s.pc p pc' } := by
  refine h.turn h.lists h.frames h.fresh h.room (fun q _ => h.pcs q) ⟨fun r a n hpc => ?_, hn', ?_, ?_⟩
    (fun r x hx => counted_update (h.count r x hx) (hu.trans hu'.symm)) (fun q r _ _ => ?_)
    fun r x hx hr => ?_
  · rw [hpc] at hu'
    cases hu'
  · simp [hd']
  · simp [hd']
  · simp [hd']
  obtain ⟨q, hq⟩ := h.own r x hx hr
  refine Or.inr ⟨q, fun hqp => ?_, hq⟩
  rw [hqp, hd] at hq
  cases hq

theorem Inv.addHint {t : T} (h : Inv s) (hx : s.cache.Linked r x) (ht : x.task = t) :
    Inv { s with cache := s.cache.addHint t r } := by
  have hl := h.lists.addHint hx ht
  obtain ⟨h1, h2, hadd⟩ := Cache.addHint_eq s.cache t r
  rw [hadd] at hl ⊢
  exact ⟨h.safe, hl, h.frames.congr rfl rfl, h.fresh.congr rfl rfl rfl, h.room, fun p =>
    (h.pcs p).mono (fun r x _ hx => ⟨x, hx, rfl, rfl⟩) (fun r t x _ hx => ⟨x, hx, rfl⟩)
      fun r x _ hx hr => ⟨⟨x, hx⟩, hr⟩, h.count, h.one, h.own⟩

theorem Inv.setRefCount (h : Inv s) (hx : s.cache.regions r = some x)
    (hd : (s.pc p).drains = []) (hd' : pc'.drains = [])
    (hself : PcOk (s.cache.setRegion r { x with refCount := n }) pc')
    (hn : Counted (update s.pc p pc') r n)
    (hothers : ∀ q, q ≠ r → ((s.pc p).uses = some q ↔ pc'.uses = some q)) :
    Inv { s with
      cache := s.cache.setRegion r { x with refCount := n }
      pc := update s.pc p pc' } := by
  have hreg : ∀ q y, s.cache.regions q = some y →
      ∃ y', (s.cache.setRegion r { x with refCount := n }).regions q = some y' ∧
        y'.svrAddr = y.svrAddr ∧ y'.size = y.size ∧ y'.task = y.task := by
    intro q y hy
    by_cases hq : q = r
    · subst hq
      obtain rfl := some.inj (hx.symm.trans hy)
      exact ⟨_, update_self _ _ _, rfl, rfl, rfl⟩
    · exact ⟨y, (update_of_ne hq _ _).trans hy, rfl, rfl, rfl⟩
  refine h.turn (h.lists.setRegion hx rfl rfl) (h.frames.setRefCount hx n) (h.fresh.congr rfl rfl rfl)
    h.room (fun q _ => (h.pcs q).mono (fun q' y _ hy => ?_) (fun q' t y _ hy => ?_)
      fun q' y _ hy hm => ?_) hself (fun q y hy => ?_) (fun q q' _ _ => by simp [hd']) fun q y hy hm => ?_
  · obtain ⟨y', hy', ha, hs, -⟩ := hreg q' y hy
    exact ⟨y', hy', ha, hs⟩
  · obtain ⟨y', hy', -, -, ht⟩ := hreg q' y hy.1
    exact ⟨y', ⟨hy', hy.2⟩, ht⟩
  · obtain ⟨y', hy', -⟩ := hreg q' y hy
    exact ⟨⟨y', hy'⟩, hm⟩
  · by_cases hq : q = r
    · subst hq
      obtain rfl := some.inj ((Cache.setRegion_self _ _ _).symm.trans hy)
      exact hn
    · have hy0 : s.cache.regions q = some y := (update_of_ne hq _ _).symm.trans hy
      refine Census.Counted.congr (h.count q y hy0) fun q' => ?_
      rw [update_apply]
      split
      · next hq' => rw [hq', hothers q hq]
      · rfl
  · have hold : ∃ y0, s.cache.regions q = some y0 := by
      by_cases hq : q = r
      · exact ⟨x, hq ▸ hx⟩
      · exact ⟨y, (update_of_ne hq _ _).symm.trans hy⟩
    obtain ⟨y0, hy0⟩ := hold
    obtain ⟨q', hq'⟩ := h.own q y0 hy0 hm
    refine Or.inr ⟨q', fun hqp => ?_, hq'⟩
    rw [hqp, hd] at hq'
    cases hq'

/-- **A lookup returns**, with the region or without. -/
theorem Inv.finish (h : Inv s) (addr : ℕ) (prot : VmProt) (hx : s.cache.regions r = some x)
    (hu : (s.pc p).uses = none) (hd : (s.pc p).drains = []) :
    ∃ m, (s.cache.finish addr prot r).map UmPc.returned = some m ∧ Inv (s.after p (some m)) := by
  unfold Cache.finish
  rw [hx, map_some, map_some]
  split
  · exact ⟨_, rfl, h.move hu hd rfl rfl fun _ _ h => (by cases h)⟩
  have hpc : UmPc.returned (s.cache.setRegion r { x with refCount := x.refCount + 1 },
      umWord (x.svrAddr + addr + 2 ^ 32 - pagenumToAddr x.userPage), some r) =
      (s.cache.setRegion r { x with refCount := x.refCount + 1 }, .copying r x.svrAddr x.size) := by
    simp [UmPc.returned, Cache.setRegion]
  refine ⟨_, rfl, ?_⟩
  rw [hpc]
  refine h.setRefCount hx hd rfl ⟨fun r' a n hc => ?_, fun _ _ h => (by cases h),
    fun _ h => (by cases h), nodup_nil⟩ (Census.Counted.take (h.count r x hx)
    (fun q hq => by rw [update_of_ne hq]) (by simp [hu]) (by simp; rfl)) fun q hq => ?_
  · obtain ⟨rfl, rfl, rfl⟩ := UmPc.copying.inj hc
    exact ⟨_, update_self _ _ _, rfl, rfl⟩
  · rw [hu, show (UmPc.copying r x.svrAddr x.size : UmPc T R).uses = some r from rfl]
    simp [Ne.symm hq]

theorem Inv.lookupEnd (res : Option R)
    (h : Inv { s with cache := c, pc := update s.pc p .idle })
    (hres : ∀ r, res = some r → ∃ x, c.Linked r x ∧ x.task = task) :
    ∃ m, Cache.lookupEnd task addr prot (c, res) = some m ∧ Inv (s.after p (some m)) := by
  cases res with
  | none => exact ⟨_, rfl, h⟩
  | some r =>
    obtain ⟨x, hx, ht⟩ := hres r rfl
    have hadd := h.addHint hx ht
    obtain ⟨h1, h2, he⟩ := Cache.addHint_eq c task r
    have hx' : (c.addHint task r).regions r = some x := by
      rw [he]
      exact hx.1
    obtain ⟨m, hm, hinv⟩ := hadd.finish (p := p) addr prot hx' (by simp [UmPc.uses])
      (by simp [UmPc.drains])
    refine ⟨m, hm, ?_⟩
    have hidem : ({ s with cache := c.addHint task r, pc := update s.pc p .idle } :
        UmServer P T R).after p (some m) = s.after p (some m) := by
      simp only [after, update_idem]
    rw [← hidem]
    exact hinv

/-- **The condition on unlinking a region**: no other thread will go on with it. -/
def Free (s : UmServer P T R) (p : P) (r : R) : Prop :=
  ∀ q t, q ≠ p → (s.pc q).needs ≠ some (r, t)

theorem room_of_mem (hl : c.Lists) (hl' : c'.Lists) (hm : ∀ q, q ∈ c'.mru ↔ q ∈ c.mru) :
    c'.mru.length = c.mru.length :=
  ((perm_ext_iff_of_nodup hl'.mruNodup hl.mruNodup).mpr hm).length_eq

theorem idleOk : PcOk c (.idle : UmPc T R) := pcOk_of_quiet rfl rfl rfl

theorem Inv.own_ne (h : Inv s) (hd : (s.pc p).drains = []) (hx : s.cache.regions r = some x)
    (hr : r ∉ s.cache.mru) : ∃ q, q ≠ p ∧ r ∈ (s.pc q).drains := by
  obtain ⟨q, hq⟩ := h.own r x hx hr
  refine ⟨q, fun hqp => ?_, hq⟩
  rw [hqp, hd] at hq
  cases hq

/-- **The region that a thread extends is mapped anew**, if nobody uses it. -/
theorem Inv.extended (svr : Option ℕ) (h : Inv s)
    (hpc : s.pc p = .extending r task addr size prot)
    (hfree : ∀ x, s.cache.regions r = some x → x.refCount = 0) :
    ∃ m, (s.cache.extended r addr size svr).bind (Cache.lookupEnd task addr prot) = some m ∧
      Inv (s.after p (some m)) := by
  have hu : (s.pc p).uses = none := by rw [hpc]; rfl
  have hd : (s.pc p).drains = [] := by rw [hpc]; rfl
  obtain ⟨x, hx, ht⟩ := (h.pcs p).needs r task (by rw [hpc]; rfl)
  have hzero := hfree x hx.1
  obtain ⟨c', res, hext, hok⟩ := Cache.extended_fresh addr size svr h.lists h.fresh hx
  rw [hext, bind_some]
  rcases Cache.extended_looked h.lists h.frames hx hext with
    ⟨rfl, rfl⟩ | ⟨rfl, s1, y, hmap, hlook, hother, hmru⟩
  · exact Inv.lookupEnd none (h.move hu hd rfl rfl nofun) nofun
  refine Inv.lookupEnd (some r) (h.turn hlook.lists hlook.frames hok ?_ (fun q _ => ?_) idleOk
    (fun q z hz => ?_) (fun q r _ _ => not_mem_nil) fun q z hz hm => ?_) fun q hq => ?_
  · rw [room_of_mem h.lists hlook.lists hmru]
    exact h.room
  · -- nobody copies from it, and whoever needs it finds it
    have hnot := Census.Counted.ne_of_zero (hzero ▸ h.count r x hx.1)
    refine (h.pcs q).mono (fun r' z hz hz' => ?_) (fun r' t z hz hz' => ?_) fun r' z hz hz' hm => ?_
    · have hne : r' ≠ r := fun he => hnot q (he ▸ hz)
      exact ⟨z, (hother r' hne).trans hz', rfl, rfl⟩
    · by_cases hne : r' = r
      · subst hne
        obtain rfl := some.inj (hx.1.symm.trans hz'.1)
        exact ⟨_, hlook.linked, rfl⟩
      · exact ⟨z, ⟨(hother r' hne).trans hz'.1, (hmru r').mpr hz'.2⟩, rfl⟩
    · have hne : r' ≠ r := fun he => hm (he ▸ hx.2)
      exact ⟨⟨z, (hother r' hne).trans hz'⟩, fun hm' => hm ((hmru r').mp hm')⟩
  · have hold : ∃ z0, s.cache.regions q = some z0 ∧ z0.refCount = z.refCount := by
      by_cases hne : q = r
      · subst hne
        obtain rfl := some.inj (hlook.linked.1.symm.trans hz)
        exact ⟨x, hx.1, rfl⟩
      · exact ⟨z, (hother q hne).symm.trans hz, rfl⟩
    obtain ⟨z0, hz0, hcount⟩ := hold
    rw [← hcount]
    exact counted_update (h.count q z0 hz0) hu
  · have hne : q ≠ r := fun he => hm (he ▸ hlook.linked.2)
    exact Or.inr (h.own_ne hd ((hother q hne).symm.trans hz) fun hm' => hm ((hmru q).mpr hm'))
  · cases hq
    exact ⟨_, hlook.linked, ht⟩

/-- **A region is mapped that was not in the cache.** -/
theorem Inv.missed (svr : Option ℕ) (h : Inv s)
    (hpc : s.pc p = .mapping task addr size prot) (hnew : s.cache.regions r = none)
    (hready : s.cache.Ready)
    (hold : ∀ o y, s.cache.mru.length = userMemorySize → s.cache.mru.getLast? = some o →
      s.cache.regions o = some y → y.refCount = 0 ∧ s.Free p o) :
    ∃ m, (s.cache.missed task addr size svr r).bind (Cache.lookupEnd task addr prot) = some m ∧
      Inv (s.after p (some m)) := by
  have hu : (s.pc p).uses = none := by rw [hpc]; rfl
  have hd : (s.pc p).drains = [] := by rw [hpc]; rfl
  obtain ⟨c', res, hmiss, hok, hroom, hrest⟩ := Cache.missed_fresh task addr size svr
    h.lists h.fresh h.room hready hnew fun o y hlen ho hy => (hold o y hlen ho hy).1
  rw [hmiss, bind_some]
  rcases Cache.missed_looked h.lists h.frames hmiss with ⟨rfl, rfl⟩ | ⟨rfl, -, s1, x, hmap, hlook⟩
  · exact Inv.lookupEnd none (h.move hu hd rfl rfl nofun) nofun
  obtain ⟨-, -, ht, -, -, hzero, -⟩ := Cache.mapRegion_eq hmap
  have hrest : ∀ q, q ≠ r → s.cache.mru.length = userMemorySize ∧
      s.cache.mru.getLast? = some q ∧ q ∈ s.cache.mru ∧ c'.regions q = none ∨
      c'.regions q = s.cache.regions q ∧ (q ∈ c'.mru ↔ q ∈ s.cache.mru) := by
    refine hrest.resolve_left fun he => ?_
    rw [he] at hlook
    rw [hlook.linked.1] at hnew
    cases hnew
  -- a region that is allocated is another one, and stays if it is used, needed or drained
  have hne : ∀ q y, s.cache.regions q = some y → q ≠ r := by
    rintro q y hy rfl
    rw [hnew] at hy
    cases hy
  refine Inv.lookupEnd (some r) (h.turn hlook.lists hlook.frames hok hroom (fun q hqp => ?_) idleOk
    (fun q z hz => ?_) (fun q r _ _ => not_mem_nil) fun q z hz hm => ?_) fun q hq => ?_
  · refine (h.pcs q).mono (fun r' z hz hz' => ?_) (fun r' t z hz hz' => ?_) fun r' z hz hz' hm => ?_
    · rcases hrest r' (hne r' z hz') with ⟨hlen, hlast, -, -⟩ | ⟨hsame, -⟩
      · have hc := h.count r' z hz'
        rw [(hold r' z hlen hlast hz').1] at hc
        exact absurd hz (Census.Counted.ne_of_zero hc q)
      · exact ⟨z, hsame.trans hz', rfl, rfl⟩
    · rcases hrest r' (hne r' z hz'.1) with ⟨hlen, hlast, -, -⟩ | ⟨hsame, hmru⟩
      · exact absurd hz ((hold r' z hlen hlast hz'.1).2 q t hqp)
      · exact ⟨z, ⟨hsame.trans hz'.1, hmru.mpr hz'.2⟩, rfl⟩
    · rcases hrest r' (hne r' z hz') with ⟨-, -, hm', -⟩ | ⟨hsame, hmru⟩
      · exact absurd hm' hm
      · exact ⟨⟨z, hsame.trans hz'⟩, fun hm' => hm (hmru.mp hm')⟩
  · by_cases hqr : q = r
    · subst hqr
      obtain rfl := some.inj (hlook.linked.1.symm.trans hz)
      rw [hzero]
      refine ⟨[], ⟨nodup_nil, fun p' => ?_⟩, rfl⟩
      simp only [not_mem_nil, decide_eq_true_eq, false_iff]
      rw [update_apply]
      split
      · exact nofun
      · exact h.not_uses hnew p'
    · rcases hrest q hqr with ⟨-, -, -, hgone⟩ | ⟨hsame, -⟩
      · rw [hgone] at hz
        cases hz
      · exact counted_update (h.count q z (hsame.symm.trans hz)) hu
  · have hqr : q ≠ r := fun he => hm (he ▸ hlook.linked.2)
    rcases hrest q hqr with ⟨-, -, -, hgone⟩ | ⟨hsame, hmru⟩
    · rw [hgone] at hz
      cases hz
    · exact Or.inr (h.own_ne hd (hsame.symm.trans hz) fun hm' => hm (hmru.mpr hm'))
  · cases hq
    exact ⟨x, hlook.linked, ht⟩

/-- **The beginning of a lookup.** -/
theorem Inv.lookupStart (task : T) (addr size : ℕ) (prot : VmProt) (h : Inv s) (hidle : s.pc p = .idle) :
    ∃ m, s.cache.lookupStart task addr size prot = some m ∧ Inv (s.after p (some m)) := by
  have hu : (s.pc p).uses = none := by rw [hidle]; rfl
  have hd : (s.pc p).drains = [] := by rw [hidle]; rfl
  unfold Cache.lookupStart
  split
  · next r hr =>
    obtain ⟨x, hx⟩ : ∃ x, s.cache.Linked r x := by
      rcases or_eq_some_iff.mp hr with hg | ⟨-, hg⟩
      · obtain ⟨x, hx, -⟩ := h.lists.hint1 task r (filter_eq_some_iff.mp hg).1
        exact ⟨x, hx⟩
      · obtain ⟨x, hx, -⟩ := h.lists.hint2 task r (filter_eq_some_iff.mp hg).1
        exact ⟨x, hx⟩
    exact h.finish addr prot hx.1 hu hd
  split
  · exact ⟨_, rfl, h.move hu hd rfl rfl nofun⟩
  · next r hfind =>
    refine ⟨_, rfl, h.move hu hd rfl rfl fun q t hn => ?_⟩
    cases hn
    unfold Cache.find at hfind
    split at hfind
    · cases hfind
    next r' hr' =>
    split at hfind
    · cases hfind
      obtain ⟨x, hx, ht, -⟩ := Cache.linked_of_onChain h.lists hr'
      exact ⟨x, hx, ht⟩
    · cases hfind
  · next r hfind =>
    obtain ⟨x, hx, ht⟩ : ∃ x, s.cache.Linked r x ∧ x.task = task := by
      unfold Cache.find at hfind
      split at hfind
      · cases hfind
      next r' hr' =>
      split at hfind
      · cases hfind
      · cases hfind
        obtain ⟨x, hx, ht, -⟩ := Cache.linked_of_onChain h.lists hr'
        exact ⟨x, hx, ht⟩
    obtain ⟨c', hc', hok⟩ := Cache.touch_fresh h.fresh h.lists.mruNodup hx.2
    obtain ⟨hl', hr', hs', -, -, hm'⟩ := h.lists.touch hx.2 hc'
    rw [hc', bind_some]
    refine Inv.lookupEnd (some r) (h.turn hl' (h.frames.congr hr' hs') hok ?_ (fun q _ => ?_)
      idleOk (fun q y hy => ?_) (fun q r _ _ => not_mem_nil) fun q y hy hm => ?_) fun q hq => ?_
    · rw [room_of_mem h.lists hl' hm']
      exact h.room
    · refine (h.pcs q).mono (fun r' z _ hz => ⟨z, by rw [hr', hz], rfl, rfl⟩)
        (fun r' t z _ hz => ⟨z, ⟨by rw [hr', hz.1], (hm' r').mpr hz.2⟩, rfl⟩) fun r' z _ hz hm => ?_
      exact ⟨⟨z, by rw [hr', hz]⟩, fun hm1 => hm ((hm' r').mp hm1)⟩
    · rw [hr'] at hy
      exact counted_update (h.count q y hy) hu
    · rw [hr'] at hy
      exact Or.inr (h.own_ne hd hy fun hm1 => hm ((hm' q).mpr hm1))
    · cases hq
      exact ⟨x, ⟨by rw [hr', hx.1], (hm' r).mpr hx.2⟩, ht⟩

/-- **A region that somebody uses is unlinked**, and the thread waits. -/
theorem Inv.unlink (task : T) (nextP : Option R) (start stop : ℕ) (h : Inv s) (hidle : s.pc p = .idle)
    (hx : s.cache.Linked r x) (hfree : s.Free p r)
    (hnext : ∀ n, nextP = some n → n ≠ r ∧ ∃ y, s.cache.Linked n y ∧ y.task = task) :
    ∃ c1, s.cache.userMemoryDelete r true = some c1 ∧ Inv { s with
      cache := c1
      pc := update s.pc p (.drainArea r task nextP start stop) } := by
  obtain ⟨c1, h1, hok⟩ := Cache.userMemoryDelete_fresh (g := s.cache.intask) h.lists h.fresh hx.2 true
  obtain ⟨hl1, hr1, hs1, -, hm1, -⟩ := h.lists.delete h1
  have hmem : ∀ q, q ∈ c1.mru ↔ q ≠ r ∧ q ∈ s.cache.mru := by
    intro q
    rw [hm1, h.lists.mruNodup.mem_erase_iff]
  refine ⟨c1, h1, h.turn hl1 (h.frames.congr hr1 hs1) hok ?_ (fun q hqp => ?_)
    ⟨nofun, fun n t hn => ?_, fun q hq => ?_, nodup_singleton r⟩
    (fun q y hy => ?_) (fun q r' _ hr' hm => ?_) fun q y hy hm => ?_⟩
  · rw [hm1]
    exact length_erase_le.trans h.room
  · refine (h.pcs q).mono (fun r' z _ hz' => ⟨z, hr1 ▸ hz', rfl, rfl⟩) (fun r' t z hn hz' => ?_)
      fun r' z _ hz' hm => ⟨⟨z, hr1 ▸ hz'⟩, fun hm' => hm ((hmem r').mp hm').2⟩
    have hne : r' ≠ r := fun he => hfree q t hqp (he ▸ hn)
    exact ⟨z, ⟨hr1 ▸ hz'.1, (hmem r').mpr ⟨hne, hz'.2⟩⟩, rfl⟩
  · obtain ⟨n', hn', he⟩ := map_eq_some_iff.mp hn
    obtain ⟨rfl, rfl⟩ := Prod.mk.inj he
    obtain ⟨hne, y, hy, ht⟩ := hnext n' hn'
    exact ⟨y, ⟨hr1 ▸ hy.1, (hmem n').mpr ⟨hne, hy.2⟩⟩, ht⟩
  · rw [mem_singleton.mp hq]
    exact ⟨⟨x, hr1 ▸ hx.1⟩, fun hm => ((hmem r).mp hm).1 rfl⟩
  · rw [hr1] at hy
    exact counted_update (h.count q y hy) (by rw [hidle]; rfl)
  · rw [mem_singleton.mp hm] at hr'
    exact ((h.pcs q).drains r hr').2 hx.2
  · rw [hr1] at hy
    by_cases hq : q = r
    · exact Or.inl (mem_singleton.mpr hq)
    · exact Or.inr (h.own_ne (by rw [hidle]; rfl) hy fun hm' => hm ((hmem q).mpr ⟨hq, hm'⟩))

/-- **A region that the thread has unlinked is freed.** -/
theorem Inv.unmap (pc' : UmPc T R) (h : Inv s) (hx : s.cache.regions r = some x) (hz : x.refCount = 0)
    (hr : r ∈ (s.pc p).drains) (hu : (s.pc p).uses = pc'.uses) (hn : pc'.needs = none)
    (hu' : pc'.uses = none) (hd : ∀ q, q ∈ pc'.drains ↔ q ∈ (s.pc p).drains ∧ q ≠ r)
    (hnodup : pc'.drains.Nodup) :
    Inv { s with cache := s.cache.unmapRegion r x, pc := update s.pc p pc' } := by
  have hnm : r ∉ s.cache.mru := ((h.pcs p).drains r hr).2
  have hreg : ∀ q, q ≠ r → (s.cache.unmapRegion r x).regions q = s.cache.regions q :=
    fun q hq => update_of_ne hq _ _
  have hgone : (s.cache.unmapRegion r x).regions r = none := update_self _ _ _
  have hlive : ∀ q y, (s.cache.unmapRegion r x).regions q = some y → q ≠ r := by
    rintro q y hy rfl
    rw [hgone] at hy
    cases hy
  have hnot := Census.Counted.ne_of_zero (hz ▸ h.count r x hx)
  refine h.turn (h.lists.unmap hnm) (h.frames.unmap hx) (h.fresh.congr rfl rfl rfl) h.room
    (fun q hqp => ?_) ⟨fun _ _ _ hc => ?_, fun _ _ hf => ?_, fun q hq => ?_, hnodup⟩ (fun q y hy => ?_)
    (fun q r' hqp hr' hm => ?_) fun q y hy hm => ?_
  · refine (h.pcs q).mono (fun r' z hu hz' => ?_) (fun r' t z _ hz' => ?_) fun r' z hr' hz' hm => ?_
    · have hne : r' ≠ r := fun he => hnot q (he ▸ hu)
      exact ⟨z, (hreg r' hne).trans hz', rfl, rfl⟩
    · have hne : r' ≠ r := fun he => hnm (he ▸ hz'.2)
      exact ⟨z, ⟨(hreg r' hne).trans hz'.1, hz'.2⟩, rfl⟩
    · have hne : r' ≠ r := fun he => hqp (h.one q p r (he ▸ hr') hr)
      exact ⟨⟨z, (hreg r' hne).trans hz'⟩, hm⟩
  · rw [hc] at hu'
    cases hu'
  · rw [hn] at hf
    cases hf
  · obtain ⟨hq, hne⟩ := (hd q).mp hq
    obtain ⟨⟨y, hy⟩, hm⟩ := (h.pcs p).drains q hq
    exact ⟨⟨y, (hreg q hne).trans hy⟩, hm⟩
  · have hne := hlive q y hy
    exact counted_update (h.count q y ((hreg q hne).symm.trans hy)) hu
  · exact hqp (h.one q p r' hr' ((hd r').mp hm).1)
  · have hne := hlive q y hy
    obtain ⟨q', hq'⟩ := h.own q y ((hreg q hne).symm.trans hy) hm
    by_cases hqp : q' = p
    · rw [hqp] at hq'
      exact Or.inl ((hd q).mpr ⟨hq', hne⟩)
    · exact Or.inr ⟨q', hqp, hq'⟩

/-- **A region that nobody uses is unlinked and freed.** -/
theorem Inv.flush (h : Inv s) (hidle : s.pc p = .idle) (hx : s.cache.Linked r x)
    (hz : x.refCount = 0) (hfree : s.Free p r) :
    ∃ c1, s.cache.userMemoryDelete r true = some c1 ∧ Inv { s with cache := c1.unmapRegion r x } := by
  obtain ⟨c1, h1, hinv⟩ := h.unlink x.task none 0 0 hidle hx hfree nofun
  obtain ⟨-, hr1, -⟩ := h.lists.delete h1
  have hunmap := hinv.unmap (p := p) (r := r) .idle (hr1 ▸ hx.1) hz (by simp [UmPc.drains])
    (by simp [UmPc.uses]) rfl rfl (fun q => by simp [UmPc.drains]) nodup_nil
  refine ⟨c1, h1, ?_⟩
  dsimp only at hunmap
  rwa [update_idem, ← hidle, Function.update_eq_self] at hunmap

end UmServer

end Osfmk

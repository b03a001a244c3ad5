import Osfmk.Lib.Census
import Osfmk.Vm.Resident

/-!
# The invariant of resident pages

What the queues, the table and the counters of `Osfmk.Vm.Resident` say about pages, and the small
steps the routines are made of: each step changes one page, and the queues and the counters
follow.
-/

open Function (update update_of_ne update_self)
open Option (some.inj)

namespace Osfmk.Resident

open Census

theorem of_eq_false {b : Bool} {p : Prop} (h : b = false) (hb : b = true) : p :=
  absurd (h.symm.trans hb) Bool.false_ne_true

variable {P O : Type} [DecidableEq P] [DecidableEq O]

/-- A page with memory of its own. -/
def Page.isReal (pg : Page O) : Bool := !pg.isPrivate && !pg.fictitious

/-- On the free list. -/
def Page.onFree (pg : Page O) : Bool := pg.free && !pg.fictitious

/-- Free, in the zone. -/
def Page.onZone (pg : Page O) : Bool := pg.free && pg.fictitious

def Page.activeReal (pg : Page O) : Bool := pg.active && !pg.fictitious

def Page.inactiveReal (pg : Page O) : Bool := pg.inactive && !pg.fictitious

/-- Wired. -/
def Page.isWired (pg : Page O) : Bool := decide (pg.wireCount ≠ 0)

/-- A real page that is wired or gobbled. -/
def Page.wiredReal (pg : Page O) : Bool := pg.isReal && (pg.isWired || pg.gobbled)

/-- A tabled page of a bucket. -/
def Page.inBucket (c : Config O) (b : ℕ) (pg : Page O) : Bool :=
  pg.tabled && pg.object.any fun o => decide (c.hash o pg.offset = b)

/-- A tabled page of an object. -/
def Page.inObject (o : O) (pg : Page O) : Bool := pg.tabled && decide (pg.object = some o)

/-- What may lag behind within a routine: a page that has the limbo flag and is not in the queue,
and the count of real pages in limbo. -/
structure Slack (P : Type) where
  pend : Option P
  real : ℤ

variable (σ : Slack P) (c : Config O) (w : PageWorld P O)

/-- In the limbo queue. -/
def Slack.lim (m : P) (pg : Page O) : Bool := pg.limbo && decide (σ.pend ≠ some m)

/-- The flags of a page: it is at most one of free, active, inactive, in limbo, wired; a gobbled
page is not free, in limbo or wired. -/
structure Page.Ok (pg : Page O) (lim : Bool) : Prop where
  free : pg.free = true → pg.active = false ∧ pg.inactive = false ∧ pg.limbo = false ∧
    pg.gobbled = false ∧ pg.wireCount = 0 ∧ pg.tabled = false ∧ pg.isPrivate = false
  limbo : lim = true → pg.active = false ∧ pg.inactive = false ∧ pg.gobbled = false ∧
    pg.wireCount = 0 ∧ pg.tabled = false
  active : pg.active = true → pg.inactive = false ∧ pg.wireCount = 0
  inactive : pg.inactive = true → pg.wireCount = 0
  gobbled : pg.gobbled = true → pg.wireCount = 0
  tabled : pg.tabled = true → pg.object.isSome

/-- The queues are the pages with the flags. -/
structure Queues : Prop where
  free : Lists w.queueFree fun p => (w.page p).onFree
  zone : Lists w.zone fun p => (w.page p).onZone
  active : Lists w.queueActive fun p => (w.page p).active
  inactive : Lists w.queueInactive fun p => (w.page p).inactive
  limbo : Lists w.queueLimbo fun p => σ.lim p (w.page p)

/-- The counters. -/
structure Counts [Fintype P] : Prop where
  free : w.freeCount = tally fun p => (w.page p).onFree
  active : w.activeCount = tally fun p => (w.page p).activeReal
  inactive : w.inactiveCount = tally fun p => (w.page p).inactiveReal
  limbo : w.limboCount = tally fun p => σ.lim p (w.page p)
  limboReal : w.limboRealCount =
    (tally fun p => σ.lim p (w.page p) && !(w.page p).fictitious) + σ.real
  gobble : w.gobbleCount = tally fun p => (w.page p).gobbled
  wire : w.wireCount = tally fun p => (w.page p).wiredReal

/-- The buckets and the lists of objects are the tabled pages, no two of them at one offset of
an object. -/
structure Table [Fintype P] : Prop where
  bucket : ∀ b, Lists (w.buckets b) fun p => (w.page p).inBucket c b
  memq : ∀ o, Lists (w.memq o) fun p => (w.page p).inObject o
  count : ∀ o, w.residentPageCount o = tally fun p => (w.page p).inObject o
  unique : ∀ p q, (w.page p).tabled = true → (w.page q).tabled = true →
    (w.page p).object = (w.page q).object → (w.page p).offset = (w.page q).offset → p = q

/-- In limbo, real pages come before fictitious ones. -/
def RealFirst : Prop :=
  w.queueLimbo.Pairwise fun a b => (w.page a).fictitious = true → (w.page b).fictitious = true

/-- **The invariant of resident pages.** -/
structure PageInv [Fintype P] : Prop where
  ok : ∀ p, (w.page p).Ok (σ.lim p (w.page p))
  queues : Queues σ w
  counts : Counts σ w
  table : Table c w
  addr : ∀ p q, (w.page p).isReal = true → (w.page q).isReal = true →
    (w.page p).physAddr = (w.page q).physAddr → p = q
  realFirst : RealFirst w

variable {σ c w} {w' : PageWorld P O} {m : P} {pg : Page O}

/-- **A step that changes one page**: the queues and the counters follow. -/
structure Follow (σ : Slack P) (w w' : PageWorld P O) (m : P) (pg : Page O) : Prop where
  page : w'.page = update w.page m pg
  free : Follows w.queueFree m (w.page m).onFree pg.onFree w'.queueFree
  zone : Follows w.zone m (w.page m).onZone pg.onZone w'.zone
  active : Follows w.queueActive m (w.page m).active pg.active w'.queueActive
  inactive : Follows w.queueInactive m (w.page m).inactive pg.inactive w'.queueInactive
  limbo : Follows w.queueLimbo m (σ.lim m (w.page m)) (σ.lim m pg) w'.queueLimbo
  freeCount : w'.freeCount = w.freeCount - ind (w.page m).onFree + ind pg.onFree
  activeCount : w'.activeCount = w.activeCount - ind (w.page m).activeReal + ind pg.activeReal
  inactiveCount : w'.inactiveCount =
    w.inactiveCount - ind (w.page m).inactiveReal + ind pg.inactiveReal
  limboCount : w'.limboCount = w.limboCount - ind (σ.lim m (w.page m)) + ind (σ.lim m pg)
  limboRealCount : w'.limboRealCount = w.limboRealCount -
    ind (σ.lim m (w.page m) && !(w.page m).fictitious) + ind (σ.lim m pg && !pg.fictitious)
  gobbleCount : w'.gobbleCount = w.gobbleCount - ind (w.page m).gobbled + ind pg.gobbled
  wireCount : w'.wireCount = w.wireCount - ind (w.page m).wiredReal + ind pg.wiredReal

section

omit [DecidableEq O]

@[simp] theorem set_page_self (w : PageWorld P O) (m : P) (pg : Page O) :
    (w.set m pg).page m = pg := update_self ..

theorem keep (n x : ℤ) : n = n - x + x := by omega

theorem Follow.refl : Follow σ w w m (w.page m) :=
  ⟨(Function.update_eq_self ..).symm, .same _, .same _, .same _, .same _, .same _, keep _ _, keep _ _,
    keep _ _, keep _ _, keep _ _, keep _ _, keep _ _⟩

/-- A page stays well formed when flags are cleared. -/
theorem Page.Ok.clear {lim : Bool} (hok : pg.Ok lim) {active inactive gobbled : Bool} {n : ℕ}
    (ha : pg.active = false → active = false) (hi : pg.inactive = false → inactive = false)
    (hg : pg.gobbled = false → gobbled = false) (hn : pg.wireCount = 0 → n = 0) :
    Page.Ok { pg with active, inactive, gobbled, wireCount := n } lim := by
  obtain ⟨hfree, hlimbo, hactive, hinactive, hgobbled, htabled⟩ := hok
  refine ⟨fun hc => ?_, fun hc => ?_, ?_, ?_, ?_, htabled⟩
  · obtain ⟨h1, h2, h3, h4, h5, hrest⟩ := hfree hc
    exact ⟨ha h1, hi h2, h3, hg h4, hn h5, hrest⟩
  · obtain ⟨h1, h2, h3, h4, hrest⟩ := hlimbo hc
    exact ⟨ha h1, hi h2, hg h3, hn h4, hrest⟩
  all_goals grind

variable (h : Follow σ w w' m pg)

include h

theorem Follow.page_self : w'.page m = pg := by
  rw [h.page, update_self]

theorem Follow.page_ne {p : P} (hp : p ≠ m) : w'.page p = w.page p := by
  rw [h.page, update_of_ne hp]

theorem Follow.lists {l l' : List P} {k : P → Page O → Bool}
    (hl : Lists l fun p => k p (w.page p)) (hf : Follows l m (k m (w.page m)) (k m pg) l') :
    Lists l' fun p => k p (w'.page p) := by
  refine hl.follows (fun p hp => by rw [h.page_ne hp]) ?_
  rw [h.page_self]
  exact hf

theorem Follow.tally [Fintype P] (k : P → Page O → Bool) : (tally fun p => k p (w'.page p)) =
      (Census.tally fun p => k p (w.page p)) - ind (k m (w.page m)) + ind (k m pg) := by
  have hchange : (Census.tally fun p => k p (w'.page p)) =
      (Census.tally fun p => k p (w.page p)) - ind (k m (w.page m)) + ind (k m (w'.page m)) :=
    tally_change fun p hp => by rw [h.page_ne hp]
  rw [hchange, h.page_self]

theorem Follow.queues (hq : Queues σ w) : Queues σ w' where
  free := h.lists (k := fun _ pg => pg.onFree) hq.free h.free
  zone := h.lists (k := fun _ pg => pg.onZone) hq.zone h.zone
  active := h.lists (k := fun _ pg => pg.active) hq.active h.active
  inactive := h.lists (k := fun _ pg => pg.inactive) hq.inactive h.inactive
  limbo := h.lists (k := σ.lim) hq.limbo h.limbo

theorem Follow.counts [Fintype P] (hc : Counts σ w) : Counts σ w' where
  free := by rw [h.tally fun _ pg => pg.onFree, ← hc.free, h.freeCount]
  active := by rw [h.tally fun _ pg => pg.activeReal, ← hc.active, h.activeCount]
  inactive := by rw [h.tally fun _ pg => pg.inactiveReal, ← hc.inactive, h.inactiveCount]
  limbo := by rw [h.tally σ.lim, ← hc.limbo, h.limboCount]
  limboReal := by
    rw [h.tally fun p pg => σ.lim p pg && !pg.fictitious, h.limboRealCount, hc.limboReal]
    omega
  gobble := by rw [h.tally fun _ pg => pg.gobbled, ← hc.gobble, h.gobbleCount]
  wire := by rw [h.tally fun _ pg => pg.wiredReal, ← hc.wire, h.wireCount]

end

/-- The table stays as it is. -/
structure SameTable (w w' : PageWorld P O) (m : P) (pg : Page O) : Prop where
  buckets : w'.buckets = w.buckets
  memq : w'.memq = w.memq
  count : w'.residentPageCount = w.residentPageCount
  tabled : pg.tabled = (w.page m).tabled
  key : pg.tabled = true → pg.object = (w.page m).object ∧ pg.offset = (w.page m).offset

theorem SameTable.table [Fintype P] (hs : SameTable w w' m pg)
    (hpage : w'.page = update w.page m pg) (ht : Table c w) : Table c w' := by
  have hkey : ∀ p, (w'.page p).tabled = (w.page p).tabled ∧
      ((w'.page p).tabled = true → (w'.page p).object = (w.page p).object ∧
        (w'.page p).offset = (w.page p).offset) := by
    intro p
    rw [hpage]
    by_cases hp : p = m
    · subst hp
      rw [update_self]
      exact ⟨hs.tabled, hs.key⟩
    · rw [update_of_ne hp]
      exact ⟨rfl, fun _ => ⟨rfl, rfl⟩⟩
  have hbucket : ∀ b p, (w'.page p).inBucket c b = (w.page p).inBucket c b := by
    intro b p
    unfold Page.inBucket
    cases ht : (w'.page p).tabled with
    | false => rw [← (hkey p).1, ht, Bool.false_and, Bool.false_and]
    | true => rw [← (hkey p).1, ht, ((hkey p).2 ht).1, ((hkey p).2 ht).2]
  have hobject : ∀ o p, (w'.page p).inObject o = (w.page p).inObject o := by
    intro o p
    unfold Page.inObject
    cases ht : (w'.page p).tabled with
    | false => rw [← (hkey p).1, ht, Bool.false_and, Bool.false_and]
    | true => rw [← (hkey p).1, ht, ((hkey p).2 ht).1]
  refine ⟨fun b => ?_, fun o => ?_, fun o => ?_, fun p q hp hq ho hf => ?_⟩
  · rw [hs.buckets]
    exact (ht.bucket b).congr (hbucket b)
  · rw [hs.memq]
    exact (ht.memq o).congr (hobject o)
  · rw [hs.count, ht.count o]
    exact congrArg tally (funext fun p => (hobject o p).symm)
  · rw [((hkey p).2 hp).1, ((hkey q).2 hq).1] at ho
    rw [((hkey p).2 hp).2, ((hkey q).2 hq).2] at hf
    rw [(hkey p).1] at hp
    rw [(hkey q).1] at hq
    exact ht.unique p q hp hq ho hf

theorem RealFirst.same [Fintype P] (h : PageInv σ c w) (hf : Follow σ w w' m pg)
    (hqueue : w'.queueLimbo = w.queueLimbo)
    (hfict : σ.lim m (w.page m) = true → pg.fictitious = (w.page m).fictitious) :
    RealFirst w' := by
  have hsame : ∀ p ∈ w.queueLimbo, (w'.page p).fictitious = (w.page p).fictitious := by
    intro p hp
    by_cases hpm : p = m
    · subst hpm
      rw [hf.page_self]
      exact hfict ((h.queues.limbo.mem p).mp hp)
    · rw [hf.page_ne hpm]
  unfold RealFirst
  rw [hqueue]
  refine h.realFirst.imp_of_mem fun ha hb hab => ?_
  rw [hsame _ ha, hsame _ hb]
  exact hab

omit [DecidableEq O] in
theorem Follow.addr (hf : Follow σ w w' m pg)
    (ha : ∀ p q, (w.page p).isReal = true → (w.page q).isReal = true →
      (w.page p).physAddr = (w.page q).physAddr → p = q)
    (hreal : pg.isReal = (w.page m).isReal) (haddr : pg.physAddr = (w.page m).physAddr) (p q : P) :
    (w'.page p).isReal = true → (w'.page q).isReal = true →
      (w'.page p).physAddr = (w'.page q).physAddr → p = q := by
  have hsame : ∀ p, (w'.page p).isReal = (w.page p).isReal ∧
      (w'.page p).physAddr = (w.page p).physAddr := by
    intro p
    by_cases hp : p = m
    · rw [hp, hf.page_self]
      exact ⟨hreal, haddr⟩
    · rw [hf.page_ne hp]
      exact ⟨rfl, rfl⟩
  rw [(hsame p).1, (hsame q).1, (hsame p).2, (hsame q).2]
  exact ha p q

/-- **The invariant after a step** that leaves the table as it is; a page that becomes real gets
an address of its own. -/
theorem PageInv.changeAddr [Fintype P] (h : PageInv σ c w) (hf : Follow σ w w' m pg)
    (hok : pg.Ok (σ.lim m pg)) (ht : SameTable w w' m pg)
    (haddr : pg.isReal = true → ∀ q, q ≠ m → (w.page q).isReal = true →
      (w.page q).physAddr ≠ pg.physAddr)
    (hfirst : RealFirst w') : PageInv σ c w' := by
  refine ⟨fun p => ?_, hf.queues h.queues, hf.counts h.counts, ht.table hf.page h.table,
    fun p q hp hq hpq => ?_, hfirst⟩
  · by_cases hpm : p = m
    · subst hpm
      rw [hf.page_self]
      exact hok
    · rw [hf.page_ne hpm]
      exact h.ok p
  · by_cases hpm : p = m
    · by_cases hqm : q = m
      · rw [hpm, hqm]
      · rw [hf.page_ne hqm] at hq hpq
        rw [hpm, hf.page_self] at hp hpq
        exact absurd hpq.symm (haddr hp q hqm hq)
    · by_cases hqm : q = m
      · rw [hf.page_ne hpm] at hp hpq
        rw [hqm, hf.page_self] at hq hpq
        exact absurd hpq (haddr hq p hpm hp)
      · rw [hf.page_ne hpm] at hp hpq
        rw [hf.page_ne hqm] at hq hpq
        exact h.addr p q hp hq hpq

theorem PageInv.change [Fintype P] (h : PageInv σ c w) (hf : Follow σ w w' m pg)
    (hok : pg.Ok (σ.lim m pg)) (ht : SameTable w w' m pg)
    (haddr : pg.isReal = true → (w.page m).isReal = true ∧ pg.physAddr = (w.page m).physAddr)
    (hfirst : RealFirst w') : PageInv σ c w' := by
  refine h.changeAddr hf hok ht (fun hr q hqm hq hpq => ?_) hfirst
  obtain ⟨hr', ha⟩ := haddr hr
  exact hqm (h.addr q m hq hr' (hpq.trans ha))

theorem PageInv.changeFlags [Fintype P] (h : PageInv σ c w) (hf : Follow σ w w' m pg)
    (hok : pg.Ok (σ.lim m pg))
    (hsame : w' = { w' with
        buckets := w.buckets, memq := w.memq, residentPageCount := w.residentPageCount,
        queueLimbo := w.queueLimbo } ∧ pg = { w.page m with
        free := pg.free, active := pg.active, inactive := pg.inactive, reference := pg.reference,
        gobbled := pg.gobbled, wireCount := pg.wireCount }) :
    PageInv σ c w' := by
  obtain ⟨hw, hpg⟩ := hsame
  refine h.change hf hok ⟨congrArg (·.buckets) hw, congrArg (·.memq) hw,
    congrArg (·.residentPageCount) hw, ?_, fun _ => ?_⟩ (fun hr => ?_)
    (RealFirst.same h hf (congrArg (·.queueLimbo) hw) fun _ => ?_)
  · rw [hpg]
  · rw [hpg]
    exact ⟨rfl, rfl⟩
  · rw [hpg] at hr ⊢
    exact ⟨hr, rfl⟩
  · rw [hpg]

variable [Fintype P]

section

variable (h : PageInv σ c w)
include h

theorem PageInv.touch (m : P) (pg : Page O)
    (hflags : pg.free = (w.page m).free ∧ pg.active = (w.page m).active ∧
      pg.inactive = (w.page m).inactive ∧ pg.limbo = (w.page m).limbo ∧
      pg.gobbled = (w.page m).gobbled ∧ pg.wireCount = (w.page m).wireCount ∧
      pg.fictitious = (w.page m).fictitious ∧ pg.isPrivate = (w.page m).isPrivate ∧
      pg.physAddr = (w.page m).physAddr)
    (htabled : pg.tabled = (w.page m).tabled)
    (hkey : pg.tabled = true → pg.object = (w.page m).object ∧ pg.offset = (w.page m).offset) :
    PageInv σ c (w.set m pg) := by
  obtain ⟨h1, h2, h3, h4, h5, h6, h7, h8, h9⟩ := hflags
  have hlim : σ.lim m pg = σ.lim m (w.page m) := by rw [Slack.lim, Slack.lim, h4]
  have hreal : pg.isReal = (w.page m).isReal := by rw [Page.isReal, Page.isReal, h7, h8]
  have hf : Follow σ w (w.set m pg) m pg := by
    refine ⟨rfl, ?_, ?_, ?_, ?_, ?_, ?_, ?_, ?_, ?_, ?_, ?_, ?_⟩ <;>
      simp only [Page.onFree, Page.onZone, Page.activeReal, Page.inactiveReal, Page.wiredReal,
        Page.isWired, hreal, hlim, h1, h2, h3, h5, h6, h7]
    case refine_1 => exact .same _
    case refine_2 => exact .same _
    case refine_3 => exact .same _
    case refine_4 => exact .same _
    case refine_5 => exact .same _
    all_goals exact keep _ _
  have hok := h.ok m
  refine h.change hf ⟨?_, ?_, ?_, ?_, ?_, fun ht => ?_⟩ ⟨rfl, rfl, rfl, htabled, hkey⟩ ?_ ?_
  · rw [h1, h2, h3, h4, h5, h6, htabled, h8]
    exact hok.free
  · rw [hlim, h2, h3, h5, h6, htabled]
    exact hok.limbo
  · rw [h2, h3, h6]
    exact hok.active
  · rw [h3, h6]
    exact hok.inactive
  · rw [h5, h6]
    exact hok.gobbled
  · rw [(hkey ht).1]
    exact hok.tabled (htabled ▸ ht)
  · rw [hreal, h9]
    exact fun hr => ⟨hr, rfl⟩
  · exact RealFirst.same h hf rfl fun _ => h7

theorem PageInv.enterPage {o : O} {f : ℕ}
    (hfree : (w.page m).free = false) (hlim : σ.lim m (w.page m) = false)
    (htabled : (w.page m).tabled = false)
    (hvacant : ∀ p, (w.page p).tabled = true → (w.page p).object = some o → (w.page p).offset ≠ f) :
    PageInv σ c (enterPage c w m o f) := by
  have hob : ∀ o', Page.inObject o' { w.page m with
      object := some o, offset := f, tabled := true } = decide (o = o') := by
    intro o'
    simp [Page.inObject]
  have hoo : ∀ o', (w.page m).inObject o' = false := fun o' => by
    rw [Page.inObject, htabled, Bool.false_and]
  have hf : Follow σ w (Resident.enterPage c w m o f) m
      { w.page m with object := some o, offset := f, tabled := true } :=
    { Follow.refl with page := rfl }
  have hok := h.ok m
  refine ⟨fun p => ?_, hf.queues h.queues, hf.counts h.counts, ⟨fun b => ?_, fun o' => ?_,
    fun o' => ?_, fun p q hp hq ho hpq => ?_⟩, fun p q hp hq hpq => ?_,
    RealFirst.same h hf rfl fun _ => rfl⟩
  · by_cases hp : p = m
    · subst hp
      rw [hf.page_self]
      exact ⟨of_eq_false hfree, of_eq_false hlim, hok.active, hok.inactive, hok.gobbled, fun _ => rfl⟩
    · rw [hf.page_ne hp]
      exact h.ok p
  · refine hf.lists (k := fun _ pg => pg.inBucket c b) (h.table.bucket b) ?_
    have hold : (w.page m).inBucket c b = false := by rw [Page.inBucket, htabled, Bool.false_and]
    have hnew : Page.inBucket c b { w.page m with object := some o, offset := f, tabled := true } =
        decide (c.hash o f = b) := by simp [Page.inBucket]
    show Follows (w.buckets b) m _ _ (update w.buckets _ _ b)
    rw [hold, hnew]
    by_cases hb : c.hash o f = b
    · subst hb
      rw [update_self, decide_eq_true rfl]
      exact .first
    · rw [update_of_ne (Ne.symm hb), decide_eq_false hb]
      exact .same _
  · refine hf.lists (k := fun _ pg => pg.inObject o') (h.table.memq o') ?_
    show Follows (w.memq o') m _ _ (update w.memq _ _ o')
    rw [hoo, hob]
    by_cases ho : o = o'
    · subst ho
      rw [update_self, decide_eq_true rfl]
      exact .last
    · rw [update_of_ne (Ne.symm ho), decide_eq_false ho]
      exact .same _
  · rw [hf.tally fun _ pg => pg.inObject o', hoo, hob, ← h.table.count]
    show update w.residentPageCount _ _ o' = _
    by_cases ho : o = o'
    · subst ho
      simp
    · rw [update_of_ne (Ne.symm ho), decide_eq_false ho]
      simp
  · by_cases hpm : p = m
    · by_cases hqm : q = m
      · rw [hpm, hqm]
      · rw [hf.page_ne hqm] at hq ho hpq
        rw [hpm, hf.page_self] at ho hpq
        exact absurd hpq.symm (hvacant q hq ho.symm)
    · by_cases hqm : q = m
      · rw [hf.page_ne hpm] at hp ho hpq
        rw [hqm, hf.page_self] at ho hpq
        exact absurd hpq (hvacant p hp ho)
      · rw [hf.page_ne hpm] at hp ho hpq
        rw [hf.page_ne hqm] at hq ho hpq
        exact h.table.unique p q hp hq ho hpq
  · exact hf.addr h.addr rfl rfl p q hp hq hpq

theorem PageInv.unhook {o : O} (htabled : (w.page m).tabled = true)
    (hobject : (w.page m).object = some o) : PageInv σ c (unhook c w m o) := by
  have hf : Follow σ w (Resident.unhook c w m o) m { w.page m with tabled := false } :=
    { Follow.refl with page := rfl }
  have hok := h.ok m
  have hob : ∀ o', (w.page m).inObject o' = decide (o = o') := fun o' => by
    simp [Page.inObject, htabled, hobject]
  have htab : ∀ p, ((Resident.unhook c w m o).page p).tabled = true → p ≠ m := by
    rintro p hp rfl
    rw [hf.page_self] at hp
    cases hp
  refine ⟨fun p => ?_, hf.queues h.queues, hf.counts h.counts, ⟨fun b => ?_, fun o' => ?_,
    fun o' => ?_, fun p q hp hq ho hpq => ?_⟩, fun p q hp hq hpq => ?_,
    RealFirst.same h hf rfl fun _ => rfl⟩
  · by_cases hp : p = m
    · subst hp
      rw [hf.page_self]
      refine ⟨fun hc => ?_, fun hc => ?_, hok.active, hok.inactive, hok.gobbled, of_eq_false rfl⟩
      · obtain ⟨h1, h2, h3, h4, h5, -, h7⟩ := hok.free hc
        exact ⟨h1, h2, h3, h4, h5, rfl, h7⟩
      · obtain ⟨h1, h2, h3, h4, -⟩ := hok.limbo hc
        exact ⟨h1, h2, h3, h4, rfl⟩
    · rw [hf.page_ne hp]
      exact h.ok p
  · refine hf.lists (k := fun _ pg => pg.inBucket c b) (h.table.bucket b) ?_
    have hold : (w.page m).inBucket c b = decide (c.hash o (w.page m).offset = b) := by
      simp [Page.inBucket, htabled, hobject]
    show Follows (w.buckets b) m _ false (update w.buckets _ _ b)
    rw [hold]
    by_cases hb : c.hash o (w.page m).offset = b
    · subst hb
      rw [update_self, decide_eq_true rfl]
      exact .leave
    · rw [update_of_ne (Ne.symm hb), decide_eq_false hb]
      exact .same _
  · refine hf.lists (k := fun _ pg => pg.inObject o') (h.table.memq o') ?_
    show Follows (w.memq o') m _ false (update w.memq _ _ o')
    rw [hob]
    by_cases ho : o = o'
    · subst ho
      rw [update_self, decide_eq_true rfl]
      exact .leave
    · rw [update_of_ne (Ne.symm ho), decide_eq_false ho]
      exact .same _
  · rw [hf.tally fun _ pg => pg.inObject o', hob, ← h.table.count]
    show update w.residentPageCount _ _ o' = _ + ind false
    by_cases ho : o = o'
    · subst ho
      simp
    · rw [update_of_ne (Ne.symm ho), decide_eq_false ho]
      simp
  · have hpm := htab p hp
    have hqm := htab q hq
    rw [hf.page_ne hpm] at hp ho hpq
    rw [hf.page_ne hqm] at hq ho hpq
    exact h.table.unique p q hp hq ho hpq
  · exact hf.addr h.addr rfl rfl p q hp hq hpq

theorem PageInv.vmPageQueuesRemove (hs : vmPageQueuesRemove w m = some w') :
    PageInv σ c w' ∧ w'.page m = { w.page m with active := false, inactive := false } := by
  have hok := h.ok m
  obtain ⟨-, hs⟩ := Option.ite_none_left_eq_some.mp hs
  split at hs
  · next hactive =>
    have hw := some.inj hs
    obtain ⟨hinactive, hwire⟩ := hok.active hactive
    have hf : Follow σ w w' m { w.page m with active := false } := by
      subst hw
      refine { Follow.refl with page := rfl, active := ?_, activeCount := ?_ }
      · rw [hactive]
        exact .leave
      · cases hfict : (w.page m).fictitious <;> simp [Page.activeReal, hactive, hfict]
    refine ⟨h.changeFlags hf (hok.clear (fun _ => rfl) id id id) (by subst hw; exact ⟨rfl, rfl⟩), ?_⟩
    rw [hf.page_self, ← hinactive]
  split at hs
  · next hactive hinactive =>
    rw [Bool.not_eq_true] at hactive
    have hw := some.inj hs
    have hf : Follow σ w w' m { w.page m with inactive := false } := by
      subst hw
      refine { Follow.refl with page := rfl, inactive := ?_, inactiveCount := ?_ }
      · rw [hinactive]
        exact .leave
      · cases hfict : (w.page m).fictitious <;> simp [Page.inactiveReal, hinactive, hfict]
    refine ⟨h.changeFlags hf (hok.clear id (fun _ => rfl) id id) (by subst hw; exact ⟨rfl, rfl⟩), ?_⟩
    rw [hf.page_self, ← hactive]
  · next hactive hinactive =>
    rw [Bool.not_eq_true] at hactive hinactive
    cases hs
    refine ⟨h, ?_⟩
    cases hpg : w.page m
    simp_all

theorem PageInv.dropWiring (hs : dropWiring w m = some w') :
    PageInv σ c w' ∧ w'.page m = { w.page m with wireCount := 0, gobbled := false } := by
  have hok := h.ok m
  unfold Resident.dropWiring at hs
  dsimp only at hs
  split at hs
  · next hwire =>
    obtain ⟨hgobbled, hs⟩ := Option.ite_none_left_eq_some.mp hs
    rw [Bool.not_eq_true] at hgobbled
    have hw := some.inj hs
    have hf : Follow σ w w' m { w.page m with wireCount := 0 } := by
      subst hw
      refine { Follow.refl with page := rfl, wireCount := ?_ }
      cases hp : (w.page m).isPrivate <;> cases hfict : (w.page m).fictitious <;>
        simp [Page.wiredReal, Page.isReal, Page.isWired, hp, hfict, hgobbled, hwire]
    refine ⟨h.changeFlags hf (hok.clear id id id fun _ => rfl) (by subst hw; exact ⟨rfl, rfl⟩), ?_⟩
    rw [hf.page_self, ← hgobbled]
  · next hwire =>
    rw [not_not] at hwire
    split at hs
    · next hgobbled =>
      have hw := some.inj hs
      have hf : Follow σ w w' m { w.page m with gobbled := false } := by
        subst hw
        refine { Follow.refl with page := rfl, gobbleCount := ?_, wireCount := ?_ }
        · simp [hgobbled]
        · cases hp : (w.page m).isPrivate <;> cases hfict : (w.page m).fictitious <;>
            simp [Page.wiredReal, Page.isReal, Page.isWired, hp, hfict, hgobbled, hwire]
      refine ⟨h.changeFlags hf (hok.clear id id (fun _ => rfl) id) (by subst hw; exact ⟨rfl, rfl⟩), ?_⟩
      rw [hf.page_self, ← hwire]
    · next hgobbled =>
      rw [Bool.not_eq_true] at hgobbled
      cases hs
      refine ⟨h, ?_⟩
      rw [← hwire, ← hgobbled]

/-- A page that is in no queue, not in the table and not wired. -/
structure Page.Idle (pg : Page O) : Prop where
  free : pg.free = false
  active : pg.active = false
  inactive : pg.inactive = false
  gobbled : pg.gobbled = false
  wireCount : pg.wireCount = 0
  tabled : pg.tabled = false

theorem PageInv.setIdleAddr (hold : (w.page m).Idle)
    (hlim : σ.lim m (w.page m) = false) (hnew : pg.Idle) (hlim' : σ.lim m pg = false)
    (haddr : pg.isReal = true → ∀ q, q ≠ m → (w.page q).isReal = true →
      (w.page q).physAddr ≠ pg.physAddr) :
    PageInv σ c (w.set m pg) := by
  obtain ⟨h1, h2, h3, h4, h5, h6⟩ := hold
  obtain ⟨p1, p2, p3, p4, p5, p6⟩ := hnew
  have hf : Follow σ w (w.set m pg) m pg := by
    refine ⟨rfl, ?_, ?_, ?_, ?_, ?_, ?_, ?_, ?_, ?_, ?_, ?_, ?_⟩ <;>
      simp only [Page.onFree, Page.onZone, Page.activeReal, Page.inactiveReal, Page.wiredReal,
        Page.isWired, h1, h2, h3, h4, h5, hlim, p1, p2, p3, p4, p5, hlim', Bool.false_and, ne_eq,
        not_true_eq_false, decide_false, Bool.or_false, Bool.and_false]
    case refine_1 => exact .same _
    case refine_2 => exact .same _
    case refine_3 => exact .same _
    case refine_4 => exact .same _
    case refine_5 => exact .same _
    all_goals exact keep _ _
  refine h.changeAddr hf ⟨?_, ?_, ?_, ?_, ?_, ?_⟩ ⟨rfl, rfl, rfl, by rw [p6, h6], ?_⟩ haddr
    (RealFirst.same h hf rfl ?_)
  · simp [p1]
  · simp [hlim']
  · simp [p2]
  · simp [p3]
  · simp [p4]
  · simp [p6]
  · simp [p6]
  · simp [hlim]

theorem PageInv.setIdle (hold : (w.page m).Idle)
    (hlim : σ.lim m (w.page m) = false) (hnew : pg.Idle) (hlim' : σ.lim m pg = false)
    (haddr : pg.isReal = true → (w.page m).isReal = true ∧ pg.physAddr = (w.page m).physAddr) :
    PageInv σ c (w.set m pg) := by
  refine h.setIdleAddr hold hlim hnew hlim' fun hr q hqm hq hpq => ?_
  obtain ⟨hr', ha⟩ := haddr hr
  exact hqm (h.addr q m hq hr' (hpq.trans ha))

/-- A page is put back on a list of free pages. -/
theorem PageInv.freed (hi : (w.page m).Idle) (hlimbo : (w.page m).limbo = false)
    (hpriv : (w.page m).isPrivate = false)
    (hf : Follow σ w w' m { w.page m with free := true })
    (hsame : w' = { w' with
      buckets := w.buckets, memq := w.memq, residentPageCount := w.residentPageCount,
      queueLimbo := w.queueLimbo }) : PageInv σ c w' := by
  obtain ⟨-, h2, h3, h4, h5, h6⟩ := hi
  exact h.changeFlags hf ⟨fun _ => ⟨h2, h3, hlimbo, h4, h5, h6, hpriv⟩,
    fun _ => ⟨h2, h3, h4, h5, h6⟩, fun _ => ⟨h3, h5⟩, fun _ => h5, fun _ => h5, (h.ok m).tabled⟩
    ⟨hsame, rfl⟩

theorem PageInv.vmPageReleaseFictitious (hi : (w.page m).Idle)
    (hlimbo : (w.page m).limbo = false) (hpriv : (w.page m).isPrivate = false)
    (hs : vmPageReleaseFictitious w m = some w') : PageInv σ c w' := by
  obtain ⟨hcond, hs⟩ := Option.ite_none_left_eq_some.mp hs
  have hfict : (w.page m).fictitious = true := by
    by_contra hc
    rw [Bool.not_eq_true] at hc
    exact hcond (.inr (.inr (.inl hc)))
  cases hs
  refine h.freed hi hlimbo hpriv
    { Follow.refl with page := rfl, free := ?_, zone := ?_, freeCount := ?_ } rfl
  · simp only [Page.onFree, hfict, Bool.not_true, Bool.and_false]
    exact .same _
  · simp only [Page.onZone, hi.free, hfict, Bool.false_and, Bool.and_self]
    exact .first
  · simp only [Page.onFree, hfict, Bool.not_true, Bool.and_false]
    exact keep _ _

theorem PageInv.vmPageRelease (hi : (w.page m).Idle)
    (hlimbo : (w.page m).limbo = false) (hs : vmPageRelease w m = some w') : PageInv σ c w' := by
  obtain ⟨hcond, hs⟩ := Option.ite_none_left_eq_some.mp hs
  rw [not_or, not_or, Bool.not_eq_true, Bool.not_eq_true] at hcond
  obtain ⟨hpriv, hfict, -⟩ := hcond
  cases hs
  refine h.freed hi hlimbo hpriv
    { Follow.refl with page := rfl, free := ?_, zone := ?_, freeCount := ?_ } rfl
  · simp only [Page.onFree, hi.free, hfict, Bool.false_and, Bool.not_false, Bool.and_self]
    exact .first
  · simp only [Page.onZone, hfict, Bool.and_false]
    exact .same _
  · simp [Page.onFree, hi.free, hfict]

theorem PageInv.freeClean (hi : (w.page m).Idle)
    (hlimbo : (w.page m).limbo = false) (hs : freeClean w m = some w') : PageInv σ c w' := by
  have hlim : ∀ pg : Page O, pg.limbo = false → σ.lim m pg = false := fun pg hl => by
    rw [Slack.lim, hl, Bool.false_and]
  obtain ⟨-, hs⟩ := Option.ite_none_left_eq_some.mp hs
  generalize hpg : (if (w.page m).isPrivate = true then _ else _ : Page O) = pg at hs
  have hcase : pg.Idle ∧ pg.limbo = false ∧ pg.isPrivate = false ∧ (pg.isReal = true →
      (w.page m).isReal = true ∧ pg.physAddr = (w.page m).physAddr) := by
    split at hpg <;> subst hpg
    · refine ⟨{ hi with }, hlimbo, rfl,
        fun hr => ?_⟩
      simp [Page.isReal] at hr
    · next hpriv =>
      exact ⟨{ hi with }, hlimbo,
        by simpa using hpriv, fun hr => ⟨hr, rfl⟩⟩
  obtain ⟨hidle, hlb, hpriv, haddr⟩ := hcase
  split at hs
  · refine (h.setIdle hi (hlim _ hlimbo) hidle (hlim _ hlb) haddr).vmPageReleaseFictitious ?_ ?_ ?_
      hs <;> rw [set_page_self] <;> assumption
  next hfict =>
  have hinit : (vmPageInit O pg.physAddr).Idle := ⟨rfl, rfl, rfl, rfl, rfl, rfl⟩
  refine (h.setIdle hi (hlim _ hlimbo) hinit (hlim _ rfl) fun _ => ?_).vmPageRelease ?_ ?_ hs
  · exact haddr (by simpa [Page.isReal, hpriv] using hfict)
  · rw [set_page_self]
    exact hinit
  · rw [set_page_self]
    rfl

theorem PageInv.vmPageRemove (hs : vmPageRemove c w m = some w') :
    PageInv σ c w' ∧ w'.page m = { w.page m with tabled := false, object := none, offset := 0 } ∧
      (w.page m).tabled = true ∧ ∀ p, p ≠ m → w'.page p = w.page p := by
  obtain ⟨hcond, hs⟩ := Option.ite_none_left_eq_some.mp hs
  rw [not_or, Bool.not_eq_false] at hcond
  split at hs
  · cases hs
  next o ho =>
  have hw := some.inj hs
  have hpage : (Resident.unhook c w m o).page m = { w.page m with tabled := false } :=
    update_self ..
  have h1 := (h.unhook hcond.1 ho).touch m
    { (Resident.unhook c w m o).page m with object := none, offset := 0 }
    ⟨rfl, rfl, rfl, rfl, rfl, rfl, rfl, rfl, rfl⟩ rfl
    (fun ht => by rw [hpage] at ht; cases ht)
  rw [hw] at h1
  refine ⟨h1, ?_, hcond.1, fun p hp => ?_⟩
  · rw [← hw, set_page_self, hpage]
  · rw [← hw]
    show update (update w.page m _) m _ p = w.page p
    rw [update_of_ne hp, update_of_ne hp]

theorem PageInv.vmPageReleaseLimbo (hpend : σ.pend = some m)
    (hi : (w.page m).Idle) (hs : vmPageReleaseLimbo w m = some w') :
    PageInv ⟨none, σ.real⟩ c w' := by
  have hlim : ∀ p, p ≠ m → Slack.lim ⟨none, σ.real⟩ p (w.page p) = σ.lim p (w.page p) := by
    intro p hp
    unfold Slack.lim
    rw [hpend]
    simp [Ne.symm hp]
  have hold : σ.lim m (w.page m) = false := by simp [Slack.lim, hpend]
  have hlimbo : (w.page m).limbo = true := by
    by_contra hc
    rw [Bool.not_eq_true] at hc
    simp [Resident.vmPageReleaseLimbo, hc] at hs
  have hnew : Slack.lim ⟨none, σ.real⟩ m (w.page m) = true := by simp [Slack.lim, hlimbo]
  have hok : ∀ p, (w.page p).Ok (Slack.lim ⟨none, σ.real⟩ p (w.page p)) := by
    intro p
    by_cases hp : p = m
    · subst hp
      have hop := h.ok p
      exact ⟨hop.free, fun _ => ⟨hi.active, hi.inactive, hi.gobbled, hi.wireCount, hi.tabled⟩,
        hop.active, hop.inactive, hop.gobbled, hop.tabled⟩
    · rw [hlim p hp]
      exact h.ok p
  have htally : (tally fun p => Slack.lim ⟨none, σ.real⟩ p (w.page p)) = w.limboCount + 1 := by
    rw [tally_change hlim, hold, hnew, ← h.counts.limbo]
    simp
  have htallyReal : (tally fun p => Slack.lim ⟨none, σ.real⟩ p (w.page p) &&
      !(w.page p).fictitious) + σ.real = w.limboRealCount + ind (!(w.page m).fictitious) := by
    have hchange : (tally fun p => Slack.lim ⟨none, σ.real⟩ p (w.page p) &&
        !(w.page p).fictitious) = (tally fun p => σ.lim p (w.page p) && !(w.page p).fictitious) -
          ind (σ.lim m (w.page m) && !(w.page m).fictitious) +
          ind (Slack.lim ⟨none, σ.real⟩ m (w.page m) && !(w.page m).fictitious) :=
      tally_change fun p hp => by rw [hlim p hp]
    rw [hchange, hold, hnew, h.counts.limboReal]
    simp only [Bool.false_and, ind_false, Bool.true_and]
    omega
  have hq := h.queues
  have hc := h.counts
  unfold Resident.vmPageReleaseLimbo at hs
  dsimp only at hs
  rw [if_neg (by simp [hlimbo])] at hs
  split at hs
  · next hfict =>
    cases hs
    refine ⟨hok, ⟨hq.free, hq.zone, hq.active, hq.inactive, ?_⟩,
      ⟨hc.free, hc.active, hc.inactive, htally.symm, ?_, hc.gobble, hc.wire⟩,
      { h.table with }, h.addr, ?_⟩
    · exact (hq.limbo.cons hlim hold hnew).perm (List.perm_append_singleton m _)
    · rw [htallyReal, hfict]
      simp
    · refine List.pairwise_append.mpr ⟨h.realFirst, List.pairwise_singleton .., fun a _ b hb _ => ?_⟩
      rw [List.mem_singleton.mp hb]
      exact hfict
  · next hfict =>
    rw [Bool.not_eq_true] at hfict
    cases hs
    refine ⟨hok, ⟨hq.free, hq.zone, hq.active, hq.inactive, hq.limbo.cons hlim hold hnew⟩,
      ⟨hc.free, hc.active, hc.inactive, htally.symm, ?_, hc.gobble, hc.wire⟩,
      { h.table with }, h.addr, ?_⟩
    · rw [htallyReal, hfict]
      simp
    · refine List.pairwise_cons.mpr ⟨fun b _ hm => ?_, h.realFirst⟩
      rw [show (w.page m).fictitious = true from hm] at hfict
      cases hfict

/-- **A page is freed**: it goes back to the free list or to the zone, or into limbo when it has
the flag. -/
theorem PageInv.vmPageFree (hlimbo : (w.page m).limbo = true → σ.pend = some m)
    (hs : vmPageFree c w m = some w') :
    PageInv ⟨if (w.page m).limbo then none else σ.pend, σ.real⟩ c w' := by
  obtain ⟨hcond, hs⟩ := Option.ite_none_left_eq_some.mp hs
  rw [not_or, Bool.not_eq_true] at hcond
  obtain ⟨w1, hs1, hs⟩ := Option.bind_eq_some_iff.mp hs
  obtain ⟨w2, hs2, hs⟩ := Option.bind_eq_some_iff.mp hs
  obtain ⟨w3, hs3, hs⟩ := Option.bind_eq_some_iff.mp hs
  have h1 : PageInv σ c w1 ∧ (w1.page m).tabled = false ∧
      (w1.page m).free = (w.page m).free ∧ (w1.page m).limbo = (w.page m).limbo := by
    split at hs1
    · obtain ⟨hinv, hpage, -⟩ := h.vmPageRemove hs1
      rw [hpage]
      exact ⟨hinv, rfl, rfl, rfl⟩
    · next htabled =>
      cases hs1
      exact ⟨h, by simpa using htabled, rfl, rfl⟩
  obtain ⟨h1, htabled, hfree, hlb⟩ := h1
  obtain ⟨h2, hpage2⟩ := h1.vmPageQueuesRemove hs2
  obtain ⟨h3, hpage3⟩ := h2.dropWiring hs3
  have hi : (w3.page m).Idle := by
    rw [hpage3, hpage2]
    exact ⟨hfree.trans hcond.1, rfl, rfl, rfl, rfl, htabled⟩
  have hl : (w3.page m).limbo = (w.page m).limbo := by
    rw [hpage3, hpage2]
    exact hlb
  split at hs
  · next hl3 =>
    rw [hl] at hl3
    rw [if_pos hl3]
    obtain ⟨-, hs⟩ := Option.ite_none_left_eq_some.mp hs
    exact h3.vmPageReleaseLimbo (hlimbo hl3) hi hs
  next hl3 =>
  rw [Bool.not_eq_true] at hl3
  rw [← hl, hl3]
  exact h3.freeClean hi hl3 hs

end

end Osfmk.Resident

import Osfmk.Vm.ResidentInv

/-!
# The operations on resident pages

Each operation of `Osfmk.Vm.Resident` keeps the invariant of `Osfmk.Vm.ResidentInv`: those on one
page, the exchange of pages in limbo, and the allocation of contiguous pages.
-/

open Function (update update_of_ne update_self)
open List Option

namespace Osfmk.Resident

open Census

variable {P O : Type} {σ : Slack P} {c : Config O} {w w' : PageWorld P O} {m : P} {pg : Page O}

variable {vmPrivilege : Bool} {o : O} {r : Option P} {p : P} {f : ℕ}

theorem vmPageReleaseLimbo_page (hs : vmPageReleaseLimbo w m = some w') : w'.page = w.page := by
  obtain ⟨-, hs⟩ := ite_none_left_eq_some.mp hs
  split at hs <;> obtain rfl := some.inj hs <;> rfl

variable [DecidableEq P]

theorem vmPageQueuesRemove_frame (hs : vmPageQueuesRemove w m = some w') (hp : p ≠ m) :
    w'.page p = w.page p := by
  obtain ⟨-, hs⟩ := ite_none_left_eq_some.mp hs
  split at hs
  · cases hs
    exact update_of_ne hp ..
  split at hs
  · cases hs
    exact update_of_ne hp ..
  · cases hs
    rfl

theorem dropWiring_frame (hs : dropWiring w m = some w') (hp : p ≠ m) :
    w'.page p = w.page p := by
  unfold dropWiring at hs
  dsimp only at hs
  split at hs
  · obtain ⟨-, ⟨⟩⟩ := ite_none_left_eq_some.mp hs
    exact update_of_ne hp ..
  split at hs
  · cases hs
    exact update_of_ne hp ..
  · cases hs
    rfl

theorem vmPageReleaseFictitious_frame (hs : vmPageReleaseFictitious w m = some w')
    (hp : p ≠ m) : w'.page p = w.page p := by
  obtain ⟨-, ⟨⟩⟩ := ite_none_left_eq_some.mp hs
  exact update_of_ne hp ..

theorem vmPageRelease_frame (hs : vmPageRelease w m = some w') (hp : p ≠ m) :
    w'.page p = w.page p := by
  obtain ⟨-, ⟨⟩⟩ := ite_none_left_eq_some.mp hs
  exact update_of_ne hp ..

theorem freeClean_frame (hs : freeClean w m = some w') (hp : p ≠ m) :
    w'.page p = w.page p := by
  obtain ⟨-, hs⟩ := ite_none_left_eq_some.mp hs
  generalize (if (w.page m).isPrivate = true then _ else _ : Page O) = pg at hs
  split at hs
  · exact (vmPageReleaseFictitious_frame hs hp).trans (update_of_ne hp ..)
  · exact (vmPageRelease_frame hs hp).trans (update_of_ne hp ..)

theorem freeClean_untabled (ht : (w.page m).tabled = false) (hs : freeClean w m = some w') :
    (w'.page m).tabled = false := by
  obtain ⟨-, hs⟩ := ite_none_left_eq_some.mp hs
  generalize hpg : (if (w.page m).isPrivate = true then _ else _ : Page O) = pg at hs
  have hpt : pg.tabled = false := by
    split at hpg <;> subst hpg <;> exact ht
  split at hs
  · obtain ⟨-, ⟨⟩⟩ := ite_none_left_eq_some.mp hs
    rw [set_page_self, set_page_self]
    exact hpt
  obtain ⟨-, ⟨⟩⟩ := ite_none_left_eq_some.mp hs
  rw [set_page_self, set_page_self]
  rfl

variable [DecidableEq O] [Fintype P]

section

variable (h : PageInv σ c w)
include h

/-- A page is taken off a list of free pages. -/
theorem PageInv.taken (hfree : (w.page m).free = true)
    (hf : Follow σ w w' m { w.page m with free := false })
    (hsame : w' = { w' with
      buckets := w.buckets, memq := w.memq, residentPageCount := w.residentPageCount,
      queueLimbo := w.queueLimbo }) : PageInv σ c w' := by
  obtain ⟨h1, h2, h3, h4, h5, h6, h7⟩ := (h.ok m).free hfree
  exact h.changeFlags hf { h.ok m with
    free := of_eq_false rfl, limbo := fun _ => ⟨h1, h2, h4, h5, h6⟩ } ⟨hsame, rfl⟩

theorem PageInv.vmPageGrab
    (hs : vmPageGrab c w vmPrivilege = some (w', r)) :
    PageInv σ c w' ∧ ∀ m, r = some m →
      (w.page m).onFree = true ∧ w'.page = update w.page m { w.page m with free := false } := by
  unfold Resident.vmPageGrab at hs
  split at hs
  · cases hs
    exact ⟨h, nofun⟩
  split at hs
  · cases hs
  next mem queueFree hq =>
  cases hs
  have hfree : (w.page mem).onFree = true := (h.queues.free.mem mem).mp (by
    rw [hq]
    exact mem_cons_self)
  have hflags : (w.page mem).free = true ∧ (w.page mem).fictitious = false := by
    simpa [Page.onFree] using hfree
  refine ⟨h.taken hflags.1
    { Follow.refl with page := rfl, free := ?_, zone := ?_, freeCount := ?_ } rfl, fun m hm => ?_⟩
  · have := Follows.leave (l := w.queueFree) (m := mem)
    rw [hq, erase_cons_head] at this
    rw [hfree, hq]
    exact this
  · simp only [Page.onZone, hflags.2, Bool.and_false]
    exact .same _
  · rw [hfree]
    simp [Page.onFree]
  · cases hm
    exact ⟨hfree, rfl⟩

theorem PageInv.vmPageGrabFictitious
    (hs : vmPageGrabFictitious w = (w', r)) :
    PageInv σ c w' ∧ ∀ m, r = some m →
      (w.page m).onZone = true ∧ w'.page = update w.page m { w.page m with free := false } ∧
      w' = { w with page := w'.page, zone := w'.zone } := by
  unfold Resident.vmPageGrabFictitious at hs
  split at hs
  · cases hs
    exact ⟨h, by simp⟩
  next mem zone hq =>
  cases hs
  have hfree : (w.page mem).onZone = true := (h.queues.zone.mem mem).mp (by
    rw [hq]
    exact mem_cons_self)
  have hflags : (w.page mem).free = true ∧ (w.page mem).fictitious = true := by
    simpa [Page.onZone] using hfree
  refine ⟨h.taken hflags.1
    { Follow.refl with page := rfl, free := ?_, zone := ?_, freeCount := ?_ } rfl, fun m hm => ?_⟩
  · simp only [Page.onFree, hflags.2, Bool.not_true, Bool.and_false]
    exact .same _
  · have := Follows.leave (l := w.zone) (m := mem)
    rw [hq, erase_cons_head] at this
    rw [hfree, hq]
    exact this
  · simp only [Page.onFree, hflags.2, Bool.not_true, Bool.and_false]
    exact keep _ _
  · cases hm
    exact ⟨hfree, rfl, rfl⟩

theorem PageInv.idle_of_free (hfree : (w.page m).free = true) :
    Page.Idle { w.page m with free := false } ∧ (w.page m).limbo = false ∧
      (w.page m).isPrivate = false := by
  obtain ⟨h1, h2, h3, h4, h5, h6, h7⟩ := (h.ok m).free hfree
  exact ⟨⟨rfl, h1, h2, h4, h5, h6⟩, h3, h7⟩

theorem PageInv.takeMemory {realM : P} (hne : m ≠ realM)
    (hfree : (w.page m).free = false) (hfict : (w.page m).fictitious = true)
    (hlim : σ.lim m (w.page m) = false)
    (hwire : (w.page m).wireCount = 0) (hgobbled : (w.page m).gobbled = false)
    (hidle : (w.page realM).Idle) (hrlimbo : (w.page realM).limbo = false)
    (hreal : (w.page realM).isReal = true) : PageInv σ c (takeMemory w m realM) := by
  have hrlim : ∀ pg : Page O, pg.limbo = false → σ.lim realM pg = false := fun pg hl => by
    rw [Slack.lim, hl, Bool.false_and]
  -- the page that was grabbed becomes fictitious first
  have h1 : PageInv σ c (w.set realM { w.page realM with
      physAddr := vmPageFictitiousAddr, fictitious := true }) := by
    refine h.setIdle hidle (hrlim _ hrlimbo) { hidle with } (hrlim _ hrlimbo) fun hr => ?_
    simp [Page.isReal] at hr
  have hm : (w.set realM { w.page realM with
      physAddr := vmPageFictitiousAddr, fictitious := true }).page m = w.page m :=
    update_of_ne hne ..
  have hok := h.ok m
  have hf : Follow σ (w.set realM { w.page realM with
      physAddr := vmPageFictitiousAddr, fictitious := true }) (Resident.takeMemory w m realM) m
      { w.page m with physAddr := (w.page realM).physAddr, fictitious := false } := by
    have hr' : update w.page m { w.page m with
        physAddr := (w.page realM).physAddr, fictitious := false } realM = w.page realM :=
      update_of_ne hne.symm ..
    refine ⟨?_, ?_, ?_, ?_, ?_, ?_, ?_, ?_, ?_, ?_, ?_, ?_, ?_⟩
    · show update (update w.page m _) realM _ =
        update (update w.page realM _) m _
      rw [Function.update_comm hne.symm]
      unfold PageWorld.set
      dsimp only
      rw [hr']
    all_goals rw [hm]
    · simp only [Page.onFree, hfree, Bool.false_and]
      exact .same _
    · simp only [Page.onZone, hfree, Bool.false_and]
      exact .same _
    · exact .same _
    · exact .same _
    · exact .same _
    · simp only [Page.onFree, hfree, Bool.false_and]
      exact keep _ _
    · show (if (w.page m).active = true then w.activeCount + 1 else w.activeCount) =
        w.activeCount - _ + _
      cases ha : (w.page m).active <;> simp [Page.activeReal, hfict, ha]
    · show (if (w.page m).active = false ∧ (w.page m).inactive = true then w.inactiveCount + 1
        else w.inactiveCount) = w.inactiveCount - _ + _
      cases hi : (w.page m).inactive with
      | false => simp [Page.inactiveReal, hi]
      | true =>
        have ha : (w.page m).active = false := by
          by_contra hc
          rw [Bool.not_eq_false] at hc
          rw [(hok.active hc).1] at hi
          cases hi
        simp [Page.inactiveReal, hfict, ha, hi]
    · exact keep _ _
    · have hlim' : σ.lim m { w.page m with
          physAddr := (w.page realM).physAddr, fictitious := false } = false := hlim
      rw [hlim, hlim', Bool.false_and, Bool.false_and]
      exact keep _ _
    · exact keep _ _
    · simp only [Page.wiredReal, Page.isWired, hwire, hgobbled, ne_eq, not_true_eq_false,
        decide_false, Bool.or_false, Bool.and_false]
      exact keep _ _
  refine h1.changeAddr hf { hok with free := of_eq_false hfree }
    ⟨rfl, rfl, rfl, by rw [hm], fun _ => by rw [hm]; exact ⟨rfl, rfl⟩⟩
    (fun _ q hqm hq hpq => ?_) (RealFirst.same h1 hf rfl fun hc => ?_)
  · by_cases hqr : q = realM
    · subst hqr
      rw [set_page_self] at hq
      simp [Page.isReal] at hq
    · rw [show (w.set realM _).page q = w.page q from update_of_ne hqr ..] at hq hpq
      exact hqr (h.addr q realM hq hreal hpq)
  · rw [hm, hlim] at hc
    cases hc

theorem PageInv.vmPageConvert {r : Bool}
    (hfree : (w.page m).free = false) (hlim : σ.lim m (w.page m) = false)
    (hwire : (w.page m).wireCount = 0) (hgobbled : (w.page m).gobbled = false)
    (hs : vmPageConvert c w m vmPrivilege = some (w', r)) : PageInv σ c w' := by
  obtain ⟨hcond, hs⟩ := ite_none_left_eq_some.mp hs
  have hfict : (w.page m).fictitious = true := by
    by_contra hc
    rw [Bool.not_eq_true] at hc
    exact hcond (.inr (.inl hc))
  obtain ⟨⟨w1, r1⟩, hgrab, hs⟩ := bind_eq_some_iff.mp hs
  obtain ⟨h1, hreal⟩ := h.vmPageGrab hgrab
  cases r1 with
  | none =>
    cases hs
    exact h1
  | some realM =>
    obtain ⟨honfree, hpage1⟩ := hreal realM rfl
    have hrfree : (w.page realM).free = true ∧ (w.page realM).fictitious = false := by
      simpa [Page.onFree] using honfree
    have hne : m ≠ realM := by
      rintro rfl
      rw [hfree] at hrfree
      cases hrfree.1
    have hm1 : w1.page m = w.page m := by rw [hpage1, update_of_ne hne]
    have hr1 : w1.page realM = { w.page realM with free := false } := by
      rw [hpage1, update_self]
    obtain ⟨hidle, hrlimbo, hrpriv⟩ := h.idle_of_free hrfree.1
    have h2 : PageInv σ c (Resident.takeMemory w1 m realM) := by
      refine h1.takeMemory hne ?_ ?_ ?_ ?_ ?_ ?_ ?_ ?_
      · rwa [hm1]
      · rwa [hm1]
      · rwa [hm1]
      · rwa [hm1]
      · rwa [hm1]
      · rwa [hr1]
      · rwa [hr1]
      · rw [hr1]
        simp [Page.isReal, hrpriv, hrfree.2]
    obtain ⟨w3, hrel, hw⟩ := map_eq_some_iff.mp hs
    cases hw
    have hpage : (Resident.takeMemory w1 m realM).page realM = { w1.page realM with
        physAddr := vmPageFictitiousAddr, fictitious := true } := by
      unfold Resident.takeMemory
      dsimp only
      rw [set_page_self]
      congr 1 <;> exact congrArg _ (update_of_ne hne.symm ..)
    refine h2.vmPageReleaseFictitious ?_ ?_ ?_ hrel <;> rw [hpage, hr1]
    · exact { hidle with free := rfl }
    · exact hrlimbo
    · exact hrpriv

end

theorem PageInv.vmPageFree_frame (h : PageInv σ c w) (hs : Resident.vmPageFree c w m = some w') (hp : p ≠ m) :
    w'.page p = w.page p := by
  obtain ⟨-, hs⟩ := ite_none_left_eq_some.mp hs
  obtain ⟨w1, hs1, hs⟩ := bind_eq_some_iff.mp hs
  obtain ⟨w2, hs2, hs⟩ := bind_eq_some_iff.mp hs
  obtain ⟨w3, hs3, hs⟩ := bind_eq_some_iff.mp hs
  have h1 : w1.page p = w.page p := by
    split at hs1
    · exact (h.vmPageRemove hs1).2.2.2 p hp
    · cases hs1
      rfl
  rw [← h1, ← vmPageQueuesRemove_frame hs2 hp, ← dropWiring_frame hs3 hp]
  split at hs
  · obtain ⟨-, hs⟩ := ite_none_left_eq_some.mp hs
    rw [vmPageReleaseLimbo_page hs]
  · exact freeClean_frame hs hp

theorem PageInv.vmPageFree_untabled (h : PageInv σ c w)
    (hs : Resident.vmPageFree c w m = some w') : (w'.page m).tabled = false := by
  obtain ⟨-, hs⟩ := ite_none_left_eq_some.mp hs
  obtain ⟨w1, hs1, hs⟩ := bind_eq_some_iff.mp hs
  obtain ⟨w2, hs2, hs⟩ := bind_eq_some_iff.mp hs
  obtain ⟨w3, hs3, hs⟩ := bind_eq_some_iff.mp hs
  have h1 : PageInv σ c w1 ∧ (w1.page m).tabled = false := by
    split at hs1
    · obtain ⟨hinv, hpage, -⟩ := h.vmPageRemove hs1
      rw [hpage]
      exact ⟨hinv, rfl⟩
    · next htabled =>
      cases hs1
      exact ⟨h, by simpa using htabled⟩
  obtain ⟨h2, hpage2⟩ := h1.1.vmPageQueuesRemove hs2
  obtain ⟨-, hpage3⟩ := h2.dropWiring hs3
  have ht : (w3.page m).tabled = false := by
    rw [hpage3, hpage2]
    exact h1.2
  split at hs
  · obtain ⟨-, hs⟩ := ite_none_left_eq_some.mp hs
    rw [vmPageReleaseLimbo_page hs]
    exact ht
  · exact freeClean_untabled ht hs

/-- No page is tabled at an offset of an object. -/
def PageWorld.Vacant (w : PageWorld P O) (o : O) (f : ℕ) : Prop :=
  ∀ p, (w.page p).tabled = true → (w.page p).object = some o → (w.page p).offset ≠ f

/-- **`vm_page_lookup`** finds the tabled page at an offset of an object. -/
theorem PageInv.vmPageLookup_eq_some (h : PageInv σ c w) :
    vmPageLookup c w o f = some p ↔
      (w.page p).tabled = true ∧ (w.page p).object = some o ∧ (w.page p).offset = f := by
  have hmem : ∀ q, q ∈ w.buckets (c.hash o f) ∧ (w.page q).object = some o ∧ (w.page q).offset = f ↔
      (w.page q).tabled = true ∧ (w.page q).object = some o ∧ (w.page q).offset = f := by
    intro q
    rw [(h.table.bucket _).mem]
    constructor
    · rintro ⟨hb, ho, hf⟩
      refine ⟨?_, ho, hf⟩
      exact (Bool.and_eq_true_iff.mp hb).1
    · rintro ⟨ht, ho, hf⟩
      refine ⟨?_, ho, hf⟩
      simp [Page.inBucket, ht, ho, hf]
  unfold Resident.vmPageLookup
  constructor
  · intro hp
    have hkey := List.find?_some hp
    rw [decide_eq_true_eq] at hkey
    exact (hmem p).mp ⟨mem_of_find?_eq_some hp, hkey⟩
  · intro hp
    obtain ⟨hb, hkey⟩ := (hmem p).mpr hp
    cases hfind : List.find? (fun mem => decide ((w.page mem).object = some o ∧
        (w.page mem).offset = f)) (w.buckets (c.hash o f)) with
    | none =>
      have := List.find?_eq_none.mp hfind p hb
      simp [hkey] at this
    | some q =>
      have hq := List.find?_some hfind
      rw [decide_eq_true_eq] at hq
      have hqt := (hmem q).mp ⟨mem_of_find?_eq_some hfind, hq⟩
      rw [h.table.unique q p hqt.1 hp.1 (hqt.2.1.trans hp.2.1.symm) (hqt.2.2.trans hp.2.2.symm)]

theorem PageInv.vmPageInsert (h : PageInv σ c w)
    (hfree : (w.page m).free = false) (hlim : σ.lim m (w.page m) = false) (hvacant : w.Vacant o f)
    (hs : vmPageInsert c w m o f = some w') : PageInv σ c w' := by
  obtain ⟨htabled, hs⟩ := ite_none_left_eq_some.mp hs
  rw [Bool.not_eq_true] at htabled
  obtain ⟨-, hs⟩ := ite_none_left_eq_some.mp hs
  obtain ⟨-, ⟨⟩⟩ := ite_none_left_eq_some.mp hs
  exact h.enterPage hfree hlim htabled hvacant

theorem PageInv.vmPageRename (h : PageInv σ c w) (hvacant : w.Vacant o f)
    (hs : vmPageRename c w m o f = some w') : PageInv σ c w' := by
  obtain ⟨-, hs⟩ := ite_none_left_eq_some.mp hs
  obtain ⟨w1, hs1, hs⟩ := bind_eq_some_iff.mp hs
  obtain ⟨h1, hpage, htabled, hframe⟩ := h.vmPageRemove hs1
  have hok := h.ok m
  refine h1.vmPageInsert ?_ ?_ (fun p hp ho => ?_) hs
  · rw [hpage]
    by_contra hc
    have := (hok.free (by simpa using hc)).2.2.2.2.2.1
    rw [htabled] at this
    cases this
  · rw [hpage]
    by_contra hc
    have := (hok.limbo (by simpa [Slack.lim] using hc)).2.2.2.2
    rw [htabled] at this
    cases this
  by_cases hpm : p = m
  · subst hpm
    rw [hpage] at hp
    cases hp
  · rw [hframe p hpm] at hp ho ⊢
    exact hvacant p hp ho

theorem PageInv.vmPageReplace (h : PageInv ⟨none, 0⟩ c w)
    (hfree : (w.page m).free = false) (hlimbo : (w.page m).limbo = false)
    (hs : vmPageReplace c w m o f = some w') : PageInv ⟨none, 0⟩ c w' := by
  obtain ⟨htabled, hs⟩ := ite_none_left_eq_some.mp hs
  rw [Bool.not_eq_true] at htabled
  have h1 := h.touch m { w.page m with object := some o, offset := f }
    ⟨rfl, rfl, rfl, rfl, rfl, rfl, rfl, rfl, rfl⟩ rfl
    (fun ht => by rw [show (w.page m).tabled = true from ht] at htabled; cases htabled)
  generalize hw1 : w.set m { w.page m with object := some o, offset := f } = w1 at hs h1
  have hm1 : w1.page m = { w.page m with object := some o, offset := f } := by
    rw [← hw1, set_page_self]
  obtain ⟨w2, hs2, rfl⟩ := map_eq_some_iff.mp hs
  have hlim : ∀ pg : Page O, pg.limbo = false → Slack.lim ⟨none, 0⟩ m pg = false := fun pg hl => by
    rw [Slack.lim, hl, Bool.false_and]
  split at hs2
  · next hlookup =>
    cases hs2
    refine h1.enterPage (by rwa [hm1]) (by rw [hm1]; exact hlim _ hlimbo) (by rwa [hm1])
      fun p hp ho hf => ?_
    rw [h1.vmPageLookup_eq_some.mpr ⟨hp, ho, hf⟩] at hlookup
    cases hlookup
  next p hlookup =>
  obtain ⟨hpt, hpo, hpf⟩ := h1.vmPageLookup_eq_some.mp hlookup
  have hpm : m ≠ p := by
    rintro rfl
    rw [hm1] at hpt
    rw [show (w.page m).tabled = true from hpt] at htabled
    cases htabled
  have h2 := h1.unhook hpt hpo
  have hpage2 : (Resident.unhook c w1 p o).page p = { w1.page p with tabled := false } :=
    update_self ..
  have hframe2 : ∀ q, q ≠ p → (Resident.unhook c w1 p o).page q = w1.page q := fun q hq =>
    update_of_ne hq ..
  have hplimbo : ((Resident.unhook c w1 p o).page p).limbo = false := by
    rw [hpage2]
    by_contra hc
    have hc : (w1.page p).limbo = true := by simpa using hc
    have := ((h1.ok p).limbo (by simp [Slack.lim, hc])).2.2.2.2
    rw [hpt] at this
    cases this
  have h3 := h2.vmPageFree (fun hl => by rw [hplimbo] at hl; cases hl) hs2
  rw [hplimbo] at h3
  have hm3 : w2.page m = w1.page m := (h2.vmPageFree_frame hs2 hpm).trans (hframe2 m hpm)
  refine h3.enterPage (by rw [hm3, hm1]; exact hfree) (by rw [hm3, hm1]; exact hlim _ hlimbo)
    (by rw [hm3, hm1]; exact htabled) fun q hq hqo hqf => ?_
  by_cases hqp : q = p
  · subst hqp
    rw [h2.vmPageFree_untabled hs2] at hq
    cases hq
  · rw [h2.vmPageFree_frame hs2 hqp, hframe2 q hqp] at hq hqo hqf
    exact hqp (h1.table.unique q p hq hpt (hqo.trans hpo.symm) (hqf.trans hpf.symm))

section

variable (h : PageInv σ c w)
include h

theorem PageInv.vmPageUnwire (hs : vmPageUnwire w m = some w') :
    PageInv σ c w' := by
  have hok := h.ok m
  obtain ⟨hpos, hs⟩ := ite_none_left_eq_some.mp hs
  -- a wired page is in no queue
  have hfree : (w.page m).free = false := by
    by_contra hc
    exact hpos (hok.free (by simpa using hc)).2.2.2.2.1
  have hlim : σ.lim m (w.page m) = false := by
    by_contra hc
    exact hpos (hok.limbo (by simpa using hc)).2.2.2.1
  have hactive : (w.page m).active = false := by
    by_contra hc
    exact hpos (hok.active (by simpa using hc)).2
  have hinactive : (w.page m).inactive = false := by
    by_contra hc
    exact hpos (hok.inactive (by simpa using hc))
  have hgobbled : (w.page m).gobbled = false := by
    by_contra hc
    exact hpos (hok.gobbled (by simpa using hc))
  split at hs
  · obtain ⟨hcond, hs⟩ := ite_none_left_eq_some.mp hs
    rw [not_or, Bool.not_eq_true, Bool.not_eq_true] at hcond
    have hw := some.inj hs
    have hf : Follow σ w w' m { w.page m with
        wireCount := 0, active := true, reference := true } := by
      subst hw
      refine { Follow.refl with page := rfl, active := ?_, activeCount := ?_, wireCount := ?_ }
      · rw [hactive]
        exact .last
      · simp [Page.activeReal, hactive, hcond.2]
      · simp [Page.wiredReal, Page.isReal, Page.isWired, hcond.1, hcond.2, hgobbled, hpos]
    exact h.changeFlags hf ⟨of_eq_false hfree, of_eq_false hlim, fun _ => ⟨hinactive, rfl⟩, fun _ => rfl,
      fun _ => rfl, hok.tabled⟩ (by subst hw; exact ⟨rfl, rfl⟩)
  · next hmore =>
    have hw := some.inj hs
    have hf : Follow σ w w' m { w.page m with wireCount := (w.page m).wireCount - 1 } := by
      subst hw
      refine { Follow.refl with page := rfl, wireCount := ?_ }
      have hsame : Page.wiredReal { w.page m with wireCount := (w.page m).wireCount - 1 } =
          (w.page m).wiredReal := by
        simp [Page.wiredReal, Page.isReal, Page.isWired, hmore, hpos]
      rw [hsame]
      exact keep _ _
    exact h.changeFlags hf ⟨of_eq_false hfree, of_eq_false hlim, of_eq_false hactive,
      of_eq_false hinactive, of_eq_false hgobbled, hok.tabled⟩ (by subst hw; exact ⟨rfl, rfl⟩)

theorem PageInv.ungobble (hs : ungobble w m = some w') :
    PageInv σ c w' ∧ w'.page m = { w.page m with gobbled := false } := by
  unfold Resident.ungobble at hs
  dsimp only at hs
  split at hs
  · next hg =>
    obtain ⟨hz, hs⟩ := ite_none_left_eq_some.mp hs
    rw [not_not] at hz
    have hw := some.inj hs
    have hf : Follow σ w w' m { w.page m with gobbled := false } := by
      subst hw
      refine { Follow.refl with page := rfl, gobbleCount := ?_, wireCount := ?_ }
      · simp [hg]
      · cases hp : (w.page m).isPrivate <;> cases hfi : (w.page m).fictitious <;>
          simp [Page.wiredReal, Page.isReal, Page.isWired, hp, hfi, hg, hz]
    exact ⟨h.changeFlags hf ((h.ok m).clear id id (fun _ => rfl) id) (by subst hw; exact ⟨rfl, rfl⟩),
      hf.page_self⟩
  · next hg =>
    rw [Bool.not_eq_true] at hg
    cases hs
    refine ⟨h, ?_⟩
    rw [← hg]

theorem PageInv.leaveInactive : PageInv σ c (leaveInactive w m) ∧
      (Resident.leaveInactive w m).page m = { w.page m with inactive := false } := by
  unfold Resident.leaveInactive
  dsimp only
  split
  · next hinactive =>
    have hf : Follow σ w { w.set m { w.page m with inactive := false } with
        queueInactive := w.queueInactive.erase m
        inactiveCount := if (w.page m).fictitious = true then w.inactiveCount
          else w.inactiveCount - 1 } m { w.page m with inactive := false } := by
      refine { Follow.refl with page := rfl, inactive := ?_, inactiveCount := ?_ }
      · rw [hinactive]
        exact .leave
      · cases hfi : (w.page m).fictitious <;> simp [Page.inactiveReal, hinactive, hfi]
    exact ⟨h.changeFlags hf ((h.ok m).clear id (fun _ => rfl) id id) ⟨rfl, rfl⟩, hf.page_self⟩
  · next hinactive =>
    rw [Bool.not_eq_true] at hinactive
    refine ⟨h, ?_⟩
    rw [← hinactive]

variable (hfree : (w.page m).free = false) (hlim : σ.lim m (w.page m) = false)
include hfree hlim

theorem PageInv.vmPageWire (hbound : (w.page m).wireCount + 1 < 2 ^ 16)
    (hs : vmPageWire w m = some w') : PageInv σ c w' := by
  obtain ⟨w2, hs2, hs⟩ := bind_eq_some_iff.mp hs
  obtain ⟨hgobbled2, hs⟩ := ite_none_left_eq_some.mp hs
  rw [Bool.not_eq_true] at hgobbled2
  have hw := some.inj hs
  split at hs2
  · next hzero =>
    obtain ⟨w1, hs1, hw2⟩ := map_eq_some_iff.mp hs2
    obtain ⟨h1, hpage1⟩ := h.vmPageQueuesRemove hs1
    have hm1 : (w1.page m).wireCount = 0 ∧ (w1.page m).active = false ∧
        (w1.page m).inactive = false ∧ (w1.page m).free = false ∧
        σ.lim m (w1.page m) = false := by
      rw [hpage1]
      exact ⟨hzero, rfl, rfl, hfree, hlim⟩
    obtain ⟨hz, ha, hi, hfr, hl⟩ := hm1
    have hf : Follow σ w1 w' m { w1.page m with gobbled := false, wireCount := 1 } := by
      subst hw hw2
      refine { Follow.refl with page := ?_, gobbleCount := ?_, wireCount := ?_ }
      · show update (update w1.page m _) m _ = _
        have hone : (0 + 1) % 2 ^ 16 = 1 := rfl
        rw [Function.update_idem]
        simp only [PageWorld.set, update_self, hz, hone]
      · show (if (w1.page m).gobbled = true then _ else _) = _
        cases hg : (w1.page m).gobbled <;> simp
      · show (if _ then _ else _) = _
        cases hp : (w1.page m).isPrivate <;> cases hfi : (w1.page m).fictitious <;>
          cases hg : (w1.page m).gobbled <;>
          simp [Page.wiredReal, Page.isReal, Page.isWired, hp, hfi, hg, hz]
    exact h1.change hf ⟨of_eq_false hfr, of_eq_false hl, of_eq_false ha, of_eq_false hi,
      of_eq_false rfl, (h1.ok m).tabled⟩
      (by subst hw hw2; exact ⟨rfl, rfl, rfl, rfl, fun _ => ⟨rfl, rfl⟩⟩) (fun hr => ⟨hr, rfl⟩)
      (RealFirst.same h1 hf (by subst hw hw2; rfl) fun _ => rfl)
  · next hpos =>
    cases hs2
    have hok := h.ok m
    have hmod : ¬ ((w.page m).wireCount + 1) % 2 ^ 16 = 0 := by
      rw [Nat.mod_eq_of_lt hbound]
      omega
    have hf : Follow σ w w' m { w.page m with
        wireCount := ((w.page m).wireCount + 1) % 2 ^ 16 } := by
      subst hw
      refine { Follow.refl with page := rfl, wireCount := ?_ }
      have hsame : Page.wiredReal { w.page m with
          wireCount := ((w.page m).wireCount + 1) % 2 ^ 16 } = (w.page m).wiredReal := by
        simp only [Page.wiredReal, Page.isReal, Page.isWired, ne_eq, hmod, hpos]
      rw [hsame]
      exact keep _ _
    exact h.changeFlags hf ⟨of_eq_false hfree, of_eq_false hlim, fun hc => absurd (hok.active hc).2 hpos,
      fun hc => absurd (hok.inactive hc) hpos, fun hc => absurd (hok.gobbled hc) hpos, hok.tabled⟩
      (by subst hw; exact ⟨rfl, rfl⟩)

theorem PageInv.vmPageGobble (hs : vmPageGobble w m = some w') : PageInv σ c w' := by
  have hok := h.ok m
  obtain ⟨hcond, hs⟩ := ite_none_left_eq_some.mp hs
  rw [not_or, Bool.not_eq_true, not_not] at hcond
  obtain ⟨hg, hz⟩ := hcond
  have hw := some.inj hs
  have hf : Follow σ w w' m { w.page m with gobbled := true } := by
    subst hw
    refine { Follow.refl with page := rfl, gobbleCount := ?_, wireCount := ?_ }
    · simp [hg]
    · cases hp : (w.page m).isPrivate <;> cases hfi : (w.page m).fictitious <;>
        simp [Page.wiredReal, Page.isReal, Page.isWired, hp, hfi, hg, hz]
  exact h.changeFlags hf ⟨of_eq_false hfree, of_eq_false hlim, hok.active, hok.inactive, fun _ => hz,
    hok.tabled⟩ (by subst hw; exact ⟨rfl, rfl⟩)

theorem PageInv.enterInactive (hactive : (w.page m).active = false)
    (hinactive : (w.page m).inactive = false) (hz : (w.page m).wireCount = 0) :
    PageInv σ c (enterInactive w m) := by
  have hf : Follow σ w (Resident.enterInactive w m) m { w.page m with inactive := true } := by
    refine { Follow.refl with page := rfl, inactive := ?_, inactiveCount := ?_ }
    · rw [hinactive]
      exact .last
    · show (if _ then _ else _) = _
      cases hfi : (w.page m).fictitious <;> simp [Page.inactiveReal, hinactive, hfi]
  exact h.changeFlags hf ⟨of_eq_false hfree, of_eq_false hlim, of_eq_false hactive, fun _ => hz,
    (h.ok m).gobbled, (h.ok m).tabled⟩ ⟨rfl, rfl⟩

theorem PageInv.enterActive (hactive : (w.page m).active = false)
    (hinactive : (w.page m).inactive = false) (hz : (w.page m).wireCount = 0) :
    PageInv σ c (enterActive w m) := by
  have hf : Follow σ w (Resident.enterActive w m) m
      { w.page m with active := true, reference := true } := by
    refine { Follow.refl with page := rfl, active := ?_, activeCount := ?_ }
    · rw [hactive]
      exact .last
    · show (if _ then _ else _) = _
      cases hfi : (w.page m).fictitious <;> simp [Page.activeReal, hactive, hfi]
  exact h.changeFlags hf ⟨of_eq_false hfree, of_eq_false hlim, fun _ => ⟨hinactive, hz⟩, fun _ => hz,
    (h.ok m).gobbled, (h.ok m).tabled⟩ ⟨rfl, rfl⟩

theorem PageInv.vmPageDeactivate (hs : vmPageDeactivate w m = some w') :
    PageInv σ c w' := by
  obtain ⟨w1, hs1, hs⟩ := bind_eq_some_iff.mp hs
  obtain ⟨h1, hpage1⟩ := h.ungobble hs1
  have hfree1 : (w1.page m).free = false := by rw [hpage1]; exact hfree
  have hlim1 : σ.lim m (w1.page m) = false := by rw [hpage1]; exact hlim
  split at hs
  · cases hs
    exact h1
  obtain ⟨w2, hs2, hw⟩ := map_eq_some_iff.mp hs
  have h2 : PageInv σ c w2 ∧ (w2.page m).free = false ∧ σ.lim m (w2.page m) = false ∧
      (w2.page m).active = false := by
    split at hs2
    · have ht := h1.touch m { w1.page m with reference := false }
        ⟨rfl, rfl, rfl, rfl, rfl, rfl, rfl, rfl, rfl⟩ rfl fun _ => ⟨rfl, rfl⟩
      obtain ⟨hinv, hpage⟩ := ht.vmPageQueuesRemove hs2
      rw [set_page_self] at hpage
      rw [hpage]
      exact ⟨hinv, hfree1, hlim1, rfl⟩
    next hcond =>
    cases hs2
    rw [not_or, Bool.not_eq_true] at hcond
    exact ⟨h1, hfree1, hlim1, hcond.1⟩
  obtain ⟨h2, hfree2, hlim2, hactive2⟩ := h2
  split at hw
  · next hcond =>
    subst hw
    exact h2.enterInactive hfree2 hlim2 hactive2 hcond.2 hcond.1
  · subst hw
    exact h2

theorem PageInv.vmPageActivate (hs : vmPageActivate w m = some w') :
    PageInv σ c w' := by
  obtain ⟨w1, hs1, hs⟩ := bind_eq_some_iff.mp hs
  obtain ⟨h1, hpage1⟩ := h.ungobble hs1
  split at hs
  · cases hs
    exact h1
  dsimp only at hs
  obtain ⟨h2, hpage2⟩ := h1.leaveInactive (m := m)
  split at hs
  · next hz =>
    obtain ⟨hactive, hs⟩ := ite_none_left_eq_some.mp hs
    rw [Bool.not_eq_true] at hactive
    cases hs
    refine h2.enterActive ?_ ?_ hactive ?_ hz <;> rw [hpage2]
    · rw [hpage1]
      exact hfree
    · rw [hpage1]
      exact hlim
  · cases hs
    exact h2

end

end Osfmk.Resident

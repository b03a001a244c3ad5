import Osfmk.Vm.CopyDelayed

/-!
# Copies keep what the source contained

Pages of the source and of its copies are paged out, and copies are made: the last copy is reused
while nothing was pushed into it, else a new one is put between it and the source.  From the
invariant of `Osfmk.Vm.CopyDelayed` it follows that in every run whose copies are protected each
copy keeps what the source contained when it was made.
-/

open List Option

namespace Osfmk

variable {D : Type} [Inhabited D] {s s' : CopyState D} {up : List ℕ} {f : ℕ}

theorem CopyInv.createPager (h : CopyInv s up) {x : ℕ} (hx : x ∈ up ++ s.src :: s.base)
    (mapped : Bool) : CopyInv (createPager s x mapped) up := by
  unfold Osfmk.createPager
  split
  · next hnone =>
    rw [isNone_iff_eq_none] at hnone
    obtain ⟨g, hg⟩ : ∃ g : VmObject D → VmObject D, g = fun object => { object with
        pagerCreated := true, pager := some s.freshPager, pagingOffset := 0
        existenceMap := if mapped then some fun _ => false else none } := ⟨_, rfl⟩
    rw [← hg]
    have hobj : ∀ y, y ≠ x → (s.world.modify x g).objects y = s.world.objects y :=
      fun y hy => modify_objects_ne _ hy _
    have hself : (s.world.modify x g).objects x = g (s.world.objects x) := modify_objects_self ..
    have hfield : ∀ {β : Type} (k : VmObject D → β), (∀ o, k (g o) = k o) →
        ∀ y, k ((s.world.modify x g).objects y) = k (s.world.objects y) :=
      fun k hk y => modify_field k hk _ _ y
    have hpager : ∀ y pager, ((s.world.modify x g).objects y).pager = some pager →
        y = x ∧ pager = s.freshPager ∨ y ≠ x ∧ (s.world.objects y).pager = some pager := by
      intro y pager hy
      by_cases hyx : y = x
      · subst hyx
        rw [hself, hg] at hy
        exact .inl ⟨rfl, (some.inj hy).symm⟩
      · rw [hobj y hyx] at hy
        exact .inr ⟨hyx, hy⟩
    have hpaged : ∀ f, (s.world.modify x g).pagedOut (g (s.world.objects x)) f = none := by
      intro f
      rw [hg]
      exact h.pagers.empty _ le_rfl _
    have hres : ∀ o : VmObject D, (g o).resident = o.resident := by
      intro o
      rw [hg]
      rfl
    refine h.change ⟨rfl, rfl, rfl, rfl, hfield (·.copy) (fun o => by rw [hg]) _,
      fun y _ => hfield (·.shadow) (fun o => by rw [hg]) y,
      fun y _ => hfield (·.size) (fun o => by rw [hg]) y⟩ rfl
      (fun y _ => hfield (·.shadowOffset) (fun o => by rw [hg]) y) ?_ (fun c hc => ?_)
      ⟨fun y hy z hz pager hpy hpz => ?_, fun y hy pager hpy => ?_, fun pager hp f => ?_⟩
      (fun f hw => ⟨hw, ?_⟩) fun y hy f => .inl ?_
    · have := hfield (·.memq) (fun o => by rw [hg]) s.src
      intro p hp
      rw [this] at hp
      exact h.source p hp
    · have hc' := h.copies c hc
      by_cases hcx : c = x
      · subst hcx
        refine ⟨?_, ?_, ?_, fun bits hbits f => ?_⟩ <;> dsimp only at * <;> rw [hself] at *
        · rw [hg]
          exact hc'.present
        · rw [hg]
          exact hc'.offset
        · rw [hg]
          rfl
        · rw [hpaged]
          rw [hg] at hbits
          split at hbits
          · rw [← some.inj hbits]
            simp
          · cases hbits
      · exact hc'.congr (hobj c hcx) fun _ => rfl
    · rcases hpager y pager hpy with ⟨rfl, rfl⟩ | ⟨hyx, hpy⟩
      · rcases hpager z _ hpz with ⟨rfl, -⟩ | ⟨-, hpz⟩
        · rfl
        · exact absurd (h.pagers.old z hz _ hpz) (lt_irrefl _)
      · rcases hpager z _ hpz with ⟨-, rfl⟩ | ⟨-, hpz⟩
        · exact absurd (h.pagers.old y hy _ hpy) (lt_irrefl _)
        · exact h.pagers.apart y hy z hz pager hpy hpz
    · rcases hpager y pager hpy with ⟨-, rfl⟩ | ⟨-, hpy⟩
      · exact Nat.lt_succ_self _
      · exact Nat.lt_succ_of_lt (h.pagers.old y hy pager hpy)
    · exact h.pagers.empty pager (Nat.le_of_succ_le hp) f
    · have := h.writable f hw
      unfold vmPageLookup at this ⊢
      rw [hfield (·.memq) (fun o => by rw [hg])]
      exact this
    · by_cases hyx : y = x
      · subst hyx
        have hold : s.world.pagedOut (s.world.objects y) f = none := by
          rw [VmWorld.pagedOut, hnone]
          rfl
        rw [VmWorld.own, VmWorld.own, hold]
        rw [hself, hpaged, hres]
      · rw [modify_own_ne hyx]
  · exact h

omit [Inhabited D] in
theorem pageData_filter (l : List (VmPage D)) (f f' : ℕ) :
    pageData (l.filter fun p => decide (p.offset ≠ f)) f' =
      if f' = f then none else pageData l f' := by
  induction l with
  | nil => simp [pageData]
  | cons p l ih =>
    by_cases hp : p.offset = f
    · rw [filter_cons_of_neg (by simpa using hp), ih, pageData_cons]
      by_cases hf : f' = f
      · simp [hf]
      · simp [hp, hf, Ne.symm hf]
    · rw [filter_cons_of_pos (by simpa using hp), pageData_cons, pageData_cons, ih]
      by_cases hf : f' = f
      · simp [hf, hp]
      · simp [hf]

theorem CopyInv.evictPage (h : CopyInv s up) {x pager : ℕ} {d : D} (hx : x = s.src ∨ x ∈ up)
    (hpager : (s.world.objects x).pager = some pager)
    (hres : (s.world.objects x).resident f = some d) : CopyInv (evictPage s x f pager d) up := by
  have hmem : x ∈ up ++ s.src :: s.base := by
    rcases hx with rfl | hx
    · simp
    · exact mem_append_left _ hx
  have hpresent : (s.world.objects x).Present := by
    rcases hx with rfl | hx
    · exact h.source
    · exact (h.copies x hx).present
  obtain ⟨g, hg⟩ : ∃ g : VmObject D → VmObject D, g = fun object => { object with
      memq := object.memq.filter fun p => decide (p.offset ≠ f)
      existenceMap := object.existenceMap.map fun bits => Function.update bits f true } := ⟨_, rfl⟩
  unfold Osfmk.evictPage
  dsimp only
  rw [← hg]
  obtain ⟨w, hw⟩ : ∃ w, w = (s.world.setPaged pager (f + (s.world.objects x).pagingOffset)
    (some d)).modify x g := ⟨_, rfl⟩
  rw [← hw]
  have hobj : ∀ y, y ≠ x → w.objects y = s.world.objects y := by
    intro y hy
    rw [hw]
    exact modify_objects_ne _ hy _
  have hself : w.objects x = g (s.world.objects x) := by
    rw [hw]
    exact modify_objects_self ..
  have hfield : ∀ {β : Type} (k : VmObject D → β), (∀ o, k (g o) = k o) →
      ∀ y, k (w.objects y) = k (s.world.objects y) := by
    intro β k hk y
    rw [hw]
    exact modify_field k hk ..
  have hmemq : ∀ p ∈ (g (s.world.objects x)).memq, p ∈ (s.world.objects x).memq := by
    intro p hp
    rw [hg] at hp
    exact (mem_filter.mp hp).1
  have hpresent' : (g (s.world.objects x)).Present := fun p hp => hpresent p (hmemq p hp)
  have hres' : ∀ f', (g (s.world.objects x)).resident f' =
      if f' = f then none else (s.world.objects x).resident f' := by
    intro f'
    rw [hpresent'.resident_eq, hpresent.resident_eq, hg]
    exact pageData_filter ..
  have hpaged : ∀ object f', w.pagedOut object f' =
      if object.pager = some pager ∧
        f' + object.pagingOffset = f + (s.world.objects x).pagingOffset then some d
      else s.world.pagedOut object f' := by
    intro object f'
    rw [← pagedOut_setPaged, hw]
    rfl
  have hother : ∀ y ∈ up ++ s.src :: s.base, y ≠ x → (s.world.objects y).pager ≠ some pager :=
    fun y hy hyx hp => hyx (h.pagers.apart y hy x hmem pager hp hpager)
  refine h.change ⟨rfl, rfl, rfl, rfl, hfield (·.copy) (fun o => by rw [hg]) _,
    fun y _ => hfield (·.shadow) (fun o => by rw [hg]) y,
    fun y _ => hfield (·.size) (fun o => by rw [hg]) y⟩ rfl
    (fun y _ => hfield (·.shadowOffset) (fun o => by rw [hg]) y) ?_ (fun c hc => ?_)
    ⟨fun y hy z hz pager hpy hpz => ?_, fun y hy pager hpy => ?_, fun p hp f' => ?_⟩
    (fun f' hf' => ?_) fun y hy f' => .inl ?_
  · by_cases hsrc : s.src = x
    · dsimp only
      rw [hsrc, hself]
      exact hpresent'
    · dsimp only
      rw [hobj _ hsrc]
      exact h.source
  · have hc' := h.copies c hc
    by_cases hcx : c = x
    · subst hcx
      refine ⟨?_, ?_, ?_, fun bits hbits f' => ?_⟩
      · dsimp only
        rw [hself]
        exact hpresent'
      · rw [hfield (·.shadowOffset) fun o => by rw [hg]]
        exact hc'.offset
      · rw [hfield (·.pager) fun o => by rw [hg], hfield (·.pagerCreated) fun o => by rw [hg]]
        exact hc'.pager
      · dsimp only at hbits ⊢
        have hp1 := hfield (·.pager) (fun o => by rw [hg]) c
        have hp2 := hfield (·.pagingOffset) (fun o => by rw [hg]) c
        rw [hpaged, hp1, hp2, hpager]
        rw [hself, hg] at hbits
        obtain ⟨bits', hbits', rfl⟩ := map_eq_some_iff.mp hbits
        by_cases hf : f' = f
        · subst hf
          simp
        · rw [Function.update_of_ne hf, if_neg (by omega), hc'.exact bits' hbits' f',
            VmWorld.pagedOut, VmWorld.pagedOut, hp1, hp2]
    · refine hc'.congr (hobj c hcx) fun f' => ?_
      rw [hpaged, if_neg fun hp => hother c (mem_append_left _ hc) hcx hp.1]
  · rw [hfield (·.pager) fun o => by rw [hg]] at hpy hpz
    exact h.pagers.apart y hy z hz pager hpy hpz
  · rw [hfield (·.pager) fun o => by rw [hg]] at hpy
    exact h.pagers.old y hy pager hpy
  · have hpg : p ≠ pager := by
      have := h.pagers.old x hmem pager hpager
      change s.freshPager ≤ p at hp
      omega
    have hpagers : w.pagers p = s.world.pagers p := by
      rw [hw]
      exact Function.update_of_ne hpg ..
    rw [hpagers]
    exact h.pagers.empty p hp f'
  · dsimp only at hf' ⊢
    split at hf'
    · next hsrc =>
      subst hsrc
      have hne : f' ≠ f := by
        rintro rfl
        rw [Function.update_self] at hf'
        cases hf'
      rw [Function.update_of_ne hne] at hf'
      refine ⟨hf', ?_⟩
      rw [← pageData_isSome, hself, hg]
      rw [pageData_filter, if_neg hne, pageData_isSome]
      exact h.writable f' hf'
    · next hsrc =>
      rw [hobj _ (Ne.symm hsrc)]
      exact ⟨hf', h.writable f' hf'⟩
  · dsimp only
    by_cases hyx : y = x
    · subst hyx
      have hp1 := hfield (·.pager) (fun o => by rw [hg]) y
      have hp2 := hfield (·.pagingOffset) (fun o => by rw [hg]) y
      rw [VmWorld.own, VmWorld.own, hpaged, hp1, hp2, hself, hres', hpager]
      by_cases hf : f' = f
      · subst hf
        simp [hres]
      · rw [if_neg hf, if_neg (by omega), VmWorld.pagedOut, VmWorld.pagedOut, ← hself, hp1, hp2]
    · rw [VmWorld.own, VmWorld.own, hobj y hyx, hpaged, if_neg fun hp => hother y hy hyx hp.1]

/-- **A page is paged out.** -/
theorem CopyInv.pageOut (h : CopyInv s up) {x : ℕ} {mapped : Bool} (hx : x = s.src ∨ x ∈ up)
    (hs : pageOut s x f mapped = some s') : CopyInv s' up := by
  have hmem : x ∈ up ++ s.src :: s.base := by
    rcases hx with rfl | hx
    · simp
    · exact mem_append_left _ hx
  obtain ⟨p, hp, hs⟩ := bind_eq_some_iff.mp hs
  obtain ⟨pager, hpager, rfl⟩ := map_eq_some_iff.mp hs
  have hmemq : ((Osfmk.createPager s x mapped).world.objects x).memq =
      (s.world.objects x).memq := by
    unfold Osfmk.createPager
    split
    · dsimp only
      rw [modify_objects_self]
    · rfl
  have hsrc : (Osfmk.createPager s x mapped).src = s.src := by
    unfold Osfmk.createPager
    split <;> rfl
  have h1 := h.createPager hmem mapped
  refine h1.evictPage (by rwa [hsrc]) hpager ?_
  have hpresent : ((Osfmk.createPager s x mapped).world.objects x).Present := by
    rcases hx with rfl | hx
    · have := h1.source
      rwa [hsrc] at this
    · exact (h1.copies x hx).present
  rw [hpresent.resident, vmPageLookup, hmemq]
  exact congrArg (Option.map _) hp

/-- What of an object a new copy leaves as it is. -/
structure PagesKept (object object' : VmObject D) : Prop where
  memq : object'.memq = object.memq
  pager : object'.pager = object.pager
  pagerCreated : object'.pagerCreated = object.pagerCreated
  pagingOffset : object'.pagingOffset = object.pagingOffset
  existenceMap : object'.existenceMap = object.existenceMap
  shadowOffset : object'.shadowOffset = object.shadowOffset

section

variable {w w' : VmWorld D} {x : ℕ}

omit [Inhabited D] in
theorem PagesKept.pagedOut (h : PagesKept (w.objects x) (w'.objects x))
    (hpagers : w'.pagers = w.pagers) (f : ℕ) :
    w'.pagedOut (w'.objects x) f = w.pagedOut (w.objects x) f := by
  unfold VmWorld.pagedOut
  rw [h.pager, h.pagingOffset, hpagers]

omit [Inhabited D] in
theorem PagesKept.own (h : PagesKept (w.objects x) (w'.objects x))
    (hpagers : w'.pagers = w.pagers) : w'.own x = w.own x := by
  funext f
  unfold VmWorld.own VmObject.resident vmPageLookup
  rw [h.memq, h.pagedOut hpagers]

omit [Inhabited D] in
theorem PagesKept.copyOk (h : PagesKept (w.objects x) (w'.objects x))
    (hpagers : w'.pagers = w.pagers) (hx : CopyOk w x) : CopyOk w' x := by
  refine ⟨?_, h.shadowOffset.trans hx.offset, ?_, fun bits hbits f => ?_⟩
  · unfold VmObject.Present
    rw [h.memq]
    exact hx.present
  · rw [h.pagerCreated, h.pager]
    exact hx.pager
  · rw [h.pagedOut hpagers]
    exact hx.exact bits (h.existenceMap ▸ hbits) f

end

/-- The pages of every object stay as they are. -/
structure AllKept (s s' : CopyState D) (up : List ℕ) : Prop where
  src : s'.src = s.src
  base : s'.base = s.base
  freshPager : s'.freshPager = s.freshPager
  pagers : s'.world.pagers = s.world.pagers
  objects : ∀ x ∈ up ++ s.src :: s.base, PagesKept (s.world.objects x) (s'.world.objects x)

namespace AllKept

variable (hk : AllKept s s' up)

include hk

theorem sourcePage : s'.sourcePage = s.sourcePage := by
  funext f
  unfold CopyState.sourcePage
  rw [hk.src, hk.base]
  refine congrArg (Option.getD · default) (Layers.contents_congr (fun x hx => ?_) f)
  have hx' := hk.objects x (mem_append_right _ hx)
  exact ⟨hx'.own hk.pagers, hx'.shadowOffset⟩

omit [Inhabited D] in
theorem pushed {l : List ℕ} (hl : ∀ x ∈ l, x ∈ up) : s'.pushed l = s.pushed l := by
  funext f
  refine Layers.contents_congr (fun x hx => ?_) f
  have hx' := hk.objects x (mem_append_left _ (hl x hx))
  exact ⟨hx'.own hk.pagers, hx'.shadowOffset⟩

theorem pagersApart (h : CopyInv s up) : PagersApart s' (up ++ s.src :: s.base) :=
  h.pagers.congr (fun x hx => (hk.objects x hx).pager) hk.freshPager hk.pagers

end AllKept

/-- **The last copy is reused**: nothing was pushed into it, and what it covers now is not
write-enabled. -/
theorem CopyInv.reuse (h : CopyInv s up) {old srcOffset size : ℕ}
    (hold : up.getLast? = some old) (hmemq : (s.world.objects old).memq = [])
    (hpager : (s.world.objects old).pagerCreated = false)
    (hprotected : ∀ f, (s.world.objects old).size ≤ f → f < srcOffset + size →
      s.writable f = false) :
    CopyInv { s with
      world := s.world.modify old fun object => { object with
        refCount := object.refCount + 1
        size := if object.size < srcOffset + size then srcOffset + size else object.size }
      snapshots := s.snapshots ++ [⟨old, srcOffset + size, s.sourcePage⟩] } up := by
  obtain ⟨g, hg⟩ : ∃ g : VmObject D → VmObject D, g = fun object => { object with
      refCount := object.refCount + 1
      size := if object.size < srcOffset + size then srcOffset + size else object.size } :=
    ⟨_, rfl⟩
  rw [← hg]
  obtain ⟨s', hs'⟩ : ∃ s' : CopyState D, s' = { s with
      world := s.world.modify old g
      snapshots := s.snapshots ++ [⟨old, srcOffset + size, s.sourcePage⟩] } := ⟨_, rfl⟩
  rw [← hs']
  have hobj : ∀ y, y ≠ old → s'.world.objects y = s.world.objects y := by
    intro y hy
    rw [hs']
    exact modify_objects_ne _ hy _
  have hself : s'.world.objects old = g (s.world.objects old) := by
    rw [hs']
    exact modify_objects_self ..
  have hfield : ∀ {β : Type} (k : VmObject D → β), (∀ o, k (g o) = k o) →
      ∀ y, k (s'.world.objects y) = k (s.world.objects y) := by
    intro β k hk y
    rw [hs']
    exact modify_field k hk ..
  have hk : AllKept s s' up := by
    refine ⟨by rw [hs'], by rw [hs'], by rw [hs'], by rw [hs']; rfl, fun x _ => ?_⟩
    constructor
    · exact hfield (·.memq) (fun o => by rw [hg]) x
    · exact hfield (·.pager) (fun o => by rw [hg]) x
    · exact hfield (·.pagerCreated) (fun o => by rw [hg]) x
    · exact hfield (·.pagingOffset) (fun o => by rw [hg]) x
    · exact hfield (·.existenceMap) (fun o => by rw [hg]) x
    · exact hfield (·.shadowOffset) (fun o => by rw [hg]) x
  have hsize : (s.world.objects old).size ≤ (s'.world.objects old).size ∧
      srcOffset + size ≤ (s'.world.objects old).size := by
    rw [hself, hg]
    dsimp only
    split <;> omega
  have hcov : ∀ f, f < (s'.world.objects old).size →
      f < (s.world.objects old).size ∨ f < srcOffset + size := by
    intro f hf
    rw [hself, hg] at hf
    dsimp only at hf
    split at hf
    · exact .inr hf
    · exact .inl hf
  obtain ⟨l, rfl⟩ := List.getLast?_eq_some_iff.mp hold
  have holdl : ∀ x ∈ l, x ≠ old := fun x hx =>
    (nodup_append.mp (nodup_append.mp h.nodup).1).2.2 x hx old (by simp)
  refine ⟨?_, ?_, ?_, ?_, ?_, fun c hc => ?_, ?_, fun f hw => ?_, fun hz c hc f hf hw => ?_,
    fun p hp => ?_⟩
  · rw [hk.src, hk.base]
    exact Layers.Chain.congr h.chain fun x _ => hfield (·.shadow) (fun o => by rw [hg]) x
  · rw [hk.src, hfield (·.copy) fun o => by rw [hg]]
    exact h.copy
  · obtain ⟨h1, -, h2⟩ := pairwise_append.mp h.sizes
    refine pairwise_append.mpr ⟨?_, pairwise_singleton .., fun a ha b hb => ?_⟩
    · refine h1.imp_of_mem fun ha hb hab => ?_
      rw [hobj _ (holdl _ ha), hobj _ (holdl _ hb)]
      exact hab
    have := h2 a ha b hb
    rw [mem_singleton] at hb
    subst hb
    rw [hobj _ (holdl a ha)]
    exact this.trans hsize.1
  · rw [hk.src, hk.base, hs']
    exact h.fresh
  · rw [hk.src]
    unfold VmObject.Present
    rw [(hk.objects s.src (by simp)).memq]
    exact h.source
  · exact (hk.objects c (mem_append_left _ hc)).copyOk hk.pagers (h.copies c hc)
  · rw [hk.src, hk.base]
    exact hk.pagersApart h
  · rw [hk.src, vmPageLookup, (hk.objects s.src (by simp)).memq]
    exact h.writable f (by rwa [hs'] at hw)
  · obtain rfl : old = c := some.inj (hold.symm.trans hc)
    have hw' : s.writable f = true := by rwa [hs'] at hw
    rw [(hk.objects old (by simp)).own hk.pagers]
    by_cases hf' : f < (s.world.objects old).size
    · exact h.guarded (by rwa [hs'] at hz) old hold f hf' hw'
    · have := hprotected f (by omega) ((hcov f hf).resolve_left hf')
      rw [this] at hw'
      cases hw'
  · rw [hs'] at hp
    rcases mem_append.mp hp with hp | hp
    · obtain ⟨hle, pre, post, hup, hseen⟩ := h.snapshots p hp
      refine ⟨?_, pre, post, hup, fun f hf => ?_⟩
      · by_cases hp' : p.copy = old
        · rw [hp'] at hle ⊢
          omega
        · rwa [hobj _ hp']
      · rw [hk.sourcePage, hk.pushed fun x hx => by
          rw [hup]
          exact mem_append_right _ hx]
        exact hseen f hf
    · rw [mem_singleton] at hp
      subst hp
      refine ⟨hsize.2, l, [], rfl, fun f _ => ?_⟩
      -- nothing was pushed into the last copy
      have hok := h.copies old (by simp)
      have hnone : s.world.own old f = none := by
        have hp : (s.world.objects old).pager = none := by
          rwa [hok.pager, isSome_eq_false_iff, isNone_iff_eq_none] at hpager
        rw [VmWorld.own, hok.present.resident_eq, hmemq, VmWorld.pagedOut, hp]
        rfl
      rw [hk.sourcePage, hk.pushed fun x hx => by
        rw [mem_singleton.mp hx]
        simp]
      show ((s.world.own old f).or none).getD (s.sourcePage f) = s.sourcePage f
      rw [hnone]
      rfl

/-- The world after a copy was made with a new object. -/
structure NewCopy (s s' : CopyState D) (up : List ℕ) (n n' : ℕ) : Prop extends
    AllKept s s' up where
  fresh : s'.fresh = s.fresh + 1
  writable : s'.writable = s.writable
  waits : s'.waits ≠ 0
  snapshots : s'.snapshots = s.snapshots ++ [⟨s.fresh, n, s.sourcePage⟩]
  copy : (s'.world.objects s.src).copy = some s.fresh
  size : ∀ x ∈ up, (s'.world.objects x).size = (s.world.objects x).size
  last : ∀ old, up.getLast? = some old → (s'.world.objects old).shadow = some s.fresh
  shadow : ∀ x ∈ up ++ s.src :: s.base, up.getLast? ≠ some x →
    (s'.world.objects x).shadow = (s.world.objects x).shadow
  new : s'.world.objects s.fresh = { vmObjectAllocate n' with
    refCount := (s'.world.objects s.fresh).refCount, shadow := some s.src }
  covers : n ≤ n'
  covers_last : ∀ old, up.getLast? = some old → (s.world.objects old).size ≤ n'

section

variable (h : CopyInv s up)
include h

theorem CopyInv.ne_fresh : ∀ x ∈ up ++ s.src :: s.base, x ≠ s.fresh :=
  fun x hx => (h.fresh x hx).ne

/-- **A new copy is made.** -/
theorem CopyInv.newCopy {n n' : ℕ} (hk : NewCopy s s' up n n') : CopyInv s' (up ++ [s.fresh]) := by
  have hnew := h.ne_fresh
  have hnotlast : ∀ x ∈ s.src :: s.base, up.getLast? ≠ some x := fun x hx he =>
    (nodup_append.mp h.nodup).2.2 x (List.mem_of_getLast? he) x hx rfl
  have hshadow : (s'.world.objects s.fresh).shadow = some s.src := by rw [hk.new]
  have hbelow : Layers.Chain s'.world.shadowOf (some s.src) (s.src :: s.base) :=
    Layers.Chain.congr h.chain.drop fun x hx =>
      hk.shadow x (mem_append_right _ hx) (hnotlast x hx)
  have hnone : s'.world.own s.fresh = fun _ => none := by
    funext f
    unfold VmWorld.own VmObject.resident VmWorld.pagedOut vmPageLookup
    rw [hk.new]
    rfl
  have hmem : ∀ x ∈ up ++ [s.fresh] ++ s.src :: s.base,
      x = s.fresh ∨ x ∈ up ++ s.src :: s.base := by
    intro x hx
    rw [append_assoc, mem_append, mem_append, mem_singleton] at hx
    rw [mem_append]
    tauto
  refine ⟨?_, ?_, ?_, fun x hx => ?_, ?_, fun c hc => ?_,
    ⟨fun x hx y hy pager hpx hpy => ?_, fun x hx pager hpx => ?_, (hk.pagersApart h).empty⟩,
    fun f hw => ?_, fun hz => ?_, fun p hp => ?_⟩
  · rw [hk.src, hk.base]
    have hend : Layers.Chain s'.world.shadowOf (some s.fresh) (s.fresh :: s.src :: s.base) :=
      ⟨rfl, show Layers.Chain _ (s'.world.objects s.fresh).shadow _ by rwa [hshadow]⟩
    rcases eq_nil_or_concat up with rfl | ⟨l, old, rfl⟩
    · exact hend
    rw [concat_eq_append] at h hk hnotlast
    have hlast : (l ++ [old]).getLast? = some old := by simp
    have hold : Layers.Chain s'.world.shadowOf (some old) (old :: s.fresh :: s.src :: s.base) :=
      ⟨rfl, show Layers.Chain _ (s'.world.objects old).shadow _ by rwa [hk.last old hlast]⟩
    have hchain := h.chain
    rw [append_assoc] at hchain
    have hrep := Layers.Chain.replace hchain (fun x hx => hk.shadow x (by simp [hx]) fun he => by
      rw [hlast] at he
      exact (nodup_append.mp (nodup_append.mp h.nodup).1).2.2 x hx old (by simp)
        (some.inj he).symm) hold
    rw [concat_eq_append, append_assoc, append_assoc]
    have hhead : (l ++ ([old] ++ s.src :: s.base)).head? =
        (l ++ ([old] ++ ([s.fresh] ++ s.src :: s.base))).head? := by
      cases l <;> rfl
    rw [← hhead]
    exact hrep
  · rw [hk.src, hk.copy]
    simp
  · refine pairwise_append.mpr ⟨?_, pairwise_singleton .., fun a ha b hb => ?_⟩
    · refine h.sizes.imp_of_mem fun ha hb hab => ?_
      rw [hk.size _ ha, hk.size _ hb]
      exact hab
    · rw [mem_singleton] at hb
      subst hb
      rw [hk.size a ha, hk.new]
      obtain ⟨pre, post, hup⟩ := append_of_mem ha
      obtain ⟨last, hlast⟩ : ∃ last, up.getLast? = some last := by
        rw [hup, List.getLast?_append_of_ne_nil _ (cons_ne_nil a post)]
        exact isSome_iff_exists.mp (by simp)
      exact (h.size_le_last hup hlast).1.trans (hk.covers_last last hlast)
  · rw [hk.src, hk.base] at hx
    rw [hk.fresh]
    rcases hmem x hx with rfl | hx
    · omega
    · have := h.fresh x hx
      omega
  · rw [hk.src]
    unfold VmObject.Present
    rw [(hk.objects s.src (by simp)).memq]
    exact h.source
  · rcases mem_append.mp hc with hc | hc
    · exact (hk.objects c (mem_append_left _ hc)).copyOk hk.pagers (h.copies c hc)
    · rw [mem_singleton] at hc
      subst hc
      refine ⟨?_, ?_, ?_, fun bits hbits => ?_⟩
      · rw [hk.new]
        exact fun p hp => absurd hp not_mem_nil
      · rw [hk.new]
        rfl
      · rw [hk.new]
        rfl
      · rw [hk.new] at hbits
        cases hbits
  · rw [hk.src, hk.base] at hx hy
    have hno : ∀ y, (s'.world.objects y).pager = some pager → y ≠ s.fresh := by
      rintro y hpy rfl
      rw [hk.new] at hpy
      cases hpy
    exact (hk.pagersApart h).apart x ((hmem x hx).resolve_left (hno x hpx)) y
      ((hmem y hy).resolve_left (hno y hpy)) pager hpx hpy
  · rw [hk.src, hk.base] at hx
    rcases hmem x hx with rfl | hx
    · rw [hk.new] at hpx
      cases hpx
    · exact (hk.pagersApart h).old x hx pager hpx
  · rw [hk.writable] at hw
    rw [hk.src, vmPageLookup, (hk.objects s.src (by simp)).memq]
    exact h.writable f hw
  · exact absurd hz hk.waits
  · rw [hk.snapshots] at hp
    rcases mem_append.mp hp with hp | hp
    · obtain ⟨hle, pre, post, hup, hseen⟩ := h.snapshots p hp
      have hsub : ∀ x ∈ p.copy :: post, x ∈ up := by
        intro x hx
        rw [hup]
        exact mem_append_right _ hx
      refine ⟨?_, pre, post ++ [s.fresh], ?_, fun f hf => ?_⟩
      · rwa [hk.size _ (hsub _ mem_cons_self)]
      · rw [hup, append_assoc, cons_append]
      · have hzero : ∀ x ∈ p.copy :: post, s'.world.shadowOffsetOf x = 0 := fun x hx =>
          (hk.objects x (mem_append_left _ (hsub x hx))).shadowOffset.trans
            (h.copies x (hsub x hx)).offset
        have hpush : s'.pushed (p.copy :: (post ++ [s.fresh])) f = s.pushed (p.copy :: post) f := by
          rw [← hk.pushed hsub, ← cons_append]
          unfold CopyState.pushed VmWorld.contents
          rw [Layers.contents_concat hzero, hnone, or_none]
        rw [hpush, hk.sourcePage]
        exact hseen f hf
    · rw [mem_singleton] at hp
      subst hp
      refine ⟨?_, up, [], rfl, fun f _ => ?_⟩
      · rw [hk.new]
        exact hk.covers
      · rw [hk.sourcePage]
        show ((s'.world.own s.fresh f).or none).getD (s.sourcePage f) = s.sourcePage f
        rw [hnone]
        rfl

theorem CopyInv.attach {n n' : ℕ} {world : VmWorld D} (hpagers : world.pagers = s.world.pagers)
    (hnew : world.objects s.fresh = { vmObjectAllocate n' with
      refCount := (world.objects s.fresh).refCount })
    (hold : ∀ old, up.getLast? = some old → (world.objects old).shadow = some s.fresh)
    (hkept : ∀ x ∈ up ++ s.src :: s.base, PagesKept (s.world.objects x) (world.objects x) ∧
      (world.objects x).size = (s.world.objects x).size ∧
      (up.getLast? ≠ some x → (world.objects x).shadow = (s.world.objects x).shadow))
    (hn : n ≤ n') (hlast : ∀ old, up.getLast? = some old → (s.world.objects old).size ≤ n') :
    CopyInv { attachCopy s s.fresh n' world with
      snapshots := s.snapshots ++ [⟨s.fresh, n, s.sourcePage⟩] } (up ++ [s.fresh]) := by
  have hnot := h.ne_fresh
  have hsrc : s.src ≠ s.fresh := hnot _ (by simp)
  -- the objects at the end
  have hob : ∀ x, x ≠ s.fresh → x ≠ s.src →
      (attachCopy s s.fresh n' world).world.objects x = world.objects x := by
    intro x hx1 hx2
    unfold attachCopy
    dsimp only
    rw [modify_objects_ne _ hx2, modify_objects_ne _ hx1]
  have hos : (attachCopy s s.fresh n' world).world.objects s.src =
      { world.objects s.src with
        refCount := (world.objects s.src).refCount + 1, copy := some s.fresh } := by
    unfold attachCopy
    dsimp only
    rw [modify_objects_self, modify_objects_ne _ hsrc]
  have hof : (attachCopy s s.fresh n' world).world.objects s.fresh =
      { world.objects s.fresh with size := n', shadow := some s.src, shadowOffset := 0 } := by
    unfold attachCopy
    dsimp only
    rw [modify_objects_ne _ hsrc.symm, modify_objects_self]
  have hfield : ∀ {β : Type} (k : VmObject D → β),
      (∀ (o : VmObject D) r c, k { o with refCount := r, copy := c } = k o) →
      ∀ x ∈ up ++ s.src :: s.base,
        k ((attachCopy s s.fresh n' world).world.objects x) = k (world.objects x) := by
    intro β k hk x hx
    by_cases hxs : x = s.src
    · subst hxs
      rw [hos, hk]
    · rw [hob x (hnot x hx) hxs]
  refine h.newCopy (n := n) ⟨⟨rfl, rfl, rfl, hpagers, fun x hx => ?_⟩, rfl, rfl,
    Nat.succ_ne_zero _, rfl, ?_,
    fun x hx => ?_, fun old ho => ?_, fun x hx hl => ?_, ?_, hn, hlast⟩
  · obtain ⟨hx', -, -⟩ := hkept x hx
    constructor
    · exact (hfield (·.memq) (fun _ _ _ => rfl) x hx).trans hx'.memq
    · exact (hfield (·.pager) (fun _ _ _ => rfl) x hx).trans hx'.pager
    · exact (hfield (·.pagerCreated) (fun _ _ _ => rfl) x hx).trans hx'.pagerCreated
    · exact (hfield (·.pagingOffset) (fun _ _ _ => rfl) x hx).trans hx'.pagingOffset
    · exact (hfield (·.existenceMap) (fun _ _ _ => rfl) x hx).trans hx'.existenceMap
    · exact (hfield (·.shadowOffset) (fun _ _ _ => rfl) x hx).trans hx'.shadowOffset
  · dsimp only
    rw [hos]
  · have hx' : x ∈ up ++ s.src :: s.base := mem_append_left _ hx
    exact (hfield (·.size) (fun _ _ _ => rfl) x hx').trans (hkept x hx').2.1
  · have hx' : old ∈ up ++ s.src :: s.base := mem_append_left _ (List.mem_of_getLast? ho)
    exact (hfield (·.shadow) (fun _ _ _ => rfl) old hx').trans (hold old ho)
  · exact (hfield (·.shadow) (fun _ _ _ => rfl) x hx).trans ((hkept x hx).2.2 hl)
  · dsimp only
    rw [hof, hnew]
    rfl

/-- **A copy is made.** -/
theorem CopyInv.copyDelayed {srcOffset size : ℕ} (hp : s.Protected srcOffset size) :
    ∃ up', CopyInv { (vmObjectCopyDelayed s srcOffset size).1 with
      snapshots := s.snapshots ++ [⟨(vmObjectCopyDelayed s srcOffset size).2, srcOffset + size,
        s.sourcePage⟩] } up' := by
  have hnot := h.ne_fresh
  have hsrc : s.src ≠ s.fresh := hnot _ (by simp)
  have hcopy := h.copy
  unfold vmObjectCopyDelayed
  dsimp only
  split
  · next old hold =>
    rw [hold] at hcopy
    have holdup : old ∈ up := List.mem_of_getLast? hcopy.symm
    have hne : old ≠ s.src := fun he => h.src_notMem.1 (he ▸ holdup)
    have hne' : old ≠ s.fresh := hnot old (mem_append_left _ holdup)
    split
    · next hempty =>
      rw [length_eq_zero_iff] at hempty
      exact ⟨up, h.reuse hcopy.symm hempty.1 hempty.2 (hp old hold hempty.1 hempty.2)⟩
    generalize hsize : (if srcOffset + size < (s.world.objects old).size then
      (s.world.objects old).size - srcOffset else size) = size'
    have hle : srcOffset + size ≤ srcOffset + size' ∧
        (s.world.objects old).size ≤ srcOffset + size' := by
      split at hsize <;> omega
    obtain ⟨w, hw⟩ : ∃ w : VmWorld D, w = ((s.world.modify s.fresh fun _ =>
        { vmObjectAllocate (srcOffset + size') with refCount := 2 }).modify s.src fun object =>
          { object with refCount := object.refCount - 1 }).modify old fun object =>
            { object with shadow := some s.fresh } := ⟨_, rfl⟩
    rw [← hw]
    have hnew : w.objects s.fresh =
        { vmObjectAllocate (srcOffset + size') with refCount := 2 } := by
      rw [hw, modify_objects_ne _ hne'.symm, modify_objects_ne _ hsrc.symm, modify_objects_self]
    have hso : w.objects s.src = { s.world.objects s.src with
        refCount := (s.world.objects s.src).refCount - 1 } := by
      rw [hw, modify_objects_ne _ hne.symm, modify_objects_self, modify_objects_ne _ hsrc]
    have hoo : w.objects old = { s.world.objects old with shadow := some s.fresh } := by
      rw [hw, modify_objects_self, modify_objects_ne _ hne, modify_objects_ne _ hne']
    refine ⟨_, h.attach (by rw [hw]; rfl) (by rw [hnew]) (fun o ho => ?_) (fun x hx => ?_) hle.1
      fun o ho => ?_⟩
    · obtain rfl : old = o := some.inj (hcopy.trans ho)
      rw [hoo]
    · by_cases hxo : x = old
      · subst hxo
        rw [hoo]
        exact ⟨⟨rfl, rfl, rfl, rfl, rfl, rfl⟩, rfl, fun hl => absurd hcopy.symm hl⟩
      by_cases hxs : x = s.src
      · subst hxs
        rw [hso]
        exact ⟨⟨rfl, rfl, rfl, rfl, rfl, rfl⟩, rfl, fun _ => rfl⟩
      have hxx : w.objects x = s.world.objects x := by
        rw [hw, modify_objects_ne _ hxo, modify_objects_ne _ hxs,
          modify_objects_ne _ (hnot x hx)]
      rw [hxx]
      exact ⟨⟨rfl, rfl, rfl, rfl, rfl, rfl⟩, rfl, fun _ => rfl⟩
    · obtain rfl : old = o := some.inj (hcopy.trans ho)
      exact hle.2
  · next hnone =>
    rw [hnone] at hcopy
    have hno : ∀ old, up.getLast? ≠ some old := fun old ho => by
      rw [← hcopy] at ho
      cases ho
    refine ⟨_, h.attach rfl ?_ (fun old ho => absurd ho (hno old)) (fun x hx => ?_) le_rfl
      fun old ho => absurd ho (hno old)⟩
    · rw [modify_objects_self]
    · rw [modify_objects_ne _ (hnot x hx)]
      exact ⟨⟨rfl, rfl, rfl, rfl, rfl, rfl⟩, rfl, fun _ => rfl⟩

/-- **One event.** -/
theorem CopyInv.step {op : CopyOp D} (hs : copyStep s op = some s') (hp : op.Safe s) :
    ∃ up', CopyInv s' up' := by
  cases op with
  | copyDelayed srcOffset size =>
    cases hs
    exact h.copyDelayed hp
  | protect =>
    obtain ⟨-, ⟨⟩⟩ := ite_none_left_eq_some.mp hs
    exact ⟨up, h.protect⟩
  | write f v =>
    cases hs
    exact ⟨up, h.write f v hp⟩
  | pageOut x f mapped =>
    rw [copyStep] at hs
    split at hs
    · next hx =>
      refine ⟨up, h.pageOut (hx.imp_right fun hx => ?_) hs⟩
      obtain ⟨p, hpm, rfl⟩ := mem_map.mp hx
      obtain ⟨-, pre, post, hup, -⟩ := h.snapshots p hpm
      rw [hup]
      simp
    · cases hs

theorem CopyInv.run {ops : List (CopyOp D)} (hs : copyRun s ops = some s')
    (hp : CopiesProtected s ops) : ∃ up', CopyInv s' up' :=
  Trace.invariant (I := fun s => ∃ up, CopyInv s up) (fun _ _ _ ⟨_, h⟩ hp hs => h.step hs hp)
    ops s s' ⟨up, h⟩ hp hs

end

/-- A source with two pages in memory and no copy. -/
def twoPages : CopyState ℕ where
  world :=
    { objects := fun x =>
        if x = 0 then { (vmObjectAllocate 2 : VmObject ℕ) with
          memq := [⟨0, false, 4⟩, ⟨1, false, 5⟩] }
        else vmObjectAllocate 0
      pagers := fun _ _ => none }
  src := 0
  base := []
  writable := fun _ => false
  waits := 0
  fresh := 1
  freshPager := 0
  snapshots := []

end Osfmk

import Osfmk.Server.UserMemory

/-!
# The lists and the mappings of the cache

What holds of the cache between two sections under the master lock: which regions are on which list, and
that each region is mapped in the server, apart from all others.  Each function of the cache is described
by what it changes, and keeps both.
-/

set_option linter.unusedSectionVars false

open Function (update update_apply update_of_ne update_self)
open List Option

namespace Osfmk

/-- A page of the server that belongs to a region. -/
def UmRegion.Covers {T : Type} (x : UmRegion T) (p : ℕ) : Prop :=
  x.svrAddr / umPage ≤ p ∧ p < x.svrAddr / umPage + x.size / umPage

/-- The pages of a region in the server are aliases of its pages in the task. -/
structure UmRegion.Mapped {T : Type} (x : UmRegion T) (server : ℕ → Option (T × ℕ)) : Prop where
  nonempty : 0 < x.size
  svrAligned : x.svrAddr % umPage = 0
  sizeAligned : x.size % umPage = 0
  svrEnd : x.svrAddr + x.size ≤ 2 ^ 32
  userEnd : x.userPage * umPage + x.size ≤ 2 ^ 32
  shares : ∀ i < x.size / umPage, server (x.svrAddr / umPage + i) = some (x.task, x.userPage + i)

namespace Cache

variable {T R : Type} [DecidableEq T] [DecidableEq R]

/-- A region that is in the cache. -/
def Linked (s : Cache T R) (r : R) (x : UmRegion T) : Prop := s.regions r = some x ∧ r ∈ s.mru

/-- The lists of the cache. -/
structure Lists (s : Cache T R) : Prop where
  live : ∀ r ∈ s.mru, ∃ x, s.regions r = some x
  chain : ∀ h r, r ∈ s.chain h ↔ ∃ x, s.Linked r x ∧ h = userMemoryHash (s.pid x.task) x.userPage
  intask : ∀ t r, r ∈ s.intask t ↔ ∃ x, s.Linked r x ∧ x.task = t
  mruNodup : s.mru.Nodup
  chainNodup : ∀ h, (s.chain h).Nodup
  intaskNodup : ∀ t, (s.intask t).Nodup
  hint1 : ∀ t r, s.umHint1 t = some r → ∃ x, s.Linked r x ∧ x.task = t
  hint2 : ∀ t r, s.umHint2 t = some r → ∃ x, s.Linked r x ∧ x.task = t

/-- The mappings of the regions. -/
structure Frames (s : Cache T R) : Prop where
  mapped : ∀ r x, s.regions r = some x → x.Mapped s.server
  apart : ∀ r q x y p, s.regions r = some x → s.regions q = some y → x.Covers p → y.Covers p → r = q

variable {s s' : Cache T R} {r : R} {x : UmRegion T}

theorem setRegion_self (s : Cache T R) (r : R) (x : UmRegion T) : (s.setRegion r x).regions r = some x :=
  update_self _ _ _

variable {res : Option R} {svr : Option ℕ} {q : R} {t task : T} {y : UmRegion T} {a p size ua : ℕ}
  {server : ℕ → Option (T × ℕ)}

theorem setRegion_of_ne (hq : q ≠ r) : (s.setRegion r x).regions q = s.regions q :=
  update_of_ne hq _ _

theorem insertMru_eq (h : s.insertMru r = some s') :
    ∃ f o, s' = { s with mru := r :: s.mru, fresh := f, oldestFresh := o } := by
  unfold insertMru at h
  dsimp only at h
  split at h
  · obtain ⟨o, -, h⟩ := bind_eq_some_iff.mp h
    obtain ⟨p, -, rfl⟩ := map_eq_some_iff.mp h
    exact ⟨_, _, rfl⟩
  split at h
  · cases h
    exact ⟨_, _, rfl⟩
  · cases h
    exact ⟨_, _, rfl⟩

theorem deleteMru_eq (h : s.deleteMru r = some s') :
    ∃ f o, s' = { s with mru := s.mru.erase r, fresh := f, oldestFresh := o } := by
  obtain ⟨s1, h1, rfl⟩ := map_eq_some_iff.mp h
  unfold refreshMru at h1
  split at h1
  · obtain ⟨o, -, h1⟩ := bind_eq_some_iff.mp h1
    obtain ⟨p, -, rfl⟩ := map_eq_some_iff.mp h1
    exact ⟨_, _, rfl⟩
  · cases h1
    exact ⟨_, _, rfl⟩

theorem dropHints_eq (s : Cache T R) (r : R) (t : T) :
    ∃ h1 h2, s.dropHints r t = { s with umHint1 := h1, umHint2 := h2 } ∧
      ∀ u q, h1 u = some q ∨ h2 u = some q →
        (s.umHint1 u = some q ∨ s.umHint2 u = some q) ∧ (u = t → q ≠ r) := by
  unfold dropHints
  dsimp only
  split
  · next h2 =>
    split
    · refine ⟨_, _, rfl, fun u q hq => ?_⟩
      grind
    · refine ⟨_, _, rfl, fun u q hq => ?_⟩
      grind
  next h2 =>
  split
  · refine ⟨_, _, rfl, fun u q hq => ?_⟩
    grind
  · refine ⟨_, _, rfl, fun u q hq => ?_⟩
    grind

theorem addHint_eq (s : Cache T R) (t : T) (r : R) :
    ∃ h1 h2, s.addHint t r = { s with umHint1 := h1, umHint2 := h2 } := by
  unfold addHint
  split
  · exact ⟨_, _, rfl⟩
  split
  · exact ⟨_, _, rfl⟩
  · exact ⟨_, _, rfl⟩

theorem userMemoryDelete_eq {b : Bool} (h : s.userMemoryDelete r b = some s') :
    ∃ x, s.regions r = some x ∧ r ∈ s.chain (userMemoryHash (s.pid x.task) x.userPage) ∧
      ∃ f o h1 h2, s' = { s with
          mru := s.mru.erase r
          fresh := f
          oldestFresh := o
          umHint1 := h1
          umHint2 := h2
          intask := if b then update s.intask x.task ((s.intask x.task).erase r)
            else s.intask
          chain := update s.chain (userMemoryHash (s.pid x.task) x.userPage)
            ((s.chain (userMemoryHash (s.pid x.task) x.userPage)).erase r) } ∧
        ∀ u q, h1 u = some q ∨ h2 u = some q →
          (s.umHint1 u = some q ∨ s.umHint2 u = some q) ∧ (u = x.task → q ≠ r) := by
  obtain ⟨x, hx, h⟩ := bind_eq_some_iff.mp h
  obtain ⟨s1, h1, h⟩ := bind_eq_some_iff.mp h
  obtain ⟨f, o, rfl⟩ := deleteMru_eq h1
  obtain ⟨g1, g2, hg, hgs⟩ := dropHints_eq
    { s with mru := s.mru.erase r, fresh := f, oldestFresh := o } r x.task
  rw [hg] at h
  refine ⟨x, hx, ?_⟩
  cases b
  · simp only [Bool.false_eq_true, if_false] at h ⊢
    obtain ⟨hc, ⟨⟩⟩ := ite_none_right_eq_some.mp h
    exact ⟨hc, f, o, g1, g2, rfl, hgs⟩
  simp only [if_true] at h ⊢
  obtain ⟨hc, ⟨⟩⟩ := ite_none_right_eq_some.mp h
  exact ⟨hc, f, o, g1, g2, rfl, hgs⟩

theorem and_exists_and {P Q : UmRegion T → Prop} {b c : Prop} :
    (b ∧ ∃ y, (P y ∧ c) ∧ Q y) ↔ ∃ y, (P y ∧ b ∧ c) ∧ Q y := by
  constructor
  · rintro ⟨hb, y, ⟨hp, hc⟩, hq⟩
    exact ⟨y, ⟨hp, hb, hc⟩, hq⟩
  · rintro ⟨y, ⟨hp, hb, hc⟩, hq⟩
    exact ⟨hb, y, ⟨hp, hc⟩, hq⟩

section

variable (hl : s.Lists)
include hl

theorem Lists.delete (h : s.userMemoryDelete r true = some s') :
    s'.Lists ∧ s'.regions = s.regions ∧ s'.server = s.server ∧ s'.user = s.user ∧
      s'.mru = s.mru.erase r ∧ s'.pid = s.pid ∧ s'.machAware = s.machAware ∧
      (∀ t, s'.intask t = (s.intask t).erase r) := by
  obtain ⟨x, hx, hc, f, o, h1, h2, rfl, hh⟩ := userMemoryDelete_eq h
  have hmem : ∀ q, q ∈ s.mru.erase r ↔ q ≠ r ∧ q ∈ s.mru := fun q => hl.mruNodup.mem_erase_iff
  -- a hint that is left is linked: it is not the region
  have hint : ∀ u q, h1 u = some q ∨ h2 u = some q →
      ∃ y, s.regions q = some y ∧ q ∈ s.mru.erase r ∧ y.task = u := by
    intro u q hq
    obtain ⟨hold, hne⟩ := hh u q hq
    obtain ⟨y, ⟨hy, hm⟩, rfl⟩ : ∃ y, s.Linked q y ∧ y.task = u :=
      hold.elim (hl.hint1 u q) (hl.hint2 u q)
    refine ⟨y, hy, (hmem q).mpr ⟨fun hqr => ?_, hm⟩, rfl⟩
    rw [hqr, hx] at hy
    exact hne (by rw [some.inj hy]) hqr
  have htask : ∀ t, update s.intask x.task ((s.intask x.task).erase r) t =
      (s.intask t).erase r := by
    intro t
    by_cases ht : t = x.task
    · rw [ht, update_self]
    rw [update_of_ne ht, erase_of_not_mem]
    intro hr
    obtain ⟨y, hy, rfl⟩ := (hl.intask t r).mp hr
    rw [hy.1] at hx
    exact ht (by rw [some.inj hx])
  refine ⟨⟨fun q hq => hl.live q ((hmem q).mp hq).2, fun k q => ?_, fun t q => ?_,
    hl.mruNodup.erase r, fun k => ?_, fun t => ?_, fun t q hq => ?_, fun t q hq => ?_⟩, rfl, rfl, rfl,
    rfl, rfl, rfl, htask⟩
  · by_cases hk : k = userMemoryHash (s.pid x.task) x.userPage
    · dsimp only
      rw [hk, update_self, (hl.chainNodup _).mem_erase_iff, hl.chain]
      simp only [Linked, hmem]
      exact and_exists_and
    · dsimp only
      rw [update_of_ne hk, hl.chain]
      simp only [Linked, hmem]
      constructor
      · rintro ⟨y, ⟨hy, hm⟩, he⟩
        refine ⟨y, ⟨hy, fun hqr => ?_, hm⟩, he⟩
        rw [hqr, hx] at hy
        exact hk (by rw [he, some.inj hy])
      · rintro ⟨y, ⟨hy, -, hm⟩, he⟩
        exact ⟨y, ⟨hy, hm⟩, he⟩
  · dsimp only
    rw [if_pos rfl, htask, (hl.intaskNodup t).mem_erase_iff, hl.intask]
    simp only [Linked, hmem]
    exact and_exists_and
  · dsimp only
    rw [update_apply]
    split
    · exact (hl.chainNodup _).erase r
    · exact hl.chainNodup k
  · dsimp only
    rw [if_pos rfl, htask]
    exact (hl.intaskNodup t).erase r
  · obtain ⟨y, hy, hm, ht⟩ := hint t q (Or.inl hq)
    exact ⟨y, ⟨hy, hm⟩, ht⟩
  · obtain ⟨y, hy, hm, ht⟩ := hint t q (Or.inr hq)
    exact ⟨y, ⟨hy, hm⟩, ht⟩

theorem Lists.of_linked {f : R → Option (UmRegion T)} {g : ℕ → Option (T × ℕ)}
    (hlinked : ∀ q y, { s with regions := f, server := g }.Linked q y ↔ s.Linked q y) :
    { s with regions := f, server := g }.Lists := by
  refine ⟨fun q hq => ?_, fun k q => ?_, fun t q => ?_, hl.mruNodup, hl.chainNodup, hl.intaskNodup,
    fun t q hq => ?_, fun t q hq => ?_⟩
  · obtain ⟨y, hy⟩ := hl.live q hq
    exact ⟨y, ((hlinked q y).mpr ⟨hy, hq⟩).1⟩
  · simp only [hlinked]
    exact hl.chain k q
  · simp only [hlinked]
    exact hl.intask t q
  · simp only [hlinked]
    exact hl.hint1 t q hq
  · simp only [hlinked]
    exact hl.hint2 t q hq

theorem Lists.unmap (hr : r ∉ s.mru) : (s.unmapRegion r x).Lists := by
  refine hl.of_linked fun q y => ?_
  simp only [Linked, update_apply]
  split
  · next hq =>
    rw [hq]
    exact ⟨fun h => (by cases h.1), fun h => absurd h.2 hr⟩
  · rfl

theorem Lists.setRegion (hx : s.regions r = some x)
    (ht : y.task = x.task) (hp : y.userPage = x.userPage) : (s.setRegion r y).Lists := by
  -- what is said about linked regions depends on these two only
  have hlinked : ∀ (P : T → ℕ → Prop) q, (∃ z, (s.setRegion r y).Linked q z ∧ P z.task z.userPage) ↔
      ∃ z, s.Linked q z ∧ P z.task z.userPage := by
    intro P q
    by_cases hq : q = r
    · subst hq
      simp [Linked, Cache.setRegion, hx, ht, hp]
    · simp [Linked, Cache.setRegion, update_of_ne hq]
  refine ⟨fun q hq => ?_, fun k q => ?_, fun t q => ?_, hl.mruNodup, hl.chainNodup, hl.intaskNodup,
    fun t q hq => ?_, fun t q hq => ?_⟩
  · obtain ⟨z, hz⟩ := hl.live q hq
    by_cases hqr : q = r
    · exact ⟨y, by simp [Cache.setRegion, hqr]⟩
    · exact ⟨z, by simpa [Cache.setRegion, update_of_ne hqr] using hz⟩
  · exact (hl.chain k q).trans (hlinked (fun t p => k = userMemoryHash (s.pid t) p) q).symm
  · exact (hl.intask t q).trans (hlinked (fun u _ => u = t) q).symm
  · exact (hlinked (fun u _ => u = t) q).mpr (hl.hint1 t q hq)
  · exact (hlinked (fun u _ => u = t) q).mpr (hl.hint2 t q hq)

theorem Lists.notMem_mru (hr : s.regions r = none) : r ∉ s.mru := by
  intro hm
  obtain ⟨y, hy⟩ := hl.live r hm
  rw [hr] at hy
  cases hy

theorem Lists.alloc (hr : s.regions r = none) : (s.setRegion r x).Lists := by
  have hnot := hl.notMem_mru hr
  refine hl.of_linked fun q y => ?_
  simp only [Linked, update_apply]
  split
  · next hq =>
    rw [hq, hr]
    exact ⟨fun h => absurd h.2 hnot, fun h => absurd h.2 hnot⟩
  · rfl

theorem Lists.link (hx : s.regions r = some x) (hr : r ∉ s.mru) (h : ({ s with
      chain := update s.chain (userMemoryHash (s.pid x.task) x.userPage)
        (r :: s.chain (userMemoryHash (s.pid x.task) x.userPage))
      intask := update s.intask x.task (r :: s.intask x.task) }.insertMru r) = some s') :
    s'.Lists ∧ s'.regions = s.regions ∧ s'.server = s.server ∧ s'.user = s.user ∧
      s'.mru = r :: s.mru ∧ s'.machAware = s.machAware := by
  obtain ⟨f, o, rfl⟩ := insertMru_eq h
  have hold : ∀ q, q ∈ s.mru → q ≠ r := fun q hq hqr => hr (hqr ▸ hq)
  refine ⟨⟨fun q hq => ?_, fun k q => ?_, fun t q => ?_, List.nodup_cons.mpr ⟨hr, hl.mruNodup⟩,
    fun k => ?_, fun t => ?_, fun t q hq => ?_, fun t q hq => ?_⟩, rfl, rfl, rfl, rfl, rfl⟩
  · rcases mem_cons.mp hq with rfl | hq
    · exact ⟨x, hx⟩
    · exact hl.live q hq
  · have hck := hl.chain k q
    simp only [Linked, mem_cons, update_apply] at hck ⊢
    by_cases hqr : q = r
    · subst hqr
      split <;> grind
    · split <;> grind
  · have hti := hl.intask t q
    simp only [Linked, mem_cons, update_apply] at hti ⊢
    by_cases hqr : q = r
    · subst hqr
      split <;> grind
    · split <;> grind
  · dsimp only
    rw [update_apply]
    split
    · refine List.nodup_cons.mpr ⟨fun hm => ?_, hl.chainNodup _⟩
      obtain ⟨y, hy, -⟩ := (hl.chain _ r).mp hm
      exact hr hy.2
    · exact hl.chainNodup k
  · dsimp only
    rw [update_apply]
    split
    · refine List.nodup_cons.mpr ⟨fun hm => ?_, hl.intaskNodup _⟩
      obtain ⟨y, hy, -⟩ := (hl.intask _ r).mp hm
      exact hr hy.2
    · exact hl.intaskNodup t
  · obtain ⟨y, hy, ht⟩ := hl.hint1 t q hq
    exact ⟨y, ⟨hy.1, mem_cons_of_mem r hy.2⟩, ht⟩
  · obtain ⟨y, hy, ht⟩ := hl.hint2 t q hq
    exact ⟨y, ⟨hy.1, mem_cons_of_mem r hy.2⟩, ht⟩

theorem Lists.touch (hr : r ∈ s.mru) (h : s.touch r = some s') :
    s'.Lists ∧ s'.regions = s.regions ∧ s'.server = s.server ∧ s'.user = s.user ∧
      s'.machAware = s.machAware ∧ ∀ q, q ∈ s'.mru ↔ q ∈ s.mru := by
  unfold Cache.touch at h
  split at h
  · cases h
    exact ⟨hl, rfl, rfl, rfl, rfl, fun _ => Iff.rfl⟩
  obtain ⟨s1, h1, h⟩ := bind_eq_some_iff.mp h
  obtain ⟨f, o, rfl⟩ := deleteMru_eq h1
  obtain ⟨g, p, rfl⟩ := insertMru_eq h
  have hperm : (r :: s.mru.erase r).Perm s.mru := (perm_cons_erase hr).symm
  have hlinked : ∀ q y, (s.regions q = some y ∧ q ∈ r :: s.mru.erase r) ↔ s.Linked q y :=
    fun q y => by rw [hperm.mem_iff]; rfl
  refine ⟨⟨fun q hq => hl.live q (hperm.mem_iff.mp hq), fun k q => ?_, fun t q => ?_,
    hperm.nodup_iff.mpr hl.mruNodup, hl.chainNodup, hl.intaskNodup, fun t q hq => ?_,
    fun t q hq => ?_⟩, rfl, rfl, rfl, rfl, fun q => hperm.mem_iff⟩
  · simp only [Linked, hlinked]
    exact hl.chain k q
  · simp only [Linked, hlinked]
    exact hl.intask t q
  · simp only [Linked, hlinked]
    exact hl.hint1 t q hq
  · simp only [Linked, hlinked]
    exact hl.hint2 t q hq

theorem Lists.addHint (hx : s.Linked r x) (ht : x.task = t) :
    (s.addHint t r).Lists := by
  unfold Cache.addHint
  have hset : ∀ {f : T → Option R}, (∀ u q, f u = some q → ∃ y, s.Linked q y ∧ y.task = u) →
      ∀ u q, update f t (some r) u = some q → ∃ y, s.Linked q y ∧ y.task = u := by
    intro f hf u q hq
    rw [update_apply] at hq
    split at hq
    · next hu =>
      rw [hu, ← some.inj hq]
      exact ⟨x, hx, ht⟩
    · exact hf u q hq
  split
  · exact { hl with hint1 := hset hl.hint1 }
  split
  · exact { hl with hint2 := hset hl.hint2 }
  refine { hl with hint1 := fun u q hq => ?_, hint2 := hset hl.hint2 }
  simp only [update_apply] at hq
  split at hq
  · next hu =>
    rw [hu]
    exact hl.hint2 t q hq
  · exact hl.hint1 u q hq

theorem linked_of_onChain {page : ℕ} (h : s.onChain task page = some r) :
    ∃ x, s.Linked r x ∧ x.task = task ∧ x.userPage = page := by
  have hmem := mem_of_find?_eq_some h
  have hp := List.find?_some h
  obtain ⟨x, hx, -⟩ := (hl.chain _ r).mp hmem
  rw [hx.1, any_some, Bool.and_eq_true, decide_eq_true_eq, decide_eq_true_eq] at hp
  exact ⟨x, hx, hp⟩

end

theorem Frames.congr (hf : s.Frames) (hr : s'.regions = s.regions) (hs : s'.server = s.server) :
    s'.Frames := by
  refine ⟨fun r x hx => ?_, fun r q x y p hx hy => ?_⟩
  · rw [hs]
    exact hf.mapped r x (hr ▸ hx)
  · exact hf.apart r q x y p (hr ▸ hx) (hr ▸ hy)

theorem Frames.shares_of_ne (hf : s.Frames) (hx : s.regions r = some x)
    (hy : s.regions q = some y) (hne : q ≠ r) :
    y.Mapped (s.vmDeallocate x.svrAddr x.size).server := by
  have hm := hf.mapped q y hy
  refine { hm with
    shares := ?_ }
  intro i hi
  rw [← hm.shares i hi]
  refine if_neg fun hp => hne (hf.apart q r y x _ hy hx ⟨Nat.le_add_right _ _, ?_⟩ hp)
  omega

theorem Frames.unmap (hf : s.Frames) (hx : s.regions r = some x) : (s.unmapRegion r x).Frames := by
  have hother : ∀ q y, (s.unmapRegion r x).regions q = some y → q ≠ r ∧ s.regions q = some y := by
    intro q y hy
    simp only [unmapRegion, update_apply] at hy
    obtain ⟨hq, hy⟩ := ite_none_left_eq_some.mp hy
    exact ⟨hq, hy⟩
  refine ⟨fun q y hy => ?_, fun q q' y y' p hy hy' => ?_⟩
  · obtain ⟨hne, hy⟩ := hother q y hy
    exact hf.shares_of_ne hx hy hne
  · exact hf.apart q q' y y' p (hother q y hy).2 (hother q' y' hy').2

theorem Frames.setRefCount (hf : s.Frames) (hx : s.regions r = some x) (n : ℕ) :
    (s.setRegion r { x with refCount := n }).Frames := by
  have hcov : ∀ q z, (s.setRegion r { x with refCount := n }).regions q = some z →
      ∃ z' m, s.regions q = some z' ∧ z = { z' with refCount := m } := by
    intro q z hz
    simp only [Cache.setRegion, update_apply] at hz
    split at hz
    · next hq =>
      rw [← some.inj hz, hq]
      exact ⟨x, n, hx, rfl⟩
    · exact ⟨z, z.refCount, hz, rfl⟩
  refine ⟨fun q z hz => ?_, fun q q' z w p hz hw hzp hwp => ?_⟩
  · obtain ⟨z', m, hz', rfl⟩ := hcov q z hz
    have hm := hf.mapped q z' hz'
    exact { hm with }
  · obtain ⟨z', m, hz', rfl⟩ := hcov q z hz
    obtain ⟨w', m', hw', rfl⟩ := hcov q' w hw
    exact hf.apart q q' z' w' p hz' hw' hzp hwp

theorem alignAddrDown_eq (a : ℕ) : alignAddrDown a = addrToPagenum (alignAddrDown a) * umPage := by
  unfold alignAddrDown addrToPagenum
  rw [Nat.mul_div_cancel _ (by decide)]

theorem pagenumToAddr_of_mapped (hm : x.Mapped server) :
    pagenumToAddr x.userPage = x.userPage * umPage := by
  have hpos := hm.nonempty
  have hend := hm.userEnd
  exact Nat.mod_eq_of_lt (by omega)

theorem mapSize_aligned (a n : ℕ) : mapSize a n % umPage = 0 := by
  unfold mapSize alignAddrUp alignAddrDown umWord umPage
  omega

theorem mapRegion_eq
    (h : s.mapRegion task ua size svr = some (s', x)) :
    s.Remappable task (x.userPage * umPage) x.size x.svrAddr ∧
      s' = s.vmRemap task (x.userPage * umPage) x.size x.svrAddr ∧ x.task = task ∧
      x.userPage = ua / umPage ∧ x.size = mapSize ua size ∧ x.refCount = 0 ∧
      x.prot = s.curProtection task x.userPage (x.size / umPage) := by
  obtain ⟨a, -, h⟩ := bind_eq_some_iff.mp h
  obtain ⟨hre, h⟩ := ite_none_right_eq_some.mp h
  cases h
  rw [alignAddrDown_eq] at hre
  refine ⟨hre, ?_, rfl, ?_, rfl, rfl, rfl⟩
  · dsimp only
    rw [← alignAddrDown_eq]
  · exact Nat.mul_div_cancel _ (by decide)

theorem UmRegion.Mapped.server_ne_none (hm : x.Mapped server)
    (hp : x.Covers p) : server p ≠ none := by
  obtain ⟨hlo, hhi⟩ := hp
  have := hm.shares (p - x.svrAddr / umPage) (by omega)
  rw [Nat.add_sub_cancel' hlo] at this
  simp [this]

theorem Frames.not_covers (hf : s.Frames)
    (hre : s.Remappable task ua size a) (hy : s.regions q = some y)
    (hp : a / umPage ≤ p ∧ p < a / umPage + size / umPage) : ¬ y.Covers p := by
  intro hc
  have hnone := (hre.2.2.2.2 (p - a / umPage) (by omega)).2
  rw [Nat.add_sub_cancel' hp.1] at hnone
  exact UmRegion.Mapped.server_ne_none (hf.mapped q y hy) hc hnone

theorem Frames.vmRemap (hf : s.Frames)
    (hre : s.Remappable task ua size a) : (s.vmRemap task ua size a).Frames := by
  refine ⟨fun q y hy => ?_, hf.apart⟩
  have hm := hf.mapped q y hy
  refine { hm with
    shares := ?_ }
  intro i hi
  rw [← hm.shares i hi]
  exact if_neg fun hp => hf.not_covers hre hy hp ⟨Nat.le_add_right _ _, by omega⟩

theorem mapped_vmRemap (hre : s.Remappable task (x.userPage * umPage) x.size x.svrAddr)
    (ht : x.task = task) (hs : x.size % umPage = 0) :
    x.Mapped (s.vmRemap task (x.userPage * umPage) x.size x.svrAddr).server := by
  refine ⟨Nat.pos_of_ne_zero hre.1, hre.2.2.1, hs, hre.2.2.2.1, hre.2.1, fun i hi => ?_⟩
  refine (if_pos ⟨Nat.le_add_right _ _, by omega⟩).trans ?_
  rw [ht, Nat.mul_div_cancel _ (by decide), Nat.add_sub_cancel_left]

theorem Frames.alloc (hf : s.Frames)
    (hre : s.Remappable task (x.userPage * umPage) x.size x.svrAddr) (ht : x.task = task)
    (hs : x.size % umPage = 0) :
    ((s.vmRemap task (x.userPage * umPage) x.size x.svrAddr).setRegion r x).Frames := by
  have hf' := hf.vmRemap hre
  have hcase : ∀ q y, ((s.vmRemap task (x.userPage * umPage) x.size x.svrAddr).setRegion r x).regions q =
      some y → q = r ∧ y = x ∨ s.regions q = some y := by
    intro q y hy
    simp only [Cache.setRegion, Cache.vmRemap, update_apply] at hy
    split at hy
    · next hq => exact Or.inl ⟨hq, (some.inj hy).symm⟩
    · exact Or.inr hy
  refine ⟨fun q y hy => ?_, fun q q' y y' p hy hy' hp hp' => ?_⟩
  · rcases hcase q y hy with ⟨-, rfl⟩ | hy
    · exact mapped_vmRemap hre ht hs
    · exact hf'.mapped q y hy
  · rcases hcase q y hy with ⟨rfl, rfl⟩ | hold
    · rcases hcase q' y' hy' with ⟨rfl, -⟩ | hy'
      · rfl
      · exact absurd hp' (hf.not_covers hre hy' hp)
    · rcases hcase q' y' hy' with ⟨rfl, rfl⟩ | hy'
      · exact absurd hp (hf.not_covers hre hold hp')
      · exact hf.apart q q' y y' p hold hy' hp hp'

theorem Frames.replace (hf : s.Frames) (hx : s.regions r = some x)
    (hre : s.Remappable task (y.userPage * umPage) y.size y.svrAddr) (ht : y.task = task)
    (hs : y.size % umPage = 0) :
    (((s.vmRemap task (y.userPage * umPage) y.size y.svrAddr).vmDeallocate x.svrAddr x.size).setRegion
      r y).Frames := by
  have hf' := hf.vmRemap hre
  have hcase : ∀ q z, (((s.vmRemap task (y.userPage * umPage) y.size y.svrAddr).vmDeallocate
      x.svrAddr x.size).setRegion r y).regions q = some z →
      q = r ∧ z = y ∨ q ≠ r ∧ s.regions q = some z := by
    intro q z hz
    simp only [Cache.setRegion, Cache.vmRemap, vmDeallocate, update_apply] at hz
    split at hz
    · next hq => exact Or.inl ⟨hq, (some.inj hz).symm⟩
    · next hq => exact Or.inr ⟨hq, hz⟩
  refine ⟨fun q z hz => ?_, fun q q' z z' p hz hz' hp hp' => ?_⟩
  · rcases hcase q z hz with ⟨-, rfl⟩ | ⟨hne, hz⟩
    · have hm := mapped_vmRemap hre ht hs
      refine { hm with
        shares := ?_ }
      intro i hi
      rw [← hm.shares i hi]
      exact if_neg fun hp => hf.not_covers hre hx ⟨Nat.le_add_right _ _, by omega⟩ hp
    · exact hf'.shares_of_ne hx hz hne
  · rcases hcase q z hz with ⟨rfl, rfl⟩ | ⟨-, hold⟩
    · rcases hcase q' z' hz' with ⟨rfl, -⟩ | ⟨-, hz'⟩
      · rfl
      · exact absurd hp' (hf.not_covers hre hz' hp)
    · rcases hcase q' z' hz' with ⟨rfl, rfl⟩ | ⟨-, hz'⟩
      · exact absurd hp (hf.not_covers hre hold hp')
      · exact hf.apart q q' z z' p hold hz' hp hp'

/-- Some regions that were in the cache have been flushed. -/
structure Less (s s' : Cache T R) : Prop where
  lists : s'.Lists
  frames : s'.Frames
  user : s'.user = s.user
  machAware : s'.machAware = s.machAware
  sub : ∀ r x, s'.regions r = some x → s.regions r = some x
  kept : ∀ r, r ∉ s.mru → s'.regions r = s.regions r
  mru : ∀ r, r ∈ s'.mru ↔ r ∈ s.mru ∧ (s'.regions r).isSome = true

theorem Less.refl (hl : s.Lists) (hf : s.Frames) : Less s s := by
  refine ⟨hl, hf, rfl, rfl, fun _ _ => id, fun _ _ => rfl, fun r => ⟨fun hr => ⟨hr, ?_⟩, And.left⟩⟩
  obtain ⟨x, hx⟩ := hl.live r hr
  rw [hx]
  rfl

theorem Less.trans {s'' : Cache T R} (h : Less s s') (h' : Less s' s'') : Less s s'' := by
  refine ⟨h'.lists, h'.frames, h'.user.trans h.user, h'.machAware.trans h.machAware,
    fun r x hx => h.sub r x (h'.sub r x hx), fun r hr => ?_, fun r => ?_⟩
  · rw [h'.kept r fun hr' => hr ((h.mru r).mp hr').1, h.kept r hr]
  · rw [h'.mru, h.mru]
    constructor
    · exact fun hr => ⟨hr.1.1, hr.2⟩
    · intro hr
      obtain ⟨x, hx⟩ := isSome_iff_exists.mp hr.2
      rw [h'.sub r x hx]
      exact ⟨⟨hr.1, rfl⟩, hr.2⟩

theorem flushRegion_less (hl : s.Lists) (hf : s.Frames) (h : s.flushRegion r = some s') :
    Less s s' ∧ s'.regions r = none := by
  obtain ⟨x, hx, h⟩ := bind_eq_some_iff.mp h
  obtain ⟨-, h⟩ := ite_none_right_eq_some.mp h
  obtain ⟨s1, h1, rfl⟩ := map_eq_some_iff.mp h
  obtain ⟨z, -, hc, -⟩ := userMemoryDelete_eq h1
  obtain ⟨hl1, hr1, hs1, hu1, hm1, -, ha1, -⟩ := hl.delete h1
  have hnot : r ∉ s1.mru := by
    rw [hm1, hl.mruNodup.mem_erase_iff]
    exact fun hr => hr.1 rfl
  have hreg : (s1.unmapRegion r x).regions = update s.regions r none := by
    rw [← hr1]
    rfl
  have hmru : r ∈ s.mru := by
    obtain ⟨y, hy, -⟩ := (hl.chain _ r).mp hc
    exact hy.2
  refine ⟨⟨hl1.unmap hnot, (hf.congr hr1 hs1).unmap (by rw [hr1, hx]), hu1, ha1, fun q y hy => ?_,
    fun q hq => ?_, fun q => ?_⟩, by rw [hreg, update_self]⟩
  · rw [hreg, update_apply] at hy
    split at hy
    · cases hy
    · exact hy
  · have hqr : q ≠ r := fun he => hq (he ▸ hmru)
    rw [hreg, update_of_ne hqr]
  · rw [hreg]
    change q ∈ s1.mru ↔ _
    rw [hm1, hl.mruNodup.mem_erase_iff, update_apply]
    split
    · next hq => simp [hq]
    next hq =>
    refine ⟨fun hm => ⟨hm.2, ?_⟩, fun hm => ⟨hq, hm.1⟩⟩
    obtain ⟨y, hy⟩ := hl.live q hm.2
    rw [hy]
    rfl

theorem makeRoom_less : ∀ (n : ℕ) {s s' : Cache T R}, s.Lists → s.Frames →
    makeRoom n s = some s' → Less s s' := by
  intro n
  induction n with
  | zero =>
    intro s s' hl hf h
    cases h
    exact Less.refl hl hf
  | succ n ih =>
    intro s s' hl hf h
    obtain ⟨s1, h1, h⟩ := bind_eq_some_iff.mp h
    obtain ⟨r, -, h1⟩ := bind_eq_some_iff.mp h1
    have hless := (flushRegion_less hl hf h1).1
    exact hless.trans (ih hless.lists hless.frames h)

section

variable (hl : s.Lists)
include hl

theorem Lists.vmRemap (task : T) (ua size a : ℕ) : (s.vmRemap task ua size a).Lists :=
  { hl with }

theorem Lists.vmDeallocate (a size : ℕ) : (s.vmDeallocate a size).Lists :=
  { hl with }

/-- What a slow lookup does to the cache: some regions have been flushed, and the one that is returned is
linked. -/
structure Looked (s s' : Cache T R) (r : R) (x : UmRegion T) : Prop where
  lists : s'.Lists
  frames : s'.Frames
  user : s'.user = s.user
  machAware : s'.machAware = s.machAware
  linked : s'.Linked r x
  sub : ∀ q y, s'.regions q = some y → q = r ∧ y = x ∨ s.regions q = some y
  kept : ∀ q, q ∉ s.mru → q ≠ r → s'.regions q = s.regions q
  mru : ∀ q, q ≠ r → (q ∈ s'.mru ↔ q ∈ s.mru ∧ (s'.regions q).isSome = true)

theorem missed_looked (hf : s.Frames) (h : s.missed task ua size svr r = some (s', res)) :
    s' = s ∧ res = none ∨ res = some r ∧ s.regions r = none ∧
      ∃ s1 x, s.mapRegion task ua size svr = some (s1, x) ∧ s.Looked s' r x := by
  unfold missed at h
  split at h
  · cases h
    exact Or.inl ⟨rfl, rfl⟩
  next s1 x hmap =>
  obtain ⟨hre, rfl, ht, -, hsz, -, -⟩ := mapRegion_eq hmap
  obtain ⟨hnone, h⟩ := ite_none_right_eq_some.mp h
  obtain ⟨s2, h2, he⟩ := map_eq_some_iff.mp h
  cases he
  refine Or.inr ⟨rfl, hnone, _, x, hmap, ?_⟩
  have hnot := hl.notMem_mru hnone
  have hs : x.size % umPage = 0 := by
    rw [hsz]
    exact mapSize_aligned ua size
  -- the region has been allocated, then room is made, then it is linked
  obtain ⟨s3, h3, hlink⟩ := bind_eq_some_iff.mp h2
  have hless := makeRoom_less _ ((hl.vmRemap _ _ _ _).alloc hnone) (hf.alloc (r := r) hre ht hs) h3
  have hreg : ∀ q, q ≠ r → ((s.vmRemap task (x.userPage * umPage) x.size x.svrAddr).setRegion
      r x).regions q = s.regions q := fun q hq => update_of_ne hq _ _
  have hx : s3.regions r = some x := by
    rw [hless.kept r hnot]
    exact update_self _ _ _
  have hnot3 : r ∉ s3.mru := fun hm => hnot ((hless.mru r).mp hm).1
  obtain ⟨hl', hr', hs', hu', hm', ha'⟩ := hless.lists.link hx hnot3 hlink
  refine ⟨hl', hless.frames.congr hr' hs', hu'.trans hless.user, ha'.trans hless.machAware,
    ⟨by rw [hr', hx], by rw [hm']; exact mem_cons_self⟩, fun q y hy => ?_, fun q hq hqr => ?_,
    fun q hqr => ?_⟩
  · rw [hr'] at hy
    by_cases hqr : q = r
    · rw [hqr, hx] at hy
      exact Or.inl ⟨hqr, (some.inj hy).symm⟩
    · right
      rw [← hreg q hqr]
      exact hless.sub q y hy
  · rw [hr', hless.kept q hq, hreg q hqr]
  · rw [hm', hr', mem_cons, hless.mru]
    exact ⟨fun hm => hm.resolve_left hqr, Or.inr⟩

theorem touch_looked (hf : s.Frames) (hx : s.Linked r x) (h : s.touch r = some s') :
    s.Looked s' r x := by
  obtain ⟨hl', hr', hs', hu', ha', hm'⟩ := hl.touch hx.2 h
  refine ⟨hl', hf.congr hr' hs', hu', ha', ⟨by rw [hr', hx.1], (hm' r).mpr hx.2⟩, fun q y hy => ?_,
    fun q _ _ => by rw [hr'], fun q _ => ?_⟩
  · rw [hr'] at hy
    exact Or.inr hy
  · rw [hm', hr']
    refine ⟨fun hq => ⟨hq, ?_⟩, And.left⟩
    obtain ⟨y, hy⟩ := hl.live q hq
    rw [hy]
    rfl

theorem extended_looked (hf : s.Frames)
    (hx : s.Linked r x) (h : s.extended r ua size svr = some (s', res)) :
    s' = s ∧ res = none ∨ res = some r ∧
      ∃ s1 y, s.mapRegion x.task (pagenumToAddr x.userPage) (umWord (pageoffset ua + size)) svr =
        some (s1, y) ∧ s.Looked s' r { x with svrAddr := y.svrAddr, size := y.size } ∧
        (∀ q, q ≠ r → s'.regions q = s.regions q) ∧ ∀ q, q ∈ s'.mru ↔ q ∈ s.mru := by
  obtain ⟨z, hz, h⟩ := bind_eq_some_iff.mp h
  obtain rfl : x = z := some.inj (hx.1.symm.trans hz)
  split at h
  · cases h
    exact Or.inl ⟨rfl, rfl⟩
  next s1 hbig =>
  obtain ⟨s2, h2, he⟩ := map_eq_some_iff.mp h
  obtain ⟨rfl, rfl⟩ := Prod.mk.inj he
  obtain ⟨⟨s0, y⟩, hmap, rfl⟩ := map_eq_some_iff.mp hbig
  refine Or.inr ⟨rfl, s0, y, hmap, ?_⟩
  obtain ⟨hre, rfl, ht, hp, hsz, -, -⟩ := mapRegion_eq hmap
  have hs : y.size % umPage = 0 := by
    rw [hsz]
    exact mapSize_aligned _ _
  -- the region begins where it did
  have hpage : y.userPage = x.userPage := by
    rw [hp, pagenumToAddr_of_mapped (hf.mapped r x hx.1), Nat.mul_div_cancel _ (by decide)]
  rw [hpage] at hre h2
  have hl1 := ((hl.vmRemap x.task (x.userPage * umPage) y.size y.svrAddr).vmDeallocate
    x.svrAddr x.size).setRegion (y := { x with svrAddr := y.svrAddr, size := y.size }) hx.1 rfl rfl
  have hf1 := hf.replace (y := { x with svrAddr := y.svrAddr, size := y.size }) hx.1 hre rfl hs
  have hx1 : ((((s.vmRemap x.task (x.userPage * umPage) y.size y.svrAddr).vmDeallocate x.svrAddr
      x.size).setRegion r { x with svrAddr := y.svrAddr, size := y.size })).Linked r
      { x with svrAddr := y.svrAddr, size := y.size } := ⟨update_self _ _ _, hx.2⟩
  have hlook := touch_looked hl1 hf1 hx1 h2
  obtain ⟨-, hreg, -, -, -, hmru⟩ := hl1.touch hx.2 h2
  have hother : ∀ q, q ≠ r → s2.regions q = s.regions q := by
    intro q hq
    rw [hreg, setRegion_of_ne hq]
    rfl
  refine ⟨⟨hlook.lists, hlook.frames, hlook.user, hlook.machAware, hlook.linked, fun q z hz => ?_,
    fun q _ hqr => hother q hqr, hlook.mru⟩, hother, hmru⟩
  by_cases hqr : q = r
  · rw [hqr, hlook.linked.1] at hz
    exact Or.inl ⟨hqr, (some.inj hz).symm⟩
  · exact Or.inr ((hother q hqr).symm.trans hz)

theorem Lists.relist {g : T → List R}
    (hg : ∀ t q, q ∈ g t ↔ ∃ x, s.Linked q x ∧ x.task = t) (hn : ∀ t, (g t).Nodup) :
    { s with intask := g }.Lists :=
  { hl with intask := hg, intaskNodup := hn }

end

theorem deleteMru_intask (g : T → List R) (h : s.deleteMru r = some s') :
    { s with intask := g }.deleteMru r = some { s' with intask := g } := by
  obtain ⟨s1, h1, rfl⟩ := map_eq_some_iff.mp h
  refine map_eq_some_iff.mpr ⟨{ s1 with intask := g }, ?_, rfl⟩
  unfold refreshMru at h1 ⊢
  dsimp only
  split at h1
  · next hc =>
    rw [if_pos hc]
    obtain ⟨o, ho, h1⟩ := bind_eq_some_iff.mp h1
    obtain ⟨p, hp, rfl⟩ := map_eq_some_iff.mp h1
    rw [ho, bind_some, hp, map_some]
  next hc =>
  rw [if_neg hc]
  cases h1
  rfl

theorem dropHints_intask (s : Cache T R) (g : T → List R) (r : R) (t : T) :
    { s with intask := g }.dropHints r t = { s.dropHints r t with intask := g } := by
  unfold dropHints
  dsimp only
  split <;> split <;> rfl

theorem userMemoryDelete_intask (g : T → List R) (h : s.userMemoryDelete r false = some s') :
    ∃ g', { s with intask := g }.userMemoryDelete r true = some { s' with intask := g' } := by
  obtain ⟨x, hx, h⟩ := bind_eq_some_iff.mp h
  obtain ⟨s1, h1, h⟩ := bind_eq_some_iff.mp h
  simp only [Bool.false_eq_true, if_false] at h
  obtain ⟨hc, ⟨⟩⟩ := ite_none_right_eq_some.mp h
  refine ⟨update g x.task ((g x.task).erase r), ?_⟩
  unfold userMemoryDelete
  rw [show ({ s with intask := g } : Cache T R).regions r = some x from hx, bind_some,
    deleteMru_intask g h1, bind_some]
  simp only [dropHints_intask, if_true]
  exact if_pos hc

theorem unlinkAll_lists : ∀ (l : List R) {s s' : Cache T R} (g : T → List R),
    { s with intask := g }.Lists → unlinkAll l s = some s' →
    ∃ g', { s' with intask := g' }.Lists ∧ s'.regions = s.regions ∧ s'.server = s.server ∧
      s'.user = s.user ∧ s'.machAware = s.machAware ∧ s'.intask = s.intask ∧
      ∀ q, q ∈ s'.mru ↔ q ∈ s.mru ∧ q ∉ l := by
  intro l
  induction l with
  | nil =>
    intro s s' g hl h
    cases h
    exact ⟨g, hl, rfl, rfl, rfl, rfl, rfl, fun q => by simp⟩
  | cons r l ih =>
    intro s s' g hl h
    obtain ⟨s1, h1, h⟩ := bind_eq_some_iff.mp h
    obtain ⟨g1, hg1⟩ := userMemoryDelete_intask g h1
    obtain ⟨x, -, -, f, o, k1, k2, hs1, -⟩ := userMemoryDelete_eq h1
    obtain ⟨hl1, hr1, hv1, hu1, hm1, -, ha1, -⟩ := hl.delete hg1
    obtain ⟨g', hl', hr', hv', hu', ha', ht', hm'⟩ := ih g1 hl1 h
    have ht1 : s1.intask = s.intask := by
      rw [hs1]
      rfl
    have hm1' : s1.mru = s.mru.erase r := hm1
    have hnd : s.mru.Nodup := hl.mruNodup
    refine ⟨g', hl', hr'.trans hr1, hv'.trans hv1, hu'.trans hu1, ha'.trans ha1, ht'.trans ht1,
      fun q => ?_⟩
    rw [hm', hm1', hnd.mem_erase_iff, mem_cons, not_or]
    tauto

/-- **The regions of a task are unlinked**, and its list is empty. -/
theorem Lists.unlinkAll (hl : s.Lists) (h : unlinkAll (s.intask t) s = some s') :
    { s' with intask := update s'.intask t [] }.Lists ∧ s'.regions = s.regions ∧
      s'.server = s.server ∧ s'.user = s.user ∧ s'.machAware = s.machAware ∧ s'.intask = s.intask ∧
      ∀ q, q ∈ s'.mru ↔ q ∈ s.mru ∧ q ∉ s.intask t := by
  obtain ⟨g, hl', hr, hv, hu, ha, ht, hm⟩ := unlinkAll_lists _ s.intask hl h
  refine ⟨hl'.relist (fun u q => ?_) fun u => ?_, hr, hv, hu, ha, ht, hm⟩
  · have hlinked : ∀ x, s'.Linked q x ↔ s.Linked q x ∧ q ∉ s.intask t := by
      intro x
      simp only [Linked, hr, hm, and_assoc]
    change _ ↔ ∃ x, s'.Linked q x ∧ x.task = u
    simp only [hlinked, ht, update_apply]
    split
    · next hut =>
      simp only [not_mem_nil, false_iff]
      rintro ⟨x, ⟨hx, hnot⟩, hxt⟩
      exact hnot ((hl.intask t q).mpr ⟨x, hx, hxt.trans hut⟩)
    next hut =>
    rw [hl.intask u q]
    constructor
    · rintro ⟨x, hx, hxt⟩
      refine ⟨x, ⟨hx, fun hq => ?_⟩, hxt⟩
      obtain ⟨y, hy, hyt⟩ := (hl.intask t q).mp hq
      have he := some.inj (hx.1.symm.trans hy.1)
      exact hut (by rw [← hxt, he, hyt])
    · rintro ⟨x, ⟨hx, -⟩, hxt⟩
      exact ⟨x, hx, hxt⟩
  · rw [ht, update_apply]
    split
    · exact nodup_nil
    · exact hl.intaskNodup u

theorem unmapAll_lists : ∀ (l : List R) {s s' : Cache T R}, s.Lists → s.Frames →
    (∀ r ∈ l, r ∉ s.mru) → unmapAll l s = some s' →
    s'.Lists ∧ s'.Frames ∧ s'.mru = s.mru ∧ s'.user = s.user ∧
      (∀ r x, s'.regions r = some x → s.regions r = some x ∧ r ∉ l) := by
  intro l
  induction l with
  | nil =>
    intro s s' hl hf _ h
    cases h
    exact ⟨hl, hf, rfl, rfl, fun r x hx => ⟨hx, not_mem_nil⟩⟩
  | cons r l ih =>
    intro s s' hl hf hnot h
    obtain ⟨x, hx, h⟩ := bind_eq_some_iff.mp h
    obtain ⟨-, h⟩ := ite_none_right_eq_some.mp h
    obtain ⟨hl', hf', hm', hu', hsub⟩ := ih (hl.unmap (hnot r mem_cons_self)) (hf.unmap hx)
      (fun q hq => hnot q (mem_cons_of_mem r hq)) h
    refine ⟨hl', hf', hm', hu', fun q y hy => ?_⟩
    obtain ⟨hy, hq⟩ := hsub q y hy
    simp only [unmapRegion, update_apply] at hy
    split at hy
    · cases hy
    · next hqr => exact ⟨hy, by simp [hqr, hq]⟩

end Cache

end Osfmk

import Osfmk.Server.UserMemoryLists

/-!
# The fresh part of the list of all regions

The first `NUM_FRESH_BLOCKS` regions of the list are fresh, and `oldest_fresh` is the last of them, once
there are as many.  `delete_mru` does not move `oldest_fresh` while there are not, and so the pointer may
lead nowhere when `insert_mru` follows it for the first time.
-/

open Function (update update_apply update_of_ne)
open List Option

namespace Osfmk

namespace Cache

variable {T R : Type} {s s' : Cache T R} {r o p n : R} {A B : List R}

theorem numFreshBlocks_eq : numFreshBlocks = 1329 := rfl

/-- The fresh regions, the oldest of them, and the others. -/
structure Split (s : Cache T R) (A : List R) (o : R) (B : List R) : Prop where
  mru : s.mru = A ++ o :: B
  length : A.length + 1 = numFreshBlocks
  oldest : s.oldestFresh = some o
  fresh : ∀ r ∈ A, s.fresh r = true
  fresh' : s.fresh o = true
  stale : ∀ r ∈ B, s.fresh r = false

/-- **What holds of the fresh part.** -/
def FreshOk (s : Cache T R) : Prop :=
  (s.mru.length ≤ numFreshBlocks ∧ ∀ r ∈ s.mru, s.fresh r = true) ∨ ∃ A o B, s.Split A o B

/-- **The condition on an insertion.** -/
def Ready (s : Cache T R) : Prop :=
  s.mru.length = numFreshBlocks → s.oldestFresh = s.mru.getLast?

theorem Split.length_le (h : s.Split A o B) : numFreshBlocks ≤ s.mru.length := by
  rw [h.mru, length_append, length_cons, ← h.length]
  omega

theorem FreshOk.split (h : s.FreshOk) (hr : s.Ready) (hlen : numFreshBlocks ≤ s.mru.length) :
    ∃ A o B, s.Split A o B := by
  rcases h with ⟨hle, hfresh⟩ | h
  · have heq : s.mru.length = numFreshBlocks := le_antisymm hle hlen
    have hold := hr heq
    have hne : s.mru ≠ [] := by
      intro hnil
      rw [hnil, numFreshBlocks_eq] at heq
      cases heq
    rw [List.getLast?_eq_some_getLast hne] at hold
    have hsplit := dropLast_append_getLast hne
    refine ⟨s.mru.dropLast, s.mru.getLast hne, [], hsplit.symm, ?_, hold, fun r hm => ?_, ?_, ?_⟩
    · rw [length_dropLast, heq]
      rfl
    · exact hfresh r (dropLast_subset _ hm)
    · exact hfresh _ (getLast_mem hne)
    · simp
  · exact h

theorem FreshOk.congr (h : s.FreshOk) (hm : s'.mru = s.mru) (hf : s'.fresh = s.fresh)
    (ho : s'.oldestFresh = s.oldestFresh) : s'.FreshOk := by
  rcases h with ⟨hlen, hfresh⟩ | ⟨A, o, B, hs⟩
  · refine .inl ⟨hm ▸ hlen, fun r hr => ?_⟩
    rw [hf]
    exact hfresh r (hm ▸ hr)
  refine .inr ⟨A, o, B, hm.trans hs.mru, hs.length, ho.trans hs.oldest, ?_, ?_, ?_⟩
  all_goals rw [hf]
  · exact hs.fresh
  · exact hs.fresh'
  · exact hs.stale

theorem Split.ready (h : s.Split A o B) : s.Ready := by
  intro hlen
  rw [h.mru, length_append, length_cons, ← h.length] at hlen
  obtain rfl : B = [] := length_eq_zero_iff.mp (by omega)
  rw [h.oldest, h.mru, List.getLast?_concat]

variable [DecidableEq R]

theorem next_append (ho : o ∉ A) : next o (A ++ o :: n :: B) = some n := by
  induction A with
  | nil => simp [next]
  | cons a A ih =>
    have hne : a ≠ o := fun he => ho (he ▸ mem_cons_self)
    have hrest := ih fun hm => ho (mem_cons_of_mem a hm)
    cases A with
    | nil => simp [next, hne]
    | cons b A => simpa [next, hne] using hrest

theorem insertMru_fresh (h : s.FreshOk) (hready : s.Ready) (hnodup : s.mru.Nodup) (hr : r ∉ s.mru) :
    ∃ s', s.insertMru r = some s' ∧ s'.FreshOk := by
  by_cases hlen : numFreshBlocks ≤ s.mru.length
  · obtain ⟨A, o, B, hs⟩ := h.split hready hlen
    -- the fresh part has two regions at least
    obtain ⟨A', p, rfl⟩ : ∃ A' p, A = A' ++ [p] := by
      rcases eq_nil_or_concat A with rfl | ⟨A', p, rfl⟩
      · have hlength := hs.length
        rw [numFreshBlocks_eq] at hlength
        cases hlength
      · exact ⟨A', p, concat_eq_append⟩
    have hmru : s.mru = A' ++ p :: o :: B := by
      rw [hs.mru]
      simp
    rw [hmru] at hnodup hr
    have hoB : o ∉ B.reverse := by
      rw [mem_reverse]
      intro hm
      rw [nodup_append, List.nodup_cons, List.nodup_cons] at hnodup
      exact hnodup.2.1.2.1 hm
    have hprev : next o (r :: s.mru).reverse = some p := by
      have hrev : (r :: s.mru).reverse = B.reverse ++ o :: p :: (A'.reverse ++ [r]) := by
        rw [hmru]
        simp
      rw [hrev]
      exact next_append hoB
    refine ⟨{ s with
      mru := r :: s.mru
      fresh := update (update s.fresh r true) o false
      oldestFresh := some p }, ?_, ?_⟩
    · unfold insertMru
      rw [if_pos (by rw [length_cons]; omega), hs.oldest, bind_some, hprev,
        map_some]
    · have hfresh : ∀ q ∈ A' ++ [p], q ≠ o := by
        rintro q hq rfl
        rw [nodup_append] at hnodup
        rcases mem_append.mp hq with hq | hq
        · exact hnodup.2.2 q hq q (by simp) rfl
        · rw [mem_singleton.mp hq] at hnodup
          simp at hnodup
      have hro : r ≠ o := by
        rintro rfl
        simp at hr
      refine Or.inr ⟨r :: A', p, o :: B, ?_, ?_, rfl, fun q hq => ?_, ?_, fun q hq => ?_⟩
      · dsimp only
        rw [hmru]
        rfl
      · have := hs.length
        simp only [length_append, length_cons, length_nil] at this ⊢
        omega
      · rcases mem_cons.mp hq with rfl | hqA
        · simp [update_of_ne hro]
        · have hqo := hfresh q (mem_append_left _ hqA)
          have hqr : q ≠ r := fun he => hr (he ▸ mem_append_left _ hqA)
          simp only [update_of_ne hqo, update_of_ne hqr]
          exact hs.fresh q (mem_append_left _ hqA)
      · have hpo := hfresh p (by simp)
        have hpr : p ≠ r := by
          rintro rfl
          simp at hr
        simp only [update_of_ne hpo, update_of_ne hpr]
        exact hs.fresh p (by simp)
      · rcases mem_cons.mp hq with rfl | hqB
        · simp
        · have hqo : q ≠ o := fun he => hoB (mem_reverse.mpr (he ▸ hqB))
          have hqr : q ≠ r := by
            intro he
            rw [he] at hqB
            simp [hqB] at hr
          simp only [update_of_ne hqo, update_of_ne hqr]
          exact hs.stale q hqB
  · have hfew : ∀ q ∈ s.mru, s.fresh q = true := by
      rcases h with ⟨-, hf⟩ | ⟨A, o, B, hs⟩
      · exact hf
      · exact absurd hs.length_le hlen
    have hnew : ∀ q ∈ r :: s.mru, update s.fresh r true q = true := by
      intro q hq
      rw [update_apply]
      split
      · rfl
      · next hqr => exact hfew q ((mem_cons.mp hq).resolve_left hqr)
    have hlen' : (r :: s.mru).length ≤ numFreshBlocks := by
      rw [length_cons]
      omega
    unfold insertMru
    dsimp only
    rw [if_neg (by omega)]
    split
    · exact ⟨_, rfl, Or.inl ⟨hlen', hnew⟩⟩
    · exact ⟨_, rfl, .inl ⟨hlen', hnew⟩⟩

theorem deleteMru_fresh (h : s.FreshOk) (hnodup : s.mru.Nodup) (hr : r ∈ s.mru) :
    ∃ s', s.deleteMru r = some s' ∧ s'.FreshOk ∧ (s.fresh r = false → s'.Ready) := by
  rcases h with ⟨hlen, hfresh⟩ | ⟨A, o, B, hs⟩
  · refine ⟨{ s with mru := s.mru.erase r }, ?_, .inl ⟨?_, fun q hq => ?_⟩, fun hf => ?_⟩
    · rw [deleteMru, refreshMru, if_neg (fun hc => by omega), map_some]
    · exact length_erase_le.trans hlen
    · exact hfresh q (mem_of_mem_erase hq)
    · rw [hfresh r hr] at hf
      cases hf
  have hmru := hs.mru
  rw [hmru, nodup_append, List.nodup_cons] at hnodup
  obtain ⟨hA, ⟨hoB, hB⟩, hAB⟩ := hnodup
  have hoA : o ∉ A := fun hm => hAB o hm o mem_cons_self rfl
  have hlen : s.mru.length = numFreshBlocks + B.length := by
    rw [hmru, length_append, length_cons, ← hs.length]
    omega
  cases hfr : s.fresh r with
  | false =>
    -- a region of the rest
    have hrA : r ∉ A := fun hm => by
      rw [hs.fresh r hm] at hfr
      cases hfr
    have hro : o ≠ r := by
      rintro rfl
      rw [hs.fresh'] at hfr
      cases hfr
    have hsplit : { s with mru := s.mru.erase r }.Split A o (B.erase r) := by
      refine ⟨?_, hs.length, hs.oldest, hs.fresh, hs.fresh', fun q hq => ?_⟩
      · dsimp only
        rw [hmru, erase_append_right _ hrA, erase_cons_tail (by simpa using hro)]
      · exact hs.stale q (mem_of_mem_erase hq)
    refine ⟨_, ?_, .inr ⟨A, o, B.erase r, hsplit⟩, fun _ => hsplit.ready⟩
    rw [deleteMru, refreshMru, if_neg (fun hc => by simp [hfr] at hc), map_some]
  | true =>
    cases B with
    | nil =>
      -- nothing but the fresh part
      refine ⟨{ s with mru := s.mru.erase r }, ?_, .inl ⟨?_, fun q hq => ?_⟩, fun hf => ?_⟩
      · rw [deleteMru, refreshMru, if_neg (fun hc => by simp [hlen] at hc), map_some]
      · rw [length_nil, Nat.add_zero] at hlen
        exact length_erase_le.trans hlen.le
      · have hq := mem_of_mem_erase hq
        rw [hmru] at hq
        rcases mem_append.mp hq with hq | hq
        · exact hs.fresh q hq
        · rw [mem_singleton.mp hq]
          exact hs.fresh'
      · cases hf
    | cons n B =>
      have hcond : s.fresh r = true ∧ numFreshBlocks < s.mru.length :=
        ⟨hfr, by rw [hlen, length_cons]; omega⟩
      have hnext : next o s.mru = some n := by
        rw [hmru]
        exact next_append hoA
      have hnB : n ∉ B := (List.nodup_cons.mp hB).1
      have hrB : r ∉ n :: B := fun hm => by
        rw [hs.stale r hm] at hfr
        cases hfr
      have hold : ∀ q, s.fresh q = true → update s.fresh n true q = true := by
        intro q hq
        rw [update_apply]
        split
        · rfl
        · exact hq
      have hstale : ∀ q ∈ B, update s.fresh n true q = false := by
        intro q hq
        have hqn : q ≠ n := fun he => hnB (he ▸ hq)
        rw [update_of_ne hqn]
        exact hs.stale q (mem_cons_of_mem n hq)
      refine ⟨{ s with
        mru := s.mru.erase r
        fresh := update s.fresh n true
        oldestFresh := some n }, ?_, .inr ?_, nofun⟩
      · rw [deleteMru, refreshMru, if_pos hcond, hs.oldest, bind_some, hnext, map_some,
          map_some]
      · by_cases hro : r = o
        · refine ⟨A, n, B, ?_, hs.length, rfl, fun q hq => hold q (hs.fresh q hq), by simp, hstale⟩
          rw [hmru, hro, erase_append_right _ hoA, erase_cons_head]
        · have hrA : r ∈ A := by
            rw [hmru] at hr
            rcases mem_append.mp hr with hr | hr
            · exact hr
            · rcases mem_cons.mp hr with hr | hr
              · exact absurd hr hro
              · exact absurd hr hrB
          refine ⟨A.erase r ++ [o], n, B, ?_, ?_, rfl, fun q hq => ?_, by simp, hstale⟩
          · dsimp only
            rw [hmru, erase_append_left _ hrA]
            simp
          · have hpos := length_pos_of_mem hrA
            rw [length_append, length_erase_of_mem hrA, length_singleton, ← hs.length]
            omega
          · rcases mem_append.mp hq with hq | hq
            · exact hold q (hs.fresh q (mem_of_mem_erase hq))
            · rw [mem_singleton.mp hq]
              exact hold o hs.fresh'

variable [DecidableEq T]

theorem touch_fresh (h : s.FreshOk) (hnodup : s.mru.Nodup) (hr : r ∈ s.mru) :
    ∃ s', s.touch r = some s' ∧ s'.FreshOk := by
  cases hf : s.fresh r with
  | true => exact ⟨s, by rw [touch, if_pos hf], h⟩
  | false =>
    obtain ⟨s1, h1, hok1, hready⟩ := deleteMru_fresh h hnodup hr
    obtain ⟨f, o, rfl⟩ := deleteMru_eq h1
    obtain ⟨s', h', hok'⟩ := insertMru_fresh (r := r) hok1 (hready hf) (hnodup.erase r)
      fun hm => (hnodup.mem_erase_iff.mp hm).1 rfl
    refine ⟨s', ?_, hok'⟩
    rw [touch, if_neg (by simp [hf]), h1, bind_some, h']

theorem userMemoryDelete_fresh {g : T → List R} (hl : { s with intask := g }.Lists) (h : s.FreshOk)
    (hr : r ∈ s.mru) (b : Bool) :
    ∃ s', s.userMemoryDelete r b = some s' ∧ s'.FreshOk := by
  obtain ⟨x, hx⟩ := hl.live r hr
  obtain ⟨s1, h1, hok1, -⟩ := deleteMru_fresh h hl.mruNodup hr
  obtain ⟨f, o, rfl⟩ := deleteMru_eq h1
  have hchain : r ∈ s.chain (userMemoryHash (s.pid x.task) x.userPage) :=
    (hl.chain _ r).mpr ⟨x, ⟨hx, hr⟩, rfl⟩
  obtain ⟨g1, g2, hg, -⟩ := dropHints_eq
    { s with mru := s.mru.erase r, fresh := f, oldestFresh := o } r x.task
  unfold userMemoryDelete
  rw [hx, bind_some, h1, bind_some]
  simp only [hg]
  cases b
  · exact ⟨_, if_pos hchain, hok1.congr rfl rfl rfl⟩
  · exact ⟨_, if_pos hchain, hok1.congr rfl rfl rfl⟩

variable {x : UmRegion T}

theorem mapRegionBigger_fresh {size : ℕ} {svr : Option ℕ} (h : s.FreshOk)
    (hm : s.mapRegionBigger r x size svr = some s') : s'.FreshOk ∧ s'.mru = s.mru := by
  obtain ⟨⟨s1, y⟩, h1, rfl⟩ := map_eq_some_iff.mp hm
  obtain ⟨-, rfl, -⟩ := mapRegion_eq h1
  exact ⟨h.congr rfl rfl rfl, rfl⟩

theorem extended_fresh (ua size : ℕ) (svr : Option ℕ) (hl : s.Lists) (h : s.FreshOk)
    (hx : s.Linked r x) : ∃ s' res, s.extended r ua size svr = some (s', res) ∧ s'.FreshOk := by
  unfold extended
  rw [hx.1, bind_some]
  cases hbig : s.mapRegionBigger r x (umWord (pageoffset ua + size)) svr with
  | none => exact ⟨s, none, rfl, h⟩
  | some s1 =>
    obtain ⟨hok, hmru⟩ := mapRegionBigger_fresh h hbig
    obtain ⟨s', hs', hok'⟩ := touch_fresh hok (hmru ▸ hl.mruNodup) (hmru ▸ hx.2)
    exact ⟨s', some r, by simp only [hs', map_some], hok'⟩

theorem flushRegion_fresh (hl : s.Lists) (h : s.FreshOk) (hx : s.Linked r x)
    (hz : x.refCount = 0) : ∃ s', s.flushRegion r = some s' ∧ s'.FreshOk ∧
      s'.mru = s.mru.erase r ∧ s'.regions = update s.regions r none := by
  obtain ⟨s1, h1, hok⟩ := userMemoryDelete_fresh (g := s.intask) hl h hx.2 true
  obtain ⟨-, hreg, -, -, hmru, -⟩ := hl.delete h1
  refine ⟨s1.unmapRegion r x, ?_, hok.congr rfl rfl rfl, hmru, ?_⟩
  · rw [flushRegion, hx.1, bind_some, if_pos hz, h1, map_some]
  · rw [← hreg]
    rfl

/-- **A region is put into the cache**; when the cache is full, the oldest region is flushed for it. -/
theorem userMemoryInsert_fresh (hl : s.Lists) (h : s.FreshOk)
    (hroom : s.mru.length ≤ userMemorySize) (hready : s.Ready) (hr : r ∉ s.mru)
    (hold : ∀ o y, s.mru.length = userMemorySize → s.mru.getLast? = some o → s.regions o = some y →
      y.refCount = 0) :
    ∃ s', s.userMemoryInsert r x = some s' ∧ s'.FreshOk ∧ s'.mru.length ≤ userMemorySize ∧
      ∀ q, s.mru.length = userMemorySize ∧ s.mru.getLast? = some q ∧ q ∈ s.mru ∧
          s'.regions q = none ∨
        s'.regions q = s.regions q ∧ (q ∈ s'.mru ↔ q = r ∨ q ∈ s.mru) := by
  by_cases hlen : s.mru.length = userMemorySize
  · have hne : s.mru ≠ [] := by
      intro hnil
      rw [hnil] at hlen
      cases hlen
    have hlast := List.getLast?_eq_some_getLast hne
    generalize s.mru.getLast hne = o at hlast
    have ho : o ∈ s.mru := List.mem_of_getLast? hlast
    obtain ⟨y, hy⟩ := hl.live o ho
    obtain ⟨s1, h1, hok1, hm1, hr1⟩ := flushRegion_fresh hl h ⟨hy, ho⟩ (hold o y hlen hlast hy)
    have hroom1 : makeRoom (s.mru.length + 1 - userMemorySize) s = some s1 := by
      rw [hlen, Nat.add_sub_cancel_left]
      unfold makeRoom userMemoryFlushLru
      rw [hlast, bind_some, h1, bind_some]
      rfl
    have hlen1 : s1.mru.length + 1 = userMemorySize := by
      rw [hm1, length_erase_of_mem ho, hlen]
      rfl
    have hnot1 : r ∉ s1.mru := by
      rw [hm1]
      exact fun hm => hr (mem_of_mem_erase hm)
    have hready1 : s1.Ready := by
      intro hbad
      rw [hbad] at hlen1
      cases hlen1
    obtain ⟨s', h', hok'⟩ := insertMru_fresh (r := r) (s := { s1 with
      chain := update s1.chain (userMemoryHash (s1.pid x.task) x.userPage)
        (r :: s1.chain (userMemoryHash (s1.pid x.task) x.userPage))
      intask := update s1.intask x.task (r :: s1.intask x.task) }) (hok1.congr rfl rfl rfl)
      hready1 (hm1 ▸ hl.mruNodup.erase o) hnot1
    refine ⟨s', ?_, hok', ?_⟩
    · rw [userMemoryInsert, hroom1, bind_some]
      exact h'
    obtain ⟨f, g, rfl⟩ := insertMru_eq h'
    refine ⟨hlen1.le, fun q => ?_⟩
    by_cases hq : q = o
    · subst hq
      exact .inl ⟨hlen, hlast, ho, by simp [hr1]⟩
    · right
      simp only [hr1, hm1, update_of_ne hq, mem_cons, hl.mruNodup.mem_erase_iff, hq,
        ne_eq, not_false_eq_true, true_and]
  · have hroom1 : makeRoom (s.mru.length + 1 - userMemorySize) s = some s := by
      rw [show s.mru.length + 1 - userMemorySize = 0 by omega]
      rfl
    obtain ⟨s', h', hok'⟩ := insertMru_fresh (r := r) (s := { s with
      chain := update s.chain (userMemoryHash (s.pid x.task) x.userPage)
        (r :: s.chain (userMemoryHash (s.pid x.task) x.userPage))
      intask := update s.intask x.task (r :: s.intask x.task) }) (h.congr rfl rfl rfl)
      hready hl.mruNodup hr
    refine ⟨s', ?_, hok', ?_⟩
    · rw [userMemoryInsert, hroom1, bind_some]
      exact h'
    obtain ⟨f, g, rfl⟩ := insertMru_eq h'
    refine ⟨?_, fun q => .inr ⟨rfl, mem_cons⟩⟩
    change s.mru.length + 1 ≤ userMemorySize
    omega

theorem missed_fresh (t : T) (ua size : ℕ) (svr : Option ℕ) (hl : s.Lists) (h : s.FreshOk)
    (hroom : s.mru.length ≤ userMemorySize) (hready : s.Ready) (hr : s.regions r = none)
    (hold : ∀ o y, s.mru.length = userMemorySize → s.mru.getLast? = some o → s.regions o = some y →
      y.refCount = 0) :
    ∃ s' res, s.missed t ua size svr r = some (s', res) ∧ s'.FreshOk ∧
      s'.mru.length ≤ userMemorySize ∧ (s' = s ∨ ∀ q, q ≠ r →
        s.mru.length = userMemorySize ∧ s.mru.getLast? = some q ∧ q ∈ s.mru ∧ s'.regions q = none ∨
        s'.regions q = s.regions q ∧ (q ∈ s'.mru ↔ q ∈ s.mru)) := by
  have hnot := hl.notMem_mru hr
  unfold missed
  cases hmap : s.mapRegion t ua size svr with
  | none => exact ⟨s, none, rfl, h, hroom, .inl rfl⟩
  | some m =>
    obtain ⟨s1, x⟩ := m
    obtain ⟨-, rfl, -⟩ := mapRegion_eq hmap
    have hold1 : ∀ o y, s.mru.length = userMemorySize → s.mru.getLast? = some o →
        ((s.vmRemap t (x.userPage * umPage) x.size x.svrAddr).setRegion r x).regions o = some y →
        y.refCount = 0 := by
      intro o y hlen ho hy
      have hor : o ≠ r := fun he => hnot (he ▸ List.mem_of_getLast? ho)
      rw [setRegion_of_ne hor] at hy
      exact hold o y hlen ho hy
    obtain ⟨s', h', hok', hroom', hq⟩ := userMemoryInsert_fresh (x := x)
      ((hl.vmRemap t (x.userPage * umPage) x.size x.svrAddr).alloc (x := x) hr)
      (h.congr rfl rfl rfl) hroom hready hnot hold1
    refine ⟨s', some r, ?_, hok', hroom', .inr fun q hqr => ?_⟩
    · dsimp only
      rw [if_pos (show (s.vmRemap t (x.userPage * umPage) x.size x.svrAddr).regions r = none from hr),
        h', map_some]
    · rcases hq q with hgone | ⟨hreg, hmru⟩
      · exact .inl hgone
      · right
        rw [setRegion_of_ne hqr] at hreg
        refine ⟨hreg, hmru.trans ⟨fun hm => hm.resolve_left hqr, .inr⟩⟩

theorem unlinkAll_fresh : ∀ (l : List R) {s : Cache T R} (g : T → List R),
    { s with intask := g }.Lists → s.FreshOk → l.Nodup → (∀ r ∈ l, r ∈ s.mru) →
    ∃ s', unlinkAll l s = some s' ∧ s'.FreshOk := by
  intro l
  induction l with
  | nil => exact fun _ _ h _ _ => ⟨_, rfl, h⟩
  | cons r l ih =>
    intro s g hl h hn hm
    obtain ⟨hrl, hn⟩ := List.nodup_cons.mp hn
    obtain ⟨s1, h1, hok1⟩ := userMemoryDelete_fresh hl h (hm r mem_cons_self) false
    obtain ⟨g1, hg1⟩ := userMemoryDelete_intask g h1
    obtain ⟨hl1, -, -, -, hm1, -⟩ := hl.delete hg1
    have hmru : s1.mru = s.mru.erase r := hm1
    have hrest : ∀ q ∈ l, q ∈ s1.mru := by
      intro q hq
      have hne : q ≠ r := fun he => hrl (he ▸ hq)
      rw [hmru]
      exact (mem_erase_of_ne hne).mpr (hm q (mem_cons_of_mem r hq))
    obtain ⟨s', h', hok'⟩ := ih g1 hl1 hok1 hn hrest
    exact ⟨s', by rw [unlinkAll, h1, bind_some, h'], hok'⟩

end Cache

end Osfmk

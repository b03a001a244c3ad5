import Osfmk.Vm.ResidentStep

/-!
# The accounting of resident pages

The pages in limbo and the allocation of contiguous pages, and what is said about the queues, the
counters and the table in every run of operations.
-/

open Function (update update_of_ne update_self)
open List Option

namespace Osfmk.Resident

open Census

variable {P O : Type} [DecidableEq P] [DecidableEq O] [Fintype P] {σ : Slack P} {c : Config O}
  {w w' : PageWorld P O} {m : P} {pg : Page O}

theorem PageInv.leaveLimbo (h : PageInv ⟨none, 0⟩ c w) (hlimbo : (w.page m).limbo = true) :
    PageInv ⟨none, 0⟩ c (leaveLimbo w m) ∧
      (Resident.leaveLimbo w m).page m = { w.page m with limbo := false } := by
  have hok := h.ok m
  have hlim : Slack.lim ⟨none, 0⟩ m (w.page m) = true := by simp [Slack.lim, hlimbo]
  have hnew : Slack.lim ⟨none, 0⟩ m { w.page m with limbo := false } = false := rfl
  have hf : Follow ⟨none, 0⟩ w (Resident.leaveLimbo w m) m { w.page m with limbo := false } := by
    refine ⟨rfl, .same _, .same _, .same _, .same _, ?_, keep _ _, keep _ _, keep _ _, ?_, ?_,
      keep _ _, keep _ _⟩
    · rw [hlim, hnew]
      exact .leave
    · rw [hlim, hnew]
      show w.limboCount - 1 = _
      simp
    · rw [hlim, hnew]
      show (if _ then _ else _) = _
      cases hfi : (w.page m).fictitious <;> simp
  refine ⟨h.change hf ⟨fun hc => ?_, fun hc => ?_, hok.active, hok.inactive, hok.gobbled,
    hok.tabled⟩ ⟨rfl, rfl, rfl, rfl, fun _ => ⟨rfl, rfl⟩⟩ (fun hr => ⟨hr, rfl⟩) ?_, hf.page_self⟩
  · obtain ⟨h1, h2, -, hrest⟩ := hok.free hc
    exact ⟨h1, h2, rfl, hrest⟩
  · rw [hnew] at hc
    cases hc
  · have hfict : ∀ p, ((Resident.leaveLimbo w m).page p).fictitious = (w.page p).fictitious := by
      intro p
      by_cases hp : p = m
      · subst hp
        rw [hf.page_self]
      · rw [hf.page_ne hp]
    refine (h.realFirst.sublist erase_sublist).imp fun hab => ?_
    rw [hfict, hfict]
    exact hab

theorem PageInv.freeUnprepped {l : List P} (h : PageInv ⟨none, 0⟩ c w) (hl : l.Nodup)
    (hlimbo : ∀ p ∈ l, (w.page p).limbo = true) (hs : freeUnprepped c l w = some w') :
    PageInv ⟨none, 0⟩ c w' := by
  induction l generalizing w with
  | nil =>
    cases hs
    exact h
  | cons m l ih =>
    rw [List.nodup_cons] at hl
    rw [Resident.freeUnprepped] at hs
    split at hs
    · obtain ⟨w1, hs1, hs⟩ := bind_eq_some_iff.mp hs
      obtain ⟨h0, hpage0⟩ := h.leaveLimbo (hlimbo m mem_cons_self)
      have hm : ((Resident.leaveLimbo w m).page m).limbo = false := by rw [hpage0]
      have h1 := h0.vmPageFree (fun hc => by rw [hm] at hc; cases hc) hs1
      rw [hm] at h1
      refine ih h1 hl.2 (fun p hp => ?_) hs
      have hpm : p ≠ m := fun he => hl.1 (he ▸ hp)
      rw [h0.vmPageFree_frame hs1 hpm,
        show (Resident.leaveLimbo w m).page p = w.page p from update_of_ne hpm ..]
      exact hlimbo p (mem_cons_of_mem m hp)
    · exact ih h hl.2 (fun p hp => hlimbo p (mem_cons_of_mem m hp)) hs

theorem PageInv.lag {pend : Option P} {r d : ℤ} (h : PageInv ⟨pend, r⟩ c w) :
    PageInv ⟨pend, r + d⟩ c { w with limboRealCount := w.limboRealCount + d } where
  ok := h.ok
  queues := { h.queues with }
  counts := ⟨h.counts.free, h.counts.active, h.counts.inactive, h.counts.limbo, by
    rw [h.counts.limboReal]
    exact Int.add_assoc .., h.counts.gobble, h.counts.wire⟩
  table := { h.table with }
  addr := h.addr
  realFirst := h.realFirst

theorem PageInv.exchange (h : PageInv ⟨none, 0⟩ c w) {freeM : P} {queueLimbo : List P}
    (hq : w.queueLimbo = m :: queueLimbo) (hne : freeM ≠ m)
    (hidle : (w.page freeM).Idle) (hflimbo : (w.page freeM).limbo = false)
    (hs : vmPageLimboExchange { w with queueLimbo := queueLimbo } m freeM = some w') :
    PageInv ⟨none, 1⟩ c { w' with queueLimbo := w'.queueLimbo ++ [m] } ∧
      (w'.page freeM).limbo = false := by
  obtain ⟨hcond, hs⟩ := ite_none_left_eq_some.mp hs
  simp only [not_or, Bool.not_eq_true, Bool.not_eq_false] at hcond
  obtain ⟨hlimbo, hreal, htabled, hffict⟩ := hcond
  have hw := some.inj hs
  have hok := h.ok m
  have hlim : Slack.lim ⟨none, 0⟩ m (w.page m) = true := by simp [Slack.lim, hlimbo]
  obtain ⟨k1, k2, k3, k4, k5⟩ := hok.limbo hlim
  obtain ⟨B, hB⟩ : ∃ B : Page O, B = { vmPageInit O vmPageFictitiousAddr with
      fictitious := true, limbo := true, prepPinCount := (w.page m).prepPinCount } := ⟨_, rfl⟩
  have hBlim : Slack.lim ⟨none, 0⟩ m B = true := by simp [Slack.lim, hB]
  rw [← hB] at hw
  have hmfree' : (w.page m).free = false := by
    by_contra hc
    rw [Bool.not_eq_false] at hc
    rw [(hok.free hc).2.2.1] at hlimbo
    cases hlimbo
  have hmfree : (w.page m).onFree = false := by rw [Page.onFree, hmfree', Bool.false_and]
  -- the page in limbo becomes fictitious
  have hf1 : Follow ⟨none, 0⟩ w { w.set m B with
      queueLimbo := queueLimbo ++ [m], limboRealCount := w.limboRealCount - 1 } m B := by
    refine ⟨rfl, ?_, ?_, ?_, ?_, ?_, ?_, ?_, ?_, ?_, ?_, ?_, ?_⟩
    · rw [hmfree, show B.onFree = false by rw [hB]; rfl]
      exact .same _
    · rw [show (w.page m).onZone = false by rw [Page.onZone, hreal, Bool.and_false],
        show B.onZone = false by rw [hB]; rfl]
      exact .same _
    · rw [k1, show B.active = false by rw [hB]; rfl]
      exact .same _
    · rw [k2, show B.inactive = false by rw [hB]; rfl]
      exact .same _
    · rw [hlim, hBlim]
      refine .perm _ ?_
      rw [hq]
      exact perm_append_singleton m queueLimbo
    · rw [hmfree, show B.onFree = false by rw [hB]; rfl]
      exact keep _ _
    · rw [Page.activeReal, k1, Bool.false_and, show B.activeReal = false by rw [hB]; rfl]
      exact keep _ _
    · rw [Page.inactiveReal, k2, Bool.false_and, show B.inactiveReal = false by rw [hB]; rfl]
      exact keep _ _
    · rw [hlim, hBlim]
      exact keep _ _
    · rw [hlim, hBlim, hreal, show B.fictitious = true by rw [hB]]
      simp
    · rw [k3, show B.gobbled = false by rw [hB]; rfl]
      exact keep _ _
    · rw [show (w.page m).wiredReal = false by simp [Page.wiredReal, Page.isWired, k3, k4],
        show B.wiredReal = false by rw [hB]; rfl]
      exact keep _ _
  have hBreal : B.isReal = false := by rw [hB]; rfl
  have h1 := h.change hf1 (by rw [hB]; exact ⟨of_eq_false rfl, fun _ => ⟨rfl, rfl, rfl, rfl, rfl⟩,
    of_eq_false rfl, of_eq_false rfl, of_eq_false rfl, of_eq_false rfl⟩)
    ⟨rfl, rfl, rfl, by rw [k5, hB]; rfl, by rw [hB]; exact of_eq_false rfl⟩
    (by rw [hBreal]; exact of_eq_false rfl) ?_
  · -- the page structure gets its memory
    have hm1 : ∀ q, q ≠ m → ({ w.set m B with
        queueLimbo := queueLimbo ++ [m], limboRealCount := w.limboRealCount - 1 } :
        PageWorld P O).page q = w.page q := fun q hq => update_of_ne hq ..
    have hlim1 : ∀ pg : Page O, pg.limbo = false → Slack.lim ⟨none, 0⟩ freeM pg = false :=
      fun pg hl => by rw [Slack.lim, hl, Bool.false_and]
    have hnew : Page.Idle { w.page m with limbo := false, prepPinCount := 0 } :=
      ⟨hmfree', k1, k2, k3, k4, k5⟩
    have h2 := (h1.setIdleAddr (m := freeM) (by rw [hm1 _ hne]; exact hidle)
      (by rw [hm1 _ hne]; exact hlim1 _ hflimbo) hnew (hlim1 _ rfl) ?_).lag (d := 1)
    · subst hw
      refine ⟨?_, ?_⟩
      · unfold PageWorld.set at h2 ⊢
        dsimp only at h2 ⊢
        rw [Int.sub_add_cancel, Function.update_comm hne.symm] at h2
        exact h2
      · show (update (update w.page freeM _) m B freeM).limbo = false
        rw [update_of_ne hne, update_self]
    · intro hr q _ hq hpq
      by_cases hqm : q = m
      · subst hqm
        rw [hf1.page_self, hBreal] at hq
        cases hq
      · rw [hm1 q hqm] at hq hpq
        exact hqm (h.addr q m hq hr hpq)
  · -- the real pages of the queue stay first
    have hpair := h.realFirst
    unfold RealFirst at hpair ⊢
    rw [hq, pairwise_cons] at hpair
    have hnd := h.queues.limbo.nodup
    rw [hq, List.nodup_cons] at hnd
    refine pairwise_append.mpr ⟨?_, pairwise_singleton .., fun a _ b hb _ => ?_⟩
    · refine hpair.2.imp_of_mem fun ha hb hab => ?_
      rw [hf1.page_ne fun he => hnd.1 (he ▸ ha), hf1.page_ne fun he => hnd.1 (he ▸ hb)]
      exact hab
    · rw [mem_singleton.mp hb, hf1.page_self, hB]

theorem PageInv.exchangeReal {n : ℕ} (h : PageInv ⟨none, 0⟩ c w)
    (hs : exchangeReal c n w = some w') : PageInv ⟨none, 0⟩ c w' := by
  induction n generalizing w with
  | zero =>
    cases hs
    exact h
  | succ n ih =>
    rw [Resident.exchangeReal] at hs
    split at hs
    · cases hs
    next m queueLimbo hq =>
    split at hs
    · cases hs
    next hcond =>
    simp only [not_or, Bool.not_eq_true, Bool.not_eq_false] at hcond
    cases hz : w.zone with
    | nil =>
      have hgrab : Resident.vmPageGrabFictitious { w with queueLimbo := queueLimbo } =
          ({ w with queueLimbo := queueLimbo }, none) := by
        simp [Resident.vmPageGrabFictitious, hz]
      rw [hgrab] at hs
      have hw := some.inj hs
      dsimp only at hw
      rw [← hq] at hw
      rw [← hw]
      exact h
    | cons freeM zone =>
      have hgrab1 : Resident.vmPageGrabFictitious w =
          ({ w.set freeM { w.page freeM with free := false } with zone := zone },
            some freeM) := by
        simp [Resident.vmPageGrabFictitious, hz]
      obtain ⟨h1, hfree⟩ := h.vmPageGrabFictitious hgrab1
      obtain ⟨honzone, hpage1, -⟩ := hfree freeM rfl
      have hgrab : Resident.vmPageGrabFictitious { w with queueLimbo := queueLimbo } =
          ({ w.set freeM { w.page freeM with free := false } with
            zone := zone, queueLimbo := queueLimbo }, some freeM) := by
        simp [Resident.vmPageGrabFictitious, hz, PageWorld.set]
      rw [hgrab] at hs
      dsimp only at hs
      obtain ⟨w2, hs2, hs⟩ := bind_eq_some_iff.mp hs
      obtain ⟨w3, hs3, hs⟩ := bind_eq_some_iff.mp hs
      have hffree : (w.page freeM).free = true := by
        rw [Page.onZone, Bool.and_eq_true] at honzone
        exact honzone.1
      obtain ⟨hidle, hflimbo, -⟩ := h.idle_of_free hffree
      have hne : freeM ≠ m := by
        rintro rfl
        rw [hflimbo] at hcond
        cases hcond.2
      obtain ⟨h2, hl2⟩ := h1.exchange hq hne (by rw [hpage1, update_self]; exact hidle)
        (by rw [hpage1, update_self]; exact hflimbo) hs2
      have h3 := h2.vmPageFree (of_eq_false hl2) hs3
      have hl2' : (({ w2 with queueLimbo := w2.queueLimbo ++ [m] } : PageWorld P O).page
          freeM).limbo = false := hl2
      rw [hl2'] at h3
      have h4 : PageInv ⟨none, 1⟩ c w3 := h3
      have h5 := h4.lag (d := -1)
      rw [show (1 : ℤ) + -1 = 0 from rfl] at h5
      exact ih h5 hs

/-- **`cleanup_limbo_queue`.** -/
theorem PageInv.cleanupLimboQueue (h : PageInv ⟨none, 0⟩ c w)
    (hs : cleanupLimboQueue c w = some w') : PageInv ⟨none, 0⟩ c w' := by
  obtain ⟨w1, hs1, hs⟩ := bind_eq_some_iff.mp hs
  refine (h.freeUnprepped h.queues.limbo.nodup (fun p hp => ?_) hs1).exchangeReal hs
  have := (h.queues.limbo.mem p).mp hp
  rw [Slack.lim, Bool.and_eq_true] at this
  exact this.1

section Sorting

omit [DecidableEq P] [Fintype P]

variable {addr : P → ℕ}

theorem insertBefore_perm {l : List P} (h : ∃ m1 ∈ l, addr m < addr m1) :
    (insertBefore addr m l).Perm (m :: l) := by
  induction l with
  | nil =>
    obtain ⟨m1, hm1, -⟩ := h
    cases hm1
  | cons m1 l ih =>
    rw [insertBefore]
    split
    · exact .refl _
    next hnot =>
    obtain ⟨m2, hm2, hlt⟩ := h
    rcases mem_cons.mp hm2 with rfl | hm2
    · exact absurd hlt hnot
    · exact ((ih ⟨m2, hm2, hlt⟩).cons m1).trans (.swap m m1 l)

theorem sortInsert_perm {l : List P} (hne : l ≠ []) (haddr : ∀ p ∈ l, addr m ≠ addr p) :
    (sortInsert addr l m).Perm (m :: l) := by
  unfold sortInsert
  split
  · next first last hfirst hlast =>
    split
    · exact .refl _
    split
    · exact perm_append_singleton m l
    · next hlt =>
      have hmem : last ∈ l := List.mem_of_getLast? hlast
      have := haddr last hmem
      exact insertBefore_perm ⟨last, hmem, by omega⟩
  · next hno =>
    obtain ⟨a, ha⟩ : ∃ a, l.head? = some a := isSome_iff_exists.mp (by
      rw [isSome_head?]
      simpa using hne)
    obtain ⟨b, hb⟩ : ∃ b, l.getLast? = some b := isSome_iff_exists.mp (by
      rw [List.getLast?_isSome]
      exact hne)
    exact absurd hb (hno a b ha)

theorem foldl_sortInsert_perm {l sorted : List P} (hne : sorted ≠ []) (hnd : (l ++ sorted).Nodup)
    (haddr : ∀ p ∈ l ++ sorted, ∀ q ∈ l ++ sorted, addr p = addr q → p = q) :
    (l.foldl (sortInsert addr) sorted).Perm (l ++ sorted) := by
  induction l generalizing sorted with
  | nil => exact .refl _
  | cons m l ih =>
    rw [foldl_cons]
    have hperm : (sortInsert addr sorted m).Perm (m :: sorted) := by
      refine sortInsert_perm hne fun p hp he => ?_
      rw [cons_append, List.nodup_cons] at hnd
      have := haddr m (by simp) p (by simp [hp]) he
      exact hnd.1 (mem_append_right _ (this ▸ hp))
    have hall : (l ++ sortInsert addr sorted m).Perm (m :: l ++ sorted) :=
      (hperm.append_left l).trans perm_middle
    refine (ih ?_ ?_ ?_).trans hall
    · intro he
      rw [he] at hperm
      exact absurd hperm.length_eq (by simp)
    · exact hall.nodup_iff.mpr hnd
    · intro p hp q hq
      exact haddr p (hall.mem_iff.mp hp) q (hall.mem_iff.mp hq)

/-- **`vm_page_free_list_sort`** keeps every page. -/
theorem vmPageFreeListSort_perm {l sorted : List P} (hnd : l.Nodup)
    (haddr : ∀ p ∈ l, ∀ q ∈ l, addr p = addr q → p = q)
    (hs : vmPageFreeListSort addr l = some sorted) : sorted.Perm l := by
  cases l with
  | nil => cases hs
  | cons m l =>
    cases hs
    have hperm : (l ++ [m]).Perm (m :: l) := perm_append_singleton m l
    refine (foldl_sortInsert_perm (cons_ne_nil m []) (hperm.nodup_iff.mpr hnd) ?_).trans hperm
    intro p hp q hq
    exact haddr p (hperm.mem_iff.mp hp) q (hperm.mem_iff.mp hq)

theorem findContiguousLoop_eq {pageSize npages : ℕ} {before run l b r a : List P}
    {prevAddr : Option ℕ}
    (hs : findContiguousLoop addr pageSize npages before run prevAddr l = some (b, r, a)) :
    b ++ r ++ a = before ++ run ++ l ∧ r.length = npages := by
  induction l generalizing before run prevAddr with
  | nil => cases hs
  | cons m l ih =>
    rw [findContiguousLoop] at hs
    have hsplit : ∀ b1 r1 : List P, b1 ++ r1 = before ++ run →
        (if (r1 ++ [m]).length = npages then some (b1, r1 ++ [m], l)
          else findContiguousLoop addr pageSize npages b1 (r1 ++ [m]) (some (addr m + pageSize)) l) =
          some (b, r, a) → b ++ r ++ a = before ++ run ++ m :: l ∧ r.length = npages := by
      intro b1 r1 hbr hs
      split at hs
      · next hlen =>
        obtain ⟨rfl, hrest⟩ := Prod.mk.inj (some.inj hs)
        cases hrest
        refine ⟨?_, hlen⟩
        rw [← hbr]
        simp
      · obtain ⟨heq, hlen⟩ := ih hs
        refine ⟨heq.trans ?_, hlen⟩
        rw [← hbr]
        simp
    by_cases hprev : prevAddr = some (addr m)
    · rw [if_pos hprev] at hs
      exact hsplit before run rfl hs
    · rw [if_neg hprev] at hs
      exact hsplit (before ++ run) [] (append_nil _) hs

end Sorting

theorem PageInv.permFree {l : List P} (h : PageInv σ c w) (hl : l.Perm w.queueFree) :
    PageInv σ c { w with queueFree := l } where
  ok := h.ok
  queues := ⟨h.queues.free.perm hl, h.queues.zone, h.queues.active, h.queues.inactive,
    h.queues.limbo⟩
  counts := { h.counts with }
  table := { h.table with }
  addr := h.addr
  realFirst := h.realFirst

theorem PageInv.gobbleRun {run q : List P} (h : PageInv σ c w) (hq : w.queueFree = run ++ q) :
    PageInv σ c { w with
      page := gobbleRun w.page run
      queueFree := q
      freeCount := w.freeCount - run.length
      gobbleCount := w.gobbleCount + run.length
      wireCount := w.wireCount + run.length } := by
  induction run generalizing w with
  | nil =>
    have hw : ({ w with
        page := Resident.gobbleRun w.page []
        queueFree := q
        freeCount := w.freeCount - ([] : List P).length
        gobbleCount := w.gobbleCount + ([] : List P).length
        wireCount := w.wireCount + ([] : List P).length } : PageWorld P O) = w := by
      rw [nil_append] at hq
      rw [← hq]
      simp [Resident.gobbleRun]
    rw [hw]
    exact h
  | cons m run ih =>
    have hfree : (w.page m).onFree = true := (h.queues.free.mem m).mp (by simp [hq])
    have hflags : (w.page m).free = true ∧ (w.page m).fictitious = false := by
      simpa [Page.onFree] using hfree
    obtain ⟨k1, k2, k3, k4, k5, k6, k7⟩ := (h.ok m).free hflags.1
    have hf : Follow σ w { w with
        page := update w.page m { w.page m with free := false, gobbled := true }
        queueFree := run ++ q
        freeCount := w.freeCount - 1
        gobbleCount := w.gobbleCount + 1
        wireCount := w.wireCount + 1 } m { w.page m with free := false, gobbled := true } := by
      refine { Follow.refl with
        page := rfl, free := ?_, zone := ?_, freeCount := ?_, gobbleCount := ?_, wireCount := ?_ }
      · have := Follows.leave (l := w.queueFree) (m := m)
        rw [hq, cons_append, erase_cons_head] at this
        rw [hfree, hq]
        exact this
      · simp only [Page.onZone, hflags.2, Bool.and_false]
        exact .same _
      · rw [hfree]
        simp [Page.onFree]
      · simp [k4]
      · simp [Page.wiredReal, Page.isReal, Page.isWired, hflags.2, k4, k5, k7]
    have h1 := h.changeFlags hf { h.ok m with
      free := of_eq_false rfl, limbo := of_eq_false (by rw [Slack.lim, k3, Bool.false_and])
      gobbled := fun _ => k5 }
      ⟨rfl, rfl⟩
    have h2 := ih h1 rfl
    have hlen : ∀ x : ℤ, x - ((m :: run).length : ℕ) = x - 1 - (run.length : ℕ) ∧
        x + ((m :: run).length : ℕ) = x + 1 + (run.length : ℕ) := by
      intro x
      rw [length_cons]
      omega
    rw [(hlen _).1, (hlen _).2, (hlen w.wireCount).2]
    exact h2

theorem PageInv.wireRun {l : List P}
    (h : PageInv σ c { w with wireCount := w.wireCount + l.length })
    (hs : wireRun l w = some w') : PageInv σ c w' := by
  induction l generalizing w with
  | nil =>
    obtain rfl := some.inj hs
    have hw : ({ w with wireCount := w.wireCount + ([] : List P).length } : PageWorld P O) = w := by
      simp
    rwa [hw] at h
  | cons m l ih =>
    obtain ⟨hcond, hs⟩ := ite_none_left_eq_some.mp hs
    simp only [not_or, Bool.not_eq_true, ne_eq, not_not, Bool.not_eq_false] at hcond
    obtain ⟨k1, k2, k3, k4, k5, k6⟩ := hcond
    refine ih ?_ hs
    have hok := h.ok m
    have hf : Follow σ { w with wireCount := w.wireCount + ((m :: l).length : ℕ) }
        { w.set m { w.page m with gobbled := false, wireCount := 1 } with
          wireCount := w.wireCount + 1 + (l.length : ℕ), gobbleCount := w.gobbleCount - 1 } m
        { w.page m with gobbled := false, wireCount := 1 } := by
      refine { Follow.refl with page := rfl, gobbleCount := ?_, wireCount := ?_ }
      · simp [k6]
      · simp [Page.wiredReal, Page.isReal, Page.isWired, k3, k4, k5, k6]
        omega
    refine h.changeFlags hf
      ⟨fun hc => ?_, fun hc => ?_, of_eq_false k1, of_eq_false k2, of_eq_false rfl, hok.tabled⟩
      ⟨rfl, rfl⟩
    · exact of_eq_false (hok.free hc).2.2.2.1 k6
    · exact of_eq_false (hok.limbo hc).2.2.1 k6

theorem PageInv.findContiguous {npages : ℕ} {r : Option (List P)} (h : PageInv σ c w)
    (hs : vmPageFindContiguous c w npages = (w', r)) :
    (r = none → w' = w) ∧
      ∀ pages, r = some pages → PageInv σ c { w' with wireCount := w'.wireCount + pages.length } := by
  unfold vmPageFindContiguous at hs
  split at hs
  · cases hs
    exact ⟨fun _ => rfl, by simp⟩
  split at hs
  · cases hs
    exact ⟨fun _ => rfl, by simp⟩
  next before run after hfind =>
  obtain ⟨hw, rfl⟩ := Prod.mk.inj hs
  refine ⟨by simp, fun pages hpages => ?_⟩
  cases hpages
  obtain ⟨heq, hlen⟩ := findContiguousLoop_eq hfind
  rw [append_nil, nil_append] at heq
  have hperm : (run ++ (before ++ after)).Perm w.queueFree := by
    rw [← heq, append_assoc]
    exact perm_append_comm_assoc ..
  have h1 := (h.permFree hperm).gobbleRun rfl
  subst hw
  rw [hlen] at h1 ⊢
  exact h1

/-- **`cpm_allocate`** of pages that are wired. -/
theorem PageInv.cpmAllocate {size : ℕ} {r : Option (List P)} (h : PageInv σ c w)
    (hs : cpmAllocate c w size true = some (w', r)) : PageInv σ c w' := by
  unfold Resident.cpmAllocate at hs
  split at hs
  · cases hs
    exact h
  split at hs
  · cases hs
    exact h
  obtain ⟨queueFree, hsort, hs⟩ := bind_eq_some_iff.mp hs
  have hfreeReal : ∀ p ∈ w.queueFree, (w.page p).isReal = true := by
    intro p hp
    have hon := (h.queues.free.mem p).mp hp
    have hflags : (w.page p).free = true ∧ (w.page p).fictitious = false := by
      simpa [Page.onFree] using hon
    simp [Page.isReal, hflags.2, ((h.ok p).free hflags.1).2.2.2.2.2.2]
  have hperm : queueFree.Perm w.queueFree :=
    vmPageFreeListSort_perm h.queues.free.nodup
      (fun p hp q hq he => h.addr p q (hfreeReal p hp) (hfreeReal q hq) he) hsort
  have h1 := h.permFree hperm
  generalize hfind : vmPageFindContiguous c { w with queueFree := queueFree } (size / c.pageSize) =
    found at hs
  obtain ⟨w2, r2⟩ := found
  obtain ⟨hnone, hsome⟩ := h1.findContiguous hfind
  cases r2 with
  | none =>
    cases hs
    rw [hnone rfl]
    exact h1
  | some pages =>
    dsimp only at hs
    rw [if_pos rfl] at hs
    obtain ⟨w3, hwire, hw⟩ := map_eq_some_iff.mp hs
    cases hw
    exact (hsome pages rfl).wireRun hwire

/-- **What is said about resident pages**: a page is in the queue that its flags name and in no
other, the counters are the numbers of pages with the flags, and the table finds each tabled page
and no other. -/
structure Accounted (c : Config O) (w : PageWorld P O) : Prop where
  free : Lists w.queueFree fun p => (w.page p).free && !(w.page p).fictitious
  zone : Lists w.zone fun p => (w.page p).free && (w.page p).fictitious
  active : Lists w.queueActive fun p => (w.page p).active
  inactive : Lists w.queueInactive fun p => (w.page p).inactive
  limbo : Lists w.queueLimbo fun p => (w.page p).limbo
  one : ∀ p, [(w.page p).free, (w.page p).active, (w.page p).inactive,
    (w.page p).limbo].count true ≤ 1
  freeCount : w.freeCount = tally fun p => (w.page p).free && !(w.page p).fictitious
  activeCount : w.activeCount = tally fun p => (w.page p).active && !(w.page p).fictitious
  inactiveCount : w.inactiveCount = tally fun p => (w.page p).inactive && !(w.page p).fictitious
  limboCount : w.limboCount = tally fun p => (w.page p).limbo
  limboRealCount : w.limboRealCount = tally fun p => (w.page p).limbo && !(w.page p).fictitious
  gobbleCount : w.gobbleCount = tally fun p => (w.page p).gobbled
  wireCount : w.wireCount = tally fun p => (!(w.page p).isPrivate && !(w.page p).fictitious) &&
    (decide ((w.page p).wireCount ≠ 0) || (w.page p).gobbled)
  lookup : ∀ o f p, vmPageLookup c w o f = some p ↔
    (w.page p).tabled = true ∧ (w.page p).object = some o ∧ (w.page p).offset = f
  resident : ∀ o, w.residentPageCount o =
    tally fun p => (w.page p).tabled && decide ((w.page p).object = some o)

theorem PageInv.accounted (h : PageInv ⟨none, 0⟩ c w) : Accounted c w := by
  have hlim : ∀ p, Slack.lim ⟨none, 0⟩ p (w.page p) = (w.page p).limbo := fun p => by
    simp [Slack.lim]
  refine ⟨h.queues.free, h.queues.zone, h.queues.active, h.queues.inactive,
    h.queues.limbo.congr fun p => (hlim p).symm, fun p => ?_, h.counts.free, h.counts.active,
    h.counts.inactive, ?_, ?_, h.counts.gobble, h.counts.wire,
    fun o f p => h.vmPageLookup_eq_some, h.table.count⟩
  · have hok := h.ok p
    rw [hlim] at hok
    cases hf : (w.page p).free with
    | true =>
      obtain ⟨h1, h2, h3, -⟩ := hok.free hf
      simp [h1, h2, h3]
    | false =>
      cases hl : (w.page p).limbo with
      | true =>
        obtain ⟨h1, h2, -⟩ := hok.limbo hl
        simp [h1, h2]
      | false =>
        cases ha : (w.page p).active with
        | true => simp [(hok.active ha).1]
        | false => cases (w.page p).inactive <;> simp
  · rw [h.counts.limbo]
    exact congrArg tally (funext hlim)
  · rw [h.counts.limboReal, Int.add_zero]
    exact congrArg tally (funext fun p => by rw [hlim])

/-- A page that was allocated: it is neither free nor in limbo. -/
def PageWorld.Allocated (w : PageWorld P O) (m : P) : Prop :=
  (w.page m).free = false ∧ (w.page m).limbo = false

/-- **The condition on an operation**: pages that it is given are allocated, pages are entered
where there is none, a page that is converted is neither wired nor gobbled, the 16 bits of a wiring
do not overflow, and contiguous pages are wired. -/
def PageOp.Proper (w : PageWorld P O) : PageOp P O → Prop
  | .convert m _ => w.Allocated m ∧ (w.page m).wireCount = 0 ∧ (w.page m).gobbled = false
  | .insert mem object offset => w.Allocated mem ∧ w.Vacant object offset
  | .replace mem _ _ => w.Allocated mem
  | .rename _ newObject newOffset => w.Vacant newObject newOffset
  | .wire mem => w.Allocated mem ∧ (w.page mem).wireCount + 1 < 2 ^ 16
  | .gobble mem => w.Allocated mem
  | .activate m => w.Allocated m
  | .deactivate m => w.Allocated m
  | .free mem => w.Allocated mem
  | .freeLimbo mem => w.Allocated mem
  | .cpmAllocate _ wired => wired = true
  | _ => True

/-- Every operation of a run meets the condition. -/
def AllProper (c : Config O) (w : PageWorld P O) (ops : List (PageOp P O)) : Prop :=
  Trace.Meets (pageStep c) (fun w op => op.Proper w) w ops

section

variable (h : PageInv ⟨none, 0⟩ c w)
include h

theorem PageInv.setLimbo (hm : w.Allocated m) :
    PageInv ⟨some m, 0⟩ c (w.set m { w.page m with limbo := true }) := by
  have hlim : ∀ p, Slack.lim ⟨some m, 0⟩ p (w.page p) = Slack.lim ⟨none, 0⟩ p (w.page p) := by
    intro p
    by_cases hp : p = m
    · subst hp
      simp [Slack.lim, hm.2]
    · simp [Slack.lim, Ne.symm hp]
  have hpend : ∀ pg : Page O, Slack.lim ⟨some m, 0⟩ m pg = false := fun pg => by simp [Slack.lim]
  have h1 : PageInv ⟨some m, 0⟩ c w := by
    refine ⟨fun p => ?_, ⟨h.queues.free, h.queues.zone, h.queues.active, h.queues.inactive,
      h.queues.limbo.congr hlim⟩, ⟨h.counts.free, h.counts.active, h.counts.inactive, ?_, ?_,
      h.counts.gobble, h.counts.wire⟩, h.table, h.addr, h.realFirst⟩
    · rw [hlim]
      exact h.ok p
    · rw [h.counts.limbo]
      exact congrArg tally (funext fun p => (hlim p).symm)
    · rw [h.counts.limboReal]
      exact congrArg (tally · + 0) (funext fun p => by rw [hlim])
  have hok := h1.ok m
  have hf : Follow ⟨some m, 0⟩ w (w.set m { w.page m with limbo := true }) m
      { w.page m with limbo := true } := by
    refine ⟨rfl, .same _, .same _, .same _, .same _, ?_, keep _ _, keep _ _, keep _ _, ?_, ?_,
      keep _ _, keep _ _⟩
    · rw [hpend, hpend]
      exact .same _
    · rw [hpend, hpend]
      exact keep _ _
    · rw [hpend, hpend]
      exact keep _ _
  exact h1.change hf ⟨of_eq_false hm.1, of_eq_false (hpend _), hok.active, hok.inactive, hok.gobbled,
    hok.tabled⟩ ⟨rfl, rfl, rfl, rfl, fun _ => ⟨rfl, rfl⟩⟩ (fun hr => ⟨hr, rfl⟩)
    (RealFirst.same h1 hf rfl fun _ => rfl)

/-- **One operation** that meets the condition. -/
theorem PageInv.step {op : PageOp P O}
    (hs : pageStep c w op = some w') (hp : op.Proper w) : PageInv ⟨none, 0⟩ c w' := by
  have hlim : ∀ {m : P}, w.Allocated m → Slack.lim ⟨none, 0⟩ m (w.page m) = false := by
    intro m hm
    rw [Slack.lim, hm.2, Bool.false_and]
  cases op with
  | grab vmPrivilege =>
    obtain ⟨⟨w1, r⟩, hg, rfl⟩ := map_eq_some_iff.mp hs
    exact (h.vmPageGrab hg).1
  | grabFictitious =>
    cases hs
    exact (h.vmPageGrabFictitious rfl).1
  | convert m vmPrivilege =>
    obtain ⟨⟨w1, r⟩, hg, rfl⟩ := map_eq_some_iff.mp hs
    exact h.vmPageConvert hp.1.1 (hlim hp.1) hp.2.1 hp.2.2 hg
  | insert mem object offset => exact h.vmPageInsert hp.1.1 (hlim hp.1) hp.2 hs
  | replace mem object offset => exact h.vmPageReplace hp.1 hp.2 hs
  | rename mem newObject newOffset => exact h.vmPageRename hp hs
  | remove mem => exact (h.vmPageRemove hs).1
  | wire mem => exact h.vmPageWire hp.1.1 (hlim hp.1) hp.2 hs
  | unwire mem => exact h.vmPageUnwire hs
  | gobble mem => exact h.vmPageGobble hp.1 (hlim hp) hs
  | activate m => exact h.vmPageActivate hp.1 (hlim hp) hs
  | deactivate m => exact h.vmPageDeactivate hp.1 (hlim hp) hs
  | free mem =>
    have := h.vmPageFree (of_eq_false hp.2) hs
    rwa [hp.2] at this
  | freeLimbo mem =>
    have := (h.setLimbo hp).vmPageFree (fun _ => rfl) hs
    rwa [set_page_self] at this
  | cleanupLimboQueue => exact h.cleanupLimboQueue hs
  | cpmAllocate size wire =>
    obtain ⟨⟨w1, r⟩, hg, rfl⟩ := map_eq_some_iff.mp hs
    rw [show wire = true from hp] at hg
    exact h.cpmAllocate hg
  | touch m t =>
    obtain ⟨-, ⟨⟩⟩ := ite_none_left_eq_some.mp hs
    exact h.touch m _ ⟨rfl, rfl, rfl, rfl, rfl, rfl, rfl, rfl, rfl⟩ rfl fun _ => ⟨rfl, rfl⟩

theorem PageInv.run {ops : List (PageOp P O)}
    (hs : pageRun c w ops = some w') (hp : AllProper c w ops) : PageInv ⟨none, 0⟩ c w' :=
  Trace.invariant (I := fun w : PageWorld P O => PageInv ⟨none, 0⟩ c w)
    (fun _ _ _ h hp hs => PageInv.step h hs hp) ops w w' h hp hs

end

/-- **The accounting in every run** of operations that meet the condition. -/
theorem accounted_of_run {ops : List (PageOp P O)} (h : PageInv ⟨none, 0⟩ c w)
    (hs : pageRun c w ops = some w') (hp : AllProper c w ops) : Accounted c w' :=
  (h.run hs hp).accounted

/-- Two pages on the free list, and a page structure in the zone. -/
def bootPages : PageWorld (Fin 3) Unit where
  page := fun p => match p with
    | 0 => { vmPageInit Unit 4096 with free := true }
    | 1 => { vmPageInit Unit 8192 with free := true }
    | 2 => { vmPageInit Unit vmPageFictitiousAddr with fictitious := true, free := true }
  queueFree := [0, 1]
  zone := [2]
  queueActive := []
  queueInactive := []
  queueLimbo := []
  freeCount := 2
  activeCount := 0
  inactiveCount := 0
  limboCount := 0
  limboRealCount := 0
  gobbleCount := 0
  wireCount := 0
  buckets := fun _ => []
  memq := fun _ => []
  residentPageCount := fun _ => 0

/-- Pages of 4096 bytes, none reserved. -/
def bootConfig : Config Unit where
  pageSize := 4096
  freeReserved := 0
  hash := fun _ offset => offset
  internal := fun _ => false
  size := fun _ => 0
  pageout := fun _ => false

theorem bootPages_inv : PageInv ⟨none, 0⟩ bootConfig bootPages where
  ok := fun p => by
    fin_cases p <;>
      exact ⟨fun _ => ⟨rfl, rfl, rfl, rfl, rfl, rfl, rfl⟩, of_eq_false rfl, of_eq_false rfl,
        of_eq_false rfl, of_eq_false rfl, of_eq_false rfl⟩
  queues := by
    refine ⟨⟨?_, ?_⟩, ⟨?_, ?_⟩, ⟨?_, ?_⟩, ⟨?_, ?_⟩, ⟨?_, ?_⟩⟩ <;> decide
  counts := by
    constructor <;> decide
  table := by
    refine ⟨fun b => ⟨.nil, fun p => ?_⟩, fun o => ⟨.nil, fun p => ?_⟩, fun o => ?_,
      fun p q hp => ?_⟩
    · fin_cases p <;> exact ⟨nofun, of_eq_false rfl⟩
    · fin_cases p <;> exact ⟨nofun, of_eq_false rfl⟩
    · obtain ⟨⟩ := o
      decide
    · fin_cases p <;> cases hp
  addr := by decide
  realFirst := .nil

/-- A page is entered, activated and wired, and another one is allocated as contiguous. -/
theorem accounted_of_run_boot :
    ∃ w', pageRun bootConfig bootPages [.grab true, .insert 0 () 0, .activate 0, .wire 0,
        .cpmAllocate 4096 true] = some w' ∧ w'.wireCount = 2 ∧ Accounted bootConfig w' := by
  obtain ⟨w', hw'⟩ : ∃ w', pageRun bootConfig bootPages [.grab true, .insert 0 () 0, .activate 0,
    .wire 0, .cpmAllocate 4096 true] = some w' := ⟨_, rfl⟩
  refine ⟨w', hw', ?_, accounted_of_run bootPages_inv hw' ?_⟩
  · obtain rfl := some.inj hw'
    rfl
  · refine ⟨trivial, fun w1 h1 => ?_⟩
    cases h1
    refine ⟨⟨⟨rfl, rfl⟩, by unfold PageWorld.Vacant; decide⟩, fun w2 h2 => ?_⟩
    cases h2
    refine ⟨⟨rfl, rfl⟩, fun w3 h3 => ?_⟩
    cases h3
    refine ⟨⟨⟨rfl, rfl⟩, by decide⟩, fun w4 _ => ⟨rfl, fun _ _ => trivial⟩⟩

/-- **Contiguous pages that are not wired are not counted**: the page is gobbled and the count of
wired pages is 0; when the page is freed, the count is negative. -/
theorem gobbled_uncounted : PageInv ⟨none, 0⟩ bootConfig bootPages ∧
    ∃ w1 w2, pageRun bootConfig bootPages [.cpmAllocate 4096 false] = some w1 ∧
      (w1.page 0).gobbled = true ∧ w1.wireCount = 0 ∧ ¬ Accounted bootConfig w1 ∧
      pageRun bootConfig w1 [.free 0] = some w2 ∧ w2.wireCount = -1 := by
  refine ⟨bootPages_inv, _, _, rfl, rfl, rfl, fun h => ?_, rfl, rfl⟩
  exact absurd h.wireCount (by decide)

end Osfmk.Resident

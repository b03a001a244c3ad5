import Osfmk.Vm.MapPages

/-!
# Clustered pagein

Before `vm_fault_page` asks the pager for a page, it looks for other pages of the same block to ask for
with it: first behind the page and then ahead of it.  For each of them it puts a page in the object that
is absent, busy and clustered.  A scan stops at its bound, at a page that is resident or not paged out,
and when no page can be had; for an object that is not internal it then lets other threads run, and
looks again.
-/

open List Option

namespace Osfmk

/-- What `vm_fault_page` knows when it asks for a page. -/
structure ClusterFault where
  page : ℕ
  pagingOffset : ℕ
  clusterSize : ℕ
  internal : Bool
  offset : ℕ
  loOffset : ℕ
  hiOffset : ℕ
  behavior : VmBehavior
  ahead : ℕ
  behind : ℕ
  allow : Bool

/-- The pages of the object that other faults have put there, and those that may be paged out. -/
structure ClusterPages where
  resident : ℕ → Bool
  lookFor : ℕ → Bool

/-- What comes of `vm_page_grab` or `vm_page_grab_fictitious`. -/
inductive ClusterGrab
  | page
  | none (others : ClusterPages)

/-- Where a scan stopped, and the pages it put in the object. -/
structure ClusterStop where
  edge : ℕ
  pages : ClusterPages
  inserted : List ℕ
  grabs : List ClusterGrab
  gaveUp : Bool

/-- **Both scans**: `more` is the test of the loop and `next` its step. -/
def clusterScan (internal : Bool) (more : ℕ → Bool) (next : ℕ → ℕ) (at' : ℕ) (pages : ClusterPages)
    (inserted : List ℕ) (grabs : List ClusterGrab) : Option ClusterStop :=
  if more at' && pages.lookFor at' && !(pages.resident at' || inserted.contains at') then
    match grabs with
    | [] => none
    | .page :: grabs => clusterScan internal more next (next at') pages (inserted ++ [at']) grabs
    | .none others :: grabs =>
      if internal then some ⟨at', pages, inserted, grabs, true⟩
      else
        -- the pages put in the object are busy and stay there
        clusterScan internal more next at'
          { others with resident := fun x => others.resident x && !inserted.contains x } inserted grabs
  else some ⟨at', pages, inserted, grabs, false⟩

namespace ClusterFault

def alignOffset (f : ClusterFault) : ℕ := (f.offset + f.pagingOffset) % 2 ^ 32 &&& (f.page - 1)

def clusterOffset (f : ClusterFault) : ℕ :=
  let o := (f.offset + f.pagingOffset) % 2 ^ 32 &&& (f.clusterSize - 1)
  if f.alignOffset ≠ 0 then o / f.page * f.page else o

def spansCluster (f : ClusterFault) (x : ℕ) : Bool :=
  decide ((x + (2 ^ 32 - f.alignOffset)) % 2 ^ 32 &&& (f.clusterSize - 1) = 0)

/-- The offset of the page before, and of the page after. -/
def pageBefore (f : ClusterFault) (x : ℕ) : ℕ := (x + (2 ^ 32 - f.page)) % 2 ^ 32

def pageAfter (f : ClusterFault) (x : ℕ) : ℕ := (x + f.page) % 2 ^ 32

def clusterBot (f : ClusterFault) : ℕ :=
  let bot := if f.offset > f.clusterOffset then f.offset - f.clusterOffset else f.offset
  let bot :=
    if f.alignOffset ≠ 0 ∧ bot < f.offset ∧ f.spansCluster bot then f.pageAfter bot else bot
  let back := (f.offset + (2 ^ 32 - f.behind * f.page % 2 ^ 32)) % 2 ^ 32
  let bot := if f.behavior = .default ∧ bot < back then back else bot
  if f.loOffset > bot then f.loOffset else bot

def clusterTop (f : ClusterFault) : ℕ :=
  let top := (f.offset + f.clusterSize + (2 ^ 32 - f.clusterOffset)) % 2 ^ 32
  let top :=
    if f.alignOffset ≠ 0 ∧ top > f.pageAfter f.offset ∧ f.spansCluster top then
      f.pageBefore top
    else top
  let front := (f.offset + (f.ahead * f.page + f.page)) % 2 ^ 32
  let top := if f.behavior = .default ∧ top > front then front else top
  if top > f.hiOffset then f.hiOffset else top

/-- The scan behind the page. -/
def scanBehind (f : ClusterFault) (pages : ClusterPages) (grabs : List ClusterGrab) :
    Option ClusterStop :=
  clusterScan f.internal
    (fun x => decide (f.clusterBot ≤ x ∧ x ≠ f.pageBefore f.alignOffset)) f.pageBefore
    (f.pageBefore f.offset) pages [] grabs

/-- The scan ahead of the page. -/
def scanAhead (f : ClusterFault) (pages : ClusterPages) (inserted : List ℕ)
    (grabs : List ClusterGrab) : Option ClusterStop :=
  clusterScan f.internal (fun x => decide (x < f.clusterTop)) f.pageAfter (f.pageAfter f.offset) pages
    inserted grabs

end ClusterFault

/-- What is asked for, and the pages of the object then. -/
structure ClusterRequest where
  clusterStart : ℕ
  length : ℕ
  inserted : List ℕ
  pages : ClusterPages

/-- **The part of `vm_fault_page` before `memory_object_data_request`.** -/
def clusterRequest (f : ClusterFault) (pages : ClusterPages) (grabs : List ClusterGrab) :
    Option ClusterRequest :=
  if !f.allow || decide (f.behavior = .random) || decide (f.clusterSize = f.page) then
    some ⟨f.offset, f.page, [], pages⟩
  else
    let behind :=
      if ((f.behind ≠ 0 ∧ f.behavior = .default) ∨ f.behavior = .reverseSequential) ∧ f.offset ≠ 0 then
        (f.scanBehind pages grabs).map fun s => { s with edge := f.pageAfter s.edge }
      else some ⟨f.offset, pages, [], grabs, false⟩
    behind.bind fun b =>
      let ahead :=
        if ¬ b.gaveUp ∧ ((f.behavior = .default ∧ f.ahead ≠ 0) ∨ f.behavior = .sequential) then
          f.scanAhead b.pages b.inserted b.grabs
        else some { b with edge := f.pageAfter f.offset }
      ahead.map fun a =>
        ⟨b.edge, (a.edge + (2 ^ 32 - b.edge)) % 2 ^ 32, a.inserted, a.pages⟩

section Scan

variable {internal : Bool} {more : ℕ → Bool} {next : ℕ → ℕ}

/-- **A scan puts the pages in the object that it passes**, and no other fault has put one there. -/
theorem clusterScan_spec (grabs : List ClusterGrab) {x : ℕ} {pages : ClusterPages}
    {inserted : List ℕ} {s : ClusterStop}
    (h : clusterScan internal more next x pages inserted grabs = some s)
    (hins : ∀ y ∈ inserted, pages.resident y = false) :
    ∃ n, s.edge = next^[n] x ∧ s.inserted = inserted ++ (List.range n).map (next^[·] x) ∧
      (∀ i < n, more (next^[i] x) = true) ∧ ∀ y ∈ s.inserted, s.pages.resident y = false := by
  induction grabs generalizing x pages inserted with
  | nil =>
    rw [clusterScan] at h
    split_ifs at h
    cases h
    exact ⟨0, rfl, by simp, by simp, hins⟩
  | cons grab grabs ih =>
    rw [clusterScan.eq_def] at h
    split at h
    · next htest =>
      simp only [Bool.and_eq_true, Bool.not_eq_true', Bool.or_eq_false_iff] at htest
      obtain ⟨⟨hmore, -⟩, hres, -⟩ := htest
      cases grab with
      | page =>
        obtain ⟨n, hedge, hs, hall, hfree⟩ := ih h fun y hy => by
          rcases mem_append.mp hy with hy | hy
          · exact hins y hy
          · rw [mem_singleton.mp hy, hres]
        refine ⟨n + 1, hedge, ?_, fun i hi => ?_, hfree⟩
        · rw [hs, List.range_succ_eq_map, List.map_cons, List.map_map, List.append_assoc]
          rfl
        · cases i with
          | zero => exact hmore
          | succ i => exact hall i (by omega)
      | none others =>
        dsimp only at h
        split_ifs at h
        · cases h
          exact ⟨0, rfl, by simp, by simp, hins⟩
        · exact ih h fun y hy => by simp [hy]
    · cases h
      exact ⟨0, rfl, by simp, by simp, hins⟩

end Scan

/-- **A fault in an object whose offsets are whole pages.** -/
structure ClusterFault.Ok (f : ClusterFault) : Prop where
  page : ∃ p ≤ 32, f.page = 2 ^ p
  pagingOffset : f.page ∣ f.pagingOffset
  clusterSize : ∃ k < 32, f.clusterSize = 2 ^ k
  large : f.page ≤ f.clusterSize
  offset : f.page ∣ f.offset
  lo : f.loOffset ≤ f.offset
  hi : f.offset < f.hiOffset
  range : f.hiOffset < 2 ^ 32

namespace ClusterFault.Ok

variable {f : ClusterFault}

section

variable (h : f.Ok)
include h

theorem page_dvd : f.page ∣ 2 ^ 32 := by
  obtain ⟨p, hp, heq⟩ := h.page
  exact heq ▸ pow_dvd_pow 2 hp

theorem page_pos : 0 < f.page := by
  obtain ⟨p, -, heq⟩ := h.page
  exact heq ▸ Nat.two_pow_pos p

theorem page_dvd_clusterSize : f.page ∣ f.clusterSize := by
  obtain ⟨p, -, hp⟩ := h.page
  obtain ⟨k, -, hk⟩ := h.clusterSize
  have hle := h.large
  rw [hp, hk] at hle ⊢
  exact pow_dvd_pow 2 ((Nat.pow_le_pow_iff_right (by decide)).mp hle)

theorem alignOffset_eq : f.alignOffset = 0 := by
  obtain ⟨p, -, hp⟩ := h.page
  have hdvd : f.page ∣ (f.offset + f.pagingOffset) % 2 ^ 32 :=
    (Nat.dvd_mod_iff h.page_dvd).mpr (h.offset.add h.pagingOffset)
  rw [ClusterFault.alignOffset, hp, Nat.and_two_pow_sub_one_eq_mod, ← hp]
  exact Nat.mod_eq_zero_of_dvd hdvd

theorem clusterOffset_eq :
    f.clusterOffset = (f.offset + f.pagingOffset) % 2 ^ 32 % f.clusterSize := by
  obtain ⟨k, -, hk⟩ := h.clusterSize
  rw [ClusterFault.clusterOffset, h.alignOffset_eq, if_neg (by simp), hk,
    Nat.and_two_pow_sub_one_eq_mod]

theorem clusterOffset_spec :
    f.page ∣ f.clusterOffset ∧ f.clusterOffset + f.page ≤ f.clusterSize := by
  have hdvd : f.page ∣ f.clusterOffset := by
    rw [h.clusterOffset_eq]
    exact (Nat.dvd_mod_iff h.page_dvd_clusterSize).mpr
      ((Nat.dvd_mod_iff h.page_dvd).mpr (h.offset.add h.pagingOffset))
  refine ⟨hdvd, ?_⟩
  have hlt : f.clusterOffset < f.clusterSize := by
    rw [h.clusterOffset_eq]
    exact Nat.mod_lt _ (h.page_pos.trans_le h.large)
  exact Nat.add_le_of_le_sub' hlt.le (Nat.le_of_dvd (by omega) (Nat.dvd_sub h.page_dvd_clusterSize hdvd))

theorem clusterBot_spec :
    f.loOffset ≤ f.clusterBot ∧ f.offset ≤ f.clusterBot + f.clusterOffset := by
  unfold ClusterFault.clusterBot
  rw [h.alignOffset_eq]
  simp only [ne_eq, not_true_eq_false, false_and, if_false]
  generalize (f.offset + (2 ^ 32 - f.behind * f.page % 2 ^ 32)) % 2 ^ 32 = back
  split_ifs <;> omega

theorem clusterTop_spec (hhi : f.page ∣ f.hiOffset) :
    f.page ∣ f.clusterTop ∧ f.clusterTop ≤ f.hiOffset ∧
      f.clusterTop + f.clusterOffset ≤ f.offset + f.clusterSize := by
  obtain ⟨hdvd, hle⟩ := h.clusterOffset_spec
  have hmod : ∀ x, f.page ∣ x → f.page ∣ x % 2 ^ 32 := fun x hx => (Nat.dvd_mod_iff h.page_dvd).mpr hx
  have hcluster : f.clusterSize < 2 ^ 32 := by
    obtain ⟨k, hk, heq⟩ := h.clusterSize
    exact heq ▸ Nat.pow_lt_pow_right (by decide) hk
  have htop := hmod _ ((h.offset.add h.page_dvd_clusterSize).add (Nat.dvd_sub h.page_dvd hdvd))
  have hfront := hmod _ (h.offset.add ((Dvd.intro_left f.ahead rfl).add (dvd_refl f.page)))
  unfold ClusterFault.clusterTop
  rw [h.alignOffset_eq]
  simp only [ne_eq, not_true_eq_false, false_and, if_false]
  have hwrap : (f.offset + f.clusterSize + (2 ^ 32 - f.clusterOffset)) % 2 ^ 32 + f.clusterOffset ≤
      f.offset + f.clusterSize := by omega
  generalize (f.offset + f.clusterSize + (2 ^ 32 - f.clusterOffset)) % 2 ^ 32 = top at *
  generalize (f.offset + (f.ahead * f.page + f.page)) % 2 ^ 32 = front at *
  split_ifs <;> exact ⟨by assumption, by omega, by omega⟩

end

end ClusterFault.Ok

section Request

variable {f : ClusterFault} {n : ℕ} {pages : ClusterPages} {grabs : List ClusterGrab}
  {inserted : List ℕ} {s : ClusterStop} {r : ClusterRequest}

theorem pageBefore_step (h : f.Ok) {x : ℕ} (hn : n * f.page ≤ f.offset) (hx : x < 2 ^ 32)
    (hafter : f.pageAfter x = f.offset - n * f.page) (hne : x ≠ f.pageBefore 0) :
    (n + 1) * f.page ≤ f.offset ∧ x = f.offset - (n + 1) * f.page := by
  have hpos := h.page_pos
  have hpage : f.page ≤ 2 ^ 32 := Nat.le_of_dvd (by decide) h.page_dvd
  have hrange := h.range
  have hhi := h.hi
  have hdvd : f.page ∣ f.offset - n * f.page := Nat.dvd_sub h.offset (Nat.dvd_mul_left _ _)
  rw [Nat.succ_mul]
  unfold ClusterFault.pageAfter at hafter
  unfold ClusterFault.pageBefore at hne
  have hzero : f.offset - n * f.page ≠ 0 := by omega
  have hle := Nat.le_of_dvd (Nat.pos_of_ne_zero hzero) hdvd
  omega

theorem pageAfter_pageBefore (h : f.Ok) {x : ℕ} (hx : x < 2 ^ 32) :
    f.pageAfter (f.pageBefore x) = x := by
  have hpage : f.page ≤ 2 ^ 32 := Nat.le_of_dvd (by decide) h.page_dvd
  unfold ClusterFault.pageAfter ClusterFault.pageBefore
  omega

theorem behind_iterate (h : f.Ok)
    (hmore : ∀ i < n, f.pageBefore^[i] (f.pageBefore f.offset) ≠ f.pageBefore 0) :
    n * f.page ≤ f.offset ∧
      f.pageAfter (f.pageBefore^[n] (f.pageBefore f.offset)) = f.offset - n * f.page ∧
      ∀ i < n, f.pageBefore^[i] (f.pageBefore f.offset) = f.offset - (i + 1) * f.page := by
  have hlt : ∀ i, f.pageBefore^[i] (f.pageBefore f.offset) < 2 ^ 32 := by
    intro i
    rw [← Function.iterate_succ_apply, Function.iterate_succ_apply']
    exact Nat.mod_lt _ (by decide)
  induction n with
  | zero =>
    have := h.hi
    have := h.range
    refine ⟨by omega, ?_, fun i hi => absurd hi (Nat.not_lt_zero i)⟩
    rw [Function.iterate_zero_apply, pageAfter_pageBefore h (by omega)]
    omega
  | succ n ih =>
    obtain ⟨hn, hafter, hpages⟩ := ih fun i hi => hmore i (by omega)
    obtain ⟨hn', hx⟩ := pageBefore_step h hn (hlt n) hafter (hmore n (by omega))
    refine ⟨hn', ?_, fun i hi => ?_⟩
    · rw [Function.iterate_succ_apply', pageAfter_pageBefore h (hlt n), hx]
    · rcases Nat.lt_succ_iff_lt_or_eq.mp hi with hi | rfl
      · exact hpages i hi
      · exact hx

/-- **The scan behind the page.** -/
theorem scanBehind_spec (h : f.Ok) (hs : f.scanBehind pages grabs = some s) :
    ∃ n, n * f.page ≤ f.clusterOffset ∧ f.loOffset + n * f.page ≤ f.offset ∧
      f.pageAfter s.edge = f.offset - n * f.page ∧
      s.inserted = (List.range n).map (fun i => f.offset - (i + 1) * f.page) ∧
      ∀ y ∈ s.inserted, s.pages.resident y = false := by
  obtain ⟨n, hedge, hins, hmore, hfree⟩ := clusterScan_spec grabs hs (by simp)
  simp only [decide_eq_true_eq, h.alignOffset_eq] at hmore
  obtain ⟨hn, hafter, hpages⟩ := behind_iterate h fun i hi => (hmore i hi).2
  obtain ⟨hlo, hblock⟩ := h.clusterBot_spec
  have hbot : n = 0 ∨ f.clusterBot + n * f.page ≤ f.offset := by
    cases n with
    | zero => exact Or.inl rfl
    | succ n =>
      have := (hmore n (by omega)).1
      rw [hpages n (by omega)] at this
      exact Or.inr (by omega)
  have hlo' := h.lo
  refine ⟨n, ?_, ?_, by rw [hedge]; exact hafter, ?_, hfree⟩
  · rcases hbot with rfl | hbot <;> omega
  · rcases hbot with rfl | hbot <;> omega
  · rw [hins, nil_append]
    exact map_congr_left fun i hi => hpages i (mem_range.mp hi)

/-- **The scan ahead of the page.** -/
theorem scanAhead_spec (h : f.Ok) (hhi : f.page ∣ f.hiOffset)
    (hs : f.scanAhead pages inserted grabs = some s) (hins : ∀ y ∈ inserted, pages.resident y = false) :
    ∃ n, s.edge = f.offset + (n + 1) * f.page ∧ f.offset + (n + 1) * f.page ≤ f.hiOffset ∧
      f.clusterOffset + (n + 1) * f.page ≤ f.clusterSize ∧
      s.inserted = inserted ++ (List.range n).map (fun i => f.offset + (i + 1) * f.page) ∧
      ∀ y ∈ s.inserted, s.pages.resident y = false := by
  obtain ⟨n, hedge, hs', hmore, hfree⟩ := clusterScan_spec grabs hs hins
  simp only [decide_eq_true_eq] at hmore
  obtain ⟨htop, htophi, hblock⟩ := h.clusterTop_spec hhi
  have hrange := h.range
  have hfirst : f.offset + f.page ≤ f.hiOffset :=
    Nat.add_le_of_le_sub' h.hi.le (Nat.le_of_dvd (Nat.sub_pos_of_lt h.hi) (Nat.dvd_sub hhi h.offset))
  -- a page before `cluster_top` ends there or before
  have hpages : ∀ i ≤ n, f.pageAfter^[i] (f.pageAfter f.offset) = f.offset + (i + 1) * f.page ∧
      (i = 0 ∨ f.offset + (i + 1) * f.page ≤ f.clusterTop) := by
    intro i
    induction i with
    | zero =>
      intro _
      refine ⟨?_, Or.inl rfl⟩
      rw [Function.iterate_zero_apply, Nat.zero_add, Nat.one_mul]
      exact Nat.mod_eq_of_lt (by omega)
    | succ i ih =>
      intro hi
      obtain ⟨heq, -⟩ := ih (by omega)
      have hlt := hmore i (by omega)
      rw [heq] at hlt
      have hend : f.offset + (i + 1) * f.page + f.page ≤ f.clusterTop :=
        Nat.add_le_of_le_sub' hlt.le (Nat.le_of_dvd (Nat.sub_pos_of_lt hlt)
          (Nat.dvd_sub htop (h.offset.add (Nat.dvd_mul_left _ _))))
      rw [Function.iterate_succ_apply', heq, Nat.succ_mul (i + 1)]
      refine ⟨?_, Or.inr (by omega)⟩
      rw [ClusterFault.pageAfter, Nat.mod_eq_of_lt (by omega), Nat.add_assoc]
  obtain ⟨heq, hlast⟩ := hpages n le_rfl
  have hco := h.clusterOffset_spec.2
  refine ⟨n, hedge.trans heq, ?_, ?_, ?_, hfree⟩
  · rcases hlast with rfl | hlast <;> omega
  · rcases hlast with rfl | hlast <;> omega
  · rw [hs']
    congr 1
    exact map_congr_left fun i hi => (hpages i (mem_range.mp hi).le).1

/-- The pages asked for: `n` behind the page and `k` ahead of it. -/
structure ClusterRun (f : ClusterFault) (r : ClusterRequest) (n k : ℕ) : Prop where
  start : r.clusterStart = f.offset - n * f.page
  length : r.length = (n + (k + 1)) * f.page
  lo : f.loOffset + n * f.page ≤ f.offset
  hi : f.offset + (k + 1) * f.page ≤ f.hiOffset
  behind : n * f.page ≤ f.clusterOffset
  ahead : f.clusterOffset + (k + 1) * f.page ≤ f.clusterSize
  inserted : r.inserted = (List.range n).map (fun i => f.offset - (i + 1) * f.page) ++
    (List.range k).map (fun i => f.offset + (i + 1) * f.page)
  free : ∀ y ∈ r.inserted, r.pages.resident y = false

theorem clusterRequest_spec (h : f.Ok) (hhi : f.page ∣ f.hiOffset)
    (hr : clusterRequest f pages grabs = some r) : ∃ n k, ClusterRun f r n k := by
  have hco := h.clusterOffset_spec.2
  have hlo := h.lo
  have hrange := h.range
  have hfirst : f.offset + f.page ≤ f.hiOffset :=
    Nat.add_le_of_le_sub' h.hi.le (Nat.le_of_dvd (Nat.sub_pos_of_lt h.hi) (Nat.dvd_sub hhi h.offset))
  have hafter : f.pageAfter f.offset = f.offset + f.page := Nat.mod_eq_of_lt (by omega)
  unfold clusterRequest at hr
  split at hr
  · cases hr
    exact ⟨0, 0, by simp, by simp, by omega, by omega, by omega, by omega, by simp, by simp⟩
  obtain ⟨b, hb, hmap⟩ := bind_eq_some_iff.mp hr
  obtain ⟨a, ha, rfl⟩ := map_eq_some_iff.mp hmap
  have hbehind : ∃ n, n * f.page ≤ f.clusterOffset ∧ f.loOffset + n * f.page ≤ f.offset ∧
      b.edge = f.offset - n * f.page ∧
      b.inserted = (List.range n).map (fun i => f.offset - (i + 1) * f.page) ∧
      ∀ y ∈ b.inserted, b.pages.resident y = false := by
    split_ifs at hb
    · obtain ⟨s, hs, rfl⟩ := map_eq_some_iff.mp hb
      exact scanBehind_spec h hs
    · cases hb
      exact ⟨0, by omega, by omega, by simp, rfl, by simp⟩
  obtain ⟨n, hn, hnlo, hbe, hbi, hbf⟩ := hbehind
  have hahead : ∃ k, a.edge = f.offset + (k + 1) * f.page ∧
      f.offset + (k + 1) * f.page ≤ f.hiOffset ∧
      f.clusterOffset + (k + 1) * f.page ≤ f.clusterSize ∧
      a.inserted = b.inserted ++ (List.range k).map (fun i => f.offset + (i + 1) * f.page) ∧
      ∀ y ∈ a.inserted, a.pages.resident y = false := by
    split_ifs at ha
    · exact scanAhead_spec h hhi ha hbf
    cases ha
    refine ⟨0, ?_, by omega, by omega, by simp, hbf⟩
    rw [Nat.zero_add, Nat.one_mul]
    exact hafter
  obtain ⟨k, hae, hahi, hac, hai, haf⟩ := hahead
  refine ⟨n, k, hbe, ?_, hnlo, hahi, hn, hac, by rw [hai, hbi], haf⟩
  change (a.edge + (2 ^ 32 - b.edge)) % 2 ^ 32 = _
  rw [hae, hbe, Nat.add_mul n]
  omega

/-- Where the block of the memory object begins that has the page. -/
def ClusterFault.block (f : ClusterFault) : ℕ :=
  (f.offset + f.pagingOffset) % 2 ^ 32 / f.clusterSize * f.clusterSize

theorem mem_clusterRun {page offset n k x : ℕ} (hdvd : page ∣ offset) (hpos : 0 < page)
    (hn : n * page ≤ offset) :
    x ∈ (List.range n).map (fun i => offset - (i + 1) * page) ++
        (List.range k).map (fun i => offset + (i + 1) * page) ↔
      page ∣ x ∧ x ≠ offset ∧ offset - n * page ≤ x ∧ x < offset + (k + 1) * page := by
  rw [List.mem_append, List.mem_map, List.mem_map]
  simp only [List.mem_range]
  constructor
  · rintro (⟨i, hi, rfl⟩ | ⟨i, hi, rfl⟩)
    · have : (i + 1) * page ≤ n * page := Nat.mul_le_mul_right page hi
      have : page ≤ (i + 1) * page := Nat.le_mul_of_pos_left page (Nat.succ_pos i)
      exact ⟨Nat.dvd_sub hdvd (Nat.dvd_mul_left _ _), by omega, by omega, by omega⟩
    · have : (i + 1) * page < (k + 1) * page := Nat.mul_lt_mul_of_pos_right (Nat.succ_lt_succ hi) hpos
      have : page ≤ (i + 1) * page := Nat.le_mul_of_pos_left page (Nat.succ_pos i)
      exact ⟨hdvd.add (Nat.dvd_mul_left _ _), by omega, by omega, by omega⟩
  · rintro ⟨hx, hne, hle, hlt⟩
    rcases Nat.lt_or_gt_of_ne hne with hbefore | hafter
    · obtain ⟨j, hj⟩ := Nat.dvd_sub hdvd hx
      rw [Nat.mul_comm] at hj
      obtain ⟨i, rfl⟩ : ∃ i, j = i + 1 :=
        Nat.exists_eq_succ_of_ne_zero (by rintro rfl; omega)
      exact Or.inl ⟨i, Nat.le_of_mul_le_mul_right (show (i + 1) * page ≤ n * page by omega) hpos,
        by omega⟩
    obtain ⟨j, hj⟩ := Nat.dvd_sub hx hdvd
    rw [Nat.mul_comm] at hj
    obtain ⟨i, rfl⟩ : ∃ i, j = i + 1 :=
      Nat.exists_eq_succ_of_ne_zero (by rintro rfl; omega)
    exact Or.inr ⟨i, Nat.lt_of_succ_lt_succ (Nat.lt_of_mul_lt_mul_right
      (show (i + 1) * page < (k + 1) * page by omega)), by omega⟩

/-- **The pages asked for are the faulting one and those put in the object**: whole pages, in the map
entry and in the block of the memory object, and none of them was resident. -/
theorem cluster_exact (f : ClusterFault) (pages : ClusterPages) (grabs : List ClusterGrab)
    {r : ClusterRequest} (h : f.Ok) (hhi : f.page ∣ f.hiOffset)
    (hr : clusterRequest f pages grabs = some r) :
    (f.page ∣ r.clusterStart ∧ f.page ∣ r.length) ∧
    (r.clusterStart ≤ f.offset ∧ f.offset + f.page ≤ r.clusterStart + r.length) ∧
    (f.loOffset ≤ r.clusterStart ∧ r.clusterStart + r.length ≤ f.hiOffset) ∧
    (f.block ≤ (r.clusterStart + f.pagingOffset) % 2 ^ 32 ∧
      (r.clusterStart + f.pagingOffset) % 2 ^ 32 + r.length ≤ f.block + f.clusterSize) ∧
    (∀ x, x ∈ r.inserted ↔
      f.page ∣ x ∧ r.clusterStart ≤ x ∧ x < r.clusterStart + r.length ∧ x ≠ f.offset) ∧
    ∀ x ∈ r.inserted, r.pages.resident x = false := by
  obtain ⟨n, k, hrun⟩ := clusterRequest_spec h hhi hr
  have hpos := h.page_pos
  obtain ⟨o, ho⟩ := h.offset
  have hstart := hrun.start
  have hlength := hrun.length
  have hlo := hrun.lo
  have hhi' := hrun.hi
  have hbehind := hrun.behind
  have hahead := hrun.ahead
  rw [Nat.add_mul] at hlength
  have hk : f.page ≤ (k + 1) * f.page := Nat.le_mul_of_pos_left _ (Nat.succ_pos k)
  refine ⟨⟨?_, ?_⟩, ⟨by omega, by omega⟩, ⟨by omega, by omega⟩, ?_, fun x => ?_, hrun.free⟩
  · rw [hstart]
    exact Nat.dvd_sub h.offset (Nat.dvd_mul_left _ _)
  · rw [hlength]
    exact (Nat.dvd_mul_left _ _).add (Nat.dvd_mul_left _ _)
  · rw [h.clusterOffset_eq] at hbehind hahead
    have hdiv := Nat.div_add_mod ((f.offset + f.pagingOffset) % 2 ^ 32) f.clusterSize
    rw [Nat.mul_comm] at hdiv
    unfold ClusterFault.block
    omega
  · rw [hrun.inserted, mem_clusterRun h.offset hpos (by omega)]
    constructor
    · rintro ⟨hdvd, hne, hle, hlt⟩
      exact ⟨hdvd, by omega, by omega, hne⟩
    · rintro ⟨hdvd, hle, hlt, hne⟩
      exact ⟨hdvd, hne, by omega, by omega⟩

/-- A fault at the second of four pages of a block, in a map entry of which only `hi` bytes follow
the start of the object. -/
def secondPage (hi : ℕ) : ClusterFault where
  page := 4096
  pagingOffset := 0
  clusterSize := 16384
  internal := true
  offset := 4096
  loOffset := 0
  hiOffset := hi
  behavior := .default
  ahead := 1
  behind := 1
  allow := true

/-- Everything is paged out. -/
def allPagedOut : ClusterPages := ⟨fun _ => false, fun _ => true⟩

theorem secondPage_ok (hi : ℕ) (h : 4096 < hi) (hlt : hi < 2 ^ 32) : (secondPage hi).Ok :=
  ⟨⟨12, by decide, rfl⟩, ⟨0, rfl⟩, ⟨14, by decide, rfl⟩, by simp [secondPage],
    ⟨1, rfl⟩, Nat.zero_le _, h, hlt⟩

theorem cluster_two_pages : ∃ r, clusterRequest (secondPage 8192) allPagedOut [.page, .page] = some r ∧
    ∀ x, x ∈ r.inserted ↔
      4096 ∣ x ∧ r.clusterStart ≤ x ∧ x < r.clusterStart + r.length ∧ x ≠ 4096 :=
  ⟨_, rfl, (cluster_exact (secondPage 8192) allPagedOut [.page, .page]
    (secondPage_ok 8192 (by decide) (by decide)) (by decide) rfl).2.2.2.2.1⟩

end Request

end Osfmk

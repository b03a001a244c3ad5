import Osfmk.Pager.Ownership

/-!
# Reserved and allocated clusters of a segment

A cluster is reserved when `ps_select_segment` takes one off the counter of a segment, and the bit is
taken later, under another acquisition of the lock (`dp_backing_store.c`).  In between, other threads
reserve, take and give back clusters of the segment.  There are as many clear bits as the counter
says and as there are reservations, so each reservation finds its bit.

## Main results

* `bitmap_of_run` — what a bitmap scan finds, and what the bits and the hint say, after every run.
-/

open Function (update)

namespace Osfmk.Paging

/-- A segment, the number of reservations for which no bit has been taken, and the clusters that have
been returned by `ps_allocate_cluster` and not been given back. -/
structure Clusters where
  seg : Segment
  reserved : ℕ
  out : List ℕ

namespace Clusters

/-- The sections of `ps_select_segment`, `ps_allocate_cluster` and `ps_deallocate_cluster`. -/
inductive Act
  | reserve
  | scan
  | dealloc (cluster : ℕ)

/-- A step; only reserved clusters are taken, and only clusters that have been taken are given back. -/
def step (s : Clusters) : Act → Option Clusters
  | .reserve =>
    if s.seg.clcount ≠ 0 then
      some { s with seg.clcount := s.seg.clcount - 1, reserved := s.reserved + 1 }
    else none
  | .scan =>
    if s.reserved ≠ 0 then
      some ⟨s.seg.allocateCluster.2, s.reserved - 1, s.seg.allocateCluster.1 :: s.out⟩
    else none
  | .dealloc k =>
    if k ∈ s.out then
      (s.seg.deallocateCluster k).map fun g => ⟨g, s.reserved, s.out.erase k⟩
    else none

/-- The reservations are covered, and the bits that are set are those of the clusters that are out. -/
structure Inv (ncls : ℕ) (s : Clusters) : Prop where
  ncls : s.seg.ncls = ncls
  hint : s.seg.HintOk
  clear : s.seg.clear = s.seg.clcount + s.reserved
  nodup : s.out.Nodup
  lt : ∀ k ∈ s.out, k < s.seg.ncls
  bmap : ∀ k, k < s.seg.ncls → (s.seg.bmap k = true ↔ k ∈ s.out)

variable {n : ℕ} {s s' : Clusters}

section

variable (h : Inv n s)
include h

theorem Inv.found (hr : s.reserved ≠ 0) :
    s.seg.allocateCluster.1 < s.seg.ncls ∧ s.seg.bmap s.seg.allocateCluster.1 = false ∧
      s.seg.allocateCluster.2.HintOk ∧ (∃ hint, s.seg.allocateCluster.2 =
        { s.seg with
          hint := hint, bmap := update s.seg.bmap s.seg.allocateCluster.1 true }) ∧
      ∀ k, k < s.seg.allocateCluster.1 → s.seg.bmap k = true := by
  have hpos : 0 < s.seg.clear := by
    have := h.clear
    omega
  obtain ⟨k, hk, hclr⟩ := Segment.exists_clear hpos
  obtain ⟨hlt, hbit, hhint, hseg⟩ := Segment.allocateCluster_spec h.hint hk hclr
  refine ⟨hlt, hbit, hhint, hseg, fun j hj => ?_⟩
  by_contra hset
  have hle := Segment.allocateCluster_le h.hint (hj.trans hlt) (Bool.not_eq_true _ ▸ hset)
  omega

theorem Inv.reserve (hc : s.seg.clcount ≠ 0) :
    Inv n { s with seg.clcount := s.seg.clcount - 1, reserved := s.reserved + 1 } where
  ncls := h.ncls
  hint := h.hint
  clear := by
    have hclear := h.clear
    show s.seg.clear = s.seg.clcount - 1 + (s.reserved + 1)
    omega
  nodup := h.nodup
  lt := h.lt
  bmap := h.bmap

theorem Inv.scan (hr : s.reserved ≠ 0) :
    Inv n ⟨s.seg.allocateCluster.2, s.reserved - 1, s.seg.allocateCluster.1 :: s.out⟩ := by
  obtain ⟨hlt, hbit, hhint, ⟨hint, hseg⟩, -⟩ := h.found hr
  have hout : s.seg.allocateCluster.1 ∉ s.out := by
    intro hmem
    have hset := (h.bmap _ hlt).mpr hmem
    rw [hbit] at hset
    cases hset
  have hclear := Segment.clear_update_true hlt hbit hint
  rw [hseg] at hhint
  rw [hseg]
  generalize s.seg.allocateCluster.1 = c at *
  refine ⟨h.ncls, hhint, ?_, h.nodup.cons hout, fun k hk => ?_, fun k hk => ?_⟩
  · have := h.clear
    dsimp only
    omega
  · rcases List.mem_cons.mp hk with rfl | hk
    · exact hlt
    · exact h.lt k hk
  · show update s.seg.bmap c true k = true ↔ k ∈ c :: s.out
    by_cases he : k = c
    · simp [he]
    · rw [Function.update_of_ne he, h.bmap k hk, List.mem_cons, or_iff_right he]

theorem Inv.dealloc {k : ℕ} (hk : k ∈ s.out) {g : Segment}
    (hd : s.seg.deallocateCluster k = some g) : Inv n ⟨g, s.reserved, s.out.erase k⟩ := by
  have hclear := Segment.clear_deallocate ((h.bmap k (h.lt k hk)).mpr hk) hd
  have hhint := h.hint.deallocate hd
  have hn : g.ncls = s.seg.ncls ∧ g.clcount = s.seg.clcount + 1 ∧
      g.bmap = update s.seg.bmap k false := by
    rw [Segment.deallocateCluster, if_neg (not_le.mpr (h.lt k hk))] at hd
    cases hd
    exact ⟨rfl, rfl, rfl⟩
  refine ⟨hn.1.trans h.ncls, hhint, ?_, h.nodup.erase k, fun j hj => ?_, fun j hj => ?_⟩
  · have := h.clear
    show g.clear = g.clcount + s.reserved
    omega
  · exact hn.1 ▸ h.lt j (List.mem_of_mem_erase hj)
  · rw [hn.2.2, h.nodup.mem_erase_iff]
    by_cases he : j = k
    · simp [he]
    · rw [Function.update_of_ne he, h.bmap j (hn.1 ▸ hj)]
      exact ⟨fun hm => ⟨he, hm⟩, And.right⟩

theorem Inv.step {a : Act} (hs : s.step a = some s') : Inv n s' := by
  cases a with
  | reserve =>
    obtain ⟨hc, rfl⟩ := Trace.of_guard hs
    exact h.reserve hc
  | scan =>
    obtain ⟨hr, rfl⟩ := Trace.of_guard hs
    exact h.scan hr
  | dealloc k =>
    rw [Clusters.step] at hs
    split at hs
    · next hk =>
      obtain ⟨g, hd, rfl⟩ := Option.map_eq_some_iff.mp hs
      exact h.dealloc hk hd
    · cases hs

end

theorem inv_fresh {g : Segment} (h : g.Fresh) : Inv g.ncls ⟨g, 0, []⟩ where
  ncls := rfl
  hint k hk := by
    rw [h.2.1, Nat.zero_mul] at hk
    exact absurd hk (Nat.not_lt_zero k)
  clear := h.clear
  nodup := List.nodup_nil
  lt k hk := by cases hk
  bmap k hk := by
    rw [h.2.2 k hk]
    exact ⟨nofun, nofun⟩

/-- **Every reservation finds its cluster**: after every run, a scan for a reserved cluster finds the
first clear bit, which stands for a cluster; the clusters that are out are different from each other
and from that one, and no cluster below the hint is free. -/
theorem bitmap_of_run {g : Segment} (hg : g.Fresh) {acts : List Act}
    (hrun : Trace.run step ⟨g, 0, []⟩ acts = some s) :
    (s.reserved ≠ 0 → s.seg.allocateCluster.1 < g.ncls ∧
      s.seg.bmap s.seg.allocateCluster.1 = false ∧ s.seg.allocateCluster.1 ∉ s.out ∧
      ∀ k, k < s.seg.allocateCluster.1 → s.seg.bmap k = true) ∧
    s.out.Nodup ∧ (∀ k, k < g.ncls → (s.seg.bmap k = true ↔ k ∈ s.out)) ∧
    (∀ k, k < nbby * s.seg.hint → k < g.ncls → s.seg.bmap k = true) ∧
    ∀ k ∈ s.out, (s.step (.dealloc k)).isSome = true := by
  have h : Inv g.ncls s :=
    Trace.invariant_of_step (fun _ _ _ hI hs => hI.step hs) acts _ s (inv_fresh hg) hrun
  refine ⟨fun hr => ?_, h.nodup, h.ncls ▸ h.bmap, fun k hk hlt => ?_, fun k hk => ?_⟩
  · obtain ⟨hlt, hbit, -, -, hlow⟩ := h.found hr
    refine ⟨h.ncls ▸ hlt, hbit, fun hmem => ?_, hlow⟩
    have hset := (h.bmap _ hlt).mpr hmem
    rw [hbit] at hset
    cases hset
  · exact h.hint k (Nat.mul_comm nbby _ ▸ hk) (h.ncls ▸ hlt)
  · rw [step, if_pos hk, Option.isSome_map, Segment.deallocateCluster,
      if_neg (not_le.mpr (h.lt k hk))]
    rfl

/-- A segment of three clusters; the other bits of its byte are set. -/
def threeClusters : Segment := ⟨⟨0, 0, 3, 3⟩, 3, 0, fun k => decide (3 ≤ k)⟩

theorem bitmap_of_run_three : ∃ s,
    Trace.run step ⟨threeClusters, 0, []⟩ [.reserve, .reserve, .scan, .dealloc 0] = some s ∧
      s.seg.allocateCluster.1 = 0 ∧ s.seg.bmap 0 = false := by
  have hfresh : threeClusters.Fresh := ⟨rfl, rfl, by decide⟩
  obtain ⟨s, hs, hr⟩ : ∃ s, Trace.run step ⟨threeClusters, 0, []⟩
      [.reserve, .reserve, .scan, .dealloc 0] = some s ∧ s.reserved = 1 := ⟨_, rfl, rfl⟩
  obtain ⟨hscan, -, hbits, -⟩ := bitmap_of_run hfresh hs
  obtain ⟨-, -, -, hlow⟩ := hscan (by omega)
  have hout : s.out = [] := by
    cases hs
    rfl
  have hfree : s.seg.bmap 0 = false := by
    rw [← Bool.not_eq_true, hbits 0 (by decide), hout]
    exact List.not_mem_nil
  refine ⟨s, hs, ?_, hfree⟩
  by_contra hne
  have hset := hlow 0 (Nat.pos_of_ne_zero hne)
  rw [hfree] at hset
  cases hset

end Clusters

end Osfmk.Paging

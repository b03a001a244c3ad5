import Mathlib

/-!
# Paging segments

A paging segment is a part of a device, divided into clusters (`dp_backing_store.c`).  A bitmap says
which clusters are in use, a counter how many are free, and a hint where to look for a free one: no
cluster below the hint is free.  A cluster is reserved by the counter before it is looked for.
-/

open Function (update)

namespace Osfmk.Paging

/-- A loop over at most `n` numbers from `i` on, as long as they satisfy `p`. -/
def scan (p : ℕ → Bool) : ℕ → ℕ → ℕ
  | 0, i => i
  | n + 1, i => if p i then scan p n (i + 1) else i

/-- **Where the loop stops.** -/
theorem scan_spec (p : ℕ → Bool) (n i : ℕ) :
    i ≤ scan p n i ∧ scan p n i ≤ i + n ∧ (∀ j, i ≤ j → j < scan p n i → p j = true) ∧
      (scan p n i < i + n → p (scan p n i) = false) := by
  induction n generalizing i with
  | zero =>
    refine ⟨le_rfl, le_rfl, fun j h1 h2 => ?_, fun h => ?_⟩
    · exact absurd h2 (not_lt.mpr h1)
    · exact absurd h (lt_irrefl i)
  | succ n ih =>
    rw [scan]
    split
    · next hp =>
      obtain ⟨h1, h2, h3, h4⟩ := ih (i + 1)
      refine ⟨by omega, by omega, fun j hj hlt => ?_, fun h => h4 (by omega)⟩
      rcases Nat.eq_or_lt_of_le hj with he | hj
      · rw [← he]
        exact hp
      · exact h3 j hj hlt
    · next hp =>
      refine ⟨le_rfl, by omega, fun j h1 h2 => absurd h2 (not_lt.mpr h1), fun _ => ?_⟩
      exact Bool.eq_false_iff.mpr hp

theorem scan_le {p : ℕ → Bool} {n i k : ℕ} (hi : i ≤ k) (hk : p k = false) : scan p n i ≤ k := by
  by_contra hlt
  have hp := (scan_spec p n i).2.2.1 k hi (not_le.mp hlt)
  rw [hk] at hp
  cases hp

def nbby : ℕ := 8

def howmany (n m : ℕ) : ℕ := (n + (m - 1)) / m

/-- What does not change of a paging segment: its place on a device, the number of records of a page
(as a shift) and the number of its clusters. -/
structure Geometry where
  device : ℕ
  offset : ℕ
  recordShift : ℕ
  ncls : ℕ

/-- `struct paging_segment`, with the number of free clusters, the hint and the bitmap. -/
structure Segment extends Geometry where
  clcount : ℕ
  hint : ℕ
  bmap : ℕ → Bool

namespace Segment

/-- A byte of the bitmap is `BYTEMASK`. -/
def byteFull (g : Segment) (byteNum : ℕ) : Bool :=
  (List.range nbby).all fun bitNum => g.bmap (byteNum * nbby + bitNum)

/-- The second half of `ps_allocate_cluster`, with the lock on the segment: the cluster that is
found. -/
def allocateCluster (g : Segment) : ℕ × Segment :=
  let byteNum := scan g.byteFull (howmany g.ncls nbby - g.hint) g.hint
  let bitNum :=
    if byteNum < howmany g.ncls nbby then scan (fun i => g.bmap (byteNum * nbby + i)) nbby 0 else 0
  let cluster := byteNum * nbby + bitNum
  (cluster, { g with hint := byteNum, bmap := update g.bmap cluster true })

/-- `ps_deallocate_cluster`; `none` stands for a panic. -/
def deallocateCluster (g : Segment) (cluster : ℕ) : Option Segment :=
  if cluster ≥ g.ncls then none
  else some { g with
    bmap := update g.bmap cluster false
    clcount := g.clcount + 1
    hint := if cluster / nbby < g.hint then cluster / nbby else g.hint }

/-- No cluster below the hint is free. -/
def HintOk (g : Segment) : Prop := ∀ k, k < g.hint * nbby → k < g.ncls → g.bmap k = true

/-- The number of clusters that are not in use. -/
def clear (g : Segment) : ℕ := ((Finset.range g.ncls).filter fun k => g.bmap k = false).card

variable {g g' : Segment} {k : ℕ}

theorem byteFull_iff (g : Segment) (b : ℕ) :
    g.byteFull b = true ↔ ∀ i, i < nbby → g.bmap (b * nbby + i) = true := by
  rw [byteFull, List.all_eq_true]
  exact ⟨fun h i hi => h i (List.mem_range.mpr hi), fun h i hi => h i (List.mem_range.mp hi)⟩

theorem byteFull_of_clear (hk : g.bmap k = false) : g.byteFull (k / nbby) = false := by
  by_contra hfull
  have hbit := (g.byteFull_iff _).mp (Bool.not_eq_false _ ▸ hfull) (k % nbby)
    (Nat.mod_lt k (by decide))
  rw [Nat.div_add_mod' k nbby, hk] at hbit
  cases hbit

theorem HintOk.le_div (h : g.HintOk) (hk : k < g.ncls) (hclr : g.bmap k = false) :
    g.hint ≤ k / nbby ∧ k / nbby < howmany g.ncls nbby := by
  refine ⟨?_, by rw [howmany, nbby]; omega⟩
  by_contra hlt
  have hset := h k (by rw [nbby] at hlt ⊢; omega) hk
  rw [hclr] at hset
  cases hset

/-- **No cluster before the one that is found is free.** -/
theorem allocateCluster_le (h : g.HintOk) (hk : k < g.ncls) (hclr : g.bmap k = false) :
    g.allocateCluster.1 ≤ k := by
  obtain ⟨hhint, hbytes⟩ := h.le_div hk hclr
  have hle := scan_le (n := howmany g.ncls nbby - g.hint) hhint (byteFull_of_clear hclr)
  unfold allocateCluster
  dsimp only
  rw [if_pos (hle.trans_lt hbytes)]
  generalize scan g.byteFull (howmany g.ncls nbby - g.hint) g.hint = byteNum at hle ⊢
  have hdm := Nat.div_add_mod' k nbby
  rcases Nat.eq_or_lt_of_le hle with he | hlt
  · -- in the byte of the free cluster, its bit is clear
    have hbit : scan (fun i => g.bmap (byteNum * nbby + i)) nbby 0 ≤ k % nbby := by
      refine scan_le (Nat.zero_le _) ?_
      rw [he, hdm]
      exact hclr
    rw [he] at hbit ⊢
    omega
  · have hbit := (scan_spec (fun i => g.bmap (byteNum * nbby + i)) nbby 0).2.1
    rw [nbby] at *
    omega

/-- **When a cluster is free, one is found.** -/
theorem allocateCluster_spec (h : g.HintOk) (hk : k < g.ncls) (hclr : g.bmap k = false) :
    g.allocateCluster.1 < g.ncls ∧ g.bmap g.allocateCluster.1 = false ∧
      g.allocateCluster.2.HintOk ∧ ∃ hint, g.allocateCluster.2 =
        { g with hint := hint, bmap := update g.bmap g.allocateCluster.1 true } := by
  have hlow := (allocateCluster_le h hk hclr).trans_lt hk
  obtain ⟨hhint, hbytes⟩ := h.le_div hk hclr
  -- the byte that is found is not after that of the free cluster
  obtain ⟨byteNum, hb⟩ : ∃ b, b = scan g.byteFull (howmany g.ncls nbby - g.hint) g.hint := ⟨_, rfl⟩
  obtain ⟨hb1, hb2, hb3, hb4⟩ := scan_spec g.byteFull (howmany g.ncls nbby - g.hint) g.hint
  have hle := scan_le (n := howmany g.ncls nbby - g.hint) hhint (byteFull_of_clear hclr)
  rw [← hb] at hb1 hb2 hb3 hb4 hle
  have hnot : g.byteFull byteNum = false := hb4 (by omega)
  -- it has a clear bit
  obtain ⟨bitNum, hi⟩ : ∃ i, i = scan (fun i => g.bmap (byteNum * nbby + i)) nbby 0 := ⟨_, rfl⟩
  obtain ⟨-, hi2, hi3, hi4⟩ := scan_spec (fun i => g.bmap (byteNum * nbby + i)) nbby 0
  rw [← hi] at hi2 hi3 hi4
  have hbit : bitNum < nbby := by
    by_contra hge
    have hfull := (g.byteFull_iff byteNum).mpr fun i hi => hi3 i (Nat.zero_le i) (by omega)
    rw [hnot] at hfull
    cases hfull
  have hfound : g.allocateCluster = (byteNum * nbby + bitNum, { g with
      hint := byteNum
      bmap := update g.bmap (byteNum * nbby + bitNum) true }) := by
    unfold allocateCluster
    dsimp only
    rw [← hb, if_pos (by omega), ← hi]
  rw [hfound] at hlow ⊢
  have hclear : g.bmap (byteNum * nbby + bitNum) = false := hi4 (by omega)
  refine ⟨hlow, hclear, fun j hj hlt => ?_, byteNum, rfl⟩
  show update g.bmap _ true j = true
  have hj' : j < byteNum * nbby := hj
  rw [Function.update_of_ne (by omega)]
  by_cases hold : j < g.hint * nbby
  · exact h j hold hlt
  · have hfull := hb3 (j / nbby) (by rw [nbby] at *; omega) (by rw [nbby] at *; omega)
    have hset := (g.byteFull_iff _).mp hfull (j % nbby) (Nat.mod_lt j (by decide))
    rwa [Nat.div_add_mod' j nbby] at hset

theorem HintOk.deallocate (h : g.HintOk) (hd : g.deallocateCluster k = some g') : g'.HintOk := by
  unfold deallocateCluster at hd
  split at hd
  · cases hd
  · cases hd
    intro j hj hlt
    have hj' : j < (if k / nbby < g.hint then k / nbby else g.hint) * nbby := hj
    have hne : j ≠ k := by
      intro he
      rw [he] at hj'
      split at hj'
      · rw [nbby] at *
        omega
      · rw [nbby] at *
        omega
    show update g.bmap k false j = true
    rw [Function.update_of_ne hne]
    refine h j ?_ hlt
    split at hj'
    · rw [nbby] at *
      omega
    · exact hj'

theorem clear_update_true (hk : k < g.ncls) (hclr : g.bmap k = false) (hint : ℕ) :
    clear { g with hint := hint, bmap := update g.bmap k true } + 1 = g.clear := by
  have hmem : k ∈ (Finset.range g.ncls).filter fun k => g.bmap k = false :=
    Finset.mem_filter.mpr ⟨Finset.mem_range.mpr hk, hclr⟩
  have herase : ((Finset.range g.ncls).filter fun j => update g.bmap k true j = false) =
      ((Finset.range g.ncls).filter fun j => g.bmap j = false).erase k := by
    ext j
    by_cases hj : j = k
    · simp [hj]
    · simp [hj]
  unfold clear
  dsimp only
  rw [herase, Finset.card_erase_add_one hmem]

theorem clear_deallocate (hset : g.bmap k = true) (hd : g.deallocateCluster k = some g') :
    g'.clear = g.clear + 1 := by
  unfold deallocateCluster at hd
  split at hd
  · cases hd
  · next hk =>
    cases hd
    have hk' : k < g.ncls := not_le.mp hk
    -- taking it again leads back
    have hback := clear_update_true (g := { g with bmap := update g.bmap k false })
      (k := k) hk' (Function.update_self ..) g.hint
    have hsame : update (update g.bmap k false) k true = g.bmap := by
      rw [Function.update_idem, ← hset, Function.update_eq_self]
    dsimp only at hback
    rw [hsame] at hback
    unfold clear at hback ⊢
    exact hback.symm

theorem exists_clear (h : 0 < g.clear) : ∃ k, k < g.ncls ∧ g.bmap k = false := by
  obtain ⟨k, hk⟩ := Finset.card_pos.mp h
  obtain ⟨hlt, hclr⟩ := Finset.mem_filter.mp hk
  exact ⟨k, Finset.mem_range.mp hlt, hclr⟩

end Segment

end Osfmk.Paging

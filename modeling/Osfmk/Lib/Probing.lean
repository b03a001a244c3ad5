import Mathlib

/-!
# Probing a table around its end

The positions of a table of size `n`, passed one after another, with position `0` after the last one.
`Probing.dist n a p` is the number of steps from `a` to `p`; a search passes `q` before `p` when `q` is
nearer.
-/

namespace Osfmk.Probing

variable {n a p q : ℕ}

/-- The position after `p`. -/
def next (n p : ℕ) : ℕ := if p + 1 = n then 0 else p + 1

/-- The number of steps from `a` to `p`. -/
def dist (n a p : ℕ) : ℕ := if a ≤ p then p - a else p + n - a

/-- Search from a position on for one that stops the search, for `fuel` positions at most. -/
def probe (n : ℕ) (stop : ℕ → Bool) : ℕ → ℕ → Option ℕ
  | 0, _ => none
  | fuel + 1, p => if stop p then some p else probe n stop fuel (next n p)

theorem next_lt (hp : p < n) : next n p < n := by
  unfold next
  split <;> omega

theorem dist_lt (ha : a < n) (hp : p < n) : dist n a p < n := by
  unfold dist
  split <;> omega

@[simp] theorem dist_self : dist n a a = 0 := by simp [dist]

theorem dist_eq_zero (ha : a < n) : dist n a p = 0 ↔ p = a := by
  unfold dist
  split <;> omega

theorem dist_next (ha : a < n) (hp : p < n) (hne : p ≠ a) : dist n a p = dist n (next n a) p + 1 := by
  unfold dist next
  split <;> split <;> split <;> omega

theorem dist_add (ha : a < n) (hp : p < n) (hq : q < n) (h : dist n a q ≤ dist n a p) :
    dist n a p = dist n a q + dist n q p := by
  unfold dist at *
  split_ifs at h ⊢ <;> omega

theorem dist_between {h : ℕ} (ha : a < n) (hh : h < n) (hp : p < n) (hq : q < n)
    (hah : dist n a h ≤ dist n a p) (hhq : dist n h q ≤ dist n h p) :
    dist n a q = dist n a h + dist n h q := by
  unfold dist at *
  split_ifs at hah hhq ⊢ <;> omega

/-- **A search ends at the nearest position that stops it.** -/
theorem probe_eq {stop : ℕ → Bool} {fuel : ℕ} (ha : a < n) (hp : p < n) (hstop : stop p = true)
    (hpass : ∀ q, q < n → dist n a q < dist n a p → stop q = false) (hfuel : dist n a p < fuel) :
    probe n stop fuel a = some p := by
  induction fuel generalizing a with
  | zero => exact absurd hfuel (Nat.not_lt_zero _)
  | succ fuel ih =>
    rw [probe]
    by_cases hpa : p = a
    · rw [← hpa, if_pos hstop]
    · have hd := dist_next ha hp hpa
      have hsa : stop a = false := hpass a ha (by rw [dist_self]; omega)
      rw [hsa, if_neg Bool.false_ne_true]
      refine ih (next_lt ha) (fun q hq hlt => ?_) (by omega)
      by_cases hqa : q = a
      · rwa [hqa]
      · exact hpass q hq (by rw [dist_next ha hq hqa]; omega)

theorem exists_nearest {P : ℕ → Prop} (a : ℕ) (h : ∃ p, p < n ∧ P p) :
    ∃ p, p < n ∧ P p ∧ ∀ q, q < n → dist n a q < dist n a p → ¬ P q := by
  classical
  obtain ⟨e, he, hPe⟩ := h
  obtain ⟨p, hp, hmin⟩ := Finset.exists_min_image ((Finset.range n).filter P) (dist n a)
    ⟨e, by simp [he, hPe]⟩
  simp only [Finset.mem_filter, Finset.mem_range] at hp hmin
  exact ⟨p, hp.1, hp.2, fun q hq hlt hPq => absurd (hmin q ⟨hq, hPq⟩) (not_le.mpr hlt)⟩

end Osfmk.Probing

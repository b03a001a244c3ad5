import Mathlib

/-!
# Queues and counters of the members with a flag

The members of a type that have a flag are kept in a queue, each of them once, or counted by a
counter.  When the flag of one member changes, the queue and the counter follow.
-/

open Function (update)

open Finset

namespace Osfmk.Census

variable {P : Type*} {l l' : List P} {k k' : P → Bool} {m : P}

/-- The members with a flag, each of them once. -/
structure Lists (l : List P) (k : P → Bool) : Prop where
  nodup : l.Nodup
  mem : ∀ p, p ∈ l ↔ k p = true

theorem Lists.congr (h : Lists l k) (hk : ∀ p, k' p = k p) : Lists l k' :=
  ⟨h.nodup, fun p => by rw [h.mem, hk]⟩

theorem Lists.perm (h : Lists l k) (hl : l'.Perm l) : Lists l' k :=
  ⟨hl.nodup_iff.mpr h.nodup, fun p => by rw [hl.mem_iff, h.mem]⟩

section

variable [DecidableEq P]

theorem Lists.erase (h : Lists l k) (hk : ∀ p, p ≠ m → k' p = k p) (hm : k' m = false) :
    Lists (l.erase m) k' := by
  refine ⟨h.nodup.erase m, fun p => ?_⟩
  rw [h.nodup.mem_erase_iff, h.mem]
  by_cases hp : p = m
  · simp [hp, hm]
  · simp [hp, hk p hp]

theorem Lists.cons (h : Lists l k) (hk : ∀ p, p ≠ m → k' p = k p) (hold : k m = false)
    (hm : k' m = true) : Lists (m :: l) k' := by
  refine ⟨List.nodup_cons.mpr ⟨fun hmem => ?_, h.nodup⟩, fun p => ?_⟩
  · rw [h.mem, hold] at hmem
    cases hmem
  · rw [List.mem_cons, h.mem]
    by_cases hp : p = m
    · simp [hp, hm]
    · simp [hp, hk p hp]

/-- What becomes of a queue when the flag of a member changes from `b` to `b'`. -/
inductive Follows (l : List P) (m : P) : Bool → Bool → List P → Prop
  | same (b : Bool) : Follows l m b b l
  | perm (b : Bool) {l1 : List P} (hl : l1.Perm l) : Follows l m b b l1
  | leave : Follows l m true false (l.erase m)
  | first : Follows l m false true (m :: l)
  | last : Follows l m false true (l ++ [m])

theorem Lists.follows (h : Lists l k) (hk : ∀ p, p ≠ m → k' p = k p)
    (hf : Follows l m (k m) (k' m) l') : Lists l' k' := by
  have hsame : k m = k' m → ∀ p, k' p = k p := by
    intro hkm p
    by_cases hp : p = m
    · rw [hp, hkm]
    · exact hk p hp
  generalize hb : k m = b at hf
  generalize hb' : k' m = b' at hf
  cases hf with
  | same => exact h.congr (hsame (hb.trans hb'.symm))
  | perm _ hl => exact (h.congr (hsame (hb.trans hb'.symm))).perm hl
  | leave => exact h.erase hk hb'
  | first => exact h.cons hk hb hb'
  | last => exact (h.cons hk hb hb').perm (List.perm_append_singleton m l)

end

section

variable {R : Type*} [DecidableEq R] {ref ref' : P → Option R} {r : R} {n : ℕ}

/-- `n` members refer to `r`. -/
def Counted (ref : P → Option R) (r : R) (n : ℕ) : Prop :=
  ∃ l, Lists l (fun p => decide (ref p = some r)) ∧ l.length = n

theorem Counted.of_none (h : ∀ p, ref p ≠ some r) : Counted ref r 0 :=
  ⟨[], ⟨List.nodup_nil, fun p => by simp [h p]⟩, rfl⟩

theorem Counted.congr (h : Counted ref r n) (he : ∀ p, ref' p = some r ↔ ref p = some r) :
    Counted ref' r n := by
  obtain ⟨l, hl, hn⟩ := h
  exact ⟨l, hl.congr fun p => decide_eq_decide.mpr (he p), hn⟩

theorem Counted.ne_of_zero (h : Counted ref r 0) (p : P) : ref p ≠ some r := by
  obtain ⟨l, hl, hn⟩ := h
  intro hp
  have hmem := (hl.mem p).mpr (by simpa using hp)
  rw [List.length_eq_zero_iff.mp hn] at hmem
  cases hmem

theorem Counted.exists_of_ne_zero (h : Counted ref r n) (hn : n ≠ 0) : ∃ p, ref p = some r := by
  obtain ⟨l, hl, rfl⟩ := h
  obtain ⟨p, hp⟩ := List.exists_mem_of_length_pos (Nat.pos_of_ne_zero hn)
  exact ⟨p, by simpa using (hl.mem p).mp hp⟩

variable [DecidableEq P]

theorem Counted.take (h : Counted ref r n) (he : ∀ p, p ≠ m → ref' p = ref p)
    (hold : ref m ≠ some r) (hnew : ref' m = some r) : Counted ref' r (n + 1) := by
  obtain ⟨l, hl, rfl⟩ := h
  refine ⟨m :: l, hl.cons (fun p hp => ?_) (by simpa using hold) (by simpa using hnew), rfl⟩
  rw [he p hp]

theorem Counted.drop (h : Counted ref r n) (he : ∀ p, p ≠ m → ref' p = ref p)
    (hold : ref m = some r) (hnew : ref' m ≠ some r) : n ≠ 0 ∧ Counted ref' r (n - 1) := by
  obtain ⟨l, hl, rfl⟩ := h
  have hmem : m ∈ l := (hl.mem m).mpr (by simpa using hold)
  refine ⟨fun hz => ?_, l.erase m, hl.erase (fun p hp => ?_) (by simpa using hnew),
    List.length_erase_of_mem hmem⟩
  · rw [List.length_eq_zero_iff.mp hz] at hmem
    cases hmem
  · rw [he p hp]

end

/-- 1 for a flag that is set. -/
def ind (b : Bool) : ℤ := if b then 1 else 0

@[simp] theorem ind_true : ind true = 1 := rfl

@[simp] theorem ind_false : ind false = 0 := rfl

/-- The number of members with a flag. -/
def tally [Fintype P] (k : P → Bool) : ℤ := ∑ p, ind (k p)

theorem ind_nonneg (b : Bool) : 0 ≤ ind b := by cases b <;> decide

theorem eq_false_of_tally [Fintype P] (h : tally k = 0) (p : P) : k p = false := by
  have hz := (sum_eq_zero_iff_of_nonneg fun q _ => ind_nonneg (k q)).mp h p (mem_univ p)
  cases hk : k p
  · rfl
  · rw [hk] at hz
    cases hz

theorem tally_change [Fintype P] [DecidableEq P] (hk : ∀ p, p ≠ m → k' p = k p) :
    tally k' = tally k - ind (k m) + ind (k' m) := by
  unfold tally
  have hrest : ∑ p ∈ univ.erase m, ind (k' p) = ∑ p ∈ univ.erase m, ind (k p) :=
    sum_congr rfl fun p hp => by rw [hk p (ne_of_mem_erase hp)]
  rw [← add_sum_erase _ (fun p => ind (k' p)) (mem_univ m),
    ← add_sum_erase _ (fun p => ind (k p)) (mem_univ m), hrest]
  omega

theorem eq_of_tally [Fintype P] [DecidableEq P] {p q : P} (h : tally k ≤ 1) (hp : k p = true)
    (hq : k q = true) : p = q := by
  by_contra hne
  -- without the flag of `p`, nobody is left
  have hrest : tally (update k p false) = tally k - ind (k p)
      + ind (update k p false p) := tally_change fun r hr => Function.update_of_ne hr ..
  rw [hp, Function.update_self, ind_true, ind_false] at hrest
  have hpos : 0 ≤ tally (update k p false) := sum_nonneg fun r _ => ind_nonneg _
  have hfalse := eq_false_of_tally (k := update k p false) (by omega) q
  rw [Function.update_of_ne (Ne.symm hne), hq] at hfalse
  cases hfalse

/-- The sum of what the members have. -/
def total [Fintype P] (f : P → ℕ) : ℤ := ∑ p, (f p : ℤ)

theorem total_change [Fintype P] [DecidableEq P] {f f' : P → ℕ} (hf : ∀ p, p ≠ m → f' p = f p) :
    total f' = total f - f m + f' m := by
  unfold total
  have hrest : ∑ p ∈ univ.erase m, (f' p : ℤ) = ∑ p ∈ univ.erase m, (f p : ℤ) :=
    sum_congr rfl fun p hp => by rw [hf p (ne_of_mem_erase hp)]
  rw [← add_sum_erase _ (fun p => (f' p : ℤ)) (mem_univ m),
    ← add_sum_erase _ (fun p => (f p : ℤ)) (mem_univ m), hrest]
  omega

theorem le_total [Fintype P] (f : P → ℕ) (p : P) : (f p : ℤ) ≤ total f :=
  single_le_sum (f := fun q => (f q : ℤ)) (fun _ _ => Int.natCast_nonneg _)
    (mem_univ p)

end Osfmk.Census

import Mathlib

/-!
# Buckets of a hash table

Each bucket lists the entries whose key has one hash, each entry once, and no two entries have the
same key.
-/

open Function (update_apply)

namespace Osfmk.Buckets

variable {A K H : Type*} {hash : K → H} {bucket : H → List A}
  {L L' : A → K → Prop} {a : A} {k : K}

/-- The entries of `L`, in the buckets of their keys. -/
structure Indexed (hash : K → H) (bucket : H → List A) (L : A → K → Prop) : Prop where
  nodup : ∀ h, (bucket h).Nodup
  mem : ∀ a h, a ∈ bucket h ↔ ∃ k, L a k ∧ hash k = h
  key : ∀ a k k', L a k → L a k' → k = k'
  inj : ∀ a b k, L a k → L b k → a = b

theorem Indexed.congr (h : Indexed hash bucket L) (hL : ∀ a k, L' a k ↔ L a k) :
    Indexed hash bucket L' := by
  have he : L' = L := funext fun a => funext fun k => propext (hL a k)
  rw [he]
  exact h

theorem Indexed.mem_of (h : Indexed hash bucket L) (hk : L a k) : a ∈ bucket (hash k) :=
  (h.mem a _).mpr ⟨k, hk, rfl⟩

theorem Indexed.enter [DecidableEq H] (h : Indexed hash bucket L) (ha : ∀ k', ¬ L a k') (hk : ∀ b, ¬ L b k)
    (hL : ∀ b k', L' b k' ↔ L b k' ∨ b = a ∧ k' = k) :
    Indexed hash (Function.update bucket (hash k) (a :: bucket (hash k))) L' := by
  have hnot : ∀ i, a ∉ bucket i := by
    intro i hi
    obtain ⟨k', hk', -⟩ := (h.mem a i).mp hi
    exact ha k' hk'
  refine ⟨fun i => ?_, fun b i => ?_, fun b k1 k2 h1 h2 => ?_, fun b c k' hb hc => ?_⟩
  · rw [update_apply]
    split
    · exact List.nodup_cons.mpr ⟨hnot _, h.nodup _⟩
    · exact h.nodup i
  · simp only [hL]
    rw [update_apply]
    split
    · next hi =>
      rw [List.mem_cons, h.mem, hi]
      constructor
      · rintro (rfl | ⟨k', hb, he⟩)
        · exact ⟨k, Or.inr ⟨rfl, rfl⟩, rfl⟩
        · exact ⟨k', Or.inl hb, he⟩
      · rintro ⟨k', hb | ⟨rfl, rfl⟩, he⟩
        · exact Or.inr ⟨k', hb, he⟩
        · exact Or.inl rfl
    · next hi =>
      rw [h.mem]
      constructor
      · rintro ⟨k', hb, he⟩
        exact ⟨k', Or.inl hb, he⟩
      · rintro ⟨k', hb | ⟨rfl, rfl⟩, he⟩
        · exact ⟨k', hb, he⟩
        · exact absurd he.symm hi
  · rw [hL] at h1 h2
    rcases h1 with h1 | ⟨rfl, rfl⟩ <;> rcases h2 with h2 | ⟨he, rfl⟩
    · exact h.key b k1 k2 h1 h2
    · exact absurd (he ▸ h1) (ha k1)
    · exact absurd h2 (ha k2)
    · rfl
  · rw [hL] at hb hc
    rcases hb with hb | ⟨rfl, rfl⟩ <;> rcases hc with hc | ⟨rfl, he⟩
    · exact h.inj b c k' hb hc
    · exact absurd (he ▸ hb) (hk b)
    · exact absurd hc (hk c)
    · rfl

theorem Indexed.remove [DecidableEq H] [DecidableEq A] (h : Indexed hash bucket L) (hk : L a k)
    (hL : ∀ b k', L' b k' ↔ L b k' ∧ b ≠ a) :
    Indexed hash (Function.update bucket (hash k) ((bucket (hash k)).erase a)) L' := by
  refine ⟨fun i => ?_, fun b i => ?_, fun b k1 k2 h1 h2 => ?_, fun b c k' hb hc => ?_⟩
  · rw [update_apply]
    split
    · exact (h.nodup _).erase a
    · exact h.nodup i
  · simp only [hL]
    rw [update_apply]
    split
    · next hi =>
      rw [(h.nodup _).mem_erase_iff, h.mem, hi]
      constructor
      · rintro ⟨hba, k', hb, he⟩
        exact ⟨k', ⟨hb, hba⟩, he⟩
      · rintro ⟨k', ⟨hb, hba⟩, he⟩
        exact ⟨hba, k', hb, he⟩
    · next hi =>
      rw [h.mem]
      constructor
      · rintro ⟨k', hb, he⟩
        refine ⟨k', ⟨hb, ?_⟩, he⟩
        rintro rfl
        exact hi (he ▸ congrArg hash (h.key b k' k hb hk))
      · rintro ⟨k', ⟨hb, -⟩, he⟩
        exact ⟨k', hb, he⟩
  · exact h.key b k1 k2 ((hL b k1).mp h1).1 ((hL b k2).mp h2).1
  · exact h.inj b c k' ((hL b k').mp hb).1 ((hL c k').mp hc).1

end Osfmk.Buckets

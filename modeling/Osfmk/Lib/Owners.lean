import Mathlib

/-!
# Resources and their owners

Each resource has a bit that says whether it is in use, and each owner refers to at most one
resource.  The bits agree with the references when the resources in use are those that are referred
to, each of them by one owner.  They go on agreeing when an owner takes a resource that is not in use
and when an owner drops its own.
-/

open Option (some.inj)

namespace Osfmk.Owners

variable {O R : Type*} {used used' : R → Bool} {ref ref' : O → Option R} {o : O} {r : R}

/-- A resource is in use when somebody refers to it, and then only one does. -/
structure Owned (used : R → Bool) (ref : O → Option R) : Prop where
  used_iff : ∀ r, used r = true ↔ ∃ o, ref o = some r
  inj : ∀ o p r, ref o = some r → ref p = some r → o = p

section

variable (h : Owned used ref)
include h

theorem Owned.used_iff_unique (r : R) : used r = true ↔ ∃! o, ref o = some r := by
  rw [h.used_iff]
  constructor
  · rintro ⟨o, ho⟩
    exact ⟨o, ho, fun p hp => h.inj p o r hp ho⟩
  · rintro ⟨o, ho, -⟩
    exact ⟨o, ho⟩

theorem Owned.congr (hu : ∀ q, used' q = used q) (hr : ∀ p, ref' p = ref p) : Owned used' ref' := by
  have hue : used' = used := funext hu
  have hre : ref' = ref := funext hr
  rw [hue, hre]
  exact h

theorem Owned.take (hfree : used r = false) (hu : used' r = true)
    (hu' : ∀ q, q ≠ r → used' q = used q) (ho : ref o = none) (hr : ref' o = some r)
    (hr' : ∀ p, p ≠ o → ref' p = ref p) : Owned used' ref' := by
  -- nobody else refers to the resource
  have hno : ∀ p, p ≠ o → ref' p ≠ some r := by
    intro p hp he
    rw [hr' p hp] at he
    have hused := (h.used_iff r).mpr ⟨p, he⟩
    rw [hfree] at hused
    cases hused
  refine ⟨fun q => ?_, fun p p' q hp hp' => ?_⟩
  · by_cases hq : q = r
    · rw [hq]
      exact ⟨fun _ => ⟨o, hr⟩, fun _ => hu⟩
    · rw [hu' q hq, h.used_iff]
      constructor
      · rintro ⟨p, hp⟩
        refine ⟨p, ?_⟩
        rw [hr' p fun he => ?_]
        · exact hp
        · rw [he, ho] at hp
          cases hp
      · rintro ⟨p, hp⟩
        refine ⟨p, ?_⟩
        rw [← hr' p fun he => ?_]
        · exact hp
        · rw [he, hr] at hp
          exact hq (some.inj hp).symm
  · by_cases hpo : p = o
    · by_cases hpo' : p' = o
      · rw [hpo, hpo']
      · rw [hpo, hr] at hp
        rw [← some.inj hp] at hp'
        exact absurd hp' (hno p' hpo')
    · by_cases hpo' : p' = o
      · rw [hpo', hr] at hp'
        rw [← some.inj hp'] at hp
        exact absurd hp (hno p hpo)
      · rw [hr' p hpo] at hp
        rw [hr' p' hpo'] at hp'
        exact h.inj p p' q hp hp'

theorem Owned.drop (ho : ref o = some r) (hu : used' r = false)
    (hu' : ∀ q, q ≠ r → used' q = used q) (hr : ref' o = none)
    (hr' : ∀ p, p ≠ o → ref' p = ref p) : Owned used' ref' := by
  have hold : ∀ p q, ref' p = some q → p ≠ o ∧ ref p = some q := by
    intro p q hp
    have hpo : p ≠ o := by
      intro he
      rw [he, hr] at hp
      cases hp
    rw [hr' p hpo] at hp
    exact ⟨hpo, hp⟩
  refine ⟨fun q => ?_, fun p p' q hp hp' => h.inj p p' q (hold p q hp).2 (hold p' q hp').2⟩
  by_cases hq : q = r
  · rw [hq, hu]
    refine ⟨nofun, ?_⟩
    rintro ⟨p, hp⟩
    obtain ⟨hpo, hp⟩ := hold p r hp
    exact absurd (h.inj p o r hp ho) hpo
  · rw [hu' q hq, h.used_iff]
    constructor
    · rintro ⟨p, hp⟩
      refine ⟨p, ?_⟩
      rw [hr' p fun he => ?_]
      · exact hp
      · rw [he, ho] at hp
        exact hq (some.inj hp).symm
    · rintro ⟨p, hp⟩
      exact ⟨p, (hold p q hp).2⟩

end

end Osfmk.Owners

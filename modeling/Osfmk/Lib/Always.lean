import Osfmk.Lib.Trace

/-!
# What is right at every step of a run

When a step from a state with the invariant is right exactly if it meets a condition, and the steps
that meet the condition keep the invariant, all steps of a run are right exactly if all of them meet
the condition.
-/

namespace Osfmk.Trace

variable {S A : Type*} {step : S → A → Option S}

/-- Each step of a run is right, given the states before and after it. -/
def Always (step : S → A → Option S) (R : S → A → S → Prop) : S → List A → Prop
  | _, [] => True
  | s, a :: as => ∀ s', step s a = some s' → R s a s' ∧ Always step R s' as

/-- **The rule for exact conditions**. -/
theorem always_iff_meets {R : S → A → S → Prop} {P : S → A → Prop} {I : S → Prop}
    (hright : ∀ s a s', I s → step s a = some s' → (R s a s' ↔ P s a))
    (hinv : ∀ s a s', I s → P s a → step s a = some s' → I s') :
    ∀ (as : List A) (s s' : S), I s → run step s as = some s' →
      (Always step R s as ↔ Meets step P s as) := by
  intro as
  induction as with
  | nil => exact fun _ _ _ _ => Iff.rfl
  | cons a as ih =>
    intro s s' hs hrun
    obtain ⟨s1, hs1, hrun⟩ := run_cons hrun
    constructor
    · intro h
      obtain ⟨hr, hrest⟩ := h s1 hs1
      have hp := (hright s a s1 hs hs1).mp hr
      exact .cons hp hs1 ((ih s1 s' (hinv s a s1 hs hp hs1) hrun).mp hrest)
    · intro h s2 hs2
      obtain rfl := Option.some.inj (hs1.symm.trans hs2)
      have hi := hinv s a s1 hs h.1 hs1
      exact ⟨(hright s a s1 hs hs1).mpr h.1, (ih s1 s' hi hrun).mpr (h.2 s1 hs1)⟩

end Osfmk.Trace

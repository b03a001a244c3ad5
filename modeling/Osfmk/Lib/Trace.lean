import Mathlib

/-!
# Runs of a step function

A system takes steps that can be refused, each of them chosen from outside.  A property of the
states that holds at the beginning and is kept by each step holds at the end of every run, and it is
enough that the steps of the run keep it that meet a condition in the state they start from.
-/

namespace Osfmk.Trace

variable {S A : Type*} {step : S → A → Option S}

/-- The state after some steps. -/
def run (step : S → A → Option S) : S → List A → Option S
  | s, [] => some s
  | s, a :: as => (step s a).bind fun s' => run step s' as

/-- Each step of a run meets `P` in the state it starts from. -/
def Meets (step : S → A → Option S) (P : S → A → Prop) : S → List A → Prop
  | _, [] => True
  | s, a :: as => P s a ∧ ∀ s', step s a = some s' → Meets step P s' as

variable {a : A} {as : List A} {s s' : S} {P : S → A → Prop} {I : S → Prop}

theorem run_cons (h : run step s (a :: as) = some s') :
    ∃ s1, step s a = some s1 ∧ run step s1 as = some s' :=
  Option.bind_eq_some_iff.mp h

theorem of_guard {p : Prop} [Decidable p]
    (h : (if p then some s else none) = some s') : p ∧ s' = s := by
  split at h
  · next hp => exact ⟨hp, (Option.some.inj h).symm⟩
  · cases h

theorem Meets.cons (ha : P s a)
    (hs : step s a = some s') (h : Meets step P s' as) : Meets step P s (a :: as) :=
  ⟨ha, fun _ hs' => Option.some.inj (hs.symm.trans hs') ▸ h⟩

theorem Meets.of_mem :
    ∀ (as : List A) (s : S), (∀ a ∈ as, ∀ s, P s a) → Meets step P s as
  | [], _, _ => trivial
  | a :: as, s, h => ⟨h a List.mem_cons_self s,
      fun s' _ => Meets.of_mem as s' fun b hb => h b (List.mem_cons_of_mem a hb)⟩

theorem Meets.of_forall (h : ∀ s a, P s a) (as : List A) (s : S) :
    Meets step P s as :=
  Meets.of_mem as s fun a _ s => h s a

theorem Meets.and {Q : A → Prop} :
    ∀ (as : List A) (s : S), Meets step P s as → (∀ a ∈ as, Q a) →
      Meets step (fun s a => P s a ∧ Q a) s as := by
  intro as
  induction as with
  | nil => intro s _ _; exact trivial
  | cons a as ih =>
    intro s h hq
    refine ⟨⟨h.1, hq a List.mem_cons_self⟩, fun s' hs' => ih s' (h.2 s' hs') fun b hb => ?_⟩
    exact hq b (List.mem_cons_of_mem a hb)

/-- **The rule for invariants**: what the steps that meet a condition keep holds after every run of
such steps. -/
theorem invariant
    (hstep : ∀ s a s', I s → P s a → step s a = some s' → I s') :
    ∀ (as : List A) (s s' : S), I s → Meets step P s as → run step s as = some s' → I s' := by
  intro as
  induction as with
  | nil =>
    intro s s' hs _ hrun
    cases hrun
    exact hs
  | cons a as ih =>
    intro s s' hs hm hrun
    obtain ⟨s1, hs1, hrun⟩ := run_cons hrun
    exact ih s1 s' (hstep s a s1 hs hm.1 hs1) (hm.2 s1 hs1) hrun

theorem invariant_of_step (hstep : ∀ s a s', I s → step s a = some s' → I s') (as : List A)
    (s s' : S) (hs : I s) (hrun : run step s as = some s') : I s' :=
  invariant (fun s a s' h _ hs => hstep s a s' h hs) as s s' hs
    (Meets.of_forall (fun _ _ => trivial) as s) hrun

/-- **The condition is necessary** where a step that does not meet it ends every run in a state with
`Q`. -/
theorem meets_of_end {Q : S → Prop} (hstep : ∀ s a s', step s a = some s' → ¬ P s a → Q s')
    (hend : ∀ s a, Q s → step s a = none) :
    ∀ (as : List A) (s s' : S), run step s as = some s' → ¬ Q s' → Meets step P s as := by
  intro as
  induction as with
  | nil => exact fun _ _ _ _ => trivial
  | cons a as ih =>
    intro s s' hrun hs'
    obtain ⟨s1, hs1, hrun⟩ := run_cons hrun
    refine .cons ?_ hs1 (ih s1 s' hrun hs')
    by_contra hp
    have hq := hstep s a s1 hs1 hp
    cases as with
    | nil =>
      cases hrun
      exact hs' hq
    | cons b as =>
      obtain ⟨s2, hs2, -⟩ := run_cons hrun
      rw [hend s1 b hq] at hs2
      cases hs2

/-- **The rule for runs that are not refused**: each step that meets the condition is taken, and keeps
the invariant. -/
theorem completes
    (hstep : ∀ s a, I s → P s a → ∃ s', step s a = some s' ∧ I s') :
    ∀ (as : List A) (s : S), I s → Meets step P s as → ∃ s', run step s as = some s' ∧ I s' := by
  intro as
  induction as with
  | nil => exact fun s hs _ => ⟨s, rfl, hs⟩
  | cons a as ih =>
    intro s hs hm
    obtain ⟨s1, hs1, hi⟩ := hstep s a hs hm.1
    rw [run, hs1]
    exact ih s1 hi (hm.2 s1 hs1)

end Osfmk.Trace

import Mathlib.Logic.Relation
import Mathlib.Logic.Function.Basic
import Mathlib.Data.List.Nodup

/-!
# Graphs with at most one successor

A partial function `next : α → Option α` as a graph: where a walk along it can get, and when
a new edge closes a circle.
-/

open Function (update)

namespace Osfmk.Successor

variable {α : Type*} {next next' : α → Option α} {a b c : α} {l : List α}

/-- There is an edge from `a` to `b`. -/
def Edge (next : α → Option α) (a b : α) : Prop := next a = some b

/-- No vertex reaches itself. -/
def Acyclic (next : α → Option α) : Prop := ∀ a, ¬ Relation.TransGen (Edge next) a a

theorem Acyclic.of_le (h : Acyclic next) (hle : ∀ a b, next' a = some b → next a = some b) :
    Acyclic next' :=
  fun a ha => h a (Relation.TransGen.mono hle _ _ ha)

/-- **A new edge from a sink closes no circle** when the sink cannot be reached from its end. -/
theorem Acyclic.link [DecidableEq α] (h : Acyclic next) (hsink : next a = none)
    (hreach : ¬ Relation.ReflTransGen (Edge next) b a) :
    Acyclic (update next a (some b)) := by
  -- a path of the new graph is one of the old graph, or can be cut at the new edge
  have hcut : ∀ x y, Relation.TransGen (Edge (update next a (some b))) x y →
      Relation.TransGen (Edge next) x y ∨
        Relation.ReflTransGen (Edge next) x a ∧ Relation.ReflTransGen (Edge next) b y := by
    have hedge : ∀ {x y}, Edge (update next a (some b)) x y →
        Edge next x y ∨ x = a ∧ y = b := by
      intro x y hxy
      by_cases hx : x = a
      · subst hx
        rw [Edge, Function.update_self] at hxy
        exact Or.inr ⟨rfl, (Option.some.inj hxy).symm⟩
      · rw [Edge, Function.update_of_ne hx] at hxy
        exact Or.inl hxy
    intro x y hpath
    induction hpath with
    | single hxy =>
      rcases hedge hxy with hxy | ⟨rfl, rfl⟩
      · exact Or.inl (.single hxy)
      · exact Or.inr ⟨.refl, .refl⟩
    | tail _ hyz ih =>
      rcases hedge hyz with hyz | ⟨rfl, rfl⟩
      · rcases ih with ih | ih
        · exact Or.inl (ih.tail hyz)
        · exact Or.inr ⟨ih.1, ih.2.tail hyz⟩
      · rcases ih with ih | ih
        · exact Or.inr ⟨ih.to_reflTransGen, .refl⟩
        · exact Or.inr ⟨ih.1, .refl⟩
  intro x hx
  rcases hcut x x hx with hx | ⟨h1, h2⟩
  · exact h x hx
  · exact hreach (h2.trans h1)

/-- The walk from `a` to `b` along `next`, which passes the members of `l` in order, `b` not
included. -/
def Walk (next : α → Option α) : α → List α → α → Prop
  | a, [], b => a = b
  | a, c :: l, b => a = c ∧ ∃ d, next a = some d ∧ Walk next d l b

section

variable (h : Walk next a l b)
include h

theorem Walk.snoc (hb : next b = some c) : Walk next a (l ++ [b]) c := by
  induction l generalizing a with
  | nil =>
    obtain rfl := h
    exact ⟨rfl, c, hb, rfl⟩
  | cons d l ih =>
    obtain ⟨rfl, e, he, hw⟩ := h
    exact ⟨rfl, e, he, ih hw⟩

theorem Walk.congr (hn : ∀ x ∈ l, next' x = next x) : Walk next' a l b := by
  induction l generalizing a with
  | nil => exact h
  | cons c l ih =>
    obtain ⟨rfl, d, hd, hw⟩ := h
    exact ⟨rfl, d, (hn _ List.mem_cons_self).trans hd,
      ih hw fun x hx => hn x (List.mem_cons_of_mem _ hx)⟩

theorem Walk.reaches : Relation.ReflTransGen (Edge next) a b := by
  induction l generalizing a with
  | nil =>
    obtain rfl := h
    exact .refl
  | cons c l ih =>
    obtain ⟨rfl, d, hd, hw⟩ := h
    exact .head hd (ih hw)

theorem Walk.reaches_mem {x : α} (hx : x ∈ l) :
    Relation.ReflTransGen (Edge next) a x ∧ Relation.TransGen (Edge next) x b := by
  induction l generalizing a with
  | nil => cases hx
  | cons c l ih =>
    obtain ⟨rfl, d, hd, hw⟩ := h
    rcases List.mem_cons.mp hx with rfl | hx
    · exact ⟨.refl, .head' hd hw.reaches⟩
    · obtain ⟨h1, h2⟩ := ih hw hx
      exact ⟨.head hd h1, h2⟩

theorem Walk.reaches_iff (hb : next b = none) (hc : next c = none) :
    Relation.ReflTransGen (Edge next) a c ↔ c = b := by
  constructor
  · intro hac
    induction l generalizing a with
    | nil =>
      obtain rfl := h
      rcases hac.cases_head with rfl | ⟨d, hd, -⟩
      · rfl
      · rw [Edge, hb] at hd
        cases hd
    | cons x l ih =>
      obtain ⟨rfl, d, hd, hw⟩ := h
      rcases hac.cases_head with rfl | ⟨d', hd', hrest⟩
      · rw [hd] at hc
        cases hc
      · rw [Edge, hd] at hd'
        obtain rfl := Option.some.inj hd'
        exact ih hw hrest
  · rintro rfl
    exact h.reaches

/-- **A walk in an acyclic graph repeats no vertex.** -/
theorem Walk.nodup (hac : Acyclic next) : (l ++ [b]).Nodup := by
  induction l generalizing a with
  | nil => exact List.nodup_singleton b
  | cons c l ih =>
    obtain ⟨rfl, d, hd, hw⟩ := h
    refine List.nodup_cons.mpr ⟨fun hmem => ?_, ih hw⟩
    rcases List.mem_append.mp hmem with hmem | hmem
    · exact hac a (.head' hd (hw.reaches_mem hmem).1)
    · rw [List.mem_singleton] at hmem
      subst hmem
      exact hac a (.head' hd hw.reaches)

end

end Osfmk.Successor

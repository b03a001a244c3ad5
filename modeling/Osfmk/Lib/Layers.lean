import Mathlib

/-!
# Layers of partial maps

A chain of layers, each a partial map from offsets to values.  What a layer does not define is
looked up in the next one, at an offset shifted by an amount of the layer's own.
-/

open List Option

namespace Osfmk.Layers

variable {ι D : Type*} {next next' : ι → Option ι} {own own' : ι → ℕ → Option D}
  {off off' : ι → ℕ} {a : Option ι} {b : ι} {l l' l1 l2 : List ι} {f : ℕ}

/-- The layers from `a` to the last one are the members of the list, in order. -/
def Chain (next : ι → Option ι) : Option ι → List ι → Prop
  | none, [] => True
  | some a, b :: l => a = b ∧ Chain next (next a) l
  | none, _ :: _ => False
  | some _, [] => False

theorem Chain.cons_inv (h : Chain next a (b :: l)) : a = some b ∧ Chain next (next b) l := by
  cases a with
  | none => exact h.elim
  | some a =>
    obtain ⟨rfl, h⟩ := h
    exact ⟨rfl, h⟩

theorem Chain.unique (h : Chain next a l) (h' : Chain next a l') : l = l' := by
  induction l generalizing a l' with
  | nil =>
    cases a with
    | none =>
      cases l' with
      | nil => rfl
      | cons b l' => exact h'.elim
    | some a => exact h.elim
  | cons b l ih =>
    obtain ⟨rfl, hl⟩ := h.cons_inv
    cases l' with
    | nil => exact h'.elim
    | cons c l' =>
      obtain ⟨rfl, h'⟩ := h'
      rw [ih hl h']

theorem Chain.drop (h : Chain next a (l1 ++ b :: l2)) : Chain next (some b) (b :: l2) := by
  induction l1 generalizing a with
  | nil =>
    obtain ⟨rfl, hl⟩ := cons_inv h
    exact ⟨rfl, hl⟩
  | cons c l1 ih => exact ih (cons_inv h).2

/-- **A chain that ends has no repetition.** -/
theorem Chain.nodup (h : Chain next a l) : l.Nodup := by
  induction l generalizing a with
  | nil => exact nodup_nil
  | cons b l ih =>
    obtain ⟨rfl, hl⟩ := h.cons_inv
    refine List.nodup_cons.mpr ⟨fun hb => ?_, ih hl⟩
    -- otherwise the chain from `b` would be a proper end of itself
    obtain ⟨l1, l2, rfl⟩ := append_of_mem hb
    have hlong : Chain next (some b) ((b :: l1) ++ b :: l2) := ⟨rfl, hl⟩
    have hlen := congrArg List.length (hlong.unique hlong.drop)
    simp only [length_cons, length_append] at hlen
    omega

theorem Chain.congr (h : Chain next a l) (hn : ∀ x ∈ l, next' x = next x) : Chain next' a l := by
  induction l generalizing a with
  | nil =>
    cases a with
    | none => trivial
    | some a => exact h.elim
  | cons b l ih =>
    obtain ⟨rfl, hl⟩ := h.cons_inv
    refine ⟨rfl, ?_⟩
    rw [hn b mem_cons_self]
    exact ih hl fun x hx => hn x (mem_cons_of_mem b hx)

theorem Chain.replace (h : Chain next a (l1 ++ b :: l2)) (hn : ∀ x ∈ l1, next' x = next x)
    (hb : Chain next' (some b) (b :: l)) : Chain next' a (l1 ++ b :: l) := by
  induction l1 generalizing a with
  | nil =>
    obtain ⟨rfl, -⟩ := cons_inv h
    exact hb
  | cons c l1 ih =>
    obtain ⟨rfl, hl⟩ := cons_inv h
    refine ⟨rfl, ?_⟩
    rw [hn c mem_cons_self]
    exact ih hl fun x hx => hn x (mem_cons_of_mem c hx)

/-- What is found at an offset of the first of some layers. -/
def contents (own : ι → ℕ → Option D) (off : ι → ℕ) : List ι → ℕ → Option D
  | [], _ => none
  | a :: l, f => (own a f).or (contents own off l (f + off a))

theorem contents_congr (h : ∀ x ∈ l, own' x = own x ∧ off' x = off x) (f : ℕ) :
    contents own' off' l f = contents own off l f := by
  induction l generalizing f with
  | nil => rfl
  | cons a l ih =>
    obtain ⟨h1, h2⟩ := h a mem_cons_self
    rw [contents, contents, h1, h2, ih fun x hx => h x (mem_cons_of_mem a hx)]

section

variable (hoff : ∀ x ∈ l, off x = 0)
include hoff

theorem contents_append_of_zero (l' : List ι) (f : ℕ) :
    contents own off (l ++ l') f = (contents own off l f).or (contents own off l' f) := by
  induction l with
  | nil => rw [nil_append, contents, none_or]
  | cons a l ih =>
    rw [List.cons_append, contents, contents, hoff a List.mem_cons_self, Nat.add_zero,
      ih fun x hx => hoff x (List.mem_cons_of_mem a hx), Option.or_assoc]

theorem contents_concat (b : ι) (f : ℕ) :
    contents own off (l ++ [b]) f = (contents own off l f).or (own b f) := by
  rw [contents_append_of_zero hoff, contents, contents, or_none]

theorem contents_isSome (hb : b ∈ l) (hown : (own b f).isSome) : (contents own off l f).isSome := by
  induction l with
  | nil => cases hb
  | cons a l ih =>
    rw [contents, isSome_or, hoff a mem_cons_self, Nat.add_zero, Bool.or_eq_true]
    rcases mem_cons.mp hb with rfl | hb
    · exact .inl hown
    · exact .inr (ih (fun x hx => hoff x (mem_cons_of_mem a hx)) hb)

end

/-- **Lookups that agree below some layers agree above them.** -/
theorem contents_append_congr (h : ∀ x ∈ l, own' x = own x ∧ off' x = off x)
    (hl : contents own' off' l2 (f + (l.map off).sum) = contents own off l1 (f + (l.map off).sum)) :
    contents own' off' (l ++ l2) f = contents own off (l ++ l1) f := by
  induction l generalizing f with
  | nil => simpa using hl
  | cons a l ih =>
    obtain ⟨h1, h2⟩ := h a mem_cons_self
    rw [cons_append, cons_append, contents, contents, h1, h2,
      ih fun x hx => h x (mem_cons_of_mem a hx)]
    rw [map_cons, sum_cons, ← Nat.add_assoc] at hl
    exact hl

end Osfmk.Layers

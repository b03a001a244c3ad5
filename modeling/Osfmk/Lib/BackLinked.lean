import Mathlib

/-!
# Lists with back links

Lists that are threaded through two fields of their elements: `next` leads from a head or an element
to the element after it, and `prev` leads back to where the link to an element stands, which can be
the head.  Some of the lists may do without the back links.  Several heads share the elements, and
an element is on one list at most.
-/

open Function (update update_of_ne update_self)
open List

namespace Osfmk.BackLinked

/-- Where a link stands. -/
inductive Loc (H A : Type*)
  | head (h : H)
  | elem (a : A)
  deriving DecidableEq

variable {H A : Type*} {next next' : Loc H A → Option A} {prev prev' : A → Loc H A} {x : Loc H A}
  {a b : A} {l l1 l2 : List A}

/-- Following `next` from a place visits the list, and then there is no link. -/
def Chain (next : Loc H A → Option A) : Loc H A → List A → Prop
  | x, [] => next x = none
  | x, a :: l => next x = some a ∧ Chain next (.elem a) l

/-- Each element of the list leads back to the place before it. -/
def Back (prev : A → Loc H A) : Loc H A → List A → Prop
  | _, [] => True
  | x, a :: l => prev a = x ∧ Back prev (.elem a) l

/-- The last place of a list. -/
def last : Loc H A → List A → Loc H A
  | x, [] => x
  | _, a :: l => last (.elem a) l

theorem last_eq (x : Loc H A) (l : List A) : last x l = x ∨ ∃ a ∈ l, last x l = .elem a := by
  induction l generalizing x with
  | nil => exact Or.inl rfl
  | cons a l ih =>
    rcases ih (.elem a) with h | ⟨b, hb, h⟩
    · exact Or.inr ⟨a, mem_cons_self, h⟩
    · exact Or.inr ⟨b, mem_cons_of_mem a hb, h⟩

theorem last_concat (x : Loc H A) (l : List A) (a : A) : last x (l ++ [a]) = .elem a := by
  induction l generalizing x with
  | nil => rfl
  | cons b l ih => exact ih (.elem b)

theorem Chain.congr (h : Chain next x l) (hx : next' x = next x)
    (hl : ∀ a ∈ l, next' (.elem a) = next (.elem a)) : Chain next' x l := by
  induction l generalizing x with
  | nil => exact hx.trans h
  | cons a l ih =>
    exact ⟨hx.trans h.1, ih h.2 (hl a mem_cons_self) fun b hb =>
      hl b (mem_cons_of_mem a hb)⟩

theorem Back.congr (h : Back prev x l) (hl : ∀ a ∈ l, prev' a = prev a) : Back prev' x l := by
  induction l generalizing x with
  | nil => trivial
  | cons a l ih =>
    exact ⟨(hl a mem_cons_self).trans h.1, ih h.2 fun b hb => hl b (mem_cons_of_mem a hb)⟩

theorem Chain.next_last (h : Chain next x (l1 ++ l2)) : next (last x l1) = l2.head? := by
  induction l1 generalizing x with
  | nil =>
    cases l2 with
    | nil => exact h
    | cons a l2 => exact h.1
  | cons a l1 ih => exact ih h.2

theorem Chain.next_elem (h : Chain next x (l1 ++ a :: l2)) : next (.elem a) = l2.head? := by
  rw [← last_concat x l1 a]
  refine Chain.next_last (x := x) ?_
  rw [append_assoc]
  exact h

theorem Back.prev_eq (h : Back prev x (l1 ++ a :: l2)) : prev a = last x l1 := by
  induction l1 generalizing x with
  | nil => exact h.1
  | cons b l1 ih => exact ih h.2

theorem ne_last {l : List A} (hx : ∀ c ∈ b :: l1 ++ l, x ≠ .elem c) : x ≠ last (.elem b) l1 := by
  rcases last_eq (.elem b) l1 with he | ⟨c, hc, he⟩ <;> rw [he]
  · exact hx b mem_cons_self
  · exact hx c (mem_cons_of_mem b (mem_append_left _ hc))

variable [DecidableEq A]

/-- `prev` after the element `o`, if there is one, has been led back to `x`. -/
def backTo (prev : A → Loc H A) (o : Option A) (x : Loc H A) : A → Loc H A :=
  match o with
  | none => prev
  | some b => update prev b x

theorem backTo_of_ne {o : Option A} (h : o ≠ some b) : backTo prev o x b = prev b := by
  cases o with
  | none => rfl
  | some c => exact update_of_ne (fun he => h (by rw [he])) ..

theorem Back.remove (h : Back prev x (l1 ++ a :: l2)) (hn : (l1 ++ a :: l2).Nodup) :
    Back (backTo prev l2.head? (last x l1)) x (l1 ++ l2) := by
  induction l1 generalizing x with
  | nil =>
    have hn' := (List.nodup_cons.mp hn).2
    cases l2 with
    | nil => trivial
    | cons b l2 =>
      refine ⟨update_self .., h.2.2.congr fun c hc => ?_⟩
      exact update_of_ne (fun he => (List.nodup_cons.mp hn').1 (by cases he; exact hc)) ..
  | cons b l1 ih =>
    have hn' := List.nodup_cons.mp hn
    refine ⟨(backTo_of_ne fun he => hn'.1 ?_).trans h.1, ih h.2 hn'.2⟩
    exact mem_append_right _ (mem_cons_of_mem a (mem_of_mem_head? he))

theorem Back.insert (h : Back prev x (l1 ++ l2)) (hn : (l1 ++ l2).Nodup) (ha : a ∉ l1 ++ l2) :
    Back (backTo (update prev a (last x l1)) l2.head? (.elem a)) x (l1 ++ a :: l2) := by
  induction l1 generalizing x with
  | nil =>
    have hhead : l2.head? ≠ some a := fun he => ha (mem_of_mem_head? he)
    refine ⟨(backTo_of_ne hhead).trans (update_self ..), ?_⟩
    cases l2 with
    | nil => trivial
    | cons b l2 =>
      refine ⟨update_self .., h.2.congr fun c hc => ?_⟩
      have hcb : c ≠ b := fun he => (List.nodup_cons.mp hn).1 (by cases he; exact hc)
      have hca : c ≠ a := fun he => ha (by cases he; exact mem_cons_of_mem b hc)
      exact (update_of_ne hcb ..).trans (update_of_ne hca ..)
  | cons b l1 ih =>
    have hn' := List.nodup_cons.mp hn
    refine ⟨?_, ih h.2 hn'.2 fun hc => ha (mem_cons_of_mem b hc)⟩
    rw [backTo_of_ne fun he => hn'.1 (mem_append_right _ (mem_of_mem_head? he)),
      update_of_ne fun he => ha (by rw [he]; exact mem_cons_self)]
    exact h.1

variable [DecidableEq H]

theorem Chain.remove (h : Chain next x (l1 ++ a :: l2)) (hn : (l1 ++ a :: l2).Nodup)
    (hx : ∀ b ∈ l1 ++ a :: l2, x ≠ .elem b) :
    Chain (update next (last x l1) (next (.elem a))) x (l1 ++ l2) := by
  induction l1 generalizing x with
  | nil =>
    have hne : ∀ b ∈ l2, (.elem b : Loc H A) ≠ x := fun b hb =>
      (hx b (mem_cons_of_mem a hb)).symm
    cases l2 with
    | nil => exact (update_self ..).trans h.2
    | cons b l2 =>
      refine ⟨(update_self ..).trans h.2.1, h.2.2.congr ?_ fun c hc => ?_⟩
      · exact update_of_ne (hne b mem_cons_self) ..
      · exact update_of_ne (hne c (mem_cons_of_mem b hc)) ..
  | cons b l1 ih =>
    have hn' := List.nodup_cons.mp hn
    refine ⟨(update_of_ne (ne_last hx) ..).trans h.1, ih h.2 hn'.2 fun c hc he => ?_⟩
    cases he
    exact hn'.1 hc

theorem Chain.insert (h : Chain next x (l1 ++ l2)) (hn : (l1 ++ l2).Nodup) (ha : a ∉ l1 ++ l2)
    (hx : ∀ b ∈ l1 ++ l2, x ≠ .elem b) (hxa : x ≠ .elem a) :
    Chain (update (update next (last x l1) (some a)) (.elem a) (next (last x l1)))
      x (l1 ++ a :: l2) := by
  induction l1 generalizing x with
  | nil =>
    refine ⟨(update_of_ne hxa ..).trans (update_self ..), ?_⟩
    have hne : ∀ b ∈ l2, (.elem b : Loc H A) ≠ .elem a ∧ (.elem b : Loc H A) ≠ x := fun b hb =>
      ⟨fun he => ha (by cases he; exact hb), (hx b hb).symm⟩
    cases l2 with
    | nil => exact (update_self ..).trans h
    | cons b l2 =>
      refine ⟨(update_self ..).trans h.1, h.2.congr ?_ fun c hc => ?_⟩
      · exact (update_of_ne (hne b mem_cons_self).1 ..).trans
          (update_of_ne (hne b mem_cons_self).2 ..)
      · have hcl := mem_cons_of_mem b hc
        exact (update_of_ne (hne c hcl).1 ..).trans (update_of_ne (hne c hcl).2 ..)
  | cons b l1 ih =>
    have hn' := List.nodup_cons.mp hn
    refine ⟨?_, ih h.2 hn'.2 (fun hc => ha (mem_cons_of_mem b hc)) (fun c hc he => ?_)
      fun he => ?_⟩
    · rw [update_of_ne hxa, last, update_of_ne (ne_last hx)]
      exact h.1
    · cases he
      exact hn'.1 hc
    · cases he
      exact ha mem_cons_self

/-- Each head has a list, and no element is on two of them. -/
structure Lists (next : Loc H A → Option A) (L : H → List A) : Prop where
  chain : ∀ h, Chain next (.head h) (L h)
  nodup : ∀ h, (L h).Nodup
  disjoint : ∀ h k a, a ∈ L h → a ∈ L k → h = k

variable {L : H → List A} {h : H}

section

variable (hk : Lists next L)
include hk

omit [DecidableEq H] [DecidableEq A] in
theorem Lists.last_ne (hL : L h = l1 ++ l2) {k : H} (hkh : k ≠ h) :
    (.head k : Loc H A) ≠ last (.head h) l1 ∧ ∀ b ∈ L k, (.elem b : Loc H A) ≠ last (.head h) l1 := by
  rcases last_eq (.head h : Loc H A) l1 with he | ⟨c, hc, he⟩ <;> rw [he]
  · exact ⟨fun e => hkh (by cases e; rfl), nofun⟩
  · refine ⟨nofun, fun b hb e => hkh ?_⟩
    obtain rfl : b = c := by
      cases e
      rfl
    exact hk.disjoint k h b hb (hL ▸ mem_append_left l2 hc)

/-- **Removing an element** from one of the lists. -/
theorem Lists.remove (hL : L h = l1 ++ a :: l2) :
    Lists (update next (last (.head h) l1) (next (.elem a)))
      (update L h (l1 ++ l2)) := by
  have hsub : ∀ k, (update L h (l1 ++ l2) k).Sublist (L k) := fun k => by
    by_cases hkh : k = h
    · rw [hkh, update_self, hL]
      exact (List.Sublist.refl l1).append (sublist_cons_self a l2)
    · rw [update_of_ne hkh]
  refine ⟨fun k => ?_, fun k => (hk.nodup k).sublist (hsub k), fun k k' b hb hb' =>
    hk.disjoint k k' b ((hsub k).subset hb) ((hsub k').subset hb')⟩
  by_cases hkh : k = h
  · subst hkh
    rw [update_self]
    exact Chain.remove (hL ▸ hk.chain k) (hL ▸ hk.nodup k) nofun
  · rw [update_of_ne hkh]
    obtain ⟨h1, h2⟩ := hk.last_ne hL hkh
    exact (hk.chain k).congr (update_of_ne h1 ..) fun b hb =>
      update_of_ne (h2 b hb) ..

/-- **Inserting an element** that is on no list. -/
theorem Lists.insert (hL : L h = l1 ++ l2) (ha : ∀ k, a ∉ L k) :
    Lists (update (update next (last (.head h) l1) (some a)) (.elem a)
      (next (last (.head h) l1))) (update L h (l1 ++ a :: l2)) := by
  have hmem : ∀ k b, b ∈ update L h (l1 ++ a :: l2) k → b ∈ L k ∨ b = a ∧ k = h := by
    intro k b hb
    by_cases hkh : k = h
    · subst hkh
      rw [update_self] at hb
      rw [hL]
      simp only [mem_append, mem_cons] at hb ⊢
      tauto
    · rw [update_of_ne hkh] at hb
      exact Or.inl hb
  refine ⟨fun k => ?_, fun k => ?_, fun k k' b hb hb' => ?_⟩
  · by_cases hkh : k = h
    · subst hkh
      rw [update_self]
      exact Chain.insert (hL ▸ hk.chain k) (hL ▸ hk.nodup k) (hL ▸ ha k) nofun
        nofun
    · rw [update_of_ne hkh]
      obtain ⟨h1, h2⟩ := hk.last_ne hL hkh
      refine (hk.chain k).congr ?_ fun b hb => ?_
      · exact (update_of_ne (by nofun) ..).trans (update_of_ne h1 ..)
      · rw [update_of_ne fun he => ha k (by cases he; exact hb),
          update_of_ne (h2 b hb)]
  · by_cases hkh : k = h
    · subst hkh
      rw [update_self, nodup_middle]
      exact List.nodup_cons.mpr ⟨hL ▸ ha k, hL ▸ hk.nodup k⟩
    · rw [update_of_ne hkh]
      exact hk.nodup k
  · rcases hmem k b hb with hbk | ⟨hba, hkh⟩ <;> rcases hmem k' b hb' with hbk' | ⟨hba', hkh'⟩
    · exact hk.disjoint k k' b hbk hbk'
    · exact absurd (hba' ▸ hbk) (ha k)
    · exact absurd (hba ▸ hbk') (ha k')
    · rw [hkh, hkh']

theorem Lists.write (ha : ∀ k, a ∉ L k) (o : Option A) : Lists (update next (.elem a) o) L :=
  ⟨fun k => (hk.chain k).congr (update_of_ne (by nofun) ..) fun b hb =>
    update_of_ne (fun he => ha k (by cases he; exact hb)) .., hk.nodup, hk.disjoint⟩

end

/-- The lists of some of the heads have back links. -/
def Backs (B : H → Prop) (prev : A → Loc H A) (L : H → List A) : Prop :=
  ∀ h, B h → Back prev (.head h) (L h)

variable {B : H → Prop}

theorem Backs.remove (hb : Backs B prev L) (hk : Lists next L) (hh : B h)
    (hL : L h = l1 ++ a :: l2) :
    Backs B (backTo prev l2.head? (last (.head h) l1)) (update L h (l1 ++ l2)) := by
  intro k hkB
  by_cases hkh : k = h
  · subst hkh
    rw [update_self]
    exact Back.remove (hL ▸ hb k hkB) (hL ▸ hk.nodup k)
  · rw [update_of_ne hkh]
    refine (hb k hkB).congr fun b hbk => backTo_of_ne fun he => hkh (hk.disjoint k h b hbk ?_)
    rw [hL]
    exact mem_append_right _ (mem_cons_of_mem a (mem_of_mem_head? he))

theorem Backs.insert (hb : Backs B prev L) (hk : Lists next L) (hh : B h) (hL : L h = l1 ++ l2)
    (ha : ∀ k, a ∉ L k) :
    Backs B (backTo (update prev a (last (.head h) l1)) l2.head? (.elem a))
      (update L h (l1 ++ a :: l2)) := by
  intro k hkB
  by_cases hkh : k = h
  · subst hkh
    rw [update_self]
    exact Back.insert (hL ▸ hb k hkB) (hL ▸ hk.nodup k) (hL ▸ ha k)
  · rw [update_of_ne hkh]
    refine (hb k hkB).congr fun b hbk => ?_
    rw [backTo_of_ne fun he => hkh (hk.disjoint k h b hbk (hL ▸ mem_append_right _
      (mem_of_mem_head? he))), update_of_ne fun he => ha k (by rw [← he]; exact hbk)]

omit [DecidableEq A] in
theorem Backs.change (hb : Backs B prev L) (hh : ¬ B h) (l : List A) :
    Backs B prev (update L h l) := by
  intro k hkB
  have hkh : k ≠ h := fun he => hh (he ▸ hkB)
  rw [update_of_ne hkh]
  exact hb k hkB

end Osfmk.BackLinked

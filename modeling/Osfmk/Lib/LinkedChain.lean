import Mathlib

/-!
# Singly linked chains through a link function

A list threaded through a link field: `next h` is the first element of the chain
headed at `h`, `next` of an element the one after it, and `stop` ends it.  The
operations on such a list are one or two writes of the link function; each lemma
here says what a write does to the list of the elements visited.
-/

open Function (update update_of_ne)

namespace Osfmk

variable {ν : Type*}

/-- Following `next` from `h` visits the elements of the list, in order, and then
arrives at `stop`. -/
def LinkedChain (next : ν → ν) (stop : ν) : ν → List ν → Prop
  | h, [] => next h = stop
  | h, i :: l => next h = i ∧ LinkedChain next stop i l

namespace LinkedChain

variable {next next' : ν → ν} {stop h i : ν} {l : List ν}

theorem congr (hc : LinkedChain next stop h l) (heq : ∀ x ∈ h :: l, next' x = next x) :
    LinkedChain next' stop h l := by
  induction l generalizing h with
  | nil => exact (heq h (by simp)).trans hc
  | cons i l ih =>
    exact ⟨(heq h (by simp)).trans hc.1, ih hc.2 fun x hx => heq x (List.mem_cons_of_mem _ hx)⟩

variable [DecidableEq ν]

theorem pop (hc : LinkedChain next stop h (i :: l)) (hn : (h :: i :: l).Nodup) :
    LinkedChain (update next h (next i)) stop h l := by
  have hh : ∀ x ∈ l, x ≠ h := fun x hx he =>
    (List.nodup_cons.mp hn).1 (List.mem_cons_of_mem _ (he ▸ hx))
  cases l with
  | nil => simpa [LinkedChain] using hc.2
  | cons j l =>
    refine ⟨by simpa using hc.2.1, congr hc.2.2 fun x hx => ?_⟩
    exact update_of_ne (hh x hx) _ _

theorem push (hc : LinkedChain next stop h l) (hi : i ≠ h) (hil : i ∉ l) (hh : h ∉ l) :
    LinkedChain (update (update next i (next h)) h i) stop h (i :: l) := by
  have hne : ∀ x ∈ l, x ≠ h ∧ x ≠ i := fun x hx => ⟨fun he => hh (he ▸ hx), fun he => hil (he ▸ hx)⟩
  refine ⟨by simp, ?_⟩
  cases l with
  | nil => simpa [LinkedChain, update_of_ne hi] using hc
  | cons j l =>
    refine ⟨by simpa [update_of_ne hi] using hc.1, congr hc.2 fun x hx => ?_⟩
    rw [update_of_ne (hne x hx).1, update_of_ne (hne x hx).2]

/-- The predecessor of an element: what stands before it, or the head. -/
def predOf (h : ν) : List ν → ν → ν
  | [], _ => h
  | j :: l, i => if j = i then h else predOf j l i

theorem predOf_mem (h : ν) (l : List ν) (i : ν) : predOf h l i ∈ h :: l := by
  induction l generalizing h with
  | nil => simp [predOf]
  | cons j l ih =>
    rw [predOf]
    split
    · exact List.mem_cons_self
    · exact List.mem_cons_of_mem _ (ih j)

/-- **Removing an element**: its predecessor is linked to its successor. -/
theorem unlink (hc : LinkedChain next stop h l) (hn : (h :: l).Nodup) (hi : i ∈ l) :
    LinkedChain (update next (predOf h l i) (next i)) stop h (l.erase i) := by
  induction l generalizing h with
  | nil => simp at hi
  | cons j l ih =>
    by_cases hji : j = i
    · subst hji
      simpa [predOf] using pop hc hn
    · have hil : i ∈ l := by
        rcases List.mem_cons.mp hi with h | h
        · exact absurd h.symm hji
        · exact h
      have hrest := ih hc.2 (List.nodup_cons.mp hn).2 hil
      rw [predOf, if_neg hji, List.erase_cons_tail (by simpa using hji)]
      refine ⟨?_, hrest⟩
      -- the predecessor is not the head, which is visited before
      have hne : h ≠ predOf j l i := by
        intro he
        exact (List.nodup_cons.mp hn).1 (he ▸ predOf_mem j l i)
      rw [update_of_ne hne]
      exact hc.1

end LinkedChain

/-- Follow the links from `h` until the next element is `i`; `none` when `fuel` steps
do not reach it. -/
def findLink [DecidableEq ν] (next : ν → ν) (i : ν) : ℕ → ν → Option ν
  | 0, _ => none
  | fuel + 1, h => if next h = i then some h else findLink next i fuel (next h)

/-- **The search ends at the predecessor** of an element that is on the chain. -/
theorem LinkedChain.findLink_eq [DecidableEq ν] {next : ν → ν} {stop h i : ν} {l : List ν}
    (hc : LinkedChain next stop h l) (hi : i ∈ l) {fuel : ℕ} (hf : l.length ≤ fuel) :
    findLink next i fuel h = some (LinkedChain.predOf h l i) := by
  induction l generalizing h fuel with
  | nil => simp at hi
  | cons j l ih =>
    obtain ⟨n, rfl⟩ : ∃ n, fuel = n + 1 := ⟨fuel - 1, by simp at hf; omega⟩
    rw [findLink, LinkedChain.predOf, hc.1]
    split
    · rfl
    · next hji =>
      refine ih hc.2 ?_ (by simpa using hf)
      rcases List.mem_cons.mp hi with h | h
      · exact absurd h.symm hji
      · exact h

end Osfmk

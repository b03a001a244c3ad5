import Osfmk.Vm.Collapse

/-!
# Extending an object

When nothing is mapped behind the last page of an entry, `vm_map_enter` makes the entry longer instead of
entering another one, and `vm_object_coalesce` makes its object longer (`vm_object.c`).  Nobody else may
see the object, and the pages that earlier deletions have left behind the end of the entry are removed
first.  Offsets are in pages here.

## Main results

* `coalesce_zeroFill_iff` — when the new pages are zero fill.
-/

open List Option

namespace Osfmk

variable {D : Type}

/-- The first loop of `vm_object_page_remove`: a lookup for each offset. -/
def removeLookups (stop : ℕ) : ℕ → ℕ → List (VmPage D) → List (VmPage D)
  | 0, _, memq => memq
  | fuel + 1, start, memq =>
    if start < stop then
      removeLookups stop fuel (start + 1) (memq.filter fun p => decide (p.offset ≠ start))
    else memq

/-- `vm_object_page_remove`; the second loop goes through all pages. -/
def vmObjectPageRemove (object : VmObject D) (start stop : ℕ) : VmObject D :=
  if (stop + offsetPages - start) % offsetPages < object.memq.length / 16 then
    { object with memq := removeLookups stop (stop - start) start object.memq }
  else
    { object with memq := object.memq.filter fun p => !decide (start ≤ p.offset ∧ p.offset < stop) }

/-- `vm_object_coalesce`: the objects, and whether the two regions have been combined. -/
def vmObjectCoalesce (env : CollapseEnv) (fuel : ℕ) (w : VmWorld D)
    (prevObject nextObject : Option ℕ) (prevOffset prevSize nextSize : ℕ) :
    Option (VmWorld D × Bool) :=
  if nextObject.isSome then some (w, false)
  else match prevObject with
    | none => some (w, true)
    | some x =>
      (vmObjectCollapse env fuel w x).map fun w =>
        let object := w.objects x
        if object.refCount > 1 ∨ object.pagerCreated ∨ object.shadow.isSome ∨ object.copy.isSome ∨
            object.pagingInProgress ≠ 0 then (w, false)
        else
          let newsize := (prevOffset + prevSize + nextSize) % offsetPages
          let object := vmObjectPageRemove object ((prevOffset + prevSize) % offsetPages) newsize
          (w.modify x fun _ =>
            { object with size := if newsize > object.size then newsize else object.size }, true)

variable {object : VmObject D} {w w' : VmWorld D} {x : ℕ} {tail : List ℕ}

theorem removeLookups_eq (stop : ℕ) : ∀ fuel start (memq : List (VmPage D)), stop ≤ start + fuel →
    removeLookups stop fuel start memq =
      memq.filter fun p => !decide (start ≤ p.offset ∧ p.offset < stop) := by
  intro fuel
  induction fuel with
  | zero =>
    intro start memq h
    rw [removeLookups, filter_eq_self.mpr fun p _ => ?_]
    simp only [Bool.not_eq_true', decide_eq_false_iff_not]
    omega
  | succ fuel ih =>
    intro start memq h
    rw [removeLookups]
    split
    · rw [ih _ _ (by omega), List.filter_filter]
      refine List.filter_congr fun p _ => ?_
      rw [Bool.eq_iff_iff, Bool.and_eq_true, Bool.not_eq_true', Bool.not_eq_true', decide_eq_true_eq,
        decide_eq_false_iff_not, decide_eq_false_iff_not]
      omega
    · rw [filter_eq_self.mpr fun p _ => ?_]
      simp only [Bool.not_eq_true', decide_eq_false_iff_not]
      omega

/-- **Both loops remove the same pages.** -/
theorem vmObjectPageRemove_eq (object : VmObject D) (start stop : ℕ) :
    vmObjectPageRemove object start stop = { object with
      memq := object.memq.filter fun p => !decide (start ≤ p.offset ∧ p.offset < stop) } := by
  unfold vmObjectPageRemove
  split
  · rw [removeLookups_eq _ _ _ _ (by omega)]
  · rfl

theorem pageData_filter_eq (memq : List (VmPage D)) (start stop f : ℕ) :
    pageData (memq.filter fun p => !decide (start ≤ p.offset ∧ p.offset < stop)) f =
      if start ≤ f ∧ f < stop then none else pageData memq f := by
  induction memq with
  | nil => simp [pageData]
  | cons p memq ih =>
    rw [filter_cons]
    by_cases hp : start ≤ p.offset ∧ p.offset < stop
    · rw [if_neg (by simp [hp]), ih, pageData_cons]
      split
      · rfl
      · next hf => rw [if_neg fun he : p.offset = f => hf (he ▸ hp)]
    · rw [if_pos (by rw [decide_eq_false hp]; rfl), pageData_cons, pageData_cons, ih]
      split
      · next he => rw [if_neg (he ▸ hp)]
      · rfl

theorem contents_alone (hpres : (w.objects x).Present) (hp : (w.objects x).pager = none) (f : ℕ) :
    w.contents [x] f = pageData (w.objects x).memq f := by
  rw [VmWorld.contents, Layers.contents, Layers.contents, or_none, VmWorld.own,
    hpres.resident_eq, VmWorld.pagedOut, hp, bind_none, or_none]

theorem ChainOk.alone (h : ChainOk w x tail) (hp : (w.objects x).pagerCreated = false)
    (hs : (w.objects x).shadow = none) : tail = [] ∧ (w.objects x).pager = none := by
  constructor
  · cases tail with
    | nil => rfl
    | cons y tail =>
      obtain ⟨-, hc⟩ := h.chain
      rw [VmWorld.shadowOf, hs] at hc
      cases hc
  · cases hpager : (w.objects x).pager with
    | none => rfl
    | some pager =>
      have := (h.ok x mem_cons_self).pager (by rw [hpager]; rfl)
      rw [hp] at this
      cases this

/-- The pages of the entry and the new ones, seen through the object: the old ones are the same as
before, and the new ones are zero fill. -/
def ZeroFill (w w' : VmWorld D) (x : ℕ) (tail : List ℕ) (prevOffset prevSize nextSize : ℕ) : Prop :=
  (∀ i, i < prevSize → w'.contents [x] ((prevOffset + i) % offsetPages) =
    w.contents (x :: tail) ((prevOffset + i) % offsetPages)) ∧
  ∀ i, prevSize ≤ i → i < prevSize + nextSize →
    w'.contents [x] ((prevOffset + i) % offsetPages) = none

/-- What is left of an object when its shadows are gone: what it contains, and behind its end only its own
pages in memory. -/
def VmWorld.kept (w : VmWorld D) (x : ℕ) (tail : List ℕ) (f : ℕ) : Option D :=
  if f < (w.objects x).size then w.contents (x :: tail) f else pageData (w.objects x).memq f

theorem ContentsKept.kept (h : ContentsKept w w' x tail []) (hp : (w'.objects x).pager = none) (f : ℕ) :
    pageData (w'.objects x).memq f = w.kept x tail f := by
  unfold VmWorld.kept
  split
  · next hf => rw [← contents_alone (h.chain.ok x mem_cons_self).present hp, h.contents f hf]
  · next hf => exact h.beyond f (not_lt.mp hf)

/-- **When the new pages are zero fill and the old ones are as they were**: exactly when no old page behind
the end of the object is that of a shadow, and the new range does not pass the largest offset or nothing is
left in it. -/
theorem coalesce_zeroFill_iff {env : CollapseEnv} {fuel prevOffset prevSize nextSize : ℕ}
    (h : ChainOk w x tail) (hn : tail.length + 2 < fuel) (hoff : prevOffset < offsetPages)
    (hsize : prevSize + nextSize ≤ offsetPages)
    (hrun : vmObjectCoalesce env fuel w (some x) none prevOffset prevSize nextSize =
      some (w', true)) :
    ZeroFill w w' x tail prevOffset prevSize nextSize ↔
      (∀ i, i < prevSize → w.kept x tail ((prevOffset + i) % offsetPages) =
        w.contents (x :: tail) ((prevOffset + i) % offsetPages)) ∧
      (¬ (prevOffset + prevSize < offsetPages ∧ offsetPages ≤ prevOffset + prevSize + nextSize) ∨
        ∀ i, prevSize ≤ i → i < prevSize + nextSize →
          w.kept x tail ((prevOffset + i) % offsetPages) = none) := by
  obtain ⟨w1, tail', hcol, hkept⟩ : ∃ w1 tail', vmObjectCollapse env fuel w x = some w1 ∧
      ContentsKept w w1 x tail tail' := by
    unfold vmObjectCollapse
    split
    · exact ⟨w, tail, rfl, .refl h⟩
    · exact collapseLoop_kept env fuel h hn
  rw [vmObjectCoalesce, if_neg (by simp)] at hrun
  dsimp only at hrun
  rw [hcol, map_some] at hrun
  split at hrun
  · cases hrun
  next halone =>
  simp only [not_or, not_lt, Bool.not_eq_true, isSome_eq_false_iff, isNone_iff_eq_none]
    at halone
  obtain ⟨-, hpager, hshadow, -, -⟩ := halone
  obtain ⟨rfl, hpg⟩ := hkept.chain.alone hpager hshadow
  have hpres := (hkept.chain.ok x mem_cons_self).present
  rw [vmObjectPageRemove_eq] at hrun
  obtain ⟨hw', -⟩ := Prod.mk.inj (some.inj hrun)
  have hobject := congrArg (fun w => w.objects x) hw'
  rw [modify_objects_self] at hobject
  -- what is seen afterwards: what was there, but for the pages that have been removed
  have hnew : ∀ f, w'.contents [x] f =
      if (prevOffset + prevSize) % offsetPages ≤ f ∧
        f < (prevOffset + prevSize + nextSize) % offsetPages then none else w.kept x tail f := by
    intro f
    rw [contents_alone (hobject ▸ fun p hp => hpres p (mem_filter.mp hp).1) (hobject ▸ hpg),
      ← hobject, ← hkept.kept hpg]
    exact pageData_filter_eq _ _ _ f
  have hmod : ∀ a, a < 2 * offsetPages → a < offsetPages ∧ a % offsetPages = a ∨
      offsetPages ≤ a ∧ a % offsetPages = a - offsetPages := by
    intro a ha
    rcases lt_or_ge a offsetPages with hlt | hge
    · exact .inl ⟨hlt, Nat.mod_eq_of_lt hlt⟩
    · rw [Nat.mod_eq_sub_mod hge, Nat.mod_eq_of_lt (by omega)]
      exact .inr ⟨hge, rfl⟩
  have hstart := hmod (prevOffset + prevSize) (by omega)
  have hstop := hmod (prevOffset + prevSize + nextSize) (by omega)
  have hold : ∀ i, i < prevSize → w'.contents [x] ((prevOffset + i) % offsetPages) =
      w.kept x tail ((prevOffset + i) % offsetPages) := fun i hi => by
    have := hmod (prevOffset + i) (by omega)
    rw [hnew, if_neg (by omega)]
  refine and_congr (forall₂_congr fun i hi => by rw [hold i hi]) ⟨fun hzero => ?_, fun hcase i h1 h2 => ?_⟩
  · by_contra hcon
    rw [not_or, not_not] at hcon
    refine hcon.2 fun i h1 h2 => ?_
    have hf := hzero i h1 h2
    -- the range that is removed is empty
    rwa [hnew, if_neg (by omega)] at hf
  · have hi := hmod (prevOffset + i) (by omega)
    rw [hnew]
    rcases hcase with hcase | hcase
    · rw [if_pos (by omega)]
    · split
      · rfl
      · exact hcase i h1 h2

/-- One object, without a shadow, with some pages of data. -/
def oneObject (memq : List (VmPage ℕ)) : VmWorld ℕ := ⟨fun _ => plainObject 4 none memq, fun _ _ => none⟩

theorem oneObject_ok : ChainOk (oneObject [⟨0, false, 7⟩, ⟨2, false, 9⟩]) 0 [] := by
  refine ⟨⟨rfl, trivial⟩, fun y _ => ⟨?_, fun h => ?_, fun bits h => ?_⟩, nofun, nofun⟩
  · show ∀ p ∈ ([⟨0, false, 7⟩, ⟨2, false, 9⟩] : List (VmPage ℕ)), p.absent = false
    decide
  · cases h
  · cases h

theorem coalesce_zeroFill_left : ∃ w', vmObjectCoalesce freeEnv 3
    (oneObject [⟨0, false, 7⟩, ⟨2, false, 9⟩]) (some 0) none 0 1 3 = some (w', true) ∧
      w'.contents [0] 0 = some 7 ∧ w'.contents [0] 2 = none := by
  have hrun : vmObjectCoalesce freeEnv 3 (oneObject [⟨0, false, 7⟩, ⟨2, false, 9⟩]) (some 0)
      none 0 1 3 = some (_, true) := rfl
  obtain ⟨hold, hnew⟩ := (coalesce_zeroFill_iff oneObject_ok (by decide) (by decide) (by decide)
    hrun).mpr ⟨by decide, .inl (by decide)⟩
  exact ⟨_, hrun, (hold 0 (by decide)).trans rfl, hnew 2 (by decide) (by decide)⟩

/-- With pages of 4096 bytes, the entry is extended to the largest offset: the page that was
left behind it is seen. -/
theorem coalesce_shows_page : ∃ w', vmObjectCoalesce freeEnv 3
    (oneObject [⟨1048575, false, 9⟩]) (some 0) none 1048574 1 1 = some (w', true) ∧
      w'.contents [0] 1048575 = some 9 :=
  ⟨_, rfl, rfl⟩

end Osfmk

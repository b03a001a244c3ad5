import Osfmk.Lib.Layers
import Mathlib.Logic.Function.Basic

/-!
# Memory objects and what they contain

`vm/vm_object.h`: a memory object has pages in memory, and pages its pager keeps; what it does
not have is in the object it shadows, at an offset that is larger by `shadow_offset`.  Offsets
and sizes are in pages.
-/

open Function (update)

namespace Osfmk

/-- The number of pages that an offset of 32 bits can count, with pages of 4096 bytes. -/
def offsetPages : ℕ := 2 ^ 20

/-- `vm_page_t`: a page of an object. -/
structure VmPage (D : Type) where
  offset : ℕ
  absent : Bool
  data : D
  deriving DecidableEq

/-- `vm_object_t`. -/
structure VmObject (D : Type) where
  size : ℕ
  memq : List (VmPage D)
  refCount : ℕ
  shadow : Option ℕ
  shadowOffset : ℕ
  copy : Option ℕ
  pagerCreated : Bool
  pager : Option ℕ
  pagingOffset : ℕ
  existenceMap : Option (ℕ → Bool)
  internal : Bool
  pagingInProgress : ℕ
  absentCount : ℕ
  alive : Bool

/-- All objects, and the pages that pagers keep. -/
structure VmWorld (D : Type) where
  objects : ℕ → VmObject D
  pagers : ℕ → ℕ → Option D

variable {D : Type}

def vmPageLookup (object : VmObject D) (offset : ℕ) : Option (VmPage D) :=
  object.memq.find? fun p => decide (p.offset = offset)

/-- `vm_external_state_t`. -/
inductive VmExternalState
  | exists
  | unknown
  | absent
  deriving DecidableEq

def vmExternalStateGet (map : Option (ℕ → Bool)) (offset : ℕ) : VmExternalState :=
  match map with
  | none => .unknown
  | some bits => if bits offset then .exists else .absent

/-- The data of a page in memory. -/
def VmObject.resident (object : VmObject D) (offset : ℕ) : Option D :=
  (vmPageLookup object offset).bind fun p => if p.absent then none else some p.data

/-- A page that the pager of an object keeps for it. -/
def VmWorld.pagedOut (w : VmWorld D) (object : VmObject D) (offset : ℕ) : Option D :=
  object.pager.bind fun pager => w.pagers pager (offset + object.pagingOffset)

/-- What an object has itself. -/
def VmWorld.own (w : VmWorld D) (x offset : ℕ) : Option D :=
  ((w.objects x).resident offset).or (w.pagedOut (w.objects x) offset)

/-- The object an object shadows. -/
def VmWorld.shadowOf (w : VmWorld D) (x : ℕ) : Option ℕ := (w.objects x).shadow

/-- `shadow_offset`. -/
def VmWorld.shadowOffsetOf (w : VmWorld D) (x : ℕ) : ℕ := (w.objects x).shadowOffset

/-- **What the first of a chain of objects contains** at an offset: the page in memory, else
the one paged out, else what its shadow contains; nothing is zero fill. -/
def VmWorld.contents (w : VmWorld D) (chain : List ℕ) (offset : ℕ) : Option D :=
  Layers.contents w.own w.shadowOffsetOf chain offset

/-- The shadows of an object, from the object on. -/
def VmWorld.Chain (w : VmWorld D) (x : Option ℕ) (chain : List ℕ) : Prop :=
  Layers.Chain w.shadowOf x chain

/-- Changes an object. -/
def VmWorld.modify (w : VmWorld D) (x : ℕ) (f : VmObject D → VmObject D) : VmWorld D :=
  { w with objects := update w.objects x (f (w.objects x)) }

/-- Changes a page that a pager keeps. -/
def VmWorld.setPaged (w : VmWorld D) (pager n : ℕ) (d : Option D) : VmWorld D :=
  { w with pagers := update w.pagers pager (update (w.pagers pager) n d) }

@[simp] theorem modify_objects_self (w : VmWorld D) (x : ℕ) (f : VmObject D → VmObject D) :
    (w.modify x f).objects x = f (w.objects x) := Function.update_self ..

theorem modify_objects_ne (w : VmWorld D) {x y : ℕ} (h : y ≠ x) (f : VmObject D → VmObject D) :
    (w.modify x f).objects y = w.objects y := Function.update_of_ne h ..

theorem modify_field {β : Type} (k : VmObject D → β) {g : VmObject D → VmObject D}
    (hg : ∀ o, k (g o) = k o) (w : VmWorld D) (x y : ℕ) :
    k ((w.modify x g).objects y) = k (w.objects y) := by
  by_cases hy : y = x
  · rw [hy, modify_objects_self, hg]
  · rw [modify_objects_ne w hy]

variable {w : VmWorld D} {object : VmObject D}

/-- No page is absent. -/
def VmObject.Present (object : VmObject D) : Prop := ∀ p ∈ object.memq, p.absent = false

theorem VmObject.Present.resident (h : object.Present) (f : ℕ) :
    object.resident f = (vmPageLookup object f).map (·.data) := by
  unfold VmObject.resident
  cases hp : vmPageLookup object f with
  | none => rfl
  | some p =>
    have := h p (List.mem_of_find?_eq_some hp)
    simp [this]

/-- The data of the page of a list at an offset. -/
def pageData (l : List (VmPage D)) (f : ℕ) : Option D :=
  (l.find? fun p => decide (p.offset = f)).map (·.data)

theorem VmObject.Present.resident_eq (h : object.Present) (f : ℕ) :
    object.resident f = pageData object.memq f := h.resident f

theorem pageData_cons (p : VmPage D) (l : List (VmPage D)) (f : ℕ) :
    pageData (p :: l) f = if p.offset = f then some p.data else pageData l f := by
  unfold pageData
  rw [List.find?_cons]
  by_cases h : p.offset = f <;> simp [h]

theorem pageData_append (l l' : List (VmPage D)) (f : ℕ) :
    pageData (l ++ l') f = (pageData l f).or (pageData l' f) := by
  unfold pageData
  rw [List.find?_append]
  cases List.find? _ l <;> rfl

theorem pageData_isSome (object : VmObject D) (f : ℕ) :
    (pageData object.memq f).isSome = (vmPageLookup object f).isSome := by
  unfold pageData
  rw [Option.isSome_map]
  rfl

theorem modify_own_ne {x y : ℕ} (h : y ≠ x) (g : VmObject D → VmObject D) :
    (w.modify x g).own y = w.own y := by
  funext f
  unfold VmWorld.own
  rw [modify_objects_ne w h]
  rfl

end Osfmk

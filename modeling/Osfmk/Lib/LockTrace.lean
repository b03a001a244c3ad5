import Mathlib

/-!
# The operations of a thread on a lock

A thread takes a lock that it does not hold and releases one that it holds.  A list of its operations
is followed from whether it holds the lock at first, and is refused at the first operation that is not
one of these.
-/

namespace Osfmk.LockTrace

inductive Op
  | lock
  | unlock
  deriving DecidableEq

/-- Whether the lock is held after the operations; `none` when one of them is out of place. -/
def held : Bool → List Op → Option Bool
  | b, [] => some b
  | false, .lock :: ops => held true ops
  | true, .unlock :: ops => held false ops
  | _, _ => none

variable {b : Bool} {ops ops' : List Op}

@[simp] theorem held_nil (b : Bool) : held b [] = some b := by cases b <;> rfl

@[simp] theorem held_lock (ops : List Op) : held false (.lock :: ops) = held true ops := rfl

@[simp] theorem held_unlock (ops : List Op) : held true (.unlock :: ops) = held false ops := rfl

theorem held_append (b : Bool) (ops ops' : List Op) :
    held b (ops ++ ops') = (held b ops).bind (held · ops') := by
  induction ops generalizing b with
  | nil => simp
  | cons op ops ih =>
    cases b <;> cases op
    · exact ih true
    · rfl
    · rfl
    · exact ih false

theorem count_lock {b' : Bool} (h : held b ops = some b') :
    ops.count .unlock + b'.toNat = ops.count .lock + b.toNat := by
  induction ops generalizing b with
  | nil =>
    rw [held_nil] at h
    cases h
    rfl
  | cons op ops ih =>
    cases b <;> cases op
    · have := ih (b := true) h
      simp at this ⊢
      omega
    · cases h
    · cases h
    · have := ih (b := false) h
      simp at this ⊢
      omega

end Osfmk.LockTrace

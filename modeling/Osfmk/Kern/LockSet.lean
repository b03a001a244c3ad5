import Mathlib

/-!
# The storage of a lock set

`lock_set_create` allocates a lock set and its ulocks in one piece (`kern/sync_lock.c`).  The size is a
32-bit product of the number of ulocks, which is the caller's choice; if it wraps, the ulocks are
initialized beyond the end of the piece.
-/

namespace Osfmk

/-- `sizeof (struct ulock)`, and the offset of `ulock_list`, of which `struct lock_set` has one. -/
structure LockLayout where
  header : ℕ
  ulock : ℕ

/-- `size` of `lock_set_create` and `lock_set_dereference`, as `kalloc` and `kfree` take it. -/
def LockLayout.size (l : LockLayout) (nUlocks : ℤ) : ℕ :=
  ((l.header + l.ulock + l.ulock * (nUlocks - 1)) % 2 ^ 32).toNat

/-- The offset of `ulock_list[x]`. -/
def LockLayout.offset (l : LockLayout) (x : ℕ) : ℕ := l.header + l.ulock * x

structure LockSet where
  nUlocks : ℤ
  refCount : ℤ
  /-- What `kalloc` was asked for. -/
  allocated : ℕ
  /-- The offsets of the ulocks that have been initialized. -/
  initialized : List ℕ

namespace LockSet

/-- `lock_set_dereference`, and what is freed. -/
def dereference (l : LockLayout) (s : LockSet) : LockSet × Option ℕ :=
  ({ s with refCount := s.refCount - 1 },
    if s.refCount - 1 = 0 then some (l.size s.nUlocks) else none)

inductive CreateReturn
  | success (s : LockSet)
  | invalidArgument
  /-- With what was allocated and freed. -/
  | resourceShortage (s : Option (LockSet × Option ℕ))

/-- `lock_set_create`; `kalloc` and `port` are whether the allocations succeed. -/
def create (l : LockLayout) (task : Bool) (nUlocks policy : ℤ) (kalloc port : Bool) : CreateReturn :=
  -- `SYNC_POLICY_MAX` is 1
  if task = false ∨ nUlocks ≤ 0 ∨ 1 < policy then .invalidArgument
  else if kalloc = false then .resourceShortage none
  else
    let s : LockSet := ⟨nUlocks, 1, l.size nUlocks, []⟩
    if port = false then .resourceShortage (some (s.dereference l))
    else .success { s with initialized := (List.range nUlocks.toNat).map l.offset }

/-- The test on `lock_id` in all operations, and the offset of the ulock. -/
def lookup (l : LockLayout) (s : LockSet) (lockId : ℤ) : Option ℕ :=
  if lockId < 0 ∨ s.nUlocks ≤ lockId then none else some (l.offset lockId.toNat)

variable {l : LockLayout} {s : LockSet} {task : Bool} {nUlocks policy : ℤ} {kalloc port : Bool}

/-- All ulocks lie in the piece, and so do those that are used. -/
structure Covered (l : LockLayout) (s : LockSet) : Prop where
  all : l.header + l.ulock * s.nUlocks ≤ s.allocated
  initialized : ∀ o ∈ s.initialized, o + l.ulock ≤ s.allocated
  lookup : ∀ lockId, ∀ o ∈ s.lookup l lockId, o + l.ulock ≤ s.allocated

theorem create_success (h : create l task nUlocks policy kalloc port = .success s) :
    0 < nUlocks ∧ s = ⟨nUlocks, 1, l.size nUlocks, (List.range nUlocks.toNat).map l.offset⟩ := by
  rw [create] at h
  split_ifs at h
  cases h
  exact ⟨by omega, rfl⟩

/-- The size is exact if it fits, and too small otherwise. -/
theorem le_size_iff (h : 0 < nUlocks) : (l.header + l.ulock * nUlocks : ℤ) ≤ l.size nUlocks ↔
    (l.header + l.ulock * nUlocks : ℤ) < 2 ^ 32 := by
  have hpos : 0 ≤ (l.header + l.ulock * nUlocks : ℤ) := by positivity
  rw [LockLayout.size, show (l.header + l.ulock + l.ulock * (nUlocks - 1) : ℤ) =
    l.header + l.ulock * nUlocks by ring]
  omega

section

variable (h : (l.header + l.ulock * s.nUlocks : ℤ) ≤ s.allocated)
include h

theorem offset_le {x : ℕ} (hx : x < s.nUlocks) : l.offset x + l.ulock ≤ s.allocated := by
  have hmul : (l.ulock : ℤ) * (x + 1) ≤ l.ulock * s.nUlocks :=
    mul_le_mul_of_nonneg_left hx (Int.natCast_nonneg _)
  zify [LockLayout.offset]
  linarith

theorem Covered.of_le
    (hi : s.initialized = (List.range s.nUlocks.toNat).map l.offset) : Covered l s := by
  refine ⟨h, fun o ho => ?_, fun lockId o ho => ?_⟩
  · rw [hi] at ho
    obtain ⟨x, hx, rfl⟩ := List.mem_map.mp ho
    exact offset_le h (Int.lt_toNat.mp (List.mem_range.mp hx))
  · rw [LockSet.lookup] at ho
    split_ifs at ho with hid
    · cases ho
    · cases ho
      exact offset_le h (by omega)

end

/-- **A lock set has room for its ulocks** exactly if the size fits in 32 bits.  What is freed is what was
allocated, also when `lock_set_create` fails. -/
theorem storage_iff (l : LockLayout) (task : Bool) (nUlocks policy : ℤ) (kalloc port : Bool) :
    (∀ s, create l task nUlocks policy kalloc port = .success s →
      (Covered l s ↔ (l.header + l.ulock * nUlocks : ℤ) < 2 ^ 32) ∧
      ∀ refCount, ∀ size ∈ (dereference l { s with refCount }).2, size = s.allocated) ∧
    ∀ s freed, create l task nUlocks policy kalloc port = .resourceShortage (some (s, freed)) →
      freed = some s.allocated := by
  refine ⟨fun s h => ?_, fun s freed h => ?_⟩
  · obtain ⟨hpos, rfl⟩ := create_success h
    refine ⟨⟨fun h => (le_size_iff hpos).mp h.all, fun h => ?_⟩, fun refCount size hs => ?_⟩
    · exact .of_le ((le_size_iff hpos).mpr h) rfl
    · unfold dereference at hs
      dsimp only at hs
      split_ifs at hs with hlast
      · exact (Option.some.inj hs).symm
      · cases hs
  · unfold create at h
    dsimp only at h
    split_ifs at h
    · cases h
    · cases h
      rfl

/-- The i386, without debugging. -/
def i386 : LockLayout := ⟨52, 60⟩

theorem storage_iff_three : ∃ s, create i386 true 3 0 true true = .success s ∧ Covered i386 s :=
  ⟨_, rfl, ((storage_iff i386 true 3 0 true true).1 _ rfl).1.mpr (by decide)⟩

/-- 36 bytes for 71582788 ulocks, less than the header needs. -/
theorem size_wraps : ∃ s, create i386 true 71582788 0 true true = .success s ∧ s.allocated = 36 ∧
    ¬ Covered i386 s :=
  ⟨_, rfl, rfl, fun h => absurd ((le_size_iff (l := i386) (by decide)).mp h.all) (by decide)⟩

end LockSet

end Osfmk

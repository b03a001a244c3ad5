import Osfmk.Ipc.Space
import Osfmk.Lib.Trace

/-!
# The lock of a space that grows

`ipc_entry_grow_table` gives the lock of the space up and takes it again in every round of its loop, and
returns from eight places.  A round is one step here; what other threads do to the space while it is
unlocked (they may grow it, or let it die) and whether the allocation succeeds are arbitrary.
-/

namespace Osfmk

/-- `target_size`: `ITS_SIZE_NONE` is `-1`, and any other integer is compared as unsigned. -/
def itsTarget (target : ℤ) : Option ℕ := if target = -1 then none else some (target % 2 ^ 32).toNat

/-- A call of `ipc_entry_grow_table`: the space with `is_growing`, whether the caller has it locked, and
the code that has been returned. -/
structure GrowCall where
  space : IpcSpace
  isGrowing : Bool
  locked : Bool
  returned : Option KernReturn

/-- What happens in a round: the outcome of the allocation, and what others do to the space and to
`is_growing` while it is unlocked, the first and the second time. -/
structure GrowRound where
  memory : Bool
  first : IpcSpace × Bool → IpcSpace × Bool
  second : IpcSpace × Bool → IpcSpace × Bool

namespace GrowCall

/-- `is_write_unlock`, what others do, `is_write_lock`. -/
def window (c : GrowCall) (others : IpcSpace × Bool → IpcSpace × Bool) : GrowCall :=
  let r := others (c.space, c.isGrowing)
  { c with space := r.1, isGrowing := r.2, locked := true }

/-- `is_write_unlock` and return. -/
def failure (c : GrowCall) (kr : KernReturn) : GrowCall :=
  { c with locked := false, returned := some kr }

/-- Return with the lock as it is. -/
def success (c : GrowCall) : GrowCall := { c with returned := some .success }

/-- A round of the loop of `ipc_entry_grow_table`. -/
def round (T : TableSizes) (target : Option ℕ) (c : GrowCall) (r : GrowRound) : GrowCall :=
  if c.isGrowing then (c.window r.first).success
  else
    match growTarget T c.space target with
    | .error kr => c.failure kr
    | .ok its =>
      let c := { ({ c with isGrowing := true }.window r.first) with isGrowing := false }
      if r.memory = false then c.failure .resourceShortage
      else if c.space.isActive = false then (c.window r.second).success
      else
        let c := { c with space := growTo T c.space its }.window r.second
        if c.space.isActive = false ∨ c.space.isTableNext ≠ its + 1 then c.success
        else if 0 < c.space.isTreeSmall ∧
            (T.itsSize (its + 1) - T.itsSize its) * sizeofIpcEntry <
              c.space.isTreeSmall * sizeofIpcTreeEntry then c
        else c.success

/-- The routine goes on until it has returned. -/
def step (T : TableSizes) (target : Option ℕ) (c : GrowCall) (r : GrowRound) : Option GrowCall :=
  if c.returned = none then some (c.round T target r) else none

/-- The space is locked when the routine is called. -/
def call (space : IpcSpace) (isGrowing : Bool) : GrowCall := ⟨space, isGrowing, true, none⟩

/-- A round finds that the table has the target size already. -/
def TargetMet (T : TableSizes) (target : Option ℕ) (c : GrowCall) : Prop :=
  c.isGrowing = false ∧ ∃ t, target = some t ∧ t ≤ T.itsSize (c.space.isTableNext - 1)

/-- What the callers rely on: the space is locked while the routine runs and when it has succeeded, and
unlocked when it has failed. -/
def Locked (c : GrowCall) : Prop :=
  match c.returned with
  | none => c.locked = true
  | some kr => c.locked = true ↔ kr = .success

variable {T : TableSizes} {target : Option ℕ} {c : GrowCall}

theorem locked_success (h : c.locked = true) : c.success.Locked := by simp [Locked, success, h]

theorem locked_failure {kr : KernReturn} (h : kr ≠ .success) : (c.failure kr).Locked := by
  simp [Locked, failure, h]

theorem growTarget_ne_success {s : IpcSpace} {kr : KernReturn}
    (h : growTarget T s target = .error kr)
    (ht : ∀ t, target = some t → ¬ t ≤ T.itsSize (s.isTableNext - 1)) : kr ≠ .success := by
  unfold growTarget at h
  cases target with
  | none =>
    dsimp only at h
    split at h
    · cases h
      exact KernReturn.noConfusion
    · cases h
  | some t =>
    dsimp only at h
    rw [if_neg (ht t rfl)] at h
    split at h
    · cases h
      exact KernReturn.noConfusion
    · split at h
      · cases h
        exact KernReturn.noConfusion
      · cases h

theorem locked_round (hr : c.returned = none) (ht : ¬ c.TargetMet T target) (r : GrowRound) :
    (c.round T target r).Locked := by
  unfold round
  by_cases hg : c.isGrowing = true
  · rw [if_pos hg]
    exact locked_success rfl
  rw [if_neg hg]
  cases htarget : growTarget T c.space target with
  | error kr =>
    refine locked_failure (growTarget_ne_success htarget fun t heq hle => ?_)
    exact ht ⟨by simpa using hg, t, heq, hle⟩
  | ok its =>
    dsimp only
    split
    · exact locked_failure KernReturn.noConfusion
    · split
      · exact locked_success rfl
      · split
        · exact locked_success rfl
        · split
          · simp [Locked, window, hr]
          · exact locked_success rfl

theorem round_targetMet (h : c.TargetMet T target) (r : GrowRound) :
    c.round T target r = c.failure .success := by
  obtain ⟨hg, t, rfl, ht⟩ := h
  unfold round
  rw [hg, if_neg Bool.false_ne_true, growTarget]
  dsimp only
  rw [if_pos ht]

/-- **The lock on return**: whatever others do while the space is unlocked, the space is locked exactly
when `KERN_SUCCESS` has been returned, if and only if no round finds the target met. -/
theorem lock_of_run (T : TableSizes) (target : ℤ) (space : IpcSpace) (isGrowing : Bool)
    (rounds : List GrowRound) (c : GrowCall) (kr : KernReturn)
    (hrun : Trace.run (step T (itsTarget target)) (call space isGrowing) rounds = some c)
    (hkr : c.returned = some kr) : (c.locked = true ↔ kr = .success) ↔
      Trace.Meets (step T (itsTarget target)) (fun c _ => ¬ c.TargetMet T (itsTarget target))
        (call space isGrowing) rounds := by
  have hstep : ∀ (c : GrowCall) (r : GrowRound) (c' : GrowCall), c.Locked →
      ¬ c.TargetMet T (itsTarget target) → step T (itsTarget target) c r = some c' → c'.Locked := by
    intro c r c' _ ht hs
    obtain ⟨hnone, rfl⟩ := Trace.of_guard hs
    exact locked_round hnone ht r
  have hcall : (call space isGrowing).Locked := rfl
  constructor
  · intro h
    refine Trace.meets_of_end (Q := fun c => c.returned = some .success ∧ c.locked = false)
      (fun c r c' hs ht => ?_) (fun c r hq => if_neg (by simp [hq.1])) rounds _ c hrun fun hq => ?_
    · obtain ⟨-, rfl⟩ := Trace.of_guard hs
      rw [round_targetMet (not_not.mp ht)]
      exact ⟨rfl, rfl⟩
    · have hlocked := h.mpr (Option.some.inj (hkr.symm.trans hq.1))
      rw [hq.2] at hlocked
      cases hlocked
  · intro hrounds
    have hlocked := Trace.invariant hstep rounds _ c hcall hrounds hrun
    rwa [Locked, hkr] at hlocked

/-- The table of a new space grows. -/
theorem lock_of_run_grown : ∃ c, Trace.run (step ipcTableEntries (itsTarget 16))
        (call (ipcSpaceCreate ipcTableEntries 0) false) [⟨true, id, id⟩] = some c ∧
      (c.locked = true ↔ KernReturn.success = .success) := by
  refine ⟨_, rfl, (lock_of_run ipcTableEntries 16 (ipcSpaceCreate ipcTableEntries 0) false
    [⟨true, id, id⟩] _ .success rfl rfl).mpr ⟨?_, fun _ _ => trivial⟩⟩
  rintro ⟨-, t, ht, hle⟩
  cases ht
  revert hle
  decide +kernel

/-- A new space, and a target that its table has already: `KERN_SUCCESS`, and the space is unlocked. -/
theorem success_unlocked :
    (Trace.run (step ipcTableEntries (itsTarget 1)) (call (ipcSpaceCreate ipcTableEntries 0) false)
      [⟨true, id, id⟩]).map (fun c => (c.returned, c.locked)) = some (some .success, false) := by
  decide +kernel

end GrowCall

end Osfmk

import Osfmk.Lib.Always

/-!
# The references to the memory object of an inode

The inode pager keeps a memory object for an inode that is mapped (`osfmach3/server/inode_pager.c`).
Each `vm_area` of the inode has a reference to it, and so has a kernel that is attached, with another
one for its cache if the object is cacheable.  A `vm_area` that is merged into another one leaves its
reference behind (`osfmach3/mm/mmap.c`), a kernel that goes away the one for its cache, and a change of
the attributes that waits for another one moves the one for the cache each time it begins.

## Main results

* `refcnt_of_run` — the runs in which the references are exact.
-/

namespace Osfmk.InodePager

/-- What a call of `inode_pager_change_attributes` waits for. -/
inductive Wait
  /-- The end of another change; it will begin again. -/
  | retry (cacheable : Bool)
  /-- The kernel's answer. -/
  | answer

/-- An inode, and its `struct i_mem_object`. -/
structure State where
  /-- The `vm_area`s of all processes that map the inode. -/
  areas : ℕ
  /-- `imo_unref` frees the object at 0. -/
  refcnt : ℕ
  /-- `imo_mem_obj_control` is not null: the kernel is attached. -/
  control : Bool
  cacheable : Bool
  attrchange : Bool
  calls : List Wait

/-- `inode_pager_change_attributes`, until it returns or waits; `ok` is what the kernel returns. -/
def changeAttributes (s : State) (cacheable doWait ok : Bool) : State × Option Wait :=
  if cacheable = s.cacheable then (s, none)
  else if s.control = false then ({ s with cacheable }, none)
  else
    let s := { s with refcnt := if cacheable then s.refcnt + 1 else s.refcnt - 1 }
    if doWait = false then ({ s with cacheable }, none)
    else if s.attrchange then (s, some (.retry cacheable))
    else if ok then ({ s with cacheable, attrchange := true }, some .answer)
    else ({ s with cacheable }, none)

/-- `inode_pager_uncache_now` gives up its own reference in the end. -/
def change (s : State) (cacheable doWait ok : Bool) : State :=
  match changeAttributes s cacheable doWait ok with
  | (s, some w) => { s with calls := w :: s.calls }
  | (s, none) => { s with refcnt := s.refcnt - 1 }

inductive Act
  /-- A `vm_area` is inserted, split off, or copied by `fork`: `inode_pager_setup`. -/
  | insert
  /-- `osfmach3_remove_shared_vm_struct`; another `vm_area` may have taken its place. -/
  | remove (merged : Bool)
  | init
  | terminate
  | change (cacheable doWait ok : Bool)
  /-- A call that waits is woken up. -/
  | resume (i : ℕ) (ok : Bool)
  | changeCompleted

def step (s : State) : Act → Option State
  | .insert =>
    some (if s.refcnt = 0 then ⟨s.areas + 1, 1, false, true, false, s.calls⟩
      else { s with areas := s.areas + 1, refcnt := s.refcnt + 1 })
  | .remove merged =>
    if merged then if 2 ≤ s.areas then some { s with areas := s.areas - 1 } else none
    else if 0 < s.areas then some { s with areas := s.areas - 1, refcnt := s.refcnt - 1 } else none
  | .init =>
    if s.refcnt ≠ 0 ∧ s.control = false then
      some { s with control := true, refcnt := s.refcnt + 1 + s.cacheable.toNat } else none
  | .terminate =>
    if s.control then some { s with control := false, attrchange := false, refcnt := s.refcnt - 1 }
    else none
  | .change cacheable doWait ok =>
    some (if s.refcnt = 0 then s
      else InodePager.change { s with refcnt := s.refcnt + 1 } cacheable doWait ok)
  | .resume i ok => (s.calls[i]?).map fun
    | .answer => { s with calls := s.calls.eraseIdx i, refcnt := s.refcnt - 1 }
    | .retry cacheable => InodePager.change { s with calls := s.calls.eraseIdx i } cacheable true ok
  | .changeCompleted => some { s with attrchange := false }

/-- The users of an object: each `vm_area`, the kernel and its cache, and each call in progress. -/
def State.users (s : State) : ℕ :=
  s.areas + (bif s.control then 1 + s.cacheable.toNat else 0) + s.calls.length

/-- **The references are exact**; so the object is freed with its last user. -/
def Counted (s : State) : Prop := s.refcnt = s.users

/-- A change has to wait for another one, and to begin again. -/
def Retries (s : State) (cacheable doWait : Bool) : Prop :=
  s.control = true ∧ cacheable ≠ s.cacheable ∧ doWait = true ∧ s.attrchange = true

/-- **The condition on a step**. -/
def Fine (s : State) : Act → Prop
  | .remove merged => merged = false
  | .terminate => s.cacheable = false
  | .change cacheable doWait _ => s.refcnt = 0 ∨ ¬ Retries s cacheable doWait
  | .resume i _ => ∀ cacheable, s.calls[i]? = some (.retry cacheable) → ¬ Retries s cacheable true
  | _ => True

variable {s s' : State} {a : Act}

theorem counted_iff : Counted s ↔
    s.refcnt = s.areas + (bif s.control then 1 + s.cacheable.toNat else 0) + s.calls.length := Iff.rfl

/-- A call that has a reference of its own goes on. -/
theorem change_iff (h : s.refcnt = s.users + 1) (c w ok : Bool) :
    Counted (change s c w ok) ↔ ¬ Retries s c w := by
  unfold change changeAttributes Retries
  by_cases hc : c = s.cacheable
  · rw [if_pos hc]
    exact iff_of_true (Nat.sub_eq_of_eq_add h) fun hr => hr.2.1 hc
  rw [if_neg hc]
  unfold State.users at h
  cases hctl : s.control with
  | false =>
    rw [hctl, cond_false] at h
    refine iff_of_true (counted_iff.mpr ?_) nofun
    simp only [if_true, cond_false]
    omega
  | true =>
    -- the reference for the cache has moved, and a retry leaves the object as it was
    have hold : s.cacheable = !c := Bool.eq_not_of_ne (Ne.symm hc)
    rw [hctl, hold] at h
    cases w <;> cases hat : s.attrchange <;> cases ok <;> cases c <;>
      simp [counted_iff, hold] at h ⊢ <;> omega

theorem right_iff (h : Counted s) (hs : step s a = some s') : Counted s' ↔ Fine s a := by
  have hcount := counted_iff.mp h
  cases a with
  | insert =>
    cases hs
    refine iff_of_true (counted_iff.mpr ?_) trivial
    split
    · dsimp only [cond_false]
      omega
    · dsimp only
      omega
  | remove merged =>
    cases merged with
    | true =>
      -- the reference of the `vm_area` stays
      obtain ⟨htwo, rfl⟩ := Trace.of_guard hs
      refine iff_of_false (fun hc => ?_) nofun
      have hcount' := counted_iff.mp hc
      dsimp only at hcount'
      omega
    | false =>
      obtain ⟨hone, rfl⟩ := Trace.of_guard hs
      refine iff_of_true (counted_iff.mpr ?_) rfl
      dsimp only
      omega
  | init =>
    obtain ⟨⟨-, hctl⟩, rfl⟩ := Trace.of_guard hs
    refine iff_of_true (counted_iff.mpr ?_) trivial
    rw [hctl, cond_false] at hcount
    dsimp only [cond_true]
    omega
  | terminate =>
    obtain ⟨hctl, rfl⟩ := Trace.of_guard hs
    rw [hctl, cond_true] at hcount
    rw [counted_iff, Fine, ← Bool.toNat_eq_zero]
    dsimp only [cond_false]
    omega
  | change c w ok =>
    cases hs
    unfold Fine
    split
    · next hzero => exact iff_of_true h (.inl hzero)
    · next hzero =>
      refine (change_iff (s := { s with refcnt := s.refcnt + 1 }) (congrArg (· + 1) h) c w ok).trans ?_
      exact ⟨.inr, fun hr => hr.resolve_left hzero⟩
  | resume i ok =>
    obtain ⟨w, hw, rfl⟩ := Option.map_eq_some_iff.mp hs
    have hown : s.refcnt = { s with calls := s.calls.eraseIdx i }.users + 1 := by
      obtain ⟨hi, -⟩ := List.getElem?_eq_some_iff.mp hw
      unfold State.users
      dsimp only
      rw [List.length_eraseIdx_of_lt hi]
      omega
    rw [Fine, hw]
    cases w with
    | answer => exact iff_of_true (Nat.sub_eq_of_eq_add hown) fun _ hc => by cases hc
    | retry c =>
      refine (change_iff (s := { s with calls := s.calls.eraseIdx i }) hown c true ok).trans ?_
      refine ⟨fun hr c' hc => ?_, fun hr => hr c rfl⟩
      cases hc
      exact hr
  | changeCompleted =>
    cases hs
    exact iff_of_true h trivial

/-- An inode that is not mapped. -/
def unmapped : State := ⟨0, 0, false, false, false, []⟩

/-- **The references are exact at every step of a run exactly if** no `vm_area` is merged into another
one, no kernel goes away while the object is cacheable, and no change begins again.  Between calls they
are those of the `vm_area`s, of the kernel and of its cache. -/
theorem refcnt_of_run (acts : List Act) (hrun : Trace.run step unmapped acts = some s) :
    Trace.Always step (fun _ _ s => Counted s) unmapped acts ↔ Trace.Meets step Fine unmapped acts :=
  Trace.always_iff_meets (I := Counted) (fun _ _ _ => right_iff)
    (fun _ _ _ h hf hs => (right_iff h hs).mpr hf) acts unmapped s rfl hrun

/-- The object is mapped and attached, and the kernel goes away after its cache. -/
theorem refcnt_of_run_uncached : Trace.Always step (fun _ _ s => Counted s) unmapped
    [.insert, .init, .change false true true, .changeCompleted, .resume 0 true, .remove false,
      .terminate] :=
  (refcnt_of_run _ (s := ⟨0, 0, false, false, false, []⟩) rfl).mpr <|
    .cons trivial rfl <| .cons trivial rfl <| .cons (.inr (fun h => by cases h.2.2.2)) rfl <|
      .cons trivial rfl <| .cons (fun _ hc => by cases hc) rfl <| .cons rfl rfl <| .cons rfl rfl trivial

/-- The kernel goes away first: the object stays for ever. -/
theorem terminate_leaves_cache : ∃ s, Trace.run step unmapped
    [.insert, .init, .terminate, .remove false] = some s ∧ s.users = 0 ∧ s.refcnt = 1 :=
  ⟨_, rfl, rfl, rfl⟩

end Osfmk.InodePager

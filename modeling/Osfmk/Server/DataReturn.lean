import Mathlib

/-!
# Dirty pages of a mapped file

`inode_object_data_return` writes the pages that the kernel returns, in the name of a task that maps the
file (`osfmach3/server/inode_pager.c`).  Pages that come back when nobody maps the file any more are
thrown away, and of several writes only the last one is looked at.
-/

namespace Osfmk.DataReturn

structure Task (M C : Type) where
  machTask : M
  /-- The user and group identities. -/
  identity : C

/-- A call of `do_write_page`. -/
structure Call (C : Type) where
  data : ℕ
  offset : ℕ
  /-- That of `current`. -/
  identity : C

structure Outcome (C : Type) where
  calls : List (Call C)
  /-- What `printk` tells. -/
  reported : Option ℤ
  deallocated : List (ℕ × ℕ)

variable {M C : Type} [DecidableEq M]

/-- The loop, and its last `result`, given what the calls return. -/
def writeLoop (identity : C) : ℕ → (ℕ → ℤ) → ℕ → ℕ → ℕ → List (Call C) × ℤ
  | 0, _, _, _, _ => ([], 0)
  | fuel + 1, results, data, offset, length =>
    let left := (length + 2 ^ 32 - 4096) % 2 ^ 32
    if left = 0 then ([⟨data, offset, identity⟩], results 0)
    else
      let r := writeLoop identity fuel (fun i => results (i + 1)) (data + 4096) (offset + 4096) left
      (⟨data, offset, identity⟩ :: r.1, r.2)

/-- `inode_object_data_return`; `iMmap` is the task of the first `vm_area` of the inode, `write` whether
its file system can write, and `none` a panic. -/
def inodeObjectDataReturn (tasks : List (Option (Task M C))) (iMmap : Option M) (write : Bool)
    (results : ℕ → ℤ) (offset data length : ℕ) : Option (Outcome C) :=
  match iMmap with
  | none => some ⟨[], none, [(data, length)]⟩
  | some machTask =>
    (tasks.findSome? fun t => t.filter (·.machTask = machTask)).map fun tsk =>
      -- no word has more pages than the fuel
      let r := if write then writeLoop tsk.identity (2 ^ 20) results data offset length else ([], 0)
      ⟨r.1, if r.2 ≠ 0 then some r.2 else none, [(data, length)]⟩

/-- Each of `n` pages has been written once, at its offset, a failure has been told, and the data have
been deallocated once. -/
structure Right (results : ℕ → ℤ) (offset data n : ℕ) (o : Outcome C) : Prop where
  written : o.calls.map (fun c => (c.data, c.offset)) =
    (List.range n).map fun i => (data + 4096 * i, offset + 4096 * i)
  reported : ∀ i < n, results i ≠ 0 → o.reported ≠ none
  deallocated : o.deallocated = [(data, 4096 * n)]

theorem writeLoop_eq (identity : C) (n : ℕ) : ∀ (fuel : ℕ) (results : ℕ → ℤ) (data offset : ℕ),
    n < fuel → n + 1 < 2 ^ 20 → writeLoop identity fuel results data offset (4096 * (n + 1)) =
      ((List.range (n + 1)).map fun i => ⟨data + 4096 * i, offset + 4096 * i, identity⟩, results n) := by
  induction n with
  | zero =>
    rintro (_ | fuel) results data offset hfuel -
    · cases hfuel
    · rfl
  | succ n ih =>
    rintro (_ | fuel) results data offset hfuel hn
    · cases hfuel
    have hleft : (4096 * (n + 1 + 1) + 2 ^ 32 - 4096) % 2 ^ 32 = 4096 * (n + 1) := by omega
    rw [writeLoop, hleft, if_neg (by omega), ih fuel _ _ _ (by omega) (by omega),
      List.range_succ_eq_map (n := n + 1), List.map_cons, List.map_map]
    simp only [Function.comp_def, Nat.succ_eq_add_one, mul_add, mul_one, mul_zero, add_zero]
    simp only [add_assoc, add_comm 4096]

/-- **The pages reach the file** exactly if the file system can write, somebody maps the file, and the
write of the last page fails if any write does. -/
theorem return_right_iff (tasks : List (Option (Task M C))) (iMmap : Option M) (write : Bool)
    (results : ℕ → ℤ) (offset data : ℕ) {n : ℕ} (hn : n + 1 < 2 ^ 20) :
    (∃ o, inodeObjectDataReturn tasks iMmap write results offset data (4096 * (n + 1)) = some o ∧
      Right results offset data (n + 1) o) ↔
    write = true ∧ (∃ t, some t ∈ tasks ∧ iMmap = some t.machTask) ∧
      ∀ i < n, results i ≠ 0 → results n ≠ 0 := by
  have hempty : ∀ {r : Option ℤ} {d}, ¬ Right results offset data (n + 1) (⟨[], r, d⟩ : Outcome C) :=
    fun h => by simpa using congrArg List.length h.written
  unfold inodeObjectDataReturn
  cases iMmap with
  | none =>
    refine iff_of_false ?_ (by simp)
    rintro ⟨o, ⟨⟩, h⟩
    exact hempty h
  | some machTask =>
    cases write with
    | false =>
      refine iff_of_false ?_ (by simp)
      rintro ⟨o, ho, h⟩
      obtain ⟨tsk, -, rfl⟩ := Option.map_eq_some_iff.mp ho
      exact hempty h
    | true =>
      have hloop := fun tsk : Task M C =>
        writeLoop_eq tsk.identity n (2 ^ 20) results data offset (by omega) hn
      simp only [if_true, hloop, Option.map_eq_some_iff]
      constructor
      · rintro ⟨o, ⟨tsk, hfind, rfl⟩, h⟩
        obtain ⟨t, ht, hmt⟩ := List.exists_of_findSome?_eq_some hfind
        obtain ⟨rfl, hsame⟩ := Option.filter_eq_some_iff.mp hmt
        refine ⟨trivial, ⟨tsk, ht, by rw [of_decide_eq_true hsame]⟩, fun i hi hr hz => ?_⟩
        exact h.reported i (by omega) hr (if_neg (not_not.mpr hz))
      · rintro ⟨-, ⟨t, ht, hmt⟩, hlast⟩
        cases hfind : tasks.findSome? fun t => t.filter (·.machTask = machTask) with
        | none =>
          have := List.findSome?_eq_none_iff.mp hfind (some t) ht
          simp [Option.some.inj hmt] at this
        | some tsk =>
          refine ⟨_, ⟨tsk, rfl, rfl⟩, by simp, fun i hi hr => ?_, rfl⟩
          have hne : results n ≠ 0 := by
            rcases Nat.lt_succ_iff_lt_or_eq.mp hi with hi | rfl
            · exact hlast i hi hr
            · exact hr
          simp [hne]

/-- Two pages of a file that a task maps. -/
theorem return_right_iff_two : ∃ o : Outcome Unit, inodeObjectDataReturn [none, some ⟨(), ()⟩] (some ())
    true (fun _ => 0) 0 4096 8192 = some o ∧ Right (fun _ => 0) 0 4096 2 o :=
  (return_right_iff [none, some ⟨(), ()⟩] (some ()) true (fun _ => 0) 0 4096 (n := 1) (by decide)).mpr
    ⟨rfl, ⟨⟨(), ()⟩, by simp, rfl⟩, by simp⟩

/-- A page is lost when nobody maps the file any more, and a failure when a later page is written. -/
theorem returned_unwritten : (∃ o : Outcome Unit, inodeObjectDataReturn [some ⟨(), ()⟩]
      none true (fun _ => 0) 0 4096 4096 = some o ∧ o.calls = []) ∧
    ∃ o : Outcome Unit, inodeObjectDataReturn [some ⟨(), ()⟩] (some ()) true
      (fun i => if i = 0 then -5 else 0) 0 4096 8192 = some o ∧ o.reported = none :=
  ⟨⟨_, rfl, rfl⟩, _, rfl, rfl⟩

end Osfmk.DataReturn

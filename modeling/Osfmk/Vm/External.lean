import Osfmk.Lib.Trace

/-!
# Existence maps

`vm/vm_external.c`.  What was allocated for the map of an object is computed from the object's size, which
may have grown since, as far as `vm_external_within` allows.  Sizes are counted in whole pages: if an
object ends inside a page, that page may have no bit.
-/

namespace Osfmk.External

def stob (size : ℕ) : ℕ := (size / 2 ^ 12 + 7) / 8

/-- The loop of `power_of_2`, with `power = 2 ^ k`. -/
def powerLoop (size k : ℕ) : ℕ := if 2 ^ k < size then powerLoop size (k + 1) else 2 ^ k
termination_by size - 2 ^ k
decreasing_by
  have := Nat.two_pow_pos k
  rw [pow_succ]
  omega

def powerOf2 (size : ℕ) : ℕ := powerLoop size 5

structure ExtMap where
  /-- That of the object. -/
  size : ℕ
  /-- What `kalloc` was asked for. -/
  allocated : ℕ
  bit : ℕ → Bool

/-- `vm_external_create`, if `kalloc` succeeds. -/
def create (size : ℕ) : Option ExtMap :=
  if stob size ≤ 16 then some ⟨size, 16, fun _ => false⟩
  else if stob size ≤ 4096 then some ⟨size, powerOf2 (stob size), fun _ => false⟩
  else none

/-- What `vm_external_destroy` frees. -/
def destroyed (size : ℕ) : ℕ := if stob size ≤ 16 then 16 else powerOf2 (stob size)

/-- `vm_external_within`. -/
def within (newSize oldSize : ℕ) : Bool :=
  let oldBytes := if stob oldSize ≤ 16 then 16
    else if stob oldSize ≤ 4096 then powerOf2 (stob oldSize) else stob oldSize
  stob newSize ≤ oldBytes

/-- The byte of `_vm_external_state_get` and `vm_external_state_set`. -/
def byte (offset : ℕ) : ℕ := offset / 2 ^ 12 / 8

inductive Act
  | create (size : ℕ)
  | grow (size : ℕ)
  /-- `vm_external_copy`, from the map of any object. -/
  | copy (old : ExtMap)
  | stateSet (offset : ℕ)
  | destroy

/-- What can happen to an object's map. -/
def step : Option ExtMap → Act → Option (Option ExtMap)
  | none, .create size => some (create size)
  | some m, .grow size => if m.size ≤ size ∧ within size m.size then some (some { m with size }) else none
  | some m, .copy old =>
    some (some { m with bit := fun i => if i / 8 < stob old.size then old.bit i else m.bit i })
  | some m, .stateSet offset =>
    if offset < m.size then
      some (some { m with bit := Function.update m.bit (offset / 2 ^ 12) true }) else none
  | some _, .destroy => some none
  | _, _ => none

variable {size size' : ℕ} {s s' : Option ExtMap} {m : ExtMap} {P : Prop} {a : Act}

theorem le_powerLoop (size k : ℕ) : size ≤ powerLoop size k := by
  fun_induction powerLoop size k with
  | case1 k h ih => exact ih
  | case2 k h => exact not_lt.mp h

theorem powerLoop_eq (hle : size ≤ size') (k : ℕ) (h : size' ≤ powerLoop size k) :
    powerLoop size' k = powerLoop size k := by
  fun_induction powerLoop size k with
  | case1 k hk ih =>
    rw [powerLoop, if_pos (hk.trans_le hle)]
    exact ih h
  | case2 k hk => rw [powerLoop, if_neg (not_lt.mpr h)]

/-- The growth test and the sizes of maps agree. -/
theorem destroyed_of_within (hle : size ≤ size') (h : within size' size = true) :
    destroyed size' = destroyed size := by
  have hmono : stob size ≤ stob size' := by
    unfold stob
    gcongr
  have h := of_decide_eq_true h
  unfold destroyed
  split_ifs at h with h16 h4096
  · rw [if_pos h16, if_pos h]
  · rw [if_neg h16, if_neg (by omega)]
    exact powerLoop_eq hmono 5 h
  · rw [le_antisymm hmono h]

theorem byte_lt {offset : ℕ} (hpage : 2 ^ 12 ∣ size) (h : offset < size) :
    byte offset < destroyed size := by
  have hstob : byte offset < stob size := by
    unfold byte stob
    omega
  refine hstob.trans_le ?_
  unfold destroyed
  split_ifs with h16
  · exact h16
  · exact le_powerLoop _ 5

/-- The size is a multiple of the page size. -/
def Act.Paged : Act → Prop
  | .create size | .grow size => 2 ^ 12 ∣ size
  | _ => True

/-- The storage is that of the size, which is in pages if `P`. -/
def ExtMap.Ok (P : Prop) (m : ExtMap) : Prop := m.allocated = destroyed m.size ∧ (P → 2 ^ 12 ∣ m.size)

theorem step_ok (h : ∀ m ∈ s, m.Ok P) (ha : P → a.Paged) (hs : step s a = some s') :
    ∀ m ∈ s', m.Ok P := by
  match s, a with
  | none, .create size =>
    cases hs
    intro m hm
    unfold create at hm
    split_ifs at hm with h16
    · cases hm
      exact ⟨(if_pos h16).symm, ha⟩
    · cases hm
      exact ⟨(if_neg h16).symm, ha⟩
    · cases hm
  | some m, .grow size =>
    obtain ⟨⟨hle, hw⟩, rfl⟩ := Trace.of_guard hs
    rintro m' ⟨⟩
    exact ⟨(h m rfl).1.trans (destroyed_of_within hle hw).symm, ha⟩
  | some m, .copy old =>
    cases hs
    rintro m' ⟨⟩
    exact h m rfl
  | some m, .stateSet offset =>
    obtain ⟨-, rfl⟩ := Trace.of_guard hs
    rintro m' ⟨⟩
    exact h m rfl
  | some m, .destroy =>
    cases hs
    exact fun m' hm' => nomatch hm'

/-- **Storage is accounted for**: what would be freed is what was allocated, and if all sizes are in
pages, each offset of the object has its byte in the map. -/
theorem storage_of_run (acts : List Act) (hrun : Trace.run step none acts = some (some m)) :
    m.allocated = destroyed m.size ∧
      ((∀ a ∈ acts, a.Paged) → ∀ offset < m.size, byte offset < m.allocated) := by
  have h : m.Ok (∀ a ∈ acts, a.Paged) := Trace.invariant
    (fun _ _ _ h ha hs => step_ok h ha hs) acts none (some m) (fun _ h => nomatch h)
    (Trace.Meets.of_mem acts _ fun a ha _ hall => hall a ha) hrun m rfl
  refine ⟨h.1, fun hall offset hlt => ?_⟩
  rw [h.1]
  exact byte_lt (h.2 hall) hlt

theorem storage_of_run_grown : ∃ m, Trace.run step none [.create 4096, .grow 8192] = some (some m) ∧
    ∀ offset < m.size, byte offset < m.allocated :=
  ⟨_, rfl, (storage_of_run [.create 4096, .grow 8192] rfl).2 (by simp [Act.Paged])⟩

/-- 128 pages and a byte: the last page is in byte 16 of 16. -/
theorem byte_outside : ∃ m, Trace.run step none [.create 524289] = some (some m) ∧
    524288 < m.size ∧ ¬ byte 524288 < m.allocated :=
  ⟨_, rfl, by decide, by decide⟩

end Osfmk.External

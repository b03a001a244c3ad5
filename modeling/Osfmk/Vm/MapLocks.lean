import Osfmk.Lib.LockTrace
import Osfmk.Lib.Trace
import Osfmk.Vm.MapDelete
import Osfmk.Vm.MapEnter
import Osfmk.Vm.MapPages

/-!
# The lock of a map in `vm_map_delete` and `vm_map_enter`

`vm_map_delete` is called with the map locked and has to return with it locked; `vm_map_enter` takes the
lock itself, once in each round of its loop for space, and has to return without it.
-/

open List Option

namespace Osfmk

open LockTrace

/-- What an event does to the lock. -/
def deleteLockOps (c : DeleteCall) (s s' : DeleteState) : DeleteEvent → List Op
  | .step =>
    match s'.pc with
    | .waiting _ => [.unlock]
    | .unwiring _ _ _ => [.unlock]
    | _ => []
  | .resume interrupted =>
    match s.pc with
    | .waiting _ => if c.interruptible && interrupted then [] else [.lock]
    | _ => [.lock]
  | .others _ => []

/-- An event of a call, with the operations on the lock so far. -/
def deleteLockEvent (c : DeleteCall) (s : DeleteState × List Op) (event : DeleteEvent) :
    Option (DeleteState × List Op) :=
  (deleteEvent c s.1 event).map fun s' => (s', s.2 ++ deleteLockOps c s.1 s' event)

/-- The operations of `vm_map_remove` around those of `vm_map_delete`. -/
def vmMapRemove (ops : List Op) : List Op := .lock :: ops ++ [.unlock]

/-- The lock is held at this place of the routine. -/
def DeletePc.locked : DeletePc → Bool
  | .waiting _ => false
  | .unwiring _ _ _ => false
  | .returned .aborted => false
  | _ => true

/-- An interruptible call is interrupted in a wait. -/
def DeleteState.Interrupts (c : DeleteCall) (s : DeleteState) (event : DeleteEvent) : Prop :=
  c.interruptible = true ∧ event = .resume true ∧ ∃ a, s.pc = .waiting a

section Delete

variable {c : DeleteCall} {s s' : DeleteState} {kr : DeleteReturn} {event : DeleteEvent}

theorem deleteStep_locked (h : deleteStep c s = some s') :
    s.pc.locked = true ∧ s'.pc ≠ .returned .aborted := by
  unfold deleteStep at h
  dsimp only at h
  split at h
  all_goals repeat' split at h
  all_goals cases h
  all_goals simp_all [DeletePc.locked]

theorem deleteResume_locked {interrupted : Bool} (h : deleteResume c s interrupted = some s') :
    s.pc.locked = false ∧ held false (deleteLockOps c s s' (.resume interrupted)) =
      some s'.pc.locked := by
  unfold deleteResume at h
  dsimp only [deleteLockOps] at h ⊢
  split at h
  · next a hpc =>
    rw [hpc]
    split_ifs at h ⊢ with hi
    all_goals obtain rfl := some.inj h
    all_goals exact ⟨rfl, rfl⟩
  · next hpc =>
    cases h
    rw [hpc]
    exact ⟨rfl, rfl⟩
  · cases h

/-- **The place in the routine says whether the lock is held.** -/
theorem deleteLockEvent_held {t t' : DeleteState × List Op} (h : deleteLockEvent c t event = some t')
    (ht : held true t.2 = some t.1.pc.locked) : held true t'.2 = some t'.1.pc.locked := by
  obtain ⟨s', hs', rfl⟩ := map_eq_some_iff.mp h
  rw [held_append, ht, bind_some]
  cases event with
  | step =>
    obtain ⟨hlocked, hkr⟩ := deleteStep_locked hs'
    rw [hlocked]
    dsimp only [deleteLockOps]
    cases hpc : s'.pc with
    | returned kr =>
      cases kr with
      | aborted => exact absurd hpc hkr
      | success => rfl
      | failure => rfl
    | _ => rfl
  | resume interrupted =>
    obtain ⟨hlocked, hheld⟩ := deleteResume_locked hs'
    rw [hlocked]
    exact hheld
  | others m =>
    obtain ⟨-, rfl⟩ := Trace.of_guard hs'
    exact held_nil _

theorem deleteEvent_aborted (h : deleteEvent c s event = some s') (hs : s.pc ≠ .returned .aborted)
    (hint : ¬ s.Interrupts c event) : s'.pc ≠ .returned .aborted := by
  cases event with
  | step => exact (deleteStep_locked h).2
  | others m =>
    obtain ⟨-, rfl⟩ := Trace.of_guard h
    exact hs
  | resume interrupted =>
    change deleteResume c s interrupted = some s' at h
    unfold deleteResume at h
    dsimp only at h
    split at h
    · next a hpc =>
      split_ifs at h with hi
      · rw [Bool.and_eq_true] at hi
        exact absurd ⟨hi.1, by rw [hi.2], a, hpc⟩ hint
      · cases h
        exact DeletePc.noConfusion
    · cases h
      exact DeletePc.noConfusion
    · cases h

theorem deleteEvent_interrupts (h : deleteEvent c s event = some s') (hint : s.Interrupts c event) :
    s'.pc = .returned .aborted := by
  obtain ⟨hi, rfl, a, hpc⟩ := hint
  change deleteResume c s true = some s' at h
  rw [deleteResume, hpc] at h
  dsimp only at h
  rw [hi] at h
  cases h
  rfl

theorem deleteEvent_returned (hs : s.pc = .returned kr) : deleteEvent c s event = none := by
  cases event with
  | step => rw [deleteEvent, deleteStep, hs]
  | resume interrupted => rw [deleteEvent, deleteResume, hs]
  | others m =>
    refine if_neg fun h => ?_
    rw [hs] at h
    exact h.2

/-- **The lock is held when `vm_map_delete` returns**, and the unlock of `vm_map_remove` releases it, if
and only if no wait is interrupted. -/
theorem delete_returns_locked (c : DeleteCall) (m : VmMap) (events : List DeleteEvent)
    {s : DeleteState} {ops : List Op} {kr : DeleteReturn}
    (hrun : Trace.run (deleteLockEvent c) (deleteStart c m, []) events = some (s, ops))
    (hret : s.pc = .returned kr) :
    (held true ops = some true ∧ held false (vmMapRemove ops) = some false) ↔
      Trace.Meets (deleteLockEvent c) (fun t event => ¬ t.1.Interrupts c event)
        (deleteStart c m, []) events := by
  have hheld : held true ops = some s.pc.locked := Trace.invariant_of_step
    (I := fun t : DeleteState × List Op => held true t.2 = some t.1.pc.locked)
    (fun _ _ _ ht h => deleteLockEvent_held h ht) events _ (s, ops) rfl hrun
  constructor
  · rintro ⟨hlocked, -⟩
    refine Trace.meets_of_end (Q := fun t => t.1.pc = .returned .aborted) (fun t event t' h hint => ?_)
      (fun t event hq => ?_) events _ _ hrun fun hq => ?_
    · obtain ⟨s', hs', rfl⟩ := map_eq_some_iff.mp h
      exact deleteEvent_interrupts hs' (not_not.mp hint)
    · rw [deleteLockEvent, deleteEvent_returned hq]
      rfl
    · rw [hheld, show s.pc = _ from hq] at hlocked
      cases hlocked
  intro hwaits
  have hpc : s.pc ≠ .returned .aborted := Trace.invariant
    (I := fun t : DeleteState × List Op => t.1.pc ≠ .returned .aborted)
    (fun t event t' ht hint h => by
      obtain ⟨s', hs', rfl⟩ := map_eq_some_iff.mp h
      exact deleteEvent_aborted hs' ht hint)
    events _ (s, ops) DeletePc.noConfusion hwaits hrun
  have hlocked : held true ops = some true := by
    rw [hret] at hpc hheld
    rw [hheld]
    cases kr with
    | aborted => exact absurd rfl hpc
    | success => rfl
    | failure => rfl
  refine ⟨hlocked, ?_⟩
  rw [vmMapRemove, held_append, held_lock, hlocked]
  rfl

/-- A call that may be interrupted, for a page. -/
def deletePage : DeleteCall where
  start := 4096
  endAddr := 8192
  kunwire := false
  interruptible := true
  waitForKwire := false

/-- A map with that page, in transition. -/
def pageInTransition : VmMap where
  entries := [⟨1, 4096, 8192, true, false, 0, 0⟩]
  hint := none
  timestamp := 0
  fresh := 2

/-- The page when the other thread is done with it. -/
def pageAtRest : VmMap := { pageInTransition with entries := [⟨1, 4096, 8192, false, false, 0, 0⟩] }

theorem delete_after_wait : ∃ s ops, Trace.run (deleteLockEvent deletePage)
    (deleteStart deletePage pageInTransition, [])
    [.step, .step, .others pageAtRest, .resume false, .step, .step] = some (s, ops) ∧
    held false (vmMapRemove ops) = some false := by
  have hrun : (Trace.run (deleteLockEvent deletePage) (deleteStart deletePage pageInTransition, [])
      [.step, .step, .others pageAtRest, .resume false, .step, .step]).isSome := by decide
  obtain ⟨⟨s, ops⟩, hs⟩ := isSome_iff_exists.mp hrun
  have hret : s.pc = .returned .success := by
    have : (Trace.run (deleteLockEvent deletePage) (deleteStart deletePage pageInTransition, [])
      [.step, .step, .others pageAtRest, .resume false, .step, .step]).map (·.1.pc) =
        some (.returned .success) := by decide
    rw [hs] at this
    exact some.inj this
  have hevents : ∀ event ∈ [DeleteEvent.step, .step, .others pageAtRest, .resume false, .step, .step],
      event ≠ .resume true := by decide
  exact ⟨s, ops, hs, ((delete_returns_locked deletePage pageInTransition _ hs hret).mpr
    (Trace.Meets.of_mem _ _ fun event he _ hint => hevents event he hint.2.1)).2⟩

/-- The wait is interrupted: the call returns without the lock, and `vm_map_remove` releases it again. -/
theorem delete_aborted_unlocked :
    (Trace.run (deleteLockEvent deletePage) (deleteStart deletePage pageInTransition, [])
      [.step, .step, .resume true]).map (fun t => (t.1.pc, held true t.2,
        held false (vmMapRemove t.2))) = some (.returned .aborted, some false, none) := by
  decide

end Delete

/-- A map with the other fields of its entries, by their addresses. -/
structure EnterMap extends VmRange where
  attrs : ℕ → VmAttrs
  wiringRequired : Bool

/-- The arguments of `vm_map_enter`. -/
structure EnterCall where
  address : ℕ
  size : ℕ
  mask : ℕ
  anywhere : Bool
  object : Option ℕ
  offset : ℕ
  needsCopy : Bool
  curProtection : ℕ
  maxProtection : ℕ
  inheritance : VmInherit

inductive EnterReturn
  | success
  | noSpace
  | invalidAddress
  | wireError (kr : ℕ)
  deriving DecidableEq

/-- What the routines called by `vm_map_enter` do: whether `vm_object_coalesce` succeeds, and what
`vm_map_wire` returns and leaves. -/
structure EnterOutcome where
  coalesce : Bool
  wire : EnterMap → EnterReturn × EnterMap

/-- The tests for extending the entry before. -/
def enterExtends (c : EnterCall) (m : EnterMap) (start p : ℕ) : Bool :=
  (m.find p).any fun e =>
    decide (e.vmeEnd = start) && !(m.attrs p).isShared && !(m.attrs p).isSubMap &&
      decide ((m.attrs p).inheritance = c.inheritance) &&
      decide ((m.attrs p).protection = c.curProtection) &&
      decide ((m.attrs p).maxProtection = c.maxProtection) &&
      decide ((m.attrs p).behavior = .default) && !e.inTransition && decide (e.wiredCount = 0)

/-- `vm_map_entry_insert`, as it is called here. -/
def enterInsert (c : EnterCall) (m : EnterMap) (start : ℕ) (entry : Option ℕ) : EnterMap :=
  let new : VmMapEntry := ⟨m.fresh, start, (start + c.size) % 2 ^ 32, false, false, 0, 0⟩
  { m with
    entries :=
      match entry with
      | none => new :: m.entries
      | some p => m.entries.flatMap fun e => if e.addr = p then [e, new] else [e]
    hint := some m.fresh
    fresh := m.fresh + 1
    attrs := fun q => if q = m.fresh then
      { object := c.object, offset := c.offset, isShared := false, isSubMap := false
        needsCopy := c.needsCopy, behavior := .default, protection := c.curProtection
        maxProtection := c.maxProtection, inheritance := c.inheritance } else m.attrs q }

/-- The new entry, or a longer entry before it; the map is locked. -/
def enterAt (c : EnterCall) (o : EnterOutcome) (m : EnterMap) (start : ℕ) (entry : Option ℕ) :
    List Op × EnterMap × EnterReturn :=
  match entry.filter fun p => c.object.isNone && enterExtends c m start p && o.coalesce with
  | some p =>
    ([.unlock], { m with
      toVmMap := m.modifyEntry p fun e => { e with vmeEnd := (start + c.size) % 2 ^ 32 } }, .success)
  | none =>
    if m.wiringRequired then
      ([.unlock], (o.wire (enterInsert c m start entry)).2, (o.wire (enterInsert c m start entry)).1)
    else ([.unlock], enterInsert c m start entry, .success)

/-- `vm_map_enter` from `StartAgain` on, with what it does to the lock and the map it leaves; no result
when it goes back there. -/
def enterRound (c : EnterCall) (o : EnterOutcome) (m : EnterMap) :
    List Op × EnterMap × Option EnterReturn :=
  let at' (start : ℕ) (entry : Option ℕ) :=
    let r := enterAt c o m start entry
    (.lock :: r.1, r.2.1, some r.2.2)
  let stop := (c.address + c.size) % 2 ^ 32
  if c.anywhere then
    match findSpace m.toVmRange c.address c.size c.mask with
    | .wrapped => ([.lock], m, some .noSpace)
    | .noSpace => ([.lock, .unlock], m, some .noSpace)
    | .wait => ([.lock, .unlock], m, none)
    | .found start entry => at' start entry
  else if c.address &&& c.mask ≠ 0 then ([.lock, .unlock], m, some .noSpace)
  else if c.address < m.minOffset ∨ stop > m.maxOffset ∨ c.address ≥ stop then
    ([.lock, .unlock], m, some .invalidAddress)
  else
    match lookupFromHint m.toVmMap c.address with
    | (true, _) => ([.lock, .unlock], m, some .noSpace)
    | (false, entry) =>
      if (m.entriesAfter entry).head?.any fun next => decide (next.vmeStart < stop) then
        ([.lock, .unlock], m, some .noSpace)
      else at' c.address entry

/-- A call of `vm_map_enter` that has returned. -/
structure EnterResult where
  ops : List Op
  before : EnterMap
  after : EnterMap
  kr : EnterReturn

/-- **`vm_map_enter`**: each time it takes the lock it finds a map, which other threads have changed
while it waited for space. -/
def vmMapEnter (c : EnterCall) : List (EnterOutcome × EnterMap) → Option EnterResult
  | [] => none
  | (o, m) :: rounds =>
    match enterRound c o m with
    | (ops, m', some kr) => if rounds = [] then some ⟨ops, m, m', kr⟩ else none
    | (ops, _, none) => (vmMapEnter c rounds).map fun r => { r with ops := ops ++ r.ops }

/-- The addresses that the loop for space tries from `start` on: behind a try that fits below the end of
the map comes the end of the entry in its way. -/
inductive Tries (m : VmRange) (size mask : ℕ) : ℕ → List VmMapEntry → ℕ → Prop
  | here {start : ℕ} {rest : List VmMapEntry} : Tries m size mask start rest start
  | next {start s : ℕ} {next : VmMapEntry} {rest : List VmMapEntry}
      (aligned : start ≤ alignMask start mask)
      (fits : alignMask start mask ≤ (alignMask start mask + size) % 2 ^ 32)
      (below : (alignMask start mask + size) % 2 ^ 32 ≤ m.maxOffset)
      (inTheWay : next.vmeStart < (alignMask start mask + size) % 2 ^ 32)
      (later : Tries m size mask next.vmeEnd rest s) : Tries m size mask start (next :: rest) s

/-- No address that the search tries wraps around when it is aligned. -/
def EnterCall.Aligned (c : EnterCall) (m : EnterMap) : Prop :=
  ∀ start entry s, spaceStart m.toVmRange c.address = some (start, entry) →
    Tries m.toVmRange c.size c.mask start (m.entriesAfter entry) s → s ≤ alignMask s c.mask

/-- The call finds room at `start`, behind `entry`. -/
def EnterCall.Finds (c : EnterCall) (m : EnterMap) (start : ℕ) (entry : Option ℕ) : Prop :=
  if c.anywhere then findSpace m.toVmRange c.address c.size c.mask = .found start entry
  else
    start = c.address ∧ c.address &&& c.mask = 0 ∧ m.minOffset ≤ c.address ∧
      (c.address + c.size) % 2 ^ 32 ≤ m.maxOffset ∧ c.address < (c.address + c.size) % 2 ^ 32 ∧
      lookupFromHint m.toVmMap c.address = (false, entry) ∧
      ∀ next ∈ (m.entriesAfter entry).head?, (c.address + c.size) % 2 ^ 32 ≤ next.vmeStart

/-- The entry before the room found is made longer. -/
def EnterCall.Joins (c : EnterCall) (o : EnterOutcome) (m : EnterMap) (start : ℕ) (entry : Option ℕ) :
    Prop :=
  ∃ p ∈ entry, c.object = none ∧ enterExtends c m start p = true ∧ o.coalesce = true

/-- **What `vm_map_enter` relies on**: no address that the search tries wraps around when it is aligned;
and a new entry that has to be wired is wired, or a failure takes it back. -/
structure EnterSafe (c : EnterCall) (o : EnterOutcome) (m : EnterMap) : Prop where
  aligned : c.anywhere = true → c.Aligned m
  wired : m.wiringRequired = true → ∀ start entry, c.Finds m start entry → ¬ c.Joins o m start entry →
    (o.wire (enterInsert c m start entry)).1 = .success ∨ (o.wire (enterInsert c m start entry)).2 = m

section Enter

variable {c : EnterCall} {o : EnterOutcome} {m : EnterMap} {v : VmRange}
  {size mask start : ℕ}

/-- The loop wraps around at one of the addresses it tries. -/
theorem spaceSearch_wrapped_iff {entry : Option ℕ} {rest : List VmMapEntry} :
    spaceSearch v size mask start entry rest = .wrapped ↔
      ∃ s, Tries v size mask start rest s ∧ alignMask s mask < s := by
  induction rest generalizing start entry with
  | nil =>
    unfold spaceSearch
    dsimp only
    split_ifs with hwrap
    · exact ⟨fun _ => ⟨start, .here, hwrap⟩, fun _ => rfl⟩
    all_goals
      refine ⟨False.elim, ?_⟩
      rintro ⟨s, ⟨⟩, hs⟩
      exact absurd hs hwrap
  | cons next rest ih =>
    unfold spaceSearch
    dsimp only
    split_ifs with hwrap hstop hwait hnext
    · exact ⟨fun _ => ⟨start, .here, hwrap⟩, fun _ => rfl⟩
    · refine ⟨False.elim, ?_⟩
      rintro ⟨s, _ | ⟨-, hfits, hbelow, -, -⟩, hs⟩
      · exact absurd hs hwrap
      · omega
    · refine ⟨False.elim, ?_⟩
      rintro ⟨s, _ | ⟨-, hfits, hbelow, -, -⟩, hs⟩
      · exact absurd hs hwrap
      · omega
    · refine ⟨False.elim, ?_⟩
      rintro ⟨s, _ | ⟨-, -, -, hway, -⟩, hs⟩
      · exact absurd hs hwrap
      · omega
    · rw [ih]
      constructor
      · rintro ⟨s, hs, hlt⟩
        exact ⟨s, .next (by omega) (by omega) (by omega) (by omega) hs, hlt⟩
      · rintro ⟨s, _ | ⟨-, -, -, -, hs⟩, hlt⟩
        · exact absurd hlt hwrap
        · exact ⟨s, hs, hlt⟩

theorem aligned_iff :
    c.Aligned m ↔ findSpace m.toVmRange c.address c.size c.mask ≠ .wrapped := by
  unfold EnterCall.Aligned findSpace
  cases spaceStart m.toVmRange c.address with
  | none => simp
  | some first =>
    obtain ⟨start, entry⟩ := first
    rw [ne_eq, spaceSearch_wrapped_iff]
    constructor
    · rintro h ⟨s, hs, hlt⟩
      exact absurd (h start entry s rfl hs) (by omega)
    · rintro h _ _ s ⟨⟩ hs
      by_contra hlt
      exact h ⟨s, hs, by omega⟩

theorem EnterCall.Finds.unique {start' : ℕ} {entry entry' : Option ℕ} (h : c.Finds m start entry)
    (h' : c.Finds m start' entry') : start = start' ∧ entry = entry' := by
  unfold EnterCall.Finds at h h'
  split_ifs at h h'
  · rw [h] at h'
    cases h'
    exact ⟨rfl, rfl⟩
  · obtain ⟨rfl, -, -, -, -, hlookup, -⟩ := h
    obtain ⟨rfl, -, -, -, -, hlookup', -⟩ := h'
    rw [hlookup] at hlookup'
    cases hlookup'
    exact ⟨rfl, rfl⟩

/-- What a round that finds room does. -/
theorem enterRound_finds {entry : Option ℕ} (h : c.Finds m start entry) :
    enterRound c o m = (.lock :: (enterAt c o m start entry).1, (enterAt c o m start entry).2.1,
      some (enterAt c o m start entry).2.2) := by
  unfold EnterCall.Finds at h
  unfold enterRound
  dsimp only
  split_ifs at h ⊢ with hany hmask hrange
  · rw [h]
  · exact absurd h.2.1 hmask
  · omega
  · obtain ⟨rfl, -, -, -, -, hlookup, hnext⟩ := h
    rw [hlookup]
    dsimp only
    rw [if_neg]
    rw [Option.any_eq_true]
    rintro ⟨next, hn, hlt⟩
    have := hnext next hn
    simp at hlt
    omega

theorem enterRound_wrapped (hany : c.anywhere = true)
    (h : findSpace m.toVmRange c.address c.size c.mask = .wrapped) :
    enterRound c o m = ([.lock], m, some .noSpace) := by
  unfold enterRound
  dsimp only
  rw [if_pos hany, h]

/-- A round that finds no room releases the lock and leaves the map, unless its search wraps around. -/
theorem enterRound_not_finds (h : ∀ start entry, ¬ c.Finds m start entry)
    (hwrap : c.anywhere = true → findSpace m.toVmRange c.address c.size c.mask ≠ .wrapped) :
    ∃ kr, enterRound c o m = ([.lock, .unlock], m, kr) := by
  unfold EnterCall.Finds at h
  unfold enterRound
  dsimp only
  split_ifs at h ⊢ with hany hmask hrange
  · cases hsearch : findSpace m.toVmRange c.address c.size c.mask with
    | wrapped => exact absurd hsearch (hwrap hany)
    | found start entry => exact absurd hsearch (h start entry)
    | _ => exact ⟨_, rfl⟩
  · exact ⟨_, rfl⟩
  · exact ⟨_, rfl⟩
  · rcases hlookup : lookupFromHint m.toVmMap c.address with ⟨_ | _, entry⟩
    · dsimp only
      split_ifs with hnext
      · exact ⟨_, rfl⟩
      · refine absurd ⟨rfl, by omega, by omega, by omega, by omega, hlookup, fun next hn => ?_⟩
          (h c.address entry)
        by_contra hlt
        refine hnext ?_
        rw [Option.any_eq_true]
        exact ⟨next, hn, by simp; omega⟩
    · exact ⟨_, rfl⟩

/-- Only a search that wraps around leaves the lock. -/
theorem enterRound_ops (c : EnterCall) (o : EnterOutcome) (m : EnterMap) :
    enterRound c o m = ([.lock], m, some .noSpace) ∨ (enterRound c o m).1 = [.lock, .unlock] := by
  by_cases hfinds : ∃ start entry, c.Finds m start entry
  · obtain ⟨start, entry, hfinds⟩ := hfinds
    rw [enterRound_finds hfinds]
    refine .inr (congrArg (Op.lock :: ·) ?_)
    unfold enterAt
    split
    · rfl
    · split_ifs <;> rfl
  by_cases hwrap : c.anywhere = true ∧ findSpace m.toVmRange c.address c.size c.mask = .wrapped
  · exact .inl (enterRound_wrapped hwrap.1 hwrap.2)
  · obtain ⟨kr, hround⟩ := enterRound_not_finds (o := o) (fun start entry h => hfinds ⟨start, entry, h⟩)
      fun hany h => hwrap ⟨hany, h⟩
    rw [hround]
    exact .inr rfl

/-- What a round has to do: it releases the lock, and an error leaves the map. -/
def Released (m : EnterMap) (round : List Op × EnterMap × Option EnterReturn) : Prop :=
  round.1 = [.lock, .unlock] ∧ ∀ kr ∈ round.2.2, kr ≠ .success → round.2.1 = m

theorem enterAt_released_iff {entry : Option ℕ} :
    Released m (.lock :: (enterAt c o m start entry).1, (enterAt c o m start entry).2.1,
        some (enterAt c o m start entry).2.2) ↔
      (m.wiringRequired = true → ¬ c.Joins o m start entry →
        (o.wire (enterInsert c m start entry)).1 = .success ∨
          (o.wire (enterInsert c m start entry)).2 = m) := by
  unfold Released enterAt
  split
  · next p hp =>
    obtain ⟨hp, hjoin⟩ := Option.filter_eq_some_iff.mp hp
    simp only [Bool.and_eq_true, isNone_iff_eq_none] at hjoin
    refine ⟨fun _ _ hno => absurd ⟨p, hp, hjoin.1.1, hjoin.1.2, hjoin.2⟩ hno, fun _ => ⟨rfl, ?_⟩⟩
    rintro kr ⟨⟩ hkr
    exact absurd rfl hkr
  · next hnone =>
    have hno : ¬ c.Joins o m start entry := by
      rintro ⟨p, hp, hobject, hext, hco⟩
      rw [mem_def.mp hp, Option.filter_some, hobject, hext, hco] at hnone
      cases hnone
    split_ifs with hwire
    · constructor
      · rintro ⟨-, h⟩ - -
        exact or_iff_not_imp_left.mpr (h _ rfl)
      · intro h
        refine ⟨rfl, ?_⟩
        rintro kr ⟨⟩ hkr
        exact (h hwire hno).resolve_left hkr
    · refine ⟨fun _ h => absurd h hwire, fun _ => ⟨rfl, ?_⟩⟩
      rintro kr ⟨⟩ hkr
      exact absurd rfl hkr

/-- **A round** does so exactly if the call can rely on what it needs. -/
theorem enterRound_released_iff : Released m (enterRound c o m) ↔ EnterSafe c o m := by
  by_cases haligned : c.anywhere = true → c.Aligned m
  · by_cases hfinds : ∃ start entry, c.Finds m start entry
    · obtain ⟨start, entry, hfinds⟩ := hfinds
      rw [enterRound_finds hfinds, enterAt_released_iff]
      refine ⟨fun h => ⟨haligned, fun hwire start' entry' hfinds' => ?_⟩, fun h hwire =>
        h.wired hwire start entry hfinds⟩
      obtain ⟨rfl, rfl⟩ := hfinds.unique hfinds'
      exact h hwire
    · have hfinds : ∀ start entry, ¬ c.Finds m start entry := fun start entry h =>
        hfinds ⟨start, entry, h⟩
      obtain ⟨kr, hround⟩ := enterRound_not_finds (o := o) hfinds fun hany =>
        aligned_iff.mp (haligned hany)
      rw [hround]
      exact ⟨fun _ => ⟨haligned, fun _ start entry h => absurd h (hfinds start entry)⟩,
        fun _ => ⟨rfl, fun _ _ _ => rfl⟩⟩
  · refine ⟨fun h => ?_, fun h => absurd h.aligned haligned⟩
    obtain ⟨hany, hno⟩ := Classical.not_imp.mp haligned
    rw [enterRound_wrapped hany (by rwa [aligned_iff, not_not] at hno)] at h
    cases h.1

/-- **`vm_map_enter` leaves the map unlocked**, and as it was when it fails, exactly if no address that it
tries wraps around and no wiring fails. -/
theorem enter_returns_unlocked (c : EnterCall) (rounds : List (EnterOutcome × EnterMap))
    {r : EnterResult} (hrun : vmMapEnter c rounds = some r) :
    (held false r.ops = some false ∧ r.ops.count .unlock = r.ops.count .lock ∧
      (r.kr ≠ .success → r.after = r.before)) ↔ ∀ round ∈ rounds, EnterSafe c round.1 round.2 := by
  suffices (held false r.ops = some false ∧ (r.kr ≠ .success → r.after = r.before)) ↔
      ∀ round ∈ rounds, EnterSafe c round.1 round.2 by
    rw [← this]
    exact ⟨fun h => ⟨h.1, h.2.2⟩, fun h => ⟨h.1, count_lock h.1, h.2⟩⟩
  induction rounds generalizing r with
  | nil => cases hrun
  | cons round rounds ih =>
    obtain ⟨o, m⟩ := round
    rw [forall_mem_cons, ← enterRound_released_iff]
    rw [vmMapEnter] at hrun
    rcases hround : enterRound c o m with ⟨ops, m', _ | kr⟩ <;> rw [hround] at hrun
    · -- a round that goes back has waited
      obtain ⟨r', hr', rfl⟩ := map_eq_some_iff.mp hrun
      obtain rfl : ops = [.lock, .unlock] := by
        have hops := enterRound_ops c o m
        rw [hround] at hops
        exact hops.resolve_left fun h => nomatch h
      rw [← ih hr']
      exact ⟨fun h => ⟨⟨rfl, fun _ hkr => nomatch hkr⟩, h⟩, fun h => h.2⟩
    · obtain ⟨rfl, hr⟩ := ite_none_right_eq_some.mp hrun
      cases hr
      have hops := enterRound_ops c o m
      rw [hround] at hops
      constructor
      · rintro ⟨hheld, hsame⟩
        refine ⟨⟨hops.resolve_left fun h => ?_, ?_⟩, fun _ h => absurd h not_mem_nil⟩
        · cases h
          cases hheld
        · rintro _ ⟨⟩ hkr
          exact hsame hkr
      · rintro ⟨⟨hops', hsame⟩, -⟩
        rw [show ops = [.lock, .unlock] from hops']
        exact ⟨rfl, hsame kr rfl⟩

/-- An empty map, and a call for a page of it with the mask. -/
def emptyMap : EnterMap where
  entries := []
  hint := none
  timestamp := 0
  fresh := 1
  minOffset := 4096
  maxOffset := 2 ^ 32 - 4096
  firstFree := none
  waitForSpace := false
  attrs := fun _ => ⟨none, 0, false, false, false, .default, 3, 7, .copy⟩
  wiringRequired := false

def enterPage (mask : ℕ) : EnterCall := ⟨0, 4096, mask, true, none, 0, false, 3, 7, .copy⟩

def neverWires : EnterOutcome := ⟨false, fun m => (.success, m)⟩

theorem enter_aligned : ∃ r, vmMapEnter (enterPage 8191) [(neverWires, emptyMap)] = some r ∧
    r.kr = .success ∧ held false r.ops = some false := by
  refine ⟨_, rfl, by decide, ((enter_returns_unlocked (enterPage 8191) [(neverWires, emptyMap)] rfl).mpr
    fun round hround => ?_).1⟩
  obtain rfl := mem_singleton.mp hround
  refine ⟨?_, fun h => absurd h (by decide)⟩
  rintro - start entry s ⟨⟩ ⟨⟩
  decide

/-- A mask with which the alignment wraps around: the call returns with the map locked.  A wiring that
fails: the new entry stays. -/
theorem enter_wraps_locked : (vmMapEnter (enterPage (2 ^ 32 - 1)) [(neverWires, emptyMap)]).map
      (fun r => (r.kr, held false r.ops)) = some (.noSpace, some true) ∧
    (vmMapEnter (enterPage 0) [(⟨false, fun m => (.wireError 1, m)⟩,
      { emptyMap with wiringRequired := true })]).map
      (fun r => (r.kr, r.before.entries.length, r.after.entries.length)) =
        some (.wireError 1, 0, 1) := by
  decide

end Enter

end Osfmk

import Osfmk.Lib.Trace
import Osfmk.Vm.MapEntry

/-!
# Deleting a range of a VM map

`vm_map_delete` with the map unlocked at three places: while it waits for an entry in
transition, while it waits for the kernel wirings of an entry to go away, and while it unwires
pages.  Other threads can change the map then in any way that leaves it well formed, except
that an entry in transition is not theirs to remove or extend.
-/

open List Option

namespace Osfmk

/-- The arguments of `vm_map_delete`. -/
structure DeleteCall where
  start : ℕ
  endAddr : ℕ
  kunwire : Bool
  interruptible : Bool
  waitForKwire : Bool
  deriving DecidableEq

/-- What `vm_map_delete` returns. -/
inductive DeleteReturn
  | success
  | aborted
  | failure
  deriving DecidableEq

/-- Where a call of `vm_map_delete` is. -/
inductive DeletePc
  | loop (entry : Option ℕ)
  | retry (entry : Option ℕ)
  /-- In `vm_map_entry_wait`, for an entry that started at `s`. -/
  | waiting (s : ℕ)
  /-- In `vm_fault_unwire`; `s` and `e` are the addresses of the copy of the entry. -/
  | unwiring (entry s e : ℕ)
  | returned (kr : DeleteReturn)
  deriving DecidableEq

/-- The state of the map and of a call. -/
structure DeleteState where
  map : VmMap
  pc : DeletePc
  lastTimestamp : ℕ
  needWakeup : Bool
  /-- The entries the call has unlinked, as they were then. -/
  unlinked : List VmMapEntry
  header : Bool
  deriving DecidableEq

/-- The part of `vm_map_delete` before its loop. -/
def deleteStart (c : DeleteCall) (m : VmMap) : DeleteState :=
  let (found, entry, m) := m.entryFrom c.start
  let map :=
    match found, entry with
    | true, some p =>
      let m := vmMapClipStart m p c.start
      m.saveHint (m.prevOf p)
    | _, _ => m
  { map := map, pc := .loop entry, lastTimestamp := 2 ^ 32 - 1, needWakeup := false, unlinked := []
    header := false }

/-- The routine with the map locked, up to the next label or to where it stops. -/
def deleteStep (c : DeleteCall) (s : DeleteState) : Option DeleteState :=
  match s.pc with
  | .loop none => some { s with pc := .returned .success }
  | .loop (some p) =>
    match s.map.find p with
    | none => none
    | some e =>
      if e.vmeStart < c.endAddr then
        some { s with map := vmMapClipEnd s.map p c.endAddr, pc := .retry (some p) }
      else some { s with pc := .returned .success }
  -- the fields of the header are read as those of an entry
  | .retry none => some { s with header := true, pc := .returned .failure }
  | .retry (some p) =>
    match s.map.find p with
    | none => none
    | some e =>
      if e.inTransition then
        some { s with
          map := s.map.modifyEntry p fun e => { e with needsWakeup := true }
          needWakeup := false
          pc := .waiting e.vmeStart }
      else if e.wiredCount ≠ 0 then
        let wired :=
          if c.kunwire ∨ 0 < e.userWiredCount then e.wiredCount - 1 else e.wiredCount
        let map := s.map.modifyEntry p fun e =>
          { e with wiredCount := wired, userWiredCount := 0 }
        if wired ≠ 0 then
          if c.waitForKwire then
            some { s with
              map := map.modifyEntry p fun e => { e with needsWakeup := true }
              pc := .waiting e.vmeStart }
          else some { s with map := map, pc := .returned .failure }
        else
          some { s with
            map := map.modifyEntry p fun e => { e with inTransition := true }
            pc := .unwiring p e.vmeStart e.vmeEnd }
      else
        some { s with
          map := s.map.unlink p, pc := .loop (s.map.nextOf p), unlinked := s.unlinked ++ [e] }
  | _ => none

/-- `vm_map_lock`. -/
def VmMap.lock (m : VmMap) : VmMap := { m with timestamp := (m.timestamp + 1) % 2 ^ 32 }

/-- The pointers to the entries from `first` on, up to one that does not begin before
`tmp_end`. -/
def entriesBefore (m : VmMap) (first : Option ℕ) (tmpEnd : ℕ) : List ℕ :=
  match first with
  | none => []
  | some p =>
    ((m.entries.dropWhile fun e => decide (e.addr ≠ p)).takeWhile
      fun e => decide (e.vmeStart < tmpEnd)).map (·.addr)

/-- The loop over the entries unwired, from `first` on: they are in transition no more. -/
def clearTransition (m : VmMap) (first : Option ℕ) (tmpEnd : ℕ) : VmMap × Bool :=
  ({ m with entries := m.entries.map fun e =>
      if e.addr ∈ entriesBefore m first tmpEnd then
        { e with inTransition := false, needsWakeup := false }
      else e },
    m.entries.any fun e => decide (e.addr ∈ entriesBefore m first tmpEnd) && e.needsWakeup)

/-- The entry to go on with after a wait at an address. -/
def waitResume (m : VmMap) (a : ℕ) : Option ℕ × VmMap :=
  let (found, entry, m) := m.entryFrom a
  (entry, if found then m.saveHint (entry.bind m.prevOf) else m)

/-- `first_entry` after an unwiring; when the map has been locked in between it is looked up. -/
def unwireResume (m : VmMap) (p a : ℕ) (changed : Bool) : Option ℕ × VmMap :=
  if changed then
    let (found, first, m) := m.entryFrom a
    (first, if found then m.saveHint (m.prevOf p) else m)
  else (some p, m.saveHint (m.prevOf p))

/-- The routine when it takes the lock of the map back, up to `retry_entry`. -/
def deleteResume (c : DeleteCall) (s : DeleteState) (interrupted : Bool) : Option DeleteState :=
  let m := s.map.lock
  match s.pc with
  | .waiting a =>
    if c.interruptible && interrupted then some { s with pc := .returned .aborted }
    else
      let r := waitResume m a
      some { s with map := r.2, lastTimestamp := m.timestamp, pc := .retry r.1 }
  | .unwiring p a e =>
    let r := unwireResume m p a (decide ((s.lastTimestamp + 1) % 2 ^ 32 ≠ m.timestamp))
    let cleared := clearTransition r.2 r.1 e
    some { s with
      map := cleared.1, lastTimestamp := m.timestamp, pc := .retry r.1
      needWakeup := s.needWakeup || cleared.2 }
  | _ => none

/-- What the other threads may do to the map while the call has it unlocked: the entry it has
put in transition exists still, though it may have been clipped. -/
def DeletePc.Allows (pc : DeletePc) (m : VmMap) : Prop :=
  match pc with
  | .waiting _ => True
  | .unwiring p a e =>
    (m.find p).any (fun x => decide (a ≤ x.vmeStart ∧ x.vmeEnd ≤ e) && x.inTransition) = true
  | _ => False

instance (pc : DeletePc) (m : VmMap) : Decidable (pc.Allows m) := by
  cases pc <;> unfold DeletePc.Allows <;> infer_instance

/-- The events of a run. -/
inductive DeleteEvent
  | step
  | resume (interrupted : Bool)
  | others (m : VmMap)
  deriving DecidableEq

/-- One event; `none` when it cannot happen. -/
def deleteEvent (c : DeleteCall) (s : DeleteState) : DeleteEvent → Option DeleteState
  | .step => deleteStep c s
  | .resume interrupted => deleteResume c s interrupted
  | .others m => if m.Wf ∧ s.pc.Allows m then some { s with map := m } else none

/-- A run from a state. -/
def deleteRun (c : DeleteCall) (s : DeleteState) (events : List DeleteEvent) : Option DeleteState :=
  Trace.run (deleteEvent c) s events

/-- **The condition on a resumption**: after a wait that was not interrupted, the first entry
that ends after the address waited at is in the range of the call; after an unwiring, the entry
unwired begins where it did. -/
def DeleteState.ResumesInRange (c : DeleteCall) (s : DeleteState) (interrupted : Bool) : Prop :=
  match s.pc with
  | .waiting a => (c.interruptible && interrupted) = true ∨
      ∃ e, s.map.firstAfter a = some e ∧ c.start ≤ e.vmeStart ∧ e.vmeEnd ≤ c.endAddr
  | .unwiring p a _ => ∃ e, s.map.find p = some e ∧ e.vmeStart = a
  | _ => True

/-- Every resumption of a run is in range. -/
def ResumptionsInRange (c : DeleteCall) (s : DeleteState) (events : List DeleteEvent) : Prop :=
  Trace.Meets (deleteEvent c) (fun s event => ∀ interrupted, event = .resume interrupted →
    s.ResumesInRange c interrupted) s events

/-- An entry at which the loop can go on: it does not begin before the range, and the hint is
the header or an entry before it. -/
structure LoopEntry (c : DeleteCall) (m : VmMap) (p : ℕ) (l1 : List VmMapEntry) (e : VmMapEntry)
    (l2 : List VmMapEntry) : Prop extends m.At p l1 e l2 where
  start : c.start ≤ e.vmeStart
  hint : ∀ q, m.hint = some q → q ∈ l1.map (·.addr)

/-- What holds where the call is. -/
def DeletePc.Inv (c : DeleteCall) (m : VmMap) : DeletePc → Prop
  | .loop none => True
  | .loop (some p) => ∃ l1 e l2, LoopEntry c m p l1 e l2
  | .retry none => False
  | .retry (some p) => ∃ l1 e l2, LoopEntry c m p l1 e l2 ∧ e.vmeEnd ≤ c.endAddr
  | .unwiring p a b =>
    ∃ e, m.find p = some e ∧ a ≤ e.vmeStart ∧ e.vmeEnd ≤ b ∧ c.start ≤ a ∧ b ≤ c.endAddr
  | .waiting _ => True
  | .returned _ => True

/-- **The invariant of a call of `vm_map_delete`.** -/
structure DeleteInv (c : DeleteCall) (s : DeleteState) : Prop where
  wf : s.map.Wf
  unlinked : ∀ e ∈ s.unlinked, c.start ≤ e.vmeStart ∧ e.vmeEnd ≤ c.endAddr
  header : s.header = false
  pc : s.pc.Inv c s.map

variable {c : DeleteCall} {s s' : DeleteState} {m : VmMap} {p : ℕ} {l1 l2 : List VmMapEntry}
  {e : VmMapEntry}

theorem mem_of_getLast (hq : l1.getLast?.map (·.addr) = some p) : p ∈ l1.map (·.addr) := by
  obtain ⟨x, hx, rfl⟩ := map_eq_some_iff.mp hq
  exact mem_map_of_mem (List.mem_of_getLast? hx)

theorem VmMap.At.saveHint (h : m.At p l1 e l2) (hint : Option ℕ) :
    (m.saveHint hint).At p l1 e l2 := { h with }

theorem VmMap.Wf.savePrev (h : m.Wf) (hat : m.At p l1 e l2) (hstart : c.start ≤ e.vmeStart) :
    (m.saveHint (m.prevOf p)).Wf ∧ LoopEntry c (m.saveHint (m.prevOf p)) p l1 e l2 := by
  have hprev : ∀ q, m.prevOf p = some q → q ∈ l1.map (·.addr) := by
    rw [hat.prev_eq]
    exact fun q hq => mem_of_getLast hq
  refine ⟨h.saveHint fun q hq => ?_, hat.saveHint _, hstart, hprev⟩
  rw [hat.entries, map_append]
  exact mem_append_left _ (hprev q hq)

theorem LoopEntry.mapEntries (h : LoopEntry c m p l1 e l2) {f : VmMapEntry → VmMapEntry}
    (hf : ∀ x, (f x).addr = x.addr ∧ (f x).vmeStart = x.vmeStart ∧ (f x).vmeEnd = x.vmeEnd) :
    LoopEntry c { m with entries := m.entries.map f } p (l1.map f) (f e) (l2.map f) := by
  refine ⟨h.toAt.mapEntries fun x => (hf x).1, ?_, fun q hq => ?_⟩
  · rw [(hf e).2.1]
    exact h.start
  · have haddr : (l1.map f).map (·.addr) = l1.map (·.addr) := by
      rw [List.map_map]
      exact List.map_congr_left fun x _ => (hf x).1
    rw [haddr]
    exact h.hint q hq

theorem modifyEntry_fields {g : VmMapEntry → VmMapEntry}
    (hg : ∀ x, (g x).addr = x.addr ∧ (g x).vmeStart = x.vmeStart ∧ (g x).vmeEnd = x.vmeEnd)
    (x : VmMapEntry) :
    (if x.addr = p then g x else x).addr = x.addr ∧
      (if x.addr = p then g x else x).vmeStart = x.vmeStart ∧
      (if x.addr = p then g x else x).vmeEnd = x.vmeEnd := by
  split
  · exact hg x
  · exact ⟨rfl, rfl, rfl⟩

theorem DeleteInv.start (c : DeleteCall) (h : m.Wf) : DeleteInv c (deleteStart c m) := by
  obtain ⟨found, m', l1, l2, heq, hframe, hwf, hcut, -, hle, hfound, hmiss⟩ :=
    VmMap.entryFrom_spec h c.start
  have hcut' : m'.entries = l1 ++ l2 := by
    rw [hframe]
    exact hcut
  cases found with
  | true =>
    obtain ⟨e, l3, rfl, hstart, hend⟩ := hfound rfl
    obtain ⟨hwf1, l1', e', hat, hs, -⟩ := hwf.clipStart (hwf.at_of_entries hcut') hend
    obtain ⟨hwf2, hloop⟩ := hwf1.savePrev hat (c := c) (by omega)
    unfold deleteStart
    rw [heq]
    exact ⟨hwf2, by simp, rfl, l1', e', l3, hloop⟩
  | false =>
    obtain ⟨hhint, hafter⟩ := hmiss rfl
    have hd : deleteStart c m = { map := m', pc := .loop (l2.head?.map (·.addr))
                                  lastTimestamp := 2 ^ 32 - 1, needWakeup := false, unlinked := []
                                  header := false } := by
      unfold deleteStart
      rw [heq]
    rw [hd]
    refine ⟨hwf, by simp, rfl, ?_⟩
    cases l2 with
    | nil => trivial
    | cons e l3 =>
      refine ⟨l1, e, l3, hwf.at_of_entries hcut', (hafter e rfl).le, fun q hq => ?_⟩
      rw [hhint] at hq
      exact mem_of_getLast hq

/-- **A step with the map locked keeps the invariant.** -/
theorem DeleteInv.step (h : DeleteInv c s) (hs : deleteStep c s = some s') : DeleteInv c s' := by
  have hpc := h.pc
  unfold deleteStep at hs
  split at hs
  · cases hs
    exact ⟨h.wf, h.unlinked, h.header, trivial⟩
  · -- at the test of the loop
    next p heq =>
    rw [heq] at hpc
    obtain ⟨l1, e, l2, hloop⟩ := hpc
    rw [hloop.find_eq] at hs
    dsimp only at hs
    split at hs
    · next hlt =>
      cases hs
      obtain ⟨hwf, hhint, e', l2', hat, hstart, hend⟩ := h.wf.clipEnd hloop.toAt hlt
      refine ⟨hwf, h.unlinked, h.header, l1, e', l2', ⟨hat, ?_, ?_⟩, ?_⟩
      · rw [hstart]
        exact hloop.start
      · rw [hhint]
        exact hloop.hint
      · rw [hend]
        exact Nat.min_le_right _ _
    · cases hs
      exact ⟨h.wf, h.unlinked, h.header, trivial⟩
  · next heq =>
    rw [heq] at hpc
    exact hpc.elim
  · -- at retry_entry
    next p heq =>
    rw [heq] at hpc
    obtain ⟨l1, e, l2, hloop, hend⟩ := hpc
    rw [hloop.find_eq] at hs
    dsimp only at hs
    have hmap : ∀ {g : VmMapEntry → VmMapEntry} {m : VmMap}, m.Wf →
        (∀ x, (g x).addr = x.addr ∧ (g x).vmeStart = x.vmeStart ∧ (g x).vmeEnd = x.vmeEnd) →
        (m.modifyEntry p g).Wf := fun hwf hg => hwf.mapEntries (modifyEntry_fields hg)
    split at hs
    · cases hs
      exact ⟨hmap h.wf fun _ => ⟨rfl, rfl, rfl⟩, h.unlinked, h.header, trivial⟩
    split at hs
    · generalize (if c.kunwire = true ∨ 0 < e.userWiredCount then e.wiredCount - 1
        else e.wiredCount) = wired at hs
      split at hs
      · split at hs
        · cases hs
          exact ⟨hmap (hmap h.wf fun _ => ⟨rfl, rfl, rfl⟩) fun _ => ⟨rfl, rfl, rfl⟩, h.unlinked,
            h.header, trivial⟩
        · cases hs
          exact ⟨hmap h.wf fun _ => ⟨rfl, rfl, rfl⟩, h.unlinked, h.header, trivial⟩
      cases hs
      have hat := (hloop.mapEntries (modifyEntry_fields (p := p)
        (g := fun x : VmMapEntry => { x with wiredCount := wired, userWiredCount := 0 })
        fun _ => ⟨rfl, rfl, rfl⟩)).mapEntries
        (modifyEntry_fields (p := p) (g := fun x : VmMapEntry => { x with inTransition := true })
          fun _ => ⟨rfl, rfl, rfl⟩)
      refine ⟨hmap (hmap h.wf fun _ => ⟨rfl, rfl, rfl⟩) fun _ => ⟨rfl, rfl, rfl⟩, h.unlinked,
        h.header, _, hat.find_eq, ?_, ?_, hloop.start, hend⟩
      · simp [hloop.addr]
      · simp [hloop.addr]
    · -- the entry is unlinked
      cases hs
      have hne : s.map.hint ≠ some p := by
        intro hc
        obtain ⟨x, hx, hxp⟩ := mem_map.mp (hloop.hint p hc)
        exact hloop.before x hx hxp
      have hwf := h.wf.unlink hne
      refine ⟨hwf, fun x hx => ?_, h.header, ?_⟩
      · rcases mem_append.mp hx with hx | hx
        · exact h.unlinked x hx
        · rw [mem_singleton.mp hx]
          exact ⟨hloop.start, hend⟩
      · dsimp only
        rw [hloop.next_eq]
        cases l2 with
        | nil => trivial
        | cons e2 l3 =>
          refine ⟨l1, e2, l3, hwf.at_of_entries hloop.unlink_eq, ?_, hloop.hint⟩
          have hsorted := h.wf.sorted
          have hnonempty := h.wf.nonempty e hloop.mem
          rw [hloop.entries] at hsorted
          have hle : e.vmeEnd ≤ e2.vmeStart :=
            (pairwise_cons.mp (pairwise_append.mp hsorted).2.1).1 e2 mem_cons_self
          have := hloop.start
          omega
  · cases hs

theorem VmMap.Wf.lock (h : m.Wf) : m.lock.Wf :=
  { h with }

theorem clearTransition_eq (m : VmMap) (first : Option ℕ) (tmpEnd : ℕ) :
    ∃ f : VmMapEntry → VmMapEntry,
      (∀ x, (f x).addr = x.addr ∧ (f x).vmeStart = x.vmeStart ∧ (f x).vmeEnd = x.vmeEnd) ∧
      (clearTransition m first tmpEnd).1 = { m with entries := m.entries.map f } := by
  refine ⟨_, fun x => ?_, rfl⟩
  split <;> exact ⟨rfl, rfl, rfl⟩

theorem VmMap.Wf.firstAfter_start (h : m.Wf) (hat : m.At p l1 e l2) :
    m.firstAfter e.vmeStart = some e := by
  have hne := h.nonempty e hat.mem
  rw [VmMap.firstAfter, hat.entries, dropWhile_append_of_pos, dropWhile_cons_of_neg,
    List.head?_cons]
  · simpa using hne
  · intro x hx
    have hs := h.sorted
    rw [hat.entries] at hs
    exact decide_eq_true ((pairwise_append.mp hs).2.2 x hx e mem_cons_self)

theorem waitResume_spec (h : m.Wf) {a : ℕ} (hfirst : m.firstAfter a = some e)
    (hstart : c.start ≤ e.vmeStart) :
    ∃ m' l1 l2, waitResume m a = (some e.addr, m') ∧ m'.Wf ∧ LoopEntry c m' e.addr l1 e l2 := by
  obtain ⟨found, m', l1, l2, hfrom, hframe, hwf, hcut, hafter, -, -, hmiss⟩ :=
    VmMap.entryFrom_spec h a
  have hhead : l2.head? = some e := hafter.symm.trans hfirst
  obtain ⟨l3, rfl⟩ : ∃ l3, l2 = e :: l3 := by
    cases l2 with
    | nil => cases hhead
    | cons x l3 => exact ⟨l3, by rw [some.inj hhead]⟩
  have hat : m'.At e.addr l1 e l3 := hwf.at_of_entries (by
    rw [hframe]
    exact hcut)
  unfold waitResume
  rw [hfrom]
  cases found with
  | true =>
    obtain ⟨hwf', hloop⟩ := hwf.savePrev hat hstart
    exact ⟨_, l1, l3, rfl, hwf', hloop⟩
  | false =>
    refine ⟨m', l1, l3, rfl, hwf, hat, hstart, fun q hq => ?_⟩
    rw [(hmiss rfl).1] at hq
    exact mem_of_getLast hq

theorem unwireResume_spec (h : m.Wf) (hat : m.At p l1 e l2) (hstart : c.start ≤ e.vmeStart)
    (changed : Bool) :
    ∃ m', unwireResume m p e.vmeStart changed = (some p, m') ∧ m'.Wf ∧
      LoopEntry c m' p l1 e l2 := by
  unfold unwireResume
  cases changed with
  | false =>
    obtain ⟨hwf', hloop⟩ := h.savePrev hat hstart
    exact ⟨_, rfl, hwf', hloop⟩
  | true =>
    obtain ⟨found, m', k1, k2, hfrom, hframe, hwf, -, hafter, -, -, hmiss⟩ :=
      VmMap.entryFrom_spec h e.vmeStart
    have hhead : k2.head? = some e := hafter.symm.trans (h.firstAfter_start hat)
    have hfound : found = true := by
      by_contra hc
      exact lt_irrefl _ ((hmiss (by simpa using hc)).2 e hhead)
    have hat' : m'.At p l1 e l2 := by
      rw [hframe]
      exact hat.saveHint _
    obtain ⟨hwf', hloop⟩ := hwf.savePrev hat' hstart
    refine ⟨_, ?_, hwf', hloop⟩
    rw [hfrom, hfound, hhead, map_some, hat.addr]
    rfl

/-- **Taking the lock back keeps the invariant**, when it is in range. -/
theorem DeleteInv.resume (h : DeleteInv c s) {interrupted : Bool}
    (hrange : s.ResumesInRange c interrupted)
    (hs : deleteResume c s interrupted = some s') : DeleteInv c s' := by
  have hpc := h.pc
  unfold DeleteState.ResumesInRange at hrange
  unfold deleteResume at hs
  dsimp only at hs
  split at hs
  · -- after a wait
    next a heq =>
    rw [heq] at hrange
    split at hs
    · cases hs
      exact ⟨h.wf, h.unlinked, h.header, trivial⟩
    next hint =>
    obtain ⟨e, hfirst, hstart, hend⟩ := hrange.resolve_left hint
    obtain ⟨m', l1, l2, hr, hwf, hloop⟩ := waitResume_spec h.wf.lock hfirst hstart
    rw [hr] at hs
    cases hs
    exact ⟨hwf, h.unlinked, h.header, l1, e, l2, hloop, hend⟩
  · -- after an unwiring
    next p a b heq =>
    rw [heq] at hpc hrange
    obtain ⟨x, hfind, -, hxend, hca, hbc⟩ := hpc
    obtain ⟨x', hfind', rfl⟩ := hrange
    obtain rfl := some.inj (hfind.symm.trans hfind')
    obtain ⟨l1, e, l2, hat⟩ := h.wf.exists_at (p := p) (by
      have haddr : x.addr = p := by simpa using List.find?_some hfind
      exact haddr ▸ mem_map_of_mem (mem_of_find?_eq_some hfind))
    obtain rfl := some.inj (hat.find_eq.symm.trans hfind)
    have hatl : s.map.lock.At p l1 e l2 := { hat with }
    obtain ⟨m', hr, hwf', hloop⟩ := unwireResume_spec h.wf.lock hatl hca
      (decide ((s.lastTimestamp + 1) % 2 ^ 32 ≠ s.map.lock.timestamp))
    obtain ⟨f, hf, hclear⟩ := clearTransition_eq m' (some p) b
    rw [hr] at hs
    cases hs
    dsimp only
    rw [hclear]
    refine ⟨hwf'.mapEntries hf, h.unlinked, h.header, _, _, _, hloop.mapEntries hf, ?_⟩
    rw [(hf e).2.2]
    omega
  · cases hs

theorem DeleteInv.others (h : DeleteInv c s) (hwf : m.Wf) (hallows : s.pc.Allows m) :
    DeleteInv c { s with map := m } := by
  refine ⟨hwf, h.unlinked, h.header, ?_⟩
  have hpc := h.pc
  show s.pc.Inv c m
  cases heq : s.pc with
  | waiting a => trivial
  | unwiring p a b =>
    rw [heq] at hpc hallows
    obtain ⟨-, -, -, -, hca, hbc⟩ := hpc
    simp only [DeletePc.Allows] at hallows
    cases he : m.find p with
    | none =>
      rw [he] at hallows
      cases hallows
    | some e =>
      rw [he, any_some, Bool.and_eq_true, decide_eq_true_eq] at hallows
      exact ⟨e, he, hallows.1.1, hallows.1.2, hca, hbc⟩
  | _ =>
    rw [heq] at hallows
    exact hallows.elim

/-- **The invariant holds throughout a run** whose resumptions are in range. -/
theorem DeleteInv.run (h : DeleteInv c s) {events : List DeleteEvent}
    (hrange : ResumptionsInRange c s events) (hs : deleteRun c s events = some s') :
    DeleteInv c s' := by
  refine Trace.invariant (fun s event s1 h hin h1 => ?_) events s s' h hrange hs
  cases event with
  | step => exact h.step h1
  | resume interrupted => exact h.resume (hin interrupted rfl) h1
  | others m =>
    obtain ⟨hm, rfl⟩ := Trace.of_guard h1
    exact h.others hm.1 hm.2

/-- **Deletion touches only its range**, in a run whose resumptions are in range: the entries
the call unlinks are in its range, it does not use the header as an entry, and the hint is the
header or linked. -/
theorem delete_in_range (hwf : m.Wf) {events : List DeleteEvent}
    (hrange : ResumptionsInRange c (deleteStart c m) events)
    (hs : deleteRun c (deleteStart c m) events = some s) :
    (∀ e ∈ s.unlinked, c.start ≤ e.vmeStart ∧ e.vmeEnd ≤ c.endAddr) ∧ s.header = false ∧
      ∀ p, s.map.hint = some p → p ∈ s.map.entries.map (·.addr) := by
  have h := (DeleteInv.start c hwf).run hrange hs
  exact ⟨h.unlinked, h.header, h.wf.hint⟩

/-- An entry of two pages in transition, and one further up. -/
def busyMap (busy : Bool) : VmMap :=
  { entries := [{ addr := 1, vmeStart := 0x1000, vmeEnd := 0x3000, inTransition := busy,
                  needsWakeup := false, wiredCount := 0, userWiredCount := 0 },
                { addr := 2, vmeStart := 0x5000, vmeEnd := 0x6000, inTransition := false,
                  needsWakeup := false, wiredCount := 0, userWiredCount := 0 }]
    hint := some 1, timestamp := 0, fresh := 3 }

/-- A call that may wait, for the two pages. -/
def busyCall : DeleteCall :=
  { start := 0x1000, endAddr := 0x3000, kunwire := false, interruptible := false
    waitForKwire := false }

/-- The call waits, the entry leaves its transition, and the call goes on. -/
def busyEvents : List DeleteEvent :=
  [.step, .step, .others (busyMap false), .resume false, .step, .step]

theorem busyEvents_inRange :
    ResumptionsInRange busyCall (deleteStart busyCall (busyMap true)) busyEvents := by
  refine ⟨nofun, fun s1 h1 => ⟨nofun, fun s2 h2 => ⟨nofun, fun s3 h3 => ?_⟩⟩⟩
  cases h1
  cases h2
  cases h3
  refine ⟨fun _ _ => .inr ⟨_, rfl, ?_⟩, fun s4 _ => ⟨nofun, fun s5 _ => ⟨nofun, fun _ _ => trivial⟩⟩⟩
  decide

/-- The entry waited for is deleted, and no other. -/
theorem delete_in_range_busy :
    ∃ s, deleteRun busyCall (deleteStart busyCall (busyMap true)) busyEvents = some s ∧
      s.unlinked.map (·.addr) = [1] ∧
      ∀ e ∈ s.unlinked, busyCall.start ≤ e.vmeStart ∧ e.vmeEnd ≤ busyCall.endAddr :=
  ⟨_, rfl, rfl, (delete_in_range (by decide) busyEvents_inRange rfl).1⟩

/-- **A call that resumes after a wait deletes outside its range**: the entry waited for is gone,
and the lookup finds one that begins after the range. -/
theorem delete_beyond_range : (busyMap true).Wf ∧
    (deleteRun busyCall (deleteStart busyCall (busyMap true)) [.step, .step,
        .others { busyMap false with entries := (busyMap false).entries.drop 1, hint := none },
        .resume false, .step]).map (fun s => s.unlinked.map (·.vmeStart)) = some [0x5000] := by
  decide

end Osfmk

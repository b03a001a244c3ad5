import Osfmk.Lib.Census
import Osfmk.Lib.Trace

/-!
# Read/write locks

The complex locks of `kern/lock.c`: any number of readers or one writer, and a reader can become the
writer.  A step is a section under the interlock, or a call of `thread_wakeup` after one.  Sleeping
is one step with the release of the interlock that comes before it.
-/

set_option linter.unusedSectionVars false

open Function (update update_of_ne update_self)

namespace Osfmk

open Census

/-- Where a thread is in the routines of the lock; in a loop, whether it sleeps. -/
inductive LockPc
  | idle
  | read (asleep : Bool)
  | write1 (asleep : Bool)
  | write2 (asleep : Bool)
  | upgrade (asleep : Bool)
  | waking
  deriving DecidableEq

/-- A thread sleeps on the lock. -/
def LockPc.asleep : LockPc → Bool
  | .read b | .write1 b | .write2 b | .upgrade b => b
  | _ => false

/-- A sleeper that is woken evaluates the condition of its loop again. -/
def LockPc.wake : LockPc → LockPc
  | .read _ => .read false
  | .write1 _ => .write1 false
  | .write2 _ => .write2 false
  | .upgrade _ => .upgrade false
  | pc => pc

/-- A thread in the loop has `want_upgrade`. -/
def LockPc.upgrading : LockPc → Bool
  | .upgrade _ => true
  | _ => false

/-- A thread in the loop has `want_write`. -/
def LockPc.writing : LockPc → Bool
  | .write2 _ => true
  | _ => false

/-- How a thread holds the lock for writing. -/
inductive WriteHold
  | none
  | writer
  | upgraded
  deriving DecidableEq

/-- `lock_t`, and the threads. -/
structure RwLock (T : Type) where
  readCount : ℕ
  wantUpgrade : Bool
  wantWrite : Bool
  waiting : Bool
  canSleep : Bool
  pc : T → LockPc
  reads : T → ℕ
  hold : T → WriteHold
  /-- Since the thread last began to hold the lock for reading, another one has held it for
  writing. -/
  overtaken : T → Bool

namespace RwLock

variable {T : Type} [DecidableEq T]

def lockInit (canSleep : Bool) : RwLock T where
  readCount := 0
  wantUpgrade := false
  wantWrite := false
  waiting := false
  canSleep := canSleep
  pc _ := .idle
  reads _ := 0
  hold _ := .none
  overtaken _ := false

def goto (s : RwLock T) (t : T) (pc : LockPc) : RwLock T :=
  { s with pc := update s.pc t pc }

/-- `l->read_count++`, for a thread. -/
def addRead (s : RwLock T) (t : T) : RwLock T :=
  { s with
    readCount := (s.readCount + 1) % 2 ^ 16
    reads := update s.reads t (s.reads t + 1)
    overtaken := if s.reads t = 0 then update s.overtaken t false else s.overtaken }

/-- A decrement in 16 bits. -/
def decShort (n : ℕ) : ℕ := if n = 0 then 2 ^ 16 - 1 else n - 1

/-- `l->read_count--`, for a thread. -/
def dropRead (s : RwLock T) (t : T) : RwLock T :=
  { s with
    readCount := decShort s.readCount
    reads := update s.reads t (s.reads t - 1) }

/-- The condition of a loop is not met: the thread sleeps, or releases the interlock and tries
again. -/
def sleepOrSpin (spin : Bool) (s : RwLock T) (t : T) (pc : Bool → LockPc) : RwLock T :=
  if s.canSleep = true ∧ spin = false then { s with waiting := true }.goto t (pc true)
  else s.goto t (pc false)

/-- A thread holds the lock for writing from now on. -/
def acquire (s : RwLock T) (t : T) (hold : WriteHold) : RwLock T :=
  { s with
    hold := update s.hold t hold
    overtaken := fun u => if u = t then s.overtaken u else true }.goto t .idle

/-- The thread calls `thread_wakeup` when someone sleeps. -/
def wakeWaiting (s : RwLock T) (t : T) : RwLock T :=
  if s.waiting then { s with waiting := false }.goto t .waking else s

/-- A writer has got one of the two bits. -/
def clearWant (s : RwLock T) : RwLock T :=
  if s.wantUpgrade then { s with wantUpgrade := false } else { s with wantWrite := false }

/-- The loop of `lock_read`. -/
def readLoop (spin : Bool) (s : RwLock T) (t : T) : RwLock T :=
  if s.wantWrite = true ∨ s.wantUpgrade = true then sleepOrSpin spin s t .read
  else (s.addRead t).goto t .idle

/-- The second loop of `lock_write`. -/
def write2Loop (spin : Bool) (s : RwLock T) (t : T) : RwLock T :=
  if s.readCount ≠ 0 ∨ s.wantUpgrade = true then sleepOrSpin spin s t .write2
  else s.acquire t .writer

/-- The first loop of `lock_write`. -/
def write1Loop (spin : Bool) (s : RwLock T) (t : T) : RwLock T :=
  if s.wantWrite then sleepOrSpin spin s t .write1
  else write2Loop spin ({ s with wantWrite := true }.goto t (.write2 false)) t

/-- The loop of `lock_read_to_write`. -/
def upgradeLoop (spin : Bool) (s : RwLock T) (t : T) : RwLock T :=
  if s.readCount ≠ 0 then sleepOrSpin spin s t .upgrade else s.acquire t .upgraded

/-- `lock_read_to_write`; when it returns `FALSE`, the thread holds the lock for writing. -/
def lockReadToWrite (spin : Bool) (s : RwLock T) (t : T) : RwLock T :=
  let s := s.dropRead t
  if s.wantUpgrade then
    -- the upgrade fails, and the lock is not held any more
    if s.readCount = 0 then s.wakeWaiting t else s
  else upgradeLoop spin ({ s with wantUpgrade := true }.goto t (.upgrade false)) t

def lockWriteToRead (s : RwLock T) (t : T) : RwLock T :=
  let s := { s.addRead t with hold := update s.hold t .none }
  s.clearWant.wakeWaiting t

/-- What the caller of `lock_done` means to give up. -/
def giveUp (s : RwLock T) (t : T) : RwLock T :=
  if s.hold t = .none then { s with reads := update s.reads t (s.reads t - 1) }
  else { s with hold := update s.hold t .none }

def lockDone (s : RwLock T) (t : T) : RwLock T :=
  let s := s.giveUp t
  let s :=
    if s.readCount ≠ 0 then { s with readCount := decShort s.readCount }
    else s.clearWant
  if s.readCount = 0 then s.wakeWaiting t else s

def threadWakeup (s : RwLock T) : RwLock T := { s with pc := fun u => (s.pc u).wake }

/-- What can happen next. -/
inductive Act (T : Type)
  | lockRead (t : T) (spin : Bool)
  | lockWrite (t : T) (spin : Bool)
  | lockReadToWrite (t : T) (spin : Bool)
  | lockWriteToRead (t : T)
  | lockDone (t : T)
  | again (t : T) (spin : Bool)
  | wakeup (t : T)

/-- A thread in a loop, which does not sleep. -/
def again (spin : Bool) (s : RwLock T) (t : T) : Option (RwLock T) :=
  match s.pc t with
  | .read false => some (readLoop spin s t)
  | .write1 false => some (write1Loop spin s t)
  | .write2 false => some (write2Loop spin s t)
  | .upgrade false => some (upgradeLoop spin s t)
  | _ => none

/-- A step, if it is possible: routines are called by threads that hold the lock as they have to. -/
def step (s : RwLock T) : Act T → Option (RwLock T)
  | .lockRead t spin =>
    if s.pc t = .idle then some (readLoop spin (s.goto t (.read false)) t) else none
  | .lockWrite t spin =>
    if s.pc t = .idle then some (write1Loop spin (s.goto t (.write1 false)) t) else none
  | .lockReadToWrite t spin =>
    if s.pc t = .idle ∧ 0 < s.reads t then some (lockReadToWrite spin s t) else none
  | .lockWriteToRead t =>
    if s.pc t = .idle ∧ s.hold t ≠ .none then some (lockWriteToRead s t) else none
  | .lockDone t =>
    if s.pc t = .idle ∧ (s.hold t ≠ .none ∨ 0 < s.reads t) then some (lockDone s t) else none
  | .again t spin => again spin s t
  | .wakeup t => if s.pc t = .waking then some ((threadWakeup s).goto t .idle) else none

/-- The condition that a thread waits for is satisfied. -/
def mayGo (s : RwLock T) : LockPc → Bool
  | .read _ => !s.wantWrite && !s.wantUpgrade
  | .write1 _ => !s.wantWrite
  | .write2 _ => s.readCount == 0 && !s.wantUpgrade
  | .upgrade _ => s.readCount == 0
  | _ => true

/-- At most one thread holds the lock for writing, and then nobody for reading; and nobody has held
it for writing between the read hold of a thread and its upgrade. -/
structure Exclusive (s : RwLock T) : Prop where
  one : ∀ t u, s.hold t ≠ .none → s.hold u ≠ .none → t = u
  alone : ∀ t u, s.hold t ≠ .none → s.reads u = 0
  upgraded : ∀ t, s.hold t = .upgraded → s.overtaken t = false

/-- A sleeper that could go on is about to be woken; any other has set `waiting`, unless it is about
to be woken too. -/
def WakeupDue (s : RwLock T) : Prop :=
  ∀ t, (s.pc t).asleep = true →
    (∃ u, s.pc u = .waking) ∨ s.waiting = true ∧ s.mayGo (s.pc t) = false

/-- A thread has `want_upgrade`. -/
def upgrader (s : RwLock T) (t : T) : Bool :=
  s.hold t == .upgraded || (s.pc t).upgrading

/-- A thread has `want_write`. -/
def writer (s : RwLock T) (t : T) : Bool :=
  s.hold t == .writer || (s.pc t).writing

variable [Fintype T]

/-- The fields of the lock count the threads. -/
structure Inv (s : RwLock T) : Prop where
  readers : (s.readCount : ℤ) = total s.reads
  small : s.readCount < 2 ^ 16
  upgraders : tally s.upgrader = ind s.wantUpgrade
  writers : tally s.writer = ind s.wantWrite
  writerAlone : ∀ t, s.hold t = .writer → s.readCount = 0 ∧ s.wantUpgrade = false
  upgradedAlone : ∀ t, s.hold t = .upgraded → s.readCount = 0
  fresh : ∀ t, 0 < s.reads t ∨ s.upgrader t = true → s.overtaken t = false
  wakeup : WakeupDue s

variable {s s' : RwLock T} {t : T}

theorem others_update {β : Type*} (f : T → β) (b : β) (u : T) (h : u ≠ t) :
    update f t b u = f u :=
  update_of_ne h ..

/-- The counts follow what one thread reads and holds. -/
structure Follows (s s' : RwLock T) (t : T) : Prop where
  reads : ∀ u, u ≠ t → s'.reads u = s.reads u
  hold : ∀ u, u ≠ t → s'.hold u = s.hold u
  count : (s'.readCount : ℤ) - s'.reads t = s.readCount - s.reads t
  small : s'.readCount < 2 ^ 16
  upgraders : ind s'.wantUpgrade - ind (s'.upgrader t) = ind s.wantUpgrade - ind (s.upgrader t)
  writers : ind s'.wantWrite - ind (s'.writer t) = ind s.wantWrite - ind (s.writer t)
  writerAlone : ∀ u, s'.hold u = .writer → s'.readCount = 0 ∧ s'.wantUpgrade = false
  upgradedAlone : ∀ u, s'.hold u = .upgraded → s'.readCount = 0
  fresh : 0 < s'.reads t ∨ s'.upgrader t = true → s'.overtaken t = false

theorem Inv.change (h : Inv s) (hpc : ∀ u, u ≠ t → s'.pc u = s.pc u) (hs : Follows s s' t)
    (hf : ∀ u, u ≠ t → s'.overtaken u = s.overtaken u ∨ s.reads u = 0 ∧ s.upgrader u = false)
    (ht : s.pc t ≠ .waking)
    (hself : (s'.pc t).asleep = true → s'.waiting = true ∧ s'.mayGo (s'.pc t) = false)
    (hkeep : ∀ u, u ≠ t → (s.pc u).asleep = true → s.waiting = true → s.mayGo (s.pc u) = false →
      s'.pc t = .waking ∨ s'.waiting = true ∧ s'.mayGo (s.pc u) = false) : Inv s' := by
  have hup : ∀ u, u ≠ t → s'.upgrader u = s.upgrader u := fun u hu => by
    simp only [upgrader, hpc u hu, hs.hold u hu]
  have hwp : ∀ u, u ≠ t → s'.writer u = s.writer u := fun u hu => by
    simp only [writer, hpc u hu, hs.hold u hu]
  refine ⟨?_, hs.small, ?_, ?_, hs.writerAlone, hs.upgradedAlone, ?_, ?_⟩
  · rw [total_change hs.reads, ← h.readers]
    have := hs.count
    omega
  · rw [tally_change hup, h.upgraders]
    have := hs.upgraders
    omega
  · rw [tally_change hwp, h.writers]
    have := hs.writers
    omega
  · intro u hu
    by_cases hut : u = t
    · subst hut
      exact hs.fresh hu
    rw [hs.reads u hut, hup u hut] at hu
    rcases hf u hut with hsame | ⟨hr, hno⟩
    · rw [hsame]
      exact h.fresh u hu
    · rw [hr, hno] at hu
      rcases hu with hu | hu <;> cases hu
  · intro u hu
    by_cases hut : u = t
    · subst hut
      exact .inr (hself hu)
    rw [hpc u hut] at hu ⊢
    rcases h.wakeup u hu with ⟨v, hv⟩ | ⟨hw, hgo⟩
    · -- the thread that is about to wake the others is not the one that steps
      have hvt : v ≠ t := fun e => ht (e ▸ hv)
      exact .inl ⟨v, (hpc v hvt).trans hv⟩
    · exact (hkeep u hut hu hw hgo).imp_left fun hk => ⟨t, hk⟩

theorem writer_of_hold (hold : s.hold t = .writer) : s.writer t = true := by
  simp only [writer, hold, beq_self_eq_true, Bool.true_or]

theorem upgrader_of_hold (hold : s.hold t = .upgraded) : s.upgrader t = true := by
  simp only [upgrader, hold, beq_self_eq_true, Bool.true_or]

section

variable (h : Inv s)
include h

theorem Inv.no_writer (hw : s.wantWrite = false) (u : T) : s.writer u = false :=
  eq_false_of_tally (by rw [h.writers, hw, ind_false]) u

theorem Inv.no_upgrader (hu : s.wantUpgrade = false) (u : T) : s.upgrader u = false :=
  eq_false_of_tally (by rw [h.upgraders, hu, ind_false]) u

theorem Inv.hold_ne_writer (hw : s.wantWrite = false) (u : T) : s.hold u ≠ .writer := fun hold => by
  have hno := h.no_writer hw u
  rw [writer_of_hold hold] at hno
  cases hno

theorem Inv.hold_ne_upgraded (hu : s.wantUpgrade = false) (u : T) :
    s.hold u ≠ .upgraded := fun hold => by
  have hno := h.no_upgrader hu u
  rw [upgrader_of_hold hold] at hno
  cases hno

theorem Inv.no_reader (hr : s.readCount = 0) (u : T) : s.reads u = 0 := by
  have hle := le_total s.reads u
  rw [← h.readers, hr] at hle
  omega

theorem Inv.reads_le (u : T) : s.reads u ≤ s.readCount := by
  have hle := le_total s.reads u
  rw [← h.readers] at hle
  omega

theorem Inv.readCount_of_hold (hold : s.hold t ≠ .none) : s.readCount = 0 := by
  cases ht : s.hold t with
  | none => exact absurd ht hold
  | writer => exact (h.writerAlone t ht).1
  | upgraded => exact h.upgradedAlone t ht

theorem Inv.addRead_fresh : (s.addRead t).overtaken t = false := by
  simp only [addRead]
  split
  case isTrue => exact update_self ..
  case isFalse hr => exact h.fresh t (.inl (Nat.pos_of_ne_zero hr))

end

theorem addRead_overtaken {u : T} (hut : u ≠ t) : (s.addRead t).overtaken u = s.overtaken u := by
  simp only [addRead]
  split
  · exact update_of_ne hut ..
  · rfl

theorem Inv.one_upgrader (h : Inv s) {u v : T} (hu : s.upgrader u = true)
    (hv : s.upgrader v = true) : u = v :=
  eq_of_tally (by rw [h.upgraders]; cases s.wantUpgrade <;> decide) hu hv

theorem Inv.one_writer (h : Inv s) {u v : T} (hu : s.writer u = true) (hv : s.writer v = true) :
    u = v :=
  eq_of_tally (by rw [h.writers]; cases s.wantWrite <;> decide) hu hv

theorem Inv.exclusive (h : Inv s) : Exclusive s where
  one t u ht hu := by
    cases hold : s.hold t with
    | none => exact absurd hold ht
    | writer =>
      cases hold' : s.hold u with
      | none => exact absurd hold' hu
      | writer => exact h.one_writer (writer_of_hold hold) (writer_of_hold hold')
      | upgraded => exact absurd hold' (h.hold_ne_upgraded (h.writerAlone t hold).2 u)
    | upgraded =>
      cases hold' : s.hold u with
      | none => exact absurd hold' hu
      | writer => exact absurd hold (h.hold_ne_upgraded (h.writerAlone u hold').2 t)
      | upgraded => exact h.one_upgrader (upgrader_of_hold hold) (upgrader_of_hold hold')
  alone t u ht := h.no_reader (h.readCount_of_hold ht) u
  upgraded t ht := h.fresh t (.inr (upgrader_of_hold ht))

theorem Inv.move (h : Inv s) {pc : LockPc} {w : Bool} (hw : s.waiting = true → w = true)
    (ht : s.pc t ≠ .waking) (hup : pc.upgrading = (s.pc t).upgrading)
    (hwr : pc.writing = (s.pc t).writing)
    (hself : pc.asleep = true → w = true ∧ s.mayGo pc = false) :
    Inv ({ s with waiting := w }.goto t pc) := by
  have hupg : ({ s with waiting := w }.goto t pc).upgrader t = s.upgrader t := by
    simp only [upgrader, goto, update_self, hup]
  refine h.change (t := t) ?_ ⟨fun _ _ => rfl, fun _ _ => rfl, rfl, h.small, ?_, ?_, h.writerAlone,
    h.upgradedAlone, ?_⟩ (fun _ _ => .inl rfl) ht ?_ ?_
  · intro u hu
    exact update_of_ne hu ..
  · rw [hupg]
    rfl
  · simp only [writer, goto, update_self, hwr]
  · rw [hupg]
    exact h.fresh t
  · simp only [goto, update_self]
    exact hself
  · intro u _ _ hwait hgo
    exact .inr ⟨hw hwait, hgo⟩

theorem Inv.sleepOrSpin (h : Inv s) {pc : Bool → LockPc} (hpc : s.pc t = pc false)
    (ht : pc false ≠ .waking) (hup : ∀ b, (pc b).upgrading = (pc false).upgrading)
    (hwr : ∀ b, (pc b).writing = (pc false).writing) (hgo : ∀ b, s.mayGo (pc b) = false)
    (hawake : (pc false).asleep = false) (spin : Bool) : Inv (sleepOrSpin spin s t pc) := by
  rw [← hpc] at ht hup hwr
  rw [RwLock.sleepOrSpin]
  split
  · exact h.move (fun _ => rfl) ht (hup true) (hwr true) fun _ => ⟨rfl, hgo true⟩
  · refine h.move (w := s.waiting) id ht (hup false) (hwr false) fun hs => ?_
    rw [hawake] at hs
    cases hs

theorem mayGo_mono {pc : LockPc} (hgo : s.mayGo pc = false)
    (hw : s.wantWrite = true → s'.wantWrite = true)
    (hu : s.wantUpgrade = true → s'.wantUpgrade = true)
    (hr : s.readCount ≠ 0 → s'.readCount ≠ 0) : s'.mayGo pc = false := by
  cases pc <;> simp_all only [mayGo, Bool.and_eq_false_iff, Bool.not_eq_false', beq_eq_false_iff_ne,
    Bool.true_eq_false] <;> tauto

theorem Inv.addRead (h : Inv s) (hpc : s.pc t = .read false) (hw : s.wantWrite = false)
    (hu : s.wantUpgrade = false) (hfew : s.readCount + 1 < 2 ^ 16) :
    Inv ((s.addRead t).goto t .idle) := by
  have hcount : (s.readCount + 1) % 2 ^ 16 = s.readCount + 1 := Nat.mod_eq_of_lt hfew
  refine h.change (t := t) ?_ ⟨?_, fun _ _ => rfl, ?_, Nat.mod_lt _ (by decide), ?_, ?_, ?_, ?_, ?_⟩ ?_
    ?_ ?_ ?_
  · exact others_update _ _
  · exact others_update _ _
  · simp only [goto, RwLock.addRead, hcount, update_self]
    push_cast
    omega
  · simp only [upgrader, goto, RwLock.addRead, update_self, hpc, LockPc.upgrading]
  · simp only [writer, goto, RwLock.addRead, update_self, hpc, LockPc.writing]
  · intro u hold
    exact absurd hold (h.hold_ne_writer hw u)
  · intro u hold
    exact absurd hold (h.hold_ne_upgraded hu u)
  · intro _
    exact h.addRead_fresh
  · intro u hut
    exact .inl (addRead_overtaken hut)
  · rw [hpc]
    decide
  · simp [goto, LockPc.asleep]
  · intro u _ _ hwait hgo
    refine .inr ⟨hwait, mayGo_mono hgo id id fun _ => ?_⟩
    simp only [goto, RwLock.addRead, hcount]
    omega

theorem Inv.acquireWriter (h : Inv s) (hpc : s.pc t = .write2 false) (hr : s.readCount = 0)
    (hu : s.wantUpgrade = false) : Inv (s.acquire t .writer) := by
  refine h.change (t := t) ?_ ⟨fun _ _ => rfl, ?_, rfl, h.small, ?_, ?_, fun _ _ => ⟨hr, hu⟩,
    fun _ _ => hr, ?_⟩ ?_ ?_ ?_ ?_
  · exact others_update _ _
  · exact others_update _ _
  · rw [h.no_upgrader hu t]
    simp only [upgrader, goto, acquire, update_self, hu]
    rfl
  · simp [writer, goto, acquire, hpc, LockPc.writing]
  · intro hf
    simp [upgrader, goto, acquire, LockPc.upgrading, h.no_reader hr] at hf
  · intro u _
    exact .inr ⟨h.no_reader hr u, h.no_upgrader hu u⟩
  · rw [hpc]
    decide
  · simp [goto, acquire, LockPc.asleep]
  · intro u _ _ hwait hgo
    exact .inr ⟨hwait, hgo⟩

theorem Inv.acquireUpgraded (h : Inv s) (hpc : s.pc t = .upgrade false) (hr : s.readCount = 0) :
    Inv (s.acquire t .upgraded) := by
  have ht : s.upgrader t = true := by
    simp only [upgrader, hpc, LockPc.upgrading, Bool.or_true]
  have hold : ∀ u, s.hold u ≠ .writer := fun u hold => by
    have hno := h.no_upgrader (h.writerAlone u hold).2 t
    rw [ht] at hno
    cases hno
  refine h.change (t := t) ?_ ⟨fun _ _ => rfl, ?_, rfl, h.small, ?_, ?_, ?_, fun _ _ => hr, ?_⟩ ?_ ?_ ?_ ?_
  · exact others_update _ _
  · exact others_update _ _
  · rw [ht]
    simp [upgrader, goto, acquire]
  · simp only [writer, goto, acquire, update_self, hpc, beq_false_of_ne (hold t)]
    rfl
  · intro u hold'
    by_cases hut : u = t
    · subst hut
      simp [goto, acquire] at hold'
    · simp only [goto, acquire, update_of_ne hut] at hold'
      exact absurd hold' (hold u)
  · intro _
    simp only [goto, acquire, if_pos]
    exact h.fresh t (.inr ht)
  · intro u hut
    refine .inr ⟨h.no_reader hr u, ?_⟩
    by_contra hu
    exact hut (h.one_upgrader (Bool.not_eq_false _ |>.mp hu) ht)
  · rw [hpc]
    decide
  · simp [goto, acquire, LockPc.asleep]
  · intro u _ _ hwait hgo
    exact .inr ⟨hwait, hgo⟩

theorem Inv.wantWrite (h : Inv s) (hpc : s.pc t = .write1 false) (hw : s.wantWrite = false) :
    Inv ({ s with wantWrite := true }.goto t (.write2 false)) := by
  have hno := h.no_writer hw t
  refine h.change (t := t) ?_ ⟨fun _ _ => rfl, fun _ _ => rfl, rfl, h.small, ?_, ?_, h.writerAlone,
    h.upgradedAlone, ?_⟩ (fun _ _ => .inl rfl) ?_ ?_ ?_
  · exact others_update _ _
  · simp [upgrader, goto, hpc, LockPc.upgrading]
  · rw [hno, hw]
    simp [writer, goto, LockPc.writing]
  · have hsame : ({ s with wantWrite := true }.goto t (.write2 false)).upgrader t = s.upgrader t := by
      simp [upgrader, goto, hpc, LockPc.upgrading]
    rw [hsame]
    exact h.fresh t
  · rw [hpc]
    decide
  · simp [goto, LockPc.asleep]
  · intro u _ _ hwait hgo
    exact .inr ⟨hwait, mayGo_mono hgo (fun _ => rfl) id id⟩

section

variable (h : Inv s)
include h

theorem readLoop_inv (hpc : s.pc t = .read false) (spin : Bool)
    (hfew : total (readLoop spin s t).reads < 2 ^ 16) : Inv (readLoop spin s t) := by
  rw [readLoop] at hfew ⊢
  split at hfew
  case isTrue hc =>
    rw [if_pos hc]
    refine h.sleepOrSpin hpc nofun (fun _ => rfl) (fun _ => rfl) (fun _ => ?_) rfl spin
    rcases hc with hc | hc <;> simp only [mayGo, hc, Bool.not_true, Bool.and_false, Bool.false_and]
  case isFalse hc =>
    rw [if_neg hc]
    push Not at hc
    refine h.addRead hpc (Bool.not_eq_true _ |>.mp hc.1) (Bool.not_eq_true _ |>.mp hc.2) ?_
    have hch : total ((s.addRead t).goto t .idle).reads =
        total s.reads - s.reads t + ((s.addRead t).goto t .idle).reads t :=
      total_change fun u hut => update_of_ne hut ..
    simp only [goto, RwLock.addRead, update_self] at hch hfew
    have := h.readers
    omega

theorem write2Loop_inv (hpc : s.pc t = .write2 false) (spin : Bool) :
    Inv (write2Loop spin s t) := by
  rw [write2Loop]
  split
  case isTrue hc =>
    refine h.sleepOrSpin hpc nofun (fun _ => rfl) (fun _ => rfl) (fun _ => ?_) rfl spin
    rcases hc with hc | hc
    · simp only [mayGo, beq_false_of_ne hc, Bool.false_and]
    · simp only [mayGo, hc, Bool.not_true, Bool.and_false]
  case isFalse hc =>
    push Not at hc
    exact h.acquireWriter hpc hc.1 (Bool.not_eq_true _ |>.mp hc.2)

theorem write1Loop_inv (hpc : s.pc t = .write1 false) (spin : Bool) :
    Inv (write1Loop spin s t) := by
  rw [write1Loop]
  split
  case isTrue hc =>
    refine h.sleepOrSpin hpc nofun (fun _ => rfl) (fun _ => rfl) (fun _ => ?_) rfl spin
    simp only [mayGo, hc, Bool.not_true]
  case isFalse hc =>
    exact write2Loop_inv (h.wantWrite hpc (Bool.not_eq_true _ |>.mp hc)) (update_self ..) spin

theorem upgradeLoop_inv (hpc : s.pc t = .upgrade false) (spin : Bool) :
    Inv (upgradeLoop spin s t) := by
  rw [upgradeLoop]
  split
  case isTrue hc =>
    refine h.sleepOrSpin hpc nofun (fun _ => rfl) (fun _ => rfl) (fun _ => ?_) rfl spin
    simp only [mayGo, beq_false_of_ne hc]
  case isFalse hc => exact h.acquireUpgraded hpc (not_not.mp hc)

theorem Inv.release (ht : s.pc t = .idle) (hpc : s'.pc = s.pc)
    (hwait : s'.waiting = s.waiting) (hov : ∀ u, u ≠ t → s'.overtaken u = s.overtaken u)
    (hs : Follows s s' t) : Inv (s'.wakeWaiting t) := by
  have hne : s.pc t ≠ .waking := by
    rw [ht]
    decide
  rw [wakeWaiting]
  split
  case isTrue hw =>
    have hup : ({ s' with waiting := false }.goto t .waking).upgrader t = s'.upgrader t := by
      simp only [upgrader, goto, update_self, hpc, ht]
      rfl
    have hwp : ({ s' with waiting := false }.goto t .waking).writer t = s'.writer t := by
      simp only [writer, goto, update_self, hpc, ht]
      rfl
    refine h.change (t := t) ?_ ⟨hs.reads, hs.hold, hs.count, hs.small, ?_, ?_, hs.writerAlone,
      hs.upgradedAlone, ?_⟩ (fun u hu => .inl (hov u hu)) hne ?_ ?_
    · intro u hu
      simp only [goto, update_of_ne hu, hpc]
    · rw [hup]
      exact hs.upgraders
    · rw [hwp]
      exact hs.writers
    · rw [hup]
      exact hs.fresh
    · simp [goto, LockPc.asleep]
    · intro u _ _ _ _
      exact .inl (update_self ..)
  case isFalse hw =>
    refine h.change (t := t) (fun u _ => by rw [hpc]) hs (fun u hu => .inl (hov u hu)) hne ?_ ?_
    · intro ha
      rw [hpc, ht] at ha
      cases ha
    · intro u _ _ hwaiting _
      exact absurd (hwait.trans hwaiting) hw

section

variable (hr : 0 < s.reads t)
include hr

theorem Inv.dropRead_readCount : (s.dropRead t).readCount = s.readCount - 1 ∧ 0 < s.readCount := by
  have hle := h.reads_le t
  exact ⟨if_neg (by omega), by omega⟩

theorem Inv.dropRead_small : (s.dropRead t).readCount < 2 ^ 16 := by
  have hlt := h.small
  rw [(h.dropRead_readCount hr).1]
  omega

theorem Inv.dropRead_balance :
    ((s.dropRead t).readCount : ℤ) - (s.dropRead t).reads t = s.readCount - s.reads t := by
  obtain ⟨hcount, hpos⟩ := h.dropRead_readCount hr
  have hreads : (s.dropRead t).reads t = s.reads t - 1 := update_self ..
  omega

theorem Inv.hold_of_reads (u : T) : s.hold u = .none := by
  by_contra hold
  have hz := h.no_reader (h.readCount_of_hold hold) t
  omega

end

theorem Inv.wantUpgrade (hpc : s.pc t = .idle) (hr : 0 < s.reads t)
    (hu : s.wantUpgrade = false) :
    Inv ({ s.dropRead t with wantUpgrade := true }.goto t (.upgrade false)) := by
  have hold := h.hold_of_reads hr
  refine h.change (t := t) ?_ ⟨?_, fun _ _ => rfl, h.dropRead_balance hr, h.dropRead_small hr,
    ?_, ?_, ?_, ?_, ?_⟩ (fun _ _ => .inl rfl) ?_ ?_ ?_
  · exact others_update _ _
  · exact others_update _ _
  · rw [h.no_upgrader hu t, hu]
    simp [upgrader, goto, LockPc.upgrading]
  · simp [writer, goto, RwLock.dropRead, hpc, LockPc.writing]
  · simp [goto, RwLock.dropRead, hold]
  · simp [goto, RwLock.dropRead, hold]
  · intro _
    exact h.fresh t (.inl hr)
  · rw [hpc]
    decide
  · simp [goto, LockPc.asleep]
  · intro u hut _ hwait hgo
    refine .inr ⟨hwait, ?_⟩
    -- the count can be zero now, but no other thread waits for that alone
    cases hpu : s.pc u with
    | upgrade b =>
      have hno := h.no_upgrader hu u
      simp [upgrader, hpu, LockPc.upgrading] at hno
    | read b => simp [mayGo, goto]
    | write2 b => simp [mayGo, goto]
    | write1 b =>
      rw [hpu] at hgo
      exact hgo
    | idle => simp [hpu, mayGo] at hgo
    | waking => simp [hpu, mayGo] at hgo

theorem Inv.dropRead (hpc : s.pc t = .idle) (hr : 0 < s.reads t) :
    Inv (if (s.dropRead t).readCount = 0 then (s.dropRead t).wakeWaiting t else s.dropRead t) := by
  have hold := h.hold_of_reads hr
  have hreads : ∀ u, u ≠ t → (s.dropRead t).reads u = s.reads u := fun u hut =>
    update_of_ne hut ..
  have hw : ∀ u, (s.dropRead t).hold u = .writer →
      (s.dropRead t).readCount = 0 ∧ (s.dropRead t).wantUpgrade = false := fun u hu => by
    rw [RwLock.dropRead, hold u] at hu
    cases hu
  have hu : ∀ u, (s.dropRead t).hold u = .upgraded → (s.dropRead t).readCount = 0 := fun u hu => by
    rw [RwLock.dropRead, hold u] at hu
    cases hu
  have hs : Follows s (s.dropRead t) t := ⟨hreads, fun _ _ => rfl, h.dropRead_balance hr,
    h.dropRead_small hr, rfl, rfl, hw, hu, fun _ => h.fresh t (.inl hr)⟩
  split
  case isTrue hz =>
    exact h.release hpc rfl rfl (fun _ _ => rfl) hs
  case isFalse hz =>
    refine h.change (fun _ _ => rfl) hs (fun _ _ => .inl rfl) (by rw [hpc]; decide) ?_ ?_
    · simp [RwLock.dropRead, hpc, LockPc.asleep]
    · intro u _ _ hwait hgo
      exact .inr ⟨hwait, mayGo_mono hgo id id fun _ => hz⟩

theorem lockReadToWrite_inv (hpc : s.pc t = .idle) (hr : 0 < s.reads t) (spin : Bool) :
    Inv (lockReadToWrite spin s t) := by
  rw [lockReadToWrite]
  split
  case isTrue => exact h.dropRead hpc hr
  case isFalse hu =>
    exact upgradeLoop_inv (h.wantUpgrade hpc hr (Bool.not_eq_true _ |>.mp hu)) (update_self ..) spin

theorem Inv.hold_eq (hold : s.hold t ≠ .none) :
    s.hold t = if s.wantUpgrade then .upgraded else .writer := by
  cases ht : s.hold t with
  | none => exact absurd ht hold
  | writer =>
    rw [(h.writerAlone t ht).2]
    rfl
  | upgraded =>
    cases hu : s.wantUpgrade with
    | true => rfl
    | false => exact absurd ht (h.hold_ne_upgraded hu t)

theorem Inv.releaseWrite (ht : s.pc t = .idle) (hold : s.hold t ≠ .none)
    (hpc : s'.pc = s.pc) (hwait : s'.waiting = s.waiting) (hup : s'.wantUpgrade = s.wantUpgrade)
    (hwr : s'.wantWrite = s.wantWrite) (hov : ∀ u, u ≠ t → s'.overtaken u = s.overtaken u)
    (hreads : ∀ u, u ≠ t → s'.reads u = s.reads u) (hhold : s'.hold = update s.hold t .none)
    (hcount : (s'.readCount : ℤ) - s'.reads t = s.readCount - s.reads t)
    (hsmall : s'.readCount < 2 ^ 16) (hft : 0 < s'.reads t → s'.overtaken t = false) :
    Inv (s'.clearWant.wakeWaiting t) := by
  have hnone : ∀ u, s'.hold u = .none := fun u => by
    rw [hhold]
    by_cases hut : u = t
    · rw [hut, update_self]
    · rw [update_of_ne hut]
      by_contra hu
      exact hut (h.exclusive.one u t hu hold)
  have hother : ∀ u, u ≠ t → s'.hold u = s.hold u := fun u hut => by
    rw [hhold, update_of_ne hut]
  have hw : ∀ u k, k ≠ .none → s'.hold u ≠ k := fun u k hk hu => hk (hu.symm.trans (hnone u))
  have heq := h.hold_eq hold
  rw [clearWant, hup]
  split
  case isTrue hu =>
    rw [if_pos hu] at heq
    refine h.release ht hpc hwait hov ⟨hreads, hother, hcount, hsmall, ?_, ?_,
      fun u hk => absurd hk (hw u _ (by decide)), fun u hk => absurd hk (hw u _ (by decide)), ?_⟩
    · rw [upgrader_of_hold heq, hu]
      simp only [upgrader, hnone, hpc, ht]
      rfl
    · simp only [writer, hnone, hpc, ht, heq, hwr]
      rfl
    rintro (hr | hr)
    · exact hft hr
    · simp only [upgrader, hnone, hpc, ht] at hr
      cases hr
  case isFalse hu =>
    rw [if_neg hu] at heq
    have hww : s.wantWrite = true := by
      by_contra hc
      exact h.hold_ne_writer (Bool.not_eq_true _ |>.mp hc) t heq
    refine h.release ht hpc hwait hov ⟨hreads, hother, hcount, hsmall, ?_, ?_,
      fun u hk => absurd hk (hw u _ (by decide)), fun u hk => absurd hk (hw u _ (by decide)), ?_⟩
    · simp only [upgrader, hnone, hpc, ht, heq]
      rfl
    · rw [writer_of_hold heq, hww]
      simp only [writer, hnone, hpc, ht]
      rfl
    rintro (hr | hr)
    · exact hft hr
    · simp only [upgrader, hnone, hpc, ht] at hr
      cases hr

theorem lockWriteToRead_inv (hpc : s.pc t = .idle) (hold : s.hold t ≠ .none) :
    Inv (lockWriteToRead s t) := by
  have hr := h.readCount_of_hold hold
  have hone : (s.addRead t).readCount = 1 := by
    rw [addRead, hr]
    rfl
  refine h.releaseWrite hpc hold rfl rfl rfl rfl (fun u hut => addRead_overtaken hut)
    (fun u hut => update_of_ne hut ..) rfl ?_ ?_ fun _ => h.addRead_fresh
  · simp only [hr, addRead, update_self, h.no_reader hr t]
    rfl
  · rw [hone]
    decide

theorem lockDone_inv (hpc : s.pc t = .idle)
    (hold : s.hold t ≠ .none ∨ 0 < s.reads t) : Inv (lockDone s t) := by
  rw [lockDone]
  by_cases hn : s.hold t = .none
  · have hr : 0 < s.reads t := hold.resolve_left fun hne => hne hn
    have hgive : s.giveUp t = { s with reads := update s.reads t (s.reads t - 1) } :=
      if_pos hn
    have hrc : s.readCount ≠ 0 := by
      have hle := h.reads_le t
      omega
    rw [hgive]
    rw [if_pos hrc]
    exact h.dropRead hpc hr
  have hgive : s.giveUp t = { s with hold := update s.hold t .none } := if_neg hn
  have hrc := h.readCount_of_hold hn
  have hclear : ∀ s1 : RwLock T, s1.clearWant.readCount = s1.readCount := fun s1 => by
    rw [clearWant]
    split <;> rfl
  rw [hgive]
  rw [if_neg (not_not.mpr hrc), hclear, if_pos hrc]
  refine h.releaseWrite hpc hn rfl rfl rfl rfl (fun _ _ => rfl) (fun _ _ => rfl) rfl rfl h.small
    fun hr => ?_
  rw [h.no_reader hrc t] at hr
  cases hr

theorem threadWakeup_inv (hpc : s.pc t = .waking) :
    Inv ((threadWakeup s).goto t .idle) := by
  have hwake : ∀ u, ((threadWakeup s).goto t .idle).pc u = if u = t then .idle else (s.pc u).wake :=
    fun u => Function.update_apply ..
  have hup : ((threadWakeup s).goto t .idle).upgrader = s.upgrader := by
    funext u
    rw [upgrader, upgrader, hwake]
    by_cases hut : u = t
    · rw [hut, if_pos rfl, hpc]
      rfl
    · rw [if_neg hut]
      cases s.pc u <;> rfl
  have hwp : ((threadWakeup s).goto t .idle).writer = s.writer := by
    funext u
    rw [writer, writer, hwake]
    by_cases hut : u = t
    · rw [hut, if_pos rfl, hpc]
      rfl
    · rw [if_neg hut]
      cases s.pc u <;> rfl
  refine ⟨h.readers, h.small, hup ▸ h.upgraders, hwp ▸ h.writers, h.writerAlone, h.upgradedAlone,
    ?_, ?_⟩
  · rw [hup]
    exact h.fresh
  · intro u hu
    rw [hwake] at hu
    split at hu
    · cases hu
    · cases hp : s.pc u <;> rw [hp] at hu <;> cases hu

theorem again_inv {spin : Bool} (hs : again spin s t = some s')
    (hfew : total s'.reads < 2 ^ 16) : Inv s' := by
  rw [again] at hs
  split at hs
  case h_1 hpc =>
    cases hs
    exact readLoop_inv h hpc spin hfew
  case h_2 hpc =>
    cases hs
    exact write1Loop_inv h hpc spin
  case h_3 hpc =>
    cases hs
    exact write2Loop_inv h hpc spin
  case h_4 hpc =>
    cases hs
    exact upgradeLoop_inv h hpc spin
  case h_5 => cases hs

theorem Inv.enter (hpc : s.pc t = .idle) {pc : LockPc} (hup : pc.upgrading = false)
    (hwr : pc.writing = false) (ha : pc.asleep = false) : Inv (s.goto t pc) := by
  refine h.move (w := s.waiting) id (by rw [hpc]; decide) (by rw [hpc, hup]; rfl)
    (by rw [hpc, hwr]; rfl) fun hs => ?_
  rw [ha] at hs
  cases hs

/-- **Each step keeps the invariant**, when there are fewer than 65536 read holds after it. -/
theorem step_inv {a : Act T} (hs : step s a = some s')
    (hfew : total s'.reads < 2 ^ 16) : Inv s' := by
  cases a with
  | lockRead t spin =>
    obtain ⟨hpc, rfl⟩ := Trace.of_guard hs
    exact readLoop_inv (h.enter hpc rfl rfl rfl) (update_self ..) spin hfew
  | lockWrite t spin =>
    obtain ⟨hpc, rfl⟩ := Trace.of_guard hs
    exact write1Loop_inv (h.enter hpc rfl rfl rfl) (update_self ..) spin
  | lockReadToWrite t spin =>
    obtain ⟨⟨hpc, hr⟩, rfl⟩ := Trace.of_guard hs
    exact lockReadToWrite_inv h hpc hr spin
  | lockWriteToRead t =>
    obtain ⟨⟨hpc, hold⟩, rfl⟩ := Trace.of_guard hs
    exact lockWriteToRead_inv h hpc hold
  | lockDone t =>
    obtain ⟨⟨hpc, hold⟩, rfl⟩ := Trace.of_guard hs
    exact lockDone_inv h hpc hold
  | again t spin => exact again_inv h hs hfew
  | wakeup t =>
    obtain ⟨hpc, rfl⟩ := Trace.of_guard hs
    exact threadWakeup_inv h hpc

end

theorem lockInit_inv (canSleep : Bool) : Inv (lockInit canSleep : RwLock T) where
  readers := (Finset.sum_eq_zero fun _ _ => rfl).symm
  small := Nat.two_pow_pos 16
  upgraders := Finset.sum_eq_zero fun _ _ => rfl
  writers := Finset.sum_eq_zero fun _ _ => rfl
  writerAlone _ hold := by cases hold
  upgradedAlone _ hold := by cases hold
  fresh _ _ := rfl
  wakeup _ hs := by cases hs

/-- There are fewer than 65536 read holds after the step. -/
def FewReads (s : RwLock T) (a : Act T) : Prop :=
  ∀ s', step s a = some s' → total s'.reads < 2 ^ 16

/-- **Read/write locks**: for any number of threads and in every run, as long as there are fewer than
65536 read holds, the lock is held by one writer or by readers, an upgrade is not overtaken, and a
sleeper that could go on is about to be woken. -/
theorem exclusive_of_run (canSleep : Bool) (as : List (Act T)) (s : RwLock T)
    (hm : Trace.Meets step FewReads (lockInit canSleep) as)
    (hr : Trace.run step (lockInit canSleep) as = some s) : Exclusive s ∧ WakeupDue s := by
  have hinv : Inv s := Trace.invariant (P := FewReads) (I := Inv)
    (fun _ _ s' h hfew hs => step_inv h hs (hfew s' hs)) as _ s (lockInit_inv canSleep) hm hr
  exact ⟨hinv.exclusive, hinv.wakeup⟩

/-- Two readers; one of them upgrades, sleeps, and is woken when the other one leaves. -/
def upgradeRun : List (Act Bool) :=
  [.lockRead true false, .lockRead false false, .lockReadToWrite true false, .lockDone false,
    .wakeup false, .again true false]

/-- The run ends with the upgrade. -/
theorem exclusive_of_run_upgrade :
    ∃ s, Trace.run step (lockInit true) upgradeRun = some s ∧ s.hold true = .upgraded ∧
      Exclusive s ∧ WakeupDue s := by
  refine ⟨_, rfl, rfl, exclusive_of_run true upgradeRun _ ?_ rfl⟩
  refine ⟨fun s' h => ?_, fun s1 h1 => ⟨fun s' h => ?_, fun s2 h2 => ⟨fun s' h => ?_, fun s3 h3 =>
    ⟨fun s' h => ?_, fun s4 h4 => ⟨fun s' h => ?_, fun s5 h5 => ⟨fun s' h => ?_, fun _ _ =>
      trivial⟩⟩⟩⟩⟩⟩
  · cases h; decide
  · cases h1; cases h; decide
  · cases h1; cases h2; cases h; decide
  · cases h1; cases h2; cases h3; cases h; decide
  · cases h1; cases h2; cases h3; cases h4; cases h; decide
  · cases h1; cases h2; cases h3; cases h4; cases h5; cases h; decide

end RwLock

end Osfmk

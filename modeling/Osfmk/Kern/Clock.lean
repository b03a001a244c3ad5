import Osfmk.Lib.BackLinked
import Osfmk.Lib.Trace

/-!
# Clock alarms

`kern/clock.c`: the alarms of any number of clocks.  A step is a section under `ClockLock`, or what a
thread does between two of them.
-/

open Function (update)

namespace Osfmk

open BackLinked

/-- `tvalspec_t`. -/
structure TvalSpec where
  tvSec : ℕ
  tvNsec : ℤ
  deriving DecidableEq

namespace TvalSpec

/-- `BAD_TVALSPEC`. -/
def bad (t : TvalSpec) : Bool := t.tvNsec < 0 || 10 ^ 9 ≤ t.tvNsec

/-- `CMP_TVALSPEC`. -/
def cmp (t1 t2 : TvalSpec) : ℤ :=
  if t1.tvSec > t2.tvSec then 1 else if t1.tvSec < t2.tvSec then -1 else t1.tvNsec - t2.tvNsec

/-- `ADD_TVALSPEC`. -/
def add (t1 t2 : TvalSpec) : TvalSpec :=
  let nsec := t1.tvNsec + t2.tvNsec
  if 10 ^ 9 ≤ nsec then ⟨(t1.tvSec + 1 + t2.tvSec) % 2 ^ 32, nsec - 10 ^ 9⟩
  else ⟨(t1.tvSec + t2.tvSec) % 2 ^ 32, nsec⟩

theorem cmp_trans {t1 t2 t3 : TvalSpec} (h : cmp t1 t2 ≤ 0) (h' : cmp t2 t3 ≤ 0) :
    cmp t1 t3 ≤ 0 := by
  unfold cmp at *
  split_ifs at * <;> omega

theorem cmp_total {t1 t2 : TvalSpec} (h : 0 < cmp t1 t2) : cmp t2 t1 ≤ 0 := by
  unfold cmp at *
  split_ifs at * <;> omega

end TvalSpec

def badAlrmtype (alarmType : ℕ) : Bool := alarmType &&& 0xfe != 0

/-- `CheckTime`; it returns the alarm time too, which it changes. -/
def checkTime (alarmType : ℕ) (alarmTime clockTime : TvalSpec) : ℤ × TvalSpec :=
  if badAlrmtype alarmType then (-1, alarmTime)
  else if alarmTime.bad then (-1, alarmTime)
  else
    -- `TIME_RELATIVE`
    let alarmTime := if alarmType &&& 0xff = 1 then alarmTime.add clockTime else alarmTime
    (alarmTime.cmp clockTime, alarmTime)

/-- `al_status`. -/
inductive AlarmStatus
  | free
  | sleep
  | clock
  | done
  deriving DecidableEq

/-- What the calls return, and the codes of the replies. -/
inductive ClockReturn
  | success
  | invalidArgument
  | failure
  | invalidCapability
  | invalidValue
  | resourceShortage
  | aborted
  deriving DecidableEq

/-- The heads of the lists: `cl_alarm` of a clock, `alrmdone` and `alrmfree`. -/
inductive AlarmHead (C : Type)
  | clock (c : C)
  | done
  | free
  deriving DecidableEq

/-- Where an alarm should be. -/
inductive AlarmPlace (C : Type)
  /-- With the zone, or in the hands of the thread that posts or frees it. -/
  | out
  | on (h : AlarmHead C)
  /-- Off the lists, and left to the thread that sleeps on it. -/
  | sleeper
  | alarmThread
  deriving DecidableEq

/-- Where a thread is. -/
inductive ClockPc (C A P : Type)
  | idle
  /-- In `clock_alarm`, without the lock, because the free list was empty. -/
  | zallocAlarm (clock : C) (alarmType : ℕ) (alarmTime : TvalSpec) (port : P) (request : ℕ)
  /-- In `clock_sleep`, without the lock, because the free list was empty. -/
  | zallocSleep (clock : C)
  | sleeping (clock : C) (alarm : A)
  deriving DecidableEq

/-- Where the alarm thread is. -/
inductive AlarmPc (A : Type)
  | running
  /-- It has taken an alarm, and has not sent the reply yet. -/
  | replying (alarm : A)
  | replied (alarm : A)
  | asleep
  deriving DecidableEq

/-- A call of `clock_alarm_reply`, and the call of `clock_alarm` that it answers. -/
structure AlarmReply (P : Type) where
  request : ℕ
  port : P
  code : ClockReturn
  alarmType : ℕ
  time : TvalSpec
  deriving DecidableEq

/-- The clocks `C`, alarms `A`, threads `T`, and ports with their types `P`. -/
structure Clocks (C A T P : Type) where
  canSetalrm : C → Bool
  canSettime : C → Bool
  next : Loc (AlarmHead C) A → Option A
  prev : A → Loc (AlarmHead C) A
  alStatus : A → AlarmStatus
  alTime : A → TvalSpec
  alType : A → ℕ
  alPort : A → P
  alClock : A → C
  setalrm : C → Option TvalSpec
  pc : T → ClockPc C A P
  sleepTime : T → TvalSpec
  returned : T → Option ClockReturn
  alarmThread : AlarmPc A
  replies : List (AlarmReply P)
  hung : Bool
  place : A → AlarmPlace C
  /-- The calls of `clock_alarm` so far that have checked their arguments. -/
  calls : ℕ
  request : A → ℕ
  accepted : ℕ → Bool

namespace Clocks

variable {C A T P : Type} [DecidableEq C] [DecidableEq A] [DecidableEq T]

def return_ (s : Clocks C A T P) (t : T) (r : ClockReturn) : Clocks C A T P :=
  { s with
    pc := update s.pc t .idle
    returned := update s.returned t (some r) }

def clockAlarmReply (s : Clocks C A T P) (r : AlarmReply P) : Clocks C A T P :=
  { s with replies := s.replies ++ [r] }

def put (s : Clocks C A T P) (a : A) (p : AlarmPlace C) : Clocks C A T P :=
  { s with place := update s.place a p }

/-- `if (x->al_next = a->al_next) (x->al_next)->al_prev = x`. -/
def removeNext (s : Clocks C A T P) (x : Loc (AlarmHead C) A) (a : A) : Clocks C A T P :=
  { s with
    next := update s.next x (s.next (.elem a))
    prev := backTo s.prev (s.next (.elem a)) x }

/-- The alarm is linked between `x` and what comes after it. -/
def insertNext (s : Clocks C A T P) (x : Loc (AlarmHead C) A) (a : A) : Clocks C A T P :=
  { s with
    next := update (update s.next x (some a)) (.elem a) (s.next x)
    prev := backTo (update s.prev a x) (s.next x) (.elem a) }

/-- `alrmfree = alarm->al_next`. -/
def takeFree (s : Clocks C A T P) (a : A) : Clocks C A T P :=
  { s with next := update s.next (.head .free) (s.next (.elem a)) }.put a .out

/-- The alarm goes to the free list. -/
def freeAlarm (s : Clocks C A T P) (a : A) : Clocks C A T P :=
  { s with
    alStatus := update s.alStatus a .free
    next := update (update s.next (.head .free) (some a)) (.elem a)
      (s.next (.head .free)) }.put a (.on .free)

/-- The alarm goes to the done list, and the alarm thread is woken when the list was empty. -/
def pushDone (s : Clocks C A T P) (a : A) : Clocks C A T P :=
  { s.insertNext (.head .done) a with
    alarmThread :=
      if s.next (.head .done) = none ∧ s.alarmThread = AlarmPc.asleep then .running
      else s.alarmThread }.put a (.on .done)

/-- The loop of `PostAlarm`: the place after which an alarm is inserted. -/
def findPlace (s : Clocks C A T P) (alarmTime : TvalSpec) :
    ℕ → Loc (AlarmHead C) A → Option (Loc (AlarmHead C) A)
  | 0, _ => none
  | fuel + 1, alrm1 =>
    match s.next alrm1 with
    | none => some alrm1
    | some alrm2 =>
      if (s.alTime alrm2).cmp alarmTime > 0 then some alrm1
      else findPlace s alarmTime fuel (.elem alrm2)

variable [Fintype A]

def postAlarm (s : Clocks C A T P) (c : C) (a : A) : Clocks C A T P :=
  match s.findPlace (s.alTime a) (Fintype.card A + 1) (.head (.clock c)) with
  | none => { s with hung := true }
  | some x =>
    let s := (s.insertNext x a).put a (.on (.clock c))
    if s.next (.head (.clock c)) = some a then
      { s with setalrm := update s.setalrm c (some (s.alTime a)) }
    else s

/-- The body of the loops of `clock_alarm_intr` and `FlushAlarms`. -/
def takeOff (s : Clocks C A T P) (c : C) (a : A) (expired : Option TvalSpec) : Clocks C A T P :=
  let s := s.removeNext (.head (.clock c)) a
  let s' :=
    if s.alStatus a = .sleep then
      { s with
        next := update s.next (.elem a) none
        alTime := match expired with
          | some now => update s.alTime a now
          | none => s.alTime }.put a .sleeper
    else s.pushDone a
  if expired.isSome then { s' with alStatus := update s'.alStatus a .done } else s'

/-- The loops of `clock_alarm_intr` and `FlushAlarms`, which take the first alarm off as long as it
is due. -/
def takeOffAll (c : C) (due : TvalSpec → Bool) (expired : A → Option TvalSpec) :
    ℕ → Clocks C A T P → Clocks C A T P
  | 0, s => { s with hung := true }
  | fuel + 1, s =>
    match s.next (.head (.clock c)) with
    | none => s
    | some a =>
      if due (s.alTime a) then takeOffAll c due expired fuel (s.takeOff c a (expired a)) else s

/-- `clock_alarm_intr`; `gettime` is what `c_gettime` returns when an alarm is served. -/
def clockAlarmIntr (s : Clocks C A T P) (c : C) (clockTime : TvalSpec) (gettime : A → TvalSpec) :
    Clocks C A T P :=
  let s := takeOffAll c (fun t => t.cmp clockTime ≤ 0) (fun a => some (gettime a))
    (Fintype.card A + 1) s
  match s.next (.head (.clock c)) with
  | none => s
  | some a => { s with setalrm := update s.setalrm c (some (s.alTime a)) }

def flushAlarms (s : Clocks C A T P) (c : C) : Clocks C A T P :=
  takeOffAll c (fun _ => true) (fun _ => none) (Fintype.card A + 1) s

/-- `clock_alarm`, when it has an alarm. -/
def postRequest (s : Clocks C A T P) (t : T) (c : C) (a : A) (alarmType : ℕ) (alarmTime : TvalSpec)
    (port : P) (request : ℕ) : Clocks C A T P :=
  (postAlarm { s with
    alStatus := update s.alStatus a .clock
    alTime := update s.alTime a alarmTime
    alType := update s.alType a alarmType
    alPort := update s.alPort a port
    alClock := update s.alClock a c
    request := update s.request a request
    accepted := update s.accepted request true } c a).return_ t .success

/-- `clock_alarm`, up to its first section; `clockTime` is what `c_gettime` returns. -/
def clockAlarm (s : Clocks C A T P) (t : T) (clock : Option C) (alarmType : ℕ)
    (alarmTime : TvalSpec) (alarmPort : Option P) (clockTime : TvalSpec) : Clocks C A T P :=
  match clock with
  | none => s.return_ t .invalidArgument
  | some c =>
    if s.canSetalrm c = false then s.return_ t .failure
    else match alarmPort with
    | none => s.return_ t .invalidCapability
    | some port =>
      let (chkstat, alarmTime) := checkTime alarmType alarmTime clockTime
      let request := s.calls
      let s := { s with calls := request + 1 }
      if chkstat ≤ 0 then
        let code : ClockReturn := if chkstat < 0 then .invalidValue else .success
        ({ s with accepted := update s.accepted request true }.clockAlarmReply
          ⟨request, port, code, alarmType, clockTime⟩).return_ t .success
      else match s.next (.head .free) with
      | none =>
        { s with pc := update s.pc t (.zallocAlarm c alarmType alarmTime port request) }
      | some a => (s.takeFree a).postRequest t c a alarmType alarmTime port request

/-- `clock_sleep`, when it has an alarm, up to `thread_block`. -/
def postSleep (s : Clocks C A T P) (t : T) (c : C) (a : A) : Clocks C A T P :=
  let s := { s with
    alTime := update s.alTime a (s.sleepTime t)
    alStatus := update s.alStatus a .sleep }
  { postAlarm s c a with pc := update s.pc t (.sleeping c a) }

/-- `clock_sleep`, up to its first section. -/
def clockSleep (s : Clocks C A T P) (t : T) (clock : Option C) (sleepType : ℕ)
    (sleepTime clockTime : TvalSpec) : Clocks C A T P :=
  match clock with
  | none => s.return_ t .invalidArgument
  | some c =>
    if s.canSetalrm c = false then s.return_ t .failure
    else
      let (chkstat, sleepTime) := checkTime sleepType sleepTime clockTime
      let s := { s with sleepTime := update s.sleepTime t sleepTime }
      if chkstat < 0 then s.return_ t .invalidValue
      else if chkstat = 0 then s.return_ t .success
      else match s.next (.head .free) with
      | none => { s with pc := update s.pc t (.zallocSleep c) }
      | some a => (s.takeFree a).postSleep t c a

/-- The end of `clock_sleep`, after `thread_block`. -/
def clockSleepEnd (s : Clocks C A T P) (t : T) (a : A) : Clocks C A T P :=
  let s := { s with sleepTime := update s.sleepTime t (s.alTime a) }
  if s.alStatus a ≠ .done then
    (((s.removeNext (s.prev a) a).put a .out).return_ t .aborted).freeAlarm a
  else ((s.put a .out).return_ t .success).freeAlarm a

/-- `clock_set_time`; setting the time itself is left to the device. -/
def clockSetTime (s : Clocks C A T P) (t : T) (clock : Option C) (newTime : TvalSpec) :
    Clocks C A T P :=
  match clock with
  | none => s.return_ t .invalidArgument
  | some c =>
    if s.canSettime c = false then s.return_ t .failure
    else if newTime.bad then s.return_ t .invalidValue
    else (s.flushAlarms c).return_ t .success

/-- The head of the loop of `alarm_thread`. -/
def alarmLoop (s : Clocks C A T P) : Clocks C A T P :=
  match s.next (.head .done) with
  | none => { s with alarmThread := .asleep }
  | some a => { s.removeNext (.head .done) a with alarmThread := .replying a }.put a .alarmThread

/-- `clock_alarm_reply` of the alarm thread. -/
def alarmReply (s : Clocks C A T P) (a : A) (gettime : C → TvalSpec) : Clocks C A T P :=
  let code : ClockReturn := if s.alStatus a = .done then .success else .aborted
  { s with alarmThread := .replied a }.clockAlarmReply
    ⟨s.request a, s.alPort a, code, s.alType a, gettime (s.alClock a)⟩

/-- What can happen next. -/
inductive Act (C A T P : Type)
  | clockAlarm (t : T) (clock : Option C) (alarmType : ℕ) (alarmTime : TvalSpec)
      (alarmPort : Option P) (clockTime : TvalSpec)
  | clockSleep (t : T) (clock : Option C) (sleepType : ℕ) (sleepTime clockTime : TvalSpec)
  | zalloc (t : T) (alarm : Option A)
  /-- A sleeper goes on: it was woken, or it is interrupted. -/
  | awake (t : T)
  | intr (clock : C) (clockTime : TvalSpec) (gettime : A → TvalSpec)
  | setTime (t : T) (clock : Option C) (newTime : TvalSpec)
  | alarmLock
  | alarmReply (gettime : C → TvalSpec)

/-- `zalloc` has returned: the second section of `clock_alarm` and `clock_sleep`. -/
def zallocEnd (s : Clocks C A T P) (t : T) (alarm : Option A) : Option (Clocks C A T P) :=
  match s.pc t, alarm with
  | .zallocAlarm .., none => some (s.return_ t .resourceShortage)
  | .zallocAlarm c alarmType alarmTime port request, some a =>
    if s.place a = .out then some (s.postRequest t c a alarmType alarmTime port request) else none
  | .zallocSleep _, none => some (s.return_ t .resourceShortage)
  | .zallocSleep c, some a => if s.place a = .out then some (s.postSleep t c a) else none
  | _, _ => none

/-- A step, if it is possible. -/
def step (s : Clocks C A T P) : Act C A T P → Option (Clocks C A T P)
  | .clockAlarm t clock alarmType alarmTime alarmPort clockTime =>
    match s.pc t with
    | .idle => some (s.clockAlarm t clock alarmType alarmTime alarmPort clockTime)
    | _ => none
  | .clockSleep t clock sleepType sleepTime clockTime =>
    match s.pc t with
    | .idle => some (s.clockSleep t clock sleepType sleepTime clockTime)
    | _ => none
  | .zalloc t alarm => s.zallocEnd t alarm
  | .awake t =>
    match s.pc t with
    | .sleeping _ a => some (s.clockSleepEnd t a)
    | _ => none
  | .intr c clockTime gettime => some (s.clockAlarmIntr c clockTime gettime)
  | .setTime t clock newTime =>
    match s.pc t with
    | .idle => some (s.clockSetTime t clock newTime)
    | _ => none
  | .alarmLock =>
    match s.alarmThread with
    | .running => some s.alarmLoop
    | .replied a => some ((({ s with alarmThread := .running }.put a .out).freeAlarm a).alarmLoop)
    | _ => none
  | .alarmReply gettime =>
    match s.alarmThread with
    | .replying a => some (s.alarmReply a gettime)
    | _ => none

end Clocks

end Osfmk

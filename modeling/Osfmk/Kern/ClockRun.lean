import Osfmk.Kern.ClockStep

/-!
# No alarm is lost

Every section keeps the invariant, except the end of a `clock_sleep` whose alarm was flushed: it
writes through a back link that leads to the head of the list, and cuts the list off.
-/

namespace Osfmk.Clocks

open BackLinked

variable {C A T P : Type} [DecidableEq C] [DecidableEq A] [DecidableEq T]
variable {s s' : Clocks C A T P} {L : AlarmHead C → List A} [Fintype A] {f : ℕ → Fate A T}

/-- A sleeper whose alarm was flushed goes on only while there is no alarm on the list of its
clock. -/
def FlushedLast (s : Clocks C A T P) : Act C A T P → Prop
  | .awake t => ∀ c a, s.pc t = .sleeping c a → s.alStatus a = .sleep → s.place a = .sleeper →
    s.next (.head (.clock c)) = none
  | _ => True

/-- **Each step keeps the invariant**. -/
theorem Good.step (hG : Good s L f) {act : Act C A T P} (hok : FlushedLast s act)
    (hs : s.step act = some s') : ∃ L' f', Good s' L' f' := by
  cases act with
  | clockAlarm t clock alarmType alarmTime alarmPort clockTime =>
    rw [Clocks.step] at hs
    split at hs
    case h_1 ht =>
      cases hs
      exact hG.clockAlarm ht clock alarmType alarmTime alarmPort clockTime
    case h_2 => cases hs
  | clockSleep t clock sleepType sleepTime clockTime =>
    rw [Clocks.step] at hs
    split at hs
    case h_1 ht =>
      cases hs
      obtain ⟨L', hG'⟩ := hG.clockSleep ht clock sleepType sleepTime clockTime
      exact ⟨L', f, hG'⟩
    case h_2 => cases hs
  | zalloc t alarm => exact hG.zallocEnd hs
  | awake t =>
    rw [Clocks.step] at hs
    split at hs
    case h_1 c a ht =>
      cases hs
      obtain ⟨L', hG'⟩ := hG.clockSleepEnd ht (hok c a ht)
      exact ⟨L', f, hG'⟩
    case h_2 => cases hs
  | intr c clockTime gettime =>
    cases hs
    obtain ⟨L', hG'⟩ := Good.takeOffAll (c := c) (fun t => t.cmp clockTime ≤ 0)
      (fun a => some (gettime a)) (Fintype.card A + 1) s L hG
      (Nat.lt_succ_of_le (hG.filed.length_le _))
    refine ⟨L', f, ?_⟩
    unfold clockAlarmIntr
    dsimp only
    split
    · exact hG'
    · exact hG'.frame rfl rfl rfl rfl rfl rfl rfl rfl rfl le_rfl rfl (fun _ _ _ => Iff.rfl)
        fun _ _ _ _ _ _ hu => hu
  | setTime t clock newTime =>
    rw [Clocks.step] at hs
    split at hs
    case h_1 ht =>
      cases hs
      have haw := awake_of_idle ht
      unfold clockSetTime
      cases clock with
      | none => exact ⟨L, f, hG.return_ haw _⟩
      | some c =>
        dsimp only
        split
        · exact ⟨L, f, hG.return_ haw _⟩
        · split
          · exact ⟨L, f, hG.return_ haw _⟩
          · obtain ⟨L', hG'⟩ := Good.takeOffAll (c := c) (fun _ => true) (fun _ => none)
              (Fintype.card A + 1) s L hG (Nat.lt_succ_of_le (hG.filed.length_le _))
            refine ⟨L', f, hG'.return_ (fun k b => ?_) _⟩
            rw [takeOffAll_pc]
            exact haw k b
    case h_2 => cases hs
  | alarmLock =>
    rw [Clocks.step] at hs
    split at hs
    case h_1 hrun =>
      cases hs
      obtain ⟨L', hG'⟩ := hG.alarmLoop hrun
      exact ⟨L', f, hG'⟩
    case h_2 a ha =>
      cases hs
      obtain ⟨L', hG'⟩ := ((hG.alarmFree ha).freeAlarm (put_place_self ..)).alarmLoop rfl
      exact ⟨L', f, hG'⟩
    case h_3 => cases hs
  | alarmReply gettime =>
    rw [Clocks.step] at hs
    split at hs
    case h_1 a ha =>
      cases hs
      exact ⟨L, _, hG.alarmReply ha gettime⟩
    case h_2 => cases hs

/-- What the clock system promises. -/
structure Kept (s : Clocks C A T P) : Prop where
  /-- The lists of the clocks are back-linked and sorted, so is the done list back-linked, and each
  list has exactly the alarms that should be on it. -/
  filed : ∃ L : AlarmHead C → List A, Lists s.next L ∧ Backs (· ≠ .free) s.prev L ∧
    (∀ c, (L (.clock c)).Pairwise fun a b => (s.alTime a).cmp (s.alTime b) ≤ 0) ∧
    ∀ h a, a ∈ L h ↔ s.place a = .on h
  sleeper : ∀ a, s.place a = .sleeper → ∃! t, ∃ c, s.pc t = .sleeping c a
  thread : ∀ a, s.place a = .alarmThread ↔ HasAlarm s a
  /-- An accepted call has its reply, or there is one alarm that will lead to it. -/
  answered : ∀ r, s.accepted r = true → s.repliesTo r = 1 ∧ (∀ a, InFlight s a → s.request a ≠ r) ∨
      s.repliesTo r = 0 ∧ ∃! a, InFlight s a ∧ s.request a = r
  /-- The alarm thread does not sleep while there is something to do for it. -/
  awake : s.alarmThread = .asleep → s.next (.head .done) = none
  returns : s.hung = false

omit [DecidableEq C] [Fintype A] in
theorem Good.kept (hG : Good s L f) : Kept s where
  filed := ⟨L, hG.filed.lists, hG.filed.backs, hG.filed.sorted, hG.filed.mem⟩
  sleeper a ha := by
    obtain ⟨t, c, ht⟩ := hG.owned.owner a (Or.inl ha)
    exact ⟨t, ⟨c, ht⟩, fun u ⟨k, hu⟩ => hG.owned.unique u t k c a hu ht⟩
  thread := hG.owned.thread
  answered r hr := by
    have hcount := hG.answered.count r
    rcases (hG.answered.accepted r).mp hr with hf | ⟨a, hf⟩
    · rw [if_pos hf] at hcount
      refine Or.inl ⟨hcount, fun b hb he => ?_⟩
      have hfb := hG.answered.flying b hb
      rw [he, hf] at hfb
      cases hfb
    · rw [hf, if_neg nofun] at hcount
      refine Or.inr ⟨hcount, a, hG.answered.flight r a hf, fun b hb => ?_⟩
      have hfb := hG.answered.flying b hb.1
      rw [hb.2, hf] at hfb
      cases hfb
      rfl
  awake := hG.owned.awake
  returns := hG.returns

/-- The clocks before the first call; what is in the alarms does not matter. -/
structure Initial (s : Clocks C A T P) : Prop where
  next : ∀ h, s.next (.head h) = none
  place : ∀ a, s.place a = .out
  pc : ∀ t, s.pc t = .idle
  alarmThread : s.alarmThread = .running
  replies : s.replies = []
  calls : s.calls = 0
  accepted : ∀ r, s.accepted r = false
  hung : s.hung = false

omit [DecidableEq C] [Fintype A] in
theorem Initial.good (hI : Initial s) : Good s (fun _ => []) (fun _ => .unmade) where
  filed := by
    refine ⟨⟨hI.next, fun _ => List.nodup_nil, nofun⟩, fun _ _ => trivial,
      fun h a => iff_of_false nofun fun hp => ?_, fun _ => List.Pairwise.nil⟩
    rw [hI.place] at hp
    cases hp
  owned := by
    have hno : ∀ t c a, s.pc t ≠ .sleeping c a := fun t c a ht => by
      rw [hI.pc] at ht
      cases ht
    have hthread : ∀ a, ¬ HasAlarm s a := fun a ha => by
      rcases ha with ha | ha <;> rw [hI.alarmThread] at ha <;> cases ha
    have hat : ∀ a, OwnedAt s a := fun a => .of_quiet (Or.inl (hI.place a)) (hno · · a) (hthread a)
    exact ⟨fun a => (hat a).status, fun t c a => (hat a).sleeping t c, fun a => (hat a).owner,
      fun t t' c c' a => (hat a).unique t t' c c', fun a => (hat a).thread, fun _ => hI.next _⟩
  answered := by
    refine ⟨fun a ha => ?_, nofun, fun r => ?_, fun r => ?_, fun _ _ => rfl,
      fun t c y m p r ht => ?_⟩
    · rw [inFlight_of_quiet (Or.inl (hI.place a)), hI.alarmThread] at ha
      cases ha
    · rw [repliesTo, hI.replies]
      rfl
    · rw [hI.accepted]
      simp
    · rw [hI.pc] at ht
      cases ht
  returns := hI.hung

/-- **Clock alarms**: for any number of clocks, alarms and threads and in every run in which no
flushed sleeper goes on while its clock has other alarms, the lists are as they should be, every
alarm is in one place, and every accepted `clock_alarm` has one reply or an alarm that leads to it. -/
theorem kept_of_run (acts : List (Act C A T P)) (hI : Initial s)
    (hm : Trace.Meets step FlushedLast s acts) (hr : Trace.run step s acts = some s') : Kept s' := by
  have hgood : ∃ L f, Good s' L f := by
    refine Trace.invariant (P := FlushedLast) (I := fun s => ∃ L f, Good s L f) ?_ acts s s'
      ⟨_, _, hI.good⟩ hm hr
    rintro s1 act s2 ⟨L, f, hG⟩ hok hs
    exact hG.step hok hs
  obtain ⟨L, f, hG⟩ := hgood
  exact hG.kept

/-- One clock, two alarms and two threads. -/
def oneClock : Clocks Unit Bool Bool Unit where
  canSetalrm _ := true
  canSettime _ := true
  next _ := none
  prev _ := .head .free
  alStatus _ := .free
  alTime _ := ⟨0, 0⟩
  alType _ := 0
  alPort _ := ()
  alClock _ := ()
  setalrm _ := none
  pc _ := .idle
  sleepTime _ := ⟨0, 0⟩
  returned _ := none
  alarmThread := .running
  replies := []
  hung := false
  place _ := .out
  calls := 0
  request _ := 0
  accepted _ := false

theorem oneClock_initial : Initial oneClock :=
  ⟨fun _ => rfl, fun _ => rfl, fun _ => rfl, rfl, rfl, rfl, fun _ => rfl, rfl⟩

/-- A thread sleeps until second 5, and the clock is set at second 1. -/
def flushRun : List (Act Unit Bool Bool Unit) :=
  [.clockSleep false (some ()) 0 ⟨5, 0⟩ ⟨1, 0⟩, .zalloc false (some false),
    .setTime true (some ()) ⟨2, 0⟩]

/-- The sleeper goes on before there is another alarm. -/
theorem kept_of_run_flush : ∃ s, Trace.run step oneClock (flushRun ++ [.awake false]) = some s ∧
      s.returned false = some .aborted ∧ Kept s := by
  refine ⟨_, rfl, rfl, kept_of_run (flushRun ++ [.awake false]) oneClock_initial ?_ rfl⟩
  refine ⟨trivial, fun s1 h1 => ⟨trivial, fun s2 h2 => ⟨trivial, fun s3 h3 => ⟨?_, fun _ _ =>
    trivial⟩⟩⟩⟩
  cases h1
  cases h2
  cases h3
  exact fun c _ _ _ _ => rfl

/-- **A flushed sleeper drops the alarms of others**: between the flush and the end of `clock_sleep`
another thread has posted an alarm, which is accepted; afterwards it is on no list. -/
theorem flushed_sleeper_drops :
    ∃ s, Trace.run step oneClock (flushRun ++ [.clockAlarm true (some ()) 0 ⟨5, 0⟩ (some ()) ⟨2, 0⟩,
        .zalloc true (some true), .awake false]) = some s ∧
      s.accepted 0 = true ∧ s.replies = [] ∧ s.next (.head (.clock ())) = none ∧
      s.place true = .on (.clock ()) ∧ ¬ Kept s := by
  refine ⟨_, rfl, rfl, rfl, rfl, rfl, fun hk => ?_⟩
  obtain ⟨L, hlists, -, -, hmem⟩ := hk.filed
  have hon : true ∈ L (.clock ()) := (hmem (.clock ()) true).mpr rfl
  have hc := hlists.chain (.clock ())
  cases hl : L (.clock ()) with
  | nil =>
    rw [hl] at hon
    cases hon
  | cons a l =>
    rw [hl] at hc
    cases hc.1

end Osfmk.Clocks

import Osfmk.Kern.ClockInv

/-!
# The sections of the clock alarms keep the invariant

One lemma for each thing that can happen to an alarm: it is posted, it is taken off the list of its
clock because it is due or because of a flush, its sleeper gives it up, and the alarm thread takes it,
sends the reply and frees it.
-/

set_option linter.unusedSectionVars false

open Function (update update_of_ne update_self)

namespace Osfmk.Clocks

open BackLinked

variable {C A T P : Type} [DecidableEq C] [DecidableEq A] [DecidableEq T]
variable {s s' : Clocks C A T P} {L : AlarmHead C → List A} {h : AlarmHead C} {l1 l2 : List A}
  {a b : A} {t : T} {c : C}
variable [Fintype A] {f : ℕ → Fate A T}

/-- What `PostAlarm` does beside the links of the list. -/
structure Posted (s s' : Clocks C A T P) (c : C) (a : A) : Prop where
  self : s'.place a = .on (.clock c)
  place : ∀ b, b ≠ a → s'.place b = s.place b
  link : ∀ b, b ≠ a → s.place b = .sleeper →
    s'.next (.elem b) = s.next (.elem b) ∧ s'.prev b = s.prev b
  done : s'.next (.head .done) = s.next (.head .done)
  rest : s'.alStatus = s.alStatus ∧ s'.pc = s.pc ∧ s'.alarmThread = s.alarmThread ∧
    s'.request = s.request ∧ s'.replies = s.replies ∧ s'.accepted = s.accepted ∧
    s'.calls = s.calls ∧ s'.hung = s.hung

/-- `PostAlarm` of an alarm that is on no list and has been given another time. -/
theorem Filed.postAlarm (hF : Filed s' L) (ha : s'.place a = .out) (hn : s.next = s'.next)
    (hp : s.prev = s'.prev) (hpl : s.place = s'.place)
    (ht : ∀ b, b ≠ a → s.alTime b = s'.alTime b) (c : C) :
    (∃ L', Filed (s.postAlarm c a) L') ∧ Posted s (s.postAlarm c a) c a := by
  replace hF : Filed s L := hF.congr hn hp hpl fun b k hb =>
    ht b fun he => by rw [he, ha] at hb; cases hb
  replace ha : ∀ k, s.place a ≠ .on k := fun k hk => by rw [hpl, ha] at hk; cases hk
  obtain ⟨l1, l2, set, hL, hs, heq⟩ := hF.postAlarm_eq c a
  rw [heq]
  have hins := hF.insert (by nofun) hL ha fun _ _ => hs
  refine ⟨⟨_, hins.congr rfl rfl rfl fun _ _ _ => rfl⟩, ⟨put_place_self .., fun b hb =>
    put_place_of_ne _ hb, fun b hb hsl => ?_, ?_, rfl, rfl, rfl, rfl, rfl, rfl, rfl, rfl⟩⟩
  · exact hF.insert_frame hL (fun k hk => by rw [hsl] at hk; cases hk) hb
  · have hne := (hF.lists.last_ne hL (k := .done) nofun).1
    exact insertNext_next hne nofun

theorem pc_iff {pc pc' : T → ClockPc C A P} (h : ∀ t', t' ≠ t → pc' t' = pc t')
    (ht : pc t ≠ .sleeping c b) (ht' : pc' t ≠ .sleeping c b) (u : T) :
    pc' u = .sleeping c b ↔ pc u = .sleeping c b := by
  by_cases hut : u = t
  · subst hut
    exact iff_of_false ht' ht
  · rw [h u hut]

theorem Answered.start (hA : Answered s f) {r : ℕ} (hf : f r = .unmade ∨ f r = .allocating t)
    (hr : r < s.calls) (hnf : ¬ InFlight s a) (hfla : InFlight s' a)
    (hfl : ∀ b, b ≠ a → (InFlight s' b ↔ InFlight s b)) (hreqa : s'.request a = r)
    (hreq : ∀ b, b ≠ a → s'.request b = s.request b) (hrep : s'.replies = s.replies)
    (hacc : s'.accepted = update s.accepted r true) (hcalls : s'.calls = s.calls)
    (hidle : s'.pc t = .idle) (hother : ∀ u, u ≠ t → s'.pc u = s.pc u) :
    Answered s' (update f r (.inFlight a)) := by
  refine ⟨fun b hb => ?_, fun r' b hb => ?_, fun r' => ?_, fun r' => ?_, fun r' hr' => ?_, ?_⟩
  · by_cases hba : b = a
    · rw [hba, hreqa, update_self]
    · have hfb := hA.flying b ((hfl b hba).mp hb)
      rw [hreq b hba, update_of_ne fun he => ?_]
      · exact hfb
      · rw [he] at hfb
        rcases hf with hf | hf <;> rw [hf] at hfb <;> cases hfb
  · by_cases hrr : r' = r
    · rw [hrr, update_self] at hb
      cases hb
      exact ⟨hfla, hreqa.trans hrr.symm⟩
    · rw [update_of_ne hrr] at hb
      obtain ⟨h1, h2⟩ := hA.flight r' b hb
      have hba : b ≠ a := fun he => hnf (he ▸ h1)
      exact ⟨(hfl b hba).mpr h1, (hreq b hba).trans h2⟩
  · have hcount := hA.count r'
    rw [repliesTo] at hcount ⊢
    rw [hrep, hcount]
    by_cases hrr : r' = r
    · have hnr : f r ≠ .replied := fun hb => by
        rcases hf with hf | hf <;> rw [hf] at hb <;> cases hb
      rw [hrr, update_self, if_neg hnr, if_neg (by simp)]
    · rw [update_of_ne hrr]
  · rw [hacc]
    by_cases hrr : r' = r
    · rw [hrr, update_self, update_self]
      exact iff_of_true rfl (.inr ⟨a, rfl⟩)
    · rw [update_of_ne hrr, update_of_ne hrr]
      exact hA.accepted r'
  · rw [hcalls] at hr'
    rw [update_of_ne (by omega)]
    exact hA.unmade r' hr'
  · intro u k y m p r' hu
    have hut : u ≠ t := fun he => by
      rw [he, hidle] at hu
      cases hu
    rw [hother u hut] at hu
    have hal := hA.allocating u k y m p r' hu
    rw [update_of_ne fun he => ?_]
    · exact hal
    · rw [he] at hal
      rcases hf with hf | hf <;> rw [hf] at hal <;> cases hal
      exact hut rfl

theorem Good.postRequest (hG : Good s L f) (ha : s.place a = .out) {r : ℕ} (hr : r < s.calls)
    (hf : f r = .unmade ∨ f r = .allocating t) (ht : ∀ c b, s.pc t ≠ .sleeping c b) (c : C)
    (alarmType : ℕ) (alarmTime : TvalSpec) (port : P) :
    ∃ L', Good (s.postRequest t c a alarmType alarmTime port r) L'
      (update f r (.inFlight a)) := by
  have hq : Quiet s a := .inl ha
  have hnf : ¬ InFlight s a := fun hfl =>
    hG.owned.quiet_thread hq (.inl ((inFlight_of_quiet hq).mp hfl))
  rw [Clocks.postRequest]
  set s0 : Clocks C A T P := { s with
    alStatus := update s.alStatus a .clock
    alTime := update s.alTime a alarmTime
    alType := update s.alType a alarmType
    alPort := update s.alPort a port
    alClock := update s.alClock a c
    request := update s.request a r
    accepted := update s.accepted r true } with hs0
  obtain ⟨⟨L', hF⟩, hP⟩ := hG.filed.postAlarm (s := s0) ha rfl rfl rfl
    (fun _ hb => update_of_ne hb ..) c
  obtain ⟨hst, hpc, hth, hrq, hrp, hac, hca, hhu⟩ := hP.rest
  set s1 : Clocks C A T P := (s0.postAlarm c a).return_ t .success with hs1
  have hidle : s1.pc t = .idle := update_self ..
  have hother : ∀ u, u ≠ t → s1.pc u = s.pc u := fun u hu =>
    (update_of_ne hu ..).trans (congrFun hpc u)
  have hstatus : ∀ b, b ≠ a → s1.alStatus b = s.alStatus b := fun b hb =>
    (congrFun hst b).trans (update_of_ne hb ..)
  have hself : s1.alStatus a = .clock := (congrFun hst a).trans (update_self ..)
  have hplace : s1.place a = .on (.clock c) := hP.self
  have hthread : s1.alarmThread = s.alarmThread := hth
  have hhas : ∀ b, HasAlarm s1 b ↔ HasAlarm s b := fun b => by rw [HasAlarm, HasAlarm, hthread]
  have hsleep : ∀ u k b, s1.pc u = .sleeping k b ↔ s.pc u = .sleeping k b := fun u k b =>
    pc_iff hother (ht k b) (by simp [hidle]) u
  have hnopc : ∀ u k, s1.pc u ≠ .sleeping k a := fun u k hu =>
    hG.owned.quiet_pc_ne hq u k ((hsleep u k a).mp hu)
  have hfl : ∀ b, b ≠ a → (InFlight s1 b ↔ InFlight s b) := fun b hb => by
    rw [InFlight, InFlight, show s1.place b = s.place b from hP.place b hb, hstatus b hb, hthread]
  refine ⟨L', hF.congr rfl rfl rfl fun _ _ _ => rfl, ?_, ?_, hhu.trans hG.returns⟩
  · refine hG.owned.change (a := a) hP.place hstatus hP.link (fun u k b _ => hsleep u k b)
      (fun b _ => hhas b) ⟨fun k _ => .inr hself, fun u k hu => absurd hu (hnopc u k), fun ho => ?_,
        fun u u' k k' hu _ => absurd hu (hnopc u k), ?_⟩ ?_
    · rw [OfSleeper, hplace, hself] at ho
      rcases ho with ho | ⟨_, ho⟩ <;> cases ho
    · rw [hplace, hhas a]
      exact iff_of_false (by simp) (hG.owned.quiet_thread hq)
    · intro hs
      exact hP.done.trans (hG.owned.awake (hth.symm.trans hs))
  · exact hG.answered.start hf hr hnf (.inl ⟨⟨c, hplace⟩, hself⟩) hfl
      ((congrFun hrq a).trans (update_self ..))
      (fun b hb => (congrFun hrq b).trans (update_of_ne hb ..)) hrp hac hca hidle hother

theorem Good.postSleep (hG : Good s L f) (ha : s.place a = .out)
    (ht : ∀ c b, s.pc t ≠ .sleeping c b) (c : C) :
    ∃ L', Good (s.postSleep t c a) L' f := by
  have hq : Quiet s a := .inl ha
  have hnf : ¬ InFlight s a := fun hfl =>
    hG.owned.quiet_thread hq (.inl ((inFlight_of_quiet hq).mp hfl))
  rw [Clocks.postSleep]
  set s0 : Clocks C A T P := { s with
    alTime := update s.alTime a (s.sleepTime t)
    alStatus := update s.alStatus a .sleep } with hs0
  obtain ⟨⟨L', hF⟩, hP⟩ := hG.filed.postAlarm (s := s0) ha rfl rfl rfl
    (fun _ hb => update_of_ne hb ..) c
  obtain ⟨hst, -, hth, hrq, hrp, hac, hca, hhu⟩ := hP.rest
  set s1 : Clocks C A T P :=
    { s0.postAlarm c a with pc := update s.pc t (.sleeping c a) } with hs1
  have hsl : s1.pc t = .sleeping c a := update_self ..
  have hother : ∀ u, u ≠ t → s1.pc u = s.pc u := fun u hu => update_of_ne hu ..
  have hstatus : ∀ b, b ≠ a → s1.alStatus b = s.alStatus b := fun b hb =>
    (congrFun hst b).trans (update_of_ne hb ..)
  have hself : s1.alStatus a = .sleep := (congrFun hst a).trans (update_self ..)
  have hplace : s1.place a = .on (.clock c) := hP.self
  have hthread : s1.alarmThread = s.alarmThread := hth
  have hhas : ∀ b, HasAlarm s1 b ↔ HasAlarm s b := fun b => by rw [HasAlarm, HasAlarm, hthread]
  -- nobody else sleeps on the alarm
  have hown : ∀ u k, s1.pc u = .sleeping k a → u = t ∧ k = c := fun u k hu => by
    by_cases hut : u = t
    · rw [hut, hsl] at hu
      cases hu
      exact ⟨hut, rfl⟩
    · rw [hother u hut] at hu
      exact absurd hu (hG.owned.quiet_pc_ne hq u k)
  have hslept : Slept s1 c a := .inl ⟨hplace, hself⟩
  refine ⟨L', hF.congr rfl rfl rfl fun _ _ _ => rfl, ?_, ?_, hhu.trans hG.returns⟩
  · refine hG.owned.change (a := a) hP.place hstatus hP.link (fun u k b hb => ?_)
      (fun b _ => hhas b) ⟨fun k _ => .inl hself, fun u k hu => ?_, fun _ => ⟨t, c, hsl⟩,
        fun u u' k k' hu hu' => (hown u k hu).1.trans (hown u' k' hu').1.symm, ?_⟩ ?_
    · refine pc_iff hother (ht k b) (fun he => hb ?_) u
      rw [hsl] at he
      cases he
      rfl
    · rw [(hown u k hu).2]
      exact hslept
    · rw [hplace, hhas a]
      exact iff_of_false (by simp) (hG.owned.quiet_thread hq)
    · intro hs
      exact hP.done.trans (hG.owned.awake (hth.symm.trans hs))
  · refine hG.answered.congr (fun b => ?_) (fun b _ => congrFun hrq b) hrp hac hca.ge ?_
    · by_cases hba : b = a
      · subst hba
        refine iff_of_false (fun hfl => hnf ?_) hnf
        rw [InFlight, hplace, hself, hthread] at hfl
        rcases hfl with ⟨_, hfl⟩ | hfl | hfl
        · cases hfl
        · cases hfl
        · exact .inr (.inr hfl)
      · rw [InFlight, InFlight, show s1.place b = s.place b from hP.place b hba, hstatus b hba,
          hthread]
    · intro u k y m p r hu
      by_cases hut : u = t
      · rw [hut, hsl] at hu
        cases hu
      · rwa [hother u hut] at hu

theorem Owned.not_hasAlarm (hO : Owned s) (ha : s.place a = .on h) : ¬ HasAlarm s a := fun hh => by
  have hp := (hO.thread a).mpr hh
  rw [ha] at hp
  cases hp

theorem Good.takeOff_sleep (hG : Good s L f) (hL : L (.clock c) = [] ++ a :: l2)
    (hs : s.alStatus a = .sleep) (hplace : s'.place = update s.place a .sleeper)
    (hnext : s'.next = update (s.removeNext (.head (.clock c)) a).next (.elem a) none)
    (hprev : s'.prev = (s.removeNext (.head (.clock c)) a).prev)
    (hstatus : ∀ b, b ≠ a → s'.alStatus b = s.alStatus b)
    (hself : s'.alStatus a = .sleep ∨ s'.alStatus a = .done)
    (htime : ∀ b, b ≠ a → s'.alTime b = s.alTime b) (hpc : s'.pc = s.pc)
    (hthread : s'.alarmThread = s.alarmThread) (hreq : s'.request = s.request)
    (hrep : s'.replies = s.replies) (hacc : s'.accepted = s.accepted) (hcalls : s'.calls = s.calls)
    (hhung : s'.hung = s.hung) : Good s' (update L (.clock c) ([] ++ l2)) f := by
  have ha : s.place a = .on (.clock c) := (hG.filed.mem _ a).mp (hL ▸ List.mem_cons_self)
  have hpa : s'.place a = .sleeper := by rw [hplace, update_self]
  have hpb : ∀ b, b ≠ a → s'.place b = s.place b := fun b hb => by
    rw [hplace, update_of_ne hb]
  have hno := hG.owned.not_hasAlarm ha
  have hrem := hG.filed.remove (by simp) hL (p := .sleeper) (by simp)
  have hhas : ∀ b, HasAlarm s' b ↔ HasAlarm s b := fun b => by rw [HasAlarm, HasAlarm, hthread]
  refine ⟨⟨?_, ?_, ?_, ?_⟩, ?_, ?_, hhung.trans hG.returns⟩
  · rw [hnext]
    refine hrem.lists.write (fun k hk => ?_) none
    have := (hrem.mem k a).mp hk
    rw [put_place_self] at this
    cases this
  · rw [hprev]
    exact hrem.backs
  · rw [hplace]
    exact hrem.mem
  · intro k
    refine (hrem.sorted k).imp_of_mem fun {d e} hd he hle => ?_
    have hne : ∀ d, d ∈ update L (.clock c) ([] ++ l2) (.clock k) → d ≠ a := fun d hd hda => by
      have := (hrem.mem _ d).mp hd
      rw [hda, put_place_self] at this
      cases this
    rw [htime d (hne d hd), htime e (hne e he)]
    exact hle
  · refine hG.owned.change (a := a) hpb hstatus (fun b hb hsl => ?_) (fun u k b _ => by rw [hpc])
      (fun b _ => hhas b) ⟨fun k hk => ?_, fun u k hu => ?_, fun _ => ?_, ?_, ?_⟩ ?_
    · have hfr := hG.filed.remove_frame hL (b := b) fun k hk => by rw [hsl] at hk; cases hk
      rw [hnext, hprev]
      refine ⟨(update_of_ne (fun he => hb ?_) ..).trans hfr.1, hfr.2⟩
      cases he
      rfl
    · rw [hpa] at hk
      cases hk
    · -- the sleeper waits for this clock, and the back link leads to the head
      rw [hpc] at hu
      have hkc : k = c := by
        rcases hG.owned.sleeping u k a hu with ⟨hp, _⟩ | ⟨hp, _⟩ <;> rw [ha] at hp <;> cases hp
        rfl
      refine .inr ⟨hpa, ?_⟩
      rcases hself with hself | hself
      · refine .inr ⟨hself, by rw [hnext, update_self], ?_⟩
        have hb := hG.filed.backs (.clock c) (by simp)
        rw [hL] at hb
        rw [hprev, hkc]
        refine (backTo_of_ne fun he => ?_).trans hb.prev_eq
        have hn := hG.filed.lists.nodup (.clock c)
        have hc := hG.filed.lists.chain (.clock c)
        rw [hL] at hn hc
        exact (List.nodup_cons.mp hn).1 (List.mem_of_mem_head? (hc.next_elem.symm.trans he))
      · exact .inl hself
    · rw [hpc]
      exact hG.owned.owner a (.inr ⟨⟨c, ha⟩, hs⟩)
    · rw [hpc]
      exact fun u u' k k' => hG.owned.unique u u' k k' a
    · rw [hpa, hhas a]
      exact iff_of_false (by simp) hno
    · intro hasl
      rw [hnext]
      exact (update_of_ne (by simp) ..).trans
        ((removeNext_next (by simp)).trans (hG.owned.awake (hthread ▸ hasl)))
  · refine hG.answered.congr (fun b => ?_) (fun b _ => by rw [hreq]) hrep hacc hcalls.ge
      fun u k y m p r hu => by rwa [hpc] at hu
    by_cases hba : b = a
    · subst hba
      refine iff_of_false (fun hfl => ?_) fun hfl => ?_
      · rw [InFlight, hpa, hthread] at hfl
        rcases hfl with ⟨⟨k, hfl⟩, _⟩ | hfl | hfl
        · cases hfl
        · cases hfl
        · exact hno (.inl hfl)
      rw [InFlight, hs, ha] at hfl
      rcases hfl with ⟨_, hfl⟩ | hfl | hfl
      · cases hfl
      · cases hfl
      · exact hno (.inl hfl)
    · rw [InFlight, InFlight, hpb b hba, hstatus b hba, hthread]

theorem pushDone_hasAlarm (s : Clocks C A T P) (a b : A) :
    HasAlarm (s.pushDone a) b ↔ HasAlarm s b := by
  simp only [HasAlarm, pushDone, put]
  split
  case isTrue hw => simp [hw.2]
  case isFalse => exact Iff.rfl

theorem pushDone_replying (s : Clocks C A T P) (a b : A) :
    (s.pushDone a).alarmThread = .replying b ↔ s.alarmThread = .replying b := by
  simp only [pushDone, put]
  split
  case isTrue hw => simp [hw.2]
  case isFalse => exact Iff.rfl

theorem Good.takeOff_clock (hG : Good s L f) (hL : L (.clock c) = [] ++ a :: l2)
    (hs : s.alStatus a = .clock) {status : A → AlarmStatus}
    (hstatus : ∀ b, b ≠ a → status b = s.alStatus b) :
    ∃ L', L' (.clock c) = l2 ∧
      Good { (s.removeNext (.head (.clock c)) a).pushDone a with alStatus := status } L' f := by
  have ha : s.place a = .on (.clock c) := (hG.filed.mem _ a).mp (hL ▸ List.mem_cons_self)
  have hno := hG.owned.not_hasAlarm ha
  have hrem := hG.filed.remove (by simp) hL (p := .out) (by simp)
  have hins := hrem.insert (h := .done) (a := a) (by simp) (List.nil_append _).symm
    (fun k hk => by rw [put_place_self] at hk; cases hk) (by simp)
  set s1 := s.removeNext (.head (.clock c)) a with hs1
  set s2 : Clocks C A T P := { s1.pushDone a with alStatus := status } with hs2
  have hpa : s2.place a = .on .done := put_place_self ..
  have hpb : ∀ b, b ≠ a → s2.place b = s.place b := fun b hb => put_place_of_ne _ hb
  have hhas : ∀ b, HasAlarm s2 b ↔ HasAlarm s b := pushDone_hasAlarm s1 a
  have hsl : ∀ u k, s.pc u ≠ .sleeping k a := fun u k hu => by
    rcases hG.owned.sleeping u k a hu with ⟨_, hp⟩ | ⟨hp, _⟩
    · rw [hs] at hp
      cases hp
    · rw [ha] at hp
      cases hp
  have hdone : s1.next (.head .done) = s.next (.head .done) :=
    removeNext_next (by simp)
  refine ⟨_, ?_, hins.congr rfl rfl ?_ fun _ _ _ => rfl, ?_, ?_, hG.returns⟩
  · rw [update_of_ne (by simp), update_self, List.nil_append]
  · exact (Function.update_idem ..).symm
  · refine hG.owned.change (a := a) hpb hstatus (fun b hb hp => ?_) (fun u k b _ => Iff.rfl)
      (fun b _ => hhas b) ⟨fun k hk => ?_, fun u k hu => absurd hu (hsl u k), fun ho => ?_,
        fun u _ k _ hu => absurd hu (hsl u k), ?_⟩ ?_
    · have hoff : ∀ k, s.place b ≠ .on k := fun k hk => by rw [hp] at hk; cases hk
      have hfr := hG.filed.remove_frame hL hoff
      have hfr' := hrem.insert_frame (h := .done) (a := a) (List.nil_append _).symm (b := b)
        (fun k => by rw [put_place_of_ne _ hb]; exact hoff k) hb
      exact ⟨hfr'.1.trans hfr.1, hfr'.2.trans hfr.2⟩
    · rw [hpa] at hk
      cases hk
    · rw [OfSleeper, hpa] at ho
      rcases ho with ho | ⟨⟨k, ho⟩, _⟩ <;> cases ho
    · rw [hpa, hhas a]
      exact iff_of_false (by simp) hno
    · intro hasl
      -- the alarm thread was woken, if it slept
      simp only [hs2, pushDone, put] at hasl
      split at hasl
      case isTrue => cases hasl
      case isFalse hw => exact absurd ⟨hdone.trans (hG.owned.awake hasl), hasl⟩ hw
  · refine hG.answered.congr (fun b => ?_) (fun _ _ => rfl) rfl rfl le_rfl fun _ _ _ _ _ _ hu => hu
    by_cases hba : b = a
    · subst hba
      exact iff_of_true (.inr (.inl hpa)) (.inl ⟨⟨c, ha⟩, hs⟩)
    · rw [InFlight, InFlight, hpb b hba, show s2.alStatus b = s.alStatus b from hstatus b hba,
        show s2.alarmThread = .replying b ↔ s.alarmThread = .replying b from
          pushDone_replying s1 a b]

theorem Good.takeOff (hG : Good s L f) (hL : L (.clock c) = [] ++ a :: l2)
    (expired : Option TvalSpec) :
    ∃ L', L' (.clock c) = l2 ∧ Good (s.takeOff c a expired) L' f := by
  have ha : s.place a = .on (.clock c) := (hG.filed.mem _ a).mp (hL ▸ List.mem_cons_self)
  unfold Clocks.takeOff
  dsimp only
  by_cases hs : s.alStatus a = .sleep
  · have hL' : update L (.clock c) ([] ++ l2) (.clock c) = l2 := by
      rw [update_self, List.nil_append]
    rw [if_pos (show (s.removeNext (.head (.clock c)) a).alStatus a = .sleep from hs)]
    cases expired with
    | none =>
      exact ⟨_, hL', hG.takeOff_sleep hL hs rfl rfl rfl (fun _ _ => rfl) (.inl hs) (fun _ _ => rfl)
        rfl rfl rfl rfl rfl rfl rfl⟩
    | some now =>
      exact ⟨_, hL', hG.takeOff_sleep hL hs rfl rfl rfl (fun b hb => update_of_ne hb ..)
        (Or.inr (update_self ..)) (fun b hb => update_of_ne hb ..) rfl rfl rfl rfl
        rfl rfl rfl⟩
  · have hc : s.alStatus a = .clock := (hG.owned.status a c ha).resolve_left hs
    rw [if_neg (show ¬ (s.removeNext (.head (.clock c)) a).alStatus a = .sleep from hs)]
    split
    · exact hG.takeOff_clock hL hc fun b hb => update_of_ne hb ..
    · exact hG.takeOff_clock hL hc fun _ _ => rfl

theorem Good.takeOffAll (due : TvalSpec → Bool) (expired : A → Option TvalSpec) (fuel : ℕ) :
    ∀ (s : Clocks C A T P) (L : AlarmHead C → List A), Good s L f →
      (L (.clock c)).length < fuel → ∃ L', Good (takeOffAll c due expired fuel s) L' f := by
  induction fuel with
  | zero =>
    intro s L _ hlen
    exact absurd hlen (Nat.not_lt_zero _)
  | succ fuel ih =>
    intro s L hG hlen
    have hc := hG.filed.lists.chain (.clock c)
    rw [Clocks.takeOffAll]
    cases hl : L (.clock c) with
    | nil =>
      rw [hl] at hc
      rw [show s.next (.head (.clock c)) = none from hc]
      exact ⟨L, hG⟩
    | cons a l =>
      rw [hl] at hc hlen
      rw [hc.1]
      dsimp only
      split
      · obtain ⟨L', hL', hG'⟩ := hG.takeOff hl (expired a)
        exact ih _ L' hG' (by rw [hL']; simpa using hlen)
      · exact ⟨L, hG⟩

theorem takeOff_pc (s : Clocks C A T P) (c : C) (a : A) (expired : Option TvalSpec) :
    (s.takeOff c a expired).pc = s.pc := by
  unfold Clocks.takeOff
  dsimp only
  split <;> split <;> rfl

theorem takeOffAll_pc (due : TvalSpec → Bool) (expired : A → Option TvalSpec) (fuel : ℕ) :
    ∀ s : Clocks C A T P, (Clocks.takeOffAll c due expired fuel s).pc = s.pc := by
  induction fuel with
  | zero => intro s; rfl
  | succ fuel ih =>
    intro s
    rw [Clocks.takeOffAll]
    split
    · rfl
    · split
      · rw [ih, takeOff_pc]
      · rfl

theorem Filed.put (hF : Filed s L) (ha : ∀ k, s.place a ≠ .on k) {p : AlarmPlace C}
    (hp : ∀ k, p ≠ .on k) : Filed (s.put a p) L where
  lists := hF.lists
  backs := hF.backs
  mem k b := by
    by_cases hba : b = a
    · subst hba
      rw [put_place_self]
      exact iff_of_false (hF.not_mem ha k) (hp k)
    · rw [put_place_of_ne _ hba]
      exact hF.mem k b
  sorted := hF.sorted

theorem Good.leave (hG : Good s L f) (ht : s.pc t = .sleeping c a) {L' : AlarmHead C → List A}
    (hF : Filed s' L') (hplace : s'.place = update s.place a .out)
    (hlink : ∀ b, b ≠ a → s.place b = .sleeper →
      s'.next (.elem b) = s.next (.elem b) ∧ s'.prev b = s.prev b)
    (hdone : s'.next (.head .done) = s.next (.head .done)) (hstatus : s'.alStatus = s.alStatus)
    (hpc : s'.pc = update s.pc t .idle) (hthread : s'.alarmThread = s.alarmThread)
    (hreq : s'.request = s.request) (hrep : s'.replies = s.replies)
    (hacc : s'.accepted = s.accepted) (hcalls : s'.calls = s.calls) (hhung : s'.hung = s.hung) :
    Good s' L' f := by
  have hpa : s'.place a = .out := by rw [hplace, update_self]
  have hpb : ∀ b, b ≠ a → s'.place b = s.place b := fun b hb => by
    rw [hplace, update_of_ne hb]
  have hhas : ∀ b, HasAlarm s' b ↔ HasAlarm s b := fun b => by rw [HasAlarm, HasAlarm, hthread]
  have hslept := hG.owned.sleeping t c a ht
  have hno : ¬ HasAlarm s a := fun h => by
    have hp := (hG.owned.thread a).mpr h
    rcases hslept with ⟨hs, _⟩ | ⟨hs, _⟩ <;> rw [hs] at hp <;> cases hp
  have hother : ∀ u, u ≠ t → s'.pc u = s.pc u := fun u hu => by rw [hpc, update_of_ne hu]
  have hidle : s'.pc t = .idle := by rw [hpc, update_self]
  refine ⟨hF, ?_, ?_, hhung.trans hG.returns⟩
  · refine hG.owned.change (a := a) hpb (fun _ _ => by rw [hstatus]) hlink (fun u k b hb => ?_)
      (fun b _ => hhas b) (OwnedAt.of_quiet (.inl hpa) (fun u k hu => ?_) ((hhas a).not.mpr hno)) ?_
    · refine pc_iff hother (fun he => hb ?_) (by simp [hidle]) u
      rw [ht] at he
      cases he
      rfl
    · have hut : u ≠ t := fun he => by
        rw [he, hidle] at hu
        cases hu
      rw [hother u hut] at hu
      exact hut (hG.owned.unique u t k c a hu ht)
    · rw [hthread, hdone]
      exact hG.owned.awake
  · refine hG.answered.congr (fun b => ?_) (fun b _ => by rw [hreq]) hrep hacc hcalls.ge ?_
    · by_cases hba : b = a
      · subst hba
        refine iff_of_false (fun hfl => ?_) fun hfl => ?_
        · exact hno (.inl (hthread ▸ (inFlight_of_quiet (.inl hpa)).mp hfl))
        rcases hfl with ⟨⟨k, hp⟩, hst⟩ | hp | hp
        · rcases hslept with ⟨_, hs⟩ | ⟨hs, _⟩
          · rw [hst] at hs
            cases hs
          · rw [hp] at hs
            cases hs
        · rcases hslept with ⟨hs, _⟩ | ⟨hs, _⟩ <;> rw [hp] at hs <;> cases hs
        · exact hno (.inl hp)
      · rw [InFlight, InFlight, hpb b hba, hstatus, hthread]
    · intro u k y m p r hu
      have hut : u ≠ t := fun he => by
        rw [he, hidle] at hu
        cases hu
      rwa [hother u hut] at hu

/-- **A sleeper leaves**: its alarm is on the list, or has expired, or was flushed and there is no
other alarm on the list. -/
theorem Good.clockSleepEnd (hG : Good s L f) (ht : s.pc t = .sleeping c a)
    (hflush : s.alStatus a = .sleep → s.place a = .sleeper → s.next (.head (.clock c)) = none) :
    ∃ L', Good (s.clockSleepEnd t a) L' f := by
  rw [Clocks.clockSleepEnd]
  have hslept := hG.owned.sleeping t c a ht
  have hpout : ∀ k : AlarmHead C, (.out : AlarmPlace C) ≠ .on k := nofun
  split
  case isTrue hnd =>
    rcases hslept with ⟨hp, hs⟩ | ⟨hp, hs⟩
    · -- on the list
      obtain ⟨l1, l2, hL⟩ := List.append_of_mem ((hG.filed.mem (.clock c) a).mpr hp)
      have hb := hG.filed.backs (.clock c) nofun
      rw [hL] at hb
      have hrem := hG.filed.remove (by nofun) hL hpout
      rw [← hb.prev_eq] at hrem
      have hF : Filed ((({ s with
          sleepTime := update s.sleepTime t (s.alTime a) } : Clocks C A T P).removeNext
            (s.prev a) a).put a .out |>.return_ t .aborted) _ :=
        hrem.congr rfl rfl rfl fun _ _ _ => rfl
      have hG' := hG.leave ht hF rfl (fun b hb' hsl => ?_) ?_ rfl rfl rfl rfl rfl rfl rfl rfl
      · exact ⟨_, hG'.freeAlarm (put_place_self ..)⟩
      · have hfr := hG.filed.remove_frame hL (b := b) fun k hk => by rw [hsl] at hk; cases hk
        rw [← hb.prev_eq] at hfr
        exact hfr
      · have hne := (hG.filed.lists.last_ne hL (k := .done) nofun).1
        rw [← hb.prev_eq] at hne
        exact removeNext_next hne
    · -- flushed
      have hs' : s.alStatus a = .sleep ∧ s.next (.elem a) = none ∧ s.prev a = .head (.clock c) :=
        hs.resolve_left hnd
      have hnone := hflush hs'.1 hp
      have hnext : (s.removeNext (s.prev a) a).next = s.next := by
        rw [removeNext, hs'.2.2, hs'.2.1, ← hnone]
        exact Function.update_eq_self ..
      have hprev : (s.removeNext (s.prev a) a).prev = s.prev := by
        rw [removeNext, hs'.2.1]
        rfl
      have hput := hG.filed.put (a := a) (fun k hk => by rw [hp] at hk; cases hk) hpout
      have hF : Filed ((({ s with
          sleepTime := update s.sleepTime t (s.alTime a) } : Clocks C A T P).removeNext
            (s.prev a) a).put a .out |>.return_ t .aborted) _ :=
        hput.congr hnext hprev rfl fun _ _ _ => rfl
      have hG' := hG.leave ht hF rfl (fun b _ _ => ⟨congrFun hnext _, congrFun hprev b⟩)
        (congrFun hnext _) rfl rfl rfl rfl rfl rfl rfl rfl
      exact ⟨_, hG'.freeAlarm (put_place_self ..)⟩
  case isFalse hd =>
    have hp : s.place a = .sleeper := by
      rcases hslept with ⟨_, hs⟩ | ⟨hp, _⟩
      · rw [not_not.mp hd] at hs
        cases hs
      · exact hp
    have hput := hG.filed.put (a := a) (fun k hk => by rw [hp] at hk; cases hk) hpout
    have hF : Filed (({ s with
        sleepTime := update s.sleepTime t (s.alTime a) } : Clocks C A T P).put a .out
          |>.return_ t .success) _ := hput.congr rfl rfl rfl fun _ _ _ => rfl
    have hG' := hG.leave ht hF rfl (fun b _ _ => ⟨rfl, rfl⟩) rfl rfl rfl rfl rfl rfl rfl rfl rfl
    exact ⟨_, hG'.freeAlarm (put_place_self ..)⟩

theorem Good.alarmLoop (hG : Good s L f) (hrun : s.alarmThread = .running) :
    ∃ L', Good s.alarmLoop L' f := by
  have hnone : ∀ b, ¬ HasAlarm s b := fun b hb => by
    rcases hb with hb | hb <;> rw [hrun] at hb <;> cases hb
  have hc := hG.filed.lists.chain .done
  rw [Clocks.alarmLoop]
  cases hl : L .done with
  | nil =>
    rw [hl] at hc
    have hempty : s.next (.head .done) = none := hc
    rw [hempty]
    refine ⟨L, hG.filed.congr rfl rfl rfl fun _ _ _ => rfl, ⟨hG.owned.status, hG.owned.sleeping,
      hG.owned.owner, hG.owned.unique, fun b => ?_, fun _ => hempty⟩, ?_, hG.returns⟩
    · refine (hG.owned.thread b).trans ?_
      exact iff_of_false (hnone b) fun hb => by rcases hb with hb | hb <;> cases hb
    · refine hG.answered.congr (fun b => ?_) (fun _ _ => rfl) rfl rfl le_rfl fun _ _ _ _ _ _ hu => hu
      simp [InFlight, hrun]
  | cons a l =>
    have ha : s.place a = .on .done := (hG.filed.mem _ a).mp (hl ▸ List.mem_cons_self)
    have hL : L .done = [] ++ a :: l := hl
    have hrem := hG.filed.remove (by simp) hL (p := .alarmThread)
      (by simp)
    rw [hl] at hc
    rw [hc.1]
    dsimp only
    set s1 : Clocks C A T P := { s.removeNext (.head .done) a with alarmThread := .replying a }.put a
      .alarmThread with hs1
    have hpa : s1.place a = .alarmThread := put_place_self ..
    have hpb : ∀ b, b ≠ a → s1.place b = s.place b := fun b hb => put_place_of_ne _ hb
    have hsl : ∀ u k, s.pc u ≠ .sleeping k a := fun u k hu => by
      rcases hG.owned.sleeping u k a hu with ⟨hp, _⟩ | ⟨hp, _⟩ <;> rw [ha] at hp <;> cases hp
    refine ⟨_, hrem.congr rfl rfl rfl fun _ _ _ => rfl, ?_, ?_, hG.returns⟩
    · refine hG.owned.change (a := a) hpb (fun _ _ => rfl) (fun b _ hsl' => ?_)
        (fun _ _ _ _ => Iff.rfl) (fun b hb => iff_of_false (fun hh => ?_) (hnone b))
        ⟨fun k hk => ?_, fun u k hu => absurd hu (hsl u k), fun ho => ?_, fun u _ k _ hu =>
          absurd hu (hsl u k), iff_of_true hpa (Or.inl rfl)⟩ fun hasl => ?_
      · exact hG.filed.remove_frame hL fun k hk => by rw [hsl'] at hk; cases hk
      · rcases hh with hh | hh <;> cases hh
        exact hb rfl
      · rw [hpa] at hk
        cases hk
      · rw [OfSleeper, hpa] at ho
        rcases ho with ho | ⟨⟨k, ho⟩, _⟩ <;> cases ho
      · cases hasl
    · refine hG.answered.congr (fun b => ?_) (fun _ _ => rfl) rfl rfl le_rfl fun _ _ _ _ _ _ hu => hu
      by_cases hba : b = a
      · subst hba
        exact iff_of_true (.inr (.inr rfl)) (.inr (.inl ha))
      rw [InFlight, InFlight, hpb b hba, hrun]
      have hne : s1.alarmThread ≠ .replying b := fun he => hba (by cases he; rfl)
      simp only [hne, or_false]
      simp [hs1, Clocks.put, removeNext]

theorem Answered.reply (hA : Answered s f) {r : ℕ} {x : AlarmReply P} (hx : x.request = r)
    (hf : f r ≠ .replied) (halloc : ∀ u, f r ≠ .allocating u)
    (hfl : ∀ b, InFlight s' b ↔ InFlight s b ∧ s.request b ≠ r) (hreq : s'.request = s.request)
    (hrep : s'.replies = s.replies ++ [x])
    (hacc : ∀ r', s'.accepted r' = true ↔ s.accepted r' = true ∨ r' = r)
    (hcalls : s.calls ≤ s'.calls) (hr : r < s'.calls)
    (hpc : ∀ t c y m p r, s'.pc t = .zallocAlarm c y m p r → s.pc t = .zallocAlarm c y m p r) :
    Answered s' (update f r .replied) := by
  refine ⟨fun b hb => ?_, fun r' b hb => ?_, fun r' => ?_, fun r' => ?_, fun r' hr' => ?_, ?_⟩
  · obtain ⟨h1, h2⟩ := (hfl b).mp hb
    rw [hreq, update_of_ne h2]
    exact hA.flying b h1
  · by_cases hrr : r' = r
    · rw [hrr, update_self] at hb
      cases hb
    · rw [update_of_ne hrr] at hb
      obtain ⟨h1, h2⟩ := hA.flight r' b hb
      exact ⟨(hfl b).mpr ⟨h1, h2 ▸ hrr⟩, by rw [hreq]; exact h2⟩
  · have hcount := hA.count r'
    rw [repliesTo] at hcount ⊢
    rw [hrep, List.countP_append, hcount]
    by_cases hrr : r' = r
    · subst hrr
      rw [update_self, if_neg hf]
      simp [hx]
    have hne : (x.request == r') = false := by
      rw [hx]
      exact beq_false_of_ne (Ne.symm hrr)
    rw [update_of_ne hrr]
    simp [hne]
  · rw [hacc]
    by_cases hrr : r' = r
    · rw [hrr, update_self]
      exact iff_of_true (.inr rfl) (.inl rfl)
    · rw [update_of_ne hrr, hA.accepted]
      simp [hrr]
  · rw [update_of_ne (by omega)]
    exact hA.unmade r' (by omega)
  · intro u k y m p r' hu
    have hal := hA.allocating u k y m p r' (hpc u k y m p r' hu)
    have hne : r' ≠ r := fun he => halloc u (he ▸ hal)
    rw [update_of_ne hne]
    exact hal

theorem Good.alarmReply (hG : Good s L f) (ha : s.alarmThread = .replying a)
    (gettime : C → TvalSpec) :
    Good (s.alarmReply a gettime) L (update f (s.request a) .replied) := by
  have hfl : InFlight s a := .inr (.inr ha)
  have hfa := hG.answered.flying a hfl
  have hplace : s.place a = .alarmThread := (hG.owned.thread a).mpr (.inl ha)
  refine ⟨hG.filed.congr rfl rfl rfl fun _ _ _ => rfl, ⟨hG.owned.status, hG.owned.sleeping,
    hG.owned.owner, hG.owned.unique, fun b => ?_, fun h => by cases h⟩, ?_, hG.returns⟩
  · refine (hG.owned.thread b).trans ?_
    simp [HasAlarm, Clocks.alarmReply, clockAlarmReply, ha]
  · refine hG.answered.reply rfl (by simp [hfa])
      (fun u => by simp [hfa]) (fun b => ⟨fun hb => ?_, fun hb => ?_⟩) rfl
      rfl (fun r' => ⟨.inl, fun hr => ?_⟩) le_rfl ?_ fun _ _ _ _ _ _ hu => hu
    · have hb' : InFlight s b := by
        rcases hb with hb | hb | hb
        · exact .inl hb
        · exact .inr (.inl hb)
        · cases hb
      refine ⟨hb', fun he => ?_⟩
      have hfb := hG.answered.flying b hb'
      rw [he, hfa] at hfb
      cases hfb
      rcases hb with ⟨⟨k, hb⟩, _⟩ | hb | hb
      · exact absurd (hplace.symm.trans hb) (by simp)
      · exact absurd (hplace.symm.trans hb) (by simp)
      · cases hb
    · rcases hb.1 with h | h | h
      · exact .inl h
      · exact .inr (.inl h)
      · rw [ha] at h
        cases h
        exact absurd rfl hb.2
    · rcases hr with hr | rfl
      · exact hr
      · exact (hG.answered.accepted _).mpr (.inr ⟨a, hfa⟩)
    · by_contra hle
      have := hG.answered.unmade (s.request a) (not_lt.mp hle)
      rw [hfa] at this
      cases this

theorem Good.alarmFree (hG : Good s L f) (ha : s.alarmThread = .replied a) :
    Good ({ s with alarmThread := .running }.put a .out) L f := by
  have hplace : s.place a = .alarmThread := (hG.owned.thread a).mpr (.inr ha)
  have hoff : ∀ k, s.place a ≠ .on k := fun k hk => by rw [hplace] at hk; cases hk
  have hput := hG.filed.put (p := .out) hoff nofun
  set s1 : Clocks C A T P := { s with alarmThread := .running }.put a .out with hs1
  have hpa : s1.place a = .out := put_place_self ..
  have hpb : ∀ b, b ≠ a → s1.place b = s.place b := fun b hb => put_place_of_ne _ hb
  have hsl : ∀ u k, s.pc u ≠ .sleeping k a := fun u k hu => by
    rcases hG.owned.sleeping u k a hu with ⟨hp, _⟩ | ⟨hp, _⟩ <;> rw [hplace] at hp <;> cases hp
  have hno : ∀ b, ¬ HasAlarm s1 b := fun b hb => by rcases hb with hb | hb <;> cases hb
  refine ⟨hput.congr rfl rfl rfl fun _ _ _ => rfl, ?_, ?_, hG.returns⟩
  · refine hG.owned.change (a := a) hpb (fun _ _ => rfl) (fun _ _ _ => ⟨rfl, rfl⟩)
      (fun _ _ _ _ => Iff.rfl) (fun b hb => iff_of_false (hno b) fun hh => ?_)
      (OwnedAt.of_quiet (.inl hpa) hsl (hno a)) nofun
    rcases hh with hh | hh <;> rw [ha] at hh <;> cases hh
    exact hb rfl
  · refine hG.answered.congr (fun b => ?_) (fun _ _ => rfl) rfl rfl le_rfl fun _ _ _ _ _ _ hu => hu
    by_cases hba : b = a
    · subst hba
      refine iff_of_false (fun hfl => ?_) fun hfl => ?_
      · cases (inFlight_of_quiet (.inl hpa)).mp hfl
      · rw [InFlight, hplace, ha] at hfl
        rcases hfl with ⟨⟨k, hfl⟩, _⟩ | hfl | hfl <;> cases hfl
    · rw [InFlight, InFlight, hpb b hba, ha]
      simp [hs1, Clocks.put]

theorem Owned.congr (hO : Owned s) (hnext : s'.next = s.next) (hprev : s'.prev = s.prev)
    (hplace : s'.place = s.place) (hstatus : s'.alStatus = s.alStatus)
    (hthread : s'.alarmThread = s.alarmThread)
    (hsl : ∀ u k b, s'.pc u = .sleeping k b ↔ s.pc u = .sleeping k b) : Owned s' where
  status := by
    rw [hplace, hstatus]
    exact hO.status
  sleeping u k b hu := by
    rw [Slept, hplace, hstatus, hnext, hprev]
    exact hO.sleeping u k b ((hsl u k b).mp hu)
  owner b hb := by
    rw [OfSleeper, hplace, hstatus] at hb
    obtain ⟨u, k, hu⟩ := hO.owner b hb
    exact ⟨u, k, (hsl u k b).mpr hu⟩
  unique u u' k k' b hu hu' := hO.unique u u' k k' b ((hsl u k b).mp hu) ((hsl u' k' b).mp hu')
  thread b := by
    rw [hplace, HasAlarm, hthread]
    exact hO.thread b
  awake := by
    rw [hthread, hnext]
    exact hO.awake

theorem Good.frame (hG : Good s L f) (hnext : s'.next = s.next) (hprev : s'.prev = s.prev)
    (hplace : s'.place = s.place) (htime : s'.alTime = s.alTime) (hstatus : s'.alStatus = s.alStatus)
    (hthread : s'.alarmThread = s.alarmThread) (hreq : s'.request = s.request)
    (hrep : s'.replies = s.replies) (hacc : s'.accepted = s.accepted) (hcalls : s.calls ≤ s'.calls)
    (hhung : s'.hung = s.hung)
    (hsl : ∀ u k b, s'.pc u = .sleeping k b ↔ s.pc u = .sleeping k b)
    (hz : ∀ t c y m p r, s'.pc t = .zallocAlarm c y m p r → s.pc t = .zallocAlarm c y m p r) :
    Good s' L f := by
  refine ⟨hG.filed.congr hnext hprev hplace fun _ _ _ => by rw [htime],
    hG.owned.congr hnext hprev hplace hstatus hthread hsl, ?_, hhung.trans hG.returns⟩
  refine hG.answered.congr (fun b => ?_) (fun b _ => by rw [hreq]) hrep hacc hcalls hz
  rw [InFlight, InFlight, hplace, hstatus, hthread]

theorem Good.return_ (hG : Good s L f) (ht : ∀ k b, s.pc t ≠ .sleeping k b) (code : ClockReturn) :
    Good (s.return_ t code) L f := by
  have hidle : (s.return_ t code).pc t = .idle := update_self ..
  have hother : ∀ u, u ≠ t → (s.return_ t code).pc u = s.pc u := fun u hu =>
    update_of_ne hu ..
  refine hG.frame rfl rfl rfl rfl rfl rfl rfl rfl rfl le_rfl rfl (fun u k b => ?_) ?_
  · exact pc_iff hother (ht k b) (by rw [hidle]; exact nofun) u
  intro u k y m p r hu
  have hut : u ≠ t := fun he => by
    rw [he, hidle] at hu
    cases hu
  rwa [hother u hut] at hu

theorem Answered.set (hA : Answered s f) {r : ℕ} {g : Fate A T}
    (hf : f r = .unmade ∨ f r = .allocating t) (hg : ∀ b, g ≠ .inFlight b) (hg' : g ≠ .replied)
    (hfl : ∀ b, InFlight s' b ↔ InFlight s b) (hreq : s'.request = s.request)
    (hrep : s'.replies = s.replies) (hacc : s'.accepted = s.accepted) (hcalls : s.calls ≤ s'.calls)
    (hr : r < s'.calls)
    (hpc : ∀ u c y m p r', s'.pc u = .zallocAlarm c y m p r' →
      r' = r ∧ g = .allocating u ∨ r' ≠ r ∧ s.pc u = .zallocAlarm c y m p r') :
    Answered s' (update f r g) := by
  have hnf : ∀ b, f r ≠ .inFlight b := fun b hb => by
    rcases hf with hf | hf <;> rw [hf] at hb <;> cases hb
  have hnr : f r ≠ .replied := fun hb => by
    rcases hf with hf | hf <;> rw [hf] at hb <;> cases hb
  refine ⟨fun b hb => ?_, fun r' b hb => ?_, fun r' => ?_, fun r' => ?_, fun r' hr' => ?_, ?_⟩
  · have hfb := hA.flying b ((hfl b).mp hb)
    have hne : s.request b ≠ r := fun he => hnf b (he ▸ hfb)
    rw [hreq, update_of_ne hne]
    exact hfb
  · by_cases hrr : r' = r
    · rw [hrr, update_self] at hb
      exact absurd hb (hg b)
    · rw [update_of_ne hrr] at hb
      obtain ⟨h1, h2⟩ := hA.flight r' b hb
      exact ⟨(hfl b).mpr h1, by rw [hreq]; exact h2⟩
  · have hcount := hA.count r'
    rw [repliesTo] at hcount ⊢
    rw [hrep, hcount]
    by_cases hrr : r' = r
    · rw [hrr, update_self, if_neg hnr, if_neg hg']
    · rw [update_of_ne hrr]
  · rw [hacc, hA.accepted]
    by_cases hrr : r' = r
    · rw [hrr, update_self]
      exact iff_of_false (fun h => h.elim hnr fun he => he.elim hnf)
        fun h => h.elim hg' fun he => he.elim hg
    · rw [update_of_ne hrr]
  · rw [update_of_ne (by omega)]
    exact hA.unmade r' (by omega)
  · intro u k y m p r' hu
    rcases hpc u k y m p r' hu with ⟨rfl, hg⟩ | ⟨hrr, hu⟩
    · rw [update_self]
      exact hg
    · rw [update_of_ne hrr]
      exact hA.allocating u k y m p r' hu

/-- A thread is in `clock_alarm` or `clock_sleep`, or in none of them, and does not sleep. -/
def Awake (s : Clocks C A T P) (t : T) : Prop := ∀ k b, s.pc t ≠ .sleeping k b

theorem awake_of_idle (ht : s.pc t = .idle) : Awake s t := fun k b hb => by
  rw [ht] at hb
  cases hb

section

variable (hG : Good s L f)
include hG

theorem Good.free_cases :
    s.next (.head .free) = none ∨ ∃ a l, s.next (.head .free) = some a ∧ L .free = a :: l := by
  have hc := hG.filed.lists.chain .free
  cases hl : L .free with
  | nil =>
    rw [hl] at hc
    exact .inl hc
  | cons a l =>
    rw [hl] at hc
    exact .inr ⟨a, l, hc.1, rfl⟩

theorem Good.zallocAlarm (ht : s.pc t = .idle) (c : C) (alarmType : ℕ)
    (alarmTime : TvalSpec) (port : P) :
    Good { s with
      calls := s.calls + 1
      pc := update s.pc t (.zallocAlarm c alarmType alarmTime port s.calls) } L
      (update f s.calls (.allocating t)) := by
  have hun := hG.answered.unmade s.calls le_rfl
  refine ⟨hG.filed.congr rfl rfl rfl fun _ _ _ => rfl, hG.owned.congr rfl rfl rfl rfl rfl
    fun u k b => ?_, ?_, hG.returns⟩
  · refine pc_iff (fun v hv => update_of_ne hv ..) (awake_of_idle ht k b) (fun he => ?_) u
    dsimp only at he
    rw [update_self] at he
    cases he
  · refine hG.answered.set (t := t) (Or.inl hun) nofun nofun
      (fun _ => Iff.rfl) rfl rfl rfl (Nat.le_succ _) (Nat.lt_succ_self _) fun u k y m p r' hu => ?_
    by_cases hut : u = t
    · dsimp only at hu
      rw [hut, update_self] at hu
      cases hu
      exact Or.inl ⟨rfl, by rw [hut]⟩
    dsimp only at hu
    rw [update_of_ne hut] at hu
    refine Or.inr ⟨fun he => ?_, hu⟩
    have hal := hG.answered.allocating u k y m p r' hu
    rw [he, hun] at hal
    cases hal

theorem Good.replyNow (port : P) (code : ClockReturn) (alarmType : ℕ)
    (time : TvalSpec) :
    Good ({ s with
      calls := s.calls + 1
      accepted := update s.accepted s.calls true }.clockAlarmReply
        ⟨s.calls, port, code, alarmType, time⟩) L (update f s.calls .replied) := by
  have hun := hG.answered.unmade s.calls le_rfl
  refine ⟨hG.filed.congr rfl rfl rfl fun _ _ _ => rfl, hG.owned.congr rfl rfl rfl rfl rfl
    fun _ _ _ => Iff.rfl, ?_, hG.returns⟩
  refine hG.answered.reply rfl (by rw [hun]; exact nofun)
    (fun u => by rw [hun]; exact nofun) (fun b => ?_) rfl rfl (fun r' => ?_)
    (Nat.le_succ _) (Nat.lt_succ_self _) fun _ _ _ _ _ _ hu => hu
  · refine ⟨fun hb => ⟨hb, fun he => ?_⟩, fun hb => hb.1⟩
    have hfb := hG.answered.flying b hb
    rw [he, hun] at hfb
    cases hfb
  simp only [clockAlarmReply]
  by_cases hrr : r' = s.calls
  · rw [hrr, update_self]
    exact iff_of_true rfl (.inr rfl)
  · rw [update_of_ne hrr]
    simp [hrr]

theorem Good.clockAlarm (ht : s.pc t = .idle) (clock : Option C)
    (alarmType : ℕ) (alarmTime : TvalSpec) (alarmPort : Option P) (clockTime : TvalSpec) :
    ∃ L' f', Good (s.clockAlarm t clock alarmType alarmTime alarmPort clockTime) L' f' := by
  have haw := awake_of_idle ht
  unfold Clocks.clockAlarm
  cases clock with
  | none => exact ⟨L, f, hG.return_ haw _⟩
  | some c =>
    dsimp only
    split
    case isTrue => exact ⟨L, f, hG.return_ haw _⟩
    case isFalse =>
      cases alarmPort with
      | none => exact ⟨L, f, hG.return_ haw _⟩
      | some port =>
        rcases checkTime alarmType alarmTime clockTime with ⟨chkstat, time⟩
        dsimp only
        split
        case isTrue => exact ⟨L, _, (hG.replyNow port _ alarmType clockTime).return_ haw _⟩
        case isFalse =>
          -- the call has a number
          have hG1 : Good { s with calls := s.calls + 1 } L f :=
            hG.frame rfl rfl rfl rfl rfl rfl rfl rfl rfl (Nat.le_succ _) rfl (fun _ _ _ => Iff.rfl)
              fun _ _ _ _ _ _ hu => hu
          rcases hG.free_cases with hnone | ⟨a, l, hsome, hl⟩
          · rw [hnone]
            exact ⟨L, _, hG.zallocAlarm ht c alarmType time port⟩
          rw [hsome]
          obtain ⟨L', hG3⟩ := (hG1.takeFree hl).postRequest (t := t) (put_place_self ..)
            (Nat.lt_succ_self _) (.inl (hG.answered.unmade s.calls le_rfl)) haw c alarmType time
            port
          exact ⟨L', _, hG3⟩

theorem Good.clockSleep (ht : s.pc t = .idle) (clock : Option C)
    (sleepType : ℕ) (sleepTime clockTime : TvalSpec) :
    ∃ L', Good (s.clockSleep t clock sleepType sleepTime clockTime) L' f := by
  have haw := awake_of_idle ht
  unfold Clocks.clockSleep
  cases clock with
  | none => exact ⟨L, hG.return_ haw _⟩
  | some c =>
    dsimp only
    split
    case isTrue => exact ⟨L, hG.return_ haw _⟩
    case isFalse =>
      rcases checkTime sleepType sleepTime clockTime with ⟨chkstat, time⟩
      have hG1 : Good { s with sleepTime := update s.sleepTime t time } L f :=
        hG.frame rfl rfl rfl rfl rfl rfl rfl rfl rfl le_rfl rfl (fun _ _ _ => Iff.rfl)
          fun _ _ _ _ _ _ hu => hu
      split
      case isTrue => exact ⟨L, hG1.return_ haw _⟩
      case isFalse =>
        split
        case isTrue => exact ⟨L, hG1.return_ haw _⟩
        case isFalse =>
          rcases hG.free_cases with hnone | ⟨a, l, hsome, hl⟩
          · rw [hnone]
            refine ⟨L, hG1.frame rfl rfl rfl rfl rfl rfl rfl rfl rfl le_rfl rfl (fun u k b => ?_) ?_⟩
            · refine pc_iff (fun v hv => update_of_ne hv ..) (haw k b) (fun he => ?_) u
              dsimp only at he
              rw [update_self] at he
              cases he
            · intro u k y m p r hu
              have hut : u ≠ t := fun he => by
                dsimp only at hu
                rw [he, update_self] at hu
                cases hu
              exact (update_of_ne hut ..).symm.trans hu
          · rw [hsome]
            exact (hG1.takeFree hl).postSleep (put_place_self ..) haw c

theorem Good.refuse {c : C} {alarmType : ℕ} {alarmTime : TvalSpec} {port : P}
    {r : ℕ} (ht : s.pc t = .zallocAlarm c alarmType alarmTime port r) (code : ClockReturn) :
    Good (s.return_ t code) L (update f r .refused) := by
  have hal := hG.answered.allocating t c alarmType alarmTime port r ht
  have haw : Awake s t := fun k b he => by
    rw [ht] at he
    cases he
  have hidle : (s.return_ t code).pc t = .idle := update_self ..
  have hother : ∀ u, u ≠ t → (s.return_ t code).pc u = s.pc u := fun u hu =>
    update_of_ne hu ..
  have hr : r < s.calls := by
    by_contra hle
    have hun := hG.answered.unmade r (not_lt.mp hle)
    rw [hal] at hun
    cases hun
  refine ⟨hG.filed.congr rfl rfl rfl fun _ _ _ => rfl, (hG.return_ haw code).owned, ?_, hG.returns⟩
  refine hG.answered.set (.inr hal) nofun nofun
    (fun _ => Iff.rfl) rfl rfl rfl le_rfl hr fun u k y m p r' hu => ?_
  have hut : u ≠ t := fun he => by
    rw [he, hidle] at hu
    cases hu
  rw [hother u hut] at hu
  refine .inr ⟨fun he => ?_, hu⟩
  have hal' := hG.answered.allocating u k y m p r' hu
  rw [he, hal] at hal'
  cases hal'
  exact hut rfl

theorem Good.zallocEnd {alarm : Option A} (hs : s.zallocEnd t alarm = some s') :
    ∃ L' f', Good s' L' f' := by
  unfold Clocks.zallocEnd at hs
  split at hs
  case h_1 c y m p r ht =>
    cases hs
    exact ⟨L, _, hG.refuse ht _⟩
  case h_2 c y m p r a ht =>
    obtain ⟨hout, rfl⟩ := Trace.of_guard hs
    have hal := hG.answered.allocating t c y m p r ht
    have hr : r < s.calls := by
      by_contra hle
      have hun := hG.answered.unmade r (not_lt.mp hle)
      rw [hal] at hun
      cases hun
    obtain ⟨L', hG'⟩ := hG.postRequest (t := t) hout hr (.inr hal) (fun k b he => by
      rw [ht] at he
      cases he) c y m p
    exact ⟨L', _, hG'⟩
  case h_3 c ht =>
    cases hs
    refine ⟨L, f, hG.return_ (fun k b he => ?_) _⟩
    rw [ht] at he
    cases he
  case h_4 c a ht =>
    obtain ⟨hout, rfl⟩ := Trace.of_guard hs
    obtain ⟨L', hG'⟩ := hG.postSleep (t := t) hout (fun k b he => by
      rw [ht] at he
      cases he) c
    exact ⟨L', f, hG'⟩
  case h_5 => cases hs

end

end Osfmk.Clocks

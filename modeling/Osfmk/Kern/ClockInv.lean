import Osfmk.Kern.Clock

/-!
# The invariant of the clock alarms

In three parts: where the alarms are filed, who owns those that are on no list, and what becomes of
each call of `clock_alarm`.
-/

open Function (update update_of_ne update_self)
open List

namespace Osfmk.Clocks

open BackLinked

variable {C A T P : Type}
variable {s s' : Clocks C A T P} {L : AlarmHead C → List A} {h : AlarmHead C} {l1 l2 : List A}
  {a b : A} {t : T} {c : C} {p : AlarmPlace C} {l : List A} {x y : Loc (AlarmHead C) A}

/-- The alarms are on the lists they should be on, and the lists of the clocks are sorted. -/
structure Filed (s : Clocks C A T P) (L : AlarmHead C → List A) : Prop where
  lists : Lists s.next L
  backs : Backs (· ≠ .free) s.prev L
  mem : ∀ h a, a ∈ L h ↔ s.place a = .on h
  sorted : ∀ c, (L (.clock c)).Pairwise fun a b => (s.alTime a).cmp (s.alTime b) ≤ 0

theorem Filed.not_mem (hF : Filed s L) (ha : ∀ h, s.place a ≠ .on h) (h : AlarmHead C) : a ∉ L h :=
  fun hm => ha h ((hF.mem h a).mp hm)

theorem Filed.congr (hF : Filed s L) (hn : s'.next = s.next) (hp : s'.prev = s.prev)
    (hpl : s'.place = s.place) (ht : ∀ a c, s.place a = .on (.clock c) → s'.alTime a = s.alTime a) :
    Filed s' L where
  lists := hn ▸ hF.lists
  backs := hp ▸ hF.backs
  mem := hpl ▸ hF.mem
  sorted c := by
    refine (hF.sorted c).imp_of_mem fun hm hm' hle => ?_
    rw [ht _ c ((hF.mem _ _).mp hm), ht _ c ((hF.mem _ _).mp hm')]
    exact hle

theorem findPlace_spec (time : TvalSpec) {fuel : ℕ}
    (hc : Chain s.next x l) (hlen : l.length < fuel) :
    ∃ l1 l2, l = l1 ++ l2 ∧ s.findPlace time fuel x = some (last x l1) ∧
      (∀ b ∈ l1, (s.alTime b).cmp time ≤ 0) ∧ ∀ b ∈ l2.head?, 0 < (s.alTime b).cmp time := by
  induction l generalizing x fuel with
  | nil =>
    obtain ⟨n, rfl⟩ : ∃ n, fuel = n + 1 := ⟨fuel - 1, by omega⟩
    refine ⟨[], [], rfl, ?_, nofun, nofun⟩
    rw [findPlace, show s.next x = none from hc]
    rfl
  | cons b l ih =>
    obtain ⟨n, rfl⟩ : ∃ n, fuel = n + 1 := ⟨fuel - 1, by omega⟩
    rw [findPlace, hc.1]
    dsimp only
    split
    case isTrue hlate =>
      exact ⟨[], b :: l, rfl, rfl, nofun, fun d hd => (by cases hd; exact hlate)⟩
    case isFalse hlate =>
      rw [length_cons] at hlen
      obtain ⟨l1, l2, rfl, hfind, hle, hgt⟩ := ih hc.2 (by omega : l.length < n)
      refine ⟨b :: l1, l2, rfl, hfind, fun d hd => ?_, hgt⟩
      rcases mem_cons.mp hd with rfl | hd
      · exact not_lt.mp hlate
      · exact hle d hd

theorem pairwise_insert (time : A → TvalSpec)
    (hs : (l1 ++ l2).Pairwise fun a b => (time a).cmp (time b) ≤ 0)
    (hle : ∀ b ∈ l1, (time b).cmp (time a) ≤ 0) (hgt : ∀ b ∈ l2.head?, 0 < (time b).cmp (time a)) :
    (l1 ++ a :: l2).Pairwise fun a b => (time a).cmp (time b) ≤ 0 := by
  rw [pairwise_append] at hs ⊢
  have hafter : ∀ b ∈ l2, (time a).cmp (time b) ≤ 0 := by
    cases l2 with
    | nil => intro b hb; cases hb
    | cons d l2 =>
      have hd : (time a).cmp (time d) ≤ 0 := TvalSpec.cmp_total (hgt d rfl)
      intro b hb
      rcases mem_cons.mp hb with rfl | hb
      · exact hd
      · exact TvalSpec.cmp_trans hd ((pairwise_cons.mp hs.2.1).1 b hb)
  refine ⟨hs.1, pairwise_cons.mpr ⟨hafter, hs.2.1⟩, fun b hb d hd => ?_⟩
  rcases mem_cons.mp hd with rfl | hd
  · exact hle b hb
  · exact hs.2.2 b hb d hd

theorem Filed.length_le [Fintype A] (hF : Filed s L) (h : AlarmHead C) : (L h).length ≤ Fintype.card A :=
  (hF.lists.nodup h).length_le_card

/-- The alarm of a sleeper: on the list of the clock, or off it. -/
def Slept (s : Clocks C A T P) (c : C) (a : A) : Prop :=
  s.place a = .on (.clock c) ∧ s.alStatus a = .sleep ∨
    s.place a = .sleeper ∧ (s.alStatus a = .done ∨
      s.alStatus a = .sleep ∧ s.next (.elem a) = none ∧ s.prev a = .head (.clock c))

/-- An alarm is a matter of some sleeper. -/
def OfSleeper (s : Clocks C A T P) (a : A) : Prop :=
  s.place a = .sleeper ∨ (∃ c, s.place a = .on (.clock c)) ∧ s.alStatus a = .sleep

/-- The alarm thread has an alarm. -/
def HasAlarm (s : Clocks C A T P) (a : A) : Prop :=
  s.alarmThread = .replying a ∨ s.alarmThread = .replied a

/-- Every sleeper has an alarm of its own, and the alarm thread has what it has taken. -/
structure Owned (s : Clocks C A T P) : Prop where
  status : ∀ a c, s.place a = .on (.clock c) → s.alStatus a = .sleep ∨ s.alStatus a = .clock
  sleeping : ∀ t c a, s.pc t = .sleeping c a → Slept s c a
  owner : ∀ a, OfSleeper s a → ∃ t c, s.pc t = .sleeping c a
  unique : ∀ t t' c c' a, s.pc t = .sleeping c a → s.pc t' = .sleeping c' a → t = t'
  thread : ∀ a, s.place a = .alarmThread ↔ HasAlarm s a
  awake : s.alarmThread = .asleep → s.next (.head .done) = none

/-- What has to be shown of the one alarm that a step is about. -/
structure OwnedAt (s : Clocks C A T P) (a : A) : Prop where
  status : ∀ c, s.place a = .on (.clock c) → s.alStatus a = .sleep ∨ s.alStatus a = .clock
  sleeping : ∀ t c, s.pc t = .sleeping c a → Slept s c a
  owner : OfSleeper s a → ∃ t c, s.pc t = .sleeping c a
  unique : ∀ t t' c c', s.pc t = .sleeping c a → s.pc t' = .sleeping c' a → t = t'
  thread : s.place a = .alarmThread ↔ HasAlarm s a

/-- A reply to `clock_alarm` is still to come from an alarm. -/
def InFlight (s : Clocks C A T P) (a : A) : Prop :=
  (∃ c, s.place a = .on (.clock c)) ∧ s.alStatus a = .clock ∨ s.place a = .on .done ∨
    s.alarmThread = .replying a

/-- An alarm that nobody has to do with. -/
def Quiet (s : Clocks C A T P) (a : A) : Prop := s.place a = .out ∨ s.place a = .on .free

theorem Owned.quiet_pc_ne (hO : Owned s) (ha : Quiet s a) (t : T) (c : C) :
    s.pc t ≠ .sleeping c a := fun ht => by
  rcases hO.sleeping t c a ht with ⟨h, _⟩ | ⟨h, _⟩ <;>
    rcases ha with ha | ha <;> rw [ha] at h <;> cases h

theorem Owned.quiet_thread (hO : Owned s) (ha : Quiet s a) : ¬ HasAlarm s a := fun h => by
  have hp := (hO.thread a).mpr h
  rcases ha with ha | ha <;> rw [ha] at hp <;> cases hp

theorem OwnedAt.of_quiet (ha : Quiet s a) (hpc : ∀ t c, s.pc t ≠ .sleeping c a)
    (hth : ¬ HasAlarm s a) : OwnedAt s a where
  status c hc := by
    rcases ha with ha | ha <;> rw [ha] at hc <;> cases hc
  sleeping t c ht := absurd ht (hpc t c)
  owner hs := by
    rcases hs with hs | ⟨⟨c, hs⟩, _⟩ <;> rcases ha with ha | ha <;> rw [ha] at hs <;> cases hs
  unique t t' c c' ht := absurd ht (hpc t c)
  thread := iff_of_false (fun hc => by rcases ha with ha | ha <;> rw [ha] at hc <;> cases hc) hth

theorem inFlight_of_quiet (ha : Quiet s a) : InFlight s a ↔ s.alarmThread = .replying a := by
  rcases ha with ha | ha <;> simp [InFlight, ha]

variable [DecidableEq A]

@[simp]
theorem put_place_self (s : Clocks C A T P) (a : A) (p : AlarmPlace C) : (s.put a p).place a = p :=
  update_self ..

theorem put_place_of_ne (p : AlarmPlace C) (hba : b ≠ a) : (s.put a p).place b = s.place b :=
  update_of_ne hba ..

theorem Owned.change (hO : Owned s) (hplace : ∀ b, b ≠ a → s'.place b = s.place b)
    (hstatus : ∀ b, b ≠ a → s'.alStatus b = s.alStatus b)
    (hlink : ∀ b, b ≠ a → s.place b = .sleeper →
      s'.next (.elem b) = s.next (.elem b) ∧ s'.prev b = s.prev b)
    (hpc : ∀ t c b, b ≠ a → (s'.pc t = .sleeping c b ↔ s.pc t = .sleeping c b))
    (hthread : ∀ b, b ≠ a → (HasAlarm s' b ↔ HasAlarm s b))
    (hat : OwnedAt s' a) (hawake : s'.alarmThread = .asleep → s'.next (.head .done) = none) :
    Owned s' where
  status b c hb := by
    by_cases hba : b = a
    · subst hba
      exact hat.status c hb
    · rw [hplace b hba] at hb
      rw [hstatus b hba]
      exact hO.status b c hb
  sleeping t c b ht := by
    by_cases hba : b = a
    · subst hba
      exact hat.sleeping t c ht
    rcases hO.sleeping t c b ((hpc t c b hba).mp ht) with ⟨h1, h2⟩ | ⟨h1, h2⟩
    · exact Or.inl ⟨(hplace b hba).trans h1, (hstatus b hba).trans h2⟩
    · refine Or.inr ⟨(hplace b hba).trans h1, ?_⟩
      rw [hstatus b hba, (hlink b hba h1).1, (hlink b hba h1).2]
      exact h2
  owner b hb := by
    by_cases hba : b = a
    · subst hba
      exact hat.owner hb
    · rw [OfSleeper, hplace b hba, hstatus b hba] at hb
      obtain ⟨t, c, ht⟩ := hO.owner b hb
      exact ⟨t, c, (hpc t c b hba).mpr ht⟩
  unique t t' c c' b ht ht' := by
    by_cases hba : b = a
    · subst hba
      exact hat.unique t t' c c' ht ht'
    · exact hO.unique t t' c c' b ((hpc t c b hba).mp ht) ((hpc t' c' b hba).mp ht')
  thread b := by
    by_cases hba : b = a
    · subst hba
      exact hat.thread
    · rw [hplace b hba, hthread b hba]
      exact hO.thread b
  awake := hawake

variable [DecidableEq C]

theorem removeNext_next (hy : y ≠ x) :
    (s.removeNext x a).next y = s.next y :=
  update_of_ne hy ..

theorem insertNext_next (hy : y ≠ x) (hya : y ≠ .elem a) :
    (s.insertNext x a).next y = s.next y :=
  (update_of_ne hya ..).trans (update_of_ne hy ..)

theorem takeFree_next (hx : x ≠ .head .free) :
    (s.takeFree a).next x = s.next x :=
  update_of_ne hx ..

theorem freeAlarm_next (hx : x ≠ .head .free) (hxa : x ≠ .elem a) :
    (s.freeAlarm a).next x = s.next x :=
  (update_of_ne hxa ..).trans (update_of_ne hx ..)

section

variable (hF : Filed s L)
include hF

theorem mem_put_remove (hL : L h = l1 ++ a :: l2)
    (hp : ∀ k, p ≠ .on k) (k : AlarmHead C) (b : A) :
    b ∈ update L h (l1 ++ l2) k ↔ (s.put a p).place b = .on k := by
  have hn := hF.lists.nodup h
  rw [hL, nodup_middle, List.nodup_cons] at hn
  by_cases hba : b = a
  · subst hba
    refine iff_of_false (fun hb => ?_) (fun he => hp k ((put_place_self ..).symm.trans he))
    by_cases hkh : k = h
    · subst hkh
      rw [update_self] at hb
      exact hn.1 hb
    · rw [update_of_ne hkh] at hb
      exact hkh (hF.lists.disjoint k h b hb (hL ▸ mem_append_right _ mem_cons_self))
  rw [put_place_of_ne _ hba, ← hF.mem]
  by_cases hkh : k = h
  · subst hkh
    rw [update_self, hL]
    simp only [mem_append, mem_cons, hba, false_or]
  · rw [update_of_ne hkh]

theorem mem_put_insert (hL : L h = l1 ++ l2) (ha : ∀ k, s.place a ≠ .on k)
    (k : AlarmHead C) (b : A) :
    b ∈ update L h (l1 ++ a :: l2) k ↔ (s.put a (.on h)).place b = .on k := by
  by_cases hba : b = a
  · subst hba
    rw [put_place_self]
    by_cases hkh : k = h
    · subst hkh
      rw [update_self]
      exact iff_of_true (mem_append_right _ mem_cons_self) rfl
    · rw [update_of_ne hkh]
      exact iff_of_false (hF.not_mem ha k) fun he => hkh (by cases he; rfl)
  rw [put_place_of_ne _ hba, ← hF.mem]
  by_cases hkh : k = h
  · subst hkh
    rw [update_self, hL]
    simp only [mem_append, mem_cons, hba, false_or]
  · rw [update_of_ne hkh]

theorem Filed.remove (hh : h ≠ .free) (hL : L h = l1 ++ a :: l2) (hp : ∀ k, p ≠ .on k) :
    Filed ((s.removeNext (last (.head h) l1) a).put a p) (update L h (l1 ++ l2)) where
  lists := hF.lists.remove hL
  backs := by
    have hnext : s.next (.elem a) = l2.head? := by
      have hc := hF.lists.chain h
      rw [hL] at hc
      exact hc.next_elem
    have hb := hF.backs.remove hF.lists hh hL
    rw [← hnext] at hb
    exact hb
  mem := mem_put_remove (s := s) hF hL hp
  sorted c := by
    by_cases hc : h = .clock c
    · subst hc
      rw [update_self]
      have hs := hF.sorted c
      rw [hL] at hs
      exact hs.sublist ((List.Sublist.refl l1).append (sublist_cons_self a l2))
    · rw [update_of_ne (Ne.symm hc)]
      exact hF.sorted c

theorem Filed.insert (hh : h ≠ .free) (hL : L h = l1 ++ l2)
    (ha : ∀ k, s.place a ≠ .on k)
    (hs : ∀ c, h = .clock c → (l1 ++ a :: l2).Pairwise fun a b => (s.alTime a).cmp (s.alTime b) ≤ 0) :
    Filed ((s.insertNext (last (.head h) l1) a).put a (.on h))
      (update L h (l1 ++ a :: l2)) where
  lists := hF.lists.insert hL (hF.not_mem ha)
  backs := by
    have hnext : s.next (last (.head h) l1) = l2.head? := by
      have hc := hF.lists.chain h
      rw [hL] at hc
      exact hc.next_last
    have hb := hF.backs.insert hF.lists hh hL (hF.not_mem ha)
    rw [← hnext] at hb
    exact hb
  mem := mem_put_insert (s := s) hF hL ha
  sorted c := by
    by_cases hc : h = .clock c
    · subst hc
      rw [update_self]
      exact hs c rfl
    · rw [update_of_ne (Ne.symm hc)]
      exact hF.sorted c

theorem Filed.remove_frame (hL : L h = l1 ++ a :: l2) (hb : ∀ k, s.place b ≠ .on k) :
    (s.removeNext (last (.head h) l1) a).next (.elem b) = s.next (.elem b) ∧
      (s.removeNext (last (.head h) l1) a).prev b = s.prev b := by
  have hoff := hF.not_mem hb h
  rw [hL] at hoff
  constructor
  · refine update_of_ne (fun he => ?_) ..
    rcases last_eq (.head h : Loc (AlarmHead C) A) l1 with hl | ⟨d, hd, hl⟩ <;> rw [hl] at he
    · cases he
    · cases he
      exact hoff (mem_append_left _ hd)
  · refine backTo_of_ne fun he => hoff ?_
    have hc := hF.lists.chain h
    rw [hL] at hc
    have hhead := hc.next_elem.symm.trans he
    exact mem_append_right _ (mem_cons_of_mem a (mem_of_mem_head? hhead))

theorem Filed.insert_frame (hL : L h = l1 ++ l2) (hb : ∀ k, s.place b ≠ .on k)
    (hba : b ≠ a) :
    (s.insertNext (last (.head h) l1) a).next (.elem b) = s.next (.elem b) ∧
      (s.insertNext (last (.head h) l1) a).prev b = s.prev b := by
  have hoff := hF.not_mem hb h
  rw [hL] at hoff
  constructor
  · refine (update_of_ne (fun he => hba (by cases he; rfl)) ..).trans
      (update_of_ne (fun he => ?_) ..)
    rcases last_eq (.head h : Loc (AlarmHead C) A) l1 with hl | ⟨d, hd, hl⟩ <;> rw [hl] at he
    · cases he
    · cases he
      exact hoff (mem_append_left _ hd)
  · refine (backTo_of_ne fun he => hoff ?_).trans (update_of_ne hba ..)
    have hc := hF.lists.chain h
    rw [hL] at hc
    exact mem_append_right _ (mem_of_mem_head? (hc.next_last.symm.trans he))

theorem Filed.takeFree (hL : L .free = [] ++ a :: l2) :
    Filed (s.takeFree a) (update L .free ([] ++ l2)) where
  lists := hF.lists.remove hL
  backs := hF.backs.change (fun hc => hc rfl) _
  mem := mem_put_remove (s := s) hF hL nofun
  sorted c := by
    rw [update_of_ne (by nofun)]
    exact hF.sorted c

theorem Filed.freeAlarm (ha : ∀ k, s.place a ≠ .on k) :
    Filed (s.freeAlarm a) (update L .free ([] ++ a :: L .free)) where
  lists := hF.lists.insert (nil_append _).symm (hF.not_mem ha)
  backs := hF.backs.change (fun hc => hc rfl) _
  mem := mem_put_insert (s := s) hF (nil_append _).symm ha
  sorted c := by
    rw [update_of_ne (by nofun)]
    exact hF.sorted c

end

theorem Filed.postAlarm_eq [Fintype A] (hF : Filed s L) (c : C) (a : A) :
    ∃ l1 l2 set, L (.clock c) = l1 ++ l2 ∧
      (l1 ++ a :: l2).Pairwise (fun a b => (s.alTime a).cmp (s.alTime b) ≤ 0) ∧
      s.postAlarm c a =
        { (s.insertNext (last (.head (.clock c)) l1) a).put a (.on (.clock c)) with
          setalrm := set } := by
  have hlen : (L (.clock c)).length < Fintype.card A + 1 := Nat.lt_succ_of_le (hF.length_le _)
  obtain ⟨l1, l2, hL, hfind, hle, hgt⟩ :=
    findPlace_spec (s.alTime a) (hF.lists.chain (.clock c)) hlen
  rw [postAlarm, hfind]
  dsimp only
  have hs := pairwise_insert s.alTime (a := a) (hL ▸ hF.sorted c) hle hgt
  split
  · exact ⟨l1, l2, _, hL, hs, rfl⟩
  · exact ⟨l1, l2, s.setalrm, hL, hs, rfl⟩

variable [DecidableEq T]

/-- What becomes of a call of `clock_alarm`. -/
inductive Fate (A T : Type)
  | unmade
  | allocating (t : T)
  | refused
  | inFlight (a : A)
  | replied
  deriving DecidableEq

/-- The replies to a call. -/
def repliesTo (s : Clocks C A T P) (r : ℕ) : ℕ := s.replies.countP fun x => x.request == r

structure Answered (s : Clocks C A T P) (f : ℕ → Fate A T) : Prop where
  flying : ∀ a, InFlight s a → f (s.request a) = .inFlight a
  flight : ∀ r a, f r = .inFlight a → InFlight s a ∧ s.request a = r
  count : ∀ r, s.repliesTo r = if f r = .replied then 1 else 0
  accepted : ∀ r, s.accepted r = true ↔ f r = .replied ∨ ∃ a, f r = .inFlight a
  unmade : ∀ r, s.calls ≤ r → f r = .unmade
  allocating : ∀ t c y m p r, s.pc t = .zallocAlarm c y m p r → f r = .allocating t

variable {f : ℕ → Fate A T}

omit [DecidableEq C] in
theorem Answered.congr (hA : Answered s f) (hfl : ∀ a, InFlight s' a ↔ InFlight s a)
    (hreq : ∀ a, InFlight s a → s'.request a = s.request a) (hrep : s'.replies = s.replies)
    (hacc : s'.accepted = s.accepted) (hcalls : s.calls ≤ s'.calls)
    (hpc : ∀ t c y m p r, s'.pc t = .zallocAlarm c y m p r → s.pc t = .zallocAlarm c y m p r) :
    Answered s' f where
  flying a ha := by
    rw [hreq a ((hfl a).mp ha)]
    exact hA.flying a ((hfl a).mp ha)
  flight r a hr := by
    obtain ⟨h1, h2⟩ := hA.flight r a hr
    exact ⟨(hfl a).mpr h1, (hreq a h1).trans h2⟩
  count r := by
    rw [repliesTo, hrep]
    exact hA.count r
  accepted r := by
    rw [hacc]
    exact hA.accepted r
  unmade r hr := hA.unmade r (hcalls.trans hr)
  allocating t c y m p r ht := hA.allocating t c y m p r (hpc t c y m p r ht)

/-- The three parts. -/
structure Good (s : Clocks C A T P) (L : AlarmHead C → List A) (f : ℕ → Fate A T) : Prop where
  filed : Filed s L
  owned : Owned s
  answered : Answered s f
  returns : s.hung = false

omit [DecidableEq C] in
theorem Good.quiet (hG : Good s L f) {L' : AlarmHead C → List A} (hF : Filed s' L')
    (ha : Quiet s a) (ha' : Quiet s' a) (hplace : ∀ b, b ≠ a → s'.place b = s.place b)
    (hstatus : ∀ b, b ≠ a → s'.alStatus b = s.alStatus b)
    (hnext : ∀ b, b ≠ a → s'.next (.elem b) = s.next (.elem b)) (hprev : s'.prev = s.prev)
    (hdone : s'.next (.head .done) = s.next (.head .done)) (hpc : s'.pc = s.pc)
    (hthread : s'.alarmThread = s.alarmThread) (hreq : s'.request = s.request)
    (hrep : s'.replies = s.replies) (hacc : s'.accepted = s.accepted) (hcalls : s'.calls = s.calls)
    (hhung : s'.hung = s.hung) : Good s' L' f := by
  have hhas : ∀ b, HasAlarm s' b ↔ HasAlarm s b := fun b => by rw [HasAlarm, HasAlarm, hthread]
  refine ⟨hF, ?_, ?_, hhung.trans hG.returns⟩
  · refine hG.owned.change (a := a) hplace hstatus (fun b hb _ => ⟨hnext b hb, by rw [hprev]⟩)
      (fun _ _ _ _ => by rw [hpc]) (fun b _ => hhas b) (OwnedAt.of_quiet ha' (fun t c => ?_) ?_) ?_
    · rw [hpc]
      exact hG.owned.quiet_pc_ne ha t c
    · rw [hhas]
      exact hG.owned.quiet_thread ha
    · rw [hthread, hdone]
      exact hG.owned.awake
  · refine hG.answered.congr (fun b => ?_) (fun b _ => by rw [hreq]) hrep hacc hcalls.ge
      fun t c y m p r ht => by rwa [hpc] at ht
    by_cases hba : b = a
    · subst hba
      rw [inFlight_of_quiet ha, inFlight_of_quiet ha', hthread]
    · rw [InFlight, InFlight, hplace b hba, hstatus b hba, hthread]

theorem Good.takeFree (hG : Good s L f) (hL : L .free = a :: l) :
    Good (s.takeFree a) (update L .free l) f := by
  have ha : s.place a = .on .free := (hG.filed.mem .free a).mp (hL ▸ mem_cons_self)
  exact hG.quiet (a := a) (hG.filed.takeFree hL) (Or.inr ha) (Or.inl (put_place_self ..))
    (fun b hb => put_place_of_ne _ hb) (fun _ _ => rfl)
    (fun b _ => takeFree_next nofun) rfl (takeFree_next nofun)
    rfl rfl rfl rfl rfl rfl rfl

theorem Good.freeAlarm (hG : Good s L f) (ha : s.place a = .out) :
    Good (s.freeAlarm a) (update L .free (a :: L .free)) f := by
  refine hG.quiet (a := a) (hG.filed.freeAlarm fun k hk => by rw [ha] at hk; cases hk) (Or.inl ha)
    (Or.inr (put_place_self ..)) (fun b hb => put_place_of_ne _ hb)
    (fun b hb => update_of_ne hb ..)
    (fun b hb => freeAlarm_next nofun fun he => hb (by cases he; rfl)) rfl
    (freeAlarm_next nofun nofun) rfl rfl rfl rfl rfl rfl rfl

end Osfmk.Clocks

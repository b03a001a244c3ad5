import Osfmk.Lib.Buckets
import Osfmk.Dipc.PortTable

/-!
# Ports are unique per UID and freed once

The turns of the threads keep the table and the two counts in order.  Three things are not checked:
`dipc_uid_allocate` does not look whether the identifier is in use, `dipc_port_copyout` does not drop
its reference to the port it has made in vain, and a thread that drops the last reference does not
know whether another one, that has done so before, still has to call `io_free`.
-/

set_option linter.unusedSectionVars false

open Function (update update_apply update_of_ne update_self)
open List Option

namespace Osfmk

open Census Buckets

namespace PortTable

variable {A : Type} [DecidableEq A] {t : PortTable A} {a : A} {x : NamedPort} {uid : Uid} {l : List A}

theorem walk_eq (h : ∀ c ∈ l, ∃ u, t.uidAt c = some u) :
    t.walk uid l = some (l.find? fun c => decide (t.uidAt c = some uid)) := by
  induction l with
  | nil => rfl
  | cons c l ih =>
    obtain ⟨u, hu⟩ := h c mem_cons_self
    have ih := ih fun c hc => h c (mem_cons_of_mem _ hc)
    rw [walk, hu, bind_some, ih, List.find?_cons, hu]
    by_cases he : u = uid
    · simp [he]
    · simp [he]

theorem unlink_of_not (h : ∀ c ∈ l, ∃ u, t.uidAt c = some u ∧ u ≠ uid) :
    t.unlink uid l = some l := by
  induction l with
  | nil => rfl
  | cons c l ih =>
    obtain ⟨u, hu, hne⟩ := h c mem_cons_self
    have ih := ih fun c hc => h c (mem_cons_of_mem _ hc)
    rw [unlink, hu, bind_some, if_neg hne, ih, map_some]

theorem unlink_of_mem (ha : a ∈ l) (h : ∀ c ∈ l, ∃ u, t.uidAt c = some u ∧ (u = uid ↔ c = a)) :
    t.unlink uid l = some (l.erase a) := by
  induction l with
  | nil => cases ha
  | cons c l ih =>
    obtain ⟨u, hu, hiff⟩ := h c mem_cons_self
    rw [unlink, hu, bind_some]
    by_cases hca : c = a
    · rw [if_pos (hiff.mpr hca), hca, erase_cons_head]
    · have hal : a ∈ l := (mem_cons.mp ha).resolve_left (Ne.symm hca)
      rw [if_neg fun he => hca (hiff.mp he), ih hal fun c hc => h c (mem_cons_of_mem _ hc),
        erase_cons_tail (by simpa using hca), map_some]

@[simp] theorem ports_set (b : A) : (t.set a x).ports b = if b = a then some x else t.ports b := by
  simp [set, update_apply]

@[simp] theorem ports_enter : (t.enter a uid).ports = t.ports := rfl

theorem uidAt_eq (h : t.ports a = some x) : t.uidAt a = x.uid := by
  rw [uidAt, h, bind_some]

end PortTable

namespace PortPc

variable {A : Type} {pc : PortPc A} {a : A}

theorem target_of_holds (h : pc.holds = some a) : pc.target = some a := by
  cases pc <;> simp_all [holds, target]

theorem target_of_looks (h : pc.looks = some a) : pc.target = some a := by
  cases pc <;> simp_all [looks, target]

theorem target_of_frees (h : pc.frees = some a) : pc.target = some a := by
  cases pc <;> simp_all [frees, target]

theorem looks_ne_of_holds (h : pc.holds = some a) : pc.looks ≠ some a := by
  cases pc <;> simp_all [holds, looks]

theorem only (h : pc.target = some a) (b : A) (hb : pc.target = some b) : b = a :=
  some.inj (hb.symm.trans h)

theorem target_cases (h : pc.target = some a) :
    pc.holds = some a ∨ pc.looks = some a ∨ pc.frees = some a := by
  cases pc <;> simp_all [holds, looks, frees, target]

end PortPc

namespace DipcNode

variable {P A : Type} [DecidableEq P] [DecidableEq A]

/-- The port is in the table. -/
def Listed (t : PortTable A) (pc : P → PortPc A) (a : A) (uid : Uid) : Prop :=
  t.uidAt a = some uid ∧ uid.Named ∧ ∀ q, pc q ≠ .torn a

/-- The counts of a port, and who frees it. -/
structure PortOk (pc : P → PortPc A) (a : A) (x : NamedPort) : Prop where
  refs : Counted (fun p => (pc p).holds) a x.references
  looks : Counted (fun p => (pc p).looks) a x.refCount
  one : ∀ p q, (pc p).frees = some a → (pc q).frees = some a → p = q
  torn : ∀ p, pc p = .torn a →
    x.references = 0 ∧ x.refCount = 0 ∧ (x.dipc.isSome → x.active = false)
  last : x.references = 0 → x.refCount = 0 → ∃ p, (pc p).frees = some a
  created : ∀ p uid, pc p = .created a uid →
    uid.Named ∧ x.uid = some Uid.unassigned ∧ ∀ q, (pc q).target = some a → q = p

/-- **What holds between two turns.** -/
structure Inv (s : DipcNode P A) : Prop where
  safe : s.fault = false
  gone : ∀ a, s.table.ports a = none → ∀ p, (s.pc p).target ≠ some a
  port : ∀ a x, s.table.ports a = some x → PortOk s.pc a x
  table : Indexed Uid.hash s.table.bucket (Listed s.table s.pc)
  missed : ∀ p uid, s.pc p = .missed uid → uid.Named

/-- Before a new identifier is used, no port has it; when a proxy is entered, nobody has entered
another one; and when the last reference is dropped, nobody is on the way to `io_free`. -/
def Sound (s : DipcNode P A) : Act P A → Prop
  | .initLocked p => ∀ a x, s.pc p = .initing a → s.table.ports a = some x → x.dipc = none →
      s.table.identifier + 1 ≠ portIdNull ∧
        s.table.dipcUidPeek ⟨s.self, s.table.identifier + 1⟩ = some none
  | .install p => ∀ a uid, s.pc p = .created a uid → s.table.dipcUidPeek uid = some none
  | .release p => ∀ a x, s.pc p = .holding a → s.table.ports a = some x → x.references = 1 →
      ∀ q, s.pc q ≠ .dying a
  | _ => True

/-- At most one live port has a UID; what a thread has a reference to is allocated; no thread has
used, or freed, a port that is not; and every port is known to a thread that will release or free it.
-/
structure Unique (s : DipcNode P A) : Prop where
  one : ∀ a b x y uid, s.table.ports a = some x → s.table.ports b = some y →
    x.active = true → y.active = true → x.uid = some uid → y.uid = some uid →
    uid.valid s.kktNodeIsValid = true → a = b
  kept : ∀ p a, (s.pc p).holds = some a ∨ (s.pc p).looks = some a → (s.table.ports a).isSome
  safe : s.fault = false
  known : ∀ a, (s.table.ports a).isSome → ∃ p, (s.pc p).target = some a

variable {s s' : DipcNode P A} {t t' : PortTable A} {pc : P → PortPc A} {p : P} {pc' : PortPc A}
  {a b : A} {x x' : NamedPort} {uid : Uid}

theorem counted_same {n : ℕ} (f : PortPc A → Option A) (h : Counted (fun q => f (pc q)) a n)
    (hf : f (pc p) = some a ↔ f pc' = some a) :
    Counted (fun q => f (update pc p pc' q)) a n := by
  refine h.congr fun q => ?_
  rw [update_apply]
  split
  · next hq => rw [hq, hf]
  · rfl

theorem counted_take {n : ℕ} (f : PortPc A → Option A) (h : Counted (fun q => f (pc q)) a n)
    (hold : f (pc p) ≠ some a) (hnew : f pc' = some a) :
    Counted (fun q => f (update pc p pc' q)) a (n + 1) := by
  refine h.take (m := p) (fun q hq => ?_) hold ?_
  · rw [update_of_ne hq]
  · rw [update_self, hnew]

theorem counted_drop {n : ℕ} (f : PortPc A → Option A) (h : Counted (fun q => f (pc q)) a n)
    (hold : f (pc p) = some a) (hnew : f pc' ≠ some a) :
    n ≠ 0 ∧ Counted (fun q => f (update pc p pc' q)) a (n - 1) := by
  refine h.drop (m := p) (fun q hq => ?_) hold ?_
  · rw [update_of_ne hq]
  · rw [update_self]
    exact hnew

theorem update_cases {q : P} {Q : PortPc A → Prop} (h : Q (update pc p pc' q)) :
    (q = p ∧ Q pc') ∨ (q ≠ p ∧ Q (pc q)) := by
  by_cases hq : q = p
  · rw [hq, update_self] at h
    exact .inl ⟨hq, h⟩
  · rw [update_of_ne hq] at h
    exact .inr ⟨hq, h⟩

theorem PortOk.frame (h : PortOk pc a x) (hold : (pc p).target ≠ some a)
    (hnew : pc'.target ≠ some a) : PortOk (update pc p pc') a x := by
  have hholds : (pc p).holds = some a ↔ pc'.holds = some a :=
    ⟨fun hp => absurd (PortPc.target_of_holds hp) hold,
      fun hp => absurd (PortPc.target_of_holds hp) hnew⟩
  have hlooks : (pc p).looks = some a ↔ pc'.looks = some a :=
    ⟨fun hp => absurd (PortPc.target_of_looks hp) hold,
      fun hp => absurd (PortPc.target_of_looks hp) hnew⟩
  -- who has to do with the port is another thread
  have hother : ∀ q, (update pc p pc' q).target = some a →
      update pc p pc' q = pc q := by
    intro q hq
    rcases update_cases (Q := fun c => c.target = some a) hq with ⟨-, hc⟩ | ⟨hqp, -⟩
    · exact absurd hc hnew
    · exact update_of_ne hqp ..
  have hfrees : ∀ q, (update pc p pc' q).frees = some a → (pc q).frees = some a := by
    intro q hq
    rw [← hother q (PortPc.target_of_frees hq)]
    exact hq
  refine ⟨counted_same _ h.refs hholds, counted_same _ h.looks hlooks,
    fun q r hq hr => h.one q r (hfrees q hq) (hfrees r hr), fun q hq => ?_, fun h1 h2 => ?_,
    fun q u hq => ?_⟩
  · refine h.torn q ?_
    rw [← hother q (by rw [hq]; rfl)]
    exact hq
  · obtain ⟨q, hq⟩ := h.last h1 h2
    have hqp : q ≠ p := by
      rintro rfl
      exact hold (PortPc.target_of_frees hq)
    exact ⟨q, by rw [update_of_ne hqp]; exact hq⟩
  · have hpc : pc q = .created a u := by
      rw [← hother q (by rw [hq]; rfl)]
      exact hq
    obtain ⟨hu, hx, hpriv⟩ := h.created q u hpc
    refine ⟨hu, hx, fun r hr => hpriv r ?_⟩
    rw [← hother r hr]
    exact hr

theorem listed_same (huid : t'.uidAt a = t.uidAt a) (hold : pc p ≠ .torn a) (hnew : pc' ≠ .torn a) :
    Listed t' (update pc p pc') a uid ↔ Listed t pc a uid := by
  unfold Listed
  rw [huid]
  refine and_congr_right fun _ => and_congr_right fun _ => ⟨fun h q hq => ?_, fun h q hq => ?_⟩
  · have hqp : q ≠ p := by
      rintro rfl
      exact hold hq
    exact h q (by rw [update_of_ne hqp]; exact hq)
  · rcases update_cases (Q := fun c => c = .torn a) hq with ⟨-, hc⟩ | ⟨-, hc⟩
    · exact hnew hc
    · exact h q hc

theorem listed_frame (hports : t'.ports b = t.ports b) (hold : (pc p).target ≠ some b)
    (hnew : pc'.target ≠ some b) :
    Listed t' (update pc p pc') b uid ↔ Listed t pc b uid := by
  refine listed_same ?_ (fun hp => hold (by rw [hp]; rfl)) fun hp => hnew (by rw [hp]; rfl)
  unfold PortTable.uidAt
  rw [hports]

section Turn

variable (h : Inv s) (a : A) (hports : ∀ b, b ≠ a → t'.ports b = s.table.ports b)
  (hold : ∀ b, (s.pc p).target = some b → b = a) (hnew : ∀ b, pc'.target = some b → b = a)
  (hport : (t'.ports a).elim (∀ q, (update s.pc p pc' q).target ≠ some a)
    (PortOk (update s.pc p pc') a))
  (hmissed : ∀ uid, pc' = .missed uid → uid.Named)
include h hports hold hnew hport hmissed

/-- **The rule for a turn**: one thread moves, and one port changes. -/
theorem Inv.turn (htable : Indexed Uid.hash t'.bucket (Listed t' (update s.pc p pc'))) :
    Inv { s with table := t', pc := update s.pc p pc' } := by
  refine ⟨h.safe, fun b hb => ?_, fun b y hb => ?_, htable, fun q u hq => ?_⟩
  · by_cases hba : b = a
    · rw [hba] at hb ⊢
      rw [hb] at hport
      exact hport
    · intro q hq
      rcases update_cases (Q := fun c => c.target = some b) hq with ⟨-, hc⟩ | ⟨-, hc⟩
      · exact hba (hnew b hc)
      · exact h.gone b (by rw [← hports b hba]; exact hb) q hc
  · by_cases hba : b = a
    · rw [hba] at hb ⊢
      rw [hb] at hport
      exact hport
    · exact (h.port b y (by rw [← hports b hba]; exact hb)).frame (fun hc => hba (hold b hc))
        fun hc => hba (hnew b hc)
  · rcases update_cases (Q := fun c => c = .missed u) hq with ⟨-, hc⟩ | ⟨-, hc⟩
    · exact hmissed u hc
    · exact h.missed q u hc

theorem Inv.turn_same (hbucket : t'.bucket = s.table.bucket)
    (hlisted : ∀ uid, Listed t' (update s.pc p pc') a uid ↔ Listed s.table s.pc a uid) :
    Inv { s with table := t', pc := update s.pc p pc' } := by
  refine h.turn a hports hold hnew hport hmissed ?_
  rw [hbucket]
  refine h.table.congr fun b u => ?_
  by_cases hba : b = a
  · rw [hba]
    exact hlisted u
  · exact listed_frame (hports b hba) (fun hc => hba (hold b hc)) fun hc => hba (hnew b hc)

end Turn

theorem PortOk.keep (h : PortOk pc a x) (hnew : pc'.frees = none)
    (htorn : ∀ q, pc q ≠ .torn a) (hpriv : ∀ q uid, pc q = .created a uid → q = p)
    (hpub : ∀ uid, pc' ≠ .created a uid)
    (hrefs : Counted (fun q => (update pc p pc' q).holds) a x'.references)
    (hlooks : Counted (fun q => (update pc p pc' q).looks) a x'.refCount)
    (hpos : x'.references ≠ 0 ∨ x'.refCount ≠ 0) : PortOk (update pc p pc') a x' := by
  have hfrees : ∀ q, (update pc p pc' q).frees = some a → (pc q).frees = some a := by
    intro q hq
    rcases update_cases (Q := fun c => c.frees = some a) hq with ⟨-, hc⟩ | ⟨-, hc⟩
    · rw [hnew] at hc
      cases hc
    · exact hc
  refine ⟨hrefs, hlooks, fun q r hq hr => h.one q r (hfrees q hq) (hfrees r hr), fun q hq => ?_,
    fun h1 h2 => absurd h2 (hpos.resolve_left fun hne => hne h1), fun q u hq => ?_⟩
  · rcases update_cases (Q := fun c => c = .torn a) hq with ⟨-, hc⟩ | ⟨-, hc⟩
    · rw [hc] at hnew
      cases hnew
    · exact absurd hc (htorn q)
  · rcases update_cases (Q := fun c => c = .created a u) hq with ⟨-, hc⟩ | ⟨hqp, hc⟩
    · exact absurd hc (hpub u)
    · exact absurd (hpriv q u hc) hqp

theorem PortOk.fresh (hno : ∀ q, (pc q).target ≠ some a) (hholds : pc'.holds = some a)
    (hrefs : x.references = 1) (hcount : x.refCount = 0)
    (hcreated : ∀ uid, pc' = .created a uid → uid.Named ∧ x.uid = some Uid.unassigned) :
    PortOk (update pc p pc') a x := by
  have hp : ∀ q, (update pc p pc' q).target = some a → q = p := by
    intro q hq
    rcases update_cases (Q := fun c => c.target = some a) hq with ⟨hqp, -⟩ | ⟨-, hc⟩
    · exact hqp
    · exact absurd hc (hno q)
  have hlooks := PortPc.looks_ne_of_holds hholds
  have hzero : Counted (fun q => (pc q).holds) a 0 :=
    Counted.of_none fun q hq => hno q (PortPc.target_of_holds hq)
  have hnone : Counted (fun q => (pc q).looks) a 0 :=
    Counted.of_none fun q hq => hno q (PortPc.target_of_looks hq)
  refine ⟨?_, ?_, fun q r hq hr => ?_, fun q hq => ?_, fun h1 => ?_, fun q u hq => ?_⟩
  · rw [hrefs]
    exact counted_take _ hzero (fun hq => hno p (PortPc.target_of_holds hq)) hholds
  · rw [hcount]
    exact counted_same _ hnone ⟨fun hq => absurd (PortPc.target_of_looks hq) (hno p),
      fun hq => absurd hq hlooks⟩
  · rw [hp q (PortPc.target_of_frees hq), hp r (PortPc.target_of_frees hr)]
  · rw [hp q (by rw [hq]; rfl), update_self] at hq
    rw [hq] at hholds
    cases hholds
  · rw [hrefs] at h1
    cases h1
  · have hqp := hp q (by rw [hq]; rfl)
    rw [hqp, update_self] at hq
    exact ⟨(hcreated u hq).1, (hcreated u hq).2, fun r hr => (hp r hr).trans hqp.symm⟩

theorem Inv.ported (h : Inv s) (hp : (s.pc p).target = some a) :
    ∃ x, s.table.ports a = some x ∧ PortOk s.pc a x := by
  cases hx : s.table.ports a with
  | none => exact absurd hp (h.gone a hx p)
  | some x => exact ⟨x, rfl, h.port a x hx⟩

section

variable (h : PortOk pc a x)
include h

theorem PortOk.holds_ne_zero (hp : (pc p).holds = some a) : x.references ≠ 0 := by
  intro hz
  have hrefs := h.refs
  rw [hz] at hrefs
  exact hrefs.ne_of_zero p hp

theorem PortOk.looks_ne_zero (hp : (pc p).looks = some a) : x.refCount ≠ 0 := by
  intro hz
  have hlooks := h.looks
  rw [hz] at hlooks
  exact hlooks.ne_of_zero p hp

theorem PortOk.not_torn
    (hp : (pc p).holds = some a ∨ (pc p).looks = some a) (q : P) : pc q ≠ .torn a := by
  intro hq
  obtain ⟨h1, h2, -⟩ := h.torn q hq
  rcases hp with hp | hp
  · exact h.holds_ne_zero hp h1
  · exact h.looks_ne_zero hp h2

theorem PortOk.private_of (hp : (pc p).target = some a) (q : P) (uid : Uid)
    (hq : pc q = .created a uid) : q = p :=
  ((h.created q uid hq).2.2 p hp).symm

end

theorem Inv.peek (h : Inv s) (uid : Uid) :
    ∃ r, s.table.dipcUidPeek uid = some r ∧ (∀ a, r = some a → Listed s.table s.pc a uid) ∧
      (r = none → ∀ a, ¬ Listed s.table s.pc a uid) := by
  have hmem : ∀ c ∈ s.table.bucket uid.hash, ∃ u, s.table.uidAt c = some u := by
    intro c hc
    obtain ⟨u, hu, -⟩ := (h.table.mem c _).mp hc
    exact ⟨u, hu.1⟩
  refine ⟨_, PortTable.walk_eq hmem, fun a ha => ?_, fun hnone a ha => ?_⟩
  · obtain ⟨u, hu, -⟩ := (h.table.mem a _).mp (mem_of_find?_eq_some ha)
    have huid : s.table.uidAt a = some uid := by simpa using List.find?_some ha
    have he : u = uid := some.inj (hu.1.symm.trans huid)
    exact he ▸ hu
  · have hno := List.find?_eq_none.mp hnone a (h.table.mem_of ha)
    exact hno (by simpa using ha.1)

theorem Inv.not_listed (h : Inv s) (hpeek : s.table.dipcUidPeek uid = some none) (a : A) :
    ¬ Listed s.table s.pc a uid := by
  obtain ⟨r, hr, -, hnone⟩ := h.peek uid
  rw [hpeek] at hr
  exact hnone (some.inj hr).symm a

theorem listed_port (hl : Listed t pc a uid) :
    ∃ x d, t.ports a = some x ∧ x.dipc = some d ∧ d.uid = uid := by
  obtain ⟨x, hx, huid⟩ := bind_eq_some_iff.mp hl.1
  obtain ⟨d, hd, hdu⟩ := map_eq_some_iff.mp huid
  exact ⟨x, d, hx, hd, hdu⟩

section

variable (h : Inv s)
include h

theorem Inv.keep (t' : PortTable A) (x' : NamedPort) (hx : s.table.ports a = some x)
    (hports : ∀ b, t'.ports b = if b = a then some x' else s.table.ports b)
    (hbucket : t'.bucket = s.table.bucket) (huid : x'.uid = x.uid)
    (hold : ∀ b, (s.pc p).target = some b → b = a) (hnew : pc'.target = some a ∨ pc' = .idle)
    (hfrees : pc'.frees = none) (htorn : ∀ q, s.pc q ≠ .torn a)
    (hpriv : ∀ q uid, s.pc q = .created a uid → q = p) (hpub : ∀ uid, pc' ≠ .created a uid)
    (hrefs : Counted (fun q => (update s.pc p pc' q).holds) a x'.references)
    (hlooks : Counted (fun q => (update s.pc p pc' q).looks) a x'.refCount)
    (hpos : x'.references ≠ 0 ∨ x'.refCount ≠ 0) :
    Inv { s with table := t', pc := update s.pc p pc' } := by
  have hxa : t'.ports a = some x' := by rw [hports, if_pos rfl]
  refine h.turn_same a (fun b hb => by rw [hports, if_neg hb]) hold (fun b hb => ?_)
    ?_ (fun u hu => ?_) hbucket fun u => listed_same ?_ (htorn p) ?_
  · rcases hnew with hnew | rfl
    · exact some.inj (hb.symm.trans hnew)
    · cases hb
  · rw [hxa]
    exact (h.port a x hx).keep hfrees htorn hpriv hpub hrefs hlooks hpos
  · rw [hu] at hnew
    rcases hnew with hnew | hnew <;> cases hnew
  · rw [PortTable.uidAt_eq hxa, PortTable.uidAt_eq hx, huid]
  · intro he
    rw [he] at hfrees
    cases hfrees

theorem Inv.leave (hold : (s.pc p).target = none) (hnew : pc'.target = none)
    (hmissed : ∀ uid, pc' = .missed uid → uid.Named) :
    Inv { s with pc := update s.pc p pc' } := by
  have hne : ∀ b, (s.pc p).target ≠ some b ∧ pc'.target ≠ some b := by
    intro b
    rw [hold, hnew]
    exact ⟨nofun, nofun⟩
  refine ⟨h.safe, fun b hb q hq => ?_, fun b y hb => (h.port b y hb).frame (hne b).1 (hne b).2,
    h.table.congr fun b u => listed_frame rfl (hne b).1 (hne b).2, fun q u hq => ?_⟩
  · rcases update_cases (Q := fun c => c.target = some b) hq with ⟨-, hc⟩ | ⟨-, hc⟩
    · exact (hne b).2 hc
    · exact h.gone b hb q hc
  · rcases update_cases (Q := fun c => c = .missed u) hq with ⟨-, hc⟩ | ⟨-, hc⟩
    · exact hmissed u hc
    · exact h.missed q u hc

theorem Inv.fresh (hx : s.table.ports a = none) (hold : (s.pc p).target = none)
    (hnew : pc'.target = some a) (hholds : pc'.holds = some a) (hrefs : x.references = 1)
    (hcount : x.refCount = 0) (huid : ∀ uid, x.uid = some uid → ¬ uid.Named)
    (hcreated : ∀ uid, pc' = .created a uid → uid.Named ∧ x.uid = some Uid.unassigned) :
    Inv { s with table := s.table.set a x, pc := update s.pc p pc' } := by
  have hxa : (s.table.set a x).ports a = some x := by simp
  refine h.turn_same a (fun b hb => by simp [hb]) (fun b hb => ?_) (PortPc.only hnew) ?_
    (fun u hu => ?_) rfl fun u => ⟨fun hl => ?_, fun hl => ?_⟩
  · rw [hold] at hb
    cases hb
  · rw [hxa]
    exact PortOk.fresh (h.gone a hx) hholds hrefs hcount hcreated
  · rw [hu] at hnew
    cases hnew
  · rw [Listed, PortTable.uidAt_eq hxa] at hl
    exact absurd hl.2.1 (huid u hl.1)
  · obtain ⟨y, d, hy, -⟩ := listed_port hl
    rw [hx] at hy
    cases hy

theorem Inv.lookup {u : Uid} (pc' : PortPc A) (hp : s.pc p = .idle)
    (hnew : pc'.target = none) (hmissed : ∀ uid, pc' = .missed uid → uid.Named) :
    ∃ m, (s.table.dipcUidLookup u).map (fun m => (m.1, m.2.elim pc' .looked)) = some m ∧
      Inv { s with table := m.1, pc := update s.pc p m.2 } := by
  obtain ⟨r, hr, hfound, -⟩ := h.peek u
  have hidle : (s.pc p).target = none := by rw [hp]; rfl
  unfold PortTable.dipcUidLookup
  rw [hr, bind_some]
  cases r with
  | none => exact ⟨_, rfl, h.leave hidle hnew hmissed⟩
  | some a =>
    have hl := hfound a rfl
    obtain ⟨x, d, hx, hd, hdu⟩ := listed_port hl
    have hok := h.port a x hx
    simp only [hx, bind_some, hd, map_some]
    refine ⟨_, rfl, ?_⟩
    have hcount : x.refCount = d.refCount := by simp [NamedPort.refCount, hd]
    refine h.keep _ { x with dipc := some { d with refCount := d.refCount + 1 } } hx
      (fun b => by simp) rfl (by simp [NamedPort.uid, hd]) (fun b hb => ?_) (.inl rfl) rfl hl.2.2
      (fun q u hq => ?_) nofun ?_ ?_ (.inr (by simp [NamedPort.refCount]))
    · rw [hidle] at hb
      cases hb
    · -- a port that is not entered yet is not found
      have hxu := (hok.created q u hq).2.1
      rw [NamedPort.uid, hd, map_some] at hxu
      have hnamed := hl.2.1
      rw [← hdu, some.inj hxu] at hnamed
      exact absurd rfl hnamed
    · exact counted_same _ hok.refs (by rw [hp]; simp [PortPc.holds])
    · have hlooks := hok.looks
      rw [hcount] at hlooks
      exact counted_take _ hlooks (by rw [hp]; simp [PortPc.looks]) rfl

theorem Inv.reference {q : P} (hp : s.pc p = .holding a) (hq : s.pc q = .idle) :
    ∃ t, s.table.ipReference a = some t ∧
      Inv { s with table := t, pc := update s.pc q (.holding a) } := by
  obtain ⟨x, hx, hok⟩ := h.ported (p := p) (a := a) (by rw [hp]; rfl)
  have hholds : (s.pc p).holds = some a := by rw [hp]; rfl
  unfold PortTable.ipReference
  rw [hx, map_some]
  refine ⟨_, rfl, h.keep _ { x with references := x.references + 1 } hx (fun b => by simp) rfl
    rfl (fun b hb => ?_) (.inl rfl) rfl (hok.not_torn (.inl hholds)) (fun r u hr => ?_)
    nofun ?_ ?_ (.inl (Nat.succ_ne_zero _))⟩
  · rw [hq] at hb
    cases hb
  · have hrp := hok.private_of (p := p) (by rw [hp]; rfl) r u hr
    rw [hrp, hp] at hr
    cases hr
  · exact counted_take _ hok.refs (by rw [hq]; simp [PortPc.holds]) rfl
  · exact counted_same _ hok.looks (by rw [hq]; simp [PortPc.looks])

theorem Inv.hold (hx : s.table.ports a = some x) (hp : (s.pc p).holds = some a)
    (hnew : pc' = .holding a ∨ pc' = .initing a) :
    Inv { s with pc := update s.pc p pc' } := by
  have hok := h.port a x hx
  have htarget := PortPc.target_of_holds hp
  have hlooks := PortPc.looks_ne_of_holds hp
  refine h.keep s.table x hx (fun b => ?_) rfl rfl
    (PortPc.only htarget) (.inl ?_) ?_ (hok.not_torn (.inl hp))
    (hok.private_of htarget) (fun u => ?_) (counted_same _ hok.refs ?_)
    (counted_same _ hok.looks ?_) (.inl (hok.holds_ne_zero hp))
  · split
    · next hb => rw [hb, hx]
    · rfl
  all_goals rcases hnew with rfl | rfl
  all_goals simp_all [PortPc.target, PortPc.frees, PortPc.holds, PortPc.looks]

theorem Inv.enter {d : DipcPort} (hx : s.table.ports a = some x)
    (hp : (s.pc p).holds = some a) (hnone : ∀ uid, ¬ Listed s.table s.pc a uid)
    (hfree : ∀ b, ¬ Listed s.table s.pc b d.uid) (hnamed : d.uid.Named)
    (hcount : d.refCount = x.refCount)
    (hports : ∀ b, t'.ports b = if b = a then some { x with dipc := some d } else s.table.ports b)
    (hbucket : t'.bucket = (s.table.enter a d.uid).bucket) :
    Inv { s with table := t', pc := update s.pc p (.holding a) } := by
  have hok := h.port a x hx
  have htarget := PortPc.target_of_holds hp
  have hlooks := PortPc.looks_ne_of_holds hp
  have hnt := hok.not_torn (.inl hp)
  have hxa : t'.ports a = some { x with dipc := some d } := by rw [hports, if_pos rfl]
  have hold : ∀ b, (s.pc p).target = some b → b = a := PortPc.only htarget
  have hnew : ∀ b, (PortPc.holding a).target = some b → b = a := fun b hb =>
    (some.inj hb).symm
  have hothers : ∀ b, b ≠ a → t'.ports b = s.table.ports b := fun b hb => by rw [hports, if_neg hb]
  refine h.turn a hothers hold hnew ?_ nofun ?_
  · rw [hxa]
    refine hok.keep rfl hnt (hok.private_of htarget) nofun
      (counted_same _ hok.refs (by rw [hp]; simp [PortPc.holds])) ?_
      (.inl (hok.holds_ne_zero hp))
    have hc : Counted (fun q => (update s.pc p (.holding a) q).looks) a x.refCount :=
      counted_same PortPc.looks hok.looks (iff_of_false hlooks nofun)
    rw [← hcount] at hc
    exact hc
  · rw [hbucket]
    refine h.table.enter hnone hfree fun b u => ?_
    by_cases hba : b = a
    · rw [hba]
      have huid : t'.uidAt a = some d.uid := PortTable.uidAt_eq hxa
      constructor
      · intro hl
        exact .inr ⟨rfl, some.inj (hl.1.symm.trans huid)⟩
      · rintro (hl | ⟨-, rfl⟩)
        · exact absurd hl (hnone u)
        · refine ⟨huid, hnamed, fun q hq => ?_⟩
          rcases update_cases (Q := fun c => c = .torn a) hq with ⟨-, hc⟩ | ⟨-, hc⟩
          · cases hc
          · exact hnt q hc
    · rw [listed_frame (hothers b hba) (fun hc => hba (hold b hc)) fun hc => hba (hnew b hc)]
      simp [hba]

theorem Inv.init (hp : s.pc p = .initing a)
    (hfree : ∀ x, s.table.ports a = some x → x.dipc = none → s.table.identifier + 1 ≠ portIdNull ∧
        s.table.dipcUidPeek ⟨s.self, s.table.identifier + 1⟩ = some none) :
    ∃ t, s.table.dipcPortInit s.self a = some t ∧
      Inv { s with table := t, pc := update s.pc p (.holding a) } := by
  obtain ⟨x, hx, hok⟩ := h.ported (p := p) (a := a) (by rw [hp]; rfl)
  have hholds : (s.pc p).holds = some a := by rw [hp]; rfl
  unfold PortTable.dipcPortInit
  rw [hx, bind_some]
  cases hd : x.dipc with
  | some d =>
    -- another thread has been faster
    exact ⟨_, if_pos rfl, h.hold hx hholds (.inl rfl)⟩
  | none =>
    obtain ⟨hid, hpeek⟩ := hfree x hx hd
    rw [if_neg (by simp), PortTable.dipcUidAllocate, hx, map_some]
    refine ⟨_, rfl, h.enter (d := ⟨⟨s.self, s.table.identifier + 1⟩, 0⟩) hx hholds (fun u hl => ?_)
      (h.not_listed hpeek) hid ?_ (fun b => ?_) rfl⟩
    · rw [Listed, PortTable.uidAt_eq hx, NamedPort.uid, hd] at hl
      cases hl.1
    · simp [NamedPort.refCount, hd]
    · change ((s.table.enter a _).set a _).ports b = _
      simp

theorem Inv.install (hp : s.pc p = .created a uid)
    (hpeek : s.table.dipcUidPeek uid = some none) :
    ∃ t, (s.table.dipcUidInstall a uid).bind (PortTable.installed a) = some (t, true) ∧
      Inv { s with table := t, pc := update s.pc p (.holding a) } := by
  obtain ⟨x, hx, hok⟩ := h.ported (p := p) (a := a) (by rw [hp]; rfl)
  obtain ⟨hnamed, hxu, -⟩ := hok.created p uid hp
  obtain ⟨d, hd, hdu⟩ := map_eq_some_iff.mp hxu
  unfold PortTable.dipcUidInstall
  simp only [hx, bind_some, hd, hdu, hpeek, map_some]
  refine ⟨_, rfl, h.enter (d := { d with uid := uid }) hx (by rw [hp]; rfl) (fun u hl => ?_)
    (h.not_listed hpeek) hnamed ?_ (fun b => ?_) rfl⟩
  · rw [Listed, PortTable.uidAt_eq hx, hxu] at hl
    have hu := hl.2.1
    rw [← some.inj hl.1] at hu
    exact absurd rfl hu
  · simp [NamedPort.refCount, hd]
  · simp

theorem Inv.portReference (hp : s.pc p = .looked a) :
    ∃ t, s.table.dipcUidPortReference a = some t ∧
      Inv { s with table := t, pc := update s.pc p (.holding a) } := by
  obtain ⟨x, hx, hok⟩ := h.ported (p := p) (a := a) (by rw [hp]; rfl)
  have hlooks : (s.pc p).looks = some a := by rw [hp]; rfl
  have htarget : (s.pc p).target = some a := by rw [hp]; rfl
  -- a DIPC reference is counted in an extension
  obtain ⟨d, hd⟩ : ∃ d, x.dipc = some d := by
    cases hd : x.dipc with
    | none => exact absurd (by simp [NamedPort.refCount, hd]) (hok.looks_ne_zero hlooks)
    | some d => exact ⟨d, rfl⟩
  have hcount : x.refCount = d.refCount := by simp [NamedPort.refCount, hd]
  unfold PortTable.dipcUidPortReference
  rw [hx, bind_some, hd, map_some]
  refine ⟨_, rfl, h.keep _
    { x with
      references := x.references + 1
      dipc := some { d with refCount := d.refCount - 1 } } hx
    (fun b => by simp) rfl (by simp [NamedPort.uid, hd])
    (PortPc.only htarget) (.inl rfl) rfl
    (hok.not_torn (.inr hlooks))
    (hok.private_of htarget) nofun ?_ ?_ (.inl (Nat.succ_ne_zero _))⟩
  · exact counted_take _ hok.refs (by rw [hp]; simp [PortPc.holds]) rfl
  · have hc := hok.looks
    rw [hcount] at hc
    exact (counted_drop _ hc hlooks (by simp [PortPc.looks])).2

end

theorem PortOk.doomed (hfrees : pc'.frees = some a) (hothers : ∀ q, q ≠ p → (pc q).frees ≠ some a)
    (hpriv : ∀ q uid, pc q = .created a uid → q = p)
    (hrefs : Counted (fun q => (update pc p pc' q).holds) a x'.references)
    (hlooks : Counted (fun q => (update pc p pc' q).looks) a x'.refCount)
    (htorn : pc' = .torn a →
      x'.references = 0 ∧ x'.refCount = 0 ∧ (x'.dipc.isSome → x'.active = false)) :
    PortOk (update pc p pc') a x' := by
  have hp : ∀ q, (update pc p pc' q).frees = some a → q = p := by
    intro q hq
    rcases update_cases (Q := fun c => c.frees = some a) hq with ⟨hqp, -⟩ | ⟨hqp, hc⟩
    · exact hqp
    · exact absurd hc (hothers q hqp)
  refine ⟨hrefs, hlooks, fun q r hq hr => (hp q hq).trans (hp r hr).symm, fun q hq => ?_,
    fun _ _ => ⟨p, by rw [update_self, hfrees]⟩, fun q u hq => ?_⟩
  · rw [hp q (by rw [hq]; rfl), update_self] at hq
    exact htorn hq
  · rcases update_cases (Q := fun c => c = .created a u) hq with ⟨-, hc⟩ | ⟨hqp, hc⟩
    · rw [hc] at hfrees
      cases hfrees
    · exact absurd (hpriv q u hc) hqp

theorem Inv.release (h : Inv s) (hp : s.pc p = .holding a)
    (hdying : ∀ x, s.table.ports a = some x → x.references = 1 → ∀ q, s.pc q ≠ .dying a) :
    ∃ m, (s.table.ipRelease a).map (fun m => (m.1, if m.2 then .dying a else .idle)) = some m ∧
      Inv { s with table := m.1, pc := update s.pc p m.2 } := by
  obtain ⟨x, hx, hok⟩ := h.ported (p := p) (a := a) (by rw [hp]; rfl)
  have hholds : (s.pc p).holds = some a := by rw [hp]; rfl
  have htarget : (s.pc p).target = some a := by rw [hp]; rfl
  have hnt := hok.not_torn (.inl hholds)
  have hpos := hok.holds_ne_zero hholds
  have hlooks : ∀ c : PortPc A, c.looks = none →
      Counted (fun q => (update s.pc p c q).looks) a x.refCount := by
    intro c hc
    exact counted_same _ hok.looks (by rw [hp, hc]; simp [PortPc.looks])
  unfold PortTable.ipRelease
  simp only [hx, map_some]
  by_cases hone : x.references - 1 = 0
  · -- the last reference
    refine ⟨_, rfl, ?_⟩
    have hsole := hdying x hx (by omega)
    simp only [hone, decide_true, if_true]
    have hxa : (s.table.set a { x with references := 0 }).ports a
        = some { x with references := 0 } := by simp
    refine h.turn_same a (fun b hb => by simp [hb]) (PortPc.only htarget)
      (fun b hb => (some.inj hb).symm) ?_ nofun rfl
      fun u => listed_same ?_ (hnt p) nofun
    · rw [hxa]
      refine PortOk.doomed rfl (fun q _ hq => ?_) (hok.private_of htarget) ?_ (hlooks _ rfl)
        nofun
      · cases hc : s.pc q with
        | dying b =>
          rw [hc] at hq
          exact hsole q (hc.trans (by rw [some.inj hq]))
        | torn b =>
          rw [hc] at hq
          exact hnt q (hc.trans (by rw [some.inj hq]))
        | _ =>
          rw [hc] at hq
          cases hq
      · rw [← hone]
        exact (counted_drop _ hok.refs hholds (by simp [PortPc.holds])).2
    · rw [PortTable.uidAt_eq hxa, PortTable.uidAt_eq hx]
      rfl
  · refine ⟨_, rfl, ?_⟩
    simp only [hone, decide_false, Bool.false_eq_true, if_false]
    exact h.keep _ { x with references := x.references - 1 } hx (fun b => by simp) rfl rfl
      (PortPc.only htarget) (.inr rfl) rfl hnt
      (hok.private_of htarget) nofun
      (counted_drop _ hok.refs hholds (by simp [PortPc.holds])).2 (hlooks _ rfl) (.inl hone)

theorem Inv.tear (h : Inv s) (x' : NamedPort) (hx : s.table.ports a = some x) (hp : s.pc p = .dying a)
    (hrefs : x.references = 0) (hcount : x.refCount = 0)
    (hports : ∀ b, t'.ports b = if b = a then some x' else s.table.ports b)
    (hrefs' : x'.references = 0) (hcount' : x'.refCount = 0)
    (hactive : x'.dipc.isSome → x'.active = false)
    (hbucket : ∀ L : A → Uid → Prop, (∀ b u, L b u ↔ Listed s.table s.pc b u ∧ b ≠ a) →
      Indexed Uid.hash t'.bucket L) :
    Inv { s with table := t', pc := update s.pc p (.torn a) } := by
  have hok := h.port a x hx
  have htarget : (s.pc p).target = some a := by rw [hp]; rfl
  have hfrees : (s.pc p).frees = some a := by rw [hp]; rfl
  have hxa : t'.ports a = some x' := by rw [hports, if_pos rfl]
  have hothers : ∀ b, b ≠ a → t'.ports b = s.table.ports b := fun b hb => by rw [hports, if_neg hb]
  have hold : ∀ b, (s.pc p).target = some b → b = a := PortPc.only htarget
  have hnew : ∀ b, (PortPc.torn a).target = some b → b = a := fun b hb =>
    (some.inj hb).symm
  refine h.turn a hothers hold hnew ?_ nofun (hbucket _ fun b u => ?_)
  · rw [hxa]
    refine PortOk.doomed rfl (fun q hqp hq => hqp (hok.one q p hq hfrees)) (hok.private_of htarget) ?_ ?_
      fun _ => ⟨hrefs', hcount', hactive⟩
    · rw [hrefs', ← hrefs]
      exact counted_same _ hok.refs (by rw [hp]; simp [PortPc.holds])
    · rw [hcount', ← hcount]
      exact counted_same _ hok.looks (by rw [hp]; simp [PortPc.looks])
  by_cases hba : b = a
  · rw [hba]
    simp only [ne_eq, not_true, and_false, iff_false]
    exact fun hl => hl.2.2 p (update_self ..)
  · rw [listed_frame (hothers b hba) (fun hc => hba (hold b hc)) fun hc => hba (hnew b hc)]
    simp [hba]

theorem Inv.unlink {d : DipcPort} (h : Inv s) (hx : s.table.ports a = some x)
    (hd : x.dipc = some d) (htorn : ∀ q, s.pc q ≠ .torn a) :
    ∃ l, s.table.unlink d.uid (s.table.bucket d.uid.hash) = some l ∧
      ∀ L : A → Uid → Prop, (∀ b u, L b u ↔ Listed s.table s.pc b u ∧ b ≠ a) →
        Indexed Uid.hash (update s.table.bucket d.uid.hash l) L := by
  have huid : s.table.uidAt a = some d.uid := by
    rw [PortTable.uidAt_eq hx, NamedPort.uid, hd, map_some]
  by_cases hnamed : d.uid.Named
  · have hl : Listed s.table s.pc a d.uid := ⟨huid, hnamed, htorn⟩
    refine ⟨_, PortTable.unlink_of_mem (h.table.mem_of hl) fun c hc => ?_, fun L hL =>
      h.table.remove hl hL⟩
    obtain ⟨u, hu, -⟩ := (h.table.mem c _).mp hc
    refine ⟨u, hu.1, fun he => h.table.inj c a d.uid (he ▸ hu) hl, fun he => ?_⟩
    rw [he] at hu
    exact some.inj (hu.1.symm.trans huid)
  refine ⟨_, PortTable.unlink_of_not fun c hc => ?_, fun L hL => ?_⟩
  · obtain ⟨u, hu, -⟩ := (h.table.mem c _).mp hc
    exact ⟨u, hu.1, fun he => hnamed (he ▸ hu.2.1)⟩
  · rw [Function.update_eq_self]
    refine h.table.congr fun b u => (hL b u).trans (and_iff_left_of_imp fun hb he => ?_)
    rw [he, Listed, huid] at hb
    exact hnamed (some.inj hb.1 ▸ hb.2.1)

theorem Inv.ioFree (h : Inv s) (hp : s.pc p = .dying a) :
    ∃ m, (s.table.ioFree a).map (fun m => (m.1, if m.2 then .torn a else .idle)) = some m ∧
      Inv { s with table := m.1, pc := update s.pc p m.2 } := by
  obtain ⟨x, hx, hok⟩ := h.ported (p := p) (a := a) (by rw [hp]; rfl)
  have htarget : (s.pc p).target = some a := by rw [hp]; rfl
  have hnt : ∀ q, s.pc q ≠ .torn a := by
    intro q hq
    have hqp := hok.one q p (by rw [hq]; rfl) (by rw [hp]; rfl)
    rw [hqp, hp] at hq
    cases hq
  -- another thread has found the port again, and will free it
  have haway : x.references ≠ 0 ∨ x.refCount ≠ 0 →
      Inv { s with pc := update s.pc p .idle } := by
    refine h.keep s.table x hx (fun b => ?_) rfl rfl
      (PortPc.only htarget) (.inr rfl) rfl hnt
      (hok.private_of htarget) nofun ?_ ?_
    · split
      · next hb => rw [hb, hx]
      · rfl
    · exact counted_same _ hok.refs (by rw [hp]; simp [PortPc.holds])
    · exact counted_same _ hok.looks (by rw [hp]; simp [PortPc.looks])
  unfold PortTable.ioFree
  rw [hx, bind_some]
  by_cases hrefs : x.references = 0
  · rw [if_neg (not_not.mpr hrefs)]
    cases hd : x.dipc with
    | none =>
      have hcount : x.refCount = 0 := by simp [NamedPort.refCount, hd]
      refine ⟨_, rfl, h.tear x hx hp hrefs hcount (fun b => ?_) hrefs hcount ?_ fun L hL => ?_⟩
      · split
        · next hb => rw [hb, hx]
        · rfl
      · rw [hd]
        intro hc
        cases hc
      · refine h.table.congr fun b u => (hL b u).trans (and_iff_left_of_imp fun hb he => ?_)
        rw [he, Listed, PortTable.uidAt_eq hx, NamedPort.uid, hd] at hb
        cases hb.1
    | some d =>
      have hcount : x.refCount = d.refCount := by simp [NamedPort.refCount, hd]
      rw [if_pos (by simp), PortTable.dipcPortFree, PortTable.dipcUidRemove, hx, bind_some, hd,
        bind_some]
      by_cases hzero : d.refCount > 0
      · rw [if_pos hzero]
        exact ⟨_, rfl, haway (.inr (by omega))⟩
      rw [if_neg hzero]
      obtain ⟨l, hl, hindex⟩ := h.unlink hx hd hnt
      simp only [hl, map_some, bind_some, if_true, hx, hrefs, ne_eq, not_true,
        if_false]
      refine ⟨_, rfl, h.tear { x with active := false } hx hp hrefs (by omega) (fun b => ?_)
        hrefs ?_ (fun _ => rfl) hindex⟩
      · simp [hrefs]
      · change x.refCount = 0
        omega
  · rw [if_pos hrefs]
    exact ⟨_, rfl, haway (.inl hrefs)⟩

theorem Inv.zfree (h : Inv s) (hp : s.pc p = .torn a) : ∃ t, s.table.zfree a = some t ∧
      Inv { s with table := t, pc := update s.pc p .idle } := by
  obtain ⟨x, hx, hok⟩ := h.ported (p := p) (a := a) (by rw [hp]; rfl)
  obtain ⟨hrefs, hcount, -⟩ := hok.torn p hp
  have hok1 := hok.refs
  have hok2 := hok.looks
  rw [hrefs] at hok1
  rw [hcount] at hok2
  have hnone : ∀ q, (update s.pc p .idle q).target ≠ some a := by
    intro q hq
    rcases update_cases (Q := fun c => c.target = some a) hq with ⟨-, hc⟩ | ⟨hqp, hc⟩
    · cases hc
    rcases PortPc.target_cases hc with hc | hc | hc
    · exact hok1.ne_of_zero q hc
    · exact hok2.ne_of_zero q hc
    · exact hqp (hok.one q p hc (by rw [hp]; rfl))
  have hgone : update s.table.ports a none a = none := update_self ..
  unfold PortTable.zfree
  rw [hx, map_some]
  refine ⟨_, rfl, h.turn_same a (fun b hb => update_of_ne hb ..) (fun b hb => ?_)
    nofun ?_ nofun rfl fun u => ?_⟩
  · rw [hp] at hb
    exact (some.inj hb).symm
  · dsimp only
    rw [hgone]
    exact hnone
  · refine iff_of_false (fun hl => ?_) fun hl => hl.2.2 p hp
    obtain ⟨y, d, hy, -⟩ := listed_port hl
    cases hgone.symm.trans hy

theorem named_of_valid {f : UInt32 → Bool} (h : uid.valid f = true) : uid.Named :=
  of_decide_eq_true (Bool.and_eq_true_iff.mp h).2

/-- **A sound turn** keeps the invariant. -/
theorem Inv.step {act : Act P A} (h : Inv s) (hsound : Sound s act)
    (hstep : s.step act = some s') : Inv s' := by
  unfold DipcNode.step at hstep
  rw [h.safe, if_neg (by simp)] at hstep
  obtain ⟨m, hm, rfl⟩ := map_eq_some_iff.mp hstep
  cases act with
  | alloc p a =>
    obtain ⟨⟨hp, ha⟩, rfl⟩ := Trace.of_guard hm
    exact h.fresh (isNone_iff_eq_none.mp ha) (by rw [hp]; rfl) rfl rfl rfl rfl
      nofun nofun
  | reference p q =>
    dsimp only [DipcNode.turn] at hm
    split at hm
    · next a hp =>
      obtain ⟨hq, rfl⟩ := Trace.of_guard hm
      obtain ⟨t, ht, hinv⟩ := h.reference hp hq
      simp only [ht, map_some]
      exact hinv
    · cases hm
  | init p =>
    dsimp only [DipcNode.turn] at hm
    split at hm <;> cases hm
    next a hp =>
    obtain ⟨x, hx, -⟩ := h.ported (p := p) (a := a) (by rw [hp]; rfl)
    simp only [hx, map_some]
    refine h.hold hx (by rw [hp]; rfl) ?_
    split
    · exact .inl rfl
    · exact .inr rfl
  | initLocked p =>
    dsimp only [DipcNode.turn] at hm
    split at hm <;> cases hm
    next a hp =>
    obtain ⟨t, ht, hinv⟩ := h.init hp fun x hx hd => hsound a x hp hx hd
    simp only [ht, map_some]
    exact hinv
  | lookup p uid =>
    obtain ⟨⟨hp, -⟩, rfl⟩ := Trace.of_guard hm
    obtain ⟨k, hk, hinv⟩ := h.lookup .idle (u := uid) hp rfl nofun
    simp only [hk]
    exact hinv
  | copyout p uid =>
    obtain ⟨⟨hp, hvalid⟩, rfl⟩ := Trace.of_guard hm
    obtain ⟨k, hk, hinv⟩ := h.lookup (.missed uid) (u := uid) hp rfl fun u hu => by
      cases hu
      exact named_of_valid hvalid
    simp only [hk]
    exact hinv
  | create p a =>
    dsimp only [DipcNode.turn] at hm
    split at hm
    · next uid hp =>
      obtain ⟨ha, rfl⟩ := Trace.of_guard hm
      refine h.fresh (isNone_iff_eq_none.mp ha) (by rw [hp]; rfl) rfl rfl rfl rfl
        (fun u hu => ?_) fun u hu => ?_
      · cases hu
        exact fun hn => hn rfl
      · cases hu
        exact ⟨h.missed p uid hp, rfl⟩
    · cases hm
  | install p =>
    dsimp only [DipcNode.turn] at hm
    split at hm <;> cases hm
    next a uid hp =>
    obtain ⟨t, ht, hinv⟩ := h.install hp (hsound a uid hp)
    simp only [ht, map_some, if_true]
    exact hinv
  | portReference p =>
    dsimp only [DipcNode.turn] at hm
    split at hm <;> cases hm
    next a hp =>
    obtain ⟨t, ht, hinv⟩ := h.portReference hp
    simp only [ht, map_some]
    exact hinv
  | release p =>
    dsimp only [DipcNode.turn] at hm
    split at hm <;> cases hm
    next a hp =>
    obtain ⟨k, hk, hinv⟩ := h.release hp fun x hx hr => hsound a x hp hx hr
    simp only [hk]
    exact hinv
  | ioFree p =>
    dsimp only [DipcNode.turn] at hm
    split at hm <;> cases hm
    next a hp =>
    obtain ⟨k, hk, hinv⟩ := h.ioFree hp
    simp only [hk]
    exact hinv
  | zfree p =>
    dsimp only [DipcNode.turn] at hm
    split at hm <;> cases hm
    next a hp =>
    obtain ⟨t, ht, hinv⟩ := h.zfree hp
    simp only [ht, map_some]
    exact hinv

theorem Initial.inv (h : Initial s) : Inv s := by
  have hnone : ∀ a uid, ¬ Listed s.table s.pc a uid := by
    intro a u hl
    obtain ⟨x, d, hx, -⟩ := listed_port hl
    rw [h.ports] at hx
    cases hx
  refine ⟨h.safe, fun a _ p hp => ?_, fun a x hx => ?_, ⟨fun i => ?_, fun a i => ?_, ?_, ?_⟩,
    fun p u hp => ?_⟩
  · rw [h.pc] at hp
    cases hp
  · rw [h.ports] at hx
    cases hx
  · rw [h.bucket]
    exact nodup_nil
  · rw [h.bucket]
    refine iff_of_false not_mem_nil ?_
    rintro ⟨u, hl, -⟩
    exact hnone a u hl
  · intro a u v hl _
    exact absurd hl (hnone a u)
  · intro a b u hl _
    exact absurd hl (hnone a u)
  · rw [h.pc] at hp
    cases hp

theorem Inv.listed (h : Inv s) (hx : s.table.ports a = some x) (hactive : x.active = true)
    (huid : x.uid = some uid) (hnamed : uid.Named) : Listed s.table s.pc a uid := by
  refine ⟨by rw [PortTable.uidAt_eq hx, huid], hnamed, fun q hq => ?_⟩
  obtain ⟨d, hd, -⟩ := map_eq_some_iff.mp huid
  have hoff := ((h.port a x hx).torn q hq).2.2 (by rw [hd]; rfl)
  rw [hactive] at hoff
  cases hoff

theorem Inv.unique (h : Inv s) : Unique s where
  one a b x y uid hx hy hxa hya hxu hyu hvalid :=
    h.table.inj a b uid (h.listed hx hxa hxu (named_of_valid hvalid))
      (h.listed hy hya hyu (named_of_valid hvalid))
  kept p a hp := by
    have htarget : (s.pc p).target = some a := by
      rcases hp with hp | hp
      · exact PortPc.target_of_holds hp
      · exact PortPc.target_of_looks hp
    obtain ⟨x, hx, -⟩ := h.ported htarget
    rw [hx]
    rfl
  safe := h.safe
  known a ha := by
    obtain ⟨x, hx⟩ := isSome_iff_exists.mp ha
    have hok := h.port a x hx
    by_cases hrefs : x.references = 0
    · by_cases hcount : x.refCount = 0
      · obtain ⟨p, hp⟩ := hok.last hrefs hcount
        exact ⟨p, PortPc.target_of_frees hp⟩
      · obtain ⟨p, hp⟩ := hok.looks.exists_of_ne_zero hcount
        exact ⟨p, PortPc.target_of_looks hp⟩
    · obtain ⟨p, hp⟩ := hok.refs.exists_of_ne_zero hrefs
      exact ⟨p, PortPc.target_of_holds hp⟩

/-- **Every run of sound turns**: a valid UID names one live port, a port is not freed while a thread
has a reference to it, and it is freed once. -/
theorem unique_of_run (s s' : DipcNode P A) (acts : List (Act P A)) (hinit : Initial s)
    (hsound : Trace.Meets step Sound s acts) (hrun : Trace.run step s acts = some s') : Unique s' :=
  (Trace.invariant (I := Inv) (fun _ _ _ h hs hstep => h.step hs hstep) acts s s' hinit.inv hsound
    hrun).unique

/-- A node with two threads and room for two ports. -/
def bareNode : DipcNode (Fin 2) Bool where
  self := 1
  kktNodeIsValid := fun _ => true
  table := ⟨fun _ => none, fun _ => [], 140⟩
  pc := fun _ => .idle
  fault := false

/-- Thread 1 looks the proxy up before thread 0 drops the last reference; thread 1 frees it. -/
def handOver : List (Act (Fin 2) Bool) :=
  [.copyout 0 ⟨2, 7⟩, .create 0 true, .install 0, .lookup 1 ⟨2, 7⟩, .release 0, .portReference 1,
    .ioFree 0, .release 1, .ioFree 1, .zfree 1]

theorem unique_of_run_handed : ∃ s', Trace.run step bareNode handOver = some s' ∧ Unique s' := by
  refine ⟨_, rfl, unique_of_run bareNode _ handOver
    ⟨rfl, fun _ => rfl, fun _ => rfl, fun _ => rfl, rfl⟩ ?_ rfl⟩
  refine .cons trivial rfl ?_
  refine .cons trivial rfl ?_
  refine .cons (fun a u hp => (by cases hp; rfl)) rfl ?_
  refine .cons trivial rfl ?_
  refine .cons (fun a x hp _ _ q hq => (by fin_cases q <;> cases hq)) rfl ?_
  refine .cons trivial rfl ?_
  refine .cons trivial rfl ?_
  refine .cons (fun a x hp _ _ q hq => (by fin_cases q <;> cases hq)) rfl ?_
  refine .cons trivial rfl ?_
  exact ⟨trivial, fun _ _ => trivial⟩

/-- Thread 0 drops the last reference to a proxy and unlocks it. -/
theorem freed_twice :
    ∃ s', Trace.run step bareNode [.copyout 0 ⟨2, 7⟩, .create 0 true, .install 0, .release 0,
      .lookup 1 ⟨2, 7⟩, .portReference 1, .release 1, .ioFree 0, .zfree 0, .ioFree 1] = some s' ∧
      Initial bareNode ∧ ¬ Unique s' := by
  refine ⟨_, rfl, ⟨rfl, fun _ => rfl, fun _ => rfl, fun _ => rfl, rfl⟩, fun h => ?_⟩
  exact absurd h.safe (by decide)

theorem lost_race_leaks :
    ∃ s', Trace.run step bareNode [.copyout 0 ⟨2, 7⟩, .copyout 1 ⟨2, 7⟩, .create 0 true,
      .create 1 false, .install 0, .install 1] = some s' ∧
      (s'.table.ports false).isSome ∧ ∀ p, (s'.pc p).target ≠ some false := by
  refine ⟨_, rfl, rfl, fun p hp => ?_⟩
  fin_cases p <;> cases hp

end DipcNode

end Osfmk

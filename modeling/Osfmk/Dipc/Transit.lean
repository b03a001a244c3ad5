import Osfmk.Lib.Trace

/-!
# Transits of a distributed send right

DIPC detects that a port has no more senders with a weighted count.  A proxy with send rights has a
positive `ip_transit`; the principal's `ip_transit` is minus what the other nodes and the messages on
their way have.  A send right in a message carries one transit, a proxy that runs out of them gets
more from the principal, and a proxy that is freed gives them back.  When the receive right migrates,
the old node sends `ip_transit - ip_srights` to the new one and, after the RPC has returned, sets its
own `ip_transit` to `ip_srights`.

## Main results

* `Inv.step` — what every sound step keeps.
* `balanced_of_run` — the transits are balanced, and the no-senders condition is sound.
-/

open Osfmk.Trace (of_guard)
open Function (update)
open List

namespace Osfmk

def dipcTransitUnit : ℤ := 100

/-- The port on one node; a node without a port has one with no rights and no transits. -/
structure TransitPort where
  srights : ℕ
  transit : ℤ
  proxy : Bool
  forward : Bool
  msBlock : Bool
  /-- `dipc_migration_request` has read the counts for `drpc_migrate_state`, and will set
  `ip_transit`. -/
  handed : Bool
  deriving DecidableEq

namespace TransitPort

/-- A proxy without rights. -/
def blank : TransitPort := ⟨0, 0, true, false, false, false⟩

/-- What a node has: its transits, or those it will have when its state has been handed over. -/
def held (x : TransitPort) : ℤ := if x.handed then x.srights else x.transit

/-- `dipc_port_copyin` need not wait, neither for a migration nor for transits. -/
def MayCopyin (x : TransitPort) : Prop :=
  0 < x.srights ∧ x.msBlock = false ∧
    (x.proxy = true → 0 < x.transit ∧ ¬ (1 < x.srights ∧ x.transit = 1))

instance (x : TransitPort) : Decidable x.MayCopyin :=
  inferInstanceAs (Decidable (_ ∧ _ ∧ (_ → _ ∧ ¬ _)))

/-- `dipc_port_copyin` of a send right. -/
def copyin (x : TransitPort) : TransitPort :=
  { x with srights := x.srights - 1, transit := x.transit - 1 }

/-- `dipc_port_copyout` of a send right. -/
def copyout (x : TransitPort) : TransitPort :=
  { x with srights := x.srights + 1, transit := x.transit + 1 }

end TransitPort

/-- Where the receive right is. -/
inductive TransitStage (N : Type)
  | settled (p : N)
  | asked (m n : N)
  | begun (m n : N)
  | sent (m n : N) (transits : ℤ)
  | arrived (m n : N)
  deriving DecidableEq

/-- What a node is for the port. -/
inductive TransitRole
  | principal
  /-- It has the receive right, and the state has not been sent. -/
  | converting
  | arriving
  | leaving
  | proxy

namespace TransitStage

variable {N : Type} [DecidableEq N]

/-- The transits in a state that is on its way. -/
def transits : TransitStage N → ℤ
  | .sent _ _ a => a
  | _ => 0

/-- `drpc_migrate_state` of a node has not returned. -/
def Sending (m : N) : TransitStage N → Prop
  | .sent m' _ _ => m' = m
  | _ => False

instance (m : N) : (st : TransitStage N) → Decidable (st.Sending m)
  | .sent m' _ _ => inferInstanceAs (Decidable (m' = m))
  | .settled _ | .asked _ _ | .begun _ _ | .arrived _ _ => inferInstanceAs (Decidable False)

/-- What a node is at a stage. -/
def role : TransitStage N → N → TransitRole
  | .settled p, x => if x = p then .principal else .proxy
  | .asked m n, x => if x = n then .converting else if x = m then .principal else .proxy
  | .begun m n, x => if x = n then .converting else if x = m then .leaving else .proxy
  | .sent _ n _, x => if x = n then .arriving else .proxy
  | .arrived _ n, x => if x = n then .arriving else .proxy

/-- The node with the principal's counts, which can notify that there are no senders: the old one until
the state is sent, the new one from its arrival on. -/
def counting : TransitStage N → Option N
  | .settled p | .asked p _ | .begun p _ | .arrived _ p => some p
  | .sent _ _ _ => none

end TransitStage

/-- All the nodes. -/
structure TransitNet (N : Type) where
  port : N → TransitPort
  stage : TransitStage N
  rights : ℕ
  /-- The nodes of the sends whose transit will be reclaimed by `dipc_port_dest_done`. -/
  sends : List N
  grants : List N
  yields : List ℤ

namespace TransitNet

variable {N : Type} [DecidableEq N]

/-- What can happen. -/
inductive Act (N : Type)
  | copyin (x : N)
  | copyout (x : N)
  | send (x : N)
  | destDone (x : N)
  /-- `dproc_acquire_transits` on a principal, and the end of `dipc_port_wait_for_transits`. -/
  | acquire (x p : N)
  | granted (x : N)
  /-- `dipc_port_yield_transits` of a proxy that is freed, and `dproc_yield_transits`. -/
  | freeProxy (x : N)
  | yield (x : N) (transits : ℤ)
  | makeSend (x : N)
  | copySend (x : N)
  | dropSend (x : N)
  | convert (n : N)
  | returned
  /-- `dipc_migration_request`, `dproc_migrate_state`, and the end of `dipc_migration_request`. -/
  | begin
  | migrateState
  | stateArrives
  | finish (m : N)

/-- Writes the port of a node. -/
def set (s : TransitNet N) (x : N) (v : TransitPort) : TransitNet N :=
  { s with port := update s.port x v }

/-- A step, if it is possible. -/
def step (s : TransitNet N) : Act N → Option (TransitNet N)
  | .copyin x =>
    if (s.port x).MayCopyin then some { s.set x (s.port x).copyin with rights := s.rights + 1 }
    else none
  | .copyout x =>
    if 0 < s.rights then some { s.set x (s.port x).copyout with rights := s.rights - 1 } else none
  | .send x =>
    if (s.port x).proxy ∧ (s.port x).MayCopyin then
      some { s.set x (s.port x).copyin with sends := x :: s.sends }
    else none
  | .destDone x =>
    if x ∈ s.sends then
      some { s.set x { s.port x with transit := (s.port x).transit + 1 } with
        sends := s.sends.erase x }
    else none
  | .acquire x p =>
    if (s.port x).proxy ∧ (s.port p).proxy = false then
      some { s.set p { s.port p with transit := (s.port p).transit - dipcTransitUnit } with
        grants := x :: s.grants }
    else none
  | .granted x =>
    if x ∈ s.grants then
      some { s.set x { s.port x with transit := (s.port x).transit + dipcTransitUnit } with
        grants := s.grants.erase x }
    else none
  | .freeProxy x =>
    if (s.port x).proxy ∧ (s.port x).forward = false ∧ (s.port x).srights = 0 ∧ x ∉ s.sends ∧
        x ∉ s.grants then
      some { s.set x { s.port x with transit := 0 } with yields := (s.port x).transit :: s.yields }
    else none
  | .yield x y =>
    if y ∈ s.yields ∧ ((s.port x).proxy = false ∨ (s.port x).transit < 0) then
      some { s.set x { s.port x with transit := (s.port x).transit + y } with
        yields := s.yields.erase y }
    else none
  | .makeSend x =>
    if (s.port x).proxy = false then
      some (s.set x { s.port x with srights := (s.port x).srights + 1 })
    else none
  | .copySend x =>
    if 0 < (s.port x).srights then
      some (s.set x { s.port x with srights := (s.port x).srights + 1 })
    else none
  | .dropSend x =>
    if 0 < (s.port x).srights then
      some (s.set x { s.port x with srights := (s.port x).srights - 1 })
    else none
  | .convert n =>
    match s.stage with
    | .settled m =>
      if n ≠ m then
        some { s.set n { s.port n with proxy := false, forward := false, msBlock := true } with
          stage := .asked m n }
      else none
    | _ => none
  | .begin =>
    match s.stage with
    | .asked m n =>
      some { s.set m { s.port m with proxy := true, forward := true, msBlock := true } with
        stage := .begun m n }
    | _ => none
  | .migrateState =>
    match s.stage with
    | .begun m n =>
      some { s.set m { s.port m with handed := true } with
        stage := .sent m n ((s.port m).transit - (s.port m).srights) }
    | _ => none
  | .stateArrives =>
    match s.stage with
    | .sent m n a =>
      some { s.set n { s.port n with transit := (s.port n).transit + a } with
        stage := .arrived m n }
    | _ => none
  | .returned =>
    match s.stage with
    | .arrived _ n => some { s.set n { s.port n with msBlock := false } with stage := .settled n }
    | _ => none
  | .finish m =>
    if (s.port m).handed ∧ ¬ s.stage.Sending m then
      some (s.set m
        { s.port m with transit := (s.port m).srights, msBlock := false, handed := false })
    else none

/-- The principal is on one node, and there are no rights anywhere. -/
def Initial (s : TransitNet N) : Prop :=
  ∃ p, s = ⟨update (fun _ => TransitPort.blank) p { TransitPort.blank with proxy := false },
    .settled p, 0, [], [], []⟩

/-- The step does not change the counts of a node between `drpc_migrate_state` and the end of
`dipc_migration_request`, and no such node becomes the principal again; the new node gives no transits
and makes no send rights before the state has been sent. -/
def Sound (s : TransitNet N) : Act N → Prop
  | .destDone x | .granted x | .yield x _ | .copySend x | .dropSend x | .convert x =>
    (s.port x).handed = false
  | .makeSend x => (s.port x).handed = false ∧ s.stage.role x ≠ .converting
  | .acquire _ p => s.stage.role p ≠ .converting
  | _ => True

section

variable [Fintype N]

/-- The transits of all the nodes, with what is on its way. -/
def total (s : TransitNet N) : ℤ :=
  ∑ x, (s.port x).held + s.rights + s.sends.length + dipcTransitUnit * s.grants.length +
    s.yields.sum + s.stage.transits

/-- The transits are balanced; a proxy with send rights that does not migrate has a transit; and the node
with the principal's counts has no transits outstanding and no rights only when no other node has a
right, nor a message on its way. -/
structure Balanced (s : TransitNet N) : Prop where
  sum : s.total = 0
  proxies : ∀ x, (s.port x).proxy = true → (s.port x).msBlock = false → 0 < (s.port x).srights →
    1 ≤ (s.port x).transit
  noSenders : ∀ p, s.stage.counting = some p → (s.port p).transit = 0 → (s.port p).srights = 0 →
    (∀ x, x ≠ p → (s.port x).srights = 0) ∧ s.rights = 0 ∧ s.sends = []

/-- The flags of a node, and the transits of a proxy. -/
def NodeOk : TransitRole → TransitPort → Prop
  | .principal, x => x.proxy = false ∧ x.msBlock = false ∧ x.handed = false
  | .converting, x => x.proxy = false ∧ x.msBlock = true ∧ x.handed = false ∧ 0 ≤ x.transit ∧
      (0 < x.srights → 1 ≤ x.transit)
  | .arriving, x => x.proxy = false ∧ x.msBlock = true ∧ x.handed = false
  | .leaving, x => x.proxy = true ∧ x.msBlock = true ∧ x.handed = false ∧ x.forward = true
  | .proxy, x => x.proxy = true ∧ x.msBlock = x.handed ∧ (x.handed = true → x.forward = true) ∧
      (x.handed = false → 0 ≤ x.transit ∧ (0 < x.srights → 1 ≤ x.transit))

/-- The old and the new node of a migration are different. -/
def Apart : TransitStage N → Prop
  | .asked m n | .begun m n | .sent m n _ => m ≠ n
  | _ => True

/-- **What holds between two steps.** -/
structure Inv (s : TransitNet N) : Prop where
  sum : s.total = 0
  nodes : ∀ x, NodeOk (s.stage.role x) (s.port x)
  yields : ∀ y ∈ s.yields, 0 ≤ y
  apart : Apart s.stage

variable {s s' : TransitNet N} {x : N} {v : TransitPort} {r : TransitRole}

theorem sum_held (port : N → TransitPort) (x : N) (v : TransitPort) :
    ∑ y, (update port x v y).held = ∑ y, (port y).held - (port x).held + v.held := by
  have hrest : ∑ y ∈ Finset.univ.erase x, (update port x v y).held
      = ∑ y ∈ Finset.univ.erase x, (port y).held :=
    Finset.sum_congr rfl fun y hy => by rw [Function.update_of_ne (Finset.ne_of_mem_erase hy)]
  rw [← Finset.add_sum_erase _ (fun y => (update port x v y).held) (Finset.mem_univ x),
    ← Finset.add_sum_erase _ (fun y => (port y).held) (Finset.mem_univ x), hrest,
    Function.update_self]
  omega

/-- **The rule for a step**: one port changes, and no other node gets another role, unless the state is
sent. -/
theorem Inv.change (h : Inv s) (x : N) (v : TransitPort)
    (hport : s'.port = update s.port x v)
    (hrole : ∀ y, y ≠ x → s'.stage.role y = s.stage.role y ∨
      s.stage.role y = .converting ∧ s'.stage.role y = .arriving)
    (hnode : NodeOk (s'.stage.role x) v) (hyields : ∀ y ∈ s'.yields, 0 ≤ y)
    (hapart : Apart s'.stage)
    (hsum : v.held + s'.rights + s'.sends.length + dipcTransitUnit * s'.grants.length +
        s'.yields.sum + s'.stage.transits
      = (s.port x).held + s.rights + s.sends.length + dipcTransitUnit * s.grants.length +
        s.yields.sum + s.stage.transits) : Inv s' := by
  refine ⟨?_, fun y => ?_, hyields, hapart⟩
  · have hz := h.sum
    unfold total at hz ⊢
    rw [hport, sum_held]
    omega
  · rw [hport]
    by_cases hy : y = x
    · rw [hy, Function.update_self]
      exact hnode
    · have hn := h.nodes y
      rw [Function.update_of_ne hy]
      rcases hrole y hy with hr | ⟨hc, ha⟩
      · rwa [hr]
      · rw [hc] at hn
        rw [ha]
        exact ⟨hn.1, hn.2.1, hn.2.2.1⟩

theorem nodeOk_copyin (h : NodeOk r v) (hmay : v.MayCopyin) :
    NodeOk r v.copyin ∧ v.copyin.held = v.held - 1 := by
  obtain ⟨hpos, hblock, hproxy⟩ := hmay
  cases r with
  | proxy =>
    obtain ⟨hp, hb, hf, ht⟩ := h
    have hh : v.handed = false := hb.symm.trans hblock
    obtain ⟨hpositive, hspare⟩ := hproxy hp
    refine ⟨⟨hp, hb, hf, fun _ => ⟨?_, fun hs => ?_⟩⟩, ?_⟩
    · change 0 ≤ v.transit - 1
      omega
    · change 0 < v.srights - 1 at hs
      change 1 ≤ v.transit - 1
      omega
    · simp [TransitPort.copyin, TransitPort.held, hh]
  | _ => simp_all [NodeOk, TransitPort.copyin, TransitPort.held]

theorem nodeOk_copyout (h : NodeOk r v) : NodeOk r v.copyout ∧ v.copyout.held = v.held + 1 := by
  cases r <;> simp_all [NodeOk, TransitPort.copyout, TransitPort.held]
  · omega
  · refine ⟨fun hh => by have := h.2.2.2 hh; omega, ?_⟩
    split <;> rfl

theorem nodeOk_add {a : ℤ} (h : NodeOk r v) (ha : 0 ≤ a) (hv : v.handed = false) :
    NodeOk r { v with transit := v.transit + a } ∧
      ({ v with transit := v.transit + a } : TransitPort).held = v.held + a := by
  cases r <;> simp_all [NodeOk, TransitPort.held]
  all_goals exact ⟨by omega, fun hp => by have := h.2.2.2 hp; omega⟩

theorem nodeOk_srights {k : ℕ} (h : NodeOk r v) (hv : v.handed = false)
    (hk : v.proxy = true ∨ r = .converting → 0 < k → 0 < v.srights) :
    NodeOk r { v with srights := k } ∧ ({ v with srights := k } : TransitPort).held = v.held := by
  cases r <;> simp_all [NodeOk, TransitPort.held]

theorem nodeOk_grant (h : NodeOk r v) (hv : v.proxy = false) (hr : r ≠ .converting) (a : ℤ) :
    NodeOk r { v with transit := a } ∧ v.handed = false := by
  cases r <;> simp_all [NodeOk]

theorem nodeOk_free (h : NodeOk r v) (hv : v.proxy = true) (hf : v.forward = false)
    (hs : v.srights = 0) :
    NodeOk r { v with transit := 0 } ∧ v.handed = false ∧ 0 ≤ v.transit := by
  cases r <;> simp_all [NodeOk]

section

variable (h : Inv s)
include h

theorem Inv.counts (x : N) (v : TransitPort) (rights : ℕ) (sends grants : List N)
    (yields : List ℤ) (hnode : NodeOk (s.stage.role x) v) (hyields : ∀ y ∈ yields, 0 ≤ y)
    (hsum : v.held + rights + sends.length + dipcTransitUnit * grants.length + yields.sum
      = (s.port x).held + s.rights + s.sends.length + dipcTransitUnit * s.grants.length +
        s.yields.sum) :
    Inv ⟨update s.port x v, s.stage, rights, sends, grants, yields⟩ :=
  h.change x v rfl (fun _ _ => .inl rfl) hnode hyields h.apart (by simp only; omega)

theorem Inv.destDone (hx : x ∈ s.sends) (hv : (s.port x).handed = false) :
    Inv { s.set x { s.port x with transit := (s.port x).transit + 1 } with
      sends := s.sends.erase x } := by
  obtain ⟨hnode, hheld⟩ := nodeOk_add (a := 1) (h.nodes x) (by decide) hv
  refine h.counts x _ s.rights (s.sends.erase x) s.grants s.yields hnode h.yields ?_
  have hlen := length_erase_of_mem hx
  have hpos := length_pos_of_mem hx
  rw [hheld]
  omega

theorem Inv.granted (hx : x ∈ s.grants) (hv : (s.port x).handed = false) :
    Inv { s.set x { s.port x with transit := (s.port x).transit + dipcTransitUnit } with
      grants := s.grants.erase x } := by
  obtain ⟨hnode, hheld⟩ := nodeOk_add (a := dipcTransitUnit) (h.nodes x) (by decide) hv
  refine h.counts x _ s.rights s.sends (s.grants.erase x) s.yields hnode h.yields ?_
  have hlen := length_erase_of_mem hx
  have hpos := length_pos_of_mem hx
  rw [hheld]
  simp only [dipcTransitUnit]
  omega

theorem Inv.yield {y : ℤ} (hy : y ∈ s.yields) (hv : (s.port x).handed = false) :
    Inv { s.set x { s.port x with transit := (s.port x).transit + y } with
      yields := s.yields.erase y } := by
  obtain ⟨hnode, hheld⟩ := nodeOk_add (a := y) (h.nodes x) (h.yields y hy) hv
  refine h.counts x _ s.rights s.sends s.grants (s.yields.erase y) hnode
    (fun z hz => h.yields z (mem_of_mem_erase hz)) ?_
  have hsum := (perm_cons_erase hy).sum_eq
  rw [sum_cons] at hsum
  rw [hheld]
  omega

theorem Inv.acquire {p : N} (hp : (s.port p).proxy = false) (hr : s.stage.role p ≠ .converting) :
    Inv { s.set p { s.port p with transit := (s.port p).transit - dipcTransitUnit } with
      grants := x :: s.grants } := by
  obtain ⟨hnode, hv⟩ := nodeOk_grant (h.nodes p) hp hr ((s.port p).transit - dipcTransitUnit)
  refine h.counts p _ s.rights s.sends (x :: s.grants) s.yields hnode h.yields ?_
  simp only [TransitPort.held, hv, length_cons, dipcTransitUnit]
  push_cast
  omega

theorem Inv.freeProxy (hp : (s.port x).proxy = true)
    (hf : (s.port x).forward = false) (hs : (s.port x).srights = 0) :
    Inv { s.set x { s.port x with transit := 0 } with
      yields := (s.port x).transit :: s.yields } := by
  obtain ⟨hnode, hv, hpos⟩ := nodeOk_free (h.nodes x) hp hf hs
  refine h.counts x _ s.rights s.sends s.grants ((s.port x).transit :: s.yields) hnode ?_ ?_
  · intro y hy
    rcases mem_cons.mp hy with rfl | hy
    · exact hpos
    · exact h.yields y hy
  · simp only [TransitPort.held, hv, sum_cons, Bool.false_eq_true, if_false]
    omega

theorem Inv.srights {k : ℕ} (hv : (s.port x).handed = false)
    (hk : (s.port x).proxy = true ∨ s.stage.role x = .converting → 0 < k → 0 < (s.port x).srights) :
    Inv (s.set x { s.port x with srights := k }) := by
  obtain ⟨hnode, hheld⟩ := nodeOk_srights (h.nodes x) hv hk
  refine h.counts x _ s.rights s.sends s.grants s.yields hnode h.yields ?_
  rw [hheld]

theorem Inv.convert {m n : N} (hst : s.stage = .settled m) (hne : n ≠ m)
    (hv : (s.port n).handed = false) :
    Inv { s.set n { s.port n with proxy := false, forward := false, msBlock := true } with
      stage := .asked m n } := by
  refine h.change n _ rfl (fun y hy => .inl ?_) ?_ h.yields (Ne.symm hne) ?_
  · simp only [hst, TransitStage.role, if_neg hy]
  · have hn := h.nodes n
    simp only [hst, TransitStage.role, if_neg hne] at hn
    simp only [TransitStage.role, if_true]
    exact ⟨rfl, rfl, hv, hn.2.2.2 hv⟩
  · simp only [hst, set, TransitStage.transits]
    rfl

theorem Inv.begin {m n : N} (hst : s.stage = .asked m n) :
    Inv { s.set m { s.port m with proxy := true, forward := true, msBlock := true } with
      stage := .begun m n } := by
  have hne : m ≠ n := by
    have ha := h.apart
    rw [hst] at ha
    exact ha
  have hv : (s.port m).handed = false := by
    have hm := h.nodes m
    simp only [hst, TransitStage.role, if_neg hne, if_true] at hm
    exact hm.2.2
  refine h.change m _ rfl (fun y hy => .inl ?_) ?_ h.yields hne ?_
  · simp only [hst, TransitStage.role, if_neg hy]
  · simp only [TransitStage.role, if_neg hne, if_true]
    exact ⟨rfl, rfl, hv, rfl⟩
  · simp only [hst, set, TransitStage.transits]
    rfl

theorem Inv.migrateState {m n : N} (hst : s.stage = .begun m n) :
    Inv { s.set m { s.port m with handed := true } with
      stage := .sent m n ((s.port m).transit - (s.port m).srights) } := by
  have hne : m ≠ n := by
    have ha := h.apart
    rw [hst] at ha
    exact ha
  have hm := h.nodes m
  simp only [hst, TransitStage.role, if_neg hne, if_true] at hm
  obtain ⟨hp, hb, hv, hf⟩ := hm
  refine h.change m _ rfl (fun y hy => ?_) ?_ h.yields hne ?_
  · simp only [hst, TransitStage.role, if_neg hy]
    by_cases hn : y = n
    · rw [if_pos hn, if_pos hn]
      exact .inr ⟨rfl, rfl⟩
    · rw [if_neg hn, if_neg hn]
      exact .inl rfl
  · simp only [TransitStage.role, if_neg hne]
    exact ⟨hp, hb, fun _ => hf, nofun⟩
  · simp only [hst, set, TransitStage.transits, TransitPort.held, hv, if_true, Bool.false_eq_true,
      if_false]
    omega

theorem Inv.stateArrives {m n : N} {a : ℤ} (hst : s.stage = .sent m n a) :
    Inv { s.set n { s.port n with transit := (s.port n).transit + a } with
      stage := .arrived m n } := by
  have hn := h.nodes n
  simp only [hst, TransitStage.role, if_true] at hn
  obtain ⟨hp, hb, hv⟩ := hn
  refine h.change n _ rfl (fun y _ => .inl ?_) ?_ h.yields trivial ?_
  · simp only [hst, TransitStage.role]
  · simp only [TransitStage.role, if_true]
    exact ⟨hp, hb, hv⟩
  · simp only [hst, set, TransitStage.transits, TransitPort.held, hv, Bool.false_eq_true, if_false]
    omega

theorem Inv.returned {m n : N} (hst : s.stage = .arrived m n) :
    Inv { s.set n { s.port n with msBlock := false } with stage := .settled n } := by
  have hn := h.nodes n
  simp only [hst, TransitStage.role, if_true] at hn
  obtain ⟨hp, -, hv⟩ := hn
  refine h.change n _ rfl (fun y hy => .inl ?_) ?_ h.yields trivial ?_
  · simp only [hst, TransitStage.role, if_neg hy]
  · simp only [TransitStage.role, if_true]
    exact ⟨hp, rfl, hv⟩
  · simp only [hst, set, TransitStage.transits]
    rfl

theorem Inv.finish {m : N} (hv : (s.port m).handed = true) : Inv (s.set m
      { s.port m with transit := (s.port m).srights, msBlock := false, handed := false }) := by
  have hm := h.nodes m
  refine h.change m _ rfl (fun y _ => .inl rfl) ?_ h.yields h.apart ?_
  · change NodeOk (s.stage.role m) _
    cases hr : s.stage.role m with
    | proxy =>
      rw [hr] at hm
      refine ⟨hm.1, rfl, nofun, fun _ => ⟨Int.natCast_nonneg _, fun hs => ?_⟩⟩
      change 0 < (s.port m).srights at hs
      change 1 ≤ ((s.port m).srights : ℤ)
      omega
    | _ => simp_all [NodeOk]
  · simp only [set, TransitPort.held, hv, if_true, Bool.false_eq_true, if_false]

/-- **A sound step** keeps the invariant. -/
theorem Inv.step {act : Act N} (hsound : Sound s act) (hstep : step s act = some s') :
    Inv s' := by
  cases act with
  | copyin x =>
    obtain ⟨hmay, rfl⟩ := of_guard hstep
    obtain ⟨hnode, hheld⟩ := nodeOk_copyin (h.nodes x) hmay
    refine h.counts x _ (s.rights + 1) s.sends s.grants s.yields hnode h.yields ?_
    rw [hheld]
    push_cast
    omega
  | copyout x =>
    obtain ⟨hpos, rfl⟩ := of_guard hstep
    obtain ⟨hnode, hheld⟩ := nodeOk_copyout (h.nodes x)
    refine h.counts x _ (s.rights - 1) s.sends s.grants s.yields hnode h.yields ?_
    rw [hheld]
    omega
  | send x =>
    obtain ⟨⟨-, hmay⟩, rfl⟩ := of_guard hstep
    obtain ⟨hnode, hheld⟩ := nodeOk_copyin (h.nodes x) hmay
    refine h.counts x _ s.rights (x :: s.sends) s.grants s.yields hnode h.yields ?_
    rw [hheld, length_cons]
    push_cast
    omega
  | destDone x =>
    obtain ⟨hx, rfl⟩ := of_guard hstep
    exact h.destDone hx hsound
  | acquire x p =>
    obtain ⟨⟨-, hp⟩, rfl⟩ := of_guard hstep
    exact h.acquire hp hsound
  | granted x =>
    obtain ⟨hx, rfl⟩ := of_guard hstep
    exact h.granted hx hsound
  | freeProxy x =>
    obtain ⟨⟨hp, hf, hs, -⟩, rfl⟩ := of_guard hstep
    exact h.freeProxy hp hf hs
  | yield x y =>
    obtain ⟨⟨hy, -⟩, rfl⟩ := of_guard hstep
    exact h.yield hy hsound
  | makeSend x =>
    obtain ⟨hp, rfl⟩ := of_guard hstep
    refine h.srights hsound.1 fun hc _ => absurd hc (not_or.mpr ⟨?_, hsound.2⟩)
    rw [hp]
    exact Bool.false_ne_true
  | copySend x =>
    obtain ⟨hpos, rfl⟩ := of_guard hstep
    exact h.srights hsound fun _ _ => hpos
  | dropSend x =>
    obtain ⟨hpos, rfl⟩ := of_guard hstep
    exact h.srights hsound fun _ _ => hpos
  | convert n =>
    simp only [TransitNet.step] at hstep
    split at hstep
    · next m hst =>
      obtain ⟨hne, rfl⟩ := of_guard hstep
      exact h.convert hst hne hsound
    · cases hstep
  | begin =>
    simp only [TransitNet.step] at hstep
    split at hstep <;> cases hstep
    next m n hst =>
    exact h.begin hst
  | migrateState =>
    simp only [TransitNet.step] at hstep
    split at hstep <;> cases hstep
    next m n hst =>
    exact h.migrateState hst
  | stateArrives =>
    simp only [TransitNet.step] at hstep
    split at hstep <;> cases hstep
    next m n a hst =>
    exact h.stateArrives hst
  | returned =>
    simp only [TransitNet.step] at hstep
    split at hstep <;> cases hstep
    next m n hst =>
    exact h.returned hst
  | finish m =>
    obtain ⟨⟨hv, -⟩, rfl⟩ := of_guard hstep
    exact h.finish hv

end

theorem Initial.inv (h : Initial s) : Inv s := by
  obtain ⟨p, rfl⟩ := h
  refine ⟨?_, fun x => ?_, nofun, trivial⟩
  · unfold total
    rw [sum_held]
    simp [TransitPort.held, TransitPort.blank, TransitStage.transits]
  · by_cases hx : x = p <;> simp [hx, TransitStage.role, NodeOk, TransitPort.blank]

theorem Inv.counting {p : N} (h : Inv s) (hst : s.stage.counting = some p) :
    (s.port p).handed = false ∧ s.stage.transits = 0 := by
  have hp := h.nodes p
  have ha := h.apart
  revert hst hp ha
  cases s.stage with
  | settled q =>
    rintro ⟨⟩ hp -
    rw [TransitStage.role, if_pos rfl] at hp
    exact ⟨hp.2.2, rfl⟩
  | asked m n =>
    rintro ⟨⟩ hp ha
    rw [TransitStage.role, if_neg ha, if_pos rfl] at hp
    exact ⟨hp.2.2, rfl⟩
  | begun m n =>
    rintro ⟨⟩ hp ha
    rw [TransitStage.role, if_neg ha, if_pos rfl] at hp
    exact ⟨hp.2.2.1, rfl⟩
  | sent m n a => nofun
  | arrived m n =>
    rintro ⟨⟩ hp -
    rw [TransitStage.role, if_pos rfl] at hp
    exact ⟨hp.2.2, rfl⟩

end

/-- The principal is on node `m`. -/
def startNet {N : Type} [DecidableEq N] (m : N) : TransitNet N :=
  ⟨update (fun _ => TransitPort.blank) m { TransitPort.blank with proxy := false },
    .settled m, 0, [], [], []⟩

theorem early_no_senders :
    ∃ s', Trace.run step (startNet (0 : Fin 3)) [.makeSend 0, .convert 1, .begin, .migrateState,
      .copySend 0, .stateArrives, .returned, .finish 0, .copyin 0, .copyout 1, .dropSend 1] = some s' ∧
      s'.stage = .settled 1 ∧ (s'.port 1).transit = 0 ∧ (s'.port 1).srights = 0 ∧
      (s'.port 0).srights = 1 :=
  ⟨_, rfl, rfl, rfl, rfl, rfl⟩

end TransitNet

end Osfmk

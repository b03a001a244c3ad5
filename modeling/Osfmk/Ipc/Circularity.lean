import Osfmk.Ipc.Port
import Osfmk.Lib.Successor
import Osfmk.Lib.Trace

/-!
# Ports in transit

`ipc_port_check_circularity` against everything else that can happen to the receive rights of
ports: a receive right that is copied in puts its port in limbo, one that is copied out takes
its port out of transit, and a port can die.  The check locks ports one at a time, so the steps
of several calls and of the other routines interleave; a routine that changes a port holds its
lock.

## Main results

* `TransitInv.step` — what every event keeps.
* `TransitInv.progress` — there is no deadlock.
* `own_steps` — a call takes a bounded number of steps.
* `circularity_of_run` — the ports in transit form no circle, and the check answers and returns.
-/

open Function (update update_of_ne update_self)
open List Option

namespace Osfmk

open Successor

variable {ι τ : Type} [DecidableEq τ]

/-- Where a thread is in `ipc_port_check_circularity(port, dest)`. -/
inductive CheckPc
  | idle
  | enter (port dest : ℕ)
  | quick (port dest : ℕ)
  | serialize (port dest : ℕ)
  /-- In the search for the end of the chain; `chain` is locked, `base` is next. -/
  | search (port dest base : ℕ) (chain : List ℕ)
  /-- At the end of the chain, which is all locked, with `base` the last of it. -/
  | ended (port dest base : ℕ) (chain : List ℕ)
  | returned (port dest : ℕ) (circular : Bool)
  deriving DecidableEq

/-- The port a call is about, and its destination. -/
def CheckPc.call : CheckPc → Option (ℕ × ℕ)
  | idle => none
  | enter port dest => some (port, dest)
  | quick port dest => some (port, dest)
  | serialize port dest => some (port, dest)
  | search port dest _ _ => some (port, dest)
  | ended port dest _ _ => some (port, dest)
  | returned _ _ _ => none

/-- The ports a call has locked. -/
def CheckPc.locked : CheckPc → List ℕ
  | quick port _ => [port]
  | search _ _ _ chain => chain
  | ended _ _ base chain => chain ++ [base]
  | _ => []

/-- A call that has `ipc_port_multiple_lock`. -/
def CheckPc.serialized : CheckPc → Bool
  | search _ _ _ _ => true
  | ended _ _ _ _ => true
  | _ => false

/-- The ports, their locks and the calls of the threads. -/
structure TransitState (ι τ : Type) where
  ports : ℕ → IpcPort ι
  nextObject : ℕ
  lock : ℕ → Option τ
  multiple : Option τ
  owner : ℕ → Option τ
  pc : τ → CheckPc

/-- No port is allocated and no thread is in the check. -/
def TransitState.initial : TransitState ι τ where
  ports _ := .blank
  nextObject := 0
  lock _ := none
  multiple := none
  owner _ := none
  pc _ := .idle

/-- The port is alive and neither in a space nor in transit. -/
def IpcPort.limbo (port : IpcPort ι) : Bool :=
  match port.data with
  | .destination none => port.ipActive && decide (port.ipReceiverName = machPortNull)
  | _ => false

/-- The event of a run. -/
inductive TransitOp (ι τ : Type)
  | alloc (space : ι) (name : ℕ)
  /-- The receive right is copied in, or the port goes to its backup: it is in limbo. -/
  | copyin (port : ℕ)
  | copyout (port : ℕ) (space : ι) (name : ℕ)
  | die (port timestamp : ℕ)
  | check (thread : τ) (port dest : ℕ)
  | advance (thread : τ)

namespace TransitState

variable (s : TransitState ι τ)

/-- Nobody has the lock of the port, and no call of the check is about it. -/
def unlocked (port : ℕ) : Bool := (s.lock port).isNone && (s.owner port).isNone

def updPort (port : ℕ) (f : IpcPort ι → IpcPort ι) : TransitState ι τ :=
  { s with ports := update s.ports port (f (s.ports port)) }

/-- The thread goes on at `pc`. -/
def goto (thread : τ) (pc : CheckPc) : TransitState ι τ :=
  { s with pc := update s.pc thread pc }

/-- The thread locks a port. -/
def acquire (thread : τ) (port : ℕ) : TransitState ι τ :=
  { s with lock := update s.lock port (some thread) }

/-- The thread gives up the locks of some ports. -/
def release (ports : List ℕ) : TransitState ι τ :=
  { s with lock := fun q => if q ∈ ports then none else s.lock q }

/-- The call returns. -/
def finish (thread : τ) (port dest : ℕ) (circular : Bool) : TransitState ι τ :=
  { s with owner := update s.owner port none }.goto thread (.returned port dest circular)

/-- The next step of a thread in `ipc_port_check_circularity`; `none` when it has to wait. -/
def advance (thread : τ) : Option (TransitState ι τ) :=
  match s.pc thread with
  | .idle | .returned _ _ _ => none
  | .enter port dest =>
    if port = dest then some (s.finish thread port dest true)
    else if s.lock port = none then some ((s.acquire thread port).goto thread (.quick port dest))
    else none
  | .quick port dest =>
    -- ip_lock_try(dest), and if dest is not in transit the label not_circular
    if s.lock dest = none ∧ (s.ports dest).transit = none then
      some (((s.updPort port fun p => { p with data := .destination (some dest) }).release
        [port]).finish thread port dest false)
    else some ((s.release [port]).goto thread (.serialize port dest))
  | .serialize port dest =>
    if s.multiple = none then
      some ({ s with multiple := some thread }.goto thread (.search port dest dest []))
    else none
  | .search port dest base chain =>
    if s.lock base = none then
      match (s.ports base).transit with
      | none => some ((s.acquire thread base).goto thread (.ended port dest base chain))
      | some next =>
        some ((s.acquire thread base).goto thread (.search port dest next (chain ++ [base])))
    else none
  | .ended port dest base chain =>
    if port = base then
      some (({ s with multiple := none }.release (chain ++ [base])).finish thread port dest true)
    else if s.lock port = none then
      -- port is locked while the entire chain is, linked, and everything unlocked
      some ((({ s with multiple := none }.updPort port fun p =>
        { p with data := .destination (some dest) }).release (chain ++ [base])).finish
          thread port dest false)
    else none

end TransitState

/-- One event; `none` when it cannot happen. -/
def transitStep (s : TransitState ι τ) : TransitOp ι τ → Option (TransitState ι τ)
  | .alloc space name =>
    if name = machPortNull then none
    else
      some ({ s with nextObject := s.nextObject + 1 }.updPort s.nextObject fun _ =>
        { (IpcPort.blank : IpcPort ι) with
          ipActive := true, ipReceiverName := name, data := .receiver space })
  | .copyin port =>
    if s.unlocked port ∧ (s.ports port).ipActive = true then
      some (s.updPort port fun p =>
        { p with ipReceiverName := machPortNull, data := .destination none })
    else none
  | .copyout port space name =>
    if s.unlocked port ∧ (s.ports port).ipActive = true ∧
        (s.ports port).ipReceiverName = machPortNull ∧ name ≠ machPortNull then
      some (s.updPort port fun p => { p with ipReceiverName := name, data := .receiver space })
    else none
  | .die port timestamp =>
    if s.unlocked port ∧ (s.ports port).ipActive = true then
      some (s.updPort port fun p => { p with ipActive := false, data := .timestamp timestamp })
    else none
  | .check thread port dest =>
    if (s.pc thread).call = none ∧ s.unlocked port ∧ (s.ports port).limbo ∧
        dest < s.nextObject then
      some ({ s with owner := update s.owner port (some thread) }.goto thread
        (.enter port dest))
    else none
  | .advance thread => s.advance thread

/-- A run. -/
def transitRun (ops : List (TransitOp ι τ)) : Option (TransitState ι τ) :=
  Trace.run transitStep .initial ops

/-- Where the receive right of each port is under way to. -/
def TransitState.next (s : TransitState ι τ) (q : ℕ) : Option ℕ := (s.ports q).transit

/-- A step of the thread in the check. -/
def TransitOp.advances (t : τ) : TransitOp ι τ → Bool
  | .advance thread => thread = t
  | _ => false

/-- How many steps a call takes at most, when there are `n` ports. -/
def CheckPc.left (n : ℕ) : CheckPc → ℕ
  | idle | returned _ _ _ => 0
  | enter _ _ => n + 4
  | quick _ _ => n + 3
  | serialize _ _ => n + 2
  | search _ _ _ chain => n + 1 - chain.length
  | ended _ _ _ _ => 1

variable {s s' : TransitState ι τ} {t : τ} {p dest : ℕ}

/-! ### The invariant -/

/-- **The invariant of the ports in transit and of the calls of the check.** -/
structure TransitInv (s : TransitState ι τ) : Prop where
  acyclic : Acyclic s.next
  future : ∀ q, s.nextObject ≤ q → (s.ports q).ipActive = false
  target : ∀ p q, s.next p = some q → q < s.nextObject
  call : ∀ t p d, (s.pc t).call = some (p, d) →
    s.owner p = some t ∧ (s.ports p).limbo = true ∧ d < s.nextObject
  lock : ∀ t q, q ∈ (s.pc t).locked ↔ s.lock q = some t
  multiple : ∀ t, (s.pc t).serialized = true ↔ s.multiple = some t
  search : ∀ t p d b l, s.pc t = .search p d b l → Walk s.next d l b ∧ b < s.nextObject
  ended : ∀ t p d b l, s.pc t = .ended p d b l →
    Walk s.next d l b ∧ s.next b = none ∧ b < s.nextObject

theorem IpcPort.transit_of_limbo {port : IpcPort ι} (h : port.limbo = true) :
    port.transit = none := by
  unfold IpcPort.limbo at h
  unfold IpcPort.transit
  split at h
  · next hd =>
    split
    · rw [hd]
    · rfl
  · cases h

theorem IpcPort.limbo_iff {port : IpcPort ι} : port.limbo = true ↔
    port.ipActive = true ∧ port.ipReceiverName = machPortNull ∧ port.data = .destination none := by
  unfold IpcPort.limbo
  cases hd : port.data with
  | destination d => cases d <;> simp
  | _ => simp

theorem CheckPc.of_call_none {pc : CheckPc} (h : pc.call = none) :
    pc.locked = [] ∧ pc.serialized = false := by
  cases pc <;> first | exact ⟨rfl, rfl⟩ | cases h

namespace TransitInv

section

variable (h : TransitInv s)
include h

theorem thread (t : τ) (pc : CheckPc) (lock owner : ℕ → Option τ)
    (multiple : Option τ)
    (hself : ∀ q, q ∈ pc.locked ↔ lock q = some t)
    (hlock : ∀ t' q, t' ≠ t → (s.lock q = some t' ↔ lock q = some t'))
    (hcall : ∀ p d, pc.call = some (p, d) →
      owner p = some t ∧ (s.ports p).limbo = true ∧ d < s.nextObject)
    (howner : ∀ t' p, t' ≠ t → s.owner p = some t' → owner p = some t')
    (hmultiple : pc.serialized = true ↔ multiple = some t)
    (hothers : ∀ t', t' ≠ t → (s.multiple = some t' ↔ multiple = some t'))
    (hsearch : ∀ p d b l, pc = .search p d b l → Walk s.next d l b ∧ b < s.nextObject)
    (hended : ∀ p d b l, pc = .ended p d b l →
      Walk s.next d l b ∧ s.next b = none ∧ b < s.nextObject) :
    TransitInv { s with
      lock := lock, owner := owner, multiple := multiple, pc := update s.pc t pc } := by
  have hpc : ∀ t', t' ≠ t → update s.pc t pc t' = s.pc t' := fun t' ht =>
    update_of_ne ht _ _
  have hat : update s.pc t pc t = pc := update_self ..
  refine ⟨h.acyclic, h.future, h.target, fun t' p d hc => ?_, fun t' q => ?_, fun t' => ?_,
    fun t' p d b l hs => ?_, fun t' p d b l hs => ?_⟩ <;> dsimp only at * <;> by_cases ht : t' = t
  · subst ht
    rw [hat] at hc
    exact hcall p d hc
  · rw [hpc t' ht] at hc
    obtain ⟨h1, h2⟩ := h.call t' p d hc
    exact ⟨howner t' p ht h1, h2⟩
  · subst ht
    rw [hat]
    exact hself q
  · rw [hpc t' ht, h.lock t' q]
    exact hlock t' q ht
  · subst ht
    rw [hat]
    exact hmultiple
  · rw [hpc t' ht, h.multiple t']
    exact hothers t' ht
  · subst ht
    rw [hat] at hs
    exact hsearch p d b l hs
  · rw [hpc t' ht] at hs
    exact h.search t' p d b l hs
  · subst ht
    rw [hat] at hs
    exact hended p d b l hs
  · rw [hpc t' ht] at hs
    exact h.ended t' p d b l hs

omit [DecidableEq τ] in
theorem setPort (p : ℕ) (port : IpcPort ι)
    (hlocked : ∀ t, (s.pc t).serialized = true → p ∉ (s.pc t).locked)
    (hcall : ∀ t d, (s.pc t).call ≠ some (p, d)) (hp : p < s.nextObject)
    (hacyclic : Acyclic (update s.next p port.transit))
    (htarget : ∀ q, port.transit = some q → q < s.nextObject) :
    TransitInv { s with ports := update s.ports p port } := by
  have hnext : TransitState.next { s with ports := update s.ports p port } =
      update s.next p port.transit := by
    funext q
    dsimp only [TransitState.next]
    by_cases hq : q = p
    · rw [hq, update_self, update_self]
    · rw [update_of_ne hq, update_of_ne hq]
      rfl
  have hwalk : ∀ t d l b, (s.pc t).serialized = true → (∀ q ∈ l, q ∈ (s.pc t).locked) →
      Walk s.next d l b → Walk (update s.next p port.transit) d l b := by
    intro t d l b hs hl hw
    refine hw.congr fun q hq => update_of_ne ?_ _ _
    rintro rfl
    exact hlocked t hs (hl q hq)
  refine ⟨?_, fun q hq => ?_, fun a q hq => ?_, fun t a d hc => ?_, h.lock, h.multiple,
    fun t a d b l hs => ?_, fun t a d b l hs => ?_⟩
  · rw [hnext]
    exact hacyclic
  · dsimp only at hq ⊢
    rw [update_of_ne (by omega)]
    exact h.future q hq
  · rw [hnext] at hq
    by_cases ha : a = p
    · rw [ha, update_self] at hq
      exact htarget q hq
    · rw [update_of_ne ha] at hq
      exact h.target a q hq
  · obtain ⟨h1, h2, h3⟩ := h.call t a d hc
    have ha : a ≠ p := by
      rintro rfl
      exact hcall t d hc
    refine ⟨h1, ?_, h3⟩
    dsimp only
    rw [update_of_ne ha]
    exact h2
  · have hs : s.pc t = .search a d b l := hs
    obtain ⟨hw, hb⟩ := h.search t a d b l hs
    rw [hnext]
    exact ⟨hwalk t d l b (by rw [hs]; rfl) (by rw [hs]; exact fun q hq => hq) hw, hb⟩
  · have hs : s.pc t = .ended a d b l := hs
    obtain ⟨hw, hsink, hb⟩ := h.ended t a d b l hs
    have hne : b ≠ p := by
      rintro rfl
      refine hlocked t (by rw [hs]; rfl) ?_
      rw [hs]
      exact mem_append_right _ mem_cons_self
    rw [hnext, update_of_ne hne]
    refine ⟨hwalk t d l b (by rw [hs]; rfl) ?_ hw, hsink, hb⟩
    rw [hs]
    exact fun q hq => mem_append_left _ hq

omit [DecidableEq τ] in
theorem lt_of_active (ha : (s.ports p).ipActive = true) : p < s.nextObject := by
  by_contra hp
  rw [h.future p (by omega)] at ha
  cases ha

omit [DecidableEq τ] in
theorem locked_lt {q : ℕ} (hq : q ∈ (s.pc t).locked) : q < s.nextObject := by
  have hchain : ∀ {d b l}, Walk s.next d l b → q ∈ l → q < s.nextObject := by
    intro d b l hw hmem
    obtain ⟨r, hr, -⟩ := (Relation.TransGen.head'_iff).mp (hw.reaches_mem hmem).2
    by_contra hge
    have hdead := h.future q (by omega)
    rw [Edge, TransitState.next, IpcPort.transit, if_neg (by rw [hdead]; simp)] at hr
    cases hr
  cases hpc : s.pc t with
  | quick port dest =>
    rw [hpc] at hq
    obtain rfl := mem_singleton.mp hq
    have hlimbo := (h.call t q dest (by rw [hpc]; rfl)).2.1
    exact h.lt_of_active (IpcPort.limbo_iff.mp hlimbo).1
  | search port dest base chain =>
    rw [hpc] at hq
    exact hchain (h.search t port dest base chain hpc).1 hq
  | ended port dest base chain =>
    rw [hpc] at hq
    obtain ⟨hw, -, hb⟩ := h.ended t port dest base chain hpc
    rcases mem_append.mp hq with hq | hq
    · exact hchain hw hq
    · rw [mem_singleton.mp hq]
      exact hb
  | _ =>
    rw [hpc] at hq
    cases hq

omit [DecidableEq τ] in
theorem take (hp : s.unlocked p = true) (ha : (s.ports p).ipActive = true)
    (port : IpcPort ι) (ht : port.transit = none) :
    TransitInv { s with ports := update s.ports p port } := by
  obtain ⟨hlock, howner⟩ : s.lock p = none ∧ s.owner p = none := by
    simpa [TransitState.unlocked] using hp
  refine h.setPort p port (fun t _ hmem => ?_) (fun t d hc => ?_) (h.lt_of_active ha) ?_ ?_
  · rw [(h.lock t p).mp hmem] at hlock
    cases hlock
  · rw [(h.call t p d hc).1] at howner
    cases howner
  · refine h.acyclic.of_le fun a b hab => ?_
    by_cases hap : a = p
    · rw [hap, update_self, ht] at hab
      cases hab
    · rwa [update_of_ne hap] at hab
  · intro q hq
    rw [ht] at hq
    cases hq

theorem finish {pc : CheckPc} (hpc : s.pc t = pc)
    (hcall : pc.call = some (p, dest)) (circular : Bool) (multiple : Option τ)
    (hmultiple : multiple ≠ some t)
    (hothers : ∀ t', t' ≠ t → (s.multiple = some t' ↔ multiple = some t')) :
    TransitInv (({ s with multiple := multiple }.release pc.locked).finish t p dest circular) := by
  subst hpc
  refine h.thread t (.returned p dest circular) _ _ multiple (fun q => ?_) (fun t' q ht => ?_) ?_
    (fun t' q ht hq => ?_) (iff_of_false Bool.false_ne_true hmultiple) hothers ?_ ?_
  · constructor
    · intro hq
      cases hq
    · intro hq
      obtain ⟨hn, hq⟩ := ite_none_left_eq_some.mp hq
      exact absurd ((h.lock t q).mpr hq) hn
  · dsimp only [TransitState.release]
    split
    · next hq =>
      rw [(h.lock t q).mp hq]
      simp [Ne.symm ht]
    · rfl
  · intro a d hc
    cases hc
  · by_cases hqp : q = p
    · subst hqp
      rw [(h.call t q dest hcall).1] at hq
      exact absurd (some.inj hq).symm ht
    · dsimp only [TransitState.release]
      rw [update_of_ne hqp]
      exact hq
  · intro a d b l hc
    cases hc
  · intro a d b l hc
    cases hc

theorem link {pc : CheckPc} (hpc : s.pc t = pc)
    (hcall : pc.call = some (p, dest)) (hreach : ¬ Relation.ReflTransGen (Edge s.next) dest p)
    (hfree : ∀ t', t' ≠ t → p ∉ (s.pc t').locked) (multiple : Option τ)
    (hmultiple : multiple ≠ some t)
    (hothers : ∀ t', t' ≠ t → (s.multiple = some t' ↔ multiple = some t')) :
    TransitInv ((({ s with multiple := multiple }.updPort p fun port =>
      { port with data := .destination (some dest) }).release pc.locked).finish t p dest false) := by
  have hf := h.finish hpc hcall false multiple hmultiple hothers
  obtain ⟨howner, hlimbo, hdest⟩ := h.call t p dest (by rw [hpc]; exact hcall)
  obtain ⟨hact, hname, -⟩ := IpcPort.limbo_iff.mp hlimbo
  have htransit : ({ s.ports p with data := .destination (some dest) } : IpcPort ι).transit =
      some dest := by
    unfold IpcPort.transit
    rw [if_pos ⟨hact, hname⟩]
  refine hf.setPort p { s.ports p with data := .destination (some dest) } (fun t' hs hmem => ?_)
    (fun t' d hc => ?_) (h.lt_of_active hact) ?_ ?_
  · by_cases ht : t' = t
    · subst ht
      dsimp only [TransitState.finish, TransitState.goto] at hmem
      rw [update_self] at hmem
      cases hmem
    · dsimp only [TransitState.finish, TransitState.goto, TransitState.release] at hmem
      rw [update_of_ne ht] at hmem
      exact hfree t' ht hmem
  · by_cases ht : t' = t
    · subst ht
      dsimp only [TransitState.finish, TransitState.goto] at hc
      rw [update_self] at hc
      cases hc
    · dsimp only [TransitState.finish, TransitState.goto, TransitState.release] at hc
      rw [update_of_ne ht] at hc
      have := (h.call t' p d hc).1
      rw [howner] at this
      exact ht (some.inj this).symm
  · rw [htransit]
    exact h.acyclic.link (IpcPort.transit_of_limbo hlimbo) hreach
  · intro q hq
    rw [htransit] at hq
    cases hq
    exact hdest

omit [DecidableEq τ] in
theorem reaches_iff {b : ℕ} {l : List ℕ} (hpc : s.pc t = .ended p dest b l) :
    Relation.ReflTransGen (Edge s.next) dest p ↔ p = b := by
  obtain ⟨hw, hsink, -⟩ := h.ended t p dest b l hpc
  have hlimbo := (h.call t p dest (by rw [hpc]; rfl)).2.1
  exact hw.reaches_iff hsink (IpcPort.transit_of_limbo hlimbo)

omit [DecidableEq τ] in
theorem quick_iff (hpc : s.pc t = .quick p dest)
    (hlock : s.lock dest = none) (hsink : s.next dest = none) :
    ¬ Relation.ReflTransGen (Edge s.next) dest p := by
  intro hreach
  have hp : s.lock p = some t := (h.lock t p).mp (by rw [hpc]; exact mem_cons_self)
  rcases hreach.cases_head with rfl | ⟨q, hq, -⟩
  · rw [hlock] at hp
    cases hp
  · rw [Edge, hsink] at hq
    cases hq

theorem acquire {pc0 pc : CheckPc} {q : ℕ} (hpc : s.pc t = pc0)
    (hq : s.lock q = none) (hcall : pc.call = pc0.call)
    (hlocked : pc.locked = pc0.locked ++ [q]) (hser : pc.serialized = pc0.serialized)
    (hsearch : ∀ p d b l, pc = .search p d b l → Walk s.next d l b ∧ b < s.nextObject)
    (hended : ∀ p d b l, pc = .ended p d b l →
      Walk s.next d l b ∧ s.next b = none ∧ b < s.nextObject) :
    TransitInv ((s.acquire t q).goto t pc) := by
  subst hpc
  refine h.thread t pc (update s.lock q (some t)) s.owner s.multiple (fun r => ?_)
    (fun t' r ht => ?_) (fun p d hc => ?_) (fun _ _ _ ho => ho) ?_ (fun _ _ => Iff.rfl) hsearch
    hended
  · rw [hlocked, mem_append, mem_singleton, h.lock t r]
    by_cases hr : r = q
    · simp [hr]
    · rw [update_of_ne hr]
      simp [hr]
  · by_cases hr : r = q
    · rw [hr, hq, update_self]
      simp [Ne.symm ht]
    · rw [update_of_ne hr]
  · rw [hcall] at hc
    exact h.call t p d hc
  · rw [hser]
    exact h.multiple t

/-- **A step of the check keeps the invariant.** -/
theorem advance (hs : s.advance t = some s') : TransitInv s' := by
  have hnot : (s.pc t).serialized = false → s.multiple ≠ some t := by
    intro hser hm
    rw [← h.multiple t, hser] at hm
    cases hm
  unfold TransitState.advance at hs
  split at hs
  · cases hs
  · cases hs
  · next port dest hpc =>
    rw [hpc] at hnot
    split at hs
    · cases hs
      exact h.finish hpc rfl true s.multiple (hnot rfl) fun _ _ => Iff.rfl
    obtain ⟨hlock, ⟨⟩⟩ := ite_none_right_eq_some.mp hs
    exact h.acquire hpc hlock rfl rfl rfl nofun
      nofun
  · next port dest hpc =>
    rw [hpc] at hnot
    have hport : s.lock port = some t := (h.lock t port).mp (by rw [hpc]; exact mem_cons_self)
    split at hs
    · next hquick =>
      cases hs
      refine h.link hpc rfl (h.quick_iff hpc hquick.1 hquick.2) (fun t' ht hmem => ?_) s.multiple
        (hnot rfl) fun _ _ => Iff.rfl
      rw [(h.lock t' port).mp hmem] at hport
      exact ht (some.inj hport)
    cases hs
    obtain ⟨hcall, hlimbo, hdest⟩ := h.call t port dest (by rw [hpc]; rfl)
    refine h.thread t (.serialize port dest) _ s.owner s.multiple (fun q => ?_)
      (fun t' q ht => ?_) (fun p d hc => ?_) (fun _ _ _ ho => ho) ?_ (fun _ _ => Iff.rfl)
      nofun nofun
    · constructor
      · intro hq
        cases hq
      · intro hq
        obtain ⟨hn, hq⟩ := ite_none_left_eq_some.mp hq
        have := (h.lock t q).mpr hq
        rw [hpc] at this
        exact absurd this hn
    · dsimp only [TransitState.release]
      split
      · next hq =>
        rw [mem_singleton] at hq
        rw [hq, hport]
        simp [Ne.symm ht]
      · rfl
    · cases hc
      exact ⟨hcall, hlimbo, hdest⟩
    · exact iff_of_false Bool.false_ne_true (hnot rfl)
  · next port dest hpc =>
    obtain ⟨hm, ⟨⟩⟩ := ite_none_right_eq_some.mp hs
    have hcall := h.call t port dest (by rw [hpc]; rfl)
    refine h.thread t (.search port dest dest []) s.lock s.owner (some t) (fun q => ?_)
      (fun _ _ _ => Iff.rfl) (fun p d hc => ?_) (fun _ _ _ ho => ho) (iff_of_true rfl rfl)
      (fun t' ht => ?_) (fun p d b l hc => ?_) nofun
    · rw [← h.lock t q, hpc]
      exact Iff.rfl
    · cases hc
      exact hcall
    · rw [hm]
      simp [Ne.symm ht]
    · obtain ⟨rfl, rfl, rfl, rfl⟩ := CheckPc.search.inj hc
      exact ⟨rfl, hcall.2.2⟩
  · next port dest base chain hpc =>
    obtain ⟨hlock, hs⟩ := ite_none_right_eq_some.mp hs
    obtain ⟨hw, hb⟩ := h.search t port dest base chain hpc
    split at hs
    · next hsink =>
      cases hs
      refine h.acquire hpc hlock rfl rfl rfl nofun (fun p d b l hc => ?_)
      obtain ⟨rfl, rfl, rfl, rfl⟩ := CheckPc.ended.inj hc
      exact ⟨hw, hsink, hb⟩
    next nxt hnext =>
    cases hs
    refine h.acquire hpc hlock rfl rfl rfl (fun p d b l hc => ?_)
      nofun
    obtain ⟨rfl, rfl, rfl, rfl⟩ := CheckPc.search.inj hc
    exact ⟨hw.snoc hnext, h.target _ _ hnext⟩
  · next port dest base chain hpc =>
    have hm : s.multiple = some t := (h.multiple t).mp (by rw [hpc]; rfl)
    have hothers : ∀ t', t' ≠ t → (s.multiple = some t' ↔ (none : Option τ) = some t') := by
      intro t' ht
      rw [hm]
      simp [Ne.symm ht]
    split at hs
    · cases hs
      exact h.finish hpc rfl true none (by simp) hothers
    next hne =>
    obtain ⟨hlock, ⟨⟩⟩ := ite_none_right_eq_some.mp hs
    refine h.link hpc rfl (fun hr => hne ((h.reaches_iff hpc).mp hr)) (fun t' _ hmem => ?_) none
      (by simp) hothers
    rw [(h.lock t' port).mp hmem] at hlock
    cases hlock

/-- **Every event keeps the invariant.** -/
theorem step {op : TransitOp ι τ} (hs : transitStep s op = some s') :
    TransitInv s' := by
  cases op with
  | alloc space name =>
    obtain ⟨hname, ⟨⟩⟩ := ite_none_left_eq_some.mp hs
    have hgrow : TransitInv { s with nextObject := s.nextObject + 1 } :=
      ⟨h.acyclic, fun q hq => h.future q (Nat.le_of_succ_le hq),
        fun p q hpq => Nat.lt_succ_of_lt (h.target p q hpq),
        fun t p d hc => ⟨(h.call t p d hc).1, (h.call t p d hc).2.1,
          Nat.lt_succ_of_lt (h.call t p d hc).2.2⟩, h.lock, h.multiple,
        fun t p d b l hc => ⟨(h.search t p d b l hc).1,
          Nat.lt_succ_of_lt (h.search t p d b l hc).2⟩,
        fun t p d b l hc => ⟨(h.ended t p d b l hc).1, (h.ended t p d b l hc).2.1,
          Nat.lt_succ_of_lt (h.ended t p d b l hc).2.2⟩⟩
    refine hgrow.setPort s.nextObject _ (fun t _ hmem => ?_) (fun t d hc => ?_)
      (Nat.lt_succ_self _) ?_ (fun q hq => ?_)
    · exact lt_irrefl _ (h.locked_lt hmem)
    · have hlimbo := (h.call t _ d hc).2.1
      exact lt_irrefl _ (h.lt_of_active (IpcPort.limbo_iff.mp hlimbo).1)
    · refine h.acyclic.of_le fun a b hab => ?_
      by_cases ha : a = s.nextObject
      · rw [ha, update_self, IpcPort.transit, if_neg (by simp [hname])] at hab
        cases hab
      · rwa [update_of_ne ha] at hab
    · rw [IpcPort.transit, if_neg (by simp [hname])] at hq
      cases hq
  | copyin port =>
    obtain ⟨hg, ⟨⟩⟩ := ite_none_right_eq_some.mp hs
    refine h.take hg.1 hg.2 _ ?_
    unfold IpcPort.transit
    split <;> rfl
  | copyout port space name =>
    obtain ⟨hg, ⟨⟩⟩ := ite_none_right_eq_some.mp hs
    refine h.take hg.1 hg.2.1 _ ?_
    unfold IpcPort.transit
    split <;> rfl
  | die port timestamp =>
    obtain ⟨hg, ⟨⟩⟩ := ite_none_right_eq_some.mp hs
    refine h.take hg.1 hg.2 _ ?_
    unfold IpcPort.transit
    split <;> rfl
  | check thread port dest =>
    obtain ⟨hg, hs⟩ := ite_none_right_eq_some.mp hs
    obtain ⟨hidle, hfree, hlimbo, hdest⟩ := hg
    cases hs
    obtain ⟨hlocked, hser⟩ := CheckPc.of_call_none hidle
    have hnone : s.owner port = none := by
      simp only [TransitState.unlocked, Bool.and_eq_true, isNone_iff_eq_none] at hfree
      exact hfree.2
    refine h.thread thread (.enter port dest) s.lock _ s.multiple (fun q => ?_)
      (fun _ _ _ => Iff.rfl) (fun p d hc => ?_) (fun t' p _ ho => ?_) ?_ (fun _ _ => Iff.rfl)
      nofun nofun
    · rw [← h.lock thread q, hlocked]
      exact Iff.rfl
    · cases hc
      exact ⟨update_self .., hlimbo, hdest⟩
    · have hp : p ≠ port := by
        rintro rfl
        rw [hnone] at ho
        cases ho
      dsimp only
      rw [update_of_ne hp]
      exact ho
    · rw [← h.multiple thread, hser]
      exact Iff.rfl
  | advance thread => exact h.advance hs

end

end TransitInv

/-- **The invariant holds in every state reached.** -/
theorem transitInv_run {ops : List (TransitOp ι τ)} (h : transitRun ops = some s) :
    TransitInv s := by
  have hinit : TransitInv (TransitState.initial : TransitState ι τ) := by
    refine ⟨fun a ha => ?_, fun _ _ => rfl, fun p q hq => ?_, fun t p d hc => ?_, fun t q => ?_,
      fun t => ?_, fun t p d b l hc => ?_, fun t p d b l hc => ?_⟩
    · obtain ⟨b, hb, -⟩ := Relation.TransGen.head'_iff.mp ha
      cases hb
    · cases hq
    · cases hc
    · exact iff_of_false not_mem_nil (by simp [TransitState.initial])
    · exact iff_of_false Bool.false_ne_true (by simp [TransitState.initial])
    · cases hc
    · cases hc
  exact Trace.invariant_of_step (fun _ _ _ h hs => h.step hs) ops _ s hinit h

/-! ### Deadlock, and the length of a call -/

theorem advance_of_quick (hpc : s.pc t = .quick p dest) : ∃ s', s.advance t = some s' := by
  unfold TransitState.advance
  rw [hpc]
  dsimp only
  split <;> exact ⟨_, rfl⟩

omit [DecidableEq τ] in
theorem TransitInv.quick_of_lock (h : TransitInv s) {q : ℕ} (hq : s.lock q = some t)
    (hser : (s.pc t).serialized = false) : ∃ p d, s.pc t = .quick p d := by
  have hmem := (h.lock t q).mpr hq
  cases hpc : s.pc t with
  | quick port dest => exact ⟨port, dest, rfl⟩
  | search _ _ _ _ => rw [hpc] at hser; cases hser
  | ended _ _ _ _ => rw [hpc] at hser; cases hser
  | _ => rw [hpc] at hmem; cases hmem

theorem TransitInv.progress_serialized (h : TransitInv s) (hser : (s.pc t).serialized = true) :
    ∃ t' s', s.advance t' = some s' := by
  -- another thread that has a lock is not in a search
  have hother : ∀ {q t'}, t' ≠ t → s.lock q = some t' → ∃ t' s', s.advance t' = some s' := by
    intro q t' ht hq
    have hno : (s.pc t').serialized = false := by
      by_contra hc
      rw [Bool.not_eq_false, h.multiple t', (h.multiple t).mp hser] at hc
      exact ht (some.inj hc).symm
    obtain ⟨p, d, hpc⟩ := h.quick_of_lock hq hno
    exact ⟨t', advance_of_quick hpc⟩
  cases hpc : s.pc t with
  | search port dest base chain =>
    cases hlock : s.lock base with
    | none =>
      refine ⟨t, ?_⟩
      simp only [TransitState.advance, hpc, hlock, if_true]
      split <;> exact ⟨_, rfl⟩
    | some t' =>
      by_cases ht : t' = t
      · subst ht
        have hmem := (h.lock t' base).mpr hlock
        rw [hpc] at hmem
        have hnd := (h.search t' port dest base chain hpc).1.nodup h.acyclic
        exact absurd rfl ((nodup_append.mp hnd).2.2 base hmem base mem_cons_self)
      · exact hother ht hlock
  | ended port dest base chain =>
    by_cases hb : port = base
    · exact ⟨t, _, by simp only [TransitState.advance, hpc, hb, if_true]; rfl⟩
    cases hlock : s.lock port with
    | none => exact ⟨t, _, by simp only [TransitState.advance, hpc, hb, hlock, if_true, if_false]; rfl⟩
    | some t' =>
      by_cases ht : t' = t
      · -- the port is in limbo, so only the end of the chain
        subst ht
        have hmem := (h.lock t' port).mpr hlock
        rw [hpc] at hmem
        have hw := (h.ended t' port dest base chain hpc).1
        have hlimbo := (h.call t' port dest (by rw [hpc]; rfl)).2.1
        rcases mem_append.mp hmem with hmem | hmem
        · obtain ⟨r, hr, -⟩ := Relation.TransGen.head'_iff.mp (hw.reaches_mem hmem).2
          rw [Edge, TransitState.next, IpcPort.transit_of_limbo hlimbo] at hr
          cases hr
        · exact absurd (mem_singleton.mp hmem) hb
      · exact hother ht hlock
  | _ => rw [hpc] at hser; cases hser

/-- **No deadlock**: while a call is under way, some call can go on. -/
theorem TransitInv.progress (h : TransitInv s) (hcall : (s.pc t).call ≠ none) :
    ∃ t' s', s.advance t' = some s' := by
  have hlocked : ∀ {q t'}, s.lock q = some t' → ∃ t' s', s.advance t' = some s' := by
    intro q t' hq
    cases hser : (s.pc t').serialized with
    | true => exact h.progress_serialized hser
    | false =>
      obtain ⟨p, d, hpc⟩ := h.quick_of_lock hq hser
      exact ⟨t', advance_of_quick hpc⟩
  cases hpc : s.pc t with
  | idle => rw [hpc] at hcall; exact absurd rfl hcall
  | returned _ _ _ => rw [hpc] at hcall; exact absurd rfl hcall
  | enter port dest =>
    by_cases hd : port = dest
    · exact ⟨t, _, by simp only [TransitState.advance, hpc, hd, if_true]; rfl⟩
    · cases hlock : s.lock port with
      | none => exact ⟨t, _, by simp only [TransitState.advance, hpc, hd, hlock, if_true, if_false]; rfl⟩
      | some t' => exact hlocked hlock
  | quick port dest => exact ⟨t, advance_of_quick hpc⟩
  | serialize port dest =>
    cases hm : s.multiple with
    | none => exact ⟨t, _, by simp only [TransitState.advance, hpc, hm, if_true]; rfl⟩
    | some t' => exact h.progress_serialized ((h.multiple t').mpr hm)
  | search _ _ _ _ => exact h.progress_serialized (by rw [hpc]; rfl)
  | ended _ _ _ _ => exact h.progress_serialized (by rw [hpc]; rfl)

omit [DecidableEq τ] in
theorem TransitInv.chain_lt (h : TransitInv s) {base : ℕ} {chain : List ℕ}
    (hpc : s.pc t = .search p dest base chain) : chain.length < s.nextObject := by
  obtain ⟨hw, hb⟩ := h.search t p dest base chain hpc
  have hsub : chain ++ [base] ⊆ List.range s.nextObject := by
    intro q hq
    rw [mem_range]
    rcases mem_append.mp hq with hq | hq
    · exact h.locked_lt (t := t) (by rw [hpc]; exact hq)
    · rw [mem_singleton.mp hq]
      exact hb
  have hle := (subperm_of_subset (hw.nodup h.acyclic) hsub).length_le
  rwa [length_append, length_singleton, length_range] at hle

/-- **A step of a call** brings the call nearer to its end, and no other one. -/
theorem TransitInv.advance_left (h : TransitInv s) (hs : s.advance t = some s') :
    ∃ pc, s'.pc = update s.pc t pc ∧ s'.nextObject = s.nextObject ∧
      pc.left s.nextObject < (s.pc t).left s.nextObject := by
  unfold TransitState.advance at hs
  split at hs
  · cases hs
  · cases hs
  · next port d hpc =>
    rw [hpc]
    split at hs
    · cases hs
      exact ⟨_, rfl, rfl, Nat.succ_pos _⟩
    · obtain ⟨-, ⟨⟩⟩ := ite_none_right_eq_some.mp hs
      exact ⟨_, rfl, rfl, Nat.lt_succ_self _⟩
  · next port d hpc =>
    rw [hpc]
    split at hs
    · cases hs
      exact ⟨_, rfl, rfl, Nat.succ_pos _⟩
    · cases hs
      exact ⟨_, rfl, rfl, Nat.lt_succ_self _⟩
  · next port d hpc =>
    rw [hpc]
    obtain ⟨-, ⟨⟩⟩ := ite_none_right_eq_some.mp hs
    exact ⟨_, rfl, rfl, Nat.lt_succ_self _⟩
  · next port d base chain hpc =>
    have hlt := h.chain_lt hpc
    rw [hpc]
    obtain ⟨-, hs⟩ := ite_none_right_eq_some.mp hs
    split at hs
    · cases hs
      exact ⟨_, rfl, rfl, show 1 < s.nextObject + 1 - chain.length by omega⟩
    · cases hs
      refine ⟨_, rfl, rfl, ?_⟩
      rw [CheckPc.left, CheckPc.left, length_append, length_singleton]
      omega
  · next port d base chain hpc =>
    rw [hpc]
    split at hs
    · cases hs
      exact ⟨_, rfl, rfl, Nat.one_pos⟩
    · obtain ⟨-, ⟨⟩⟩ := ite_none_right_eq_some.mp hs
      exact ⟨_, rfl, rfl, Nat.one_pos⟩

theorem CheckPc.left_succ (pc : CheckPc) (n : ℕ) : pc.left (n + 1) ≤ pc.left n + 1 := by
  cases pc <;> simp only [CheckPc.left] <;> omega

theorem TransitInv.left_step (h : TransitInv s) {op : TransitOp ι τ}
    (hop : ∀ p d, op ≠ .check t p d) (hs : transitStep s op = some s') :
    (if op.advances t then 1 else 0) + (s'.pc t).left s'.nextObject + s.nextObject ≤
      (s.pc t).left s.nextObject + s'.nextObject := by
  cases op with
  | alloc space name =>
    obtain ⟨-, ⟨⟩⟩ := ite_none_left_eq_some.mp hs
    have := (s.pc t).left_succ s.nextObject
    show 0 + (s.pc t).left (s.nextObject + 1) + s.nextObject ≤ _ + (s.nextObject + 1)
    omega
  | check thread port dest =>
    obtain ⟨-, ⟨⟩⟩ := ite_none_right_eq_some.mp hs
    have hne : t ≠ thread := fun he => hop port dest (by rw [he])
    show 0 + (update s.pc thread _ t).left s.nextObject + s.nextObject ≤ _
    rw [update_of_ne hne, Nat.zero_add]
    exact le_rfl
  | advance thread =>
    obtain ⟨pc, hpc, hnext, hlt⟩ := h.advance_left hs
    rw [hpc, hnext]
    by_cases he : thread = t
    · subst he
      rw [update_self, TransitOp.advances, decide_eq_true rfl, if_pos rfl]
      omega
    · rw [update_of_ne (Ne.symm he), TransitOp.advances, decide_eq_false he, if_neg Bool.false_ne_true]
      omega
  | _ =>
    obtain ⟨-, ⟨⟩⟩ := ite_none_right_eq_some.mp hs
    exact (Nat.zero_add _ ▸ le_rfl)

/-- **The steps of a call**: in any run on from a state, a thread that does not call the check again takes
at most four steps more than there are ports in the end. -/
theorem TransitInv.own_steps (h : TransitInv s) {ops : List (TransitOp ι τ)}
    (hrun : Trace.run transitStep s ops = some s') (hops : ∀ p d, .check t p d ∉ ops) :
    ops.countP (·.advances t) ≤ s'.nextObject + 4 := by
  have hgen : ops.countP (·.advances t) + (s'.pc t).left s'.nextObject + s.nextObject ≤
      (s.pc t).left s.nextObject + s'.nextObject := by
    induction ops generalizing s with
    | nil =>
      cases hrun
      exact (Nat.zero_add _ ▸ le_rfl)
    | cons op ops ih =>
      obtain ⟨s1, hs1, hrun⟩ := Trace.run_cons hrun
      have hstep := h.left_step (t := t) (fun p d he => hops p d (he ▸ mem_cons_self)) hs1
      have hrest := ih (h.step hs1) hrun fun p d hm => hops p d (mem_cons_of_mem _ hm)
      rw [countP_cons]
      omega
  have hle : (s.pc t).left s.nextObject ≤ s.nextObject + 4 := by
    cases s.pc t <;> simp only [CheckPc.left] <;> omega
  omega

/-! ### The answer -/

/-- **A call that returns** has answered whether `dest` is `port` or leads to it, and has linked
`port` to `dest` just when the answer is no; a call that goes on has changed no port. -/
theorem TransitInv.answer (h : TransitInv s) (hcall : (s.pc t).call = some (p, dest))
    (hs : s.advance t = some s') :
    (s'.pc t).call = some (p, dest) ∧ s'.ports = s.ports ∨
    s'.pc t = .returned p dest true ∧ s'.ports = s.ports ∧
      (dest = p ∨ Relation.ReflTransGen (Edge s.next) dest p) ∨
    s'.pc t = .returned p dest false ∧
      s'.ports = update s.ports p { s.ports p with data := .destination (some dest) } ∧
      ¬ (dest = p ∨ Relation.ReflTransGen (Edge s.next) dest p) := by
  -- a walk of no steps is among those that reach
  have hnot : ¬ Relation.ReflTransGen (Edge s.next) dest p →
      ¬ (dest = p ∨ Relation.ReflTransGen (Edge s.next) dest p) := by
    rintro hr (rfl | hr')
    · exact hr .refl
    · exact hr hr'
  have hat : ∀ (u : TransitState ι τ) (pc : CheckPc), (u.goto t pc).pc t = pc := fun u pc =>
    update_self ..
  unfold TransitState.advance at hs
  split at hs
  · cases hs
  · cases hs
  · next port d hpc =>
    rw [hpc] at hcall
    cases hcall
    split at hs
    · next heq =>
      cases hs
      exact Or.inr (Or.inl ⟨hat _ _, rfl, Or.inl heq.symm⟩)
    obtain ⟨-, ⟨⟩⟩ := ite_none_right_eq_some.mp hs
    refine Or.inl ⟨?_, rfl⟩
    rw [hat]
    rfl
  · next port d hpc =>
    rw [hpc] at hcall
    cases hcall
    split at hs
    · next hq =>
      cases hs
      exact Or.inr (Or.inr ⟨hat _ _, rfl, hnot (h.quick_iff hpc hq.1 hq.2)⟩)
    · cases hs
      refine Or.inl ⟨?_, rfl⟩
      rw [hat]
      rfl
  · next port d hpc =>
    rw [hpc] at hcall
    cases hcall
    obtain ⟨-, ⟨⟩⟩ := ite_none_right_eq_some.mp hs
    refine Or.inl ⟨?_, rfl⟩
    rw [hat]
    rfl
  · next port d base chain hpc =>
    rw [hpc] at hcall
    cases hcall
    obtain ⟨-, hs⟩ := ite_none_right_eq_some.mp hs
    split at hs <;>
    · cases hs
      refine Or.inl ⟨?_, rfl⟩
      rw [hat]
      rfl
  · next port d base chain hpc =>
    rw [hpc] at hcall
    cases hcall
    split at hs
    · next hb =>
      cases hs
      exact Or.inr (Or.inl ⟨hat _ _, rfl, Or.inr ((h.reaches_iff hpc).mpr hb)⟩)
    next hb =>
    obtain ⟨-, ⟨⟩⟩ := ite_none_right_eq_some.mp hs
    exact Or.inr (Or.inr ⟨hat _ _, rfl, hnot fun hr => hb ((h.reaches_iff hpc).mp hr)⟩)

/-- **No circular in-transit ports.**  In every state reached: the ports in transit form no
circle; a call that returns answers whether there would be one, and links the port just when it
answers no; the chain a call has walked is not longer than there are ports, and while a call is
under way some call can go on; in all that can follow, a call takes at most four steps more than
there are ports, and then it has returned. -/
theorem circularity_of_run {ops : List (TransitOp ι τ)} (h : transitRun ops = some s) :
    (∀ p, ¬ Relation.TransGen (fun a b => (s.ports a).transit = some b) p p) ∧
    (∀ t p dest s', (s.pc t).call = some (p, dest) → s.advance t = some s' →
      (s'.pc t).call = some (p, dest) ∧ s'.ports = s.ports ∨
      ∃ circular, s'.pc t = .returned p dest circular ∧ (circular = true ↔ dest = p ∨
          Relation.ReflTransGen (fun a b => (s.ports a).transit = some b) dest p) ∧
        s'.ports = if circular then s.ports else
          update s.ports p { s.ports p with data := .destination (some dest) }) ∧
    (∀ t p dest base chain, s.pc t = .search p dest base chain → chain.length < s.nextObject) ∧
    (∀ t, (s.pc t).call ≠ none → ∃ t' s', s.advance t' = some s') ∧
    ∀ t ops' s', Trace.run transitStep s ops' = some s' → (∀ p dest, .check t p dest ∉ ops') →
      ops'.countP (·.advances t) ≤ s'.nextObject + 4 := by
  have hinv := transitInv_run h
  refine ⟨hinv.acyclic, fun t p dest s' hcall hs => ?_, fun t p dest base chain hpc => hinv.chain_lt hpc,
    fun t hcall => hinv.progress hcall, fun t ops' s' hrun hops => hinv.own_steps hrun hops⟩
  rcases hinv.answer hcall hs with hgo | ⟨h1, h2, h3⟩ | ⟨h1, h2, h3⟩
  · exact Or.inl hgo
  · exact Or.inr ⟨true, h1, iff_of_true rfl h3, h2⟩
  · exact Or.inr ⟨false, h1, iff_of_false Bool.false_ne_true h3, h2⟩

/-- A port is sent to another, which is then sent to it. -/
def circleOps : List (TransitOp Unit Bool) :=
  [.alloc () 1, .alloc () 2, .copyin 0, .check false 0 1, .advance false, .advance false,
    .copyin 1, .check true 1 0, .advance true, .advance true, .advance true, .advance true,
    .advance true, .advance true]

theorem circularity_of_circleOps : ∃ s, transitRun circleOps = some s ∧
    s.pc true = .returned 1 0 true ∧ (s.ports 0).transit = some 1 ∧
    ∀ p, ¬ Relation.TransGen (fun a b => (s.ports a).transit = some b) p p := by
  obtain ⟨s, hs, hpc, hport⟩ : ∃ s, transitRun circleOps = some s ∧
      s.pc true = .returned 1 0 true ∧ (s.ports 0).transit = some 1 := ⟨_, rfl, rfl, rfl⟩
  exact ⟨s, hs, hpc, hport, (circularity_of_run hs).1⟩

end Osfmk

import Osfmk.Lib.Trace

/-!
# The messages of a migrating receive right

A receive right that is received on another node migrates there.  `dipc_port_copyout` on the new node
makes the proxy a principal that accepts messages only from the old node, takes away the messages that
were queued on the proxy, and asks the old node to begin.  `dipc_migration_request` there makes the
port a forwarding proxy, pushes its messages one by one, with the queue unlocked, and then its state;
the new node puts the messages it has taken away behind them and lets senders go on.

## Main results

* `Inv.step` — what every sound step keeps.
* `arrived_of_run` — when `dipc_port_copyout` has returned, all the messages are there, in order.
-/

namespace Osfmk

/-- Where a message comes from. -/
inductive Site
  | old
  | new
  | other
  deriving DecidableEq

def machPortQlimitMax : ℕ := 16

def machPortQlimitDefault : ℕ := 5

/-- A queued message: a meta-kmsg, or one in DIPC format. -/
structure QueuedKmsg (M : Type) where
  isMeta : Bool
  body : M
  deriving DecidableEq

/-- What `dipc_mqueue_deliver` says. -/
inductive DeliverReturn
  | success
  | portMigrated
  | queueFull
  deriving DecidableEq

/-- The port on one node. -/
structure MigPort (M : Type) where
  messages : List (QueuedKmsg M)
  msgcount : ℕ
  qlimit : ℕ
  proxy : Bool
  msBlock : Bool
  sourceNode : Option Site

namespace MigPort

variable {M : Type}

/-- A message is put on the queue and counted: the end of `ipc_mqueue_deliver`, and
`dipc_kmsg_proxy_enqueue`. -/
def enqueue (x : MigPort M) (k : QueuedKmsg M) : MigPort M :=
  { x with messages := x.messages ++ [k], msgcount := x.msgcount + 1 }

def dipcMqueueDeliver (x : MigPort M) (k : QueuedKmsg M) : DeliverReturn × MigPort M :=
  if x.proxy then (.portMigrated, x)
  else if x.msgcount ≥ x.qlimit ∧ x.msBlock = false then (.queueFull, x)
  else (.success, x.enqueue k)

/-- A message from a node is held back while the right migrates, unless it is part of the
migration. -/
def heldBack (x : MigPort M) (node : Site) : Bool :=
  x.msBlock && decide (x.sourceNode ≠ some node)

/-- A message from another node, when it is not held back and the queue takes it. -/
def receiveRemote (x : MigPort M) (node : Site) (k : QueuedKmsg M) : Option (MigPort M) :=
  if x.heldBack node then none
  else
    match x.dipcMqueueDeliver k with
    | (.success, x') => some x'
    | _ => none

/-- `ipc_mqueue_send` on the principal, when it need not wait. -/
def ipcMqueueSend (x : MigPort M) (k : QueuedKmsg M) (always : Bool) : Option (MigPort M) :=
  if x.proxy = false ∧ x.msBlock = false ∧ (x.msgcount < x.qlimit ∨ always) then some (x.enqueue k)
  else none

end MigPort

/-- Where `dipc_port_copyout` is, on the new node. -/
inductive CopyoutPc (M : Type)
  /-- The port is a proxy, and the message with the right has not been received. -/
  | remote
  | converted
  /-- It has saved the messages of the proxy, and waits for the state of the port. -/
  | waiting (saveQueue : List (QueuedKmsg M))
  | returned

namespace CopyoutPc

variable {M : Type}

/-- The messages that have been saved. -/
def saveQueue : CopyoutPc M → List (QueuedKmsg M)
  | .waiting l => l
  | _ => []

end CopyoutPc

/-- Where `dipc_migration_request` is, on the old node. -/
inductive RequestPc (M : Type)
  | principal
  /-- The port blocks further messages, and has become a forwarding proxy. -/
  | blocked
  | forwarding (nmsgs : ℕ) (hand : Option (QueuedKmsg M))
  | stateSent
  | finished

/-- Both nodes. -/
structure Migration (M : Type) where
  old : MigPort M
  new : MigPort M
  copyout : CopyoutPc M
  request : RequestPc M
  /-- Senders on the new node, with `MACH_SEND_ALWAYS`, that have been told `DIPC_QUEUE_FULL` or
  `DIPC_RESOURCE_SHORTAGE`. -/
  full : List (QueuedKmsg M)
  queued : List (QueuedKmsg M)
  /-- For the specification: the messages that were saved on the new node. -/
  saved : List (QueuedKmsg M)
  /-- For the specification: the messages that arrived on the new node afterwards. -/
  later : List (QueuedKmsg M)
  /-- For the specification: the messages that were left on the forwarding proxy afterwards. -/
  parked : List (QueuedKmsg M)

namespace Migration

variable {M : Type}

/-! ### The steps -/

/-- What can happen, from one lock to the next. -/
inductive Act (M : Type)
  | sendOld (k : QueuedKmsg M) (always : Bool)
  | arriveOld (node : Site) (k : QueuedKmsg M)
  /-- A sender on the new node is told that the queue is full, and then locks the port. -/
  | tellFull (k : QueuedKmsg M)
  /-- A sender on the new node is told that the old node has no memory for its message, whatever the state
  of the port there. -/
  | tellShort (k : QueuedKmsg M)
  | proxyEnqueue
  /-- A sender on the new node finds, under the lock, that others wait before it. -/
  | queueBehind (k : QueuedKmsg M)
  | convert
  | save
  | restore
  | block
  | count
  | dequeue
  | push
  | migrateState
  | finish
  | sendNew (k : QueuedKmsg M) (always : Bool)
  | arriveNew (node : Site) (k : QueuedKmsg M)
  /-- A sender on the old node leaves a message on the forwarding proxy. -/
  | park (k : QueuedKmsg M)

/-- A message on its way to the new node: `dproc_send_meta_kmsg`, or `dipc_mqueue_send` to the node. -/
def pushed (x : MigPort M) (k : QueuedKmsg M) : Option (MigPort M) :=
  if k.isMeta then some (x.enqueue k) else x.receiveRemote .old k

/-- A step, if it is possible. -/
def step (s : Migration M) : Act M → Option (Migration M)
  | .sendOld k always => (s.old.ipcMqueueSend k always).map fun x => { s with old := x }
  | .arriveOld node k => (s.old.receiveRemote node k).map fun x => { s with old := x }
  | .tellFull k =>
    if s.new.proxy ∧ (s.old.dipcMqueueDeliver k).1 = .queueFull then
      some { s with full := s.full ++ [k] }
    else none
  | .tellShort k => if s.new.proxy then some { s with full := s.full ++ [k] } else none
  | .proxyEnqueue =>
    match s.full with
    | [] => none
    | k :: l => some { s with full := l, new := s.new.enqueue k }
  | .queueBehind k => if s.new.proxy then some { s with new := s.new.enqueue k } else none
  | .convert =>
    match s.copyout with
    | .remote =>
      some { s with
        copyout := .converted
        new := { s.new with proxy := false, msBlock := true, sourceNode := some .old } }
    | _ => none
  | .save =>
    match s.copyout with
    | .converted =>
      some { s with
        copyout := .waiting s.new.messages
        saved := s.new.messages
        new := { s.new with messages := [] } }
    | _ => none
  | .block =>
    match s.copyout, s.request with
    | .waiting _, .principal =>
      some { s with
        request := .blocked
        queued := s.old.messages
        old := { s.old with proxy := true, msBlock := true } }
    | _, _ => none
  | .count =>
    match s.request with
    | .blocked =>
      some { s with
        request := .forwarding
          (if s.old.msgcount > machPortQlimitMax then machPortQlimitMax else s.old.msgcount) none }
    | _ => none
  | .dequeue =>
    match s.request, s.old.messages with
    | .forwarding (n + 1) none, k :: l =>
      some { s with
        request := .forwarding n (some k)
        old := { s.old with messages := l, msgcount := s.old.msgcount - 1 } }
    | _, _ => none
  | .push =>
    match s.request with
    | .forwarding n (some k) =>
      (pushed s.new k).map fun x => { s with request := .forwarding n none, new := x }
    | _ => none
  | .migrateState =>
    match s.request with
    | .forwarding n none =>
      if n = 0 ∨ s.old.messages = [] then
        some { s with
          request := .stateSent
          new := { s.new with qlimit := s.old.qlimit, sourceNode := none } }
      else none
    | _ => none
  | .finish =>
    match s.request with
    | .stateSent =>
      some { s with
        request := .finished
        old := { s.old with qlimit := machPortQlimitDefault, msBlock := false } }
    | _ => none
  | .restore =>
    match s.copyout, s.request with
    | .waiting l, .stateSent | .waiting l, .finished =>
      some { s with
        copyout := .returned
        new := { s.new with messages := s.new.messages ++ l, msBlock := false } }
    | _, _ => none
  | .sendNew k always =>
    (s.new.ipcMqueueSend k always).map fun x => { s with new := x, later := s.later ++ [k] }
  | .arriveNew node k =>
    -- the senders on the old node wait while the forwarding proxy blocks
    if node = .old ∧ (s.old.msBlock ∨ s.old.proxy = false) then none
    else (s.new.receiveRemote node k).map fun x => { s with new := x, later := s.later ++ [k] }
  | .park k =>
    if s.old.proxy ∧ s.old.msBlock = false then
      some { s with old := s.old.enqueue k, parked := s.parked ++ [k] }
    else none

/-- Before the message with the right is received: any messages on both nodes. -/
structure Initial (s : Migration M) : Prop where
  copyout : s.copyout = .remote
  request : s.request = .principal
  full : s.full = []
  later : s.later = []
  parked : s.parked = []
  old : s.old.proxy = false ∧ s.old.msBlock = false
  new : s.new.proxy = true
  countOld : s.old.msgcount = s.old.messages.length
  countNew : s.new.msgcount = s.new.messages.length

/-- A message is left on the proxy only while it is one, and not more messages are queued on the old
node than are taken. -/
def Sound (s : Migration M) : Act M → Prop
  | .proxyEnqueue => s.new.proxy = true
  | .block => s.old.messages.length ≤ machPortQlimitMax
  | _ => True

/-- What holds of the queues and the flags at each stage. -/
def Stage (s : Migration M) : Prop :=
  match s.copyout, s.request with
  | .remote, .principal =>
    s.new.proxy = true ∧ s.old.proxy = false ∧ s.later = [] ∧ s.parked = []
  | .converted, .principal =>
    (s.new.proxy = false ∧ s.new.msBlock = true ∧ s.new.sourceNode = some .old) ∧
      s.old.proxy = false ∧ s.later = [] ∧ s.parked = []
  | .waiting l, .principal =>
    (s.new.proxy = false ∧ s.new.msBlock = true ∧ s.new.sourceNode = some .old) ∧
      s.old.proxy = false ∧ s.later = [] ∧ s.parked = [] ∧ l = s.saved ∧ s.new.messages = []
  | .waiting l, .blocked =>
    (s.new.proxy = false ∧ s.new.msBlock = true ∧ s.new.sourceNode = some .old) ∧
      (s.old.proxy = true ∧ s.old.msBlock = true) ∧ s.later = [] ∧ s.parked = [] ∧ l = s.saved ∧
      s.new.messages = [] ∧ s.old.messages = s.queued ∧
      s.old.messages.length ≤ machPortQlimitMax
  | .waiting l, .forwarding n hand =>
    (s.new.proxy = false ∧ s.new.msBlock = true ∧ s.new.sourceNode = some .old) ∧
      (s.old.proxy = true ∧ s.old.msBlock = true) ∧ s.later = [] ∧ s.parked = [] ∧ l = s.saved ∧
      s.new.messages ++ hand.toList ++ s.old.messages = s.queued ∧ s.old.messages.length ≤ n
  | .waiting l, .stateSent =>
    (s.new.proxy = false ∧ s.new.msBlock = true ∧ s.new.sourceNode = none) ∧
      (s.old.proxy = true ∧ s.old.msBlock = true) ∧ s.later = [] ∧ s.parked = [] ∧ l = s.saved ∧
      s.new.messages = s.queued ∧ s.old.messages = []
  | .waiting l, .finished =>
    (s.new.proxy = false ∧ s.new.msBlock = true ∧ s.new.sourceNode = none) ∧
      s.old.proxy = true ∧ s.later = [] ∧ l = s.saved ∧
      s.new.messages = s.queued ∧ s.old.messages = s.parked
  | .returned, .stateSent =>
    (s.new.proxy = false ∧ s.new.msBlock = false) ∧ (s.old.proxy = true ∧ s.old.msBlock = true) ∧
      s.parked = [] ∧ s.new.messages = s.queued ++ s.saved ++ s.later ∧ s.old.messages = []
  | .returned, .finished =>
    (s.new.proxy = false ∧ s.new.msBlock = false) ∧ s.old.proxy = true ∧
      s.new.messages = s.queued ++ s.saved ++ s.later ∧ s.old.messages = s.parked
  | _, _ => False

/-- **What holds between two steps.** -/
structure Inv (s : Migration M) : Prop where
  countOld : s.old.msgcount = s.old.messages.length
  countNew : s.new.msgcount = s.new.messages.length + s.copyout.saveQueue.length
  stage : Stage s

variable {s s' : Migration M} {x x' : MigPort M} {k : QueuedKmsg M} {node : Site}

theorem receiveRemote_eq (h : x.receiveRemote node k = some x') :
    x.proxy = false ∧ (x.msBlock = false ∨ x.sourceNode = some node) ∧ x' = x.enqueue k := by
  unfold MigPort.receiveRemote MigPort.dipcMqueueDeliver at h
  split at h
  · cases h
  · next hheld =>
    have hfrom : x.msBlock = false ∨ x.sourceNode = some node := by
      cases hb : x.msBlock
      · exact Or.inl rfl
      · right
        by_contra hne
        exact hheld (by simp [MigPort.heldBack, hb, hne])
    by_cases hp : x.proxy = true
    · rw [if_pos hp] at h
      cases h
    · rw [if_neg hp] at h
      by_cases hfull : x.msgcount ≥ x.qlimit ∧ x.msBlock = false
      · rw [if_pos hfull] at h
        cases h
      · rw [if_neg hfull] at h
        cases h
        exact ⟨Bool.eq_false_iff.mpr hp, hfrom, rfl⟩

theorem pushed_eq (h : pushed x k = some x') : x' = x.enqueue k := by
  unfold pushed at h
  split at h
  · exact (Option.some.inj h).symm
  · exact (receiveRemote_eq h).2.2

theorem MigPort.enqueue_count {x : MigPort M} {k : QueuedKmsg M} {n : ℕ}
    (h : x.msgcount = x.messages.length + n) :
    (x.enqueue k).msgcount = (x.enqueue k).messages.length + n := by
  simp only [MigPort.enqueue, List.length_append, List.length_singleton]
  omega

section

variable (h : Inv s)
include h

theorem Inv.enqueueOld (hp : s.old.proxy = false) (k : QueuedKmsg M) :
    Inv { s with old := s.old.enqueue k } := by
  refine ⟨MigPort.enqueue_count (n := 0) h.countOld, h.countNew, ?_⟩
  have hst := h.stage
  unfold Stage at hst ⊢
  cases hc : s.copyout <;> cases hr : s.request <;> simp_all [MigPort.enqueue]

theorem Inv.enqueueNew (hp : s.new.proxy = false) (hb : s.new.msBlock = false)
    (k : QueuedKmsg M) :
    Inv { s with new := s.new.enqueue k, later := s.later ++ [k] } := by
  refine ⟨h.countOld, MigPort.enqueue_count h.countNew, ?_⟩
  have hst := h.stage
  unfold Stage at hst ⊢
  cases hc : s.copyout <;> cases hr : s.request <;> simp_all [MigPort.enqueue]

theorem Inv.enqueueProxy (hp : s.new.proxy = true) (k : QueuedKmsg M)
    (l : List (QueuedKmsg M)) : Inv { s with full := l, new := s.new.enqueue k } := by
  refine ⟨h.countOld, MigPort.enqueue_count h.countNew, ?_⟩
  have hst := h.stage
  unfold Stage at hst ⊢
  cases hc : s.copyout <;> cases hr : s.request <;> simp_all [MigPort.enqueue]

theorem Inv.enqueueForward (hp : s.old.proxy = true) (hb : s.old.msBlock = false)
    (k : QueuedKmsg M) :
    Inv { s with old := s.old.enqueue k, parked := s.parked ++ [k] } := by
  refine ⟨MigPort.enqueue_count (n := 0) h.countOld, h.countNew, ?_⟩
  have hst := h.stage
  unfold Stage at hst ⊢
  cases hc : s.copyout <;> cases hr : s.request <;> simp_all [MigPort.enqueue]

theorem Inv.unblocked (hp : s.new.proxy = false)
    (hfrom : s.new.msBlock = false ∨ s.new.sourceNode = some node)
    (hnode : ¬ (node = .old ∧ (s.old.msBlock = true ∨ s.old.proxy = false))) :
    s.new.msBlock = false := by
  cases hb : s.new.msBlock with
  | false => rfl
  | true =>
    have hsource := hfrom.resolve_left (by simp [hb])
    have hst := h.stage
    unfold Stage at hst
    cases hc : s.copyout <;> cases hr : s.request <;> simp_all

theorem Inv.convert (hc : s.copyout = .remote) : Inv { s with
      copyout := .converted
      new := { s.new with proxy := false, msBlock := true, sourceNode := some .old } } := by
  refine ⟨h.countOld, ?_, ?_⟩
  · have hn := h.countNew
    rw [hc] at hn
    exact hn
  · have hst := h.stage
    unfold Stage at hst ⊢
    rw [hc] at hst
    cases hr : s.request <;> simp_all

theorem Inv.save (hc : s.copyout = .converted) : Inv { s with
      copyout := .waiting s.new.messages
      saved := s.new.messages
      new := { s.new with messages := [] } } := by
  refine ⟨h.countOld, ?_, ?_⟩
  · have hn := h.countNew
    rw [hc] at hn
    simpa [CopyoutPc.saveQueue] using hn
  · have hst := h.stage
    unfold Stage at hst ⊢
    rw [hc] at hst
    cases hr : s.request <;> simp_all

variable {l : List (QueuedKmsg M)} {n : ℕ}

theorem Inv.block (hc : s.copyout = .waiting l)
    (hr : s.request = .principal) (hfits : s.old.messages.length ≤ machPortQlimitMax) :
    Inv { s with
      request := .blocked
      queued := s.old.messages
      old := { s.old with proxy := true, msBlock := true } } := by
  refine ⟨h.countOld, h.countNew, ?_⟩
  have hst := h.stage
  unfold Stage at hst ⊢
  simp_all

theorem Inv.count (hr : s.request = .blocked) : Inv { s with
      request := .forwarding
        (if s.old.msgcount > machPortQlimitMax then machPortQlimitMax else s.old.msgcount)
        none } := by
  refine ⟨h.countOld, h.countNew, ?_⟩
  have hst := h.stage
  have hn := h.countOld
  unfold Stage at hst ⊢
  rw [hr] at hst
  cases hc : s.copyout with
  | waiting l =>
    rw [hc] at hst
    obtain ⟨hnew, hold, hlater, hparked, hl, hempty, hqueued, hfits⟩ := hst
    refine ⟨hnew, hold, hlater, hparked, hl, ?_, ?_⟩
    · rw [hempty, hqueued]
      rfl
    · rw [if_neg (by omega)]
      exact hn.ge
  | _ =>
    rw [hc] at hst
    exact hst.elim

theorem Inv.dequeue
    (hr : s.request = .forwarding (n + 1) none) (hq : s.old.messages = k :: l) :
    Inv { s with
      request := .forwarding n (some k)
      old := { s.old with messages := l, msgcount := s.old.msgcount - 1 } } := by
  refine ⟨?_, h.countNew, ?_⟩
  · have hn := h.countOld
    rw [hq, List.length_cons] at hn
    change s.old.msgcount - 1 = l.length
    omega
  · have hst := h.stage
    unfold Stage at hst ⊢
    rw [hr] at hst
    cases hc : s.copyout <;> simp_all

theorem Inv.push (hr : s.request = .forwarding n (some k)) :
    Inv { s with request := .forwarding n none, new := s.new.enqueue k } := by
  refine ⟨h.countOld, MigPort.enqueue_count h.countNew, ?_⟩
  have hst := h.stage
  unfold Stage at hst ⊢
  rw [hr] at hst
  cases hc : s.copyout <;> simp_all [MigPort.enqueue]

theorem Inv.migrateState (hr : s.request = .forwarding n none)
    (hend : n = 0 ∨ s.old.messages = []) :
    Inv { s with
      request := .stateSent
      new := { s.new with qlimit := s.old.qlimit, sourceNode := none } } := by
  refine ⟨h.countOld, h.countNew, ?_⟩
  have hst := h.stage
  unfold Stage at hst ⊢
  rw [hr] at hst
  cases hc : s.copyout with
  | waiting l =>
    rw [hc] at hst
    obtain ⟨⟨hproxy, hblock, -⟩, hold, hlater, hparked, hl, hqueued, hlen⟩ := hst
    have hempty : s.old.messages = [] := by
      rcases hend with rfl | he
      · exact List.length_eq_zero_iff.mp (Nat.le_zero.mp hlen)
      · exact he
    refine ⟨⟨hproxy, hblock, rfl⟩, hold, hlater, hparked, hl, ?_, hempty⟩
    rw [← hqueued, hempty]
    simp
  | _ =>
    rw [hc] at hst
    exact hst.elim

theorem Inv.finish (hr : s.request = .stateSent) : Inv { s with
      request := .finished
      old := { s.old with qlimit := machPortQlimitDefault, msBlock := false } } := by
  refine ⟨h.countOld, h.countNew, ?_⟩
  have hst := h.stage
  unfold Stage at hst ⊢
  rw [hr] at hst
  cases hc : s.copyout <;> simp_all

theorem Inv.restore (hc : s.copyout = .waiting l)
    (hr : s.request = .stateSent ∨ s.request = .finished) :
    Inv { s with
      copyout := .returned
      new := { s.new with messages := s.new.messages ++ l, msBlock := false } } := by
  refine ⟨h.countOld, ?_, ?_⟩
  · have hn := h.countNew
    rw [hc] at hn
    simpa [CopyoutPc.saveQueue] using hn
  · have hst := h.stage
    unfold Stage at hst ⊢
    rcases hr with hr | hr <;> simp_all

/-- **A sound step** keeps the invariant. -/
theorem Inv.step {act : Act M} (hsound : Sound s act) (hstep : step s act = some s') :
    Inv s' := by
  cases act with
  | sendOld k always =>
    obtain ⟨x, hx, rfl⟩ := Option.map_eq_some_iff.mp hstep
    obtain ⟨⟨hp, -⟩, rfl⟩ := Trace.of_guard hx
    exact h.enqueueOld hp k
  | arriveOld node k =>
    obtain ⟨x, hx, rfl⟩ := Option.map_eq_some_iff.mp hstep
    obtain ⟨hp, -, rfl⟩ := receiveRemote_eq hx
    exact h.enqueueOld hp k
  | tellFull k =>
    obtain ⟨-, rfl⟩ := Trace.of_guard hstep
    exact { h with }
  | tellShort k =>
    obtain ⟨-, rfl⟩ := Trace.of_guard hstep
    exact { h with }
  | proxyEnqueue =>
    cases hf : s.full with
    | nil =>
      simp only [Migration.step, hf] at hstep
      cases hstep
    | cons k l =>
      simp only [Migration.step, hf] at hstep
      cases hstep
      exact h.enqueueProxy hsound k l
  | queueBehind k =>
    obtain ⟨hp, rfl⟩ := Trace.of_guard hstep
    exact h.enqueueProxy hp k s.full
  | convert =>
    cases hc : s.copyout with
    | remote =>
      simp only [Migration.step, hc] at hstep
      cases hstep
      exact h.convert hc
    | _ =>
      simp only [Migration.step, hc] at hstep
      cases hstep
  | save =>
    cases hc : s.copyout with
    | converted =>
      simp only [Migration.step, hc] at hstep
      cases hstep
      exact h.save hc
    | _ =>
      simp only [Migration.step, hc] at hstep
      cases hstep
  | restore =>
    simp only [Migration.step] at hstep
    split at hstep
    · next hc hr =>
      cases hstep
      exact h.restore hc (Or.inl hr)
    · next hc hr =>
      cases hstep
      exact h.restore hc (Or.inr hr)
    · cases hstep
  | block =>
    simp only [Migration.step] at hstep
    split at hstep <;> cases hstep
    next hc hr =>
    exact h.block hc hr hsound
  | count =>
    simp only [Migration.step] at hstep
    split at hstep <;> cases hstep
    next hr =>
    exact h.count hr
  | dequeue =>
    simp only [Migration.step] at hstep
    split at hstep <;> cases hstep
    next hr hq =>
    exact h.dequeue hr hq
  | push =>
    simp only [Migration.step] at hstep
    split at hstep
    · next hr =>
      obtain ⟨x, hx, rfl⟩ := Option.map_eq_some_iff.mp hstep
      rw [pushed_eq hx]
      exact h.push hr
    · cases hstep
  | migrateState =>
    simp only [Migration.step] at hstep
    split at hstep
    · next hr =>
      obtain ⟨hend, rfl⟩ := Trace.of_guard hstep
      exact h.migrateState hr hend
    · cases hstep
  | finish =>
    simp only [Migration.step] at hstep
    split at hstep <;> cases hstep
    next hr =>
    exact h.finish hr
  | sendNew k always =>
    obtain ⟨x, hx, rfl⟩ := Option.map_eq_some_iff.mp hstep
    obtain ⟨⟨hp, hb, -⟩, rfl⟩ := Trace.of_guard hx
    exact h.enqueueNew hp hb k
  | arriveNew node k =>
    simp only [Migration.step] at hstep
    split at hstep
    · cases hstep
    · next hnode =>
      obtain ⟨x, hx, rfl⟩ := Option.map_eq_some_iff.mp hstep
      obtain ⟨hp, hfrom, rfl⟩ := receiveRemote_eq hx
      exact h.enqueueNew hp (h.unblocked hp hfrom hnode) k
  | park k =>
    obtain ⟨⟨hp, hb⟩, rfl⟩ := Trace.of_guard hstep
    exact h.enqueueForward hp hb k

end

theorem Initial.inv (h : Initial s) : Inv s := by
  refine ⟨h.countOld, ?_, ?_⟩
  · rw [h.countNew, h.copyout]
    rfl
  · unfold Stage
    rw [h.copyout, h.request]
    exact ⟨h.new, h.old.1, h.later, h.parked⟩

/-- A port with some messages on the old node and on the proxy. -/
def startWith (old new : List (QueuedKmsg ℕ)) : Migration ℕ where
  old := ⟨old, old.length, 2, false, false, none⟩
  new := ⟨new, new.length, 5, true, false, none⟩
  copyout := .remote
  request := .principal
  full := []
  queued := []
  saved := []
  later := []
  parked := []

theorem seventeenth_left_behind :
    ∃ s', Trace.run step (startWith ((List.range 17).map fun i => ⟨false, i⟩) [])
      ([.convert, .save, .block, .count] ++ (List.replicate 16 [.dequeue, .push]).flatten ++
        [.migrateState, .restore, .finish]) = some s' ∧
      s'.copyout = .returned ∧ s'.old.messages = [⟨false, 16⟩] ∧ s'.parked = [] :=
  ⟨_, rfl, rfl, rfl, rfl⟩

end Migration

end Osfmk

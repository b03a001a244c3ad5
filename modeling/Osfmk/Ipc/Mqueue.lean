import Osfmk.Lib.Trace

/-!
# Message queues and port sets

`ipc/ipc_mqueue.c` and `ipc/ipc_pset.c`: a port and a port set have a message queue each.  The
messages of a port that is in a set are in the queue of the set, together with those of the
other members, and they move when the port is put into a set or taken out of it.  A receiver
that finds no message waits in the queue, and is handed one later.
-/

open Function (update)

namespace Osfmk.Mqueue

variable {T P S K : Type}

/-- A port or a port set: what has a message queue. -/
inductive MqObject (P S : Type)
  | port (p : P)
  | pset (s : S)
  deriving DecidableEq

/-- A message; `msgh_remote_port` is its destination. -/
structure Kmsg (P K : Type) where
  msghRemotePort : P
  body : K
  deriving DecidableEq

/-- `ipc_mqueue_t`: the messages, and the threads that wait for one. -/
structure IpcMqueue (T P K : Type) where
  imqMessages : List (Kmsg P K)
  imqThreads : List T
  deriving DecidableEq

/-- `ith_state` of a thread that receives, with `ith_kmsg` and `ith_seqno`. -/
inductive IthState (P K : Type)
  | inProgress
  | inProgressTimed
  | success (kmsg : Kmsg P K) (seqno : ℕ)
  | portDied
  | portChanged
  deriving DecidableEq

/-- What the routines return. -/
inductive MqReturn
  | success
  | rcvTimedOut
  | rcvInterrupted
  | rcvPortDied
  | rcvPortChanged
  | rcvInSet
  | notInSet
  deriving DecidableEq

/-- Why a thread that was blocked runs again, other than by `thread_go`. -/
inductive MqWait
  | interrupted
  | timedOut
  deriving DecidableEq

/-- Where a thread is. -/
inductive MqPc (P S K : Type)
  /-- In none of the routines; its last call returned this. -/
  | idle (last : MqReturn)
  /-- In `ipc_mqueue_deliver`, with the queue locked and the port unlocked. -/
  | delivering (q : MqObject P S) (kmsg : Kmsg P K)
  /-- In `ipc_pset_move`, between `ipc_pset_remove` and `ipc_pset_add`. -/
  | moving (port : P) (oset nset : S)
  /-- In `ipc_mqueue_copyin`, with the object locked, before its queue is. -/
  | copiedIn (q : MqObject P S)
  | blocked (q : MqObject P S)
  deriving DecidableEq

/-- A message was given to a thread. -/
structure Receipt (T P K : Type) where
  thread : T
  kmsg : Kmsg P K
  seqno : ℕ
  deriving DecidableEq

/-- The message queues, ports, sets and threads. -/
structure MqWorld (T P S K : Type) where
  mqueue : MqObject P S → IpcMqueue T P K
  imqLock : MqObject P S → Option T
  ioLock : MqObject P S → Option T
  ipPset : P → Option S
  ipSeqno : P → ℕ
  ipsActive : S → Bool
  pc : T → MqPc P S K
  ithState : T → IthState P K
  delivered : List (Kmsg P K)
  taken : List (Receipt T P K)
  /-- The messages `ipc_mqueue_receive` has returned, in order. -/
  returned : List (Receipt T P K)

/-- New ports, in no set, and new sets. -/
def MqWorld.init (T P S K : Type) : MqWorld T P S K :=
  { mqueue := fun _ => ⟨[], []⟩, imqLock := fun _ => none, ioLock := fun _ => none
    ipPset := fun _ => none, ipSeqno := fun _ => 0, ipsActive := fun _ => true
    pc := fun _ => .idle .success, ithState := fun _ => .inProgress
    delivered := [], taken := [], returned := [] }

/-- The queue the messages of a port are put in. -/
def MqWorld.queueOf (w : MqWorld T P S K) (p : P) : MqObject P S :=
  match w.ipPset p with
  | none => .port p
  | some s => .pset s

variable [DecidableEq T] [DecidableEq P] [DecidableEq S] [DecidableEq K]

/-- Sets the messages of a queue. -/
def MqWorld.setMessages (w : MqWorld T P S K) (q : MqObject P S) (ms : List (Kmsg P K)) :
    MqWorld T P S K :=
  { w with mqueue := update w.mqueue q { w.mqueue q with imqMessages := ms } }

/-- Sets the receivers that wait in a queue. -/
def MqWorld.setThreads (w : MqWorld T P S K) (q : MqObject P S) (ths : List T) : MqWorld T P S K :=
  { w with mqueue := update w.mqueue q { w.mqueue q with imqThreads := ths } }

/-- A thread is given a message: it gets the next sequence number of the port. -/
def MqWorld.take (w : MqWorld T P S K) (t : T) (kmsg : Kmsg P K) : MqWorld T P S K :=
  let p := kmsg.msghRemotePort
  { w with
    ipSeqno := update w.ipSeqno p ((w.ipSeqno p + 1) % 2 ^ 32)
    taken := w.taken ++ [⟨t, kmsg, w.ipSeqno p⟩] }

/-- A message is handed to the first receiver that waits in a queue, or queued there. -/
def MqWorld.handOver (w : MqWorld T P S K) (q : MqObject P S) (kmsg : Kmsg P K) : MqWorld T P S K :=
  match (w.mqueue q).imqThreads with
  | [] => w.setMessages q ((w.mqueue q).imqMessages ++ [kmsg])
  | th :: ths =>
    { (w.setThreads q ths).take th kmsg with
      ithState :=
        update w.ithState th (.success kmsg (w.ipSeqno kmsg.msghRemotePort)) }

/-- The loop of `ipc_mqueue_move`, over the messages of the source from one on. -/
def moveLoop (dest source : MqObject P S) (port : P) :
    List (Kmsg P K) → MqWorld T P S K → MqWorld T P S K
  | [], w => w
  | kmsg :: next, w =>
    if kmsg.msghRemotePort ≠ port then moveLoop dest source port next w
    else
      let w := w.setMessages source ((w.mqueue source).imqMessages.erase kmsg)
      moveLoop dest source port next (w.handOver dest kmsg)

def ipcMqueueMove (w : MqWorld T P S K) (dest source : MqObject P S) (port : P) : MqWorld T P S K :=
  moveLoop dest source port (w.mqueue source).imqMessages w

/-- The loop of `ipc_mqueue_changed`. -/
def changedLoop (q : MqObject P S) (mr : IthState P K) : List T → MqWorld T P S K → MqWorld T P S K
  | [], w => w
  | th :: ths, w =>
    changedLoop q mr ths
      { w.setThreads q ths with ithState := update w.ithState th mr }

def ipcMqueueChanged (w : MqWorld T P S K) (q : MqObject P S) (mr : IthState P K) :
    MqWorld T P S K :=
  changedLoop q mr (w.mqueue q).imqThreads w

def ipcPsetAdd (w : MqWorld T P S K) (pset : S) (port : P) : MqWorld T P S K :=
  let w := { w with ipPset := update w.ipPset port (some pset) }
  let w := ipcMqueueMove w (.pset pset) (.port port) port
  ipcMqueueChanged w (.port port) .portChanged

def ipcPsetRemove (w : MqWorld T P S K) (pset : S) (port : P) : MqWorld T P S K :=
  let w := { w with ipPset := update w.ipPset port none }
  ipcMqueueMove w (.port port) (.pset pset) port

def ipcPsetDestroy (w : MqWorld T P S K) (pset : S) : MqWorld T P S K :=
  let w := { w with ipsActive := update w.ipsActive pset false }
  ipcMqueueChanged w (.pset pset) .portDied

/-- A thread goes on elsewhere. -/
def MqWorld.goto (w : MqWorld T P S K) (t : T) (pc : MqPc P S K) : MqWorld T P S K :=
  { w with pc := update w.pc t pc }

/-- Sets the lock of an object. -/
def MqWorld.setIoLock (w : MqWorld T P S K) (o : MqObject P S) (owner : Option T) :
    MqWorld T P S K :=
  { w with ioLock := update w.ioLock o owner }

/-- Sets the lock of a queue. -/
def MqWorld.setImqLock (w : MqWorld T P S K) (q : MqObject P S) (owner : Option T) :
    MqWorld T P S K :=
  { w with imqLock := update w.imqLock q owner }

/-- The loop of `ipc_mqueue_receive`, with the queue locked, up to where it returns or blocks;
no timeout is `none`. -/
def receiveLoop (w : MqWorld T P S K) (t : T) (q : MqObject P S) (timeout : Option ℕ) :
    MqWorld T P S K :=
  match (w.mqueue q).imqMessages with
  | kmsg :: rest =>
    let r : Receipt T P K := ⟨t, kmsg, w.ipSeqno kmsg.msghRemotePort⟩
    { ((w.setMessages q rest).take t kmsg).goto t (.idle .success) with
      returned := w.returned ++ [r] }
  | [] =>
    if timeout = some 0 then w.goto t (.idle .rcvTimedOut)
    else
      let state := if timeout.isSome then .inProgressTimed else .inProgress
      { (w.setThreads q ((w.mqueue q).imqThreads ++ [t])).goto t (.blocked q) with
        ithState := update w.ithState t state }

/-- `ipc_mqueue_receive` after `thread_block`, with the queue locked again. -/
def receiveWake (w : MqWorld T P S K) (t : T) (q : MqObject P S) (why : MqWait) :
    Option (MqWorld T P S K) :=
  match w.ithState t with
  | .success kmsg seqno =>
    some { w.goto t (.idle .success) with returned := w.returned ++ [⟨t, kmsg, seqno⟩] }
  | .portDied => some (w.goto t (.idle .rcvPortDied))
  | .portChanged => some (w.goto t (.idle .rcvPortChanged))
  | state =>
    let w := w.setThreads q ((w.mqueue q).imqThreads.erase t)
    match why with
    | .interrupted => some (w.goto t (.idle .rcvInterrupted))
    -- only a receive with a timeout has one that can expire
    | .timedOut => if state = .inProgressTimed then some (receiveLoop w t q (some 0)) else none

/-- The events. -/
inductive MqOp (T P S K : Type)
  /-- `ipc_mqueue_deliver`, up to where it unlocks the port, and the rest of it. -/
  | deliver (t : T) (kmsg : Kmsg P K)
  | deliverFinish (t : T)
  | psetAdd (t : T) (pset : S) (port : P)
  | psetRemove (t : T) (pset : S) (port : P)
  /-- `ipc_pset_move`, and its `ipc_pset_add` when the port comes from another set. -/
  | psetMove (t : T) (port : P) (nset : Option S)
  | psetMoveFinish (t : T)
  | psetDestroy (t : T) (pset : S)
  /-- `ipc_mqueue_copyin` for the object, and `ipc_mqueue_receive` for its queue. -/
  | copyin (t : T) (object : MqObject P S)
  | receive (t : T) (timeout : Option ℕ)
  | wake (t : T) (why : MqWait)

/-- The thread is in none of the routines. -/
def MqPc.isIdle : MqPc P S K → Bool
  | .idle _ => true
  | _ => false

/-- No thread has the object locked. -/
def MqWorld.ioFree (w : MqWorld T P S K) (o : MqObject P S) : Prop := w.ioLock o = none

/-- No thread has the queue locked. -/
def MqWorld.imqFree (w : MqWorld T P S K) (q : MqObject P S) : Prop := w.imqLock q = none

instance (w : MqWorld T P S K) (o : MqObject P S) : Decidable (w.ioFree o) :=
  inferInstanceAs (Decidable (w.ioLock o = none))

instance (w : MqWorld T P S K) (q : MqObject P S) : Decidable (w.imqFree q) :=
  inferInstanceAs (Decidable (w.imqLock q = none))

/-- `ipc_pset_move`, with the port and the sets locked. -/
def psetMoveStep (w : MqWorld T P S K) (t : T) (port : P) (nset : Option S) :
    Option (MqWorld T P S K) :=
  match w.ipPset port, nset with
  | none, none => some (w.goto t (.idle .notInSet))
  | none, some n =>
    if w.ioFree (.pset n) ∧ w.ipsActive n ∧ w.imqFree (.port port) ∧ w.imqFree (.pset n) then
      some ((ipcPsetAdd w n port).goto t (.idle .success))
    else none
  | some o, none =>
    if w.ioFree (.pset o) ∧ w.imqFree (.port port) ∧ w.imqFree (.pset o) then
      some ((ipcPsetRemove w o port).goto t (.idle (if w.ipsActive o then .success else .notInSet)))
    else none
  | some o, some n =>
    if o = n then some (w.goto t (.idle .success))
    else if w.ioFree (.pset o) ∧ w.ioFree (.pset n) ∧ w.ipsActive n ∧ w.imqFree (.port port) ∧
        w.imqFree (.pset o) then
      some (((((ipcPsetRemove w o port).setIoLock (.port port) (some t)).setIoLock
        (.pset o) (some t)).setIoLock (.pset n) (some t)).goto t (.moving port o n))
    else none

/-- `ipc_mqueue_copyin`, for an object a name of the space of the thread denotes. -/
def copyinStep (w : MqWorld T P S K) (t : T) (o : MqObject P S) : Option (MqWorld T P S K) :=
  match o with
  | .pset s =>
    if w.ipsActive s then some ((w.setIoLock o (some t)).goto t (.copiedIn o)) else none
  | .port p =>
    match w.ipPset p with
    | none => some ((w.setIoLock o (some t)).goto t (.copiedIn o))
    | some s =>
      if w.ioFree (.pset s) then
        if w.ipsActive s then some (w.goto t (.idle .rcvInSet))
        -- the set is dead, and the port leaves it now
        else if w.imqFree (.port p) ∧ w.imqFree (.pset s) then
          some (((ipcPsetRemove w s p).setIoLock o (some t)).goto t (.copiedIn o))
        else none
      else none

/-- One event; `none` when it cannot happen, or has to wait. -/
def mqStep (w : MqWorld T P S K) : MqOp T P S K → Option (MqWorld T P S K)
  | .deliver t kmsg =>
    let q := w.queueOf kmsg.msghRemotePort
    if (w.pc t).isIdle ∧ w.ioFree (.port kmsg.msghRemotePort) ∧ w.imqFree q then
      some ((w.setImqLock q (some t)).goto t (.delivering q kmsg))
    else none
  | .deliverFinish t =>
    match w.pc t with
    | .delivering q kmsg =>
      some { ((w.handOver q kmsg).setImqLock q none).goto t (.idle .success) with
        delivered := w.delivered ++ [kmsg] }
    | _ => none
  | .psetAdd t s p =>
    if (w.pc t).isIdle ∧ w.ioFree (.port p) ∧ w.ioFree (.pset s) ∧ w.ipsActive s ∧
        w.ipPset p = none ∧ w.imqFree (.port p) ∧ w.imqFree (.pset s) then
      some ((ipcPsetAdd w s p).goto t (.idle .success))
    else none
  | .psetRemove t s p =>
    if (w.pc t).isIdle ∧ w.ioFree (.port p) ∧ w.ioFree (.pset s) ∧ w.ipPset p = some s ∧
        w.imqFree (.port p) ∧ w.imqFree (.pset s) then
      some ((ipcPsetRemove w s p).goto t (.idle .success))
    else none
  | .psetMove t p nset =>
    if (w.pc t).isIdle ∧ w.ioFree (.port p) then psetMoveStep w t p nset else none
  | .psetMoveFinish t =>
    match w.pc t with
    | .moving p o n =>
      if w.imqFree (.port p) ∧ w.imqFree (.pset n) then
        some (((((ipcPsetAdd w n p).setIoLock (.port p) none).setIoLock (.pset o) none).setIoLock
          (.pset n) none).goto t (.idle .success))
      else none
    | _ => none
  | .psetDestroy t s =>
    if (w.pc t).isIdle ∧ w.ioFree (.pset s) ∧ w.ipsActive s ∧ w.imqFree (.pset s) then
      some ((ipcPsetDestroy w s).goto t (.idle .success))
    else none
  | .copyin t o => if (w.pc t).isIdle ∧ w.ioFree o then copyinStep w t o else none
  | .receive t timeout =>
    match w.pc t with
    | .copiedIn q =>
      if w.imqFree q then some (receiveLoop (w.setIoLock q none) t q timeout) else none
    | _ => none
  | .wake t why =>
    match w.pc t with
    | .blocked q => if w.imqFree q then receiveWake w t q why else none
    | _ => none

/-- A run from new ports and sets. -/
def mqRun (ops : List (MqOp T P S K)) : Option (MqWorld T P S K) :=
  Trace.run mqStep (MqWorld.init T P S K) ops

end Osfmk.Mqueue

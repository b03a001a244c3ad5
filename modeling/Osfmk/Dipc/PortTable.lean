import Osfmk.Lib.Trace
import Osfmk.Lib.Census

/-!
# The port name table of DIPC

A port that other nodes know has a UID and stands in the port name table of its node, where the
interrupt level finds it.  Two counts keep it: `ip_references`, under the port's lock, and the
`dip_ref_count` of its DIPC extension, under the lock of the table.  Whoever drops the last reference
unlocks the port and then calls `io_free`, which locks it again.
-/

open Function (update)

namespace Osfmk

def nodeNameNull : UInt32 := 0xFFFFFFFF

def nodeNameLocal : UInt32 := 0xFFFFFFFE

def portIdNull : UInt32 := 0xFFFFFFFF

/-- `uid_t`. -/
structure Uid where
  origin : UInt32
  identifier : UInt32
  deriving DecidableEq

namespace Uid

/-- The UID of an extension that has none yet. -/
def unassigned : Uid := ⟨nodeNameNull, portIdNull⟩

/-- A port with this identifier is entered in the table. -/
def Named (uid : Uid) : Prop := uid.identifier ≠ portIdNull

instance (uid : Uid) : Decidable uid.Named := inferInstanceAs (Decidable (_ ≠ _))

/-- `DIPC_UID_VALID`, with `dipc_node_is_valid`; `kktNodeIsValid` is machine-dependent. -/
def valid (kktNodeIsValid : UInt32 → Bool) (uid : Uid) : Bool :=
  (uid.origin = nodeNameLocal || kktNodeIsValid uid.origin) && decide uid.Named

/-- `DIPC_UID_HASH`. -/
def hash (uid : Uid) : UInt32 := (uid.origin + uid.identifier) &&& 1023

end Uid

/-- `dipc_port`, the extension of a port. -/
structure DipcPort where
  uid : Uid
  refCount : ℕ

/-- `ipc_port`. -/
structure NamedPort where
  references : ℕ
  active : Bool
  dipc : Option DipcPort

namespace NamedPort

/-- The UID in the extension. -/
def uid (x : NamedPort) : Option Uid := x.dipc.map DipcPort.uid

/-- `dip_ref_count`. -/
def refCount (x : NamedPort) : ℕ := x.dipc.elim 0 DipcPort.refCount

/-- A new port: its creator has the reference. -/
def new : NamedPort := ⟨1, true, none⟩

end NamedPort

/-- The ports that are allocated, the buckets of the name table and `dipc_uid_identifier`. -/
structure PortTable (A : Type) where
  ports : A → Option NamedPort
  bucket : UInt32 → List A
  identifier : UInt32

namespace PortTable

variable {A : Type} [DecidableEq A]

/-- Writes a port. -/
def set (t : PortTable A) (a : A) (x : NamedPort) : PortTable A :=
  { t with ports := update t.ports a (some x) }

/-- The UID of the port at an address. -/
def uidAt (t : PortTable A) (a : A) : Option Uid := (t.ports a).bind NamedPort.uid

/-- The walk along a bucket. -/
def walk (t : PortTable A) (uid : Uid) : List A → Option (Option A)
  | [] => some none
  | p :: l => (t.uidAt p).bind fun u => if u = uid then some (some p) else walk t uid l

def dipcUidPeek (t : PortTable A) (uid : Uid) : Option (Option A) := t.walk uid (t.bucket uid.hash)

/-- `PORT_NAME_TABLE_ENTER`. -/
def enter (t : PortTable A) (a : A) (uid : Uid) : PortTable A :=
  { t with bucket := update t.bucket uid.hash (a :: t.bucket uid.hash) }

/-- `dipc_uid_allocate`: the next identifier, without a look at those in use. -/
def dipcUidAllocate (self : UInt32) (t : PortTable A) (a : A) : Option (PortTable A) :=
  (t.ports a).map fun x =>
    let uid : Uid := ⟨self, t.identifier + 1⟩
    { (t.enter a uid).set a { x with dipc := some ⟨uid, 0⟩ } with identifier := t.identifier + 1 }

/-- `dipc_uid_install`; false for `DIPC_DUPLICATE`. -/
def dipcUidInstall (t : PortTable A) (a : A) (uid : Uid) : Option (PortTable A × Bool) :=
  (t.ports a).bind fun x => x.dipc.bind fun d =>
    if d.uid.identifier ≠ portIdNull then some (t, false)
    else
      (t.dipcUidPeek uid).map fun found =>
        if found.isSome then (t, false)
        else ((t.enter a uid).set a { x with dipc := some { d with uid := uid } }, true)

/-- `dipc_uid_lookup`, and `dipc_uid_lookup_fast`: takes a DIPC reference. -/
def dipcUidLookup (t : PortTable A) (uid : Uid) : Option (PortTable A × Option A) :=
  (t.dipcUidPeek uid).bind fun found =>
    match found with
    | none => some (t, none)
    | some a =>
      (t.ports a).bind fun x => x.dipc.map fun d =>
        (t.set a { x with dipc := some { d with refCount := d.refCount + 1 } }, some a)

/-- `dipc_uid_port_reference`: a reference instead of the DIPC reference. -/
def dipcUidPortReference (t : PortTable A) (a : A) : Option (PortTable A) :=
  (t.ports a).bind fun x => x.dipc.map fun d =>
    t.set a
      { x with references := x.references + 1, dipc := some { d with refCount := d.refCount - 1 } }

/-- Takes the first port with a UID from a bucket. -/
def unlink (t : PortTable A) (uid : Uid) : List A → Option (List A)
  | [] => some []
  | p :: l =>
    (t.uidAt p).bind fun u => if u = uid then some l else (unlink t uid l).map fun l => p :: l

/-- `dipc_uid_remove`; false for `DIPC_IN_USE`. -/
def dipcUidRemove (t : PortTable A) (a : A) : Option (PortTable A × Bool) :=
  (t.ports a).bind fun x => x.dipc.bind fun d =>
    if d.refCount > 0 then some (t, false)
    else
      (t.unlink d.uid (t.bucket d.uid.hash)).map fun l =>
        ({ t with bucket := update t.bucket d.uid.hash l }, true)

/-- `dipc_port_free`, until it unlocks the port; false for `DIPC_IN_USE`. -/
def dipcPortFree (t : PortTable A) (a : A) : Option (PortTable A × Bool) :=
  (t.dipcUidRemove a).bind fun m =>
    if m.2 then
      (m.1.ports a).map fun x =>
        if x.references ≠ 0 then (m.1, false) else (m.1.set a { x with active := false }, true)
    else some m

/-- `io_free` of a port, until it unlocks it; true if the port is to be returned to its zone. -/
def ioFree (t : PortTable A) (a : A) : Option (PortTable A × Bool) :=
  (t.ports a).bind fun x =>
    if x.references ≠ 0 then some (t, false)
    else if x.dipc.isSome then t.dipcPortFree a
    else some (t, true)

def zfree (t : PortTable A) (a : A) : Option (PortTable A) :=
  (t.ports a).map fun _ => { t with ports := update t.ports a none }

def ipReference (t : PortTable A) (a : A) : Option (PortTable A) :=
  (t.ports a).map fun x => t.set a { x with references := x.references + 1 }

/-- `ip_release` and `io_check_unlock`, until it unlocks the port; true if it will call `io_free`. -/
def ipRelease (t : PortTable A) (a : A) : Option (PortTable A × Bool) :=
  (t.ports a).map fun x =>
    (t.set a { x with references := x.references - 1 }, decide (x.references - 1 = 0))

/-- The second half of `dipc_port_init(port, TRUE)`, under the port's lock. -/
def dipcPortInit (self : UInt32) (t : PortTable A) (a : A) : Option (PortTable A) :=
  (t.ports a).bind fun x => if x.dipc.isSome then some t else t.dipcUidAllocate self a

/-- `ipc_port_alloc_special` and `dipc_port_init(port, FALSE)`, in `dipc_port_copyout`. -/
def allocProxy (t : PortTable A) (a : A) : PortTable A :=
  t.set a { NamedPort.new with dipc := some ⟨Uid.unassigned, 0⟩ }

/-- `dipc_port_copyout` after `dipc_uid_install`. -/
def installed (a : A) (m : PortTable A × Bool) : Option (PortTable A × Bool) :=
  if m.2 then some m
  else
    (m.1.ports a).bind fun x =>
      ((m.1.set a { x with dipc := none }).ioFree a).bind fun k =>
        if k.2 then (k.1.zfree a).map fun t => (t, false) else some (k.1, false)

end PortTable

/-- Where a thread is; what holds a reference for longer, a right or a message, counts as one. -/
inductive PortPc (A : Type)
  | idle
  | looked (a : A)
  | holding (a : A)
  /-- It has a reference, and `dipc_port_init` has seen that the port is not known to DIPC. -/
  | initing (a : A)
  | missed (uid : Uid)
  /-- `dipc_port_copyout` has made a port for the UID, which is not in the table yet. -/
  | created (a : A) (uid : Uid)
  /-- It has dropped the last reference, and will call `io_free`. -/
  | dying (a : A)
  | torn (a : A)
  deriving DecidableEq

namespace PortPc

variable {A : Type}

/-- The port that the thread has a reference to. -/
def holds : PortPc A → Option A
  | .holding a | .initing a | .created a _ => some a
  | _ => none

/-- The port that the thread has a DIPC reference to. -/
def looks : PortPc A → Option A
  | .looked a => some a
  | _ => none

/-- The port that the thread is about to free. -/
def frees : PortPc A → Option A
  | .dying a | .torn a => some a
  | _ => none

/-- The port that the thread will go on with. -/
def target : PortPc A → Option A
  | .idle | .missed _ => none
  | .looked a | .holding a | .initing a | .created a _ | .dying a | .torn a => some a

end PortPc

/-- A node: `dipc_node_self`, the ports and the threads. -/
structure DipcNode (P A : Type) where
  self : UInt32
  kktNodeIsValid : UInt32 → Bool
  table : PortTable A
  pc : P → PortPc A
  fault : Bool

namespace DipcNode

variable {P A : Type} [DecidableEq P] [DecidableEq A]

/-- What a thread can do from one lock to the next. -/
inductive Act (P A : Type)
  | alloc (p : P) (a : A)
  | reference (p q : P)
  | init (p : P)
  | initLocked (p : P)
  | lookup (p : P) (uid : Uid)
  | copyout (p : P) (uid : Uid)
  | create (p : P) (a : A)
  | install (p : P)
  | portReference (p : P)
  | release (p : P)
  | ioFree (p : P)
  | zfree (p : P)

/-- The turn of a thread, if it is its turn. -/
def turn (s : DipcNode P A) : Act P A → Option (P × Option (PortTable A × PortPc A))
  | .alloc p a =>
    if s.pc p = .idle ∧ (s.table.ports a).isNone then
      some (p, some (s.table.set a NamedPort.new, .holding a))
    else none
  | .reference p q =>
    match s.pc p with
    | .holding a =>
      if s.pc q = .idle then some (q, (s.table.ipReference a).map fun t => (t, .holding a))
      else none
    | _ => none
  | .init p =>
    match s.pc p with
    | .holding a =>
      some (p, (s.table.ports a).map fun x =>
        (s.table, if x.dipc.isSome then .holding a else .initing a))
    | _ => none
  | .initLocked p =>
    match s.pc p with
    | .initing a => some (p, (s.table.dipcPortInit s.self a).map fun t => (t, .holding a))
    | _ => none
  | .lookup p uid =>
    if s.pc p = .idle ∧ uid.valid s.kktNodeIsValid then
      some (p, (s.table.dipcUidLookup uid).map fun m => (m.1, m.2.elim .idle .looked))
    else none
  | .copyout p uid =>
    if s.pc p = .idle ∧ uid.valid s.kktNodeIsValid then
      some (p, (s.table.dipcUidLookup uid).map fun m => (m.1, m.2.elim (.missed uid) .looked))
    else none
  | .create p a =>
    match s.pc p with
    | .missed uid =>
      if (s.table.ports a).isNone then some (p, some (s.table.allocProxy a, .created a uid))
      else none
    | _ => none
  | .install p =>
    match s.pc p with
    | .created a uid =>
      -- a thread that has lost the race looks the UID up again
      some (p, ((s.table.dipcUidInstall a uid).bind (PortTable.installed a)).map fun m =>
        (m.1, if m.2 then .holding a else .idle))
    | _ => none
  | .portReference p =>
    match s.pc p with
    | .looked a => some (p, (s.table.dipcUidPortReference a).map fun t => (t, .holding a))
    | _ => none
  | .release p =>
    match s.pc p with
    | .holding a =>
      some (p, (s.table.ipRelease a).map fun m => (m.1, if m.2 then .dying a else .idle))
    | _ => none
  | .ioFree p =>
    match s.pc p with
    | .dying a => some (p, (s.table.ioFree a).map fun m => (m.1, if m.2 then .torn a else .idle))
    | _ => none
  | .zfree p =>
    match s.pc p with
    | .torn a => some (p, (s.table.zfree a).map fun t => (t, .idle))
    | _ => none

/-- The state after a turn. -/
def after (s : DipcNode P A) (p : P) : Option (PortTable A × PortPc A) → DipcNode P A
  | none => { s with fault := true }
  | some m => { s with table := m.1, pc := update s.pc p m.2 }

/-- A step; there is none after a fault. -/
def step (s : DipcNode P A) (act : Act P A) : Option (DipcNode P A) :=
  if s.fault then none else (s.turn act).map fun m => s.after m.1 m.2

/-- `dipc_port_name_table_init`: no ports, and the first identifiers reserved. -/
structure Initial (s : DipcNode P A) : Prop where
  safe : s.fault = false
  pc : ∀ p, s.pc p = .idle
  ports : ∀ a, s.table.ports a = none
  bucket : ∀ h, s.table.bucket h = []
  identifier : s.table.identifier = 140

end DipcNode

end Osfmk

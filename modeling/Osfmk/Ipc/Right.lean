import Osfmk.Ipc.Port

/-!
# Copying capabilities in

The copyin of `ipc/ipc_right.c`, and the routines of `ipc/ipc_object.c` for messages.  A routine is given
the name of a capability and a pointer to its entry; it runs with the space write-locked and
the port locked, so that nothing else happens to the two in between.
-/

namespace Osfmk

def machPortUrefsMax : ℕ := 2 ^ 16 - 1

namespace MachPortType

/-- `type &~ MACH_PORT_TYPE_SEND`. -/
def clearSend : MachPortType → MachPortType
  | send => none
  | sendReceive => receive
  | type => type

/-- `type &~ MACH_PORT_TYPE_RECEIVE`. -/
def clearReceive : MachPortType → MachPortType
  | receive => none
  | sendReceive => send
  | type => type

end MachPortType

/-- Convert an entry whose port has died to a dead name; a dead-name request becomes a user
reference, for its notification. -/
def IpcEntry.toDeadName (e : IpcEntry) : IpcEntry where
  ieBits := { e.ieBits with
    type := .deadName, urefs := e.ieBits.urefs + if e.ieRequest = 0 then 0 else 1 }
  ieObject := .null
  ieRequest := 0

/-- The port an object pointer points at. -/
def IpcObject.toPort : IpcObject → Except Trap ℕ
  | .port p => .ok p
  | _ => .error .fault

/-- `IO_VALID`. -/
def IpcObject.valid : IpcObject → Bool
  | .null | .dead => false
  | _ => true

variable {ι : Type} [DecidableEq ι]

namespace IpcWorld

/-- Run a routine on one space. -/
def updSpace (w : IpcWorld ι) (i : ι) (f : IpcSpace → IpcSpace) : IpcWorld ι :=
  { w with spaces := Function.update w.spaces i (f (w.spaces i)) }

/-- Read through an entry pointer. -/
def deref (w : IpcWorld ι) (i : ι) (entry : IpcEntryRef) : Except Trap IpcEntry :=
  match (w.spaces i).findEntry entry with
  | some e => .ok e
  | none => .error .fault

/-- Write through an entry pointer. -/
def updEntry (w : IpcWorld ι) (i : ι) (entry : IpcEntryRef) (f : IpcEntry → IpcEntry) :
    IpcWorld ι :=
  w.updSpace i fun s => s.modifyEntry f entry

/-- `ipc_hash_insert`. -/
def hashInsert (w : IpcWorld ι) (i : ι) (name : ℕ) (entry : IpcEntryRef) : IpcWorld ι :=
  w.updSpace i fun s => ipcHashInsert s name entry

/-- `ipc_hash_delete`. -/
def hashDelete (w : IpcWorld ι) (i : ι) (name : ℕ) (entry : IpcEntryRef) : IpcWorld ι :=
  w.updSpace i fun s => ipcHashDelete s name entry

/-- `ipc_entry_dealloc`. -/
def entryDealloc (K : IpcTables) (w : IpcWorld ι) (i : ι) (name : ℕ) (entry : IpcEntryRef) :
    IpcWorld ι :=
  w.updSpace i fun s => ipcEntryDealloc K.entries s name entry

/-- `ipc_entry_lookup`. -/
def entryLookup (w : IpcWorld ι) (i : ι) (name : ℕ) : Option IpcEntryRef × IpcWorld ι :=
  ((ipcEntryLookup (w.spaces i) name).1,
    { w with spaces := Function.update w.spaces i (ipcEntryLookup (w.spaces i) name).2 })

/-- `if (IE_BITS_TYPE(entry->ie_bits) == MACH_PORT_TYPE_NONE) ipc_entry_dealloc(...)`. -/
def deallocDefunct (K : IpcTables) (w : IpcWorld ι) (i : ι) (name : ℕ) (entry : IpcEntryRef) :
    Except Trap (IpcWorld ι) := do
  let e ← w.deref i entry
  return if e.ieBits.type = .none then w.entryDealloc K i name entry else w

end IpcWorld

def ipcRightLookupWrite (w : IpcWorld ι) (i : ι) (name : ℕ) :
    Except KernReturn IpcEntryRef × IpcWorld ι :=
  if (w.spaces i).isActive = false then (.error .invalidTask, w)
  else
    match w.entryLookup i name with
    | (none, w) => (.error .invalidName, w)
    | (some entry, w) => (.ok entry, w)

/-- `ipc_right_check`: when the port has died, clean up the entry and return true. -/
def ipcRightCheck (w : IpcWorld ι) (i : ι) (port name : ℕ) (entry : IpcEntryRef) :
    Except Trap (Bool × IpcWorld ι) := do
  if (w.ports port).ipActive then return (false, w)
  else
    let e ← w.deref i entry
    let w := if e.ieBits.type.hasSend then w.hashDelete i name entry else w
    return (true, w.updEntry i entry IpcEntry.toDeadName)

/-- `ipc_right_dncancel_macro`: the send-once right of the dead-name request, if there is
one. -/
def ipcRightDncancel (w : IpcWorld ι) (i : ι) (port : ℕ) (entry : IpcEntryRef) :
    Except Trap (Option ℕ × IpcWorld ι) := do
  let e ← w.deref i entry
  if e.ieRequest = 0 then return (none, w)
  else
    let (dnrequest, w) := ipcPortDncancel w port e.ieRequest
    return (dnrequest, w.updEntry i entry fun e => { e with ieRequest := 0 })

/-- What `ipc_right_copyin` returns: the code, `*objectp`, `*sorightp` and the new state. -/
structure Copyin (ι : Type) where
  kr : KernReturn
  object : IpcObject
  soright : Option ℕ
  world : IpcWorld ι

/-- The `invalid_right` label: the out parameters are not set. -/
def Copyin.invalidRight (w : IpcWorld ι) : Copyin ι := ⟨.invalidRight, .null, none, w⟩

/-- The `copy_dead` label. -/
def copyDead (w : IpcWorld ι) (deadok : Bool) : Copyin ι :=
  if deadok then ⟨.success, .dead, none, w⟩ else .invalidRight w

/-- The `move_dead` label. -/
def moveDead (w : IpcWorld ι) (i : ι) (entry : IpcEntryRef) (deadok : Bool) : Copyin ι :=
  if deadok = false then .invalidRight w
  else
    ⟨.success, .dead, none, w.updEntry i entry fun e => { e with
      ieBits :=
        if e.ieBits.urefs = 1 then { e.ieBits with type := .none }
        else { e.ieBits with urefs := e.ieBits.urefs - 1 } }⟩

def ipcRightCopyin (w : IpcWorld ι) (i : ι) (name : ℕ) (entry : IpcEntryRef)
    (msgtName : MachMsgTypeName) (deadok : Bool) : Except Trap (Copyin ι) := do
  let e ← w.deref i entry
  let bits := e.ieBits
  match msgtName with
  | .makeSend =>
    if bits.type.hasReceive = false then return .invalidRight w
    else
      let port ← e.ieObject.toPort
      let w := w.updPort port fun p => { p with
        ipMscount := (p.ipMscount + 1) % 2 ^ 32, ipSrights := p.ipSrights + 1 }
      return ⟨.success, .port port, none, w.bareSend port 1⟩
  | .makeSendOnce =>
    if bits.type.hasReceive = false then return .invalidRight w
    else
      let port ← e.ieObject.toPort
      let w := w.updPort port fun p => { p with ipSorights := p.ipSorights + 1 }
      return ⟨.success, .port port, none, w.bareSonce port⟩
  | .moveReceive =>
    if bits.type.hasReceive = false then return .invalidRight w
    else
      let port ← e.ieObject.toPort
      let (dnrequest, w) ←
        if bits.type.hasSend then pure (none, w.hashInsert i name entry)
        else
          let (dnrequest, w) ← ipcRightDncancel w i port entry
          pure (dnrequest, w.updEntry i entry fun e => { e with ieObject := .null })
      let w := w.updEntry i entry fun e =>
        { e with ieBits := { bits with type := bits.type.clearReceive } }
      let w := (ipcPortClearReceiver w port).updPort port fun p =>
        { p with ipReceiverName := machPortNull, data := .destination none }
      return ⟨.success, .port port, dnrequest, w⟩
  | .copySend =>
    if bits.type = .deadName then return copyDead w deadok
    else if bits.type.hasSendRights = false then return .invalidRight w
    else
      let port ← e.ieObject.toPort
      match ← ipcRightCheck w i port name entry with
      | (true, w) => return copyDead w deadok
      | (false, w) =>
        if bits.type.hasSend = false then return .invalidRight w
        else
          let w := w.updPort port fun p => { p with ipSrights := p.ipSrights + 1 }
          return ⟨.success, .port port, none, w.bareSend port 1⟩
  | .moveSend =>
    if bits.type = .deadName then return moveDead w i entry deadok
    else if bits.type.hasSendRights = false then return .invalidRight w
    else
      let port ← e.ieObject.toPort
      match ← ipcRightCheck w i port name entry with
      | (true, w) => return moveDead w i entry deadok
      | (false, w) =>
        if bits.type.hasSend = false then return .invalidRight w
        else if bits.urefs = 1 then
          let (dnrequest, w) ←
            if bits.type.hasReceive then pure (none, w)
            else
              let (dnrequest, w) ← ipcRightDncancel w i port entry
              let w := w.hashDelete i name entry
              pure (dnrequest, w.updEntry i entry fun e => { e with ieObject := .null })
          let w := w.updEntry i entry fun e =>
            { e with ieBits := { bits with type := bits.type.clearSend, urefs := 0 } }
          return ⟨.success, .port port, dnrequest, w.bareSend port 1⟩
        else
          let w := w.updPort port fun p => { p with ipSrights := p.ipSrights + 1 }
          let w := w.updEntry i entry fun e =>
            { e with ieBits := { bits with urefs := bits.urefs - 1 } }
          return ⟨.success, .port port, none, w.bareSend port 1⟩
  | .moveSendOnce =>
    if bits.type = .deadName then return moveDead w i entry deadok
    else if bits.type.hasSendRights = false then return .invalidRight w
    else
      let port ← e.ieObject.toPort
      match ← ipcRightCheck w i port name entry with
      | (true, w) => return moveDead w i entry deadok
      | (false, w) =>
        if bits.type ≠ .sendOnce then return .invalidRight w
        else
          let (dnrequest, w) ← ipcRightDncancel w i port entry
          let w := w.updEntry i entry fun e =>
            { e with ieObject := .null, ieBits := { bits with type := .none } }
          return ⟨.success, .port port, dnrequest, w.bareSonce port⟩
  | .other _ => .error .panic

/-- `ipc_object_copyin_type`: the right that a copyin results in. -/
def ipcObjectCopyinType : MachMsgTypeName → Except Trap MachMsgTypeName
  | .other 0 => .ok (.other 0)
  | .moveReceive => .ok .moveReceive
  | .moveSendOnce | .makeSendOnce => .ok .moveSendOnce
  | .moveSend | .makeSend | .copySend => .ok .moveSend
  | .other _ => .error .panic

/-- The copyin of the capability under a name: `ipc_right_copyin`, after which a defunct entry
is deallocated and the port-deleted notification sent. -/
def copyinName (K : IpcTables) (w : IpcWorld ι) (i : ι) (name : ℕ) (msgtName : MachMsgTypeName)
    (deadok : Bool) : Except Trap (KernReturn × IpcObject × IpcWorld ι) := do
  match ipcRightLookupWrite w i name with
  | (.error kr, w) => return (kr, .null, w)
  | (.ok entry, w) =>
    let r ← ipcRightCopyin w i name entry msgtName deadok
    let w ← r.world.deallocDefunct K i name entry
    return (r.kr, r.object, ipcNotifyPortDeleted w name r.soright)

def ipcObjectCopyin (K : IpcTables) (w : IpcWorld ι) (i : ι) (name : ℕ)
    (msgtName : MachMsgTypeName) : Except Trap (KernReturn × IpcObject × IpcWorld ι) :=
  copyinName K w i name msgtName true

def ipcObjectDestroy (K : IpcTables) (w : IpcWorld ι) (object : IpcObject)
    (msgtName : MachMsgTypeName) : Except Trap (IpcWorld ι) :=
  match msgtName with
  | .moveSend => do return ipcPortReleaseSend w (← object.toPort)
  | .moveSendOnce => do return ipcNotifySendOnce w (← object.toPort)
  | .moveReceive => do return ipcPortReleaseReceive K w (← object.toPort)
  | _ => .error .panic

end Osfmk

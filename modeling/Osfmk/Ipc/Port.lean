import Osfmk.Ipc.SpaceRun

/-!
# Ports and the state of the IPC system

`ipc/ipc_port.c`, `ipc/ipc_notify.c` and the parts of `mach/message.h` that name rights:
a port counts the send and send-once rights for it, wherever they are, and can hold
send-once rights of other ports in requests for notifications.
-/

open Function (update)

namespace Osfmk

/-- How a call can end other than by returning. -/
inductive Trap
  | panic
  /-- An access through `IO_NULL`, `IO_DEAD` or a pointer to a freed entry. -/
  | fault
  deriving DecidableEq

/-- `mach_msg_type_name_t`: the right a message carries, or how to obtain it. -/
inductive MachMsgTypeName
  /-- `MACH_MSG_TYPE_MOVE_RECEIVE`, and `MACH_MSG_TYPE_PORT_RECEIVE`. -/
  | moveReceive
  /-- `MACH_MSG_TYPE_MOVE_SEND`, and `MACH_MSG_TYPE_PORT_SEND`. -/
  | moveSend
  /-- `MACH_MSG_TYPE_MOVE_SEND_ONCE`, and `MACH_MSG_TYPE_PORT_SEND_ONCE`. -/
  | moveSendOnce
  | copySend
  | makeSend
  | makeSendOnce
  | other (n : ℕ)
  deriving DecidableEq

/-- A notification message; `notify` is the send-once right it was sent to. -/
inductive Notification
  | portDeleted (notify name : ℕ)
  | portDestroyed (notify port : ℕ)
  /-- The message does not say which `port` has no senders. -/
  | noSenders (port notify mscount : ℕ)
  | sendOnce (notify : ℕ)
  | deadName (notify name : ℕ)
  deriving DecidableEq

/-- The union `data` of a port. -/
inductive IpData (ι : Type)
  | receiver (space : ι)
  | destination (dest : Option ℕ)
  | timestamp (t : ℕ)
  deriving DecidableEq

/-- `struct ipc_port_request`: an element of a table of dead-name requests. -/
structure IpcPortRequest where
  iprName : ℕ
  iprSoright : Option ℕ
  iprNext : ℕ
  deriving DecidableEq, Inhabited

/-- `ip_dnrequests`: a table whose element 0 has the head of its free list and its size, as
an index into `ipc_table_dnrequests`; `none` is `IPR_NULL`. -/
structure DnTable where
  iprSize : Option ℕ
  iprNext : ℕ
  request : ℕ → IpcPortRequest

/-- `IPR_NULL`. -/
def DnTable.null : DnTable := ⟨none, 0, fun _ => ⟨0, none, 0⟩⟩

/-- `struct ipc_port`. -/
structure IpcPort (ι : Type) where
  ipActive : Bool
  ipReceiverName : ℕ
  data : IpData ι
  ipMscount : ℕ
  ipSrights : ℕ
  ipSorights : ℕ
  ipNsrequest : Option ℕ
  ipPdrequest : Option ℕ
  ipDnrequests : DnTable

/-- Memory that is no port yet. -/
def IpcPort.blank {ι : Type} : IpcPort ι where
  ipActive := false
  ipReceiverName := machPortNull
  data := .destination none
  ipMscount := 0
  ipSrights := 0
  ipSorights := 0
  ipNsrequest := none
  ipPdrequest := none
  ipDnrequests := .null

/-- `struct ipc_pset`, as far as its entry is concerned. -/
structure IpcPset where
  ipsActive : Bool
  ipsLocalName : ℕ
  deriving DecidableEq

/-- The spaces, the ports and the rest of the state of the IPC system. -/
structure IpcWorld (ι : Type) where
  spaces : ι → IpcSpace
  ports : ℕ → IpcPort ι
  psets : ℕ → IpcPset
  nextObject : ℕ
  timestampData : ℕ
  notifications : List Notification
  mem : List Bool
  nakedSend : ℕ → ℕ
  nakedSonce : ℕ → ℕ

/-- The two arrays of table sizes `ipc_table_init` fills; that for dead-name requests ends
with a size of 0. -/
structure IpcTables where
  entries : TableSizes
  dnrequests : ℕ → ℕ

/-- `sizeof(struct ipc_port_request)`. -/
def sizeofIpcPortRequest : ℕ := 8

/-- The arrays as `ipc_table_init` leaves them. -/
def ipcTables : IpcTables where
  entries := ipcTableEntries
  dnrequests index := (ipcTableFill 63 2 sizeofIpcPortRequest ++ [0]).getD index 0

variable {ι : Type}

namespace IpcWorld

/-- Write to a port. -/
def updPort (w : IpcWorld ι) (p : ℕ) (f : IpcPort ι → IpcPort ι) : IpcWorld ι :=
  { w with ports := update w.ports p (f (w.ports p)) }

/-- Send a notification. -/
def notify (w : IpcWorld ι) (n : Notification) : IpcWorld ι :=
  { w with notifications := w.notifications ++ [n] }

/-- `n` more send rights for `p` are naked. -/
def bareSend (w : IpcWorld ι) (p n : ℕ) : IpcWorld ι :=
  { w with nakedSend := update w.nakedSend p (w.nakedSend p + n) }

/-- A naked send right for `p` is put into an entry or released. -/
def clotheSend (w : IpcWorld ι) (p : ℕ) : IpcWorld ι :=
  { w with nakedSend := update w.nakedSend p (w.nakedSend p - 1) }

/-- One more send-once right for `p` is naked. -/
def bareSonce (w : IpcWorld ι) (p : ℕ) : IpcWorld ι :=
  { w with nakedSonce := update w.nakedSonce p (w.nakedSonce p + 1) }

/-- A naked send-once right for `p` is put into an entry or released. -/
def clotheSonce (w : IpcWorld ι) (p : ℕ) : IpcWorld ι :=
  { w with nakedSonce := update w.nakedSonce p (w.nakedSonce p - 1) }

end IpcWorld

/-- `if (--port->ip_srights == 0)`, and then the no-senders request is taken from the port,
with the make-send count to report. -/
def ipcPortDropSright (w : IpcWorld ι) (p : ℕ) : Option (ℕ × ℕ) × IpcWorld ι :=
  let w := w.updPort p fun port => { port with ipSrights := port.ipSrights - 1 }
  if (w.ports p).ipSrights = 0 then
    match (w.ports p).ipNsrequest with
    | none => (none, w)
    | some nsrequest =>
      (some (nsrequest, (w.ports p).ipMscount),
        w.updPort p fun port => { port with ipNsrequest := none })
  else (none, w)

/-- `ipc_notify_no_senders`, if there was a request. -/
def ipcNotifyNoSenders (w : IpcWorld ι) (p : ℕ) : Option (ℕ × ℕ) → IpcWorld ι
  | none => w
  | some (nsrequest, mscount) => w.notify (.noSenders p nsrequest mscount)

/-- `ipc_notify_port_deleted`, if there was a request. -/
def ipcNotifyPortDeleted (w : IpcWorld ι) (name : ℕ) : Option ℕ → IpcWorld ι
  | none => w
  | some dnrequest => w.notify (.portDeleted dnrequest name)

def ipcNotifySendOnce (w : IpcWorld ι) (p : ℕ) : IpcWorld ι := w.notify (.sendOnce p)

def ipcPortReleaseSend (w : IpcWorld ι) (p : ℕ) : IpcWorld ι :=
  let w := w.clotheSend p
  if (w.ports p).ipActive = false then w
  else
    let (nsrequest, w) := ipcPortDropSright w p
    ipcNotifyNoSenders w p nsrequest

def ipcPortReleaseSonce (w : IpcWorld ι) (p : ℕ) : IpcWorld ι :=
  (w.updPort p fun port => { port with ipSorights := port.ipSorights - 1 }).clotheSonce p

/-- The loop of `ipc_port_dngrow` that puts the new elements on the free list. -/
def dngrowFree (request : ℕ → IpcPortRequest) (free : ℕ) : List ℕ → (ℕ → IpcPortRequest) × ℕ
  | [] => (request, free)
  | i :: is =>
    dngrowFree (update request i ⟨machPortNull, none, free⟩) i is

def ipcPortDncancel (w : IpcWorld ι) (p index : ℕ) : Option ℕ × IpcWorld ι :=
  let table := (w.ports p).ipDnrequests
  ((table.request index).iprSoright, w.updPort p fun port => { port with
    ipDnrequests := { table with
      iprNext := index
      request := update table.request index ⟨machPortNull, none, table.iprNext⟩ } })

/-- `ipc_port_clear_receiver`, without the queue of receivers. -/
def ipcPortClearReceiver (w : IpcWorld ι) (p : ℕ) : IpcWorld ι :=
  w.updPort p fun port => { port with ipMscount := 0 }

/-- Where the receive right of a port is under way to, if it is in transit. -/
def IpcPort.transit (port : IpcPort ι) : Option ℕ :=
  if port.ipActive = true ∧ port.ipReceiverName = machPortNull then
    match port.data with
    | .destination dest => dest
    | _ => none
  else none

/-- The search of `ipc_port_check_circularity` for a port that is not in transit. -/
def transitEnd (ports : ℕ → IpcPort ι) : ℕ → ℕ → ℕ
  | 0, base => base
  | fuel + 1, base =>
    match (ports base).transit with
    | none => base
    | some dest => transitEnd ports fuel dest

/-- `ipc_port_check_circularity`, with the port in limbo: if there is no circle it is then in
transit to `dest`. -/
def ipcPortCheckCircularity (w : IpcWorld ι) (p dest : ℕ) : Bool × IpcWorld ι :=
  if p = dest ∨ p = transitEnd w.ports w.nextObject dest then (true, w)
  else (false, w.updPort p fun port => { port with data := .destination (some dest) })

/-- `ipc_port_dnnotify`: a dead-name notification for each request. -/
def ipcPortDnnotify (K : IpcTables) (w : IpcWorld ι) (table : DnTable) : IpcWorld ι :=
  match table.iprSize with
  | none => w
  | some size =>
    { w with notifications := w.notifications ++
        (List.range' 1 (K.dnrequests size - 1)).filterMap fun index =>
          if (table.request index).iprName = machPortNull then none
          else (table.request index).iprSoright.map fun soright =>
            .deadName soright (table.request index).iprName }

/-- The part of `ipc_port_destroy` after the check for a backup port: the port dies. -/
def ipcPortDie (K : IpcTables) (w : IpcWorld ι) (p : ℕ) : IpcWorld ι :=
  let timestamp := w.timestampData
  let dnrequests := (w.ports p).ipDnrequests
  let w := { w with timestampData := (w.timestampData + 1) % 2 ^ 32 }.updPort p fun port =>
    { port with ipActive := false, data := .timestamp timestamp, ipDnrequests := .null }
  let w := match (w.ports p).ipNsrequest with
    | none => w
    | some nsrequest => ipcNotifySendOnce w nsrequest
  ipcPortDnnotify K w dnrequests

/-- `ipc_port_destroy`: a port with a backup does not die, but is sent to the backup. -/
def ipcPortDestroy (K : IpcTables) (w : IpcWorld ι) (p : ℕ) : IpcWorld ι :=
  match (w.ports p).ipPdrequest with
  | none => ipcPortDie K w p
  | some pdrequest =>
    -- make port be in limbo
    let w := w.updPort p fun port => { port with
      ipPdrequest := none, ipReceiverName := machPortNull, data := .destination none }
    match ipcPortCheckCircularity w p pdrequest with
    | (false, w) => w.notify (.portDestroyed pdrequest p)
    | (true, w) => ipcPortDie K (ipcPortReleaseSonce w pdrequest) p

def ipcPortReleaseReceive (K : IpcTables) (w : IpcWorld ι) (p : ℕ) : IpcWorld ι :=
  ipcPortDestroy K w p

end Osfmk

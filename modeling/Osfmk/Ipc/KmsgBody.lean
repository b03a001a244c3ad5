import Osfmk.Ipc.KmsgBounds
import Osfmk.Ipc.Right

/-!
# Copyin of a message body

`ipc_kmsg_copyin_body`, `ipc_kmsg_clean_partial` and `ipc_kmsg_clean_body` of `ipc/ipc_kmsg.c`: the
rights named in the descriptors of a message are taken from the space of the sender, one after the
other, and given up again when a name does not denote such a right.
-/

open List

namespace Osfmk.Body

set_option linter.unusedSectionVars false

variable {ι : Type} [DecidableEq ι] {K : IpcTables} {α β : Type}

/-- `mach_msg_return_t`, as far as `ipc_kmsg_copyin_body` returns it. -/
inductive MachMsgReturn
  | success
  | sendMsgTooSmall
  | sendInvalidType
  | sendInvalidRight
  | sendInvalidMemory
  | sendNoBuffer
  | sendInvalidRtOolSize
  | invalidRtDescriptor
  | vmKernel
  deriving DecidableEq

/-- An object with the right for it that a message carries. -/
abbrev Carried := IpcObject × MachMsgTypeName

/-- What happens to a right. -/
inductive Call
  | took (c : Carried)
  | destroy (c : Carried)
  deriving DecidableEq

/-- The state of the IPC system, with the calls so far. -/
structure Run (ι : Type) where
  world : IpcWorld ι
  calls : List Call
  circular : Bool

/-- One call after the other, as long as they return. -/
def andThen (x : Except Trap α × Run ι) (f : α → Run ι → Except Trap β × Run ι) :
    Except Trap β × Run ι :=
  match x with
  | (.error t, r) => (.error t, r)
  | (.ok a, r) => f a r

/-- `mach_msg_copy_options_t`. -/
inductive CopyOption
  | physicalCopy
  | virtualCopy
  | other
  deriving DecidableEq

/-- How the VM system or the allocator can refuse a region. -/
inductive Refusal
  | vmKernel
  | invalidMemory
  deriving DecidableEq

/-- The code that is returned. -/
def Refusal.code : Refusal → MachMsgReturn
  | .vmKernel => .vmKernel
  | .invalidMemory => .sendInvalidMemory

/-- `mach_msg_ool_descriptor_t`, with the answer for its region. -/
structure OolDescriptor where
  size : ℕ
  copy : CopyOption
  deallocate : Bool
  answer : Option Refusal

/-- A descriptor of the user. -/
inductive Descriptor
  | port (name : ℕ) (disposition : MachMsgTypeName)
  | outOfLine (dsc : OolDescriptor)
  /-- `count` words at an address, as the kernel finds them there once they are copied in, or
  whether `KALLOC` or `copyinmap` fails. -/
  | oolPorts (names : List ℕ) (disposition : MachMsgTypeName) (answer : Option Refusal)
  | other

/-- A descriptor after its copyin: names have been overwritten with objects. -/
inductive Held
  | port (object : IpcObject) (disposition : MachMsgTypeName)
  | outOfLine
  | oolPorts (objects : List IpcObject) (disposition : MachMsgTypeName)
  /-- An array whose `length` in bytes was 0, with its `count`; the address is 0. -/
  | emptyPorts (count : ℕ)

/-- A right that a message can carry: one for a port, of a received type. -/
def Sound (c : Carried) : Prop :=
  (∃ p, c.1 = .port p) ∧ (c.2 = .moveSend ∨ c.2 = .moveSendOnce ∨ c.2 = .moveReceive)

/-- A message after `ipc_kmsg_copyin_header`: the destination is valid, the reply port if it is
not null or dead. -/
structure Kmsg where
  place : Bounds.Kmsg
  remotePort : ℕ
  remoteType : MachMsgTypeName
  localPort : IpcObject
  localType : MachMsgTypeName
  rt : Bool
  usePageLists : Bool
  vmAllocate : Bool
  descriptors : List Descriptor
  remote_sound : Sound (.port remotePort, remoteType)
  local_sound : localPort.valid = true → Sound (localPort, localType)

/-- `MSG_OOL_SIZE_SMALL` and `ipc_kmsg_max_vm_space`. -/
structure Limits where
  msgOolSizeSmall : Bool → ℕ
  maxVmSpace : ℕ

/-- `round_page`, in 32 bits. -/
def roundPage (size : ℕ) : ℕ := (size + 4095) % 2 ^ 32 / 4096 * 4096

/-- The object that a null or dead name reads as: `MACH_PORT_NULL` is `IO_NULL`. -/
def ofName (name : ℕ) : IpcObject := if name = machPortNull then .null else .dead

instance (name : ℕ) : Decidable (MachPortValid name) := inferInstanceAs (Decidable (_ ∧ _))

/-- A call of `ipc_object_destroy`. -/
def objectDestroy (K : IpcTables) (c : Carried) (r : Run ι) : Except Trap Unit × Run ι :=
  match ipcObjectDestroy K r.world c.1 c.2 with
  | .error t => (.error t, { r with calls := r.calls ++ [.destroy c] })
  | .ok w => (.ok (), { r with world := w, calls := r.calls ++ [.destroy c] })

/-- The loop of `ipc_kmsg_clean_body` over an array of rights. -/
def cleanArray (K : IpcTables) (disposition : MachMsgTypeName) :
    List IpcObject → Run ι → Except Trap Unit × Run ι
  | [], r => (.ok (), r)
  | object :: objects, r =>
    if object.valid = false then cleanArray K disposition objects r
    else
      andThen (objectDestroy K (object, disposition) r) fun _ r => cleanArray K disposition objects r

/-- One descriptor in `ipc_kmsg_clean_body`. -/
def cleanDescriptor (K : IpcTables) : Held → Run ι → Except Trap Unit × Run ι
  | .port object disposition, r => cleanArray K disposition [object] r
  | .outOfLine, r => (.ok (), r)
  | .oolPorts objects disposition, r => cleanArray K disposition objects r
  -- the array is read through a null pointer
  | .emptyPorts count, r => if count = 0 then (.ok (), r) else (.error .fault, r)

/-- `ipc_kmsg_clean_body`, over the descriptors that have been copied in. -/
def ipcKmsgCleanBody (K : IpcTables) : List Held → Run ι → Except Trap Unit × Run ι
  | [], r => (.ok (), r)
  | held :: rest, r => andThen (cleanDescriptor K held r) fun _ r => ipcKmsgCleanBody K rest r

/-- `ipc_kmsg_clean_partial`, and the code that is returned after it. -/
def ipcKmsgCleanPartial (K : IpcTables) (k : Kmsg) (held : List Held) (code : MachMsgReturn)
    (r : Run ι) : Except Trap MachMsgReturn × Run ι :=
  andThen (objectDestroy K (.port k.remotePort, k.remoteType) r) fun _ r =>
  andThen (cleanArray K k.localType [k.localPort] r) fun _ r =>
  andThen (ipcKmsgCleanBody K held r) fun _ r => (.ok code, r)

/-- The copyin of a name, with the check for a circle when a receive right is sent. -/
def copyinRight (K : IpcTables) (w : IpcWorld ι) (i : ι) (dest name : ℕ)
    (msgtName disposition : MachMsgTypeName) :
    Except Trap (Option IpcObject × Bool × IpcWorld ι) := do
  match ← ipcObjectCopyin K w i name msgtName with
  | (.success, object, w) =>
    if disposition = .moveReceive then
      let port ← object.toPort
      let (circular, w) := ipcPortCheckCircularity w port dest
      return (some object, circular, w)
    else return (some object, false, w)
  | (_, _, w) => return (none, false, w)

/-- A copyin, with the call it stands for. -/
def take (x : Except Trap (Option IpcObject × Bool × IpcWorld ι)) (disposition : MachMsgTypeName)
    (r : Run ι) : Except Trap (Option IpcObject) × Run ι :=
  match x with
  | .error t => (.error t, r)
  | .ok (none, _, w) => (.ok none, { r with world := w })
  | .ok (some object, circular, w) =>
    (.ok (some object),
      { world := w, calls := r.calls ++ [.took (object, disposition)],
        circular := r.circular || circular })

/-- The loop that gives up the rights of an array when the name `port` has failed. -/
def unwind (K : IpcTables) (port : ℕ) (disposition : MachMsgTypeName) :
    List IpcObject → Run ι → Except Trap Unit × Run ι
  | [], r => (.ok (), r)
  | object :: objects, r =>
    if ¬ MachPortValid port then unwind K port disposition objects r
    else
      andThen (objectDestroy K (object, disposition) r) fun _ r =>
        unwind K port disposition objects r

/-- The loop over an array of names; `none` when a name has failed. -/
def copyinArray (K : IpcTables) (i : ι) (dest : ℕ) (msgtName disposition : MachMsgTypeName) :
    List ℕ → List IpcObject → Run ι → Except Trap (Option (List IpcObject)) × Run ι
  | [], objects, r => (.ok (some objects), r)
  | port :: names, objects, r =>
    if ¬ MachPortValid port then
      copyinArray K i dest msgtName disposition names (objects ++ [ofName port]) r
    else
      andThen (take (copyinRight K r.world i dest port msgtName disposition) disposition r) fun
        | none, r =>
          andThen (unwind K port disposition objects r) fun _ r => (.ok none, r)
        | some object, r =>
          copyinArray K i dest msgtName disposition names (objects ++ [object]) r

/-- The initial pass: the space that physical copies need. -/
def initialPass (L : Limits) (rt : Bool) : List Descriptor → ℕ → Except MachMsgReturn ℕ
  | [], spaceNeeded => .ok spaceNeeded
  | .outOfLine dsc :: rest, spaceNeeded =>
    if dsc.copy = .other then .error .sendInvalidType
    else if dsc.copy = .physicalCopy ∧ L.msgOolSizeSmall rt ≤ dsc.size ∧ dsc.deallocate = false then
      let spaceNeeded := (spaceNeeded + roundPage dsc.size) % 2 ^ 32
      if L.maxVmSpace < spaceNeeded then .error .vmKernel else initialPass L rt rest spaceNeeded
    else initialPass L rt rest spaceNeeded
  | _ :: rest, spaceNeeded => initialPass L rt rest spaceNeeded

/-- The checks before the first right is taken. -/
def prepare (L : Limits) (k : Kmsg) : Except MachMsgReturn Unit := do
  if Bounds.initialCheck k.place = false then .error .sendMsgTooSmall
  else
    let spaceNeeded ← initialPass L k.rt k.descriptors 0
    if spaceNeeded = 0 then .ok ()
    else if k.rt then .error .sendInvalidRtOolSize
    else if k.vmAllocate then .ok ()
    else .error .vmKernel

/-- An out-of-line region: `none` if it is copied in, or the code to return. -/
def copyinRegion (L : Limits) (k : Kmsg) (dsc : OolDescriptor) : Option MachMsgReturn :=
  if dsc.deallocate && k.rt then some .invalidRtDescriptor
  else if dsc.size = 0 then none
  else if k.usePageLists then dsc.answer.map Refusal.code
  else if dsc.copy = .physicalCopy ∧ (dsc.size < L.msgOolSizeSmall k.rt ∨ dsc.deallocate = false) then
    dsc.answer.map Refusal.code
  else if k.rt then some .sendInvalidType
  else dsc.answer.map Refusal.code

/-- `ipc_object_copyin_type`, in a run. -/
def copyinType (name : MachMsgTypeName) (r : Run ι) : Except Trap MachMsgTypeName × Run ι :=
  (ipcObjectCopyinType name, r)

/-- The loop of `ipc_kmsg_copyin_body` over the descriptors. -/
def copyinDescriptors (K : IpcTables) (L : Limits) (i : ι) (k : Kmsg) :
    List Descriptor → List Held → Run ι → Except Trap MachMsgReturn × Run ι
  | [], _, r => (.ok .success, r)
  | .port name msgtName :: rest, held, r =>
    andThen (copyinType msgtName r) fun disposition r =>
    if ¬ MachPortValid name then
      copyinDescriptors K L i k rest (held ++ [.port (ofName name) disposition]) r
    else
      andThen (take (copyinRight K r.world i k.remotePort name msgtName disposition) disposition r)
        fun
        | none, r => ipcKmsgCleanPartial K k held .sendInvalidRight r
        | some object, r =>
          copyinDescriptors K L i k rest (held ++ [.port object disposition]) r
  | .outOfLine dsc :: rest, held, r =>
    match copyinRegion L k dsc with
    | some code => ipcKmsgCleanPartial K k held code r
    | none => copyinDescriptors K L i k rest (held ++ [.outOfLine]) r
  | .oolPorts names msgtName answer :: rest, held, r =>
    if 4 * names.length % 2 ^ 32 = 0 then
      copyinDescriptors K L i k rest (held ++ [.emptyPorts names.length]) r
    else
      match answer with
      | some .vmKernel => ipcKmsgCleanPartial K k held .sendNoBuffer r
      | some .invalidMemory => ipcKmsgCleanPartial K k held .sendInvalidMemory r
      | none =>
        andThen (copyinType msgtName r) fun disposition r =>
        andThen (copyinArray K i k.remotePort msgtName disposition names [] r) fun
          | none, r => ipcKmsgCleanPartial K k held .sendInvalidRight r
          | some objects, r =>
            copyinDescriptors K L i k rest (held ++ [.oolPorts objects disposition]) r
  | .other :: _, held, r => ipcKmsgCleanPartial K k held .sendInvalidType r

def ipcKmsgCopyinBody (K : IpcTables) (L : Limits) (i : ι) (k : Kmsg) (r : Run ι) :
    Except Trap MachMsgReturn × Run ι :=
  match prepare L k with
  | .error code => ipcKmsgCleanPartial K k [] code r
  | .ok () => copyinDescriptors K L i k k.descriptors [] r

/-- The valid objects that were taken, with their rights. -/
def taken (calls : List Call) : List Carried :=
  calls.filterMap fun
    | .took c => if c.1.valid then some c else none
    | .destroy _ => none

/-- The objects that were passed to `ipc_object_destroy`. -/
def destroyed (calls : List Call) : List Carried :=
  calls.filterMap fun
    | .took _ => none
    | .destroy c => some c

/-- The rights in the header of the message. -/
def Kmsg.header (k : Kmsg) : List Carried :=
  (.port k.remotePort, k.remoteType) ::
    if k.localPort.valid then [(k.localPort, k.localType)] else []

/-- Nothing is given up that is not in the header and was not taken, nor twice; and when an error
is returned, all of it has been. -/
def Released (k : Kmsg) (x : Except Trap MachMsgReturn × Run ι) : Prop :=
  (destroyed x.2.calls).Subperm (k.header ++ taken x.2.calls) ∧
    ∀ code, x.1 = .ok code → code ≠ .success →
      (destroyed x.2.calls).Perm (k.header ++ taken x.2.calls)

/-- In an array, no name fails after one that is null or dead, or denotes a dead right: `live` says
that there was none so far. -/
def HarmlessArray (K : IpcTables) (i : ι) (dest : ℕ) (msgtName disposition : MachMsgTypeName) :
    List ℕ → Bool → IpcWorld ι → Prop
  | [], _, _ => True
  | name :: names, live, w =>
    if ¬ MachPortValid name then HarmlessArray K i dest msgtName disposition names false w
    else
      match copyinRight K w i dest name msgtName disposition with
      | .error _ => True
      | .ok (none, _, _) => live = true
      | .ok (some object, _, w) =>
        HarmlessArray K i dest msgtName disposition names (live && object.valid) w

/-- The arrays of a message that are reached are harmless. -/
def HarmlessBody (K : IpcTables) (L : Limits) (i : ι) (k : Kmsg) : List Descriptor → Run ι → Prop
  | [], _ => True
  | .port name msgtName :: rest, r =>
    match ipcObjectCopyinType msgtName with
    | .error _ => True
    | .ok disposition =>
      if ¬ MachPortValid name then HarmlessBody K L i k rest r
      else
        match take (copyinRight K r.world i k.remotePort name msgtName disposition) disposition r with
        | (.ok (some _), r) => HarmlessBody K L i k rest r
        | _ => True
  | .outOfLine dsc :: rest, r =>
    (copyinRegion L k dsc = none → HarmlessBody K L i k rest r)
  | .oolPorts names msgtName answer :: rest, r =>
    if 4 * names.length % 2 ^ 32 = 0 then HarmlessBody K L i k rest r
    else
      answer = none →
        match ipcObjectCopyinType msgtName with
        | .error _ => True
        | .ok disposition =>
          HarmlessArray K i k.remotePort msgtName disposition names true r.world ∧
          match copyinArray K i k.remotePort msgtName disposition names [] r with
          | (.ok (some _), r) => HarmlessBody K L i k rest r
          | _ => True
  | .other :: _, _ => True

variable {c : Carried} {new : Held} {object : IpcObject} {w w' : IpcWorld ι} {k : Kmsg} {cs : List
  Carried} {held : List Held} {objects : List IpcObject} {disposition msgtName : MachMsgTypeName} {r
  : Run ι} {i : ι} {name : ℕ}

theorem rightCopyin_object {entry : IpcEntryRef} {deadok : Bool} {c : Copyin ι}
    (h : ipcRightCopyin w i name entry msgtName deadok = .ok c) (hkr : c.kr = .success) :
    ((∃ p, c.object = .port p) ∨ c.object = .dead) ∧ ∀ n, msgtName ≠ .other n := by
  have hinv : ∀ w : IpcWorld ι, (Copyin.invalidRight w).kr ≠ .success := fun _ => by
    simp [Copyin.invalidRight]
  have hcopy : ∀ w : IpcWorld ι, (copyDead w deadok).kr = .success →
      (copyDead w deadok).object = .dead := fun w => by
    unfold copyDead; split <;> simp [Copyin.invalidRight]
  have hmove : ∀ w : IpcWorld ι, (moveDead w i entry deadok).kr = .success →
      (moveDead w i entry deadok).object = .dead := fun w => by
    unfold moveDead; split <;> simp [Copyin.invalidRight]
  cases hd : w.deref i entry with
  | error t => simp [ipcRightCopyin, hd, bind, Except.bind] at h
  | ok e =>
    cases hp : e.ieObject.toPort <;> cases msgtName <;>
      simp only [ipcRightCopyin, hd, hp, bind, Except.bind, pure, Except.pure, reduceCtorEq] at h
    all_goals
      refine ⟨?_, nofun⟩
      repeat' split at h
      all_goals first
        | cases h; done
        | cases h; exact absurd hkr (hinv _)
        | cases h; exact Or.inr (hcopy _ hkr)
        | cases h; exact Or.inr (hmove _ hkr)
        | cases h; exact Or.inl ⟨_, rfl⟩

theorem objectCopyin_object (h : ipcObjectCopyin K w i name msgtName = .ok (.success, object, w')) :
    ((∃ p, object = .port p) ∨ object = .dead) ∧ ∀ n, msgtName ≠ .other n := by
  rw [ipcObjectCopyin, copyinName] at h
  split at h
  · next kr w1 hl =>
    -- the name is not found, which is not a success
    cases h
    rw [ipcRightLookupWrite] at hl
    split at hl
    · cases hl
    · split at hl <;> cases hl
  next entry w1 _ =>
  cases hc : ipcRightCopyin w1 i name entry msgtName true with
  | error t => simp [hc, bind, Except.bind] at h
  | ok c =>
    cases hw : c.world.deallocDefunct K i name entry with
    | error t => simp [hc, hw, bind, Except.bind] at h
    | ok w2 =>
      simp only [hc, hw, bind, Except.bind, pure, Except.pure, Except.ok.injEq,
        Prod.mk.injEq] at h
      obtain ⟨hkr, rfl, -⟩ := h
      exact rightCopyin_object hc hkr

theorem sound_of_copyinRight {dest : ℕ} {circular : Bool}
    (hd : ipcObjectCopyinType msgtName = .ok disposition)
    (h : copyinRight K w i dest name msgtName disposition = .ok (some object, circular, w'))
    (hv : object.valid = true) : Sound (object, disposition) := by
  cases hc : ipcObjectCopyin K w i name msgtName with
  | error t => simp [copyinRight, hc, bind, Except.bind] at h
  | ok c =>
    obtain ⟨kr, o, w1⟩ := c
    obtain ⟨rfl, rfl⟩ : kr = .success ∧ o = object := by
      cases kr <;> simp only [copyinRight, hc, bind, Except.bind, pure, Except.pure,
        Except.ok.injEq, Prod.mk.injEq, reduceCtorEq, false_and] at h
      refine ⟨rfl, ?_⟩
      split at h
      · split at h
        · cases h
        · cases h; rfl
      · cases h; rfl
    obtain ⟨hobj, hn⟩ := objectCopyin_object hc
    refine ⟨hobj.resolve_right fun hdead => (by rw [hdead] at hv; cases hv), ?_⟩
    cases msgtName with
    | other n => exact absurd rfl (hn n)
    | _ => cases hd; simp

@[simp] theorem taken_append (a b : List Call) : taken (a ++ b) = taken a ++ taken b :=
  filterMap_append

@[simp] theorem destroyed_append (a b : List Call) :
    destroyed (a ++ b) = destroyed a ++ destroyed b :=
  filterMap_append

@[simp] theorem taken_destroy (cs : List Carried) : taken (cs.map .destroy) = [] := by
  induction cs with
  | nil => rfl
  | cons c cs ih => simp [taken]

@[simp] theorem destroyed_destroy (cs : List Carried) : destroyed (cs.map .destroy) = cs := by
  induction cs with
  | nil => rfl
  | cons c cs ih => simp [destroyed]

/-- The valid objects among some, with a right. -/
def rightsOf (disposition : MachMsgTypeName) (objects : List IpcObject) : List Carried :=
  (objects.filter (·.valid)).map (·, disposition)

/-- The rights that a descriptor holds. -/
def Held.rights : Held → List Carried
  | .port object disposition => rightsOf disposition [object]
  | .outOfLine => []
  | .oolPorts objects disposition => rightsOf disposition objects
  | .emptyPorts _ => []

theorem taken_took (object : IpcObject) (disposition : MachMsgTypeName) :
    taken [.took (object, disposition)] = rightsOf disposition [object] := by
  cases hv : object.valid <;> simp [taken, rightsOf, hv]

theorem ofName_invalid (name : ℕ) : (ofName name).valid = false := by
  unfold ofName
  split <;> rfl

theorem rightsOf_ofName (name : ℕ) (disposition : MachMsgTypeName) :
    rightsOf disposition [ofName name] = [] := by
  simp [rightsOf, ofName_invalid]

theorem rightsOf_append (disposition : MachMsgTypeName) (a b : List IpcObject) :
    rightsOf disposition (a ++ b) = rightsOf disposition a ++ rightsOf disposition b := by
  simp [rightsOf]

theorem Sound.valid
    (h : Sound (object, disposition)) : object.valid = true := by
  obtain ⟨⟨p, hp⟩, -⟩ := h
  rw [show object = .port p from hp]
  rfl

theorem rightsOf_of_sound
    (h : ∀ o ∈ objects, Sound (o, disposition)) :
    rightsOf disposition objects = objects.map (·, disposition) := by
  rw [rightsOf, filter_eq_self.mpr fun o ho => (h o ho).valid]

/-- A run calls `ipc_object_destroy` with the given rights in this order, and with all of them if it
returns. -/
def Destroys (x : Except Trap α × Run ι) (r : Run ι) (cs : List Carried) : Prop :=
  ∃ done, done <+: cs ∧ x.2.calls = r.calls ++ done.map .destroy ∧ ∀ a, x.1 = .ok a → done = cs

theorem Destroys.nil (a : α) (r : Run ι) : Destroys (.ok a, r) r [] :=
  ⟨[], prefix_rfl, by simp, fun _ _ => rfl⟩

theorem Destroys.andThen {x : Except Trap α × Run ι} {cs' : List Carried}
    {f : α → Run ι → Except Trap β × Run ι} (h : Destroys x r cs)
    (hf : ∀ a r', Destroys (f a r') r' cs') : Destroys (andThen x f) r (cs ++ cs') := by
  obtain ⟨done, hpre, hcalls, hall⟩ := h
  obtain ⟨y, r1⟩ := x
  cases y with
  | error t =>
    exact ⟨done, hpre.trans (prefix_append _ _), hcalls, nofun⟩
  | ok a =>
    obtain rfl := hall a rfl
    obtain ⟨done', hpre', hcalls', hall'⟩ := hf a r1
    refine ⟨done ++ done', (prefix_append_right_inj _).mpr hpre', ?_, fun b hb => ?_⟩
    · rw [Body.andThen, hcalls', hcalls, map_append, append_assoc]
    · rw [hall' b hb]

theorem andThen_return (x : Except Trap α × Run ι) (b : β) :
    (Body.andThen x fun _ r => (.ok b, r)).2 = x.2 ∧
      ∀ c, (Body.andThen x fun _ r => (.ok b, r)).1 = .ok c → c = b ∧ ∃ a, x.1 = .ok a := by
  obtain ⟨y, r⟩ := x
  cases y with
  | error t => exact ⟨rfl, nofun⟩
  | ok a => exact ⟨rfl, fun c hc => by cases hc; exact ⟨rfl, a, rfl⟩⟩

theorem objectDestroy_destroys (c : Carried) (r : Run ι) :
    Destroys (objectDestroy K c r) r [c] := by
  refine ⟨[c], prefix_rfl, ?_, fun _ _ => rfl⟩
  rw [objectDestroy]
  split <;> rfl

theorem objectDestroy_ok (h : Sound c) (r : Run ι) :
    ∃ r', objectDestroy K c r = (.ok (), r') := by
  obtain ⟨object, disposition⟩ := c
  obtain ⟨⟨p, rfl⟩, rfl | rfl | rfl⟩ := h <;> exact ⟨_, rfl⟩

theorem cleanArray_destroys (disposition : MachMsgTypeName) (objects : List IpcObject) :
    ∀ r : Run ι, Destroys (cleanArray K disposition objects r) r (rightsOf disposition objects) := by
  induction objects with
  | nil => intro r; exact .nil () r
  | cons object objects ih =>
    intro r
    rw [cleanArray]
    split
    · next hv =>
      rw [show rightsOf disposition (object :: objects) = rightsOf disposition objects by
        simp [rightsOf, hv]]
      exact ih r
    next hv =>
    rw [show rightsOf disposition (object :: objects) =
      [(object, disposition)] ++ rightsOf disposition objects by simp [rightsOf, hv]]
    exact (objectDestroy_destroys _ r).andThen fun _ r' => ih r'

theorem cleanDescriptor_destroys (held : Held) (r : Run ι) :
    Destroys (cleanDescriptor K held r) r held.rights := by
  cases held with
  | port object disposition => exact cleanArray_destroys disposition [object] r
  | outOfLine => exact .nil () r
  | oolPorts objects disposition => exact cleanArray_destroys disposition objects r
  | emptyPorts count =>
    rw [cleanDescriptor]
    split
    · exact .nil () r
    · exact ⟨[], prefix_rfl, by simp, nofun⟩

theorem cleanBody_destroys (held : List Held) :
    ∀ r : Run ι, Destroys (ipcKmsgCleanBody K held r) r (held.flatMap Held.rights) := by
  induction held with
  | nil => intro r; exact .nil () r
  | cons held rest ih =>
    intro r
    exact (cleanDescriptor_destroys held r).andThen fun _ r' => ih r'

theorem cleanPartial_destroys (k : Kmsg) (held : List Held) (code : MachMsgReturn) (r : Run ι) :
    Destroys (ipcKmsgCleanPartial K k held code r) r (k.header ++ held.flatMap Held.rights) := by
  have hheader : k.header = [(.port k.remotePort, k.remoteType)] ++
      rightsOf k.localType [k.localPort] := by
    rw [Kmsg.header, rightsOf]
    cases hv : k.localPort.valid <;> simp [hv]
  rw [hheader, append_assoc]
  refine (objectDestroy_destroys _ r).andThen fun _ r1 =>
    (cleanArray_destroys _ _ r1).andThen fun _ r2 => ?_
  rw [← append_nil (held.flatMap Held.rights)]
  exact (cleanBody_destroys held r2).andThen fun _ r3 => .nil code r3

theorem released_of_destroys {x : Except Trap MachMsgReturn × Run ι} (h : Destroys x r cs)
    (hperm : (destroyed r.calls ++ cs).Perm (k.header ++ taken r.calls)) : Released k x := by
  obtain ⟨done, hpre, hcalls, hall⟩ := h
  simp only [Released, hcalls, destroyed_append, taken_append, destroyed_destroy, taken_destroy,
    append_nil]
  constructor
  · exact ((prefix_append_right_inj _).mpr hpre).sublist.subperm.trans hperm.subperm
  · intro code hcode _
    rw [hall code hcode]
    exact hperm

theorem unwind_destroys {port : ℕ} (hport : MachPortValid port) (disposition : MachMsgTypeName)
    (objects : List IpcObject) :
    ∀ r : Run ι, ∃ done, done <+: objects.map (·, disposition) ∧
      (unwind K port disposition objects r).2.calls = r.calls ++ done.map .destroy ∧
      (∀ a, (unwind K port disposition objects r).1 = .ok a → done = objects.map (·, disposition)) ∧
      ((∃ o ∈ objects, ¬ Sound (o, disposition)) → ∃ c ∈ done, ¬ Sound c) := by
  induction objects with
  | nil =>
    intro r
    exact ⟨[], prefix_rfl, by simp [unwind], fun _ _ => rfl, by simp⟩
  | cons object objects ih =>
    intro r
    rw [unwind, if_neg (not_not.mpr hport)]
    have hcalls1 : (objectDestroy K (object, disposition) r).2.calls =
        r.calls ++ [.destroy (object, disposition)] := by
      rw [objectDestroy]
      split <;> rfl
    cases hx : objectDestroy K (object, disposition) r with
    | mk y r1 =>
    rw [hx] at hcalls1
    cases y with
    | error t =>
      -- only a right that no message can carry stops the loop
      refine ⟨[(object, disposition)], by simp, hcalls1, nofun, fun _ => ?_⟩
      refine ⟨_, mem_singleton_self _, fun hs => ?_⟩
      obtain ⟨r2, hr2⟩ := objectDestroy_ok (K := K) hs r
      rw [hx] at hr2
      cases hr2
    | ok a =>
      obtain ⟨done, hpre, hcalls, hall, hbad⟩ := ih r1
      refine ⟨(object, disposition) :: done, ?_, ?_, ?_, ?_⟩
      · exact cons_prefix_cons.mpr ⟨rfl, hpre⟩
      · rw [andThen, hcalls, show r1.calls = _ from hcalls1]
        simp
      · intro a ha
        rw [hall a ha, map_cons]
      · rintro ⟨o, ho, hno⟩
        rcases mem_cons.mp ho with rfl | ho
        · exact ⟨_, mem_cons_self, hno⟩
        · obtain ⟨c, hc, hnc⟩ := hbad ⟨o, ho, hno⟩
          exact ⟨c, mem_cons_of_mem _ hc, hnc⟩

/-- What the loop over an array does: it turns the first names into the objects `got`, and if it
stops at one, it destroys what it has so far. -/
structure ArrayRun (x : Except Trap (Option (List IpcObject)) × Run ι) (r : Run ι)
    (objects : List IpcObject) (disposition : MachMsgTypeName) (harmless : Prop)
    (got : List IpcObject) (tooks : List Call) (done : List Carried) : Prop where
  calls : x.2.calls = r.calls ++ tooks ++ done.map .destroy
  destroyed_tooks : destroyed tooks = []
  taken_tooks : taken tooks = rightsOf disposition got
  sound : ∀ c ∈ rightsOf disposition got, Sound c
  pre : done <+: (objects ++ got).map (·, disposition)
  some_eq : ∀ all, x.1 = .ok (some all) → all = objects ++ got ∧ done = []
  none_eq : x.1 = .ok none → done = (objects ++ got).map (·, disposition)
  of_harmless : harmless → done = [] ∨ ∀ o ∈ objects ++ got, Sound (o, disposition)
  of_harmful : ¬ harmless → ∃ c ∈ done, ¬ Sound c

theorem mem_rightsOf :
    c ∈ rightsOf disposition objects ↔ c.1 ∈ objects ∧ c.1.valid = true ∧ c.2 = disposition := by
  obtain ⟨o, t⟩ := c
  simp only [rightsOf, mem_map, mem_filter, Prod.mk.injEq]
  constructor
  · rintro ⟨o', ⟨hm, hv⟩, rfl, rfl⟩
    exact ⟨hm, hv, rfl⟩
  · rintro ⟨hm, hv, rfl⟩
    exact ⟨o, ⟨hm, hv⟩, rfl, rfl⟩

theorem ArrayRun.cons {x : Except Trap (Option (List IpcObject)) × Run ι} {r1 : Run ι}
    {got : List IpcObject}
    {harmless : Prop} {tooks : List Call} {done : List Carried} (new : List Call)
    (h : ArrayRun x r1 (objects ++ [object]) disposition harmless got tooks done)
    (hcalls : r1.calls = r.calls ++ new) (hnew : destroyed new = [])
    (htaken : taken new = rightsOf disposition [object])
    (hsound : object.valid = true → Sound (object, disposition)) :
    ArrayRun x r objects disposition harmless (object :: got) (new ++ tooks) done where
  calls := by rw [h.calls, hcalls]; simp
  destroyed_tooks := by rw [destroyed_append, hnew, h.destroyed_tooks, append_nil]
  taken_tooks := by
    rw [taken_append, htaken, h.taken_tooks, ← rightsOf_append, singleton_append]
  sound := by
    intro c hc
    rw [← singleton_append, rightsOf_append] at hc
    rcases mem_append.mp hc with hc | hc
    · obtain ⟨hm, hv, ht⟩ := mem_rightsOf.mp hc
      obtain ⟨o, t⟩ := c
      obtain rfl : o = object := by simpa using hm
      obtain rfl : t = disposition := ht
      exact hsound hv
    · exact h.sound c hc
  pre := by simpa using h.pre
  some_eq := by simpa using h.some_eq
  none_eq := by simpa using h.none_eq
  of_harmless := by simpa using h.of_harmless
  of_harmful := h.of_harmful

/-- **What the loop over an array does**, from any point on. -/
theorem copyinArray_run (i : ι) (dest : ℕ)
    (hd : ipcObjectCopyinType msgtName = .ok disposition) (names : List ℕ) :
    ∀ (objects : List IpcObject) (live : Bool) (r : Run ι),
      (live = true ↔ ∀ o ∈ objects, Sound (o, disposition)) →
      ∃ got tooks done, ArrayRun (copyinArray K i dest msgtName disposition names objects r) r objects
        disposition (HarmlessArray K i dest msgtName disposition names live r.world)
        got tooks done := by
  induction names with
  | nil =>
    intro objects live r _
    refine ⟨[], [], [], ?_⟩
    refine ⟨by simp [copyinArray], rfl, rfl, ?_, ?_, ?_, ?_, fun _ => Or.inl rfl, ?_⟩
    · intro c hc; cases hc
    · exact nil_prefix
    · intro all hall
      cases hall
      simp
    · intro hnone; cases hnone
    · intro hn; exact absurd trivial hn
  | cons port names ih =>
    intro objects live r hlive
    by_cases hport : MachPortValid port
    · rw [copyinArray, if_neg (not_not.mpr hport), HarmlessArray, if_neg (not_not.mpr hport)]
      cases hc : copyinRight K r.world i dest port msgtName disposition with
      | error t =>
        refine ⟨[], [], [], ?_⟩
        refine ⟨by simp [take, andThen], rfl, rfl, ?_, nil_prefix, ?_, ?_,
          fun _ => Or.inl rfl, fun hn => absurd trivial hn⟩
        · intro c hc; cases hc
        · intro all hall; cases hall
        · intro hnone; cases hnone
      | ok c =>
        obtain ⟨o, circular, w'⟩ := c
        cases o with
        | none =>
          -- the name fails, and the objects so far are destroyed
          obtain ⟨done, hpre, hcalls, hall, hbad⟩ :=
            unwind_destroys (K := K) hport disposition objects { r with world := w' }
          refine ⟨[], [], done, ?_⟩
          obtain ⟨hrun, hnone⟩ := andThen_return
            (unwind K port disposition objects { r with world := w' })
            (none : Option (List IpcObject))
          refine ⟨?_, rfl, rfl, ?_, ?_, ?_, ?_, ?_, ?_⟩
          · rw [take, andThen, hrun, hcalls, append_nil]
          · intro c hc; cases hc
          · simpa using hpre
          · intro all hok
            cases (hnone _ hok).1
          · intro hok
            obtain ⟨a, ha⟩ := (hnone _ hok).2
            simpa using hall a ha
          · intro hl
            simpa using Or.inr (hlive.mp hl)
          · intro hl
            apply hbad
            simpa using fun h => hl (hlive.mpr h)
        | some object =>
          have hsound := fun hv => sound_of_copyinRight hd hc hv
          obtain ⟨got, tooks, done, h⟩ := ih (objects ++ [object]) (live && object.valid)
            { world := w', calls := r.calls ++ [.took (object, disposition)],
              circular := r.circular || circular } (by
                rw [Bool.and_eq_true, hlive, forall_mem_append, forall_mem_singleton]
                exact and_congr_right fun _ => ⟨hsound, Sound.valid⟩)
          refine ⟨object :: got, .took (object, disposition) :: tooks, done, ?_⟩
          exact h.cons [.took (object, disposition)] rfl rfl (taken_took _ _) hsound
    · rw [copyinArray, if_pos hport, HarmlessArray, if_pos hport]
      have hinvalid := ofName_invalid port
      obtain ⟨got, tooks, done, h⟩ := ih (objects ++ [ofName port]) false r (by
        refine ⟨nofun, fun hs => ?_⟩
        have := (hs (ofName port) (by simp)).valid
        rw [hinvalid] at this
        exact this)
      exact ⟨ofName port :: got, tooks, done, h.cons [] (by simp) rfl
        (by simp [taken, rightsOf, hinvalid]) (by simp [hinvalid])⟩

/-- What is known before each descriptor: the rights taken are those of the descriptors before, and
none has been destroyed. -/
structure Before (r : Run ι) (held : List Held) : Prop where
  taken_eq : taken r.calls = held.flatMap Held.rights
  destroyed_eq : destroyed r.calls = []
  sound : ∀ c ∈ taken r.calls, Sound c

theorem Before.append {r' : Run ι} {calls : List Call}
    (h : Before r held) (hcalls : r'.calls = r.calls ++ calls) (hd : destroyed calls = [])
    (ht : taken calls = new.rights) (hs : ∀ c ∈ new.rights, Sound c) :
    Before r' (held ++ [new]) where
  taken_eq := by simp [hcalls, h.taken_eq, ht]
  destroyed_eq := by simp [hcalls, h.destroyed_eq, hd]
  sound := by
    intro c hc
    rw [hcalls, taken_append, ht] at hc
    exact (mem_append.mp hc).elim (h.sound c) (hs c)

theorem Before.skip (h : Before r held)
    (hn : new.rights = []) : Before r (held ++ [new]) :=
  h.append (append_nil _).symm rfl hn.symm (by simp [hn])

theorem Before.released_error (h : Before r held) (k : Kmsg)
    (t : Trap) : Released k (.error t, r) :=
  ⟨by simp [h.destroyed_eq], nofun⟩

theorem Before.released_clean (h : Before r held) (w : IpcWorld ι)
    (k : Kmsg) (code : MachMsgReturn) :
    Released k (ipcKmsgCleanPartial K k held code { r with world := w }) := by
  apply released_of_destroys (cleanPartial_destroys k held code _)
  rw [h.destroyed_eq, h.taken_eq, nil_append]

theorem Kmsg.header_sound (k : Kmsg) : ∀ c ∈ k.header, Sound c := by
  intro c hc
  rw [Kmsg.header, mem_cons] at hc
  rcases hc with rfl | hc
  · exact k.remote_sound
  · split at hc
    · next hv => rw [mem_singleton.mp hc]; exact k.local_sound hv
    · cases hc

namespace ArrayRun

variable {y : Except Trap (Option (List IpcObject))} {r r1 : Run ι} {held : List Held}
  {disposition : MachMsgTypeName} {harmless : Prop} {got : List IpcObject} {tooks : List Call}
  {done : List Carried} {k : Kmsg}

section

variable (h : ArrayRun (y, r1) r [] disposition harmless got tooks done)
include h

theorem taken_eq
    (hb : Before r held) :
    taken r1.calls = held.flatMap Held.rights ++ rightsOf disposition got := by
  rw [show r1.calls = _ from h.calls]
  simp [hb.taken_eq, h.taken_tooks]

theorem destroyed_eq
    (hb : Before r held) : destroyed r1.calls = done := by
  rw [show r1.calls = _ from h.calls]
  simp [hb.destroyed_eq, h.destroyed_tooks]

theorem done_prefix
    (hh : harmless) : done <+: rightsOf disposition got := by
  rcases h.of_harmless hh with hnil | hall
  · rw [hnil]; exact nil_prefix
  · rw [nil_append] at hall
    rw [rightsOf_of_sound hall]
    exact h.pre

theorem before {all : List IpcObject} (hb : Before r held)
    (hy : y = .ok (some all)) : Before r1 (held ++ [.oolPorts all disposition]) := by
  obtain ⟨rfl, hdone⟩ := h.some_eq all hy
  refine hb.append ?_ h.destroyed_tooks h.taken_tooks h.sound
  rw [show r1.calls = _ from h.calls, hdone]
  simp

end

theorem released_error {t : Trap}
    (h : ArrayRun (.error t, r1) r [] disposition harmless got tooks done) (hb : Before r held)
    (hh : harmless) : Released k (.error t, r1) := by
  refine ⟨?_, nofun⟩
  rw [h.destroyed_eq hb, h.taken_eq hb, ← append_assoc]
  exact (h.done_prefix hh).sublist.subperm.trans (sublist_append_right _ _).subperm

theorem released_clean (h : ArrayRun (.ok none, r1) r [] disposition harmless got tooks done)
    (hb : Before r held) (hh : harmless) :
    Released k (ipcKmsgCleanPartial K k held .sendInvalidRight r1) := by
  have hdone : done = rightsOf disposition got := by
    apply (h.done_prefix hh).eq_of_length_le
    rw [h.none_eq rfl, rightsOf, length_map, length_map]
    exact length_filter_le _ _
  apply released_of_destroys (cleanPartial_destroys k held .sendInvalidRight r1)
  rw [h.destroyed_eq hb, h.taken_eq hb, hdone, ← append_assoc k.header]
  exact perm_append_comm

theorem sound_of_released {x : Except Trap MachMsgReturn × Run ι} {c : Carried}
    (h : ArrayRun (y, r1) r [] disposition harmless got tooks done) (hb : Before r held)
    (hr : Released k x) (hx : ∃ more : List Carried, x.2.calls = r1.calls ++ more.map .destroy)
    (hc : c ∈ done) : Sound c := by
  obtain ⟨more, hmore⟩ := hx
  have hsub := hr.1.subset
  rw [hmore, destroyed_append, taken_append, taken_destroy, append_nil, h.destroyed_eq hb,
    h.taken_eq hb] at hsub
  have hmem := hsub (mem_append_left _ hc)
  simp only [mem_append] at hmem
  rcases hmem with hheader | hheld | hgot
  · exact k.header_sound c hheader
  · exact hb.sound c (by rw [hb.taken_eq]; exact hheld)
  · exact h.sound c hgot

end ArrayRun

/-- **From any descriptor on**, a failed copyin gives up what it took exactly when the arrays that
it reaches are harmless. -/
theorem copyinDescriptors_released_iff {L : Limits} (ds : List Descriptor) :
    ∀ (held : List Held) (r : Run ι), Before r held →
      (Released k (copyinDescriptors K L i k ds held r) ↔ HarmlessBody K L i k ds r) := by
  induction ds with
  | nil =>
    intro held r hb
    refine iff_of_true ⟨by simp [copyinDescriptors, hb.destroyed_eq], ?_⟩ trivial
    intro code hc hne
    cases hc
    exact absurd rfl hne
  | cons d rest ih =>
    intro held r hb
    cases d with
    | port name msgtName =>
      rw [copyinDescriptors, HarmlessBody, copyinType]
      cases hd : ipcObjectCopyinType msgtName with
      | error t => exact iff_of_true (hb.released_error k t) trivial
      | ok disposition =>
        rw [andThen]
        dsimp only
        split
        · -- a null or dead name stays
          exact ih _ r (hb.skip (by rw [Held.rights, rightsOf_ofName]))
        cases hc : copyinRight K r.world i k.remotePort name msgtName disposition with
        | error t => exact iff_of_true (hb.released_error k t) trivial
        | ok c =>
          obtain ⟨o, circular, w'⟩ := c
          cases o with
          | none =>
            have hclean : Released k
                (ipcKmsgCleanPartial K k held .sendInvalidRight { r with world := w' }) :=
              hb.released_clean w' k _
            exact iff_of_true hclean trivial
          | some object =>
            refine ih _ _ (hb.append rfl rfl (taken_took _ _) fun c hc' => ?_)
            obtain ⟨hm, hv, ht⟩ := mem_rightsOf.mp hc'
            obtain ⟨o, t⟩ := c
            obtain rfl : o = object := by simpa using hm
            obtain rfl : t = disposition := ht
            exact sound_of_copyinRight hd hc hv
    | outOfLine dsc =>
      rw [copyinDescriptors, HarmlessBody]
      cases hc : copyinRegion L k dsc with
      | some code => exact iff_of_true (hb.released_clean _ k _) (by simp)
      | none =>
        rw [ih _ r (hb.skip rfl)]
        simp
    | oolPorts names msgtName answer =>
      rw [copyinDescriptors.eq_def, HarmlessBody]
      dsimp only
      split
      · exact ih _ r (hb.skip rfl)
      cases answer with
      | some refusal =>
        cases refusal <;> exact iff_of_true (hb.released_clean _ k _) (by simp)
      | none =>
        rw [copyinType]
        cases hd : ipcObjectCopyinType msgtName with
        | error t => exact iff_of_true (hb.released_error k t) (by simp)
        | ok disposition =>
          obtain ⟨got, tooks, done, hrun⟩ :=
            copyinArray_run (K := K) i k.remotePort hd names [] true r (by simp)
          rw [andThen]
          dsimp only
          simp only [forall_const]
          cases hx : copyinArray K i k.remotePort msgtName disposition names [] r with
          | mk y r1 =>
          rw [hx] at hrun
          by_cases hh : HarmlessArray K i k.remotePort msgtName disposition names true r.world
          · simp only [hh, true_and]
            cases y with
            | error t => exact iff_of_true (hrun.released_error hb hh) trivial
            | ok o =>
              cases o with
              | none => exact iff_of_true (hrun.released_clean hb hh) trivial
              | some all => exact ih _ r1 (hrun.before hb rfl)
          simp only [hh, false_and, iff_false]
          obtain ⟨c, hc, hns⟩ := hrun.of_harmful hh
          cases y with
          | error t => exact fun hr => hns (hrun.sound_of_released hb hr ⟨[], (append_nil _).symm⟩ hc)
          | ok o =>
            cases o with
            | none =>
              intro hr
              obtain ⟨more, -, hcalls, -⟩ :=
                cleanPartial_destroys (K := K) k held .sendInvalidRight r1
              exact hns (hrun.sound_of_released hb hr ⟨more, hcalls⟩ hc)
            | some all =>
              rw [(hrun.some_eq all rfl).2] at hc
              cases hc
    | other => exact iff_of_true (hb.released_clean _ k _) trivial

/-- **When a failed copyin gives up what it took.**  From a state without calls, a copyin of a body
that returns an error has called `ipc_object_destroy` once for each right of the header and each
valid right it took, and no copyin calls it for anything else, exactly when the message is refused
before its descriptors are read or in no array a name fails after one that gave no live right. -/
theorem released_iff (K : IpcTables) (L : Limits) (i : ι) (k : Kmsg) (w : IpcWorld ι) :
    Released k (ipcKmsgCopyinBody K L i k ⟨w, [], false⟩) ↔
      (prepare L k = .ok () → HarmlessBody K L i k k.descriptors ⟨w, [], false⟩) := by
  have hb : Before (⟨w, [], false⟩ : Run ι) [] := ⟨rfl, rfl, nofun⟩
  rw [ipcKmsgCopyinBody]
  cases hp : prepare L k with
  | error code => exact iff_of_true (hb.released_clean _ k code) nofun
  | ok u =>
    rw [copyinDescriptors_released_iff k.descriptors [] _ hb]
    simp

/-- The values of `ipc_init`. -/
def limits : Limits := ⟨fun _ => 2049, 8 * 1024 * 1024 * 7 / 8⟩

/-- A task that holds no right any more, and a port with a send right that its message holds. -/
def emptyWorld : IpcWorld Unit where
  spaces _ := ipcSpaceCreate ipcTableEntries 0
  ports _ := { IpcPort.blank with ipActive := true, ipSrights := 1 }
  psets _ := ⟨false, machPortNull⟩
  nextObject := 1
  timestampData := 0
  notifications := []
  mem := []
  nakedSend _ := 1
  nakedSonce _ := 0

/-- A message with one array of two names: the null name, and one that denotes nothing. -/
def nullThenInvalid : Kmsg where
  place := Bounds.oneDescriptor
  remotePort := 0
  remoteType := .moveSend
  localPort := .null
  localType := .other 0
  rt := false
  usePageLists := false
  vmAllocate := true
  descriptors := [.oolPorts [machPortNull, 0x12300] .copySend none]
  remote_sound := ⟨⟨0, rfl⟩, Or.inl rfl⟩
  local_sound h := by cases h

/-- The null name is passed to `ipc_object_destroy`, which does not return. -/
theorem null_destroyed :
    (ipcKmsgCopyinBody ipcTables limits () nullThenInvalid ⟨emptyWorld, [], false⟩).1 =
        .error .fault ∧
      (ipcKmsgCopyinBody ipcTables limits () nullThenInvalid ⟨emptyWorld, [], false⟩).2.calls =
        [.destroy (.null, .moveSend)] ∧
      ¬ Released nullThenInvalid
        (ipcKmsgCopyinBody ipcTables limits () nullThenInvalid ⟨emptyWorld, [], false⟩) := by
  have hcalls : (ipcKmsgCopyinBody ipcTables limits () nullThenInvalid
      ⟨emptyWorld, [], false⟩).2.calls = [.destroy (.null, .moveSend)] := rfl
  refine ⟨rfl, hcalls, fun hr => ?_⟩
  have hsub := hr.1.subset
  rw [hcalls] at hsub
  revert hsub
  decide

end Osfmk.Body

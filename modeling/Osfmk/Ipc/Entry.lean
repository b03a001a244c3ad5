import Mathlib

/-!
# Port names and capability entries

`mach/port.h`, `ipc/port.h` and `ipc/ipc_entry.h`: a port name is a 32-bit word whose
upper 24 bits are an index and whose lower 8 bits are a generation number; an entry
records what a space holds under a name.
-/

namespace Osfmk

def machPortNull : ℕ := 0

def machPortDead : ℕ := 2 ^ 32 - 1

/-- `MACH_PORT_VALID`, on 32-bit names. -/
def MachPortValid (name : ℕ) : Prop := name ≠ machPortNull ∧ name < machPortDead

instance (name : ℕ) : Decidable (MachPortValid name) :=
  inferInstanceAs (Decidable (_ ∧ _))

/-- `MACH_PORT_INDEX(name)`: `name >> 8`. -/
def machPortIndex (name : ℕ) : ℕ := name / 256

/-- `MACH_PORT_GEN(name)`: `(name & 0xff) << 24`, the generation field of `ie_bits`,
here without the shift. -/
def machPortGen (name : ℕ) : ℕ := name % 256

/-- `MACH_PORT_MAKE(index, gen)`: `(index << 8) | (gen >> 24)` in 32 bits. -/
def machPortMake (index gen : ℕ) : ℕ := (index * 256 + gen) % 2 ^ 32

section Names

variable {i g n : ℕ}

theorem make_eq (hi : i < 2 ^ 24) (hg : g < 256) : machPortMake i g = i * 256 + g := by
  unfold machPortMake; omega

theorem index_make (hi : i < 2 ^ 24) (hg : g < 256) : machPortIndex (machPortMake i g) = i := by
  rw [make_eq hi hg, machPortIndex]; omega

theorem gen_make (hi : i < 2 ^ 24) (hg : g < 256) : machPortGen (machPortMake i g) = g := by
  rw [make_eq hi hg, machPortGen]; omega

theorem make_index_gen (hn : n < 2 ^ 32) : machPortMake (machPortIndex n) (machPortGen n) = n := by
  unfold machPortMake machPortIndex machPortGen; omega

theorem machPortGen_lt (n : ℕ) : machPortGen n < 256 := Nat.mod_lt _ (by decide)

theorem name_ext {m : ℕ} (hi : machPortIndex n = machPortIndex m)
    (hg : machPortGen n = machPortGen m) : n = m := by
  unfold machPortIndex at hi; unfold machPortGen at hg; omega

theorem make_le_iff (hi : i < 2 ^ 24) : machPortMake i 0 ≤ n ↔ i ≤ machPortIndex n := by
  rw [make_eq hi (by decide), machPortIndex]; omega

theorem lt_make_iff (hi : i < 2 ^ 24) : n < machPortMake i 0 ↔ machPortIndex n < i := by
  rw [make_eq hi (by decide), machPortIndex]; omega

theorem MachPortValid.lt (h : MachPortValid n) : n < 2 ^ 32 := by
  have := h.2; unfold machPortDead at this; omega

end Names

/-- `MACH_PORT_TYPE_*`: the values of `IE_BITS_TYPE` an entry can have. -/
inductive MachPortType
  | none
  | send
  | receive
  | sendReceive
  | sendOnce
  | portSet
  | deadName
  deriving DecidableEq, Inhabited

namespace MachPortType

/-- `bits & MACH_PORT_TYPE_SEND`. -/
def hasSend : MachPortType → Bool
  | send | sendReceive => true
  | _ => false

/-- `bits & MACH_PORT_TYPE_RECEIVE`. -/
def hasReceive : MachPortType → Bool
  | receive | sendReceive => true
  | _ => false

/-- `bits & MACH_PORT_TYPE_SEND_RIGHTS`. -/
def hasSendRights : MachPortType → Bool
  | send | sendReceive | sendOnce => true
  | _ => false

end MachPortType

/-- The word `ie_bits`: the generation (`IE_BITS_GEN`, 8 bits), the collision bit, the
type and the user references (16 bits). -/
structure IeBits where
  gen : ℕ
  collision : Bool
  type : MachPortType
  urefs : ℕ
  deriving DecidableEq, Inhabited

namespace IeBits

/-- All bits zero. -/
def zero : IeBits := ⟨0, false, .none, 0⟩

/-- `IE_BITS_GEN_MASK`: the generation of an entry never used. -/
def genMask : IeBits := ⟨255, false, .none, 0⟩

/-- `IE_BITS_NEW_GEN(bits)`: the next generation, by `IE_BITS_GEN_ONE`; the other bits
are masked off. -/
def newGen (bits : IeBits) : IeBits := ⟨(bits.gen + 4) % 256, false, .none, 0⟩

/-- `bits | MACH_PORT_GEN(name)`. -/
def orGen (bits : IeBits) (name : ℕ) : IeBits :=
  { bits with gen := bits.gen ||| machPortGen name }

/-- `bits | IE_BITS_COLLISION`. -/
def setCollision (bits : IeBits) : IeBits := { bits with collision := true }

/-- `bits &~ IE_BITS_COLLISION`. -/
def clearCollision (bits : IeBits) : IeBits := { bits with collision := false }

/-- `bits & IE_BITS_GEN_MASK`. -/
def maskGen (bits : IeBits) : IeBits := ⟨bits.gen, false, .none, 0⟩

end IeBits

/-- What an `ipc_object_t` can be: `IO_NULL`, `IO_DEAD`, a port or a port set. -/
inductive IpcObject
  | null
  | dead
  | port (p : ℕ)
  | pset (p : ℕ)
  deriving DecidableEq, Inhabited

/-- `struct ipc_entry`. -/
structure IpcEntry where
  ieBits : IeBits
  ieObject : IpcObject
  ieRequest : ℕ
  deriving DecidableEq, Inhabited

/-- `ie_next`, the other reading of `ie_request`. -/
def IpcEntry.ieNext (e : IpcEntry) : ℕ := e.ieRequest

/-- An entry of a zeroed table. -/
def IpcEntry.zero : IpcEntry := ⟨.zero, .null, 0⟩

/-- An `ipc_entry_t`: the address of a slot of the table, or of the tree entry called
`name`. -/
inductive IpcEntryRef
  | slot (index : ℕ)
  | node (name : ℕ)
  deriving DecidableEq

/-- `kern_return_t`. -/
inductive KernReturn
  | success
  | noSpace
  | failure
  | resourceShortage
  | nameExists
  | invalidName
  | invalidArgument
  | invalidTask
  | invalidRight
  | invalidValue
  | invalidCapability
  | urefsOverflow
  | rightExists
  deriving DecidableEq

end Osfmk

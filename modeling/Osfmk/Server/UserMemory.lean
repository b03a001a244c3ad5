import Mathlib

/-!
# The cache of user memory

`osfmach3/server/user_memory.c`: the Linux server maps ranges of its users' memory into itself, to copy
in and out, and keeps the mappings in a cache.  A region is found through two hints of its task or
through a hash chain; it is on the list of its task and on a list of all regions, the most recently
used one first, whose initial part is "fresh" and is not reordered.
-/

open Function (update)

namespace Osfmk

/-- `vm_prot_t`. -/
abbrev VmProt := BitVec 32

/-- `struct user_memory`, without its links and without `is_fresh`. -/
structure UmRegion (T : Type) where
  task : T
  userPage : ℕ
  svrAddr : ℕ
  size : ℕ
  prot : VmProt
  refCount : ℕ
  deriving DecidableEq

/-- `PAGE_SIZE`. -/
def umPage : ℕ := 4096

/-- A 32-bit word. -/
def umWord (a : ℕ) : ℕ := a % 2 ^ 32

def alignAddrDown (addr : ℕ) : ℕ := addr / umPage * umPage

def alignAddrUp (addr : ℕ) : ℕ := umWord (addr + (umPage - 1)) / umPage * umPage

def pagenumToAddr (num : ℕ) : ℕ := umWord (num * umPage)

def addrToPagenum (addr : ℕ) : ℕ := addr / umPage

def userHashSize : ℕ := 997

def userMemorySize : ℕ := userHashSize * 4

def numFreshBlocks : ℕ := userMemorySize / 3

def userMemoryHash (pid pageNum : ℕ) : ℕ := (umWord (pageNum * 2 ^ 15) ^^^ pid) % userHashSize

/-- The cache, over tasks `T` and addresses `R` of regions. -/
structure Cache (T R : Type) where
  /-- The regions that have been allocated and not freed. -/
  regions : R → Option (UmRegion T)
  chain : ℕ → List R
  intask : T → List R
  mru : List R
  fresh : R → Bool
  oldestFresh : Option R
  umHint1 : T → Option R
  umHint2 : T → Option R
  pid : T → ℕ
  machAware : T → Bool
  user : T → ℕ → Option VmProt
  server : ℕ → Option (T × ℕ)

namespace Cache

variable {T R : Type} [DecidableEq T] [DecidableEq R]

/-- When `vm_remap` can map a range of a task at `svrAddr` in the server. -/
def Remappable (s : Cache T R) (task : T) (userAddr size svrAddr : ℕ) : Prop :=
  size ≠ 0 ∧ userAddr + size ≤ 2 ^ 32 ∧ svrAddr % umPage = 0 ∧ svrAddr + size ≤ 2 ^ 32 ∧
    ∀ i < size / umPage, (s.user task (userAddr / umPage + i)).isSome = true ∧
      s.server (svrAddr / umPage + i) = none

instance (s : Cache T R) (task : T) (userAddr size svrAddr : ℕ) :
    Decidable (s.Remappable task userAddr size svrAddr) := by
  unfold Remappable
  infer_instance

/-- The protection that `vm_remap` returns: what all pages of the range allow. -/
def curProtection (s : Cache T R) (task : T) (page : ℕ) : ℕ → VmProt
  | 0 => 7
  | n + 1 => s.curProtection task page n &&& (s.user task (page + n)).getD 0

/-- `vm_remap`, at an address of the kernel's choice. -/
def vmRemap (s : Cache T R) (task : T) (userAddr size svrAddr : ℕ) : Cache T R :=
  { s with server := fun p =>
      if svrAddr / umPage ≤ p ∧ p < svrAddr / umPage + size / umPage then
        some (task, userAddr / umPage + (p - svrAddr / umPage))
      else s.server p }

/-- `vm_deallocate`, in the server. -/
def vmDeallocate (s : Cache T R) (svrAddr size : ℕ) : Cache T R :=
  { s with server := fun p =>
      if svrAddr / umPage ≤ p ∧ p < svrAddr / umPage + size / umPage then none else s.server p }

/-- The region after `r` on a list. -/
def next (r : R) : List R → Option R
  | a :: b :: l => if a = r then some b else next r (b :: l)
  | _ => none

def setRegion (s : Cache T R) (r : R) (x : UmRegion T) : Cache T R :=
  { s with regions := update s.regions r (some x) }

def insertMru (s : Cache T R) (r : R) : Option (Cache T R) :=
  let s := { s with mru := r :: s.mru, fresh := update s.fresh r true }
  if numFreshBlocks < s.mru.length then
    s.oldestFresh.bind fun o =>
      (next o s.mru.reverse).map fun p =>
        { s with fresh := update s.fresh o false, oldestFresh := some p }
  else if s.oldestFresh = none then some { s with oldestFresh := some r }
  else some s

/-- `delete_mru`, before the region is unlinked. -/
def refreshMru (s : Cache T R) (r : R) : Option (Cache T R) :=
  if s.fresh r = true ∧ numFreshBlocks < s.mru.length then
    s.oldestFresh.bind fun o =>
      (next o s.mru).map fun n =>
        { s with fresh := update s.fresh n true, oldestFresh := some n }
  else some s

def deleteMru (s : Cache T R) (r : R) : Option (Cache T R) :=
  (s.refreshMru r).map fun s => { s with mru := s.mru.erase r }

/-- What `user_memory_delete` does to the hints of a task. -/
def dropHints (s : Cache T R) (r : R) (t : T) : Cache T R :=
  let s := if s.umHint2 t = some r then
      { s with umHint2 := update s.umHint2 t none } else s
  if s.umHint1 t = some r then
    { s with
      umHint1 := update s.umHint1 t (s.umHint2 t)
      umHint2 := update s.umHint2 t none }
  else s

/-- What `user_memory_delete` does to the hash chain; a region that is not on it is a fatal bug. -/
def unchain (s : Cache T R) (r : R) (x : UmRegion T) : Option (Cache T R) :=
  if r ∈ s.chain (userMemoryHash (s.pid x.task) x.userPage) then
    some { s with
      chain := update s.chain (userMemoryHash (s.pid x.task) x.userPage)
        ((s.chain (userMemoryHash (s.pid x.task) x.userPage)).erase r) }
  else none

def userMemoryDelete (s : Cache T R) (r : R) (doTaskList : Bool) : Option (Cache T R) :=
  (s.regions r).bind fun x =>
    (s.deleteMru r).bind fun s =>
      let s := s.dropHints r x.task
      let s := if doTaskList then
          { s with intask := update s.intask x.task ((s.intask x.task).erase r) }
        else s
      s.unchain r x

/-- `unmap_region`, once nobody uses the region. -/
def unmapRegion (s : Cache T R) (r : R) (x : UmRegion T) : Cache T R :=
  { s.vmDeallocate x.svrAddr x.size with regions := update s.regions r none }

/-- `user_memory_delete` and `unmap_region`, for a region that nobody uses. -/
def flushRegion (s : Cache T R) (r : R) : Option (Cache T R) :=
  (s.regions r).bind fun x =>
    if x.refCount = 0 then (s.userMemoryDelete r true).map fun s => s.unmapRegion r x
    else none

/-- `user_memory_flush_lru`; the caller would try for ever to flush a region that is in use. -/
def userMemoryFlushLru (s : Cache T R) : Option (Cache T R) := s.mru.getLast?.bind s.flushRegion

/-- The loop of `user_memory_insert`; each turn takes one region away. -/
def makeRoom : ℕ → Cache T R → Option (Cache T R)
  | 0, s => some s
  | n + 1, s => s.userMemoryFlushLru.bind (makeRoom n)

def userMemoryInsert (s : Cache T R) (r : R) (x : UmRegion T) : Option (Cache T R) :=
  (makeRoom (s.mru.length + 1 - userMemorySize) s).bind fun s =>
    { s with
      chain := update s.chain (userMemoryHash (s.pid x.task) x.userPage)
        (r :: s.chain (userMemoryHash (s.pid x.task) x.userPage))
      intask := update s.intask x.task (r :: s.intask x.task) }.insertMru r

/-- The range of a region, as `user_memory_lookup` tests a hint. -/
def inHint (x : UmRegion T) (addr size : ℕ) : Bool :=
  decide (pagenumToAddr x.userPage ≤ addr) &&
    decide (umWord (addr + size) < umWord (pagenumToAddr x.userPage + x.size))

/-- A hint that is good for a range. -/
def goodHint (s : Cache T R) (hint : Option R) (addr size : ℕ) : Option R :=
  hint.filter fun r => (s.regions r).any fun x => inHint x addr size

/-- The hints of a task. -/
def hinted (s : Cache T R) (task : T) (addr size : ℕ) : Option R :=
  (s.goodHint (s.umHint1 task) addr size).or (s.goodHint (s.umHint2 task) addr size)

/-- What `user_memory_slow_lookup` finds: nothing, a region that has to be extended, or one that covers
the range. -/
inductive Found (R : Type)
  | miss
  | short (r : R)
  | whole (r : R)
  deriving DecidableEq

/-- The region on a hash chain that begins with a page of a task. -/
def onChain (s : Cache T R) (task : T) (pagenum : ℕ) : Option R :=
  (s.chain (userMemoryHash (s.pid task) pagenum)).find? fun r =>
    (s.regions r).any fun x => decide (x.task = task) && decide (x.userPage = pagenum)

def pageoffset (userAddr : ℕ) : ℕ := userAddr - pagenumToAddr (addrToPagenum userAddr)

/-- `user_memory_slow_lookup`, before it blocks. -/
def find (s : Cache T R) (task : T) (userAddr size : ℕ) : Found R :=
  match s.onChain task (addrToPagenum userAddr) with
  | none => .miss
  | some r =>
    if (s.regions r).any fun x => decide (x.size < umWord (pageoffset userAddr + size)) then .short r
    else .whole r

/-- The size of the range that `map_region` maps. -/
def mapSize (userAddr size : ℕ) : ℕ :=
  umWord (alignAddrUp (umWord (userAddr + size)) + 2 ^ 32 - alignAddrDown userAddr)

/-- `map_region`, after `vm_remap`, which has found room at `svrAddr`, if anywhere. -/
def mapRegion (s : Cache T R) (task : T) (userAddr size : ℕ) (svrAddr : Option ℕ) :
    Option (Cache T R × UmRegion T) :=
  svrAddr.bind fun a =>
    if s.Remappable task (alignAddrDown userAddr) (mapSize userAddr size) a then
      some (s.vmRemap task (alignAddrDown userAddr) (mapSize userAddr size) a,
        { task
          userPage := addrToPagenum (alignAddrDown userAddr)
          svrAddr := a
          size := mapSize userAddr size
          prot := s.curProtection task (addrToPagenum (alignAddrDown userAddr))
            (mapSize userAddr size / umPage)
          refCount := 0 })
    else none

/-- `user_memory_slow_lookup`, when the region is not in the cache; `new` is the address that `kmalloc`
returns. -/
def missed (s : Cache T R) (task : T) (userAddr size : ℕ) (svrAddr : Option ℕ) (new : R) :
    Option (Cache T R × Option R) :=
  match s.mapRegion task userAddr size svrAddr with
  | none => some (s, none)
  | some (s, x) =>
    if s.regions new = none then
      ((s.setRegion new x).userMemoryInsert new x).map fun s => (s, some new)
    else none

/-- The region is put at the beginning of the list of all regions, if it is not fresh. -/
def touch (s : Cache T R) (r : R) : Option (Cache T R) :=
  if s.fresh r then some s
  else (s.deleteMru r).bind fun s => s.insertMru r

/-- `map_region_bigger`, after `vm_remap`. -/
def mapRegionBigger (s : Cache T R) (r : R) (x : UmRegion T) (newSize : ℕ) (svrAddr : Option ℕ) :
    Option (Cache T R) :=
  (s.mapRegion x.task (pagenumToAddr x.userPage) newSize svrAddr).map fun m =>
    (m.1.vmDeallocate x.svrAddr x.size).setRegion r { x with svrAddr := m.2.svrAddr, size := m.2.size }

/-- `user_memory_slow_lookup`, when the region has to be extended. -/
def extended (s : Cache T R) (r : R) (userAddr size : ℕ) (svrAddr : Option ℕ) :
    Option (Cache T R × Option R) :=
  (s.regions r).bind fun x =>
    match s.mapRegionBigger r x (umWord (pageoffset userAddr + size)) svrAddr with
    | none => some (s, none)
    | some s => (s.touch r).map fun s => (s, some r)

def userMemoryUnlock (s : Cache T R) (r : R) : Option (Cache T R) :=
  (s.regions r).bind fun x =>
    if x.refCount = 0 then none
    else
      let s := s.setRegion r { x with refCount := x.refCount - 1 }
      if x.refCount - 1 = 0 ∧ s.machAware x.task = true then s.flushRegion r else some s

/-- A region that `user_memory_flush_area` flushes. -/
def inArea (x : UmRegion T) (start stop : ℕ) : Bool :=
  decide (start < umWord (pagenumToAddr x.userPage + x.size)) &&
    decide (pagenumToAddr x.userPage < stop)

/-- The first pass of `user_memory_flush_task`. -/
def unlinkAll : List R → Cache T R → Option (Cache T R)
  | [], s => some s
  | r :: l, s => (s.userMemoryDelete r false).bind (unlinkAll l)

/-- The second pass of `user_memory_flush_task`. -/
def unmapAll : List R → Cache T R → Option (Cache T R)
  | [], s => some s
  | r :: l, s =>
    (s.regions r).bind fun x =>
      if x.refCount = 0 then unmapAll l (s.unmapRegion r x) else none

/-- The region becomes a hint. -/
def addHint (s : Cache T R) (task : T) (r : R) : Cache T R :=
  if s.umHint1 task = none then { s with umHint1 := update s.umHint1 task (some r) }
  else if s.umHint2 task = none then { s with umHint2 := update s.umHint2 task (some r) }
  else
    { s with
      umHint1 := update s.umHint1 task (s.umHint2 task)
      umHint2 := update s.umHint2 task (some r) }

/-- `user_memory_lookup`, from `found_region` on: the cache, the address in the server, the region. -/
def finish (s : Cache T R) (addr : ℕ) (prot : VmProt) (r : R) : Option (Cache T R × ℕ × Option R) :=
  (s.regions r).map fun x =>
    if prot &&& x.prot ≠ prot then (s, 0, none)
    else (s.setRegion r { x with refCount := x.refCount + 1 },
      umWord (x.svrAddr + addr + 2 ^ 32 - pagenumToAddr x.userPage), some r)

/-- `user_memory_lookup`, after the slow lookup. -/
def finishSlow (s : Cache T R) (task : T) (addr : ℕ) (prot : VmProt) :
    Option R → Option (Cache T R × ℕ × Option R)
  | none => some (s, 0, none)
  | some r => (s.addHint task r).finish addr prot r

end Cache

end Osfmk

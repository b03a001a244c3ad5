import Osfmk.Ipc.SplayTraverse
import Osfmk.Ipc.Table
import Osfmk.Lib.LinkedChain

/-!
# Spaces and the routines on their entries

`ipc/ipc_space.c` and `ipc/ipc_entry.c`: a space keeps its entries in a table, indexed
by the index part of a name, and in a splay tree for the names that do not fit or whose
slot is taken.  Entry 0 of the table is the head of the list of free slots.
-/

namespace Osfmk

/-- `struct ipc_space`. -/
structure IpcSpace where
  isActive : Bool
  /-- `is_table`; only the slots below `isTableSize` are storage. -/
  isTable : ℕ → IpcEntry
  isTableSize : ℕ
  /-- `is_table_next`, as an index into the array of sizes. -/
  isTableNext : ℕ
  isTree : IpcSplayTree IpcEntry
  isTreeTotal : ℕ
  /-- `is_tree_small`: number of small entries in the tree. -/
  isTreeSmall : ℕ
  /-- `is_tree_hash`: number of hashed entries in the tree. -/
  isTreeHash : ℕ

/-- The next answer of the memory allocator, and those after it. -/
def memAlloc : List Bool → Bool × List Bool
  | [] => (true, [])
  | b :: mem => (b, mem)

/-- `ipc_space_create`: a table of the size at `initial`, every slot but the first on
the free list, with generation -1. -/
def ipcSpaceCreate (T : TableSizes) (initial : ℕ) : IpcSpace where
  isActive := true
  isTable index :=
    if index < T.itsSize initial then
      ⟨.genMask, .null, if index + 1 = T.itsSize initial then 0 else index + 1⟩
    else .zero
  isTableSize := T.itsSize initial
  isTableNext := initial + 1
  isTree := ipcSplayTreeInit
  isTreeTotal := 0
  isTreeSmall := 0
  isTreeHash := 0

namespace IpcSpace

/-- Store into a slot of the table. -/
def setSlot (s : IpcSpace) (index : ℕ) (e : IpcEntry) : IpcSpace :=
  { s with isTable := Function.update s.isTable index e }

/-- `table[index].ie_next = next`. -/
def setNext (s : IpcSpace) (index next : ℕ) : IpcSpace :=
  s.setSlot index { s.isTable index with ieRequest := next }

/-- `table[index].ie_bits = bits`. -/
def setBits (s : IpcSpace) (index : ℕ) (bits : IeBits) : IpcSpace :=
  s.setSlot index { s.isTable index with ieBits := bits }

/-- `ipc_hash_global_delete`, as far as the space is concerned. -/
def hashGlobalDelete (s : IpcSpace) : IpcSpace := { s with isTreeHash := s.isTreeHash - 1 }

/-- `ipc_hash_global_insert`, as far as the space is concerned. -/
def hashGlobalInsert (s : IpcSpace) : IpcSpace := { s with isTreeHash := s.isTreeHash + 1 }

/-- What an entry pointer points at; `none` when it dangles. -/
def findEntry (s : IpcSpace) : IpcEntryRef → Option IpcEntry
  | .slot index => if index < s.isTableSize then some (s.isTable index) else none
  | .node name => s.isTree.toList.lookup name

/-- Writing through an entry pointer. -/
def modifyEntry (s : IpcSpace) (f : IpcEntry → IpcEntry) : IpcEntryRef → IpcSpace
  | .slot index => s.setSlot index (f (s.isTable index))
  | .node name => { s with isTree := s.isTree.modify name f }

end IpcSpace

/-- `ipc_hash_insert`: table entries go into the local hash, tree entries into the global
one. -/
def ipcHashInsert (s : IpcSpace) (name : ℕ) (entry : IpcEntryRef) : IpcSpace :=
  if machPortIndex name < s.isTableSize ∧ entry = .slot (machPortIndex name) then s
  else s.hashGlobalInsert

def ipcHashDelete (s : IpcSpace) (name : ℕ) (entry : IpcEntryRef) : IpcSpace :=
  if machPortIndex name < s.isTableSize ∧ entry = .slot (machPortIndex name) then s
  else s.hashGlobalDelete

/-- A lookup in the tree; it leaves the tree splayed. -/
def ipcEntryTreeLookup (s : IpcSpace) (name : ℕ) : Option IpcEntryRef × IpcSpace :=
  ((ipcSplayTreeLookup s.isTree name).1.map fun _ => .node name,
    { s with isTree := (ipcSplayTreeLookup s.isTree name).2 })

/-- `ipc_entry_tree_collision`: does the tree hold a name with the index of `name`? -/
def ipcEntryTreeCollision (s : IpcSpace) (name : ℕ) : Bool × IpcSpace :=
  let bounds := ipcSplayTreeBounds s.isTree name
  (decide (bounds.1.1 ≠ machPortLargest ∧ machPortIndex bounds.1.1 = machPortIndex name) ||
      decide (bounds.1.2 ≠ machPortSmallest ∧ machPortIndex bounds.1.2 = machPortIndex name),
    { s with isTree := bounds.2 })

def ipcEntryLookup (s : IpcSpace) (name : ℕ) : Option IpcEntryRef × IpcSpace :=
  let index := machPortIndex name
  if index < s.isTableSize then
    let entry := s.isTable index
    if entry.ieBits.gen ≠ machPortGen name then
      if entry.ieBits.collision then ipcEntryTreeLookup s name
      else (none, s)
    else if entry.ieBits.type = .none then (none, s)
    else (some (.slot index), s)
  else if s.isTreeTotal = 0 then (none, s)
  else ipcEntryTreeLookup s name

/-- `ipc_entry_get`: take the first free slot and give it its next generation; `none` is
`KERN_NO_SPACE`. -/
def ipcEntryGet (s : IpcSpace) : Option (ℕ × IpcEntryRef) × IpcSpace :=
  let firstFree := (s.isTable 0).ieNext
  if firstFree = 0 then (none, s)
  else
    let s := s.setNext 0 (s.isTable firstFree).ieNext
    let gen := (s.isTable firstFree).ieBits.newGen
    (some (machPortMake firstFree gen.gen, .slot firstFree),
      s.setSlot firstFree { s.isTable firstFree with ieBits := gen, ieRequest := 0 })

/-- The search for a table that holds `target` elements: stops at the size it returns,
together with the size before it. -/
def growSearch (T : TableSizes) (target : ℕ) : ℕ → ℕ → ℕ → ℕ × ℕ
  | 0, psize, its => (psize, its)
  | fuel + 1, psize, its =>
    if psize ≠ T.itsSize its ∧ T.itsSize its < target then
      growSearch T target fuel (T.itsSize its) (its + 1)
    else (psize, its)

/-- The size to grow to, or the code to return at once. -/
def growTarget (T : TableSizes) (s : IpcSpace) (target : Option ℕ) : Except KernReturn ℕ :=
  let osize := T.itsSize (s.isTableNext - 1)
  match target with
  | none => if osize = T.itsSize s.isTableNext then .error .noSpace else .ok s.isTableNext
  | some t =>
    if t ≤ osize then .error .success
    else
      let (psize, its) := growSearch T t T.last osize s.isTableNext
      if psize = T.itsSize its then .error .noSpace
      else if osize = T.itsSize its then .error .noSpace
      else .ok its

/-- The body of the loop that moves entries into the table: an entry whose slot is
taken stays in the tree and marks the collision. -/
def growMove (s : IpcSpace) (name : ℕ) (tentry : IpcEntry) : IpcSpace × Bool :=
  let index := machPortIndex name
  let bits := (s.isTable index).ieBits
  if bits ≠ .zero then (s.setBits index bits.setCollision, false)
  else
    let s := s.setSlot index ⟨tentry.ieBits.orGen name, tentry.ieObject, tentry.ieRequest⟩
    let s := if tentry.ieBits.type = .send then s.hashGlobalDelete else s
    ({ s with isTreeTotal := s.isTreeTotal - 1 }, true)

/-- The body of the loop that counts the entries for `is_tree_small`: the state is
`nosmall` and the last index seen. -/
def growCount (st : ℕ × ℕ) (name : ℕ) (_ : IpcEntry) : (ℕ × ℕ) × Bool :=
  (if machPortIndex name ≠ st.2 then (st.1 + 1, machPortIndex name) else st, false)

/-- Transfer the entries of the tree that fit a table grown from `osize` to `size` slots,
with `nsize` the size after that. -/
def growTree (s : IpcSpace) (osize size nsize : ℕ) : IpcSpace :=
  if 0 < s.isTreeTotal then
    let upper := ipcSplayTreeSplit s.isTree (machPortMake nsize 0)
    let small := ipcSplayTreeSplit upper.2 (machPortMake size 0)
    let move := ipcSplayTreeSplit small.2 (machPortMake osize 0)
    let moved := ipcSplayTraverse growMove s move.1
    let counted := ipcSplayTraverse growCount (0, 0) small.1
    { moved.1 with
      isTreeSmall := counted.1.1
      isTree := ipcSplayTreeJoin
        (ipcSplayTreeJoin (ipcSplayTreeJoin upper.1 counted.2) moved.2) move.2 }
  else s

/-- The loop that puts the unused slots of the new part on the free list, from the last
down to the first: the table and the head of the list. -/
def growFree (indexes : List ℕ) (table : ℕ → IpcEntry) (freeIndex : ℕ) : (ℕ → IpcEntry) × ℕ :=
  indexes.foldr (fun i st =>
    if (st.1 i).ieBits = .zero then
      (Function.update st.1 i { st.1 i with ieBits := .genMask, ieRequest := st.2 }, i)
    else st) (table, freeIndex)

/-- One growth of the table, to the size at `its`. -/
def growTo (T : TableSizes) (s : IpcSpace) (its : ℕ) : IpcSpace :=
  let osize := T.itsSize (s.isTableNext - 1)
  let size := T.itsSize its
  let s := { s with
    isTable := fun i => if i < osize then s.isTable i else .zero
    isTableSize := size
    isTableNext := its + 1 }
  let s := growTree s osize size (T.itsSize (its + 1))
  let freed := growFree (List.range' osize (size - osize)) s.isTable (s.isTable 0).ieNext
  { s with isTable := freed.1 }.setNext 0 freed.2

/-- The `do ... while` of `ipc_entry_grow_table`: it goes on while the next size pays for
itself in tree entries. -/
def growLoop (T : TableSizes) (target : Option ℕ) :
    ℕ → IpcSpace → List Bool → KernReturn × IpcSpace × List Bool
  | 0, s, mem => (.success, s, mem)
  | fuel + 1, s, mem =>
    match growTarget T s target with
    | .error kr => (kr, s, mem)
    | .ok its =>
      match memAlloc mem with
      | (false, mem) => (.resourceShortage, s, mem)
      | (true, mem) =>
        let s := growTo T s its
        if 0 < s.isTreeSmall ∧ (T.itsSize (its + 1) - T.itsSize its) * sizeofIpcEntry <
            s.isTreeSmall * sizeofIpcTreeEntry then growLoop T target fuel s mem
        else (.success, s, mem)

/-- `ipc_entry_grow_table`. -/
def ipcEntryGrowTable (T : TableSizes) (s : IpcSpace) (target : Option ℕ) (mem : List Bool) :
    KernReturn × IpcSpace × List Bool :=
  growLoop T target (T.last + 1 - s.isTableNext) s mem

/-- The loop of `ipc_entry_alloc`. -/
def allocLoop (T : TableSizes) :
    ℕ → IpcSpace → List Bool → Except KernReturn (ℕ × IpcEntryRef) × IpcSpace × List Bool
  | 0, s, mem => (.error .noSpace, s, mem)
  | fuel + 1, s, mem =>
    if s.isActive = false then (.error .invalidTask, s, mem)
    else
      match ipcEntryGet s with
      | (some r, s) => (.ok r, s, mem)
      | (none, s) =>
        match ipcEntryGrowTable T s none mem with
        | (.success, s, mem) => allocLoop T fuel s mem
        | (kr, s, mem) => (.error kr, s, mem)

def ipcEntryAlloc (T : TableSizes) (s : IpcSpace) (mem : List Bool) :
    Except KernReturn (ℕ × IpcEntryRef) × IpcSpace × List Bool :=
  allocLoop T (T.last + 2 - s.isTableNext) s mem

/-- Rip the slot of `name` out of the free list and hand it out; `none` when the search
of the list does not end. -/
def allocNameSlot (s : IpcSpace) (name : ℕ) : Option IpcSpace :=
  let index := machPortIndex name
  (findLink (fun i => (s.isTable i).ieNext) index s.isTableSize 0).map fun freeIndex =>
    let s := s.setNext freeIndex (s.isTable index).ieNext
    s.setSlot index { s.isTable index with
      ieBits := ⟨machPortGen name, false, .none, 0⟩, ieRequest := 0 }

/-- Insert a new tree entry for `name`. -/
def allocNameInsert (T : TableSizes) (s : IpcSpace) (name : ℕ) : IpcSpace :=
  let index := machPortIndex name
  let s := { s with isTreeTotal := s.isTreeTotal + 1 }
  let s :=
    if index < s.isTableSize then s.setBits index (s.isTable index).ieBits.setCollision
    else if index < T.itsSize s.isTableNext then
      match ipcEntryTreeCollision s name with
      | (false, s) => { s with isTreeSmall := s.isTreeSmall + 1 }
      | (true, s) => s
    else s
  { s with isTree := ipcSplayTreeInsert s.isTree name .zero }

/-- The loop of `ipc_entry_alloc_name`; `treeEntry` says whether a tree entry has been
allocated by an earlier iteration. -/
def allocNameLoop (T : TableSizes) (name : ℕ) : ℕ → Bool → IpcSpace → List Bool →
    Option (Except KernReturn IpcEntryRef × IpcSpace × List Bool)
  | 0, _, _, _ => none
  | fuel + 1, treeEntry, s, mem =>
    let index := machPortIndex name
    let entry := s.isTable index
    let its := T.itsSize s.isTableNext
    if s.isActive = false then some (.error .invalidTask, s, mem)
    else if 0 < index ∧ index < s.isTableSize ∧ entry.ieBits.type ≠ .none ∧
        entry.ieBits.gen = machPortGen name then some (.ok (.slot index), s, mem)
    else if 0 < index ∧ index < s.isTableSize ∧ entry.ieBits.type = .none then
      (allocNameSlot s name).map fun s => (.ok (.slot index), s, mem)
    else
      -- the tree may have the name already
      let found := if 0 < s.isTreeTotal then ipcEntryTreeLookup s name else (none, s)
      match found with
      | (some entry, s) => some (.ok entry, s, mem)
      | (none, s) =>
        if s.isTableSize ≤ index ∧ index < its ∧
            (its - s.isTableSize) * sizeofIpcEntry < (s.isTreeSmall + 1) * sizeofIpcTreeEntry then
          -- can save space by growing the table
          match ipcEntryGrowTable T s none mem with
          | (.success, s, mem) => allocNameLoop T name fuel treeEntry s mem
          | (kr, s, mem) => some (.error kr, s, mem)
        else if treeEntry then some (.ok (.node name), allocNameInsert T s name, mem)
        else
          match memAlloc mem with
          | (false, mem) => some (.error .resourceShortage, s, mem)
          | (true, mem) => allocNameLoop T name fuel true s mem

/-- `ipc_entry_alloc_name`; `none` when it does not return. -/
def ipcEntryAllocName (T : TableSizes) (s : IpcSpace) (name : ℕ) (mem : List Bool) :
    Option (Except KernReturn IpcEntryRef × IpcSpace × List Bool) :=
  allocNameLoop T name (T.last + 3 - s.isTableNext) false s mem

/-- The tree entries with the index of a slot, cut out of the tree by two splits: those
entries, those below and those above. -/
def deallocCut (s : IpcSpace) (index : ℕ) :
    IpcSplayTree IpcEntry × IpcSplayTree IpcEntry × IpcSplayTree IpcEntry :=
  let upper := ipcSplayTreeSplit s.isTree (machPortMake (index + 1) 0)
  let collisions := ipcSplayTreeSplit upper.2 (machPortMake index 0)
  (collisions.1, collisions.2, upper.1)

/-- The tree entry that moves into a slot when the slot is deallocated. -/
def deallocPick (s : IpcSpace) (index : ℕ) : Option (ℕ × IpcEntry) :=
  ipcSplayTreePick (deallocCut s index).1

/-- Deallocating a slot that names in the tree collide with: one of them moves into the
table. -/
def deallocCollision (s : IpcSpace) (index : ℕ) : IpcSpace :=
  let (collisions, small, upper) := deallocCut s index
  match deallocPick s index with
  | none => s
  | some (tname, tentry) =>
    let s := s.setSlot index ⟨tentry.ieBits.orGen tname, tentry.ieObject, tentry.ieRequest⟩
    let s := if tentry.ieBits.type = .send then s.hashGlobalDelete else s
    let collisions := ipcSplayTreeDelete collisions tname
    let s := { s with isTreeTotal := s.isTreeTotal - 1 }
    -- check if collision bit should still be on
    match ipcSplayTreePick collisions with
    | some _ =>
      { s.setBits index (s.isTable index).ieBits.setCollision with
        isTree := ipcSplayTreeJoin (ipcSplayTreeJoin upper collisions) small }
    | none => { s with isTree := ipcSplayTreeJoin upper small }

/-- Deallocating a slot nothing collides with: it goes to the front of the free list. -/
def deallocSlot (s : IpcSpace) (index : ℕ) : IpcSpace :=
  let s := s.setSlot index
    { s.isTable index with
      ieBits := (s.isTable index).ieBits.maskGen, ieRequest := (s.isTable 0).ieNext }
  s.setNext 0 index

/-- Deallocating a tree entry. -/
def deallocNode (T : TableSizes) (s : IpcSpace) (name : ℕ) : IpcSpace :=
  let index := machPortIndex name
  let s := { s with
    isTree := ipcSplayTreeDelete s.isTree name
    isTreeTotal := s.isTreeTotal - 1 }
  if index < s.isTableSize then
    match ipcEntryTreeCollision s name with
    | (false, s) => s.setBits index (s.isTable index).ieBits.clearCollision
    | (true, s) => s
  else if index < T.itsSize s.isTableNext then
    match ipcEntryTreeCollision s name with
    | (false, s) => { s with isTreeSmall := s.isTreeSmall - 1 }
    | (true, s) => s
  else s

def ipcEntryDealloc (T : TableSizes) (s : IpcSpace) (name : ℕ) (entry : IpcEntryRef) : IpcSpace :=
  let index := machPortIndex name
  if index < s.isTableSize ∧ entry = .slot index then
    if (s.isTable index).ieBits.collision then deallocCollision s index
    else deallocSlot s index
  else deallocNode T s name

end Osfmk

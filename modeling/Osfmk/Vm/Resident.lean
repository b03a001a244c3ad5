import Osfmk.Lib.Trace

/-!
# Resident pages

`vm/vm_resident.c`: the page structures, the queues and the table they are in, and the counters
kept about them.  A real page is on the free list, active, inactive, wired, gobbled, in limbo or
none of these; a fictitious page structure is free when it is in its zone.
-/

open Function (update)

namespace Osfmk.Resident

variable {P O : Type} [DecidableEq P] [DecidableEq O]

/-- `struct vm_page`: the fields that the routines here read. -/
structure Page (O : Type) where
  object : Option O
  offset : ℕ
  wireCount : ℕ
  inactive : Bool
  active : Bool
  free : Bool
  reference : Bool
  limbo : Bool
  pageout : Bool
  gobbled : Bool
  busy : Bool
  tabled : Bool
  fictitious : Bool
  isPrivate : Bool
  absent : Bool
  dirty : Bool
  cleaning : Bool
  physAddr : ℕ
  prepPinCount : ℕ
  deriving DecidableEq

def vmPageFictitiousAddr : ℕ := 2 ^ 32 - 1

/-- `vm_page_init`: `vm_page_template` with an address. -/
def vmPageInit (O : Type) (physAddr : ℕ) : Page O :=
  { object := none, offset := 0, wireCount := 0, inactive := false, active := false
    free := false, reference := false, limbo := false, pageout := false, gobbled := false
    busy := true, tabled := false, fictitious := false, isPrivate := false, absent := false
    dirty := false, cleaning := false, physAddr := physAddr, prepPinCount := 0 }

/-- What is fixed: the size of pages, the pages reserved for privileged threads, the hash
function, and what is asserted about objects. -/
structure Config (O : Type) where
  pageSize : ℕ
  freeReserved : ℤ
  hash : O → ℕ → ℕ
  internal : O → Bool
  size : O → ℕ
  pageout : O → Bool

/-- All pages, the queues they are in, the table and the counters. -/
structure PageWorld (P O : Type) where
  page : P → Page O
  queueFree : List P
  zone : List P
  queueActive : List P
  queueInactive : List P
  queueLimbo : List P
  freeCount : ℤ
  activeCount : ℤ
  inactiveCount : ℤ
  limboCount : ℤ
  limboRealCount : ℤ
  gobbleCount : ℤ
  wireCount : ℤ
  buckets : ℕ → List P
  memq : O → List P
  residentPageCount : O → ℤ

/-- A page is changed. -/
def PageWorld.set (w : PageWorld P O) (m : P) (pg : Page O) : PageWorld P O :=
  { w with page := update w.page m pg }

/-- The end of `vm_page_insert` and `vm_page_replace`: a page that has its object and its offset
is entered. -/
def enterPage (c : Config O) (w : PageWorld P O) (mem : P) (object : O) (offset : ℕ) :
    PageWorld P O :=
  let bucket := c.hash object offset
  { w.set mem { w.page mem with object := some object, offset := offset, tabled := true } with
    buckets := update w.buckets bucket (mem :: w.buckets bucket)
    memq := update w.memq object (w.memq object ++ [mem])
    residentPageCount :=
      update w.residentPageCount object (w.residentPageCount object + 1) }

def vmPageInsert (c : Config O) (w : PageWorld P O) (mem : P) (object : O) (offset : ℕ) :
    Option (PageWorld P O) :=
  if (w.page mem).tabled then none
  else if c.internal object ∧ c.size object ≤ offset then none
  else if c.pageout object ≠ (w.page mem).pageout then none
  else some (enterPage c w mem object offset)

/-- A page is taken out of its bucket and out of the list of its object. -/
def unhook (c : Config O) (w : PageWorld P O) (mem : P) (object : O) : PageWorld P O :=
  let bucket := c.hash object (w.page mem).offset
  { w.set mem { w.page mem with tabled := false } with
    buckets := update w.buckets bucket ((w.buckets bucket).erase mem)
    memq := update w.memq object ((w.memq object).erase mem)
    residentPageCount :=
      update w.residentPageCount object (w.residentPageCount object - 1) }

def vmPageRemove (c : Config O) (w : PageWorld P O) (mem : P) : Option (PageWorld P O) :=
  if (w.page mem).tabled = false ∨ (w.page mem).cleaning then none
  else
    match (w.page mem).object with
    | none => none
    | some object =>
      let w := unhook c w mem object
      some (w.set mem { w.page mem with object := none, offset := 0 })

def vmPageLookup (c : Config O) (w : PageWorld P O) (object : O) (offset : ℕ) : Option P :=
  (w.buckets (c.hash object offset)).find? fun mem =>
    (w.page mem).object = some object ∧ (w.page mem).offset = offset

def vmPageRename (c : Config O) (w : PageWorld P O) (mem : P) (newObject : O) (newOffset : ℕ) :
    Option (PageWorld P O) :=
  if (w.page mem).object = some newObject then none
  else (vmPageRemove c w mem).bind fun w => vmPageInsert c w mem newObject newOffset

def vmPageReleaseFictitious (w : PageWorld P O) (m : P) : Option (PageWorld P O) :=
  let pg := w.page m
  if pg.free ∨ pg.busy = false ∨ pg.fictitious = false ∨ pg.physAddr ≠ vmPageFictitiousAddr then none
  else some { w.set m { pg with free := true } with zone := m :: w.zone }

def vmPageRelease (w : PageWorld P O) (mem : P) : Option (PageWorld P O) :=
  let pg := w.page mem
  if pg.isPrivate ∨ pg.fictitious ∨ pg.free then none
  else some { w.set mem { pg with free := true } with
    queueFree := mem :: w.queueFree, freeCount := w.freeCount + 1 }

def vmPageGrabFictitious (w : PageWorld P O) : PageWorld P O × Option P :=
  match w.zone with
  | [] => (w, none)
  | m :: zone => ({ w.set m { w.page m with free := false } with zone := zone }, some m)

/-- `vm_page_grab`; it waits when there is no free page. -/
def vmPageGrab (c : Config O) (w : PageWorld P O) (vmPrivilege : Bool) :
    Option (PageWorld P O × Option P) :=
  if w.freeCount < c.freeReserved ∧ vmPrivilege = false then some (w, none)
  else
    match w.queueFree with
    | [] => none
    | mem :: queueFree =>
      some ({ w.set mem { w.page mem with free := false } with
        queueFree := queueFree, freeCount := w.freeCount - 1 }, some mem)

/-- A fictitious page takes over the memory of a page, which becomes fictitious;
`vm_page_convert`. -/
def takeMemory (w : PageWorld P O) (m realM : P) : PageWorld P O :=
  let pg := w.page m
  let w := { w.set m { pg with physAddr := (w.page realM).physAddr, fictitious := false } with
    activeCount := if pg.active then w.activeCount + 1 else w.activeCount
    inactiveCount :=
      if pg.active = false ∧ pg.inactive then w.inactiveCount + 1 else w.inactiveCount }
  w.set realM { w.page realM with physAddr := vmPageFictitiousAddr, fictitious := true }

def vmPageConvert (c : Config O) (w : PageWorld P O) (m : P) (vmPrivilege : Bool) :
    Option (PageWorld P O × Bool) :=
  let pg := w.page m
  if pg.busy = false ∨ pg.fictitious = false ∨ pg.dirty then none
  else
    (vmPageGrab c w vmPrivilege).bind fun
    | (w, none) => some (w, false)
    | (w, some realM) =>
      (vmPageReleaseFictitious (takeMemory w m realM) realM).map fun w => (w, true)

def vmPageReleaseLimbo (w : PageWorld P O) (m : P) : Option (PageWorld P O) :=
  let pg := w.page m
  if pg.limbo = false then none
  else if pg.fictitious then
    some { w with limboCount := w.limboCount + 1, queueLimbo := w.queueLimbo ++ [m] }
  else
    some { w with
      limboCount := w.limboCount + 1, limboRealCount := w.limboRealCount + 1
      queueLimbo := m :: w.queueLimbo }

def vmPageQueuesRemove (w : PageWorld P O) (mem : P) : Option (PageWorld P O) :=
  let pg := w.page mem
  if pg.active ∧ pg.inactive then none
  else if pg.active then
    some { w.set mem { pg with active := false } with
      queueActive := w.queueActive.erase mem
      activeCount := if pg.fictitious then w.activeCount else w.activeCount - 1 }
  else if pg.inactive then
    some { w.set mem { pg with inactive := false } with
      queueInactive := w.queueInactive.erase mem
      inactiveCount := if pg.fictitious then w.inactiveCount else w.inactiveCount - 1 }
  else some w

/-- The wiring and the gobbling of a page end; `vm_page_free`. -/
def dropWiring (w : PageWorld P O) (mem : P) : Option (PageWorld P O) :=
  let pg := w.page mem
  let real := pg.isPrivate = false ∧ pg.fictitious = false
  if pg.wireCount ≠ 0 then
    if pg.gobbled then none
    else
      some { w.set mem { pg with wireCount := 0 } with
        wireCount := if real then w.wireCount - 1 else w.wireCount }
  else if pg.gobbled then
    some { w.set mem { pg with gobbled := false } with
      wireCount := if real then w.wireCount - 1 else w.wireCount
      gobbleCount := w.gobbleCount - 1 }
  else some w

/-- The end of `vm_page_free`: the page structure or the page becomes free. -/
def freeClean (w : PageWorld P O) (mem : P) : Option (PageWorld P O) :=
  let pg := w.page mem
  if pg.prepPinCount ≠ 0 then none
  else
    let pg := { pg with busy := true, absent := false, dirty := false, reference := false }
    let pg := if pg.isPrivate then
      { pg with isPrivate := false, fictitious := true, physAddr := vmPageFictitiousAddr } else pg
    if pg.fictitious then vmPageReleaseFictitious (w.set mem pg) mem
    else vmPageRelease (w.set mem (vmPageInit O pg.physAddr)) mem

def vmPageFree (c : Config O) (w : PageWorld P O) (mem : P) : Option (PageWorld P O) :=
  let pg := w.page mem
  if pg.free ∨ pg.cleaning ∨ pg.pageout then none
  else
    (if pg.tabled then vmPageRemove c w mem else some w).bind fun w =>
    (vmPageQueuesRemove w mem).bind fun w =>
    (dropWiring w mem).bind fun w =>
    if (w.page mem).limbo then
      if (w.page mem).fictitious ∨ (w.page mem).absent then none else vmPageReleaseLimbo w mem
    else freeClean w mem

def vmPageReplace (c : Config O) (w : PageWorld P O) (mem : P) (object : O) (offset : ℕ) :
    Option (PageWorld P O) :=
  if (w.page mem).tabled then none
  else
    let w := w.set mem { w.page mem with object := some object, offset := offset }
    (match vmPageLookup c w object offset with
      | none => some w
      | some m => vmPageFree c (unhook c w m object) m).map
    fun w => enterPage c w mem object offset

/-- `vm_page_wire`; `wire_count` has 16 bits. -/
def vmPageWire (w : PageWorld P O) (mem : P) : Option (PageWorld P O) :=
  (if (w.page mem).wireCount = 0 then
    (vmPageQueuesRemove w mem).map fun w =>
      let pg := w.page mem
      { w.set mem { pg with gobbled := false } with
        wireCount := if pg.isPrivate = false ∧ pg.fictitious = false ∧ pg.gobbled = false then
          w.wireCount + 1 else w.wireCount
        gobbleCount := if pg.gobbled then w.gobbleCount - 1 else w.gobbleCount }
  else some w).bind fun w =>
  if (w.page mem).gobbled then none
  else some (w.set mem { w.page mem with wireCount := ((w.page mem).wireCount + 1) % 2 ^ 16 })

def vmPageGobble (w : PageWorld P O) (mem : P) : Option (PageWorld P O) :=
  let pg := w.page mem
  if pg.gobbled ∨ pg.wireCount ≠ 0 then none
  else some { w.set mem { pg with gobbled := true } with
    wireCount := if pg.isPrivate = false ∧ pg.fictitious = false then
      w.wireCount + 1 else w.wireCount
    gobbleCount := w.gobbleCount + 1 }

def vmPageUnwire (w : PageWorld P O) (mem : P) : Option (PageWorld P O) :=
  let pg := w.page mem
  if pg.wireCount = 0 then none
  else if pg.wireCount - 1 = 0 then
    if pg.isPrivate ∨ pg.fictitious then none
    else some { w.set mem { pg with wireCount := 0, active := true, reference := true } with
      wireCount := w.wireCount - 1
      queueActive := w.queueActive ++ [mem]
      activeCount := w.activeCount + 1 }
  else some (w.set mem { pg with wireCount := pg.wireCount - 1 })

/-- The beginning of `vm_page_activate` and `vm_page_deactivate`: a page is no longer gobbled. -/
def ungobble (w : PageWorld P O) (m : P) : Option (PageWorld P O) :=
  let pg := w.page m
  if pg.gobbled then
    if pg.wireCount ≠ 0 then none
    else some { w.set m { pg with gobbled := false } with
      wireCount := if pg.isPrivate = false ∧ pg.fictitious = false then
        w.wireCount - 1 else w.wireCount
      gobbleCount := w.gobbleCount - 1 }
  else some w

/-- A page is put at the end of the inactive queue. -/
def enterInactive (w : PageWorld P O) (m : P) : PageWorld P O :=
  let pg := w.page m
  { w.set m { pg with inactive := true } with
    queueInactive := w.queueInactive ++ [m]
    inactiveCount := if pg.fictitious then w.inactiveCount else w.inactiveCount + 1 }

def vmPageDeactivate (w : PageWorld P O) (m : P) : Option (PageWorld P O) :=
  (ungobble w m).bind fun w =>
  if (w.page m).isPrivate ∨ (w.page m).wireCount ≠ 0 then some w
  else
    (if (w.page m).active ∨ ((w.page m).inactive ∧ (w.page m).reference) then
      vmPageQueuesRemove (w.set m { w.page m with reference := false }) m
    else some w).map fun w =>
    if (w.page m).wireCount = 0 ∧ (w.page m).inactive = false then enterInactive w m else w

/-- A page is put at the end of the active queue. -/
def enterActive (w : PageWorld P O) (m : P) : PageWorld P O :=
  let pg := w.page m
  { w.set m { pg with active := true, reference := true } with
    queueActive := w.queueActive ++ [m]
    activeCount := if pg.fictitious then w.activeCount else w.activeCount + 1 }

/-- A page is taken out of the inactive queue. -/
def leaveInactive (w : PageWorld P O) (m : P) : PageWorld P O :=
  let pg := w.page m
  if pg.inactive then
    { w.set m { pg with inactive := false } with
      queueInactive := w.queueInactive.erase m
      inactiveCount := if pg.fictitious then w.inactiveCount else w.inactiveCount - 1 }
  else w

def vmPageActivate (w : PageWorld P O) (m : P) : Option (PageWorld P O) :=
  (ungobble w m).bind fun w =>
  if (w.page m).isPrivate then some w
  else
    let w := leaveInactive w m
    if (w.page m).wireCount = 0 then
      if (w.page m).active then none else some (enterActive w m)
    else some w

def vmPageLimboExchange (w : PageWorld P O) (limboM newM : P) : Option (PageWorld P O) :=
  let pg := w.page limboM
  if pg.limbo = false ∨ pg.fictitious ∨ pg.tabled ∨ (w.page newM).fictitious = false then none
  else
    let w := w.set newM { pg with limbo := false, prepPinCount := 0 }
    some (w.set limboM { vmPageInit O vmPageFictitiousAddr with
      fictitious := true, limbo := true, prepPinCount := pg.prepPinCount })

/-- A page leaves limbo. -/
def leaveLimbo (w : PageWorld P O) (m : P) : PageWorld P O :=
  let pg := w.page m
  { w.set m { pg with limbo := false } with
    queueLimbo := w.queueLimbo.erase m
    limboCount := w.limboCount - 1
    limboRealCount := if pg.fictitious then w.limboRealCount else w.limboRealCount - 1 }

/-- The first loop of `cleanup_limbo_queue`, over the pages that were in limbo. -/
def freeUnprepped (c : Config O) : List P → PageWorld P O → Option (PageWorld P O)
  | [], w => some w
  | m :: l, w =>
    if (w.page m).prepPinCount = 0 then (vmPageFree c (leaveLimbo w m) m).bind (freeUnprepped c l)
    else freeUnprepped c l w

/-- The second loop of `cleanup_limbo_queue`, for a number of real pages in limbo. -/
def exchangeReal (c : Config O) : ℕ → PageWorld P O → Option (PageWorld P O)
  | 0, w => some w
  | n + 1, w =>
    match w.queueLimbo with
    | [] => none
    | m :: queueLimbo =>
      if (w.page m).fictitious ∨ (w.page m).limbo = false then none
      else
        match vmPageGrabFictitious { w with queueLimbo := queueLimbo } with
        | (w, none) => some { w with queueLimbo := m :: w.queueLimbo }
        | (w, some freeM) =>
          (vmPageLimboExchange w m freeM).bind fun w =>
          (vmPageFree c { w with queueLimbo := w.queueLimbo ++ [m] } freeM).bind fun w =>
          exchangeReal c n { w with limboRealCount := w.limboRealCount - 1 }

def cleanupLimboQueue (c : Config O) (w : PageWorld P O) : Option (PageWorld P O) :=
  (freeUnprepped c w.queueLimbo w).bind fun w => exchangeReal c w.limboRealCount.toNat w

/-- The general insertion of `vm_page_free_list_sort`: before the first page with a greater
address; without one the page is not inserted. -/
def insertBefore (addr : P → ℕ) (m : P) : List P → List P
  | [] => []
  | m1 :: l => if addr m < addr m1 then m :: m1 :: l else m1 :: insertBefore addr m l

/-- A pass of the loop of `vm_page_free_list_sort`. -/
def sortInsert (addr : P → ℕ) (sortList : List P) (m : P) : List P :=
  match sortList.head?, sortList.getLast? with
  | some first, some last =>
    if addr m < addr first then m :: sortList
    else if addr last < addr m then sortList ++ [m]
    else insertBefore addr m sortList
  | _, _ => []

/-- `vm_page_free_list_sort`; the list must not be empty. -/
def vmPageFreeListSort (addr : P → ℕ) : List P → Option (List P)
  | [] => none
  | m :: l => some (l.foldl (sortInsert addr) [m])

/-- The loop of `vm_page_find_contiguous`: the pages before the contiguous ones, the contiguous
ones so far, and the pages after them. -/
def findContiguousLoop (addr : P → ℕ) (pageSize npages : ℕ) :
    List P → List P → Option ℕ → List P → Option (List P × List P × List P)
  | _, _, _, [] => none
  | before, run, prevAddr, m :: l =>
    let (before, run) :=
      if prevAddr = some (addr m) then (before, run) else (before ++ run, [])
    let run := run ++ [m]
    if run.length = npages then some (before, run, l)
    else findContiguousLoop addr pageSize npages before run (some (addr m + pageSize)) l

/-- Pages that were free are gobbled. -/
def gobbleRun (page : P → Page O) (run : List P) : P → Page O :=
  run.foldl (fun page m =>
    update page m { page m with free := false, gobbled := true }) page

def vmPageFindContiguous (c : Config O) (w : PageWorld P O) (npages : ℕ) :
    PageWorld P O × Option (List P) :=
  if npages < 1 then (w, none)
  else
    match findContiguousLoop (fun m => (w.page m).physAddr) c.pageSize npages [] [] none
        w.queueFree with
    | none => (w, none)
    | some (before, run, after) =>
      ({ w with
        page := gobbleRun w.page run
        queueFree := before ++ after
        freeCount := w.freeCount - npages
        gobbleCount := w.gobbleCount + npages }, some run)

/-- The loop of `cpm_allocate` that wires the pages. -/
def wireRun : List P → PageWorld P O → Option (PageWorld P O)
  | [], w => some w
  | m :: l, w =>
    let pg := w.page m
    if pg.active ∨ pg.inactive ∨ pg.isPrivate ∨ pg.fictitious ∨ pg.wireCount ≠ 0 ∨
        pg.gobbled = false then none
    else
      wireRun l { w.set m { pg with gobbled := false, wireCount := 1 } with
        wireCount := w.wireCount + 1, gobbleCount := w.gobbleCount - 1 }

/-- `cpm_allocate`; `vm_pages_available * page_size` is unsigned. -/
def cpmAllocate (c : Config O) (w : PageWorld P O) (size : ℕ) (wire : Bool) :
    Option (PageWorld P O × Option (List P)) :=
  if size % c.pageSize ≠ 0 then some (w, none)
  else if (w.freeCount - c.freeReserved) * c.pageSize % 2 ^ 32 < size then some (w, none)
  else
    (vmPageFreeListSort (fun m => (w.page m).physAddr) w.queueFree).bind fun queueFree =>
    match vmPageFindContiguous c { w with queueFree := queueFree } (size / c.pageSize) with
    | (w, none) => some (w, none)
    | (w, some pages) =>
      if wire then (wireRun pages w).map fun w => (w, some pages) else some (w, some pages)

/-- What others change of a page that is not free. -/
structure Touch where
  reference : Bool
  pageout : Bool
  busy : Bool
  absent : Bool
  dirty : Bool
  cleaning : Bool
  prepPinCount : ℕ
  deriving DecidableEq

/-- The operations. -/
inductive PageOp (P O : Type)
  | grab (vmPrivilege : Bool)
  | grabFictitious
  | convert (m : P) (vmPrivilege : Bool)
  | insert (mem : P) (object : O) (offset : ℕ)
  | replace (mem : P) (object : O) (offset : ℕ)
  | rename (mem : P) (newObject : O) (newOffset : ℕ)
  | remove (mem : P)
  | wire (mem : P)
  | unwire (mem : P)
  | gobble (mem : P)
  | activate (m : P)
  | deactivate (m : P)
  | free (mem : P)
  /-- The pageout daemon sends a page into limbo: the flag is set, then `vm_page_free`. -/
  | freeLimbo (mem : P)
  | cleanupLimboQueue
  | cpmAllocate (size : ℕ) (wire : Bool)
  | touch (m : P) (t : Touch)

/-- One operation. -/
def pageStep (c : Config O) (w : PageWorld P O) : PageOp P O → Option (PageWorld P O)
  | .grab vmPrivilege => (vmPageGrab c w vmPrivilege).map (·.1)
  | .grabFictitious => some (vmPageGrabFictitious w).1
  | .convert m vmPrivilege => (vmPageConvert c w m vmPrivilege).map (·.1)
  | .insert mem object offset => vmPageInsert c w mem object offset
  | .replace mem object offset => vmPageReplace c w mem object offset
  | .rename mem newObject newOffset => vmPageRename c w mem newObject newOffset
  | .remove mem => vmPageRemove c w mem
  | .wire mem => vmPageWire w mem
  | .unwire mem => vmPageUnwire w mem
  | .gobble mem => vmPageGobble w mem
  | .activate m => vmPageActivate w m
  | .deactivate m => vmPageDeactivate w m
  | .free mem => vmPageFree c w mem
  | .freeLimbo mem => vmPageFree c (w.set mem { w.page mem with limbo := true }) mem
  | .cleanupLimboQueue => cleanupLimboQueue c w
  | .cpmAllocate size wire => (cpmAllocate c w size wire).map (·.1)
  | .touch m t =>
    if (w.page m).free then none
    else some (w.set m { w.page m with
      reference := t.reference, pageout := t.pageout, busy := t.busy, absent := t.absent
      dirty := t.dirty, cleaning := t.cleaning, prepPinCount := t.prepPinCount })

/-- A run from a state. -/
def pageRun (c : Config O) (w : PageWorld P O) (ops : List (PageOp P O)) : Option (PageWorld P O) :=
  Trace.run (pageStep c) w ops

end Osfmk.Resident

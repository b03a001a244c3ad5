import Osfmk.Lib.Census
import Osfmk.Lib.Owners
import Osfmk.Lib.Trace
import Osfmk.Pager.Segment
import Osfmk.Pager.Vsmap

/-!
# The clusters of the paging segments and their owners

The objects of the default pager share the clusters of the paging segments (`dp_backing_store.c`).
A cluster is allocated for the entry of a map when a page is first written, and goes back when a write
fails, when the kernel takes back the last page that was written to it, and when the object dies.
-/

open Function (update)

namespace Osfmk.Paging

open Owners

/-- Where the operation stands that holds the lock on a map: a cluster of a segment has been reserved
for an entry, pages are left to be unmapped, or the entries from one on are left to be freed. -/
inductive Busy
  | idle
  | allocating (ps cluster newoff size : ℕ)
  | unmapping (offset length : ℕ)
  | deallocating (i : ℕ)
  deriving DecidableEq

/-- The paging segments, and the map of each object with what is being done to it. -/
structure Store (V : Type) where
  segs : ℕ → Option Segment
  vs : V → Option Vs
  busy : V → Busy

namespace Store

variable {V : Type} [DecidableEq V]

/-- The map of an object is changed, and the operation on it goes on. -/
def put (s : Store V) (v : V) (m : Option Vs) (b : Busy) : Store V :=
  { s with vs := update s.vs v m, busy := update s.busy v b }

/-- A segment is changed. -/
def setSeg (s : Store V) (p : ℕ) (g : Segment) : Store V :=
  { s with segs := update s.segs p (some g) }

/-- `ps_deallocate_cluster`; `none` stands for a panic. -/
def deallocateCluster (s : Store V) (p cluster : ℕ) : Option (Store V) :=
  (s.segs p).bind fun g => (g.deallocateCluster cluster).map fun g' => s.setSeg p g'

/-- `ps_select_segment`: a cluster is reserved in the chosen segment, if it has one. -/
def selectSegment (s : Store V) (choice : Option ℕ) : Option (ℕ × Segment) :=
  choice.bind fun p => (s.segs p).bind fun g =>
    if g.clcount ≠ 0 then some (p, { g with clcount := g.clcount - 1 }) else none

variable (clshift : ℕ)

/-- `VSCLSIZE`. -/
def clsize : ℕ := 2 ^ clshift

/-- `ps_clmap` with `CL_ALLOC`, up to `ps_select_segment`. -/
def clmapAlloc (s : Store V) (v : V) (m : Vs) (offset size : ℕ) (mem : Vs.Memory)
    (choice : Option ℕ) : Store V :=
  let cluster := offset / clsize clshift
  let newoff := offset % clsize clshift
  let r := m.reach cluster mem
  match if r.2 then r.1.lookup cluster else none with
  | none => s.put v (some r.1) .idle
  | some e =>
    if e.error then s.put v (some r.1) .idle
    else if e.isClr then
      match s.selectSegment choice with
      | none => s.put v (some r.1) .idle
      | some q => (s.setSeg q.1 q.2).put v (some r.1) (.allocating q.1 cluster newoff size)
    else
      s.put v (some (r.1.store cluster (e.setAllocs (clsize clshift) newoff size))) .idle

/-- `ps_clmap` with `CL_ALLOC`, from the second half of `ps_allocate_cluster` on. -/
def allocate (s : Store V) (v : V) (m : Vs) (p cluster newoff size : ℕ) : Option (Store V) :=
  (s.segs p).map fun g =>
    let e := VsMap.mapped g.allocateCluster.1 p
    (s.setSeg p g.allocateCluster.2).put v
      (some (m.store cluster (e.setAllocs (clsize clshift) newoff size))) .idle

/-- `ps_vs_write_complete`: `ps_clmap` with `CL_FIND`. -/
def writeComplete (s : Store V) (v : V) (m : Vs) (offset size error : ℕ) : Option (Store V) :=
  let cluster := offset / clsize clshift
  match if cluster < m.size then m.lookup cluster else none with
  | none => some s
  | some e =>
    if e.error then some s
    else if e.isClr then
      if error ≠ 0 then some (s.put v (some (m.store cluster (e.setErr error))) .idle) else some s
    else if size = 0 then some s
    else if error = 0 then
      some (s.put v (some (m.store cluster (e.setPgs (offset % clsize clshift) size))) .idle)
    else
      let s' := s.put v (some (m.store cluster (e.setErr error))) .idle
      if e.entry ≠ 0 then s'.deallocateCluster e.psindex.toNat e.entry.toNat else some s'

/-- One turn of the loop of `ps_clunmap`. -/
def unmap (s : Store V) (v : V) (m : Vs) (offset length : ℕ) : Option (Store V) :=
  let cluster := offset / clsize clshift
  if length = 0 then some (s.put v (some m) .idle)
  else match m.lookup cluster with
    | none => some (s.put v (some m) .idle)
    | some e =>
      if e.isClr then some (s.put v (some m) (.unmapping (offset + 1) (length - 1)))
      else
        let r := e.clrPgs (clsize clshift) (offset % clsize clshift) length
        let b := Busy.unmapping (offset + (length - r.2)) r.2
        if r.1.alloc = 0 then
          (s.put v (some (m.store cluster VsMap.clr)) b).deallocateCluster r.1.psindex.toNat
            r.1.entry.toNat
        else some (s.put v (some (m.store cluster r.1)) b)

/-- One turn of the loops of `ps_vstruct_dealloc` and `ps_dealloc_vsmap`, or the end of the object. -/
def free (s : Store V) (v : V) (m : Vs) (i : ℕ) : Option (Store V) :=
  if i < m.limit then
    let s' := s.put v (some m) (.deallocating (i + 1))
    match m.lookup i with
    | none => some s'
    | some e =>
      if !e.isClr && !e.error then s'.deallocateCluster e.psindex.toNat e.entry.toNat
      else some s'
  else some (s.put v none .idle)

end Store

/-- The steps: the beginning of an operation on an object, or its next section. -/
inductive Act (V : Type)
  | create (v : V) (size : ℕ) (fresh : ℕ → VsMap)
  | clmap (v : V) (offset size : ℕ) (mem : Vs.Memory) (choice : Option ℕ)
  | allocate (v : V)
  | writeComplete (v : V) (offset size error : ℕ)
  | clunmap (v : V) (offset length : ℕ)
  | unmap (v : V)
  | dealloc (v : V)
  | free (v : V)

variable {V : Type} [DecidableEq V] (clshift : ℕ)

/-- A step; it is refused when the lock on the map is held, and after a panic. -/
def step (s : Store V) : Act V → Option (Store V)
  | .create v size fresh =>
    if s.vs v = none then some (s.put v (some (Vs.create size fresh)) .idle) else none
  | .clmap v offset size mem choice =>
    (s.vs v).bind fun m => if s.busy v = .idle then
      some (s.clmapAlloc clshift v m offset size mem choice) else none
  | .allocate v =>
    (s.vs v).bind fun m =>
      match s.busy v with
      | .allocating p cluster newoff size => s.allocate clshift v m p cluster newoff size
      | _ => none
  | .writeComplete v offset size error =>
    (s.vs v).bind fun m => if s.busy v = .idle then
      s.writeComplete clshift v m offset size error else none
  | .clunmap v offset length =>
    (s.vs v).bind fun m =>
      if s.busy v = .idle ∧ offset + length ≤ m.size * Store.clsize clshift then
        some (s.put v (some m) (.unmapping offset length)) else none
  | .unmap v =>
    (s.vs v).bind fun m =>
      match s.busy v with
      | .unmapping offset length => s.unmap clshift v m offset length
      | _ => none
  | .dealloc v =>
    (s.vs v).bind fun m => if s.busy v = .idle then
      some (s.put v (some m) (.deallocating 0)) else none
  | .free v =>
    (s.vs v).bind fun m =>
      match s.busy v with
      | .deallocating i => s.free v m i
      | _ => none

end Osfmk.Paging

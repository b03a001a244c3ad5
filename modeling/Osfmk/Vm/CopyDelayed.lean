import Osfmk.Lib.Trace
import Osfmk.Vm.Object

/-!
# Asymmetric copies of an object

`vm_object_copy_delayed`: a copy object shadows the object it is a copy of, and a page of the
source is pushed into it before the page is written.  A push takes a fault, so the pages of the
source that the copy covers must not be write-enabled before they have been pushed.  Between the time a
copy is entered in the source and the time the pages are write-protected the routine may wait for paging
to end, with the source unlocked.
-/

open Function (update update_of_ne)
open List Option

namespace Osfmk

variable {D : Type} [Inhabited D]

/-- A copy that was returned: the range it is for starts at 0, and what the source contained
then. -/
structure Snapshot (D : Type) where
  copy : ℕ
  size : ℕ
  seen : ℕ → D

/-- The source with its shadows, and its copies. -/
structure CopyState (D : Type) where
  world : VmWorld D
  src : ℕ
  base : List ℕ
  /-- The pages of the source that are write-enabled in some pmap. -/
  writable : ℕ → Bool
  /-- The calls that have entered their copy in the source and have not write-protected its pages. -/
  waits : ℕ
  /-- The next object and the next pager to be allocated. -/
  fresh : ℕ
  freshPager : ℕ
  snapshots : List (Snapshot D)

/-- The page of the source at an offset, as a read sees it. -/
def CopyState.sourcePage (s : CopyState D) (f : ℕ) : D :=
  (s.world.contents (s.src :: s.base) f).getD default

def vmObjectAllocate (size : ℕ) : VmObject D :=
  { size := size, memq := [], refCount := 1, shadow := none, shadowOffset := 0, copy := none
    pagerCreated := false, pager := none, pagingOffset := 0, existenceMap := none
    internal := true, pagingInProgress := 0, absentCount := 0, alive := true }

/-- The new copy shadows the source and is entered in it; the call then waits for paging to end. -/
def attachCopy (s : CopyState D) (new copySize : ℕ) (world : VmWorld D) : CopyState D :=
  let world := world.modify new fun object =>
    { object with size := copySize, shadow := some s.src, shadowOffset := 0 }
  let world := world.modify s.src fun object =>
    { object with refCount := object.refCount + 1, copy := some new }
  { s with
    world := world
    waits := s.waits + 1
    fresh := s.fresh + 1 }

/-- The end of the call: the pages of the source in memory are write-protected. -/
def protectPages (s : CopyState D) : CopyState D :=
  { s with
    writable := fun f => s.writable f && (vmPageLookup (s.world.objects s.src) f).isNone
    waits := s.waits - 1 }

/-- `vm_object_copy_delayed` up to the wait; returns the copy. -/
def vmObjectCopyDelayed (s : CopyState D) (srcOffset size : ℕ) : CopyState D × ℕ :=
  let new := s.fresh
  match (s.world.objects s.src).copy with
  | some old =>
    let oldCopy := s.world.objects old
    if oldCopy.memq.length = 0 ∧ oldCopy.pagerCreated = false then
      -- it has not been modified
      ({ s with world := s.world.modify old fun object => { object with
          refCount := object.refCount + 1
          size := if object.size < srcOffset + size then srcOffset + size else object.size } },
        old)
    else
      let size := if srcOffset + size < oldCopy.size then oldCopy.size - srcOffset else size
      let world := s.world.modify new fun _ =>
        { vmObjectAllocate (srcOffset + size) with refCount := 2 }
      let world := world.modify s.src fun object => { object with refCount := object.refCount - 1 }
      let world := world.modify old fun object => { object with shadow := some new }
      (attachCopy s new (srcOffset + size) world, new)
  | none =>
    let world := s.world.modify new fun _ => vmObjectAllocate (srcOffset + size)
    (attachCopy s new (srcOffset + size) world, new)

/-- A page of data in memory. -/
def VmObject.addPage (object : VmObject D) (f : ℕ) (d : D) : VmObject D :=
  { object with memq := object.memq ++ [⟨f, false, d⟩] }

/-- `memory_object_data_initialize`: the pager writes a page that it does not have. -/
def dataInitialize (w : VmWorld D) (pager n : ℕ) (d : D) : VmWorld D :=
  w.setPaged pager n ((w.pagers pager n).or (some d))

/-- The copy push of `vm_fault_page`: a page of the source is about to be written. -/
def copyPush (w : VmWorld D) (c f : ℕ) (d : D) : VmWorld D :=
  let copyObject := w.objects c
  if copyObject.size ≤ f then w
  else if (vmPageLookup copyObject f).isSome then w
  else if vmExternalStateGet copyObject.existenceMap f = .exists then w
  else if copyObject.pagerCreated = false ∨
      vmExternalStateGet copyObject.existenceMap f = .absent then
    w.modify c fun object => object.addPage f d
  else
    match copyObject.pager with
    | none => w
    | some pager => dataInitialize w pager (f + copyObject.pagingOffset) d

/-- The page of the source is brought into memory. -/
def faultIn (s : CopyState D) (f : ℕ) : CopyState D :=
  if (vmPageLookup (s.world.objects s.src) f).isSome then s
  else { s with world := s.world.modify s.src fun object => object.addPage f (s.sourcePage f) }

/-- A page of the source in memory is written. -/
def storePage (s : CopyState D) (f : ℕ) (v : D) : CopyState D :=
  { s with world := s.world.modify s.src fun object => { object with
      memq := object.memq.map fun p => if p.offset = f then { p with data := v } else p } }

/-- A write to a page that is not write-enabled. -/
def writeFault (s : CopyState D) (f : ℕ) (v : D) : CopyState D :=
  let s := faultIn s f
  let world :=
    match (s.world.objects s.src).copy with
    | none => s.world
    | some c => copyPush s.world c f (s.sourcePage f)
  let s := storePage { s with world := world } f v
  { s with writable := update s.writable f true }

/-- `vm_object_pager_create`; an existence map may be too large to be allocated. -/
def createPager (s : CopyState D) (x : ℕ) (mapped : Bool) : CopyState D :=
  if (s.world.objects x).pager.isNone then
    { s with
      world := s.world.modify x fun object => { object with
        pagerCreated := true, pager := some s.freshPager, pagingOffset := 0
        existenceMap := if mapped then some fun _ => false else none }
      freshPager := s.freshPager + 1 }
  else s

/-- A page of an object is written to its pager and leaves memory. -/
def evictPage (s : CopyState D) (x f pager : ℕ) (d : D) : CopyState D :=
  let world := s.world.setPaged pager (f + (s.world.objects x).pagingOffset) (some d)
  { s with
    world := world.modify x fun object => { object with
      memq := object.memq.filter fun p => decide (p.offset ≠ f)
      existenceMap := object.existenceMap.map fun bits => update bits f true }
    writable := if x = s.src then update s.writable f false else s.writable }

/-- A page of an object is paged out. -/
def pageOut (s : CopyState D) (x f : ℕ) (mapped : Bool) : Option (CopyState D) :=
  (vmPageLookup (s.world.objects x) f).bind fun p =>
    let s := createPager s x mapped
    (s.world.objects x).pager.map fun pager => evictPage s x f pager p.data

/-- The events. -/
inductive CopyOp (D : Type)
  | copyDelayed (srcOffset size : ℕ)
  | protect
  | write (f : ℕ) (v : D)
  | pageOut (x f : ℕ) (mapped : Bool)

/-- One event; `none` when it cannot happen. -/
def copyStep (s : CopyState D) : CopyOp D → Option (CopyState D)
  | .copyDelayed srcOffset size =>
    let (s', copy) := vmObjectCopyDelayed s srcOffset size
    some { s' with
      snapshots := s.snapshots ++ [⟨copy, srcOffset + size, s.sourcePage⟩] }
  | .protect => if s.waits = 0 then none else some (protectPages s)
  | .write f v => some (if s.writable f then storePage s f v else writeFault s f v)
  | .pageOut x f mapped =>
    if x = s.src ∨ x ∈ s.snapshots.map (·.copy) then Osfmk.pageOut s x f mapped else none

/-- A run from a state. -/
def copyRun (s : CopyState D) (ops : List (CopyOp D)) : Option (CopyState D) :=
  Trace.run copyStep s ops

/-- **The condition on a copy**: when it reuses the last copy and makes it larger, no page of the
source that the last copy did not cover and does now is write-enabled. -/
def CopyState.Protected (s : CopyState D) (srcOffset size : ℕ) : Prop :=
  ∀ c, (s.world.objects s.src).copy = some c → (s.world.objects c).memq = [] →
    (s.world.objects c).pagerCreated = false →
    ∀ f, (s.world.objects c).size ≤ f → f < srcOffset + size → s.writable f = false

/-- **The condition on an event**: a copy is protected, and while a call waits no page of the source that is
write-enabled is written. -/
def CopyOp.Safe (s : CopyState D) : CopyOp D → Prop
  | .copyDelayed srcOffset size => s.Protected srcOffset size
  | .write f _ => s.writable f = true → s.waits = 0
  | _ => True

/-- Every event of a run meets the condition. -/
def CopiesProtected (s : CopyState D) (ops : List (CopyOp D)) : Prop :=
  Trace.Meets copyStep CopyOp.Safe s ops

/-- A copy: no page is absent, and the existence map is exact. -/
structure CopyOk (w : VmWorld D) (c : ℕ) : Prop where
  present : (w.objects c).Present
  offset : (w.objects c).shadowOffset = 0
  pager : (w.objects c).pagerCreated = (w.objects c).pager.isSome
  exact : ∀ bits, (w.objects c).existenceMap = some bits →
    ∀ f, bits f = true ↔ (w.pagedOut (w.objects c) f).isSome

/-- What some copies have themselves, from the first on. -/
def CopyState.pushed (s : CopyState D) (l : List ℕ) (f : ℕ) : Option D :=
  s.world.contents l f

/-- Each object has a pager of its own. -/
structure PagersApart (s : CopyState D) (l : List ℕ) : Prop where
  apart : ∀ x ∈ l, ∀ y ∈ l, ∀ pager, (s.world.objects x).pager = some pager →
    (s.world.objects y).pager = some pager → x = y
  old : ∀ x ∈ l, ∀ pager, (s.world.objects x).pager = some pager → pager < s.freshPager
  empty : ∀ pager, s.freshPager ≤ pager → ∀ f, s.world.pagers pager f = none

/-- **The invariant of the source and its copies**, the oldest copy first. -/
structure CopyInv (s : CopyState D) (up : List ℕ) : Prop where
  chain : s.world.Chain (up ++ s.src :: s.base).head? (up ++ s.src :: s.base)
  copy : (s.world.objects s.src).copy = up.getLast?
  sizes : up.Pairwise fun a b => (s.world.objects a).size ≤ (s.world.objects b).size
  fresh : ∀ x ∈ up ++ s.src :: s.base, x < s.fresh
  source : (s.world.objects s.src).Present
  copies : ∀ c ∈ up, CopyOk s.world c
  pagers : PagersApart s (up ++ s.src :: s.base)
  writable : ∀ f, s.writable f = true → (vmPageLookup (s.world.objects s.src) f).isSome
  guarded : s.waits = 0 → ∀ c, up.getLast? = some c → ∀ f < (s.world.objects c).size,
    s.writable f = true → (s.world.own c f).isSome
  snapshots : ∀ p ∈ s.snapshots, p.size ≤ (s.world.objects p.copy).size ∧
    ∃ pre post, up = pre ++ p.copy :: post ∧
      ∀ f < p.size, (s.pushed (p.copy :: post) f).getD (s.sourcePage f) = p.seen f

variable {s s' : CopyState D} {up : List ℕ} {f : ℕ}

variable {w : VmWorld D} {c f : ℕ}

omit [Inhabited D] in
theorem CopyOk.congr {w' : VmWorld D} (h : CopyOk w c) (hobj : w'.objects c = w.objects c)
    (hpaged : ∀ f, w'.pagedOut (w.objects c) f = w.pagedOut (w.objects c) f) : CopyOk w' c := by
  refine ⟨?_, ?_, ?_, fun bits hbits f => ?_⟩ <;> rw [hobj] at *
  · exact h.present
  · exact h.offset
  · exact h.pager
  · rw [hpaged]
    exact h.exact bits hbits f

omit [Inhabited D] in
theorem PagersApart.congr {l : List ℕ} (h : PagersApart s l)
    (hpager : ∀ x ∈ l, (s'.world.objects x).pager = (s.world.objects x).pager)
    (hfresh : s'.freshPager = s.freshPager) (hpagers : s'.world.pagers = s.world.pagers) :
    PagersApart s' l := by
  refine ⟨fun x hx y hy pager hpx hpy => ?_, fun x hx pager hpx => ?_, fun pager hp f => ?_⟩
  · rw [hpager x hx] at hpx
    rw [hpager y hy] at hpy
    exact h.apart x hx y hy pager hpx hpy
  · rw [hpager x hx] at hpx
    rw [hfresh]
    exact h.old x hx pager hpx
  · rw [hpagers]
    exact h.empty pager (hfresh ▸ hp) f

section

variable (h : CopyInv s up)
include h

theorem CopyInv.size_le_last {pre post : List ℕ} {last : ℕ}
    (hup : up = pre ++ c :: post) (hlast : up.getLast? = some last) :
    (s.world.objects c).size ≤ (s.world.objects last).size ∧ last ∈ c :: post := by
  have hl : (c :: post).getLast? = some last := by
    rw [hup, List.getLast?_append_of_ne_nil _ (cons_ne_nil c post)] at hlast
    exact hlast
  have hmem : last ∈ c :: post := List.mem_of_getLast? hl
  refine ⟨?_, hmem⟩
  have hp := h.sizes
  rw [hup] at hp
  have hp' := (pairwise_append.mp hp).2.1
  rcases mem_cons.mp hmem with rfl | hm
  · exact le_rfl
  · exact (pairwise_cons.mp hp').1 last hm

theorem CopyInv.nodup : (up ++ s.src :: s.base).Nodup :=
  Layers.Chain.nodup h.chain

theorem CopyInv.src_notMem : s.src ∉ up ∧ s.src ∉ s.base := by
  have hnd := h.nodup
  rw [nodup_append, List.nodup_cons] at hnd
  exact ⟨fun hm => hnd.2.2 s.src hm s.src mem_cons_self rfl, hnd.2.1.1⟩

theorem CopyInv.pushed_isSome {l : List ℕ} (hl : ∀ x ∈ l, x ∈ up)
    (hc : c ∈ l) (hown : (s.world.own c f).isSome) : (s.pushed l f).isSome :=
  Layers.contents_isSome (fun x hx => (h.copies x (hl x hx)).offset) hc hown

end

/-- The chain of objects, their sizes and the copies returned are the same. -/
structure SameShape (s s' : CopyState D) (up : List ℕ) : Prop where
  src : s'.src = s.src
  base : s'.base = s.base
  fresh : s'.fresh = s.fresh
  snapshots : s'.snapshots = s.snapshots
  copy : (s'.world.objects s.src).copy = (s.world.objects s.src).copy
  shadow : ∀ x ∈ up ++ s.src :: s.base, (s'.world.objects x).shadow = (s.world.objects x).shadow
  size : ∀ x ∈ up ++ s.src :: s.base, (s'.world.objects x).size = (s.world.objects x).size

theorem CopyInv.update (h : CopyInv s up) (hs : SameShape s s' up)
    (source : (s'.world.objects s.src).Present) (copies : ∀ c ∈ up, CopyOk s'.world c)
    (pagers : PagersApart s' (up ++ s.src :: s.base))
    (writable : ∀ f, s'.writable f = true → (vmPageLookup (s'.world.objects s.src) f).isSome)
    (guarded : s'.waits = 0 → ∀ c, up.getLast? = some c → ∀ f < (s.world.objects c).size,
      s'.writable f = true → (s'.world.own c f).isSome)
    (hvalue : ∀ pre c post, up = pre ++ c :: post → ∀ f < (s.world.objects c).size,
      (s'.pushed (c :: post) f).getD (s'.sourcePage f) =
        (s.pushed (c :: post) f).getD (s.sourcePage f)) : CopyInv s' up := by
  have hsize : ∀ c ∈ up, (s'.world.objects c).size = (s.world.objects c).size := fun c hc =>
    hs.size c (mem_append_left _ hc)
  refine ⟨?_, ?_, ?_, ?_, ?_, copies, ?_, ?_, fun hz c hc f hf => ?_, fun p hp => ?_⟩
  · rw [hs.src, hs.base]
    exact Layers.Chain.congr h.chain hs.shadow
  · rw [hs.src, hs.copy]
    exact h.copy
  · refine h.sizes.imp_of_mem fun ha hb hab => ?_
    rw [hsize _ ha, hsize _ hb]
    exact hab
  · rw [hs.src, hs.base, hs.fresh]
    exact h.fresh
  · rw [hs.src]
    exact source
  · rw [hs.src, hs.base]
    exact pagers
  · rw [hs.src]
    exact writable
  · rw [hsize c (List.mem_of_getLast? hc)] at hf
    exact guarded hz c hc f hf
  · rw [hs.snapshots] at hp
    obtain ⟨hle, pre, post, hup, hseen⟩ := h.snapshots p hp
    refine ⟨by rwa [hsize _ (by rw [hup]; simp)], pre, post, hup, fun f hf => ?_⟩
    rw [hvalue pre p.copy post hup f (by omega)]
    exact hseen f hf

theorem sourcePage_eq (s : CopyState D) (f : ℕ) :
    s.sourcePage f = ((s.world.own s.src f).or (s.world.contents s.base
      (f + s.world.shadowOffsetOf s.src))).getD default := rfl

theorem CopyInv.setMemq (h : CopyInv s up) (memq : List (VmPage D))
    (hpresent : ∀ p ∈ memq, p.absent = false)
    (hwritable : ∀ f, s.writable f = true → (pageData memq f).isSome)
    (hkeep : ∀ f, pageData memq f ≠ pageData (s.world.objects s.src).memq f →
      (pageData memq f).getD (s.sourcePage f) = s.sourcePage f ∧ (pageData memq f).isSome ∨
      ∀ c, up.getLast? = some c → f < (s.world.objects c).size → (s.world.own c f).isSome) :
    CopyInv { s with world := s.world.modify s.src fun object => { object with memq := memq } }
      up := by
  obtain ⟨hnotup, hnotbase⟩ := h.src_notMem
  have hne : ∀ c ∈ up, c ≠ s.src := fun c hc he => hnotup (he ▸ hc)
  have hbase : ∀ x ∈ s.base, x ≠ s.src := fun x hx he => hnotbase (he ▸ hx)
  have hobj : ∀ x, x ≠ s.src → (s.world.modify s.src fun object => { object with memq := memq }
      ).objects x = s.world.objects x := fun x hx => modify_objects_ne _ hx _
  have hself : (s.world.modify s.src fun object => { object with memq := memq }).objects s.src =
      { s.world.objects s.src with memq := memq } := modify_objects_self ..
  have hfield : ∀ {β : Type} (g : VmObject D → β), (∀ o : VmObject D, g { o with memq := memq } = g o) →
      ∀ x, g ((s.world.modify s.src fun object => { object with memq := memq }).objects x) =
        g (s.world.objects x) := fun g hg x => modify_field g hg _ _ x
  have hown : ∀ c ∈ up, (s.world.modify s.src fun object => { object with memq := memq }).own c =
      s.world.own c := fun c hc => modify_own_ne (hne c hc) _
  refine h.update ⟨rfl, rfl, rfl, rfl, hfield (·.copy) (fun _ => rfl) _,
    fun x _ => hfield (·.shadow) (fun _ => rfl) x, fun x _ => hfield (·.size) (fun _ => rfl) x⟩
    ?_ (fun c hc => (h.copies c hc).congr (hobj c (hne c hc)) fun _ => rfl)
    (h.pagers.congr (fun x _ => hfield (·.pager) (fun _ => rfl) x) rfl rfl) ?_
    (fun hz c hc f hf hw => ?_) fun pre c post hup f hf => ?_
  · rw [hself]
    exact hpresent
  · intro f hw
    have := hwritable f hw
    rw [hself]
    unfold pageData at this
    rw [isSome_map] at this
    exact this
  · rw [hown c (List.mem_of_getLast? hc)]
    exact h.guarded hz c hc f hf hw
  · have hpushed : CopyState.pushed
        { s with world := s.world.modify s.src fun object => { object with memq := memq } }
        (c :: post) f = s.pushed (c :: post) f := by
      refine Layers.contents_congr (fun x hx => ?_) f
      have hx' : x ∈ up := by
        rw [hup]
        exact mem_append_right _ hx
      exact ⟨hown x hx', hfield (·.shadowOffset) (fun _ => rfl) x⟩
    rw [hpushed]
    have hpresent' : ({ s.world.objects s.src with memq := memq } : VmObject D).Present := hpresent
    have hsource : CopyState.sourcePage
        { s with world := s.world.modify s.src fun object => { object with memq := memq } } f =
        (((pageData memq f).or (s.world.pagedOut (s.world.objects s.src) f)).or
          (s.world.contents s.base (f + s.world.shadowOffsetOf s.src))).getD default := by
      rw [sourcePage_eq, VmWorld.own]
      dsimp only
      rw [hself, hpresent'.resident_eq]
      have hoff := hfield (·.shadowOffset) (fun _ => rfl) s.src
      change VmWorld.shadowOffsetOf _ s.src = _ at hoff
      rw [hoff]
      congr 2
      exact Layers.contents_congr (fun x hx => ⟨modify_own_ne (hbase x hx) _,
        hfield (·.shadowOffset) (fun _ => rfl) x⟩) _
    by_cases hsame : pageData memq f = pageData (s.world.objects s.src).memq f
    · rw [hsource, hsame, ← h.source.resident_eq]
      rfl
    rcases hkeep f hsame with ⟨hget, hsome⟩ | hcovered
    · obtain ⟨d, hd⟩ := isSome_iff_exists.mp hsome
      rw [hd, getD_some] at hget
      rw [hsource, hd, some_or, some_or, getD_some, hget]
    obtain ⟨last, hlast⟩ : ∃ last, up.getLast? = some last := by
      rw [hup, List.getLast?_append_of_ne_nil _ (cons_ne_nil c post)]
      exact isSome_iff_exists.mp (by simp)
    obtain ⟨hle, hmem⟩ := h.size_le_last hup hlast
    obtain ⟨d, hd⟩ := isSome_iff_exists.mp (h.pushed_isSome
      (fun x hx => by rw [hup]; exact mem_append_right _ hx) hmem
      (hcovered last hlast (by omega)))
    rw [hd, getD_some, getD_some]

theorem CopyInv.faultIn (h : CopyInv s up) (f : ℕ) : CopyInv (faultIn s f) up ∧
      (vmPageLookup ((Osfmk.faultIn s f).world.objects s.src) f).isSome ∧
      (Osfmk.faultIn s f).src = s.src ∧ (Osfmk.faultIn s f).writable = s.writable := by
  unfold Osfmk.faultIn
  split
  · next hsome => exact ⟨h, hsome, rfl, rfl⟩
  next hnone =>
  have hdata : ∀ f', pageData ((s.world.objects s.src).memq ++ [⟨f, false, s.sourcePage f⟩]) f' =
      (pageData (s.world.objects s.src).memq f').or
        (if f = f' then some (s.sourcePage f) else none) := by
    intro f'
    rw [pageData_append, pageData_cons]
    rfl
  refine ⟨h.setMemq _ (fun p hp => ?_) (fun f' hw => ?_) fun f' hne => .inl ?_, ?_, rfl, rfl⟩
  · rcases mem_append.mp hp with hp | hp
    · exact h.source p hp
    · rw [mem_singleton.mp hp]
  · rw [hdata, isSome_or, pageData_isSome, h.writable f' hw]
    rfl
  · have hf : f = f' := by
      by_contra hc
      rw [hdata, if_neg hc, or_none] at hne
      exact hne rfl
    subst hf
    have hold : pageData (s.world.objects s.src).memq f = none := by
      rw [← not_isSome_iff_eq_none, pageData_isSome]
      exact hnone
    rw [hdata, hold, if_pos rfl]
    exact ⟨rfl, rfl⟩
  · dsimp only
    rw [modify_objects_self, ← pageData_isSome]
    show (pageData ((s.world.objects s.src).memq ++ [_]) f).isSome = true
    rw [hdata, if_pos rfl, isSome_or, Bool.or_eq_true]
    exact .inr rfl

theorem CopyInv.storePage (h : CopyInv s up) (v : D)
    (hpushed : ∀ c, up.getLast? = some c → f < (s.world.objects c).size →
      (s.world.own c f).isSome) : CopyInv (storePage s f v) up := by
  have hdata : ∀ (l : List (VmPage D)) f', pageData
      (l.map fun p => if p.offset = f then { p with data := v } else p) f' =
        if f' = f then (pageData l f').map fun _ => v else pageData l f' := by
    intro l f'
    induction l with
    | nil => simp [pageData]
    | cons p l ih =>
      rw [map_cons, pageData_cons, pageData_cons, ih]
      by_cases hp : p.offset = f
      · by_cases hf : f' = f
        · subst hf
          simp [hp]
        · simp [hp, hf, Ne.symm hf]
      · by_cases hf : f' = f
        · subst hf
          simp [hp]
        · simp [hp, hf]
  refine h.setMemq _ (fun p hp => ?_) (fun f' hw => ?_) fun f' hne => .inr ?_
  · obtain ⟨q, hq, rfl⟩ := mem_map.mp hp
    have := h.source q hq
    split <;> exact this
  · have := h.writable f' hw
    rw [← pageData_isSome] at this
    rw [hdata]
    split
    · rw [isSome_map]
      exact this
    · exact this
  · have hf : f' = f := by
      by_contra hc
      rw [hdata, if_neg hc] at hne
      exact hne rfl
    subst hf
    exact hpushed

/-- What an object has itself stays the same, but that the last copy may get the page the source
has. -/
def OwnKept (s s' : CopyState D) (up : List ℕ) (x f : ℕ) : Prop :=
  s'.world.own x f = s.world.own x f ∨
    up.getLast? = some x ∧ s.world.own x f = none ∧ s'.world.own x f = some (s.sourcePage f)

theorem CopyInv.change (h : CopyInv s up) (hs : SameShape s s' up) (hwaits : s'.waits = s.waits)
    (hoff : ∀ x ∈ up ++ s.src :: s.base,
      (s'.world.objects x).shadowOffset = (s.world.objects x).shadowOffset)
    (source : (s'.world.objects s.src).Present) (copies : ∀ c ∈ up, CopyOk s'.world c)
    (pagers : PagersApart s' (up ++ s.src :: s.base))
    (writable : ∀ f, s'.writable f = true →
      s.writable f = true ∧ (vmPageLookup (s'.world.objects s.src) f).isSome)
    (hown : ∀ x ∈ up ++ s.src :: s.base, ∀ f, OwnKept s s' up x f) : CopyInv s' up := by
  obtain ⟨hnotup, -⟩ := h.src_notMem
  have hnd := (nodup_append.mp h.nodup).2.2
  have hbelow : ∀ x ∈ s.src :: s.base, s'.world.own x = s.world.own x := by
    intro x hx
    funext f
    rcases hown x (mem_append_right _ hx) f with hsame | ⟨hlast, -⟩
    · exact hsame
    · exact absurd rfl (hnd x (List.mem_of_getLast? hlast) x hx)
  have hsource : ∀ f, s'.sourcePage f = s.sourcePage f := by
    intro f
    unfold CopyState.sourcePage
    rw [hs.src, hs.base]
    refine congrArg (Option.getD · default) (Layers.contents_congr (fun x hx => ?_) f)
    exact ⟨hbelow x hx, hoff x (mem_append_right _ hx)⟩
  refine h.update hs source copies pagers (fun f hf => (writable f hf).2) (fun hz c hc f hf hw => ?_)
    fun pre c post hup f hf => ?_
  · have hguard := h.guarded (hwaits ▸ hz) c hc f hf (writable f hw).1
    rcases hown c (mem_append_left _ (List.mem_of_getLast? hc)) f with hsame | ⟨-, hnone, -⟩
    · rw [hsame]
      exact hguard
    · rw [hnone] at hguard
      cases hguard
  obtain ⟨last, hlast⟩ : ∃ last, up.getLast? = some last := by
    rw [hup, List.getLast?_append_of_ne_nil _ (cons_ne_nil c post)]
    exact isSome_iff_exists.mp (by simp)
  obtain ⟨l, hl⟩ : ∃ l, c :: post = l ++ [last] := by
    rw [hup, List.getLast?_append_of_ne_nil _ (cons_ne_nil c post)] at hlast
    exact List.getLast?_eq_some_iff.mp hlast
  have hmem : ∀ x ∈ l ++ [last], x ∈ up := by
    intro x hx
    rw [hup, hl]
    exact mem_append_right _ hx
  have hzero : ∀ x ∈ l, s.world.shadowOffsetOf x = 0 := fun x hx =>
    (h.copies x (hmem x (mem_append_left _ hx))).offset
  have hzero' : ∀ x ∈ l, s'.world.shadowOffsetOf x = 0 := fun x hx =>
    (copies x (hmem x (mem_append_left _ hx))).offset
  -- only the last of the copies can have changed
  have hfirst : Layers.contents s'.world.own s'.world.shadowOffsetOf l f =
      Layers.contents s.world.own s.world.shadowOffsetOf l f := by
    refine Layers.contents_congr (fun x hx => ⟨?_, ?_⟩) f
    · funext f'
      rcases hown x (mem_append_left _ (hmem x (mem_append_left _ hx))) f' with
        hsame | ⟨hx', -⟩
      · exact hsame
      have hxl : x = last := some.inj (hx'.symm.trans hlast)
      subst hxl
      have hnodup : (l ++ [x]).Nodup := by
        have := (nodup_append.mp h.nodup).1
        rw [hup, hl] at this
        exact (nodup_append.mp this).2.1
      exact absurd rfl ((nodup_append.mp hnodup).2.2 x hx x (by simp))
    · rw [hzero x hx, hzero' x hx]
  have hlastmem : last ∈ up ++ s.src :: s.base := mem_append_left _ (hmem last (by simp))
  unfold CopyState.pushed VmWorld.contents
  rw [hl, Layers.contents_concat hzero', Layers.contents_concat hzero, hfirst, hsource]
  rcases hown last hlastmem f with hsame | ⟨-, hnone, hsome⟩
  · rw [hsame]
  · rw [hnone, hsome]
    cases Layers.contents s.world.own s.world.shadowOffsetOf l f <;> rfl

omit [Inhabited D] in
theorem CopyOk.lookup_isSome (h : CopyOk w c)
    (hsome : (vmPageLookup (w.objects c) f).isSome) : (w.own c f).isSome := by
  unfold VmWorld.own
  rw [isSome_or, h.present.resident, isSome_map, hsome]
  rfl

omit [Inhabited D] in
theorem CopyOk.paged_of_exists (h : CopyOk w c)
    (hstate : vmExternalStateGet (w.objects c).existenceMap f = .exists) :
    (w.pagedOut (w.objects c) f).isSome := by
  unfold vmExternalStateGet at hstate
  split at hstate
  · cases hstate
  · next bits hbits =>
    split at hstate
    · next hbit => exact (h.exact bits hbits f).mp hbit
    · cases hstate

omit [Inhabited D] in
theorem CopyOk.paged_of_absent (h : CopyOk w c)
    (hstate : (w.objects c).pagerCreated = false ∨
      vmExternalStateGet (w.objects c).existenceMap f = .absent) :
    w.pagedOut (w.objects c) f = none := by
  rcases hstate with hcreated | hstate
  · rw [h.pager, isSome_eq_false_iff, isNone_iff_eq_none] at hcreated
    rw [VmWorld.pagedOut, hcreated]
    rfl
  unfold vmExternalStateGet at hstate
  split at hstate
  · cases hstate
  next bits hbits =>
  split at hstate
  · cases hstate
  · next hbit =>
    by_contra hc
    exact hbit ((h.exact bits hbits f).mpr (isSome_iff_ne_none.mpr hc))

theorem CopyInv.addPage (h : CopyInv s up) (hlast : up.getLast? = some c)
    (hlookup : vmPageLookup (s.world.objects c) f = none)
    (hpaged : s.world.pagedOut (s.world.objects c) f = none) :
    CopyInv { s with world := s.world.modify c fun object => object.addPage f (s.sourcePage f) }
        up ∧
      ((s.world.modify c fun object => object.addPage f (s.sourcePage f)).own c f).isSome := by
  have hcup : c ∈ up := List.mem_of_getLast? hlast
  have hc := h.copies c hcup
  have hne : s.src ≠ c := fun he => h.src_notMem.1 (he ▸ hcup)
  have hself : (s.world.modify c fun object => object.addPage f (s.sourcePage f)).objects c =
      (s.world.objects c).addPage f (s.sourcePage f) := modify_objects_self ..
  have hobj : ∀ x, x ≠ c → (s.world.modify c fun object => object.addPage f (s.sourcePage f)
      ).objects x = s.world.objects x := fun x hx => modify_objects_ne _ hx _
  have hfield : ∀ {β : Type} (g : VmObject D → β),
      (∀ o : VmObject D, g (o.addPage f (s.sourcePage f)) = g o) → ∀ x,
      g ((s.world.modify c fun object => object.addPage f (s.sourcePage f)).objects x) =
        g (s.world.objects x) := fun g hg x => modify_field g hg _ _ x
  have hpresent : ((s.world.objects c).addPage f (s.sourcePage f)).Present := by
    intro p hp
    rcases mem_append.mp hp with hp | hp
    · exact hc.present p hp
    · rw [mem_singleton.mp hp]
  have hres : ∀ f', ((s.world.objects c).addPage f (s.sourcePage f)).resident f' =
      ((s.world.objects c).resident f').or (if f = f' then some (s.sourcePage f) else none) := by
    intro f'
    rw [hpresent.resident_eq, hc.present.resident_eq, VmObject.addPage, pageData_append,
      pageData_cons]
    rfl
  have hnone : (s.world.objects c).resident f = none := by
    rw [hc.present.resident, hlookup]
    rfl
  have hownc : ∀ f', (s.world.modify c fun object => object.addPage f (s.sourcePage f)).own c f' =
      (((s.world.objects c).resident f').or (if f = f' then some (s.sourcePage f) else none)).or
        (s.world.pagedOut (s.world.objects c) f') := by
    intro f'
    rw [VmWorld.own, hself, hres]
    rfl
  have hsome : (s.world.modify c fun object => object.addPage f (s.sourcePage f)).own c f =
      some (s.sourcePage f) := by
    rw [hownc, hnone, if_pos rfl]
    rfl
  refine ⟨h.change ⟨rfl, rfl, rfl, rfl, hfield (·.copy) (fun _ => rfl) _,
    fun x _ => hfield (·.shadow) (fun _ => rfl) x, fun x _ => hfield (·.size) (fun _ => rfl) x⟩
    rfl (fun x _ => hfield (·.shadowOffset) (fun _ => rfl) x) ?_ (fun x hx => ?_)
    (h.pagers.congr (fun x _ => hfield (·.pager) (fun _ => rfl) x) rfl rfl)
    (fun f' hw => ⟨hw, ?_⟩) fun x hx f' => ?_, by rw [hsome]; rfl⟩
  · rw [hobj _ hne]
    exact h.source
  · by_cases hxc : x = c
    · subst hxc
      refine ⟨?_, ?_, ?_, ?_⟩ <;> rw [hself]
      · exact hpresent
      · exact hc.offset
      · exact hc.pager
      · exact hc.exact
    · exact (h.copies x hx).congr (hobj x hxc) fun _ => rfl
  · dsimp only
    rw [hobj _ hne]
    exact h.writable f' hw
  · by_cases hxc : x = c
    · subst hxc
      by_cases hf : f = f'
      · subst hf
        refine .inr ⟨hlast, ?_, hsome⟩
        rw [VmWorld.own, hnone, hpaged]
        rfl
      · refine .inl ?_
        rw [hownc, if_neg hf, or_none]
        rfl
    · refine .inl ?_
      rw [modify_own_ne hxc]

omit [Inhabited D] in
theorem pagedOut_setPaged (w : VmWorld D) (object : VmObject D) (pager n : ℕ) (d : Option D)
    (f' : ℕ) :
    (w.setPaged pager n d).pagedOut object f' =
      if object.pager = some pager ∧ f' + object.pagingOffset = n then d
      else w.pagedOut object f' := by
  unfold VmWorld.pagedOut VmWorld.setPaged
  cases hp : object.pager with
  | none => simp
  | some pg =>
    by_cases hpg : pg = pager
    · subst hpg
      by_cases hn : f' + object.pagingOffset = n <;> simp [hn]
    · simp [hpg]

omit [Inhabited D] in
theorem own_setPaged (w : VmWorld D) (x pager n : ℕ) (d : Option D) (f' : ℕ) :
    (w.setPaged pager n d).own x f' = ((w.objects x).resident f').or
      (if (w.objects x).pager = some pager ∧ f' + (w.objects x).pagingOffset = n then d
      else w.pagedOut (w.objects x) f') := by
  rw [← pagedOut_setPaged]
  rfl

theorem CopyInv.initializePage (h : CopyInv s up) {pager : ℕ} (hlast : up.getLast? = some c)
    (hlookup : vmPageLookup (s.world.objects c) f = none)
    (hmap : (s.world.objects c).existenceMap = none)
    (hpager : (s.world.objects c).pager = some pager) :
    CopyInv { s with world := dataInitialize s.world pager
                        (f + (s.world.objects c).pagingOffset) (s.sourcePage f) } up ∧
      ((dataInitialize s.world pager (f + (s.world.objects c).pagingOffset) (s.sourcePage f)).own
        c f).isSome := by
  have hcup : c ∈ up := List.mem_of_getLast? hlast
  have hc := h.copies c hcup
  have hmemc : c ∈ up ++ s.src :: s.base := mem_append_left _ hcup
  have hold : s.world.pagedOut (s.world.objects c) f =
      s.world.pagers pager (f + (s.world.objects c).pagingOffset) := by
    rw [VmWorld.pagedOut, hpager]
    rfl
  have hother : ∀ x ∈ up ++ s.src :: s.base, x ≠ c → (s.world.objects x).pager ≠ some pager :=
    fun x hx hxc hp => hxc (h.pagers.apart x hx c hmemc pager hp hpager)
  have hres : (s.world.objects c).resident f = none := by
    rw [hc.present.resident, hlookup]
    rfl
  unfold dataInitialize
  rw [← hold]
  constructor
  · refine h.change ⟨rfl, rfl, rfl, rfl, rfl, fun _ _ => rfl, fun _ _ => rfl⟩ rfl (fun _ _ => rfl)
      h.source (fun x hx => ?_)
      ⟨h.pagers.apart, h.pagers.old, fun p hp f' => ?_⟩ (fun f' hw => ⟨hw, h.writable f' hw⟩)
      fun x hx f' => ?_
    · have hx' := h.copies x hx
      refine ⟨hx'.present, hx'.offset, hx'.pager, fun bits hbits f' => ?_⟩
      change (s.world.objects x).existenceMap = some bits at hbits
      have hxc : x ≠ c := by
        rintro rfl
        rw [hmap] at hbits
        cases hbits
      rw [pagedOut_setPaged, if_neg fun hc => hother x (mem_append_left _ hx) hxc hc.1]
      exact hx'.exact bits hbits f'
    · have hpg : p ≠ pager := by
        have := h.pagers.old c hmemc pager hpager
        change s.freshPager ≤ p at hp
        omega
      show Function.update s.world.pagers pager _ p f' = none
      rw [update_of_ne hpg]
      exact h.pagers.empty p hp f'
    · by_cases hcase : x = c ∧ f' = f
      · obtain ⟨rfl, rfl⟩ := hcase
        unfold OwnKept
        dsimp only
        rw [own_setPaged, if_pos ⟨hpager, rfl⟩, hres, VmWorld.own, hres]
        cases s.world.pagedOut (s.world.objects x) f' with
        | none => exact .inr ⟨hlast, rfl, rfl⟩
        | some d => exact .inl rfl
      · refine .inl ?_
        rw [own_setPaged, if_neg, VmWorld.own]
        rintro ⟨hp, hoff⟩
        by_cases hxc : x = c
        · subst hxc
          exact hcase ⟨rfl, by omega⟩
        · exact hother x hx hxc hp
  · rw [own_setPaged, if_pos ⟨hpager, rfl⟩, isSome_or, isSome_or]
    simp

omit [Inhabited D] in
theorem copyPush_size (w : VmWorld D) (c f : ℕ) (d : D) :
    ((copyPush w c f d).objects c).size = (w.objects c).size := by
  unfold copyPush
  dsimp only
  split
  · rfl
  split
  · rfl
  split
  · rfl
  split
  · rw [modify_objects_self]
    rfl
  split <;> rfl

/-- **The copy push**: what is read of the copies stays the same, and a page that the last copy
covers is in it. -/
theorem CopyInv.copyPush (h : CopyInv s up) (hlast : up.getLast? = some c) (f : ℕ) :
    CopyInv { s with world := copyPush s.world c f (s.sourcePage f) } up ∧
      (copyPush s.world c f (s.sourcePage f)).objects s.src = s.world.objects s.src ∧
      (f < (s.world.objects c).size →
        ((Osfmk.copyPush s.world c f (s.sourcePage f)).own c f).isSome) := by
  have hc := h.copies c (List.mem_of_getLast? hlast)
  have hne : s.src ≠ c := fun he => h.src_notMem.1 (he ▸ List.mem_of_getLast? hlast)
  unfold Osfmk.copyPush
  dsimp only
  split
  · next hsize => exact ⟨h, rfl, fun hf => by omega⟩
  split
  · next hsome => exact ⟨h, rfl, fun _ => hc.lookup_isSome hsome⟩
  next hlookup =>
  rw [not_isSome_iff_eq_none] at hlookup
  split
  · next hstate =>
    refine ⟨h, rfl, fun _ => ?_⟩
    unfold VmWorld.own
    rw [isSome_or, hc.paged_of_exists hstate, Bool.or_true]
  next hexists =>
  split
  · next hstate =>
    obtain ⟨hinv, hsome⟩ := h.addPage hlast hlookup (hc.paged_of_absent hstate)
    exact ⟨hinv, modify_objects_ne _ hne _, fun _ => hsome⟩
  next hstate =>
  rw [not_or, Bool.not_eq_false] at hstate
  obtain ⟨hcreated, habsent⟩ := hstate
  rw [hc.pager] at hcreated
  obtain ⟨pager, hpager⟩ := isSome_iff_exists.mp hcreated
  have hmap : (s.world.objects c).existenceMap = none := by
    cases hm : (s.world.objects c).existenceMap with
    | none => rfl
    | some bits =>
      rw [hm, vmExternalStateGet] at hexists habsent
      cases hb : bits f <;> simp [hb] at hexists habsent
  rw [hpager]
  obtain ⟨hinv, hsome⟩ := h.initializePage hlast hlookup hmap hpager
  exact ⟨hinv, rfl, fun _ => hsome⟩

theorem CopyInv.enable (h : CopyInv s up)
    (hlookup : (vmPageLookup (s.world.objects s.src) f).isSome)
    (hpushed : ∀ c, up.getLast? = some c → f < (s.world.objects c).size →
      (s.world.own c f).isSome) :
    CopyInv { s with writable := Function.update s.writable f true } up := by
  refine h.update ⟨rfl, rfl, rfl, rfl, rfl, fun _ _ => rfl, fun _ _ => rfl⟩ h.source h.copies
    { h.pagers with } (fun f' hw => ?_) (fun hz c hc f' hf hw => ?_)
    fun _ _ _ _ _ _ => rfl
  · by_cases hf : f' = f
    · rw [hf]
      exact hlookup
    · dsimp only at hw
      rw [update_of_ne hf] at hw
      exact h.writable f' hw
  by_cases hff : f' = f
  · subst hff
    exact hpushed c hc hf
  · dsimp only at hw
    rw [update_of_ne hff] at hw
    exact h.guarded hz c hc f' hf hw

/-- **The pages are write-protected.** -/
theorem CopyInv.protect (h : CopyInv s up) : CopyInv (protectPages s) up := by
  have hnone : ∀ f, (protectPages s).writable f = false := by
    intro f
    show (s.writable f && (vmPageLookup (s.world.objects s.src) f).isNone) = false
    cases hw : s.writable f with
    | false => rfl
    | true => simpa using h.writable f hw
  refine h.update ⟨rfl, rfl, rfl, rfl, rfl, fun _ _ => rfl, fun _ _ => rfl⟩ h.source h.copies
    { h.pagers with } (fun f hw => ?_) (fun _ c hc f hf hw => ?_) fun _ _ _ _ _ _ => rfl
  all_goals
    rw [hnone] at hw
    cases hw

/-- **A write** to a page of the source. -/
theorem CopyInv.write (h : CopyInv s up) (f : ℕ) (v : D)
    (hwaits : s.writable f = true → s.waits = 0) :
    CopyInv (if s.writable f then Osfmk.storePage s f v else writeFault s f v) up := by
  split
  · next hw => exact h.storePage v fun c hc hf => h.guarded (hwaits hw) c hc f hf hw
  obtain ⟨h1, hlookup, hsrc, -⟩ := h.faultIn f
  unfold writeFault
  dsimp only
  generalize Osfmk.faultIn s f = s1 at *
  rw [← hsrc] at hlookup
  cases hlast : up.getLast? with
  | none =>
    rw [h1.copy, hlast]
    have hno : ∀ c, up.getLast? = some c → f < (s1.world.objects c).size →
        (s1.world.own c f).isSome := by
      intro c hc
      rw [hlast] at hc
      cases hc
    exact (h1.enable hlookup hno).storePage v hno
  | some c =>
    rw [h1.copy, hlast]
    obtain ⟨h2, hobj, hsome⟩ := h1.copyPush hlast f
    have hcov : ∀ c', up.getLast? = some c' →
        f < ((Osfmk.copyPush s1.world c f (s1.sourcePage f)).objects c').size →
        ((Osfmk.copyPush s1.world c f (s1.sourcePage f)).own c' f).isSome := by
      intro c' hc' hf
      obtain rfl : c = c' := some.inj (hlast.symm.trans hc')
      rw [copyPush_size] at hf
      exact hsome hf
    refine CopyInv.storePage (s := { s1 with
      world := Osfmk.copyPush s1.world c f (s1.sourcePage f)
      writable := Function.update s1.writable f true }) (h2.enable ?_ hcov) v hcov
    rw [hobj]
    exact hlookup

end Osfmk

import Osfmk.Ipc.Space

/-!
# How a space represents its capabilities

What a space holds is a finite map from names to capabilities.  It is spread over the
table and the tree: this module states how, as an invariant of the representation, and
proves it of each routine on entries but the growth of the table.
-/

open Function (update update_of_ne update_self)
open List Option

namespace Osfmk

open BinTree

/-- What a space holds under a name. -/
structure Capability where
  type : MachPortType
  urefs : ℕ
  object : IpcObject
  request : ℕ
  deriving DecidableEq

/-- The capability an entry records. -/
def IpcEntry.capability (e : IpcEntry) : Capability :=
  ⟨e.ieBits.type, e.ieBits.urefs, e.ieObject, e.ieRequest⟩

/-- The capability an entry records, if it has a type. -/
def IpcEntry.live (e : IpcEntry) : Option Capability :=
  if e.ieBits.type = .none then none else some e.capability

/-- The capability under a name, from the table if the slot has the generation of the
name, and from the tree otherwise. -/
def viewOf (size : ℕ) (table : ℕ → IpcEntry) (L : List (ℕ × IpcEntry)) (name : ℕ) :
    Option Capability :=
  if 0 < machPortIndex name ∧ machPortIndex name < size ∧
      (table (machPortIndex name)).ieBits.gen = machPortGen name then
    (table (machPortIndex name)).live
  else (L.lookup name).bind IpcEntry.live

/-- The map from names to capabilities a space stands for. -/
def IpcSpace.view (s : IpcSpace) : ℕ → Option Capability :=
  viewOf s.isTableSize s.isTable s.isTree.toList

/-- The indexes of the names of a tree that lie in an interval. -/
def smallIndexes (L : List (ℕ × IpcEntry)) (lo hi : ℕ) : Finset ℕ :=
  ((L.map fun p => machPortIndex p.1).toFinset).filter fun i => lo ≤ i ∧ i < hi

/-- The number of send rights in a tree. -/
def sendCount (L : List (ℕ × IpcEntry)) : ℕ := L.countP fun p => p.2.ieBits.type = .send

/-- The table: the free list starts at entry 0, visits unused slots and ends. -/
structure TableRep (size : ℕ) (table : ℕ → IpcEntry) (free : List ℕ) : Prop where
  size_pos : 0 < size
  chain : LinkedChain (fun i => (table i).ieNext) 0 0 free
  nodup : free.Nodup
  range : ∀ i ∈ free, 0 < i ∧ i < size
  unused : ∀ i ∈ free, (table i).ieBits.maskGen = (table i).ieBits ∧ (table i).ieObject = .null
  head : (table 0).ieBits.gen = 255 ∧ (table 0).ieBits.type = .none
  gen_lt : ∀ i, i < size → (table i).ieBits.gen < 256

/-- The tree beside the table: a slot has the collision bit when the tree has a name with
its index, and no such name has the generation of the slot. -/
structure TreeRep (size : ℕ) (table : ℕ → IpcEntry) (L : List (ℕ × IpcEntry)) : Prop where
  valid : ∀ p ∈ L, MachPortValid p.1
  plain : ∀ p ∈ L, p.2.ieBits.gen = 0 ∧ p.2.ieBits.collision = false
  collision : ∀ i, i < size → ((table i).ieBits.collision = true ↔ ∃ p ∈ L, machPortIndex p.1 = i)
  gen_ne : ∀ p ∈ L, 0 < machPortIndex p.1 → machPortIndex p.1 < size →
    (table (machPortIndex p.1)).ieBits.gen ≠ machPortGen p.1

/-- **The representation invariant** of a space, with the list of its free slots. -/
structure Rep (T : TableSizes) (s : IpcSpace) (free : List ℕ) : Prop where
  next_pos : 0 < s.isTableNext
  next_le : s.isTableNext ≤ T.last
  size_eq : s.isTableSize = T.itsSize (s.isTableNext - 1)
  slots : TableRep s.isTableSize s.isTable free
  wf : s.isTree.Wf
  nodes : TreeRep s.isTableSize s.isTable s.isTree.toList
  total : s.isTreeTotal = s.isTree.toList.length
  small : s.isTreeSmall =
    (smallIndexes s.isTree.toList s.isTableSize (T.itsSize s.isTableNext)).card
  hash : s.isTreeHash = sendCount s.isTree.toList

/-- The pointer is to the entry in use under the name. -/
def IpcSpace.Holds (s : IpcSpace) (free : List ℕ) (name : ℕ) : IpcEntryRef → Prop
  | .slot i => i = machPortIndex name ∧ 0 < i ∧ i < s.isTableSize ∧ i ∉ free ∧
      (s.isTable i).ieBits.gen = machPortGen name
  | .node m => m = name ∧ ∃ e, (name, e) ∈ s.isTree.toList

/-- Every entry in use has a type, except those listed. -/
structure IpcSpace.TypedBut (s : IpcSpace) (free : List ℕ) (except : List IpcEntryRef) :
    Prop where
  slot : ∀ i, 0 < i → i < s.isTableSize → i ∉ free → .slot i ∉ except →
    (s.isTable i).ieBits.type ≠ .none
  node : ∀ p ∈ s.isTree.toList, .node p.1 ∉ except → p.2.ieBits.type ≠ .none

variable {T : TableSizes} {s s' : IpcSpace} {free : List ℕ} {name : ℕ} {ref : IpcEntryRef}

theorem mem_smallIndexes {L : List (ℕ × IpcEntry)} {lo hi i : ℕ} :
    i ∈ smallIndexes L lo hi ↔ (∃ p ∈ L, machPortIndex p.1 = i) ∧ lo ≤ i ∧ i < hi := by
  simp only [smallIndexes, Finset.mem_filter, List.mem_toFinset, List.mem_map]

namespace TableRep

variable {size : ℕ} {table : ℕ → IpcEntry}

section

variable (h : TableRep size table free)
include h

theorem head_not_mem : 0 ∉ free := fun h0 =>
  absurd (h.range 0 h0).1 (lt_irrefl 0)

theorem nodup_cons : (0 :: free).Nodup :=
  List.nodup_cons.mpr ⟨h.head_not_mem, h.nodup⟩

theorem length_le : free.length ≤ size := by
  have hsub : free ⊆ List.range size := fun i hi => mem_range.mpr (h.range i hi).2
  simpa using (h.nodup.subperm hsub).length_le

theorem free_type {i : ℕ} (hi : i ∈ free) :
    (table i).ieBits.type = .none ∧ (table i).ieBits.collision = false := by
  rw [← (h.unused i hi).1]
  exact ⟨rfl, rfl⟩

end

end TableRep

theorem Rep.size_lt (h : Rep T s free) : s.isTableSize < 2 ^ 24 := by
  rw [h.size_eq]
  exact T.itsSize_lt (by have := h.next_le; omega)

theorem Rep.free_no_node (h : Rep T s free) {i : ℕ} (hi : i ∈ free) :
    ¬ ∃ p ∈ s.isTree.toList, machPortIndex p.1 = i := by
  rw [← h.nodes.collision i (h.slots.range i hi).2, (h.slots.free_type hi).2]
  simp

theorem IpcSpace.Holds.entry (h : s.Holds free name ref) (hs : Rep T s free) :
    ∃ e, s.findEntry ref = some e := by
  cases ref with
  | slot i => exact ⟨s.isTable i, if_pos h.2.2.1⟩
  | node m =>
    obtain ⟨rfl, e, he⟩ := h
    exact ⟨e, hs.wf.sorted.lookup_eq_some_iff.mpr he⟩

theorem IpcSpace.Holds.view_eq (h : s.Holds free name ref) (hs : Rep T s free)
    {e : IpcEntry} (he : s.findEntry ref = some e) : s.view name = e.live := by
  unfold IpcSpace.view viewOf
  cases ref with
  | slot i =>
    obtain ⟨rfl, hpos, hlt, -, hgen⟩ := h
    rw [if_pos ⟨hpos, hlt, hgen⟩]
    rw [IpcSpace.findEntry, if_pos hlt] at he
    rw [some.inj he]
  | node m =>
    obtain ⟨rfl, e', he'⟩ := h
    have heq : s.isTree.toList.lookup m = some e := he
    rw [if_neg fun hc => hs.nodes.gen_ne _ he' hc.1 hc.2.1 hc.2.2, heq]
    rfl

theorem Rep.view_eq_none (hs : Rep T s free) (h : ∀ ref, ¬ s.Holds free name ref) :
    s.view name = none := by
  unfold IpcSpace.view viewOf
  split
  · next hc =>
    have hfree : machPortIndex name ∈ free := by
      by_contra hn
      exact h (.slot _) ⟨rfl, hc.1, hc.2.1, hn, hc.2.2⟩
    rw [IpcEntry.live, if_pos (hs.slots.free_type hfree).1]
  have hl : s.isTree.toList.lookup name = none := by
    rw [KeysSorted.lookup_eq_none_iff]
    rintro ⟨k, e⟩ hp rfl
    exact h (.node k) ⟨rfl, e, hp⟩
  rw [hl]
  rfl

/-- The two spaces differ in the shape of the tree only. -/
structure SameEntries (s s' : IpcSpace) : Prop where
  eq : s' = { s with isTree := s'.isTree }
  wf : s'.isTree.Wf
  list : s'.isTree.toList = s.isTree.toList

namespace SameEntries

theorem refl (h : s.isTree.Wf) : SameEntries s s := ⟨rfl, h, rfl⟩

section

variable (h : SameEntries s s')
include h

theorem isTable : s'.isTable = s.isTable := by rw [h.eq]

theorem isTableSize : s'.isTableSize = s.isTableSize := by rw [h.eq]

theorem view : s'.view = s.view := by
  unfold IpcSpace.view
  rw [h.list, h.isTable, h.isTableSize]

theorem rep (hs : Rep T s free) : Rep T s' free := by
  have hl := h.list
  have hw := h.wf
  rw [h.eq] at hl hw ⊢
  exact ⟨hs.next_pos, hs.next_le, hs.size_eq, hs.slots, hw, by rw [hl]; exact hs.nodes,
    by rw [hl]; exact hs.total, by rw [hl]; exact hs.small, by rw [hl]; exact hs.hash⟩

theorem holds {ref : IpcEntryRef} (hh : s.Holds free name ref) :
    s'.Holds free name ref := by
  cases ref with
  | slot i => simpa only [IpcSpace.Holds, h.isTable, h.isTableSize] using hh
  | node m => simpa only [IpcSpace.Holds, h.list] using hh

theorem typedBut {except : List IpcEntryRef}
    (ht : s.TypedBut free except) : s'.TypedBut free except := by
  refine ⟨?_, ?_⟩
  · rw [h.isTable, h.isTableSize]; exact ht.slot
  · rw [h.list]; exact ht.node

end

end SameEntries

section

variable (hs : s.isTree.Wf)
include hs

theorem treeLookup_same (name : ℕ) : SameEntries s (ipcEntryTreeLookup s name).2 :=
  ⟨rfl, IpcSplayTree.wf_lookup hs name, IpcSplayTree.toList_lookup hs name⟩

theorem treeLookup_fst (name : ℕ) :
    (ipcEntryTreeLookup s name).1 = (s.isTree.toList.lookup name).map fun _ => .node name := by
  rw [ipcEntryTreeLookup, IpcSplayTree.lookup_eq hs]

theorem treeCollision_same (name : ℕ) : SameEntries s (ipcEntryTreeCollision s name).2 :=
  ⟨rfl, IpcSplayTree.wf_bounds hs name, IpcSplayTree.toList_bounds hs name⟩

/-- **The collision check looks at the two neighbours only**, and that is enough. -/
theorem treeCollision_fst (hv : ∀ p ∈ s.isTree.toList, MachPortValid p.1) (name : ℕ) :
    (ipcEntryTreeCollision s name).1 = true ↔
      ∃ p ∈ s.isTree.toList, machPortIndex p.1 = machPortIndex name := by
  obtain ⟨hlo, hup⟩ := IpcSplayTree.bounds_spec hs name
  rw [ipcEntryTreeCollision]
  simp only [Bool.or_eq_true, decide_eq_true_eq]
  constructor
  · rintro (⟨hne, hi⟩ | ⟨hne, hi⟩)
    · rcases hlo with ⟨-, ⟨a, ha⟩, -⟩ | ⟨h, -⟩
      · exact ⟨_, ha, hi⟩
      · exact absurd h hne
    · rcases hup with ⟨-, ⟨a, ha⟩, -⟩ | ⟨h, -⟩
      · exact ⟨_, ha, hi⟩
      · exact absurd h hne
  · rintro ⟨p, hp, hi⟩
    -- the name found lies between the bound and `name`, and so do their indexes
    rcases le_total p.1 name with hle | hle
    · left
      rcases hlo with ⟨hl, ⟨a, ha⟩, hmax⟩ | ⟨-, hnone⟩
      · have hpl := hmax p hp hle
        refine ⟨fun he => ?_, ?_⟩
        · have := (hv _ ha).2
          rw [he] at this
          exact absurd this (by decide)
        · unfold machPortIndex at hi ⊢
          omega
      · exact absurd (hnone p hp) (not_lt.mpr hle)
    right
    rcases hup with ⟨hl, ⟨a, ha⟩, hmin⟩ | ⟨-, hnone⟩
    · have hpl := hmin p hp hle
      refine ⟨(hv _ ha).1, ?_⟩
      unfold machPortIndex at hi ⊢
      omega
    · exact absurd (hnone p hp) (not_lt.mpr hle)

end

theorem create_chain (size k m : ℕ) (h : k + m + 1 = size) :
    LinkedChain (fun i => if i + 1 = size then 0 else i + 1) 0 k (List.range' (k + 1) m) := by
  induction m generalizing k with
  | zero => exact if_pos h
  | succ m ih =>
    rw [List.range'_succ]
    exact ⟨if_neg (by omega), ih (k + 1) (by omega)⟩

/-- **A new space satisfies the invariant**, with every slot but the first free. -/
theorem rep_create {initial : ℕ} (hi : initial < T.last) :
    Rep T (ipcSpaceCreate T initial) (List.range' 1 (T.itsSize initial - 1)) := by
  have hpos : 0 < T.itsSize initial := T.pos hi.le
  have hmem : ∀ i ∈ List.range' 1 (T.itsSize initial - 1), 0 < i ∧ i < T.itsSize initial := by
    intro i hi
    rw [mem_range'_1] at hi
    omega
  refine ⟨Nat.succ_pos _, hi, rfl, ⟨hpos, ?_, nodup_range' , hmem, ?_, ?_, ?_⟩,
    IpcSplayTree.wf_init, ⟨by simp [ipcSpaceCreate], by simp [ipcSpaceCreate], ?_,
    by simp [ipcSpaceCreate]⟩, rfl, rfl, rfl⟩
  · refine (create_chain (T.itsSize initial) 0 (T.itsSize initial - 1) (by omega)).congr ?_
    intro x hx
    have hlt : x < T.itsSize initial := by
      rcases mem_cons.mp hx with rfl | hx
      · exact hpos
      · exact (hmem x hx).2
    simp [ipcSpaceCreate, hlt, IpcEntry.ieNext]
  · intro i hi
    simp [ipcSpaceCreate, (hmem i hi).2, IeBits.maskGen, IeBits.genMask]
  · simp [ipcSpaceCreate, hpos, IeBits.genMask]
  all_goals
    intro i hi
    have hi' : i < T.itsSize initial := hi
    simp [ipcSpaceCreate, hi', IeBits.genMask]

theorem typedBut_create {initial : ℕ} (except : List IpcEntryRef) :
    (ipcSpaceCreate T initial).TypedBut (List.range' 1 (T.itsSize initial - 1)) except := by
  refine ⟨fun i hpos hlt hfree => ?_, by simp [ipcSpaceCreate]⟩
  have hlt' : i < T.itsSize initial := hlt
  exact absurd (mem_range'_1.mpr ⟨by omega, by omega⟩) hfree

/-- The name whose index is that of the head of the free list and whose generation is
the one that head always has. -/
def shadowedName : ℕ := 0xff

theorem eq_shadowedName (hi : machPortIndex name = 0) (hg : machPortGen name = 255) :
    name = shadowedName := by
  unfold machPortIndex at hi; unfold machPortGen at hg; unfold shadowedName; omega

theorem lookup_shadowedName (hs : Rep T s free) : ipcEntryLookup s shadowedName = (none, s) := by
  have hi : machPortIndex shadowedName = 0 := by decide
  have hg : machPortGen shadowedName = 255 := by decide
  rw [ipcEntryLookup, hi, hg]
  simp [hs.slots.size_pos, hs.slots.head.1, hs.slots.head.2]

theorem treeLookup_eq_some (hs : s.isTree.Wf) : (ipcEntryTreeLookup s name).1 = some ref ↔
      ref = .node name ∧ ∃ e, (name, e) ∈ s.isTree.toList := by
  rw [treeLookup_fst hs, map_eq_some_iff]
  simp only [hs.sorted.lookup_eq_some_iff]
  constructor
  · rintro ⟨e, he, rfl⟩; exact ⟨rfl, e, he⟩
  · rintro ⟨rfl, e, he⟩; exact ⟨e, he, rfl⟩

theorem holds_of_lookup (hs : Rep T s free) (h : (ipcEntryLookup s name).1 = some ref) :
    s.Holds free name ref := by
  have htree : (ipcEntryTreeLookup s name).1 = some ref → s.Holds free name ref := by
    intro h
    obtain ⟨rfl, he⟩ := (treeLookup_eq_some hs.wf).mp h
    exact ⟨rfl, he⟩
  unfold ipcEntryLookup at h
  dsimp only at h
  split at h
  · next hlt =>
    split at h
    · split at h
      · exact htree h
      · simp at h
    next hgen =>
    split at h
    · simp at h
    next htype =>
    obtain rfl := some.inj h
    refine ⟨rfl, Nat.pos_of_ne_zero fun h0 => ?_, hlt, fun hfree => ?_, not_not.mp hgen⟩
    · rw [h0] at htype; exact htype hs.slots.head.2
    · exact htype (hs.slots.free_type hfree).1
  · split at h
    · simp at h
    · exact htree h

/-- **Every entry in use is found under its name**, but for the one name the head of the
free list answers for. -/
theorem lookup_of_holds (hs : Rep T s free) (ht : s.TypedBut free []) (hn : name ≠ shadowedName)
    (h : s.Holds free name ref) : (ipcEntryLookup s name).1 = some ref := by
  unfold ipcEntryLookup
  cases ref with
  | slot i =>
    obtain ⟨rfl, hpos, hlt, hfree, hgen⟩ := h
    rw [if_pos hlt, if_neg (not_not.mpr hgen), if_neg (ht.slot _ hpos hlt hfree (by simp))]
  | node m =>
    obtain ⟨rfl, e, he⟩ := h
    have htree : (ipcEntryTreeLookup s m).1 = some (.node m) :=
      (treeLookup_eq_some hs.wf).mpr ⟨rfl, e, he⟩
    by_cases hlt : machPortIndex m < s.isTableSize
    · have hgen : (s.isTable (machPortIndex m)).ieBits.gen ≠ machPortGen m := by
        rcases Nat.eq_zero_or_pos (machPortIndex m) with h0 | hpos
        · -- index 0: only the generation of the head is in the way
          intro hg
          rw [h0, hs.slots.head.1] at hg
          exact hn (eq_shadowedName h0 hg.symm)
        · exact hs.nodes.gen_ne _ he hpos hlt
      have hcoll := (hs.nodes.collision _ hlt).mpr ⟨_, he, rfl⟩
      rw [if_pos hlt, if_pos hgen, if_pos hcoll, htree]
    have htot : s.isTreeTotal ≠ 0 := by
      rw [hs.total]
      exact Nat.pos_iff_ne_zero.mp (length_pos_of_mem he)
    rw [if_neg hlt, if_neg htot, htree]

/-- **Lookup is the map**: it returns the entry in use, or nothing when there is none. -/
theorem lookup_spec (hs : Rep T s free) (ht : s.TypedBut free []) (hn : name ≠ shadowedName) :
    (ipcEntryLookup s name).1.bind (fun ref => (s.findEntry ref).map IpcEntry.capability) =
      s.view name := by
  cases h : (ipcEntryLookup s name).1 with
  | none =>
    refine (hs.view_eq_none fun ref hr => ?_).symm
    rw [lookup_of_holds hs ht hn hr] at h
    simp at h
  | some ref =>
    have hh := holds_of_lookup hs h
    obtain ⟨e, he⟩ := hh.entry hs
    have htype : e.ieBits.type ≠ .none := by
      cases ref with
      | slot i =>
        obtain ⟨rfl, hpos, hlt, hfree, -⟩ := hh
        rw [IpcSpace.findEntry, if_pos hlt] at he
        rw [← some.inj he]
        exact ht.slot _ hpos hlt hfree (by simp)
      | node m => exact ht.node (m, e) (hs.wf.sorted.lookup_eq_some_iff.mp he) (by simp)
    rw [hh.view_eq hs he, IpcEntry.live, if_neg htype]
    simp [he]

theorem viewOf_congr {size : ℕ} {table table' : ℕ → IpcEntry} {L L' : List (ℕ × IpcEntry)}
    (hgen : (table' (machPortIndex name)).ieBits.gen = (table (machPortIndex name)).ieBits.gen)
    (hlive : (table' (machPortIndex name)).live = (table (machPortIndex name)).live)
    (hL : (L'.lookup name).bind IpcEntry.live = (L.lookup name).bind IpcEntry.live) :
    viewOf size table' L' name = viewOf size table L name := by
  unfold viewOf
  rw [hgen, hlive, hL]

theorem viewOf_of_gen {size : ℕ} {table : ℕ → IpcEntry} {L : List (ℕ × IpcEntry)}
    (h0 : 0 < machPortIndex name) (hlt : machPortIndex name < size)
    (hg : (table (machPortIndex name)).ieBits.gen = machPortGen name) :
    viewOf size table L name = (table (machPortIndex name)).live :=
  if_pos ⟨h0, hlt, hg⟩

theorem viewOf_of_gen_ne {size : ℕ} {table : ℕ → IpcEntry} {L : List (ℕ × IpcEntry)}
    (hg : (table (machPortIndex name)).ieBits.gen ≠ machPortGen name) :
    viewOf size table L name = (L.lookup name).bind IpcEntry.live :=
  if_neg fun h => hg h.2.2

theorem viewOf_eq_none {size : ℕ} {table : ℕ → IpcEntry} {L : List (ℕ × IpcEntry)}
    (htype : (table (machPortIndex name)).ieBits.type = .none)
    (hL : ¬ ∃ p ∈ L, machPortIndex p.1 = machPortIndex name) :
    viewOf size table L name = none := by
  have hl : L.lookup name = none := by
    rw [KeysSorted.lookup_eq_none_iff]
    rintro p hp rfl
    exact hL ⟨p, hp, rfl⟩
  unfold viewOf IpcEntry.live
  rw [hl]
  simp [htype]

/-- **What allocating an entry means**: `ref` is now in use under a name nothing was in
use under, it holds no capability yet, and the map is as before. -/
structure Allocated (T : TableSizes) (s s' : IpcSpace) (free free' : List ℕ) (name : ℕ)
    (ref : IpcEntryRef) : Prop where
  active : s'.isActive = s.isActive
  rep : Rep T s' free'
  holds : s'.Holds free' name ref
  fresh : ∀ ref', ¬ s.Holds free name ref'
  blank : ∃ e, s'.findEntry ref = some e ∧ e.capability = ⟨.none, 0, .null, 0⟩
  view : s'.view = s.view
  typed : ∀ except, s.TypedBut free except → s'.TypedBut free' (ref :: except)

/-- Only the links of the free list are different. -/
def LinksOnly (s : IpcSpace) (free : List ℕ) (table : ℕ → IpcEntry) (j : ℕ) : Prop :=
  table j = s.isTable j ∨ (j ∈ 0 :: free ∧ ∃ next, table j = { s.isTable j with ieRequest := next })

section

variable (hs : Rep T s free)
include hs

/-- **Handing out a free slot**, with a generation of its own. -/
theorem take_slot {i g : ℕ} (hi : i ∈ free) (hg : g < 256)
    (table : ℕ → IpcEntry) (hslot : table i = ⟨⟨g, false, .none, 0⟩, .null, 0⟩)
    (hother : ∀ j, j ≠ i → LinksOnly s free table j)
    (hchain : LinkedChain (fun j => (table j).ieNext) 0 0 (free.erase i)) :
    Allocated T s { s with isTable := table } free (free.erase i) (machPortMake i g) (.slot i) := by
  have hbits : ∀ j, j ≠ i → (table j).ieBits = (s.isTable j).ieBits ∧
      (table j).ieObject = (s.isTable j).ieObject := by
    intro j hj
    rcases hother j hj with h | ⟨-, n, h⟩ <;> rw [h] <;> exact ⟨rfl, rfl⟩
  have hpos := (hs.slots.range i hi).1
  have hlt := (hs.slots.range i hi).2
  have hi24 : i < 2 ^ 24 := hlt.trans hs.size_lt
  have hnode := hs.free_no_node hi
  have hmem : ∀ j, j ∈ free.erase i ↔ j ≠ i ∧ j ∈ free := fun j =>
    hs.slots.nodup.mem_erase_iff
  refine ⟨rfl, ⟨hs.next_pos, hs.next_le, hs.size_eq,
    ⟨hs.slots.size_pos, hchain, hs.slots.nodup.erase i, ?_, ?_, ?_, ?_⟩, hs.wf,
    ⟨hs.nodes.valid, hs.nodes.plain, ?_, ?_⟩, hs.total, hs.small, hs.hash⟩, ?_, ?_, ?_, ?_, ?_⟩
  · exact fun j hj => hs.slots.range j ((hmem j).mp hj).2
  · intro j hj
    obtain ⟨hne, hjf⟩ := (hmem j).mp hj
    rw [(hbits j hne).1, (hbits j hne).2]
    exact hs.slots.unused j hjf
  · dsimp only
    rw [(hbits 0 (by omega)).1]
    exact hs.slots.head
  · intro j hj
    dsimp only
    by_cases hji : j = i
    · rw [hji, hslot]; exact hg
    · rw [(hbits j hji).1]; exact hs.slots.gen_lt j hj
  · intro j hj
    dsimp only
    by_cases hji : j = i
    · rw [hji, hslot]; simpa using hnode
    · rw [(hbits j hji).1]; exact hs.nodes.collision j hj
  · intro p hp hp0 hp1
    have hne : machPortIndex p.1 ≠ i := fun h => hnode ⟨p, hp, h⟩
    rw [(hbits _ hne).1]
    exact hs.nodes.gen_ne p hp hp0 hp1
  · refine ⟨(index_make hi24 hg).symm, hpos, hlt, ?_, ?_⟩
    · simpa using fun h => ((hmem i).mp h).1 rfl
    · dsimp only
      rw [hslot, gen_make hi24 hg]
  · intro ref' hh
    cases ref' with
    | slot j =>
      rw [IpcSpace.Holds, index_make hi24 hg] at hh
      exact hh.2.2.2.1 (hh.1 ▸ hi)
    | node m =>
      obtain ⟨-, e, he⟩ := hh
      exact hnode ⟨_, he, index_make hi24 hg⟩
  · exact ⟨table i, if_pos hlt, by rw [hslot]; rfl⟩
  · funext n
    by_cases hn : machPortIndex n = i
    · -- neither before nor after is there anything with this index
      have h1 : s.view n = none := viewOf_eq_none
        (by rw [hn]; exact (hs.slots.free_type hi).1) (by rw [hn]; exact hnode)
      rw [h1]
      exact viewOf_eq_none (by simp only [hn, hslot]) (by rw [hn]; exact hnode)
    rcases hother _ hn with h | ⟨hjf, next, h⟩
    · exact viewOf_congr (congrArg (·.ieBits.gen) h) (congrArg IpcEntry.live h) rfl
    rcases mem_cons.mp hjf with h0 | hjf
    · unfold IpcSpace.view viewOf
      rw [h0]
      simp
    have hnn := hs.free_no_node hjf
    have ht := (hs.slots.free_type hjf).1
    have h1 : s.view n = none := viewOf_eq_none ht hnn
    rw [h1]
    exact viewOf_eq_none (by simp only [h]; exact ht) hnn
  · intro except ht
    refine ⟨fun j hj0 hj hjf hex => ?_, fun p hp hex => ht.node p hp fun h =>
      hex (mem_cons_of_mem _ h)⟩
    have hne : j ≠ i := fun h => hex (by rw [h]; exact mem_cons_self)
    rw [(hbits j hne).1]
    exact ht.slot j hj0 hj (fun h => hjf ((hmem j).mpr ⟨hne, h⟩))
      fun h => hex (mem_cons_of_mem _ h)

theorem get_none (h : (ipcEntryGet s).1 = none) :
    ipcEntryGet s = (none, s) ∧ free = [] := by
  unfold ipcEntryGet at h ⊢
  dsimp only at h ⊢
  split at h
  · next h0 =>
    rw [if_pos h0]
    refine ⟨rfl, ?_⟩
    have hc := hs.slots.chain
    cases free with
    | nil => rfl
    | cons i l => exact absurd (hc.1.symm.trans h0) (by have := (hs.slots.range i (by simp)).1; omega)
  · simp at h

theorem valid_make {i g : ℕ} (h0 : 0 < i) (hi : i < s.isTableSize)
    (hg : g < 256) : MachPortValid (machPortMake i g) := by
  have hb : s.isTableSize ≤ 2 ^ 24 - 1 := by
    have := T.bounded (s.isTableNext - 1) (by have := hs.next_le; omega)
    rw [← hs.size_eq] at this
    exact this
  rw [make_eq (by omega) hg]
  unfold MachPortValid machPortNull machPortDead
  omega

/-- **`ipc_entry_get` allocates the first free slot.** -/
theorem get_spec (h : ipcEntryGet s = (some (name, ref), s')) :
    ∃ i free', free = i :: free' ∧ ref = .slot i ∧ MachPortValid name ∧
      Allocated T s s' free free' name ref := by
  cases free with
  | nil =>
    have h0 : (s.isTable 0).ieNext = 0 := hs.slots.chain
    rw [ipcEntryGet] at h
    simp [h0] at h
  | cons i l =>
    have hi0 := hs.slots.range i mem_cons_self
    have hnext : (s.isTable 0).ieNext = i := hs.slots.chain.1
    have hne0 : i ≠ 0 := by omega
    have hgen : ((s.isTable i).ieBits.gen + 4) % 256 < 256 := Nat.mod_lt _ (by decide)
    unfold ipcEntryGet at h
    simp only [hnext, if_neg hne0, Prod.mk.injEq, some.injEq] at h
    obtain ⟨⟨rfl, rfl⟩, rfl⟩ := h
    have hsame : (s.setNext 0 (s.isTable i).ieNext).isTable i = s.isTable i := by
      simp [IpcSpace.setNext, IpcSpace.setSlot, update_of_ne hne0]
    have herase : (i :: l).erase i = l := by simp
    have htake := take_slot hs (mem_cons_self (a := i) (l := l)) hgen
      (update (update s.isTable 0
        { s.isTable 0 with ieRequest := (s.isTable i).ieNext }) i
          ⟨⟨((s.isTable i).ieBits.gen + 4) % 256, false, .none, 0⟩, .null, 0⟩)
      (by simp) ?_ ?_
    · rw [herase] at htake
      refine ⟨i, l, rfl, rfl, ?_, ?_⟩
      · rw [hsame]; exact valid_make hs hi0.1 hi0.2 hgen
      · rw [hsame, (hs.slots.unused i mem_cons_self).2]
        exact htake
    · intro j hj
      unfold LinksOnly
      rw [update_of_ne hj]
      by_cases hj0 : j = 0
      · subst hj0
        exact .inr ⟨by simp, _, update_self ..⟩
      · exact .inl (update_of_ne hj0 _ _)
    · rw [herase]
      have hn := hs.slots.nodup_cons
      refine (hs.slots.chain.pop hn).congr fun x hx => ?_
      have hxi : x ≠ i := by
        rintro rfl
        rcases mem_cons.mp hx with h | h
        · exact hne0 h
        · exact (List.nodup_cons.mp hs.slots.nodup).1 h
      rw [update_of_ne hxi]
      by_cases hx0 : x = 0
      · subst hx0; simp [IpcEntry.ieNext]
      · rw [update_of_ne hx0, update_of_ne hx0]

/-- **Ripping a slot out of the free list**: the search ends, and the slot is allocated
under the name asked for. -/
theorem allocNameSlot_spec (hn : name < 2 ^ 32)
    (hi : machPortIndex name ∈ free) :
    ∃ s', allocNameSlot s name = some s' ∧
      Allocated T s s' free (free.erase (machPortIndex name)) name
        (.slot (machPortIndex name)) := by
  set i := machPortIndex name with hidef
  have hfind := hs.slots.chain.findLink_eq hi hs.slots.length_le
  set q := LinkedChain.predOf 0 free i with hq
  have hqmem : q ∈ 0 :: free := LinkedChain.predOf_mem 0 free i
  refine ⟨_, by rw [allocNameSlot, hfind]; rfl, ?_⟩
  have htake := take_slot hs hi (machPortGen_lt name) (update (update s.isTable q
      { s.isTable q with ieRequest := (s.isTable i).ieNext }) i
        ⟨⟨machPortGen name, false, .none, 0⟩, .null, 0⟩) (by simp) ?_ ?_
  · have hobj : ((s.setNext q (s.isTable i).ieNext).isTable i).ieObject = .null := by
      have hnull := (hs.slots.unused i hi).2
      by_cases hqi : i = q
      · rw [← hqi]; simpa [IpcSpace.setNext, IpcSpace.setSlot] using hnull
      · simpa [IpcSpace.setNext, IpcSpace.setSlot, update_of_ne hqi] using hnull
    rw [hidef, make_index_gen hn] at htake
    dsimp only
    rw [← hidef, hobj]
    exact htake
  · intro j hj
    unfold LinksOnly
    rw [update_of_ne hj]
    by_cases hjq : j = q
    · subst hjq
      exact .inr ⟨hqmem, _, update_self ..⟩
    · exact .inl (update_of_ne hjq _ _)
  · refine (hs.slots.chain.unlink hs.slots.nodup_cons hi).congr fun x hx => ?_
    have hxi : x ≠ i := by
      rintro rfl
      rcases mem_cons.mp hx with h | h
      · exact hs.slots.head_not_mem (h ▸ hi)
      · exact (hs.slots.nodup.mem_erase_iff.mp h).1 rfl
    rw [update_of_ne hxi]
    by_cases hxq : x = q
    · rw [hxq, ← hq, update_self, update_self]; rfl
    · rw [update_of_ne hxq, ← hq, update_of_ne hxq]

end

/-- The table after the collision bit of a slot of it has been set. -/
def markCollision (s : IpcSpace) (index : ℕ) : ℕ → IpcEntry :=
  if index < s.isTableSize then
    update s.isTable index
      { s.isTable index with ieBits := (s.isTable index).ieBits.setCollision }
  else s.isTable

theorem live_collision (e : IpcEntry) (c : Bool) :
    ({ e with ieBits := { e.ieBits with collision := c } } : IpcEntry).live = e.live := rfl

theorem markCollision_apply (s : IpcSpace) (index j : ℕ) :
    markCollision s index j = { s.isTable j with
      ieBits := { (s.isTable j).ieBits with
        collision := decide (index < s.isTableSize ∧ j = index) || (s.isTable j).ieBits.collision } } := by
  unfold markCollision
  split
  · next h =>
    by_cases hj : j = index
    · subst hj; simp [h, IeBits.setCollision]
    · simp [hj]
  · next h => simp [h]

theorem insert_small {L L' : List (ℕ × IpcEntry)} {e : IpcEntry} {lo hi : ℕ}
    (hmem : ∀ p, p ∈ L' ↔ p = (name, e) ∨ p ∈ L) :
    (smallIndexes L' lo hi).card = (smallIndexes L lo hi).card +
      if (lo ≤ machPortIndex name ∧ machPortIndex name < hi) ∧
        ¬ ∃ p ∈ L, machPortIndex p.1 = machPortIndex name then 1 else 0 := by
  have hmem' : ∀ i, i ∈ smallIndexes L' lo hi ↔ i ∈ smallIndexes L lo hi ∨
      (i = machPortIndex name ∧ lo ≤ i ∧ i < hi) := by
    intro i
    rw [mem_smallIndexes, mem_smallIndexes]
    constructor
    · rintro ⟨⟨p, hp, rfl⟩, h⟩
      rcases (hmem p).mp hp with rfl | hp
      · exact .inr ⟨rfl, h⟩
      · exact .inl ⟨⟨p, hp, rfl⟩, h⟩
    · rintro (⟨⟨p, hp, rfl⟩, h⟩ | ⟨rfl, h⟩)
      · exact ⟨⟨p, (hmem p).mpr (.inr hp), rfl⟩, h⟩
      · exact ⟨⟨(name, e), (hmem _).mpr (.inl rfl), rfl⟩, h⟩
  split
  · next h =>
    have hins : smallIndexes L' lo hi = insert (machPortIndex name) (smallIndexes L lo hi) := by
      ext i
      rw [hmem', Finset.mem_insert]
      constructor
      · rintro (h | h)
        · exact .inr h
        · exact .inl h.1
      · rintro (rfl | hi)
        · exact .inr ⟨rfl, h.1⟩
        · exact .inl hi
    rw [hins, Finset.card_insert_of_notMem fun hc => h.2 (mem_smallIndexes.mp hc).1]
  · next h =>
    have heq : smallIndexes L' lo hi = smallIndexes L lo hi := by
      ext i
      rw [hmem']
      refine ⟨?_, .inl⟩
      rintro (hi | ⟨rfl, hr⟩)
      · exact hi
      · by_cases hex : ∃ p ∈ L, machPortIndex p.1 = machPortIndex name
        · exact mem_smallIndexes.mpr ⟨hex, hr⟩
        · exact absurd ⟨hr, hex⟩ h
    rw [heq, Nat.add_zero]

theorem insert_rep (hs : Rep T s free) (hv : MachPortValid name)
    (hfresh : ∀ ref, ¬ s.Holds free name ref)
    (hused : machPortIndex name < s.isTableSize → machPortIndex name ∉ free)
    {t : IpcSplayTree IpcEntry} (ht : t.Wf) (hl : t.toList = s.isTree.toList) (small : ℕ)
    (hsmall : small = s.isTreeSmall +
      if (s.isTableSize ≤ machPortIndex name ∧ machPortIndex name < T.itsSize s.isTableNext) ∧
        ¬ ∃ p ∈ s.isTree.toList, machPortIndex p.1 = machPortIndex name then 1 else 0) :
    Allocated T s { s with
      isTable := markCollision s (machPortIndex name)
      isTree := ipcSplayTreeInsert t name .zero
      isTreeTotal := s.isTreeTotal + 1
      isTreeSmall := small } free free name (.node name) := by
  have hnew : ∀ p ∈ s.isTree.toList, p.1 ≠ name := by
    rintro ⟨k, e⟩ hp rfl
    exact hfresh (.node k) ⟨rfl, e, hp⟩
  have hnewt : ∀ p ∈ t.toList, p.1 ≠ name := by rw [hl]; exact hnew
  have hlist := IpcSplayTree.toList_insert ht .zero hnewt
  have hperm := KeysSorted.perm_insert ht.sorted name IpcEntry.zero
  rw [← hlist, hl] at hperm
  have hmem : ∀ p, p ∈ (ipcSplayTreeInsert t name .zero).toList ↔
      p = (name, .zero) ∨ p ∈ s.isTree.toList := fun p => by
    rw [hperm.mem_iff, mem_cons]
  have hwf := IpcSplayTree.wf_insert ht (IpcEntry.zero)
    (by have := hv.lt; unfold machPortLargest; omega) hnewt
  refine ⟨rfl, ⟨hs.next_pos, hs.next_le, hs.size_eq,
    ⟨hs.slots.size_pos, ?_, hs.slots.nodup, hs.slots.range, ?_, ?_, ?_⟩, hwf,
    ⟨?_, ?_, ?_, ?_⟩, ?_, ?_, ?_⟩, ⟨rfl, _, (hmem _).mpr (.inl rfl)⟩, hfresh, ?_, ?_, ?_⟩
  · refine hs.slots.chain.congr fun x _ => ?_
    dsimp only
    rw [markCollision_apply]
    rfl
  · intro i hi
    have hne : ¬ (machPortIndex name < s.isTableSize ∧ i = machPortIndex name) := by
      rintro ⟨h, rfl⟩
      exact hused h hi
    dsimp only
    rw [markCollision_apply]
    simpa [hne] using hs.slots.unused i hi
  · dsimp only
    rw [markCollision_apply]
    exact hs.slots.head
  · intro i hi
    dsimp only
    rw [markCollision_apply]
    exact hs.slots.gen_lt i hi
  · intro p hp
    rcases (hmem p).mp hp with rfl | hp
    · exact hv
    · exact hs.nodes.valid p hp
  · intro p hp
    rcases (hmem p).mp hp with rfl | hp
    · exact ⟨rfl, rfl⟩
    · exact hs.nodes.plain p hp
  · intro i hi
    dsimp only
    rw [markCollision_apply]
    simp only [Bool.or_eq_true, decide_eq_true_eq, hs.nodes.collision i hi]
    constructor
    · rintro (⟨-, rfl⟩ | ⟨p, hp, h⟩)
      · exact ⟨_, (hmem _).mpr (.inl rfl), rfl⟩
      · exact ⟨p, (hmem p).mpr (.inr hp), h⟩
    · rintro ⟨p, hp, rfl⟩
      rcases (hmem p).mp hp with rfl | hp
      · exact .inl ⟨hi, rfl⟩
      · exact .inr ⟨p, hp, rfl⟩
  · intro p hp h0 h1
    dsimp only
    rw [markCollision_apply]
    rcases (hmem p).mp hp with rfl | hp
    · exact fun hg => hfresh (.slot _) ⟨rfl, h0, h1, hused h1, hg⟩
    · exact hs.nodes.gen_ne p hp h0 h1
  · dsimp only
    rw [hperm.length_eq, hs.total]
    rfl
  · dsimp only
    rw [insert_small hmem, hsmall, hs.small]
  · dsimp only
    rw [hs.hash, sendCount, sendCount, hperm.countP_eq]
    simp [IpcEntry.zero, IeBits.zero]
  · exact ⟨.zero, hwf.sorted.lookup_eq_some_iff.mpr ((hmem _).mpr (.inl rfl)), rfl⟩
  · funext n
    refine viewOf_congr (by dsimp only; rw [markCollision_apply])
      (by dsimp only; rw [markCollision_apply]; exact live_collision _ _) ?_
    by_cases hn : n = name
    · subst hn
      have h1 : (ipcSplayTreeInsert t n .zero).toList.lookup n = some .zero :=
        hwf.sorted.lookup_eq_some_iff.mpr ((hmem _).mpr (.inl rfl))
      have h2 : s.isTree.toList.lookup n = none := KeysSorted.lookup_eq_none_iff.mpr hnew
      rw [h1, h2]
      rfl
    · dsimp only
      rw [KeysSorted.lookup_congr hwf.sorted hs.wf.sorted fun a => by
        rw [hmem]; simp [hn]]
  · intro except hty
    refine ⟨fun i h0 h1 hf hex => ?_, fun p hp hex => ?_⟩
    · dsimp only
      rw [markCollision_apply]
      exact hty.slot i h0 h1 hf fun h => hex (mem_cons_of_mem _ h)
    · rcases (hmem p).mp hp with rfl | hp
      · exact absurd mem_cons_self hex
      · exact hty.node p hp fun h => hex (mem_cons_of_mem _ h)

/-- **Inserting a tree entry allocates it under its name.** -/
theorem allocNameInsert_spec (hs : Rep T s free) (hv : MachPortValid name)
    (hfresh : ∀ ref, ¬ s.Holds free name ref)
    (hused : machPortIndex name < s.isTableSize → machPortIndex name ∉ free) :
    Allocated T s (allocNameInsert T s name) free free name (.node name) := by
  unfold allocNameInsert
  dsimp only
  by_cases hlt : machPortIndex name < s.isTableSize
  · rw [if_pos hlt]
    have := insert_rep hs hv hfresh hused hs.wf rfl s.isTreeSmall
      (by rw [if_neg (by omega), Nat.add_zero])
    rw [markCollision, if_pos hlt] at this
    exact this
  have hmark : markCollision s (machPortIndex name) = s.isTable := if_neg hlt
  rw [if_neg hlt]
  by_cases hlt' : machPortIndex name < T.itsSize s.isTableNext
  · rw [if_pos hlt']
    have hsame := treeCollision_same (s := { s with isTreeTotal := s.isTreeTotal + 1 }) hs.wf name
    have hfst := treeCollision_fst (s := { s with isTreeTotal := s.isTreeTotal + 1 }) hs.wf
      hs.nodes.valid name
    generalize ipcEntryTreeCollision { s with isTreeTotal := s.isTreeTotal + 1 } name = res at *
    obtain ⟨b, s1⟩ := res
    have heq := hsame.eq
    cases b with
    | true =>
      have := insert_rep hs hv hfresh hused hsame.wf hsame.list s.isTreeSmall
        (by rw [if_neg fun h => h.2 (hfst.mp rfl), Nat.add_zero])
      rw [hmark] at this
      dsimp only at heq ⊢
      rw [heq]
      exact this
    | false =>
      have hno : ¬ ∃ p ∈ s.isTree.toList, machPortIndex p.1 = machPortIndex name := fun h =>
        Bool.false_ne_true (hfst.mpr h)
      have := insert_rep hs hv hfresh hused hsame.wf hsame.list (s.isTreeSmall + 1)
        (by rw [if_pos ⟨⟨by omega, hlt'⟩, hno⟩])
      rw [hmark] at this
      dsimp only at heq ⊢
      rw [heq]
      exact this
  · rw [if_neg hlt']
    have := insert_rep hs hv hfresh hused hs.wf rfl s.isTreeSmall
      (by rw [if_neg (by omega), Nat.add_zero])
    rw [hmark] at this
    exact this

end Osfmk

import Osfmk.Ipc.SpaceRep

/-!
# Writing and deallocating entries

What a write through an entry pointer and `ipc_entry_dealloc` do to the invariant and to
the map of a space.  A routine that gives up a send right first takes it out of the
reverse hash and then writes or deallocates the entry; the specifications here are of the
two steps together, since the counter `is_tree_hash` is behind in between.
-/

open Function (update update_of_ne update_self)

namespace Osfmk

open BinTree

variable {T : TableSizes} {s s' : IpcSpace} {free free' : List ℕ} {name : ℕ} {ref : IpcEntryRef}
  {e : IpcEntry}

/-- One for an entry of the tree, which the global hash is for. -/
def refNode : IpcEntryRef → ℕ
  | .slot _ => 0
  | .node _ => 1

/-- What an entry contributes to `is_tree_hash`: one for a send right in the tree. -/
def treeSend (e : IpcEntry) : IpcEntryRef → ℕ
  | .slot _ => 0
  | .node _ => if e.ieBits.type = .send then 1 else 0

/-- **What writing an entry means**: the map changes at its name, everything else is as
before. -/
structure Updated (T : TableSizes) (s s' : IpcSpace) (free : List ℕ) (name : ℕ)
    (ref : IpcEntryRef) (e : IpcEntry) : Prop where
  active : s'.isActive = s.isActive
  rep : Rep T s' free
  view : s'.view = update s.view name e.live
  holds : ∀ n r, s'.Holds free n r ↔ s.Holds free n r
  entry : s'.findEntry ref = some e
  frame : ∀ r, r ≠ ref → s'.findEntry r = s.findEntry r
  typed : ∀ except, s.TypedBut free (ref :: except) →
    s'.TypedBut free (if e.ieBits.type = .none then ref :: except else except)

theorem IpcSpace.Holds.name_eq {n : ℕ} (h : s.Holds free n ref) (h' : s.Holds free name ref) :
    n = name := by
  cases ref with
  | slot i => exact name_ext (h.1.symm.trans h'.1) (h.2.2.2.2.symm.trans h'.2.2.2.2)
  | node m => exact h.1.symm.trans h'.1

section

variable (hs : Rep T s free)
include hs

theorem Rep.typedBut_iff {except : List IpcEntryRef} : s.TypedBut free except ↔
    ∀ n r e, s.Holds free n r → r ∉ except → s.findEntry r = some e → e.ieBits.type ≠ .none := by
  refine ⟨fun ht n r e hh hex he => ?_, fun ht => ⟨fun i h0 hlt hf hex => ?_, fun p hp hex => ?_⟩⟩
  · cases r with
    | slot i =>
      rw [IpcSpace.findEntry, if_pos hh.2.2.1] at he
      rw [← Option.some.inj he]
      exact ht.slot i hh.2.1 hh.2.2.1 hh.2.2.2.1 hex
    | node m => exact ht.node (m, e) (hs.wf.sorted.lookup_eq_some_iff.mp he) hex
  · have hi : i < 2 ^ 24 := hlt.trans hs.size_lt
    have hg := hs.slots.gen_lt i hlt
    exact ht (machPortMake i (s.isTable i).ieBits.gen) (.slot i) _
      ⟨(index_make hi hg).symm, h0, hlt, hf, (gen_make hi hg).symm⟩ hex (if_pos hlt)
  · exact ht p.1 (.node p.1) p.2 ⟨rfl, p.2, hp⟩ hex (hs.wf.sorted.lookup_eq_some_iff.mpr hp)

/-- The map depends on the entries in use only. -/
theorem Rep.view_congr (hs' : Rep T s' free')
    (hto : ∀ r, s.Holds free name r → ∃ r', s'.Holds free' name r' ∧
      (s'.findEntry r').map IpcEntry.capability = (s.findEntry r).map IpcEntry.capability)
    (hfrom : ∀ r, s'.Holds free' name r → ∃ r', s.Holds free name r') :
    s'.view name = s.view name := by
  by_cases h : ∃ r, s.Holds free name r
  · obtain ⟨r, hr⟩ := h
    obtain ⟨r', hr', hcap⟩ := hto r hr
    obtain ⟨e, he⟩ := hr.entry hs
    obtain ⟨e', he'⟩ := hr'.entry hs'
    rw [he, he', Option.map_some, Option.map_some, Option.some.injEq] at hcap
    have htype : e'.ieBits.type = e.ieBits.type := congrArg Capability.type hcap
    rw [hr.view_eq hs he, hr'.view_eq hs' he', IpcEntry.live, IpcEntry.live, hcap, htype]
  · rw [hs.view_eq_none fun r hr => h ⟨r, hr⟩, hs'.view_eq_none fun r hr => h (hfrom r hr)]

/-- **A write is what it does to the entries.** -/
theorem Updated.of_frame (hh : s.Holds free name ref) (active : s'.isActive = s.isActive)
    (rep : Rep T s' free) (holds : ∀ n r, s'.Holds free n r ↔ s.Holds free n r)
    (entry : s'.findEntry ref = some e)
    (frame : ∀ r, r ≠ ref → s'.findEntry r = s.findEntry r) :
    Updated T s s' free name ref e := by
  refine ⟨active, rep, ?_, holds, entry, frame, fun except ht => ?_⟩
  · funext n
    by_cases hn : n = name
    · rw [hn, update_self]
      exact ((holds name ref).mpr hh).view_eq rep entry
    · rw [update_of_ne hn]
      refine hs.view_congr rep (fun r hr => ⟨r, (holds n r).mpr hr, ?_⟩) fun r hr =>
        ⟨r, (holds n r).mp hr⟩
      rw [frame r fun h => hn (hr.name_eq (h ▸ hh))]
  · rw [rep.typedBut_iff]
    intro n r a hr hex ha
    by_cases hrr : r = ref
    · rw [hrr, entry] at ha
      rw [← Option.some.inj ha]
      intro hty
      rw [if_pos hty, hrr] at hex
      exact hex List.mem_cons_self
    · refine hs.typedBut_iff.mp ht n r a ((holds n r).mp hr) ?_ ((frame r hrr).symm.trans ha)
      refine List.not_mem_cons_of_ne_of_not_mem hrr fun h => hex ?_
      split
      · exact List.mem_cons_of_mem _ h
      · exact h

end

theorem sendCount_perm {L M : List (ℕ × IpcEntry)} {p : ℕ × IpcEntry} (h : L.Perm (p :: M)) :
    sendCount L = sendCount M + if p.2.ieBits.type = .send then 1 else 0 := by
  rw [sendCount, h.countP_eq, List.countP_cons, sendCount]
  simp

/-- A slot in use may be written. -/
theorem TableRep.set {size : ℕ} {table : ℕ → IpcEntry} (h : TableRep size table free) {i : ℕ}
    (hi : 0 < i) (hfree : i ∉ free) (hgen : e.ieBits.gen < 256) :
    TableRep size (update table i e) free := by
  have hfi : ∀ j ∈ free, j ≠ i := fun j hj h => hfree (h ▸ hj)
  refine ⟨h.size_pos, h.chain.congr fun x hx => ?_, h.nodup, h.range, fun j hj => ?_, ?_,
    fun j hj => ?_⟩
  · have hxi : x ≠ i := by
      rcases List.mem_cons.mp hx with rfl | hx
      · omega
      · exact hfi x hx
    rw [update_of_ne hxi]
  · rw [update_of_ne (hfi j hj)]
    exact h.unused j hj
  · rw [update_of_ne (by omega)]
    exact h.head
  · by_cases hji : j = i
    · rw [hji, update_self]
      exact hgen
    · rw [update_of_ne hji]
      exact h.gen_lt j hj

section

variable (hs : Rep T s free)
include hs

theorem updated_slot {i : ℕ} (hh : s.Holds free name (.slot i)) {e : IpcEntry}
    (hgen : e.ieBits.gen = (s.isTable i).ieBits.gen)
    (hcoll : e.ieBits.collision = (s.isTable i).ieBits.collision) :
    Updated T s (s.setSlot i e) free name (.slot i) e := by
  have h0 := hh.2.1
  have hlt := hh.2.2.1
  have hother : ∀ j, j ≠ i → (s.setSlot i e).isTable j = s.isTable j := fun j hj =>
    update_of_ne hj _ _
  have hself : (s.setSlot i e).isTable i = e := update_self ..
  have hgens : ∀ j, ((s.setSlot i e).isTable j).ieBits.gen = (s.isTable j).ieBits.gen ∧
      ((s.setSlot i e).isTable j).ieBits.collision = (s.isTable j).ieBits.collision := by
    intro j
    by_cases hj : j = i
    · rw [hj, hself]; exact ⟨hgen, hcoll⟩
    · rw [hother j hj]; exact ⟨rfl, rfl⟩
  have hslots := hs.slots.set h0 hh.2.2.2.1 (e := e) (by rw [hgen]; exact hs.slots.gen_lt i hlt)
  refine .of_frame hs hh rfl
    { hs with slots := hslots, nodes := { hs.nodes with collision := ?_, gen_ne := ?_ } } ?_ ?_ ?_
  · intro j hj
    rw [(hgens j).2]; exact hs.nodes.collision j hj
  · intro p hp h0 h1
    rw [(hgens _).1]; exact hs.nodes.gen_ne p hp h0 h1
  · intro n r
    cases r with
    | slot j => simp only [IpcSpace.Holds, (hgens j).1]; rfl
    | node m => rfl
  · rw [IpcSpace.findEntry, if_pos (show i < (s.setSlot i e).isTableSize from hlt), hself]
  · intro r hr
    cases r with
    | slot j =>
      have hj : j ≠ i := fun h => hr (by rw [h])
      simp only [IpcSpace.findEntry, hother j hj]
      rfl
    | node m => rfl

theorem updated_node (he : (name, e) ∈ s.isTree.toList)
    {f : IpcEntry → IpcEntry} (hgen : (f e).ieBits.gen = e.ieBits.gen)
    (hcoll : (f e).ieBits.collision = e.ieBits.collision) {h : ℕ}
    (hhash : h + treeSend e (.node name) = s.isTreeHash + treeSend (f e) (.node name)) :
    Updated T s { s with isTree := s.isTree.modify name f, isTreeHash := h } free name
      (.node name) (f e) := by
  have hwf := IpcSplayTree.wf_modify hs.wf name f
  have hlist := IpcSplayTree.toList_modify s.isTree name f
  have hmem : ∀ k a, (k, a) ∈ (s.isTree.modify name f).toList ↔
      (k = name ∧ a = f e) ∨ (k ≠ name ∧ (k, a) ∈ s.isTree.toList) := by
    intro k a
    rw [← hwf.sorted.lookup_eq_some_iff, hlist, KeysSorted.lookup_mapKeyList]
    by_cases hk : k = name
    · subst hk
      rw [if_pos rfl, hs.wf.sorted.lookup_eq_some_iff.mpr he]
      simp [eq_comm]
    · rw [if_neg hk, hs.wf.sorted.lookup_eq_some_iff]
      simp [hk]
  have hindex : ∀ i, (∃ p ∈ (s.isTree.modify name f).toList, machPortIndex p.1 = i) ↔
      ∃ p ∈ s.isTree.toList, machPortIndex p.1 = i := by
    intro i
    constructor
    · rintro ⟨⟨k, a⟩, hp, rfl⟩
      rcases (hmem k a).mp hp with ⟨rfl, -⟩ | ⟨-, hp⟩
      · exact ⟨_, he, rfl⟩
      · exact ⟨_, hp, rfl⟩
    · rintro ⟨⟨k, a⟩, hp, rfl⟩
      by_cases hk : k = name
      · exact ⟨(name, f e), (hmem _ _).mpr (Or.inl ⟨rfl, rfl⟩), by rw [hk]⟩
      · exact ⟨(k, a), (hmem _ _).mpr (Or.inr ⟨hk, hp⟩), rfl⟩
  have hkeys : ∀ {P : ℕ → Prop}, (∀ p ∈ s.isTree.toList, P p.1) →
      ∀ p ∈ (s.isTree.modify name f).toList, P p.1 := by
    intro P hP
    rw [hlist]
    exact forall_mem_mapKeyList.mpr hP
  have hperm := KeysSorted.perm_mapKeyList hs.wf.sorted f he
  refine .of_frame hs ⟨rfl, e, he⟩ rfl
    ⟨hs.next_pos, hs.next_le, hs.size_eq, hs.slots, hwf, ⟨hkeys hs.nodes.valid, ?_,
      fun i hi => by rw [hindex]; exact hs.nodes.collision i hi, ?_⟩, ?_, ?_, ?_⟩ ?_ ?_ ?_
  · rintro ⟨k, a⟩ hp
    rcases (hmem k a).mp hp with ⟨rfl, rfl⟩ | ⟨-, hp⟩
    · have := hs.nodes.plain _ he
      exact ⟨hgen.trans this.1, hcoll.trans this.2⟩
    · exact hs.nodes.plain _ hp
  · exact hkeys (P := fun k => 0 < machPortIndex k → machPortIndex k < s.isTableSize →
      (s.isTable (machPortIndex k)).ieBits.gen ≠ machPortGen k) hs.nodes.gen_ne
  · dsimp only
    rw [hs.total, hlist]
    simp [mapKeyList]
  · dsimp only
    rw [hs.small]
    congr 1
    ext i
    rw [mem_smallIndexes, mem_smallIndexes, hindex]
  · have hold := sendCount_perm (KeysSorted.perm_cons_filter hs.wf.sorted he)
    have hnew := sendCount_perm hperm
    rw [← hlist] at hnew
    rw [hs.hash] at hhash
    simp only [treeSend] at hhash
    dsimp only at hold hnew ⊢
    omega
  · intro n r
    cases r with
    | slot j => rfl
    | node m =>
      refine and_congr_right fun _ => ?_
      by_cases hn : n = name
      · subst hn
        exact ⟨fun _ => ⟨e, he⟩, fun _ => ⟨f e, (hmem _ _).mpr (Or.inl ⟨rfl, rfl⟩)⟩⟩
      · exact exists_congr fun a => by rw [hmem]; simp [hn]
  · exact hwf.sorted.lookup_eq_some_iff.mpr ((hmem _ _).mpr (Or.inl ⟨rfl, rfl⟩))
  · intro r hr
    cases r with
    | slot j => rfl
    | node m =>
      have hm : m ≠ name := fun h => hr (by rw [h])
      simp only [IpcSpace.findEntry]
      rw [hlist, KeysSorted.lookup_mapKeyList, if_neg hm]

theorem treeSend_le (hh : s.Holds free name ref)
    (he : s.findEntry ref = some e) : treeSend e ref ≤ s.isTreeHash := by
  cases ref with
  | slot i => exact Nat.zero_le _
  | node m =>
    obtain ⟨rfl, -⟩ := hh
    have hm := hs.wf.sorted.lookup_eq_some_iff.mp he
    have hcount := sendCount_perm (KeysSorted.perm_cons_filter hs.wf.sorted hm)
    rw [hs.hash, hcount]
    exact Nat.le_add_left _ _

/-- **Writing through a pointer to an entry in use**, with the hash count brought up to
date. -/
theorem modifyEntry_spec (hh : s.Holds free name ref)
    (he : s.findEntry ref = some e) {f : IpcEntry → IpcEntry}
    (hgen : (f e).ieBits.gen = e.ieBits.gen)
    (hcoll : (f e).ieBits.collision = e.ieBits.collision) {h : ℕ}
    (hhash : h + treeSend e ref = s.isTreeHash + treeSend (f e) ref) :
    Updated T s { s.modifyEntry f ref with isTreeHash := h } free name ref (f e) := by
  cases ref with
  | slot i =>
    rw [IpcSpace.findEntry, if_pos hh.2.2.1] at he
    cases he
    simp only [treeSend, Nat.add_zero] at hhash
    subst hhash
    exact updated_slot hs hh hgen hcoll
  | node m =>
    obtain ⟨rfl, -⟩ := hh
    exact updated_node hs (hs.wf.sorted.lookup_eq_some_iff.mp he) hgen hcoll hhash

end

/-- Where the entry behind a pointer is after `ipc_entry_dealloc(space, name, ref)`: a tree
entry may have moved into the slot. -/
def deallocMove (s : IpcSpace) (name : ℕ) (ref : IpcEntryRef) : IpcEntryRef → IpcEntryRef
  | .slot i => .slot i
  | .node m =>
    if machPortIndex name < s.isTableSize ∧ ref = .slot (machPortIndex name) ∧
        (s.isTable (machPortIndex name)).ieBits.collision = true ∧
        (deallocPick s (machPortIndex name)).map Prod.fst = some m then
      .slot (machPortIndex name)
    else .node m

/-- **What deallocating an entry means**: its name is gone from the map, the others are
where `move` says, with the capability they had. -/
structure Deallocated (T : TableSizes) (s s' : IpcSpace) (free free' : List ℕ) (name : ℕ)
    (ref : IpcEntryRef) (move : IpcEntryRef → IpcEntryRef) : Prop where
  active : s'.isActive = s.isActive
  rep : Rep T s' free'
  view : s'.view = update s.view name none
  holds : ∀ n r, n ≠ name → s.Holds free n r → s'.Holds free' n (move r)
  entry : ∀ n r, n ≠ name → s.Holds free n r →
    (s'.findEntry (move r)).map IpcEntry.capability = (s.findEntry r).map IpcEntry.capability
  typed : ∀ except, s.TypedBut free (ref :: except) → s'.TypedBut free' (except.map move)

/-- **A deallocation is what it does to the entries**, as far as they are in use. -/
theorem Deallocated.of_holds {h : ℕ} {move : IpcEntryRef → IpcEntryRef}
    (hs : Rep T { s with isTreeHash := h } free) (hh : s.Holds free name ref)
    (active : s'.isActive = s.isActive) (rep : Rep T s' free')
    (holds : ∀ n r, n ≠ name → s.Holds free n r → s'.Holds free' n (move r))
    (entry : ∀ n r, n ≠ name → s.Holds free n r →
      (s'.findEntry (move r)).map IpcEntry.capability = (s.findEntry r).map IpcEntry.capability)
    (back : ∀ n r', s'.Holds free' n r' → n ≠ name ∧ ∃ r, s.Holds free n r ∧ move r = r') :
    Deallocated T s s' free free' name ref move := by
  refine ⟨active, rep, ?_, holds, entry, fun except ht => ?_⟩
  · funext n
    by_cases hn : n = name
    · rw [hn, update_self]
      exact rep.view_eq_none fun r hr => (back name r hr).1 rfl
    · rw [update_of_ne hn]
      exact hs.view_congr rep (fun r hr => ⟨move r, holds n r hn hr, entry n r hn hr⟩)
        fun r hr => (back n r hr).2.imp fun _ h => h.1
  · rw [rep.typedBut_iff]
    intro n r' a hr' hex ha
    obtain ⟨hn, r, hr, rfl⟩ := back n r' hr'
    obtain ⟨b, hb⟩ := IpcSpace.Holds.entry (s := { s with isTreeHash := h }) hr hs
    have hcap := entry n r hn hr
    rw [ha, show s.findEntry r = some b from hb, Option.map_some, Option.map_some,
      Option.some.injEq] at hcap
    rw [show a.ieBits.type = b.ieBits.type from congrArg Capability.type hcap]
    refine (hs.typedBut_iff.mp ⟨ht.slot, ht.node⟩) n r b hr ?_ hb
    exact List.not_mem_cons_of_ne_of_not_mem (fun h => hn (IpcSpace.Holds.name_eq hr (h ▸ hh)))
      fun h => hex (List.mem_map_of_mem h)

theorem split_index {t : IpcSplayTree IpcEntry} (ht : t.Wf) {i : ℕ} (hi : i < 2 ^ 24) :
    (∀ p, p ∈ (ipcSplayTreeSplit t (machPortMake i 0)).1.toList ↔
        p ∈ t.toList ∧ i ≤ machPortIndex p.1) ∧
      (∀ p, p ∈ (ipcSplayTreeSplit t (machPortMake i 0)).2.toList ↔
        p ∈ t.toList ∧ machPortIndex p.1 < i) ∧
      (ipcSplayTreeSplit t (machPortMake i 0)).1.Wf ∧
      (ipcSplayTreeSplit t (machPortMake i 0)).2.Wf := by
  obtain ⟨h1, h2, hw1, hw2⟩ := IpcSplayTree.split_spec ht (machPortMake i 0)
  refine ⟨fun p => ?_, fun p => ?_, hw1, hw2⟩
  · rw [h1, List.mem_filter, decide_eq_true_eq, make_le_iff hi]
  · rw [h2, List.mem_filter, decide_eq_true_eq, lt_make_iff hi]

theorem lt_of_index_lt {n m : ℕ} (h : machPortIndex n < machPortIndex m) : n < m := by
  unfold machPortIndex at h; omega

theorem remove_small {L L' : List (ℕ × IpcEntry)} (lo hi : ℕ) (he : (name, e) ∈ L)
    (hmem : ∀ p, p ∈ L' ↔ p ∈ L ∧ p.1 ≠ name) :
    (smallIndexes L lo hi).card = (smallIndexes L' lo hi).card +
      if (lo ≤ machPortIndex name ∧ machPortIndex name < hi) ∧
        ¬ ∃ p ∈ L', machPortIndex p.1 = machPortIndex name then 1 else 0 := by
  -- put the other way round: the list before is the list after with a name inserted
  have hmem' : ∀ i, (∃ p ∈ L, machPortIndex p.1 = i) ↔
      ∃ p ∈ (name, e) :: L', machPortIndex p.1 = i := by
    intro i
    constructor
    · rintro ⟨p, hp, rfl⟩
      by_cases hpn : p.1 = name
      · exact ⟨(name, e), List.mem_cons_self, by rw [hpn]⟩
      · exact ⟨p, List.mem_cons_of_mem _ ((hmem p).mpr ⟨hp, hpn⟩), rfl⟩
    · rintro ⟨p, hp, rfl⟩
      rcases List.mem_cons.mp hp with rfl | hp
      · exact ⟨_, he, rfl⟩
      · exact ⟨p, ((hmem p).mp hp).1, rfl⟩
  have heq : smallIndexes L lo hi = smallIndexes ((name, e) :: L') lo hi := by
    ext i
    rw [mem_smallIndexes, mem_smallIndexes, hmem']
  rw [heq, insert_small (L := L') (e := e) fun p => List.mem_cons]

theorem deallocCollision_eq (hs : Rep T s free) {i : ℕ} (hi : i < s.isTableSize)
    (hex : ∃ p ∈ s.isTree.toList, machPortIndex p.1 = i) :
    ∃ tname te t, deallocPick s i = some (tname, te) ∧ (tname, te) ∈ s.isTree.toList ∧
      machPortIndex tname = i ∧ t.Wf ∧
      t.toList = s.isTree.toList.filter (fun p => decide (p.1 ≠ tname)) ∧
      ∃ c, (c = true ↔ ∃ p ∈ t.toList, machPortIndex p.1 = i) ∧
      deallocCollision s i = { s with
        isTable := update s.isTable i
          ⟨⟨machPortGen tname, c, te.ieBits.type, te.ieBits.urefs⟩, te.ieObject, te.ieRequest⟩
        isTree := t
        isTreeTotal := s.isTreeTotal - 1
        isTreeHash := s.isTreeHash - if te.ieBits.type = .send then 1 else 0 } := by
  have hi24 : i + 1 < 2 ^ 24 + 1 := by have := hs.size_lt; omega
  have hsz := hs.size_lt
  obtain ⟨hu1, hu2, hwu, hwl⟩ := split_index hs.wf (i := i + 1) (by omega)
  obtain ⟨hc1, hc2, hwc, hwsm⟩ := split_index hwl (i := i) (by omega)
  -- the three parts of the tree
  have hcm : ∀ p, p ∈ (deallocCut s i).1.toList ↔ p ∈ s.isTree.toList ∧ machPortIndex p.1 = i := by
    intro p
    rw [deallocCut, hc1, hu2]
    exact ⟨fun h => ⟨h.1.1, by omega⟩, fun h => ⟨⟨h.1, by omega⟩, by omega⟩⟩
  have hsm : ∀ p, p ∈ (deallocCut s i).2.1.toList ↔
      p ∈ s.isTree.toList ∧ machPortIndex p.1 < i := by
    intro p
    rw [deallocCut, hc2, hu2]
    exact ⟨fun h => ⟨h.1.1, h.2⟩, fun h => ⟨⟨h.1, by omega⟩, h.2⟩⟩
  have hum : ∀ p, p ∈ (deallocCut s i).2.2.toList ↔
      p ∈ s.isTree.toList ∧ i + 1 ≤ machPortIndex p.1 := hu1
  have hwC : (deallocCut s i).1.Wf := hwc
  have hwS : (deallocCut s i).2.1.Wf := hwsm
  have hwU : (deallocCut s i).2.2.Wf := hwu
  cases hpick : deallocPick s i with
  | none =>
    exfalso
    obtain ⟨p, hp, hpi⟩ := hex
    have hnil := IpcSplayTree.pick_eq_none_iff.mp hpick
    have := (hcm p).mpr ⟨hp, hpi⟩
    rw [hnil] at this
    simp at this
  | some q =>
    obtain ⟨tname, te⟩ := q
    have hq := IpcSplayTree.mem_pick hpick
    obtain ⟨hqL, hqi⟩ := (hcm _).mp hq
    have hplain := hs.nodes.plain _ hqL
    have hor : te.ieBits.orGen tname = ⟨machPortGen tname, false, te.ieBits.type, te.ieBits.urefs⟩ := by
      obtain ⟨hg, hc⟩ := hplain
      rw [IeBits.orGen, hg, hc, Nat.zero_or]
    have hdel := IpcSplayTree.toList_delete hwC ⟨te, hq⟩
    have hwD := IpcSplayTree.wf_delete hwC ⟨te, hq⟩
    have hdm : ∀ p, p ∈ (ipcSplayTreeDelete (deallocCut s i).1 tname).toList ↔
        (p ∈ s.isTree.toList ∧ machPortIndex p.1 = i) ∧ p.1 ≠ tname := by
      intro p
      rw [hdel, List.mem_filter, decide_eq_true_eq, hcm]
    -- joining the remaining parts gives the tree without the entry picked
    have hparts : ∀ (t : IpcSplayTree IpcEntry), t.Wf → (∀ p, p ∈ t.toList ↔
        ((p ∈ s.isTree.toList ∧ machPortIndex p.1 < i) ∨
          ((p ∈ s.isTree.toList ∧ machPortIndex p.1 = i) ∧ p.1 ≠ tname)) ∨
            (p ∈ s.isTree.toList ∧ i + 1 ≤ machPortIndex p.1)) →
        t.toList = s.isTree.toList.filter (fun p => decide (p.1 ≠ tname)) := by
      intro t ht hm
      refine KeysSorted.ext ht.sorted (hs.wf.sorted.filter _) fun p => ?_
      rw [hm, List.mem_filter, decide_eq_true_eq]
      constructor
      · rintro ((⟨hp, hlt⟩ | ⟨⟨hp, -⟩, hne⟩) | ⟨hp, hlt⟩)
        · exact ⟨hp, fun h => by rw [h, hqi] at hlt; exact absurd hlt (lt_irrefl _)⟩
        · exact ⟨hp, hne⟩
        · exact ⟨hp, fun h => by rw [h, hqi] at hlt; omega⟩
      · rintro ⟨hp, hne⟩
        rcases lt_trichotomy (machPortIndex p.1) i with h | h | h
        · exact Or.inl (Or.inl ⟨hp, h⟩)
        · exact Or.inl (Or.inr ⟨⟨hp, h⟩, hne⟩)
        · exact Or.inr ⟨hp, h⟩
    have hindex : ∀ t : IpcSplayTree IpcEntry,
        t.toList = s.isTree.toList.filter (fun p => decide (p.1 ≠ tname)) →
        ((∃ p ∈ t.toList, machPortIndex p.1 = i) ↔
          (ipcSplayTreeDelete (deallocCut s i).1 tname).toList ≠ []) := by
      intro t ht
      rw [ht, Ne, List.eq_nil_iff_forall_not_mem, not_forall]
      refine exists_congr fun p => ?_
      rw [not_not, hdm, List.mem_filter, decide_eq_true_eq]
      tauto
    cases hpick2 : ipcSplayTreePick (ipcSplayTreeDelete (deallocCut s i).1 tname) with
    | none =>
      have hnil := IpcSplayTree.pick_eq_none_iff.mp hpick2
      obtain ⟨hj, hwj⟩ := IpcSplayTree.join_spec hwU hwS fun p hp q hq =>
        lt_of_index_lt (by have := (hsm p).mp hp; have := (hum q).mp hq; omega)
      have htl := hparts _ hwj fun p => by
        have hd := hdm p
        rw [hnil] at hd
        rw [hj, List.mem_append, hsm, hum, ← hd]
        simp
      refine ⟨tname, te, _, rfl, hqL, hqi, hwj, htl, false, ?_, ?_⟩
      · rw [hindex _ htl, hnil]; simp
      · rw [deallocCollision, hpick]
        dsimp only
        rw [hor, hpick2]
        by_cases hsend : te.ieBits.type = .send
        · rw [if_pos hsend, if_pos hsend]; rfl
        · rw [if_neg hsend, if_neg hsend]; rfl
    | some q2 =>
      have hne : (ipcSplayTreeDelete (deallocCut s i).1 tname).toList ≠ [] := fun h => by
        rw [IpcSplayTree.pick_eq_none_iff.mpr h] at hpick2
        cases hpick2
      obtain ⟨hj1, hwj1⟩ := IpcSplayTree.join_spec hwU hwD fun p hp q hq =>
        lt_of_index_lt (by have := (hdm p).mp hp; have := (hum q).mp hq; omega)
      obtain ⟨hj2, hwj2⟩ := IpcSplayTree.join_spec hwj1 hwS fun p hp q hq => by
        rw [hj1, List.mem_append, hdm, hum] at hq
        have := (hsm p).mp hp
        exact lt_of_index_lt (by omega)
      have htl := hparts _ hwj2 fun p => by
        rw [hj2, hj1, List.mem_append, List.mem_append, hsm, hdm, hum, or_assoc]
      refine ⟨tname, te, _, rfl, hqL, hqi, hwj2, htl, true, ?_, ?_⟩
      · rw [hindex _ htl]; exact ⟨fun _ => hne, fun _ => rfl⟩
      · rw [deallocCollision, hpick]
        dsimp only
        rw [hor, hpick2]
        by_cases hsend : te.ieBits.type = .send <;>
          simp [hsend, IpcSpace.setBits, IpcSpace.setSlot, IeBits.setCollision,
            IpcSpace.hashGlobalDelete]

/-- A space whose hash count is right once `ref` has left the reverse hash. -/
def RepLess (T : TableSizes) (s : IpcSpace) (free : List ℕ) (e : IpcEntry) (ref : IpcEntryRef) :
    Prop :=
  Rep T { s with isTreeHash := s.isTreeHash + treeSend e ref } free

/-- **Deallocating a slot with a collision**: the entry picked moves from the tree into the
slot. -/
theorem deallocated_collision (hs : Rep T s free) {i : ℕ} (hh : s.Holds free name (.slot i))
    (hcoll : (s.isTable i).ieBits.collision = true) :
    Deallocated T s (deallocCollision s i) free free name (.slot i)
      (deallocMove s name (.slot i)) := by
  have hholds := hh
  obtain ⟨rfl, h0, hlt, hfree, hg⟩ := hh
  set i := machPortIndex name with hidef
  obtain ⟨tname, te, t, hpick, hte, hti, hwt, htl, c, hc, heq⟩ :=
    deallocCollision_eq hs hlt ((hs.nodes.collision i hlt).mp hcoll)
  rw [heq]
  generalize hhash : s.isTreeHash - (if te.ieBits.type = .send then 1 else 0) = h
  have hmove : ∀ m, deallocMove s name (.slot i) (.node m) =
      if m = tname then .slot i else .node m := by
    intro m
    rw [deallocMove, ← hidef, hpick]
    simp [hlt, hcoll, eq_comm]
  have hmem : ∀ p, p ∈ t.toList ↔ p ∈ s.isTree.toList ∧ p.1 ≠ tname := by
    intro p
    rw [htl, List.mem_filter, decide_eq_true_eq]
  have hperm := KeysSorted.perm_cons_filter hs.wf.sorted hte
  rw [← htl] at hperm
  have htgen : machPortGen tname ≠ (s.isTable i).ieBits.gen := fun h =>
    hs.nodes.gen_ne _ hte (by rw [hti]; exact h0) (by rw [hti]; exact hlt) (by rw [hti]; exact h.symm)
  set enew : IpcEntry :=
    ⟨⟨machPortGen tname, c, te.ieBits.type, te.ieBits.urefs⟩, te.ieObject, te.ieRequest⟩ with henew
  have hself : update s.isTable i enew i = enew := update_self ..
  have hother : ∀ j, j ≠ i → update s.isTable i enew j = s.isTable j := fun j hj =>
    update_of_ne hj _ _
  refine .of_holds hs hholds rfl ⟨hs.next_pos, hs.next_le, hs.size_eq,
    hs.slots.set h0 hfree (machPortGen_lt tname), hwt, ⟨?_, ?_, ?_, ?_⟩, ?_, ?_, ?_⟩ ?_ ?_ ?_
  · exact fun p hp => hs.nodes.valid p ((hmem p).mp hp).1
  · exact fun p hp => hs.nodes.plain p ((hmem p).mp hp).1
  · intro j hj
    dsimp only
    by_cases hji : j = i
    · rw [hji, hself]; exact hc
    · rw [hother j hji, hs.nodes.collision j hj]
      refine exists_congr fun p => ?_
      rw [hmem]
      constructor
      · rintro ⟨hp, rfl⟩; exact ⟨⟨hp, fun h => hji (by rw [h, hti])⟩, rfl⟩
      · rintro ⟨⟨hp, -⟩, rfl⟩; exact ⟨hp, rfl⟩
  · intro p hp hp0 hp1
    obtain ⟨hp, hpt⟩ := (hmem p).mp hp
    dsimp only at hp1 ⊢
    by_cases hpi : machPortIndex p.1 = i
    · rw [hpi, hself]
      exact fun h => hpt (name_ext (hpi.trans hti.symm) h.symm)
    · rw [hother _ hpi]; exact hs.nodes.gen_ne p hp hp0 hp1
  · dsimp only
    have := hperm.length_eq
    rw [hs.total, this]
    rfl
  · dsimp only
    have := remove_small s.isTableSize (T.itsSize s.isTableNext) hte hmem
    rw [if_neg (by rw [hti]; omega), Nat.add_zero] at this
    rw [hs.small, this]
  · dsimp only
    have := sendCount_perm hperm
    rw [← hhash, hs.hash, this]
    dsimp only
    omega
  · intro n r hn hh
    cases r with
    | slot j =>
      have hji : j ≠ i := fun h => hn (hh.name_eq (h ▸ hholds))
      refine ⟨hh.1, hh.2.1, hh.2.2.1, hh.2.2.2.1, ?_⟩
      dsimp only
      rw [hother j hji]
      exact hh.2.2.2.2
    | node m =>
      obtain ⟨rfl, e, he⟩ := hh
      rw [hmove]
      split
      · next hmt =>
        subst hmt
        refine ⟨hti.symm, h0, hlt, hfree, ?_⟩
        dsimp only
        rw [hself]
      · next hmt => exact ⟨rfl, e, (hmem _).mpr ⟨he, hmt⟩⟩
  · intro n r hn hh
    cases r with
    | slot j =>
      have hji : j ≠ i := fun h => hn (hh.name_eq (h ▸ hholds))
      simp only [deallocMove, IpcSpace.findEntry, hother j hji]
    | node m =>
      obtain ⟨rfl, e, he⟩ := hh
      rw [hmove]
      split
      · next hmt =>
        subst hmt
        simp only [IpcSpace.findEntry, hlt, if_true, hself, hs.wf.sorted.lookup_eq_some_iff.mpr hte]
        rfl
      · next hmt =>
        simp only [IpcSpace.findEntry]
        rw [htl, KeysSorted.lookup_filter_ne hs.wf.sorted, if_neg hmt]
  · intro n r hh
    cases r with
    | slot j =>
      obtain ⟨hj, hj0, hjlt, hjf, hjg⟩ := hh
      dsimp only at hjg
      by_cases hji : j = i
      · rw [hji, hself] at hjg
        obtain rfl : tname = n := name_ext (hti.trans (hji.symm.trans hj)) hjg
        refine ⟨fun h => htgen ?_, .node tname, ⟨rfl, te, hte⟩, by rw [hmove, if_pos rfl, hji]⟩
        rw [h]; exact hg.symm
      · rw [hother j hji] at hjg
        exact ⟨fun h => hji (by rw [hj, h]), .slot j, ⟨hj, hj0, hjlt, hjf, hjg⟩, rfl⟩
    | node m =>
      obtain ⟨rfl, a, ha⟩ := hh
      obtain ⟨hma, hmt⟩ := (hmem _).mp ha
      refine ⟨?_, .node m, ⟨rfl, a, hma⟩, by rw [hmove, if_neg hmt]⟩
      rintro rfl
      exact hs.nodes.gen_ne (m, a) hma h0 hlt hg

/-- **Deallocating a slot nothing collides with**: it becomes the first free slot. -/
theorem deallocated_slot (hs : Rep T s free) {i : ℕ} (hh : s.Holds free name (.slot i))
    (hcoll : (s.isTable i).ieBits.collision = false) (hobj : (s.isTable i).ieObject = .null) :
    Deallocated T s (deallocSlot s i) free (i :: free) name (.slot i)
      (deallocMove s name (.slot i)) := by
  have hholds := hh
  obtain ⟨rfl, h0, hlt, hfree, hg⟩ := hh
  set i := machPortIndex name with hidef
  have hi0 : i ≠ 0 := by omega
  have hmove : ∀ r, deallocMove s name (.slot i) r = r := by
    intro r
    cases r with
    | slot j => rfl
    | node m =>
      rw [deallocMove, ← hidef, if_neg fun h => by rw [hcoll] at h; exact Bool.false_ne_true h.2.2.1]
  set table := (deallocSlot s i).isTable with htable
  have hself : table i = ⟨(s.isTable i).ieBits.maskGen, .null, (s.isTable 0).ieNext⟩ := by
    simp [htable, deallocSlot, IpcSpace.setNext, IpcSpace.setSlot, update_of_ne hi0, hobj]
  have hzero : table 0 = { s.isTable 0 with ieRequest := i } := by
    simp [htable, deallocSlot, IpcSpace.setNext, IpcSpace.setSlot, update_of_ne hi0.symm]
  have hother : ∀ j, j ≠ i → j ≠ 0 → table j = s.isTable j := by
    intro j hj hj0
    simp [htable, deallocSlot, IpcSpace.setNext, IpcSpace.setSlot, update_of_ne hj,
      update_of_ne hj0]
  have hbits : ∀ j, j ≠ i → (table j).ieBits = (s.isTable j).ieBits ∧
      (table j).ieObject = (s.isTable j).ieObject := by
    intro j hj
    by_cases hj0 : j = 0
    · rw [hj0, hzero]; exact ⟨rfl, rfl⟩
    · rw [hother j hj hj0]; exact ⟨rfl, rfl⟩
  have hgens : ∀ j, (table j).ieBits.gen = (s.isTable j).ieBits.gen ∧
      (table j).ieBits.collision = (s.isTable j).ieBits.collision := by
    intro j
    by_cases hj : j = i
    · rw [hj, hself]; exact ⟨rfl, hcoll.symm⟩
    · rw [(hbits j hj).1]; exact ⟨rfl, rfl⟩
  have hnode : ¬ ∃ p ∈ s.isTree.toList, machPortIndex p.1 = i := by
    rw [← hs.nodes.collision i hlt, hcoll]; exact Bool.false_ne_true
  have hne : ∀ n j, n ≠ name → s.Holds free n (.slot j) → j ≠ i := fun n j hn hh h =>
    hn (hh.name_eq (h ▸ hholds))
  refine .of_holds hs hholds rfl { hs with
    slots := ⟨hs.slots.size_pos, ?_, List.nodup_cons.mpr ⟨hfree, hs.slots.nodup⟩, ?_, ?_, ?_, ?_⟩
    nodes := { hs.nodes with collision := ?_, gen_ne := ?_ } } ?_ ?_ ?_
  · refine (hs.slots.chain.push hi0 hfree hs.slots.head_not_mem).congr fun x _ => ?_
    change (table x).ieNext = _
    by_cases hx0 : x = 0
    · rw [hx0, hzero, update_self]; rfl
    · rw [update_of_ne hx0]
      by_cases hxi : x = i
      · rw [hxi, hself, update_self]; rfl
      · rw [update_of_ne hxi, hother x hxi hx0]
  · intro j hj
    rcases List.mem_cons.mp hj with rfl | hj
    · exact ⟨h0, hlt⟩
    · exact hs.slots.range j hj
  · intro j hj
    change (table j).ieBits.maskGen = (table j).ieBits ∧ (table j).ieObject = .null
    rcases List.mem_cons.mp hj with rfl | hj
    · rw [hself]; exact ⟨rfl, rfl⟩
    · have hji : j ≠ i := fun h => hfree (h ▸ hj)
      rw [(hbits j hji).1, (hbits j hji).2]
      exact hs.slots.unused j hj
  · change (table 0).ieBits.gen = 255 ∧ (table 0).ieBits.type = .none
    rw [hzero]; exact hs.slots.head
  · intro j hj
    change (table j).ieBits.gen < 256
    rw [(hgens j).1]; exact hs.slots.gen_lt j hj
  · intro j hj
    change (table j).ieBits.collision = true ↔ _
    rw [(hgens j).2]; exact hs.nodes.collision j hj
  · intro p hp hp0 hp1
    change (table _).ieBits.gen ≠ _
    rw [(hgens _).1]; exact hs.nodes.gen_ne p hp hp0 hp1
  · intro n r hn hh
    rw [hmove]
    cases r with
    | slot j =>
      refine ⟨hh.1, hh.2.1, hh.2.2.1, ?_, (hgens j).1.trans hh.2.2.2.2⟩
      rw [List.mem_cons, not_or]
      exact ⟨hne n j hn hh, hh.2.2.2.1⟩
    | node m => exact hh
  · intro n r hn hh
    rw [hmove]
    cases r with
    | slot j =>
      have hj : (deallocSlot s i).isTable j = s.isTable j :=
        hother j (hne n j hn hh) (by have := hh.2.1; omega)
      simp only [IpcSpace.findEntry, hj]
      rfl
    | node m => rfl
  · intro n r hh
    cases r with
    | slot j =>
      obtain ⟨hj, hj0, hjlt, hjf, hjg⟩ := hh
      rw [List.mem_cons, not_or] at hjf
      exact ⟨fun h => hjf.1 (by rw [hj, h]), .slot j,
        ⟨hj, hj0, hjlt, hjf.2, (hgens j).1.symm.trans hjg⟩, rfl⟩
    | node m =>
      obtain ⟨rfl, a, ha⟩ := hh
      exact ⟨fun h => hnode ⟨_, ha, by rw [h]⟩, .node m, ⟨rfl, a, ha⟩, hmove _⟩

/-- The table after the collision bit of a slot has been recomputed. -/
def remarkCollision (s : IpcSpace) (index : ℕ) (c : Bool) : ℕ → IpcEntry :=
  if index < s.isTableSize then
    update s.isTable index
      { s.isTable index with ieBits := { (s.isTable index).ieBits with collision := c } }
  else s.isTable

theorem remarkCollision_apply (s : IpcSpace) (index j : ℕ) (c : Bool) :
    remarkCollision s index c j = { s.isTable j with
      ieBits := { (s.isTable j).ieBits with
        collision := if index < s.isTableSize ∧ j = index then c
          else (s.isTable j).ieBits.collision } } := by
  unfold remarkCollision
  split
  · next h =>
    by_cases hj : j = index
    · subst hj; simp [h]
    · simp [hj]
  · next h => simp [h]

theorem remove_rep (hs : RepLess T s free e (.node name)) (he : (name, e) ∈ s.isTree.toList)
    {t : IpcSplayTree IpcEntry} (ht : t.Wf)
    (htl : t.toList = s.isTree.toList.filter fun p => decide (p.1 ≠ name)) {c : Bool}
    (hc : c = true ↔ ∃ p ∈ t.toList, machPortIndex p.1 = machPortIndex name) (small : ℕ)
    (hsmall : small = s.isTreeSmall -
      if (s.isTableSize ≤ machPortIndex name ∧ machPortIndex name < T.itsSize s.isTableNext) ∧
        ¬ ∃ p ∈ t.toList, machPortIndex p.1 = machPortIndex name then 1 else 0) :
    Deallocated T s { s with
      isTable := remarkCollision s (machPortIndex name) c
      isTree := t
      isTreeTotal := s.isTreeTotal - 1
      isTreeSmall := small } free free name (.node name) (deallocMove s name (.node name)) := by
  have hmove : ∀ r, deallocMove s name (.node name) r = r := by
    intro r
    cases r with
    | slot j => rfl
    | node m => rw [deallocMove, if_neg fun h => by cases h.2.1]
  have hmem : ∀ p, p ∈ t.toList ↔ p ∈ s.isTree.toList ∧ p.1 ≠ name := by
    intro p
    rw [htl, List.mem_filter, decide_eq_true_eq]
  have hperm : s.isTree.toList.Perm ((name, e) :: t.toList) := by
    rw [htl]; exact KeysSorted.perm_cons_filter hs.wf.sorted he
  refine .of_holds hs ⟨rfl, e, he⟩ rfl ⟨hs.next_pos, hs.next_le, hs.size_eq,
    ⟨hs.slots.size_pos, ?_, hs.slots.nodup, hs.slots.range, ?_, ?_, ?_⟩, ht, ⟨?_, ?_, ?_, ?_⟩,
    ?_, ?_, ?_⟩ ?_ ?_ ?_
  · refine hs.slots.chain.congr fun x _ => ?_
    dsimp only
    rw [remarkCollision_apply]
    rfl
  · intro i hi
    have hne : ¬ (machPortIndex name < s.isTableSize ∧ i = machPortIndex name) := by
      rintro ⟨-, rfl⟩
      exact hs.free_no_node hi ⟨_, he, rfl⟩
    dsimp only
    rw [remarkCollision_apply, if_neg hne]
    exact hs.slots.unused i hi
  · dsimp only
    rw [remarkCollision_apply]
    exact hs.slots.head
  · intro i hi
    dsimp only
    rw [remarkCollision_apply]
    exact hs.slots.gen_lt i hi
  · exact fun p hp => hs.nodes.valid p ((hmem p).mp hp).1
  · exact fun p hp => hs.nodes.plain p ((hmem p).mp hp).1
  · intro i hi
    dsimp only at hi ⊢
    rw [remarkCollision_apply]
    split
    · next h => rw [hc, h.2]
    · next h =>
      have hin : i ≠ machPortIndex name := fun hi' => h ⟨hi' ▸ hi, hi'⟩
      rw [show (s.isTable i).ieBits.collision = true ↔ _ from hs.nodes.collision i hi]
      refine exists_congr fun p => ?_
      rw [hmem]
      constructor
      · rintro ⟨hp, rfl⟩; exact ⟨⟨hp, fun h => hin (by rw [h])⟩, rfl⟩
      · rintro ⟨⟨hp, -⟩, rfl⟩; exact ⟨hp, rfl⟩
  · intro p hp h0 h1
    dsimp only
    rw [remarkCollision_apply]
    exact hs.nodes.gen_ne p ((hmem p).mp hp).1 h0 h1
  · have := hs.total
    rw [this, hperm.length_eq]
    rfl
  · have h1 := hs.small
    have h2 := remove_small s.isTableSize (T.itsSize s.isTableNext) he hmem
    dsimp only at h1 ⊢
    rw [hsmall, h1, h2]
    omega
  · have h1 := hs.hash
    have h2 := sendCount_perm hperm
    dsimp only at h1 h2 ⊢
    rw [treeSend] at h1
    omega
  · intro n r hn hh
    rw [hmove]
    cases r with
    | slot j =>
      refine ⟨hh.1, hh.2.1, hh.2.2.1, hh.2.2.2.1, ?_⟩
      dsimp only
      rw [remarkCollision_apply]
      exact hh.2.2.2.2
    | node m =>
      obtain ⟨rfl, a, ha⟩ := hh
      exact ⟨rfl, a, (hmem _).mpr ⟨ha, hn⟩⟩
  · intro n r hn hh
    rw [hmove]
    cases r with
    | slot j =>
      simp only [IpcSpace.findEntry]
      rw [remarkCollision_apply]
      split <;> rfl
    | node m =>
      obtain ⟨rfl, a, ha⟩ := hh
      simp only [IpcSpace.findEntry]
      rw [htl, KeysSorted.lookup_filter_ne hs.wf.sorted, if_neg hn]
  · intro n r hh
    cases r with
    | slot j =>
      obtain ⟨hj, hj0, hjlt, hjf, hjg⟩ := hh
      dsimp only at hjg
      rw [remarkCollision_apply] at hjg
      refine ⟨?_, .slot j, ⟨hj, hj0, hjlt, hjf, hjg⟩, rfl⟩
      rintro rfl
      subst hj
      exact hs.nodes.gen_ne _ he hj0 hjlt hjg
    | node m =>
      obtain ⟨rfl, a, ha⟩ := hh
      obtain ⟨ha, hne⟩ := (hmem _).mp ha
      exact ⟨hne, .node m, ⟨rfl, a, ha⟩, hmove _⟩

/-- **Deallocating a tree entry**, with the collision bit or `is_tree_small` brought up to
date. -/
theorem deallocated_node (hs : RepLess T s free e (.node name)) (he : (name, e) ∈ s.isTree.toList) :
    Deallocated T s (deallocNode T s name) free free name (.node name)
      (deallocMove s name (.node name)) := by
  have hdel := IpcSplayTree.toList_delete hs.wf ⟨e, he⟩
  have hwd := IpcSplayTree.wf_delete hs.wf ⟨e, he⟩
  have hvalid : ∀ p ∈ (ipcSplayTreeDelete s.isTree name).toList, MachPortValid p.1 := by
    rw [hdel]
    exact fun p hp => hs.nodes.valid p (List.mem_of_mem_filter hp)
  set s1 : IpcSpace := { s with
    isTree := ipcSplayTreeDelete s.isTree name
    isTreeTotal := s.isTreeTotal - 1 } with hs1
  have hsame := treeCollision_same (s := s1) hwd name
  have hfst := treeCollision_fst (s := s1) hwd hvalid name
  simp only [deallocNode, ← hs1]
  generalize ipcEntryTreeCollision s1 name = res at *
  obtain ⟨b, s2⟩ := res
  have heq : s2 = { s1 with isTree := s2.isTree } := hsame.eq
  have hl2 : s2.isTree.toList = s.isTree.toList.filter fun p => decide (p.1 ≠ name) :=
    hsame.list.trans hdel
  have hb : b = true ↔ ∃ p ∈ s2.isTree.toList, machPortIndex p.1 = machPortIndex name := by
    rw [show s2.isTree.toList = s1.isTree.toList from hsame.list]
    exact hfst
  by_cases hlt : machPortIndex name < s.isTableSize
  · rw [if_pos hlt]
    have hrem := remove_rep hs he hsame.wf hl2 hb s.isTreeSmall (by rw [if_neg (by omega)]; rfl)
    rw [remarkCollision, if_pos hlt] at hrem
    cases b with
    | false =>
      rw [heq]
      exact hrem
    | true =>
      have hcoll : (s.isTable (machPortIndex name)).ieBits.collision = true :=
        (hs.nodes.collision _ hlt).mpr ⟨_, he, rfl⟩
      -- the bit was set and stays set
      have hid : ({ s.isTable (machPortIndex name) with
          ieBits := { (s.isTable (machPortIndex name)).ieBits with collision := true } } : IpcEntry) =
          s.isTable (machPortIndex name) := by rw [← hcoll]
      rw [hid, Function.update_eq_self] at hrem
      rw [heq]
      exact hrem
  · have hmark : ∀ c, remarkCollision s (machPortIndex name) c = s.isTable := fun c => if_neg hlt
    rw [if_neg hlt]
    by_cases hlt' : machPortIndex name < T.itsSize s.isTableNext
    · rw [if_pos hlt']
      cases b with
      | false =>
        have hrem := remove_rep hs he hsame.wf hl2 hb (s.isTreeSmall - 1)
          (by rw [if_pos ⟨⟨by omega, hlt'⟩, fun h => Bool.false_ne_true (hb.mpr h)⟩])
        rw [hmark] at hrem
        rw [heq]
        exact hrem
      | true =>
        have hrem := remove_rep hs he hsame.wf hl2 hb s.isTreeSmall
          (by rw [if_neg fun h => h.2 (hb.mp rfl)]; rfl)
        rw [hmark] at hrem
        rw [heq]
        exact hrem
    · rw [if_neg hlt']
      have hrem := remove_rep hs he hwd hdel (c := b) (by
          rw [hb, hl2, ← hdel]) s.isTreeSmall (by rw [if_neg (by omega)]; rfl)
      rw [hmark] at hrem
      exact hrem

/-- **`ipc_entry_dealloc` takes the name out of the map** and keeps the invariant; the
entry is out of the reverse hash and holds no object. -/
theorem dealloc_spec (hs : RepLess T s free e ref) (hh : s.Holds free name ref)
    (he : s.findEntry ref = some e) (hobj : e.ieObject = .null) :
    ∃ free', Deallocated T s (ipcEntryDealloc T s name ref) free free' name ref
      (deallocMove s name ref) := by
  unfold ipcEntryDealloc
  cases ref with
  | slot i =>
    have hrep : Rep T s free := hs
    obtain rfl : i = machPortIndex name := hh.1
    rw [IpcSpace.findEntry, if_pos hh.2.2.1] at he
    cases he
    rw [if_pos ⟨hh.2.2.1, rfl⟩]
    split
    · next hc => exact ⟨_, deallocated_collision hrep hh hc⟩
    · next hc => exact ⟨_, deallocated_slot hrep hh (by simpa using hc) hobj⟩
  | node m =>
    obtain ⟨rfl, -⟩ := hh
    rw [if_neg fun h => by cases h.2]
    exact ⟨_, deallocated_node hs (hs.wf.sorted.lookup_eq_some_iff.mp he)⟩

end Osfmk

import Osfmk.Ipc.SpaceGrow
import Osfmk.Lib.Trace

/-!
# A space over a whole run

The routines on entries, as their callers use them: a new entry is given a right at once,
and an entry is cleared before it is deallocated.  Against a map from names to
capabilities that is updated by what the routines return, a run shows whether the space
represents it.
-/

open Function (update)
open List Option

namespace Osfmk

variable {T : TableSizes} {s s' : IpcSpace} {free free' : List ℕ} {name : ℕ} {ref : IpcEntryRef}

theorem Grown.refl (hs : Rep T s free) (ht : s.TypedBut free []) : Grown T s s :=
  ⟨⟨free, hs, ht⟩, rfl, rfl, le_rfl⟩

variable {cap : Capability} {s1 : IpcSpace} {st st' : IpcSpace × NameMap} {ops : List SpaceOp} {op
  : SpaceOp} {initial : ℕ}

theorem Grown.trans {s2 : IpcSpace} (h : Grown T s s1) (h' : Grown T s1 s2) : Grown T s s2 :=
  ⟨h'.rep, h'.view.trans h.view, h'.active.trans h.active, h.next.trans h'.next⟩

theorem SameEntries.grown (h : SameEntries s s') (hs : Rep T s free) (ht : s.TypedBut free []) :
    Grown T s s' :=
  ⟨⟨free, h.rep hs, h.typedBut ht⟩, h.view, by rw [h.eq], by rw [h.eq]⟩

/-- **A new entry**: the space may have grown, and then the entry was allocated. -/
def NewEntry (T : TableSizes) (s s' : IpcSpace) (name : ℕ) (ref : IpcEntryRef) : Prop :=
  ∃ s0 free0 free', Grown T s s0 ∧ Rep T s0 free0 ∧ s0.TypedBut free0 [] ∧
    Allocated T s0 s' free0 free' name ref

theorem Grown.newEntry (h : Grown T s s1) (h' : NewEntry T s1 s' name ref) :
    NewEntry T s s' name ref := by
  obtain ⟨s0, free0, free', hg, hrep, htyp, hal⟩ := h'
  exact ⟨s0, free0, free', h.trans hg, hrep, htyp, hal⟩

theorem allocLoop_spec (fuel : ℕ) (mem : List Bool) (hs : Rep T s free) (ht : s.TypedBut free []) :
    match (allocLoop T fuel s mem).1 with
    | .ok (name, ref) => MachPortValid name ∧ name ≠ shadowedName ∧
        NewEntry T s (allocLoop T fuel s mem).2.1 name ref
    | .error _ => Grown T s (allocLoop T fuel s mem).2.1 := by
  induction fuel generalizing s free mem with
  | zero => exact Grown.refl hs ht
  | succ fuel ih =>
    rw [allocLoop]
    split_ifs
    · exact Grown.refl hs ht
    cases hget : ipcEntryGet s with
    | mk r s1 =>
      cases r with
      | some r =>
        obtain ⟨name, ref⟩ := r
        obtain ⟨i, free', rfl, rfl, hv, hal⟩ := get_spec hs hget
        refine ⟨hv, ?_, s, _, free', Grown.refl hs ht, hs, ht, hal⟩
        rintro rfl
        exact absurd hal.holds.2.1 (by rw [hal.holds.1]; decide)
      | none =>
        have h1 := get_none hs (by rw [hget])
        obtain rfl : s1 = s := by rw [hget] at h1; exact (Prod.mk.inj h1.1).2
        have hgrow := growTable_spec none mem hs ht
        dsimp only
        generalize ipcEntryGrowTable T s1 none mem = res at *
        obtain ⟨kr, s2, mem'⟩ := res
        obtain ⟨free2, hrep2, htyp2⟩ := hgrow.rep
        have hih := ih mem' hrep2 htyp2
        cases kr with
        | success =>
          dsimp only at hih ⊢
          cases hres : (allocLoop T fuel s2 mem').1 with
          | ok r =>
            rw [hres] at hih
            exact ⟨hih.1, hih.2.1, hgrow.newEntry hih.2.2⟩
          | error kr =>
            rw [hres] at hih
            exact hgrow.trans hih
        | _ => exact hgrow

theorem allocLoop_fuel {fuel : ℕ} (mem : List Bool) (hs : Rep T s free)
    (ht : s.TypedBut free []) (hfuel : T.last + 1 ≤ s.isTableNext + fuel) :
    allocLoop T (fuel + 1) s mem = allocLoop T fuel s mem := by
  induction fuel generalizing s free mem with
  | zero => have := hs.next_le; omega
  | succ fuel ih =>
    rw [allocLoop]
    conv_rhs => rw [allocLoop]
    split
    · rfl
    cases hget : ipcEntryGet s with
    | mk r s1 =>
      cases r with
      | some r => rfl
      | none =>
        have h1 := get_none hs (by rw [hget])
        obtain rfl : s1 = s := by rw [hget] at h1; exact (Prod.mk.inj h1.1).2
        have hgrow := growTable_spec none mem hs ht
        have hsucc := growTable_success mem hs ht
        dsimp only
        generalize ipcEntryGrowTable T s1 none mem = res at *
        obtain ⟨kr, s2, mem'⟩ := res
        obtain ⟨free2, hrep2, htyp2⟩ := hgrow.rep
        cases kr with
        | success =>
          have hlt : s1.isTableNext < s2.isTableNext := hsucc rfl
          exact ih mem' hrep2 htyp2 (by omega)
        | _ => rfl

/-- **`ipc_entry_alloc`**. -/
theorem alloc_spec (mem : List Bool) (hs : Rep T s free) (ht : s.TypedBut free []) :
    match (ipcEntryAlloc T s mem).1 with
    | .ok (name, ref) => MachPortValid name ∧ name ≠ shadowedName ∧
        NewEntry T s (ipcEntryAlloc T s mem).2.1 name ref
    | .error _ => Grown T s (ipcEntryAlloc T s mem).2.1 :=
  allocLoop_spec _ mem hs ht

/-- What `ipc_entry_alloc_name` can return: an entry already in use under the name, a new
one, or an error that changes nothing. -/
def AllocNameResult (T : TableSizes) (s : IpcSpace) (name : ℕ) :
    Except KernReturn IpcEntryRef → IpcSpace → Prop
  | .ok ref, s' => (Grown T s s' ∧ (∃ free', Rep T s' free' ∧ s'.TypedBut free' [] ∧
      s'.Holds free' name ref)) ∨ NewEntry T s s' name ref
  | .error _, s' => Grown T s s'

theorem AllocNameResult.of_grown {r : Except KernReturn IpcEntryRef}
    (h : Grown T s s1) (h' : AllocNameResult T s1 name r s') : AllocNameResult T s name r s' := by
  cases r with
  | error kr => exact h.trans h'
  | ok ref => exact h'.imp (fun hg => ⟨h.trans hg.1, hg.2⟩) h.newEntry

/-- **The loop of `ipc_entry_alloc_name` returns**, with one of these results. -/
theorem allocNameLoop_spec (hv : MachPortValid name) (fuel : ℕ) (treeEntry : Bool)
    (mem : List Bool) (hs : Rep T s free) (ht : s.TypedBut free [])
    (hfuel : T.last + (if treeEntry then 1 else 2) ≤ s.isTableNext + fuel) :
    ∃ r s' mem', allocNameLoop T name fuel treeEntry s mem = some (r, s', mem') ∧
      AllocNameResult T s name r s' := by
  induction fuel generalizing s free treeEntry mem with
  | zero =>
    have := hs.next_le
    split at hfuel <;> omega
  | succ fuel ih =>
    rw [allocNameLoop]
    by_cases hact : s.isActive = false
    · rw [if_pos hact]
      exact ⟨_, _, _, rfl, Grown.refl hs ht⟩
    rw [if_neg hact]
    by_cases hslot : 0 < machPortIndex name ∧ machPortIndex name < s.isTableSize ∧
        (s.isTable (machPortIndex name)).ieBits.type ≠ .none ∧
        (s.isTable (machPortIndex name)).ieBits.gen = machPortGen name
    · -- the entry is in use, for the same name
      rw [if_pos hslot]
      refine ⟨_, _, _, rfl, .inl ⟨Grown.refl hs ht, free, hs, ht, rfl, hslot.1, hslot.2.1, ?_,
        hslot.2.2.2⟩⟩
      exact fun hf => hslot.2.2.1 (hs.slots.free_type hf).1
    rw [if_neg hslot]
    by_cases hfree' : 0 < machPortIndex name ∧ machPortIndex name < s.isTableSize ∧
        (s.isTable (machPortIndex name)).ieBits.type = .none
    · -- the slot is free
      rw [if_pos hfree']
      have hf : machPortIndex name ∈ free := by
        by_contra hn
        exact ht.slot _ hfree'.1 hfree'.2.1 hn (by simp) hfree'.2.2
      obtain ⟨s1, h1, hal⟩ := allocNameSlot_spec hs hv.lt hf
      rw [h1]
      exact ⟨_, _, _, rfl, .inr ⟨s, free, _, Grown.refl hs ht, hs, ht, hal⟩⟩
    rw [if_neg hfree']
    have hused : machPortIndex name < s.isTableSize → machPortIndex name ∉ free := fun hlt hf =>
      hfree' ⟨(hs.slots.range _ hf).1, hlt, (hs.slots.free_type hf).1⟩
    have hnoslot : ∀ i, ¬ s.Holds free name (.slot i) := by
      rintro i ⟨rfl, h0, hlt, hf, hg⟩
      exact hslot ⟨h0, hlt, ht.slot _ h0 hlt hf (by simp), hg⟩
    set found := if 0 < s.isTreeTotal then ipcEntryTreeLookup s name else (none, s) with hfound
    have hsame : SameEntries s found.2 := by
      rw [hfound]
      split
      · exact treeLookup_same hs.wf name
      · exact .refl hs.wf
    have hfst : ∀ r, found.1 = some r ↔ r = .node name ∧ ∃ e, (name, e) ∈ s.isTree.toList := by
      intro r
      rw [hfound]
      split
      · exact treeLookup_eq_some hs.wf
      next h0 =>
      have hnil : s.isTree.toList = [] :=
        length_eq_zero_iff.mp (by have := hs.total; omega)
      simp [hnil]
    have hgrown := hsame.grown hs ht
    have hrep := hsame.rep hs
    have htyp := hsame.typedBut ht
    have hnext : found.2.isTableNext = s.isTableNext := by rw [hsame.eq]
    have hsize := hsame.isTableSize
    generalize found = fd at *
    obtain ⟨r, s1⟩ := fd
    dsimp only at hsame hfst hgrown hrep htyp hnext hsize
    cases r with
    | some r =>
      -- the tree has it
      obtain ⟨rfl, he⟩ := (hfst r).mp rfl
      exact ⟨_, _, _, rfl, Or.inl ⟨hgrown, free, hrep, htyp, hsame.holds ⟨rfl, he⟩⟩⟩
    | none =>
      have hfresh : ∀ ref, ¬ s1.Holds free name ref := by
        intro ref hh
        cases ref with
        | slot i =>
          refine hnoslot i ?_
          simpa only [IpcSpace.Holds, hsame.isTable, hsame.isTableSize] using hh
        | node m =>
          obtain ⟨rfl, e, he⟩ := hh
          rw [hsame.list] at he
          have := (hfst (.node m)).mpr ⟨rfl, e, he⟩
          cases this
      dsimp only
      split_ifs with hgr hte
      · -- grow the table and start again
        have hgs := growTable_spec none mem hrep htyp
        have hsucc := growTable_success mem hrep htyp
        generalize ipcEntryGrowTable T s1 none mem = res at *
        obtain ⟨kr, s2, mem'⟩ := res
        dsimp only at hgs hsucc
        obtain ⟨free2, hrep2, htyp2⟩ := hgs.rep
        cases kr with
        | success =>
          have := hsucc rfl
          obtain ⟨r, s3, mem3, heq, hres⟩ := ih treeEntry mem' hrep2 htyp2
            (by split at hfuel <;> split <;> omega)
          exact ⟨r, s3, mem3, heq, hres.of_grown (hgrown.trans hgs)⟩
        | _ => exact ⟨_, _, _, rfl, hgrown.trans hgs⟩
      · -- insert the tree entry allocated before
        have hal := allocNameInsert_spec hrep hv hfresh (by rw [hsize]; exact hused)
        exact ⟨_, _, _, rfl, Or.inr ⟨s1, free, free, hgrown, hrep, htyp, hal⟩⟩
      · split
        · exact ⟨_, _, _, rfl, hgrown⟩
        · next mem' _ =>
          obtain ⟨r, s3, mem3, heq, hres⟩ := ih true mem' hrep htyp (by
            rw [if_neg hte] at hfuel
            rw [if_pos rfl]
            omega)
          exact ⟨r, s3, mem3, heq, hres.of_grown hgrown⟩

/-- **`ipc_entry_alloc_name` returns** the entry of the name, old or new, or an error. -/
theorem allocName_spec (hv : MachPortValid name) (mem : List Bool) (hs : Rep T s free)
    (ht : s.TypedBut free []) :
    ∃ r s' mem', ipcEntryAllocName T s name mem = some (r, s', mem') ∧
      AllocNameResult T s name r s' :=
  allocNameLoop_spec hv _ false mem hs ht (by
    have := hs.next_le
    rw [if_neg Bool.false_ne_true]
    omega)

/-- What a space should hold: a map from names to capabilities. -/
abbrev NameMap := ℕ → Option Capability

/-- A call of a routine on entries; the calls that allocate come with the right their
caller gives to a new entry. -/
inductive SpaceOp
  | get (cap : Capability)
  | alloc (mem : List Bool) (cap : Capability)
  | allocName (mem : List Bool) (name : ℕ) (cap : Capability)
  | dealloc (name : ℕ)
  | growTable (mem : List Bool) (target : Option ℕ)
  deriving DecidableEq

/-- What a caller does with a new entry: store the right, and enter a send right into the
reverse hash. -/
def giveRight (s : IpcSpace) (name : ℕ) (ref : IpcEntryRef) (cap : Capability) : IpcSpace :=
  let s := s.modifyEntry (fun e =>
    ⟨{ e.ieBits with type := cap.type, urefs := cap.urefs }, cap.object, cap.request⟩) ref
  if cap.type = .send then ipcHashInsert s name ref else s

/-- What a caller does before it deallocates an entry: take a send right out of the reverse
hash, and clear the object and the request. -/
def takeRight (s : IpcSpace) (name : ℕ) (ref : IpcEntryRef) : IpcSpace :=
  let s := if (s.findEntry ref).map (·.ieBits.type) = some .send then ipcHashDelete s name ref else s
  s.modifyEntry (fun e => { e with ieObject := .null, ieRequest := 0 }) ref

/-- The entry a caller has for a name: the slot with its index and generation, or the tree
entry. -/
def IpcSpace.refOf (s : IpcSpace) (name : ℕ) : Option IpcEntryRef :=
  let index := machPortIndex name
  if 0 < index ∧ index < s.isTableSize ∧ (s.isTable index).ieBits.type ≠ .none ∧
      (s.isTable index).ieBits.gen = machPortGen name then some (.slot index)
  else (s.isTree.toList.lookup name).map fun _ => .node name

/-- One call, on the space and on the map. -/
def spaceStep (T : TableSizes) (st : IpcSpace × NameMap) (op : SpaceOp) :
    Option (IpcSpace × NameMap) :=
  match op with
  | .get cap =>
    if cap.type = .none then none
    else
      match ipcEntryGet st.1 with
      | (some (name, ref), s) =>
        some (giveRight s name ref cap, update st.2 name (some cap))
      | (none, s) => some (s, st.2)
  | .alloc mem cap =>
    if cap.type = .none then none
    else
      match ipcEntryAlloc T st.1 mem with
      | (.ok (name, ref), s, _) =>
        some (giveRight s name ref cap, update st.2 name (some cap))
      | (.error _, s, _) => some (s, st.2)
  | .allocName mem name cap =>
    if cap.type = .none ∨ ¬ MachPortValid name then none
    else
      match ipcEntryAllocName T st.1 name mem with
      | none => none
      | some (.error _, s, _) => some (s, st.2)
      | some (.ok ref, s, _) =>
        -- an entry that was in use already has a type
        if (s.findEntry ref).map (·.ieBits.type) = some .none then
          some (giveRight s name ref cap, update st.2 name (some cap))
        else some (s, st.2)
  | .dealloc name =>
    match st.1.refOf name with
    | none => none
    | some ref =>
      some (ipcEntryDealloc T (takeRight st.1 name ref) name ref, update st.2 name none)
  | .growTable mem target => some ((ipcEntryGrowTable T st.1 target mem).2.1, st.2)

/-- A run from `ipc_space_create`. -/
def spaceRun (T : TableSizes) (initial : ℕ) (ops : List SpaceOp) : Option (IpcSpace × NameMap) :=
  Trace.run (spaceStep T) (ipcSpaceCreate T initial, fun _ => none) ops

/-- What `ipc_entry_lookup` finds under a name. -/
def lookupCap (s : IpcSpace) (name : ℕ) : Option Capability :=
  (ipcEntryLookup s name).1.bind fun ref => (s.findEntry ref).map IpcEntry.capability

/-- **The invariant of a run**: the space satisfies its representation invariant, all its
entries have a type, and it stands for the map. -/
structure RunInv (T : TableSizes) (st : IpcSpace × NameMap) : Prop where
  rep : ∃ free, Rep T st.1 free ∧ st.1.TypedBut free []
  view : st.1.view = st.2

variable {m : NameMap}

theorem Grown.runInv (h : Grown T s s') (hm : s.view = m) : RunInv T (s', m) :=
  ⟨h.rep, h.view.trans hm⟩

section

variable (hh : s.Holds free name ref)
include hh

theorem ipcHashInsert_eq : ipcHashInsert s name ref =
      { s with isTreeHash := s.isTreeHash + refNode ref } := by
  cases ref with
  | slot i => exact if_pos ⟨hh.1 ▸ hh.2.2.1, by rw [hh.1]⟩
  | node m => exact if_neg fun h => by cases h.2

theorem ipcHashDelete_eq : ipcHashDelete s name ref =
      { s with isTreeHash := s.isTreeHash - refNode ref } := by
  cases ref with
  | slot i => exact if_pos ⟨hh.1 ▸ hh.2.2.1, by rw [hh.1]⟩
  | node m => exact if_neg fun h => by cases h.2

theorem holds_modifyEntry {f : IpcEntry → IpcEntry} (hf : ∀ e, (f e).ieBits.gen = e.ieBits.gen) :
    (s.modifyEntry f ref).Holds free name ref := by
  cases ref with
  | slot i =>
    refine ⟨hh.1, hh.2.1, hh.2.2.1, hh.2.2.2.1, ?_⟩
    simp only [IpcSpace.modifyEntry, IpcSpace.setSlot, Function.update_self, hf]
    exact hh.2.2.2.2
  | node m =>
    obtain ⟨rfl, e, he⟩ := hh
    refine ⟨rfl, f e, ?_⟩
    simp only [IpcSpace.modifyEntry]
    rw [IpcSplayTree.toList_modify, BinTree.mapKeyList, List.mem_map]
    exact ⟨_, he, by simp⟩

end

/-- **Giving a new entry its right** puts the capability into the map. -/
theorem giveRight_spec (hs : Rep T s free) (hh : s.Holds free name ref) {e : IpcEntry}
    (he : s.findEntry ref = some e) (hnone : e.ieBits.type = .none)
    (hcap : cap.type ≠ .none) (ht : s.TypedBut free [ref]) :
    Rep T (giveRight s name ref cap) free ∧ (giveRight s name ref cap).TypedBut free [] ∧
      (giveRight s name ref cap).view = update s.view name (some cap) := by
  set f : IpcEntry → IpcEntry := fun e =>
    ⟨{ e.ieBits with type := cap.type, urefs := cap.urefs }, cap.object, cap.request⟩ with hf
  have hstate : giveRight s name ref cap = { s.modifyEntry f ref with
      isTreeHash := s.isTreeHash + treeSend (f e) ref } := by
    unfold giveRight
    have hh' := holds_modifyEntry hh (f := f) fun _ => rfl
    split
    · next hsend =>
      rw [ipcHashInsert_eq hh']
      cases ref <;> simp [treeSend, refNode, hf, hsend, IpcSpace.modifyEntry, IpcSpace.setSlot]
    · next hsend =>
      cases ref <;> simp [treeSend, hf, hsend, IpcSpace.modifyEntry, IpcSpace.setSlot]
  have hup := modifyEntry_spec (f := f) hs hh he rfl rfl
    (h := s.isTreeHash + treeSend (f e) ref) (by cases ref <;> simp [treeSend, hnone])
  rw [hstate]
  refine ⟨hup.rep, ?_, ?_⟩
  · have := hup.typed [] ht
    rwa [if_neg (by exact hcap)] at this
  · rw [hup.view, IpcEntry.live, if_neg (by exact hcap)]
    rfl

theorem NewEntry.runInv (h : NewEntry T s s' name ref) (hm : s.view = m)
    (hcap : cap.type ≠ .none) :
    RunInv T (giveRight s' name ref cap, update m name (some cap)) := by
  obtain ⟨s0, free0, free', hg, hrep, htyp, hal⟩ := h
  obtain ⟨e, he, hblank⟩ := hal.blank
  have hnone : e.ieBits.type = .none := congrArg Capability.type hblank
  obtain ⟨h1, h2, h3⟩ := giveRight_spec hal.rep hal.holds he hnone hcap (hal.typed [] htyp)
  refine ⟨⟨free', h1, h2⟩, ?_⟩
  rw [h3, hal.view, hg.view, hm]

theorem holds_of_refOf (hs : Rep T s free) (h : s.refOf name = some ref) :
    s.Holds free name ref := by
  unfold IpcSpace.refOf at h
  dsimp only at h
  split at h
  · next hc =>
    obtain rfl := some.inj h
    exact ⟨rfl, hc.1, hc.2.1, fun hf => hc.2.2.1 (hs.slots.free_type hf).1, hc.2.2.2⟩
  · rw [map_eq_some_iff] at h
    obtain ⟨e, he, rfl⟩ := h
    exact ⟨rfl, e, hs.wf.sorted.lookup_eq_some_iff.mp he⟩

/-- **Clearing and deallocating an entry** takes its name out of the map. -/
theorem release_spec (hs : Rep T s free) (ht : s.TypedBut free []) (hh : s.Holds free name ref) :
    RunInv T (ipcEntryDealloc T (takeRight s name ref) name ref,
      update s.view name none) := by
  obtain ⟨e, he⟩ := hh.entry hs
  set f : IpcEntry → IpcEntry := fun e => { e with ieObject := .null, ieRequest := 0 } with hf
  have hsend := treeSend_le hs hh he
  have hstate : takeRight s name ref = { s.modifyEntry f ref with
      isTreeHash := s.isTreeHash - treeSend e ref } := by
    unfold takeRight
    rw [he]
    dsimp only [map_some]
    split
    · next hsend =>
      rw [ipcHashDelete_eq hh]
      cases ref <;> simp_all [treeSend, refNode, IpcSpace.modifyEntry, IpcSpace.setSlot]
    · next hsend =>
      cases ref <;> simp_all [treeSend, IpcSpace.modifyEntry, IpcSpace.setSlot]
  have hup := modifyEntry_spec (f := f) hs hh he rfl rfl (h := s.isTreeHash) (by
    cases ref <;> rfl)
  have hless : RepLess T (takeRight s name ref) free (f e) ref := by
    unfold RepLess
    rw [hstate]
    have htree : s.isTreeHash - treeSend e ref + treeSend (f e) ref = s.isTreeHash := by
      have : treeSend (f e) ref = treeSend e ref := by cases ref <;> rfl
      omega
    rw [htree]
    exact hup.rep
  have hholds : (takeRight s name ref).Holds free name ref := by
    rw [hstate]
    have := (hup.holds name ref).mpr hh
    cases ref <;> exact this
  have hentry : (takeRight s name ref).findEntry ref = some (f e) := by
    rw [hstate]
    have := hup.entry
    cases ref <;> exact this
  obtain ⟨free', hd⟩ := dealloc_spec hless hholds hentry rfl
  have hview : (takeRight s name ref).view = update s.view name (f e).live := by
    rw [hstate]
    exact hup.view
  refine ⟨⟨free', hd.rep, ?_⟩, ?_⟩
  · have hty : (takeRight s name ref).TypedBut free [ref] := by
      rw [hstate]
      have := hup.typed [] ⟨fun i h0 h1 h2 _ => ht.slot i h0 h1 h2 (by simp),
        fun p hp _ => ht.node p hp (by simp)⟩
      refine ⟨fun i h0 h1 h2 h3 => this.slot i h0 h1 h2 ?_, fun p hp h3 => this.node p hp ?_⟩
      all_goals
        split
        · exact h3
        · simp
    exact hd.typed [] hty
  · dsimp only
    rw [hd.view, hview, Function.update_idem]

/-- **One call keeps the invariant of a run.** -/
theorem runInv_step (h : RunInv T st)
    (hstep : spaceStep T st op = some st') : RunInv T st' := by
  obtain ⟨s, m⟩ := st
  obtain ⟨⟨free, hs, ht⟩, hm⟩ := h
  dsimp only at hs ht hm
  cases op with
  | get cap =>
    obtain ⟨hcap, hstep⟩ := ite_none_left_eq_some.mp hstep
    split at hstep
    · next name ref s1 hget =>
      obtain ⟨i, free', rfl, rfl, -, hal⟩ := get_spec hs hget
      cases hstep
      exact NewEntry.runInv ⟨s, _, free', Grown.refl hs ht, hs, ht, hal⟩ hm hcap
    next s1 hget =>
    have h1 := (get_none hs (by rw [hget])).1
    rw [hget] at h1
    cases hstep
    obtain rfl := (Prod.mk.inj h1).2
    exact ⟨⟨free, hs, ht⟩, hm⟩
  | alloc mem cap =>
    simp only [spaceStep] at hstep
    have hspec := alloc_spec mem hs ht
    split at hstep
    · cases hstep
    next hcap =>
    generalize ipcEntryAlloc T s mem = res at *
    obtain ⟨r, s1, mem'⟩ := res
    cases r with
    | ok r =>
      obtain ⟨name, ref⟩ := r
      cases hstep
      exact hspec.2.2.runInv hm hcap
    | error kr =>
      cases hstep
      exact Grown.runInv hspec hm
  | allocName mem name cap =>
    simp only [spaceStep] at hstep
    split at hstep
    · cases hstep
    next hcap =>
    rw [not_or, not_not] at hcap
    obtain ⟨r, s1, mem', heq, hres⟩ := allocName_spec hcap.2 mem hs ht
    rw [heq] at hstep
    cases r with
    | error kr =>
      cases hstep
      exact Grown.runInv hres hm
    | ok ref =>
      dsimp only at hstep
      rcases hres with ⟨hg, free', hrep, htyp, hh⟩ | hnew
      · -- the entry was there: it has a type
        obtain ⟨e, he⟩ := hh.entry hrep
        have hty : e.ieBits.type ≠ .none := by
          cases ref with
          | slot i =>
            rw [IpcSpace.findEntry, if_pos hh.2.2.1] at he
            rw [← some.inj he]
            exact htyp.slot i hh.2.1 hh.2.2.1 hh.2.2.2.1 (by simp)
          | node k => exact htyp.node (k, e) (hrep.wf.sorted.lookup_eq_some_iff.mp he) (by simp)
        rw [he, if_neg (by simpa using hty)] at hstep
        cases hstep
        exact hg.runInv hm
      · obtain ⟨s0, free0, free', hg, hrep, htyp, hal⟩ := id hnew
        obtain ⟨e, he, hblank⟩ := hal.blank
        have hnone : e.ieBits.type = .none := congrArg Capability.type hblank
        rw [he, if_pos (by simpa using hnone)] at hstep
        cases hstep
        exact hnew.runInv hm hcap.1
  | dealloc name =>
    simp only [spaceStep] at hstep
    split at hstep
    · cases hstep
    next ref href =>
    cases hstep
    rw [← hm]
    exact release_spec hs ht (holds_of_refOf hs href)
  | growTable mem target =>
    cases hstep
    exact (growTable_spec target mem hs ht).runInv hm

theorem runInv_create (hi : initial < T.last) :
    RunInv T (ipcSpaceCreate T initial, fun _ => none) := by
  refine ⟨⟨_, rep_create hi, typedBut_create []⟩, ?_⟩
  funext n
  refine (rep_create hi).view_eq_none fun ref hh => ?_
  cases ref with
  | slot i =>
    exact hh.2.2.2.1 (mem_range'_1.mpr ⟨hh.2.1, by have : i < T.itsSize initial := hh.2.2.1; omega⟩)
  | node k =>
    obtain ⟨-, e, he⟩ := hh
    simp [ipcSpaceCreate] at he

/-- **Every run keeps the invariant.** -/
theorem runInv_run (hi : initial < T.last) (h : spaceRun T initial ops = some st) : RunInv T st :=
  Trace.invariant_of_step (fun _ _ _ h hs => runInv_step h hs) ops _ st (runInv_create hi) h

theorem update_shadowed {v : Option Capability} (hne : shadowedName ≠ name)
    (hnone : m shadowedName = none) : update m name v shadowedName = none := by
  rw [Function.update_of_ne hne, hnone]

theorem shadowed_step (h : RunInv T st)
    (hstep : spaceStep T st op = some st') (hop : ∀ mem cap, op ≠ .allocName mem shadowedName cap)
    (hnone : st.2 shadowedName = none) : st'.2 shadowedName = none := by
  obtain ⟨s, m⟩ := st
  obtain ⟨⟨free, hs, ht⟩, -⟩ := h
  cases op with
  | get cap =>
    simp only [spaceStep] at hstep
    split at hstep
    · cases hstep
    split at hstep
    · next name ref s1 hget =>
      obtain ⟨i, free', rfl, rfl, -, hal⟩ := get_spec hs hget
      cases hstep
      refine update_shadowed ?_ hnone
      rintro rfl
      exact absurd hal.holds.2.1 (by rw [hal.holds.1]; decide)
    · cases hstep; exact hnone
  | alloc mem cap =>
    simp only [spaceStep] at hstep
    have hspec := alloc_spec mem hs ht
    split at hstep
    · cases hstep
    generalize ipcEntryAlloc T s mem = res at *
    obtain ⟨r, s1, mem'⟩ := res
    cases r with
    | ok r =>
      obtain ⟨name, ref⟩ := r
      cases hstep
      exact update_shadowed hspec.2.1.symm hnone
    | error kr => cases hstep; exact hnone
  | allocName mem name cap =>
    have hne : shadowedName ≠ name := fun hc => hop mem cap (by rw [hc])
    simp only [spaceStep] at hstep
    split at hstep
    · cases hstep
    split at hstep
    · cases hstep
    · cases hstep; exact hnone
    split at hstep
    · cases hstep
      exact update_shadowed hne hnone
    · cases hstep; exact hnone
  | dealloc name =>
    simp only [spaceStep] at hstep
    split at hstep
    · cases hstep
    cases hstep
    by_cases hne : shadowedName = name
    · subst hne
      exact Function.update_self shadowedName none m
    · exact update_shadowed hne hnone
  | growTable mem target => cases hstep; exact hnone

theorem shadowed_run (hi : initial < T.last) (h : spaceRun T initial ops = some st)
    (hops : ∀ mem cap, SpaceOp.allocName mem shadowedName cap ∉ ops) :
    st.2 shadowedName = none := by
  refine (Trace.invariant (P := fun _ op => ∀ mem cap, op ≠ .allocName mem shadowedName cap)
    (I := fun st => RunInv T st ∧ st.2 shadowedName = none)
    (fun _ _ _ hI hop hs => ⟨runInv_step hI.1 hs, shadowed_step hI.1 hs hop hI.2⟩) ops _ st
    ⟨runInv_create hi, rfl⟩ (.of_mem ops _ ?_) h).2
  rintro _ hop - mem cap rfl
  exact hops mem cap hop

/-- **Lookup is the map, unless the name `0xff` is allocated.**  Its index is that of the
head of the free list and its generation the one that head keeps, so the entry made for it
in the tree is never found; no other name is affected, and only
`ipc_entry_alloc_name` on `0xff` itself allocates it.  Nothing is found for a name that is free. -/
theorem lookup_eq_map_iff {initial : ℕ} (hi : initial < T.last) {ops : List SpaceOp}
    (h : spaceRun T initial ops = some (s, m)) :
    ((∀ n, lookupCap s n = m n) ↔ m shadowedName = none) ∧
      (∀ n, n ≠ shadowedName → lookupCap s n = m n) ∧
      ((∀ mem cap, SpaceOp.allocName mem shadowedName cap ∉ ops) → ∀ n, lookupCap s n = m n) ∧
      ∀ n ref, (ipcEntryLookup s n).1 = some ref →
        m n ≠ none ∧ (ref = .slot (machPortIndex n) ∨ ref = .node n) := by
  obtain ⟨⟨free, hs, ht⟩, hm⟩ := runInv_run hi h
  dsimp only at hs ht hm
  have hother : ∀ n, n ≠ shadowedName → lookupCap s n = m n := fun n hn => by
    rw [← hm]
    exact lookup_spec hs ht hn
  have hself : lookupCap s shadowedName = none := by
    rw [lookupCap, lookup_shadowedName hs]
    rfl
  have hiff : (∀ n, lookupCap s n = m n) ↔ m shadowedName = none := by
    constructor
    · intro hall
      rw [← hall, hself]
    · intro hn n
      by_cases hne : n = shadowedName
      · rw [hne, hself, hn]
      · exact hother n hne
  refine ⟨hiff, hother, fun hops => hiff.mpr (shadowed_run hi h hops), fun n ref hr => ?_⟩
  have hholds := holds_of_lookup hs hr
  constructor
  · have hn : n ≠ shadowedName := by
      rintro rfl
      rw [lookup_shadowedName hs] at hr
      cases hr
    obtain ⟨e, he⟩ := hholds.entry hs
    simp [← hother n hn, lookupCap, hr, he]
  · cases ref with
    | slot i => exact .inl (congrArg _ hholds.1)
    | node k => exact .inr (congrArg _ hholds.1)

/-- A run with a slot, a colliding tree entry and a tree entry beyond the table. -/
def sampleOps : List SpaceOp :=
  [.get ⟨.send, 1, .port 0, 0⟩, .allocName [] 0x110 ⟨.receive, 0, .port 1, 0⟩,
    .allocName [] 0x900 ⟨.send, 2, .port 2, 0⟩]

theorem lookup_eq_map_sample : (spaceRun ipcTableEntries 0 sampleOps).isSome = true ∧
      ∀ s m, spaceRun ipcTableEntries 0 sampleOps = some (s, m) → ∀ n, lookupCap s n = m n :=
  ⟨by decide +kernel, fun _ _ h =>
    (lookup_eq_map_iff (by decide) h).2.2.1 (by simp [sampleOps, shadowedName])⟩

/-- After `ipc_entry_alloc_name` on `0xff` in a new space the name is allocated and the
lookup finds nothing. -/
theorem lookup_shadowed_run :
    (spaceRun ipcTableEntries 0 [.allocName [] 0xff ⟨.deadName, 1, .null, 0⟩]).map
      (fun st => (st.2 0xff, lookupCap st.1 0xff)) =
        some (some ⟨.deadName, 1, .null, 0⟩, none) := by
  decide +kernel

/-- The free list, the collision bits and the counters of a space are what they should
be. -/
structure IpcSpace.Consistent (T : TableSizes) (s : IpcSpace) : Prop where
  /-- From `table[0].ie_next` the free list visits the slots without a type, each once, and
  ends at 0. -/
  freeList : ∃ free, LinkedChain (fun i => (s.isTable i).ieNext) 0 0 free ∧ free.Nodup ∧
    ∀ i, i ∈ free ↔ 0 < i ∧ i < s.isTableSize ∧ (s.isTable i).ieBits.type = .none
  /-- The collision bit says whether the tree has an entry with the index. -/
  collision : ∀ i, 0 < i → i < s.isTableSize → ((s.isTable i).ieBits.collision = true ↔
      ∃ p ∈ s.isTree.toList, machPortIndex p.1 = i)
  /-- A slot with the bit is in use, with a generation of its own. -/
  inUse : ∀ i, 0 < i → i < s.isTableSize → (s.isTable i).ieBits.collision = true →
    (s.isTable i).ieBits.type ≠ .none ∧ ∀ p ∈ s.isTree.toList, machPortIndex p.1 = i →
        machPortGen p.1 ≠ (s.isTable i).ieBits.gen
  total : s.isTreeTotal = s.isTree.toList.length
  small : s.isTreeSmall =
    (smallIndexes s.isTree.toList s.isTableSize (T.itsSize s.isTableNext)).card
  hash : s.isTreeHash = sendCount s.isTree.toList

/-- **A space is consistent in every state of a run.** -/
theorem consistent_of_run {initial : ℕ} (hi : initial < T.last) {ops : List SpaceOp}
    (h : spaceRun T initial ops = some (s, m)) : s.Consistent T := by
  obtain ⟨⟨free, hs, ht⟩, -⟩ := runInv_run hi h
  have hfree : ∀ i, i ∈ free ↔ 0 < i ∧ i < s.isTableSize ∧ (s.isTable i).ieBits.type = .none := by
    intro i
    constructor
    · exact fun hf => ⟨(hs.slots.range i hf).1, (hs.slots.range i hf).2, (hs.slots.free_type hf).1⟩
    · rintro ⟨h0, hlt, hty⟩
      by_contra hf
      exact ht.slot i h0 hlt hf (by simp) hty
  refine ⟨⟨free, hs.slots.chain, hs.slots.nodup, hfree⟩, fun i _ hlt => hs.nodes.collision i hlt,
    fun i h0 hlt hc => ⟨fun hty => ?_, ?_⟩, hs.total, hs.small, hs.hash⟩
  · have := (hs.slots.free_type ((hfree i).mpr ⟨h0, hlt, hty⟩)).2
    rw [hc] at this
    cases this
  · rintro p hp rfl hg
    exact hs.nodes.gen_ne p hp h0 hlt hg.symm

theorem consistent_sample : (spaceRun ipcTableEntries 0 sampleOps).isSome = true ∧
      ∀ s m, spaceRun ipcTableEntries 0 sampleOps = some (s, m) → s.Consistent ipcTableEntries :=
  ⟨by decide +kernel, fun _ _ h => consistent_of_run (by decide) h⟩

end Osfmk

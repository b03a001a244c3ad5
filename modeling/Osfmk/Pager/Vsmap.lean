import Mathlib

/-!
# The cluster maps of the default pager

A memory object of the default pager has a map from its clusters to the clusters of the paging segments
(`default_pager_internal.h`, `dp_backing_store.c`).  The map of a small object is an array of entries;
that of a large object is an array of pointers to blocks of entries, some of which are null.  A map
grows when a cluster beyond its end is written.
-/

open Function (update update_of_ne update_self)
open Option

namespace Osfmk.Paging

/-- `struct vs_map`. -/
structure VsMap where
  entry : BitVec 23
  psindex : BitVec 8
  error : Bool
  bmap : BitVec 16
  alloc : BitVec 16
  deriving DecidableEq

def vsmEntryNull : BitVec 23 := 0x7fffff

namespace VsMap

/-- `VSM_ISCLR`. -/
def isClr (e : VsMap) : Bool := decide (e.entry = vsmEntryNull) && !e.error

/-- `VSM_CLR`. -/
def clr : VsMap := ⟨vsmEntryNull, 0, false, 0, 0⟩

/-- `VSM_CLR`, `VSM_SETCLOFF` and `VSM_SETPS`. -/
def mapped (cluster psindex : ℕ) : VsMap :=
  { clr with entry := BitVec.ofNat 23 cluster, psindex := BitVec.ofNat 8 psindex }

/-- `VSM_SETERR`. -/
def setErr (e : VsMap) (error : ℕ) : VsMap :=
  { e with error := true, entry := BitVec.ofNat 23 error }

/-- `VSM_SETPG`. -/
def setPg (e : VsMap) (page : ℕ) : VsMap := { e with bmap := e.bmap ||| BitVec.twoPow 16 page }

/-- `VSM_SETALLOC`. -/
def setAlloc (e : VsMap) (page : ℕ) : VsMap := { e with alloc := e.alloc ||| BitVec.twoPow 16 page }

/-- `VSM_CLRPG` and `VSM_CLRALLOC`. -/
def clrPg (e : VsMap) (page : ℕ) : VsMap :=
  { e with
    bmap := e.bmap &&& ~~~BitVec.twoPow 16 page
    alloc := e.alloc &&& ~~~BitVec.twoPow 16 page }

/-- The loop of `ps_clmap` that marks `n` pages as allocated, from a page of the cluster on. -/
def setAllocs (clsize : ℕ) : VsMap → ℕ → ℕ → VsMap
  | e, _, 0 => e
  | e, i, n + 1 => if i < clsize then setAllocs clsize (e.setAlloc i) (i + 1) n else e

/-- The loop of `ps_clmap` that marks `n` pages as valid. -/
def setPgs : VsMap → ℕ → ℕ → VsMap
  | e, _, 0 => e
  | e, i, n + 1 => setPgs (e.setPg i) (i + 1) n

/-- The inner loop of `ps_clunmap`: the entry, and the number of pages that are left. -/
def clrPgs (clsize : ℕ) : VsMap → ℕ → ℕ → VsMap × ℕ
  | e, _, 0 => (e, 0)
  | e, i, n + 1 => if i < clsize then clrPgs clsize (e.clrPg i) (i + 1) n else (e, n + 1)

/-- The segment and the cluster that an entry refers to, unless it is clear or in error. -/
def refers (e : VsMap) : Option (ℕ × ℕ) :=
  if e.isClr || e.error then none else some (e.psindex.toNat, e.entry.toNat)

theorem refers_clr : clr.refers = none := rfl

theorem refers_of_isClr {e : VsMap} (h : e.isClr = true) : e.refers = none := by
  rw [refers, h, Bool.true_or, if_pos rfl]

theorem refers_of_error {e : VsMap} (h : e.error = true) : e.refers = none := by
  rw [refers, h, Bool.or_true, if_pos rfl]

theorem refers_of_live {e : VsMap} (hc : ¬ e.isClr = true) (he : ¬ e.error = true) :
    e.refers = some (e.psindex.toNat, e.entry.toNat) := by
  rw [Bool.not_eq_true] at hc he
  rw [refers, hc, he, Bool.or_false, if_neg Bool.false_ne_true]

theorem refers_mapped {cluster psindex : ℕ} (hc : cluster < 0x7fffff) (hp : psindex < 256) :
    (mapped cluster psindex).refers = some (psindex, cluster) := by
  have hentry : (BitVec.ofNat 23 cluster).toNat = cluster := Nat.mod_eq_of_lt (by omega)
  have hps : (BitVec.ofNat 8 psindex).toNat = psindex := Nat.mod_eq_of_lt hp
  have hne : BitVec.ofNat 23 cluster ≠ vsmEntryNull := by
    intro he
    rw [he] at hentry
    have : vsmEntryNull.toNat = 0x7fffff := rfl
    omega
  simp [refers, isClr, mapped, clr, hne, hentry, hps]

theorem refers_congr {e e' : VsMap} (h : e'.entry = e.entry ∧ e'.psindex = e.psindex ∧
    e'.error = e.error) : e'.refers = e.refers := by
  unfold refers isClr
  rw [h.1, h.2.1, h.2.2]

theorem setAllocs_frame (clsize : ℕ) (e : VsMap) (i n : ℕ) :
    (setAllocs clsize e i n).entry = e.entry ∧ (setAllocs clsize e i n).psindex = e.psindex ∧
      (setAllocs clsize e i n).error = e.error ∧ (setAllocs clsize e i n).bmap = e.bmap := by
  induction n generalizing e i with
  | zero => exact ⟨rfl, rfl, rfl, rfl⟩
  | succ n ih =>
    rw [setAllocs]
    split
    · exact ih (e.setAlloc i) (i + 1)
    · exact ⟨rfl, rfl, rfl, rfl⟩

theorem setPgs_frame (e : VsMap) (i n : ℕ) :
    (setPgs e i n).entry = e.entry ∧ (setPgs e i n).psindex = e.psindex ∧
      (setPgs e i n).error = e.error ∧ (setPgs e i n).alloc = e.alloc := by
  induction n generalizing e i with
  | zero => exact ⟨rfl, rfl, rfl, rfl⟩
  | succ n ih => exact ih (e.setPg i) (i + 1)

theorem clrPgs_frame (clsize : ℕ) (e : VsMap) (i n : ℕ) :
    (clrPgs clsize e i n).1.entry = e.entry ∧ (clrPgs clsize e i n).1.psindex = e.psindex ∧
      (clrPgs clsize e i n).1.error = e.error := by
  induction n generalizing e i with
  | zero => exact ⟨rfl, rfl, rfl⟩
  | succ n ih =>
    rw [clrPgs]
    split
    · exact ih (e.clrPg i) (i + 1)
    · exact ⟨rfl, rfl, rfl⟩

end VsMap

def clmapEntries : ℕ := 64

def indirectClmap (ncls : ℕ) : Bool := decide (ncls * 8 > 512)

def indirectClmapEntries (ncls : ℕ) : ℕ := (ncls - 1) / clmapEntries + 1

/-- `vs_un`. -/
inductive ClMap
  | dmap (entries : ℕ → VsMap)
  | imap (blocks : ℕ → Option (ℕ → VsMap))

/-- The map of an object: `vs_size` and `vs_un`. -/
structure Vs where
  size : ℕ
  map : ClMap

namespace Vs

/-- The entry of a cluster; `none` stands for a block that has not been allocated. -/
def lookup (vs : Vs) (cluster : ℕ) : Option VsMap :=
  match vs.map with
  | .dmap entries => some (entries (cluster % clmapEntries))
  | .imap blocks => (blocks (cluster / clmapEntries)).map fun b => b (cluster % clmapEntries)

/-- An entry is written. -/
def store (vs : Vs) (cluster : ℕ) (e : VsMap) : Vs :=
  match vs.map with
  | .dmap entries => { vs with map := .dmap (update entries (cluster % clmapEntries) e) }
  | .imap blocks =>
    match blocks (cluster / clmapEntries) with
    | none => vs
    | some b =>
      { vs with map := .imap (update blocks (cluster / clmapEntries)
          (some (update b (cluster % clmapEntries) e))) }

/-- The maps that `ps_vstruct_create` sets up; `fresh` is what is in the memory that `kalloc`
returns. -/
def create (size : ℕ) (fresh : ℕ → VsMap) : Vs where
  size := size
  map := if indirectClmap size then .imap fun _ => none
    else .dmap fun i => if i < size then VsMap.clr else fresh i

/-- `ps_map_extend`; `none` means that there is no memory. -/
def extend (vs : Vs) (newSize : ℕ) (kalloc : Bool) (fresh : ℕ → VsMap) : Option Vs :=
  if vs.size ≥ newSize then some vs
  else if indirectClmap newSize then
    match vs.map with
    | .imap blocks =>
      if indirectClmapEntries newSize = indirectClmapEntries vs.size then
        some { vs with size := newSize }
      else if kalloc then
        some ⟨newSize, .imap fun i => if i < indirectClmapEntries vs.size then blocks i else none⟩
      else none
    | .dmap entries =>
      if kalloc then
        some ⟨newSize, .imap fun i =>
          if i = 0 then some fun j => if j < vs.size then entries j
            else if j < clmapEntries then VsMap.clr else fresh j
          else none⟩
      else none
  else
    match vs.map with
    | .dmap entries =>
      if kalloc then
        some ⟨newSize, .dmap fun i => if i < vs.size then entries i
          else if i < newSize then VsMap.clr else fresh i⟩
      else none
    -- a map that is not indirect at its new size was not indirect before
    | .imap _ => none

/-- `ps_clmap` allocates a block. -/
def addBlock (vs : Vs) (cluster : ℕ) (fresh : ℕ → VsMap) : Vs :=
  match vs.map with
  | .dmap _ => vs
  | .imap blocks =>
    { vs with map := .imap (update blocks (cluster / clmapEntries)
        (some fun i => if i < clmapEntries then VsMap.clr else fresh i)) }

/-- What `kalloc` does for a call of `ps_clmap`: whether there is memory for a larger map and for a
block, and what is in the memory. -/
structure Memory where
  map : Bool
  block : Bool
  fresh : ℕ → VsMap

/-- `ps_clmap` with `CL_ALLOC` looks for the entry of a cluster: the map, which may have grown, and
whether there is an entry. -/
def reach (vs : Vs) (cluster : ℕ) (mem : Memory) : Vs × Bool :=
  match if cluster ≥ vs.size then vs.extend (cluster + 1) mem.map mem.fresh else some vs with
  | none => (vs, false)
  | some vs1 =>
    match vs1.lookup cluster with
    | some _ => (vs1, true)
    | none => if mem.block then (vs1.addBlock cluster mem.fresh, true) else (vs1, false)

/-- `vs_indirect`. -/
def indirect (vs : Vs) : Bool :=
  match vs.map with
  | .dmap _ => false
  | .imap _ => true

/-- The number of entries in the map. -/
def limit (vs : Vs) : ℕ :=
  if vs.indirect then clmapEntries * indirectClmapEntries vs.size else vs.size

/-- The segment and the cluster that the entry of a cluster refers to. -/
def refers (vs : Vs) (cluster : ℕ) : Option (ℕ × ℕ) :=
  if cluster < vs.limit then (vs.lookup cluster).bind VsMap.refers else none

/-- A map is direct exactly when it is small. -/
def WF (vs : Vs) : Prop := vs.indirect = indirectClmap vs.size

variable {vs vs' : Vs} {c d : ℕ} {e : VsMap} {fresh : ℕ → VsMap} {kalloc : Bool}

theorem size_le_limit (vs : Vs) : vs.size ≤ vs.limit := by
  unfold limit
  split
  · rw [indirectClmapEntries, clmapEntries]
    omega
  · exact le_rfl

theorem mod_of_direct {size : ℕ} {entries : ℕ → VsMap} (h : WF ⟨size, .dmap entries⟩)
    (hc : c < size) : c % clmapEntries = c := by
  have hsize : indirectClmap size = false := h.symm
  rw [indirectClmap, decide_eq_false_iff_not] at hsize
  exact Nat.mod_eq_of_lt (by rw [clmapEntries]; omega)

theorem refers_of_lookup (hc : c < vs.limit) (hl : vs.lookup c = some e) :
    vs.refers c = e.refers := by
  rw [refers, if_pos hc, hl]
  rfl

theorem store_frame (vs : Vs) (c : ℕ) (e : VsMap) :
    (vs.store c e).size = vs.size ∧ (vs.store c e).indirect = vs.indirect := by
  obtain ⟨size, entries | blocks⟩ := vs
  · exact ⟨rfl, rfl⟩
  · simp only [store]
    split
    · exact ⟨rfl, rfl⟩
    · exact ⟨rfl, rfl⟩

@[simp] theorem limit_store (vs : Vs) (c : ℕ) (e : VsMap) : (vs.store c e).limit = vs.limit := by
  unfold limit
  rw [(vs.store_frame c e).1, (vs.store_frame c e).2]

theorem WF.store (h : vs.WF) (c : ℕ) (e : VsMap) : (vs.store c e).WF := by
  unfold WF
  rw [(vs.store_frame c e).1, (vs.store_frame c e).2]
  exact h

theorem lookup_store (h : vs.WF) (hc : c < vs.limit) (hd : d < vs.limit) :
    (vs.store c e).lookup d = if d = c then (vs.lookup c).map fun _ => e else vs.lookup d := by
  obtain ⟨size, entries | blocks⟩ := vs
  · simp only [Vs.store, lookup, mod_of_direct h hc, mod_of_direct h hd, map_some,
      Function.update_apply]
    split <;> rfl
  simp only [Vs.store, lookup]
  by_cases hdc : d = c
  · rw [if_pos hdc, hdc]
    cases hb : blocks (c / clmapEntries) with
    | none => simp [hb]
    | some b => simp
  rw [if_neg hdc]
  cases hb : blocks (c / clmapEntries) with
  | none => rfl
  | some b =>
    dsimp only
    by_cases hq : d / clmapEntries = c / clmapEntries
    · have hr : d % clmapEntries ≠ c % clmapEntries := by
        intro hr
        apply hdc
        rw [← Nat.div_add_mod d clmapEntries, ← Nat.div_add_mod c clmapEntries, hq, hr]
      rw [hq, update_self, hb]
      simp only [map_some, update_of_ne hr]
    · rw [update_of_ne hq]

theorem refers_store (h : vs.WF) (hc : c < vs.limit) (hl : vs.lookup c ≠ none) (d : ℕ) :
    (vs.store c e).refers d = if d = c then e.refers else vs.refers d := by
  unfold refers
  rw [limit_store]
  by_cases hd : d < vs.limit
  · rw [if_pos hd, if_pos hd, lookup_store h hc hd]
    split
    · obtain ⟨e', he'⟩ := ne_none_iff_exists'.mp hl
      rw [he']
      rfl
    · rfl
  · rw [if_neg hd, if_neg hd, if_neg fun he => hd (by rw [he]; exact hc)]

theorem wf_create (size : ℕ) (fresh : ℕ → VsMap) : (create size fresh).WF := by
  unfold WF create indirect
  dsimp only
  cases h : indirectClmap size <;> simp

theorem refers_create (size : ℕ) (fresh : ℕ → VsMap) (c : ℕ) :
    (create size fresh).refers c = none := by
  have hwf := wf_create size fresh
  unfold refers
  split
  · next hc =>
    unfold create at hwf hc ⊢
    cases hi : indirectClmap size
    · simp only [hi, Bool.false_eq_true, if_false] at hwf hc ⊢
      have hc' : c < size := hc
      simp [lookup, mod_of_direct hwf hc', hc', VsMap.refers_clr]
    · simp [lookup]
  · rfl

theorem div_lt_iff (n : ℕ) : c / clmapEntries < n ↔ c < clmapEntries * n := by
  rw [Nat.div_lt_iff_lt_mul (by decide), Nat.mul_comm]

/-- **A map that grows keeps its entries**, and the new ones are clear. -/
theorem lookup_extend (h : vs.WF) {newSize : ℕ} (he : vs.extend newSize kalloc fresh = some vs') :
    vs'.WF ∧ newSize ≤ vs'.size ∧ vs.limit ≤ vs'.limit ∧
      (∀ c, c < vs.limit → vs'.lookup c = vs.lookup c) ∧
        ∀ c e, vs.limit ≤ c → c < vs'.limit → vs'.lookup c = some e → e = VsMap.clr := by
  obtain ⟨size, entries | blocks⟩ := vs
  all_goals
    unfold extend at he
    dsimp only at he
    split at he
    case isTrue hge =>
      cases he
      exact ⟨h, hge, le_rfl, fun _ _ => rfl, fun c e h1 h2 => absurd h2 (not_lt.mpr h1)⟩
  case dmap =>
    next hlt =>
    have hsize : size ≤ 64 := by
      have hd : indirectClmap size = false := h.symm
      rw [indirectClmap, decide_eq_false_iff_not] at hd
      omega
    cases hi : indirectClmap newSize
    · -- direct to direct
      rw [hi] at he
      cases kalloc
      · cases he
      cases he
      have hwf : WF ⟨newSize, .dmap fun i => if i < size then entries i
          else if i < newSize then VsMap.clr else fresh i⟩ := hi.symm
      refine ⟨hwf, le_rfl, (not_le.mp hlt).le, fun c hc => ?_, fun c e h1 h2 hl => ?_⟩
      · have hc' : c < size := hc
        simp only [lookup, mod_of_direct h hc', if_pos hc']
      · have h1' : ¬ c < size := not_lt.mpr h1
        have h2' : c < newSize := h2
        simp only [lookup, mod_of_direct hwf h2', if_neg h1', if_pos h2', some.injEq] at hl
        exact hl.symm
    · -- direct to indirect: the entries go to the first block
      rw [hi] at he
      cases kalloc
      · cases he
      cases he
      refine ⟨hi.symm, le_rfl, ?_, fun c hc => ?_, fun c e h1 _ hl => ?_⟩
      · show size ≤ clmapEntries * indirectClmapEntries newSize
        rw [indirectClmapEntries, clmapEntries]
        omega
      · have hc' : c < size := hc
        have hz : c / clmapEntries = 0 := Nat.div_eq_of_lt (by rw [clmapEntries]; omega)
        simp only [lookup, hz, if_true, map_some, mod_of_direct h hc', if_pos hc']
      · have h1' : size ≤ c := h1
        by_cases hz : c / clmapEntries = 0
        · have hlt64 : c < clmapEntries := (Nat.div_eq_zero_iff_lt (by decide)).mp hz
          simp only [lookup, hz, if_true, map_some, Nat.mod_eq_of_lt hlt64,
            if_neg (not_lt.mpr h1'), if_pos hlt64, some.injEq] at hl
          exact hl.symm
        · simp only [lookup, if_neg hz, map_none] at hl
          cases hl
  case imap =>
    next hlt =>
    cases hi : indirectClmap newSize
    · rw [hi] at he
      cases he
    rw [hi, if_pos rfl] at he
    split at he
    case isTrue hsame =>
      -- the pointers are enough
      cases he
      have hlim : limit ⟨newSize, .imap blocks⟩ = limit ⟨size, .imap blocks⟩ := by
        show clmapEntries * _ = clmapEntries * _
        rw [hsame]
      refine ⟨hi.symm, le_rfl, hlim.ge, fun _ _ => rfl, fun c e h1 h2 => ?_⟩
      rw [hlim] at h2
      exact absurd h2 (not_lt.mpr h1)
    case isFalse =>
      cases kalloc
      · cases he
      cases he
      refine ⟨hi.symm, le_rfl, ?_, fun c hc => ?_, fun c e h1 _ hl => ?_⟩
      · show clmapEntries * indirectClmapEntries size ≤ clmapEntries * indirectClmapEntries newSize
        refine Nat.mul_le_mul_left _ (Nat.succ_le_succ (Nat.div_le_div_right ?_))
        omega
      · have hq : c / clmapEntries < indirectClmapEntries size := (div_lt_iff _).mpr hc
        simp only [lookup, if_pos hq]
      · have hq : ¬ c / clmapEntries < indirectClmapEntries size := fun hq =>
          absurd ((div_lt_iff _).mp hq) (not_lt.mpr h1)
        simp only [lookup, if_neg hq, map_none] at hl
        cases hl

/-- **What is found when a block is allocated**. -/
theorem lookup_addBlock (hl : vs.lookup c = none) (fresh : ℕ → VsMap) :
    (vs.addBlock c fresh).size = vs.size ∧ (vs.addBlock c fresh).indirect = vs.indirect ∧
      (vs.addBlock c fresh).lookup c = some VsMap.clr ∧ ∀ d,
        (vs.addBlock c fresh).lookup d = vs.lookup d ∨
          vs.lookup d = none ∧ (vs.addBlock c fresh).lookup d = some VsMap.clr := by
  obtain ⟨size, entries | blocks⟩ := vs
  · cases hl
  have hmod : ∀ d, d % clmapEntries < clmapEntries := fun d => Nat.mod_lt d (by decide)
  simp only [lookup, map_eq_none_iff] at hl
  refine ⟨rfl, rfl, ?_, fun d => ?_⟩
  · simp only [addBlock, lookup, update_self, map_some, if_pos (hmod c)]
  · by_cases hq : d / clmapEntries = c / clmapEntries
    · right
      simp only [addBlock, lookup, hq, hl, update_self, map_some, if_pos (hmod d),
        map_none, and_self]
    · left
      simp only [addBlock, lookup, update_of_ne hq]

theorem WF.addBlock (h : vs.WF) (hl : vs.lookup c = none) : (vs.addBlock c fresh).WF := by
  obtain ⟨hsize, hind, -⟩ := lookup_addBlock hl fresh
  unfold WF
  rw [hsize, hind]
  exact h

theorem limit_addBlock (hl : vs.lookup c = none) : (vs.addBlock c fresh).limit = vs.limit := by
  obtain ⟨hsize, hind, -⟩ := lookup_addBlock hl fresh
  unfold limit
  rw [hsize, hind]

theorem grow_spec (h : vs.WF) {mem : Memory}
    (he : (if c ≥ vs.size then vs.extend (c + 1) mem.map mem.fresh else some vs) = some vs') :
    vs'.WF ∧ c < vs'.size ∧ vs.limit ≤ vs'.limit ∧
      (∀ d, d < vs.limit → vs'.lookup d = vs.lookup d) ∧
        ∀ d e, vs.limit ≤ d → d < vs'.limit → vs'.lookup d = some e → e = VsMap.clr := by
  split at he
  · obtain ⟨hwf, hsize, hrest⟩ := lookup_extend h he
    exact ⟨hwf, hsize, hrest⟩
  · next hlt =>
    cases he
    exact ⟨h, not_le.mp hlt, le_rfl, fun _ _ => rfl, fun d e h1 h2 => absurd h2 (not_lt.mpr h1)⟩

/-- **The map in which an entry has been looked for**: no entry has changed. -/
theorem reach_spec (h : vs.WF) (c : ℕ) (mem : Memory) :
    (vs.reach c mem).1.WF ∧ vs.limit ≤ (vs.reach c mem).1.limit ∧
      (∀ d e, d < vs.limit → vs.lookup d = some e → (vs.reach c mem).1.lookup d = some e) ∧
        (∀ d e, d < (vs.reach c mem).1.limit → (vs.reach c mem).1.lookup d = some e →
          d < vs.limit ∧ vs.lookup d = some e ∨ e = VsMap.clr) ∧
            ((vs.reach c mem).2 = true → c < (vs.reach c mem).1.size ∧
              (vs.reach c mem).1.lookup c ≠ none) := by
  unfold reach
  split
  · exact ⟨h, le_rfl, fun _ _ _ hl => hl, fun d e hd hl => Or.inl ⟨hd, hl⟩, nofun⟩
  next vs1 hgrow =>
  obtain ⟨hwf, hsize, hle, hold, hnew⟩ := grow_spec h hgrow
  have hmem : ∀ d e, d < vs1.limit → vs1.lookup d = some e →
      d < vs.limit ∧ vs.lookup d = some e ∨ e = VsMap.clr := by
    intro d e hd hl
    by_cases hdl : d < vs.limit
    · rw [hold d hdl] at hl
      exact Or.inl ⟨hdl, hl⟩
    · exact Or.inr (hnew d e (not_lt.mp hdl) hd hl)
  split
  · next e he =>
    refine ⟨hwf, hle, fun d e hd hl => ?_, hmem, fun _ => ⟨hsize, fun hn => ?_⟩⟩
    · rw [hold d hd]
      exact hl
    · rw [he] at hn
      cases hn
  next hnone =>
  split
  · obtain ⟨hbsize, -, hc, hd⟩ := lookup_addBlock hnone mem.fresh
    refine ⟨hwf.addBlock hnone, ?_, fun d e hdl hl => ?_, fun d e hdl hl => ?_, fun _ => ⟨?_, ?_⟩⟩
    · rw [limit_addBlock hnone]
      exact hle
    · rw [← hold d hdl] at hl
      rcases hd d with he | ⟨hn, -⟩
      · rw [he]
        exact hl
      · rw [hn] at hl
        cases hl
    · rw [limit_addBlock hnone] at hdl
      rcases hd d with he | ⟨-, he⟩
      · rw [he] at hl
        exact hmem d e hdl hl
      · rw [he] at hl
        exact Or.inr (some.inj hl).symm
    · rw [hbsize]
      exact hsize
    · intro hn
      rw [hc] at hn
      cases hn
  · refine ⟨hwf, hle, fun d e hd hl => ?_, hmem, nofun⟩
    rw [hold d hd]
    exact hl

theorem refers_reach (h : vs.WF) (c : ℕ) (mem : Memory) (d : ℕ) :
    (vs.reach c mem).1.refers d = vs.refers d := by
  obtain ⟨-, hle, hold, hnew, -⟩ := reach_spec h c mem
  unfold refers
  by_cases hd : d < vs.limit
  · rw [if_pos hd, if_pos (hd.trans_le hle)]
    cases hl : vs.lookup d with
    | some e => rw [hold d e hd hl]
    | none =>
      cases hl' : (vs.reach c mem).1.lookup d with
      | none => rfl
      | some e =>
        rcases hnew d e (hd.trans_le hle) hl' with ⟨-, he⟩ | he
        · rw [hl] at he
          cases he
        · rw [he]
          rfl
  · rw [if_neg hd]
    split
    · next hd' =>
      cases hl' : (vs.reach c mem).1.lookup d with
      | none => rfl
      | some e =>
        rcases hnew d e hd' hl' with ⟨he, -⟩ | he
        · exact absurd he hd
        · rw [he]
          rfl
    · rfl

end Vs

end Osfmk.Paging

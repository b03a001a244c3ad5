import Mathlib

/-!
# The entries of a VM map

`vm/vm_map.c` keeps the entries of a map in a doubly linked circular list, sorted by address,
with the map itself as the header.  A pointer to an entry is the address of its structure, and
the pointer to the header is `none`.  Following `vme_next` and `vme_prev` is moving in the list.
-/

open List Option

namespace Osfmk

/-- `struct vm_map_entry`, as far as its place in the map is concerned. -/
structure VmMapEntry where
  addr : ℕ
  vmeStart : ℕ
  vmeEnd : ℕ
  inTransition : Bool
  needsWakeup : Bool
  wiredCount : ℕ
  userWiredCount : ℕ
  deriving DecidableEq

/-- `struct vm_map`; the lock is not part of it. -/
structure VmMap where
  entries : List VmMapEntry
  hint : Option ℕ
  timestamp : ℕ
  /-- The structures from this address on are not allocated. -/
  fresh : ℕ
  deriving DecidableEq

namespace VmMap

/-- The entry a pointer points to. -/
def find (m : VmMap) (p : ℕ) : Option VmMapEntry := m.entries.find? fun e => decide (e.addr = p)

/-- `p->vme_next`. -/
def nextOf (m : VmMap) (p : ℕ) : Option ℕ :=
  ((m.entries.dropWhile fun e => decide (e.addr ≠ p)).drop 1).head?.map (·.addr)

/-- `p->vme_prev`. -/
def prevOf (m : VmMap) (p : ℕ) : Option ℕ :=
  (m.entries.takeWhile fun e => decide (e.addr ≠ p)).getLast?.map (·.addr)

/-- Write through a pointer. -/
def modifyEntry (m : VmMap) (p : ℕ) (f : VmMapEntry → VmMapEntry) : VmMap :=
  { m with entries := m.entries.map fun e => if e.addr = p then f e else e }

/-- `vm_map_entry_unlink`. -/
def unlink (m : VmMap) (p : ℕ) : VmMap :=
  { m with entries := m.entries.filter fun e => decide (e.addr ≠ p) }

def saveHint (m : VmMap) (hint : Option ℕ) : VmMap := { m with hint := hint }

/-- The first entry that ends after an address. -/
def firstAfter (m : VmMap) (address : ℕ) : Option VmMapEntry :=
  (m.entries.dropWhile fun e => decide (e.vmeEnd ≤ address)).head?

/-- The last entry that does not end after an address. -/
def lastBefore (m : VmMap) (address : ℕ) : Option VmMapEntry :=
  (m.entries.takeWhile fun e => decide (e.vmeEnd ≤ address)).getLast?

end VmMap

/-- `vm_map_lookup_entry`: whether there is an entry for the address, and that entry, or the one
before the address. -/
def vmMapLookupEntry (m : VmMap) (address : ℕ) : Bool × Option ℕ × VmMap :=
  let before := (m.lastBefore address).map (·.addr)
  match m.firstAfter address with
  | some cur =>
    if cur.vmeStart ≤ address then (true, some cur.addr, m.saveHint (some cur.addr))
    else (false, before, m.saveHint before)
  | none => (false, before, m.saveHint before)

/-- The entry for an address, or the one after it when there is none. -/
def VmMap.entryFrom (m : VmMap) (address : ℕ) : Bool × Option ℕ × VmMap :=
  match vmMapLookupEntry m address with
  | (true, entry, m) => (true, entry, m)
  | (false, some entry, m) => (false, m.nextOf entry, m)
  | (false, none, m) => (false, m.entries.head?.map (·.addr), m)

/-- `vm_map_clip_start`: a new entry for the part before `startaddr` is inserted before the
entry. -/
def vmMapClipStart (m : VmMap) (p startaddr : ℕ) : VmMap :=
  match m.find p with
  | none => m
  | some e =>
    if e.vmeStart < startaddr then
      { m with
        entries := m.entries.flatMap fun x =>
          if x.addr = p then
            [{ x with addr := m.fresh, vmeEnd := startaddr }, { x with vmeStart := startaddr }]
          else [x]
        fresh := m.fresh + 1 }
    else m

/-- `vm_map_clip_end`: a new entry for the part from `endaddr` on is inserted after the entry. -/
def vmMapClipEnd (m : VmMap) (p endaddr : ℕ) : VmMap :=
  match m.find p with
  | none => m
  | some e =>
    if endaddr < e.vmeEnd then
      { m with
        entries := m.entries.flatMap fun x =>
          if x.addr = p then
            [{ x with vmeEnd := endaddr }, { x with addr := m.fresh, vmeStart := endaddr }]
          else [x]
        fresh := m.fresh + 1 }
    else m

/-- **A well-formed map**: the entries are not empty, sorted and disjoint, they are different
structures, and the hint is the header or one of them. -/
structure VmMap.Wf (m : VmMap) : Prop where
  sorted : m.entries.Pairwise fun a b => a.vmeEnd ≤ b.vmeStart
  nonempty : ∀ e ∈ m.entries, e.vmeStart < e.vmeEnd
  distinct : (m.entries.map (·.addr)).Nodup
  allocated : ∀ e ∈ m.entries, e.addr < m.fresh
  hint : ∀ p, m.hint = some p → p ∈ m.entries.map (·.addr)

theorem VmMap.wf_iff (m : VmMap) : m.Wf ↔ m.entries.Pairwise (fun a b => a.vmeEnd ≤ b.vmeStart) ∧
    (∀ e ∈ m.entries, e.vmeStart < e.vmeEnd) ∧ (m.entries.map (·.addr)).Nodup ∧
    (∀ e ∈ m.entries, e.addr < m.fresh) ∧
    (m.hint.all fun p => decide (p ∈ m.entries.map (·.addr))) = true := by
  have hhint : (m.hint.all fun p => decide (p ∈ m.entries.map (·.addr))) = true ↔
      ∀ p, m.hint = some p → p ∈ m.entries.map (·.addr) := by
    cases m.hint <;> simp
  rw [hhint]
  exact ⟨fun h => ⟨h.sorted, h.nonempty, h.distinct, h.allocated, h.hint⟩,
    fun ⟨h1, h2, h3, h4, h5⟩ => ⟨h1, h2, h3, h4, h5⟩⟩

instance (m : VmMap) : Decidable m.Wf := decidable_of_iff' _ m.wf_iff

namespace VmMap

variable {m : VmMap} {l1 l2 : List VmMapEntry} {e e' : VmMapEntry} {p a : ℕ}

/-- The pointer is to `e`, which is between `l1` and `l2`. -/
structure At (m : VmMap) (p : ℕ) (l1 : List VmMapEntry) (e : VmMapEntry)
    (l2 : List VmMapEntry) : Prop where
  entries : m.entries = l1 ++ e :: l2
  addr : e.addr = p
  before : ∀ x ∈ l1, x.addr ≠ p
  after : ∀ x ∈ l2, x.addr ≠ p

theorem Wf.at_of_entries (h : m.Wf) (heq : m.entries = l1 ++ e :: l2) : m.At e.addr l1 e l2 := by
  have hnd := h.distinct
  rw [heq, map_append, map_cons, nodup_append, List.nodup_cons] at hnd
  obtain ⟨-, ⟨h2, -⟩, h3⟩ := hnd
  refine ⟨heq, rfl, fun x hx hc => ?_, fun x hx hc => ?_⟩
  · exact h3 x.addr (mem_map_of_mem hx) e.addr mem_cons_self hc
  · exact h2 (hc ▸ mem_map_of_mem hx)

theorem Wf.exists_at (h : m.Wf) (hp : p ∈ m.entries.map (·.addr)) : ∃ l1 e l2, m.At p l1 e l2 := by
  obtain ⟨e, he, rfl⟩ := mem_map.mp hp
  obtain ⟨l1, l2, heq⟩ := append_of_mem he
  exact ⟨l1, e, l2, h.at_of_entries heq⟩

namespace At

section

variable (h : m.At p l1 e l2)
include h

theorem mem : e ∈ m.entries := by
  rw [h.entries]
  exact mem_append_right _ mem_cons_self

theorem find_eq : m.find p = some e := by
  unfold find
  rw [h.entries, List.find?_append, List.find?_eq_none.mpr, none_or, List.find?_cons_of_pos]
  · exact decide_eq_true h.addr
  · intro x hx
    simpa using h.before x hx

theorem next_eq : m.nextOf p = l2.head?.map (·.addr) := by
  unfold nextOf
  rw [h.entries, dropWhile_append_of_pos, dropWhile_cons_of_neg, drop_one,
    tail_cons]
  · simp [h.addr]
  · intro x hx
    simpa using h.before x hx

theorem prev_eq : m.prevOf p = l1.getLast?.map (·.addr) := by
  unfold prevOf
  rw [h.entries, takeWhile_append_of_pos, takeWhile_cons_of_neg, append_nil]
  · simp [h.addr]
  · intro x hx
    simpa using h.before x hx

theorem unlink_eq : (m.unlink p).entries = l1 ++ l2 := by
  dsimp only [unlink]
  rw [h.entries, filter_append, filter_cons_of_neg (by simp [h.addr]),
    filter_eq_self.mpr, filter_eq_self.mpr]
  · intro x hx
    simpa using h.after x hx
  · intro x hx
    simpa using h.before x hx

theorem flatMap_eq (f : VmMapEntry → List VmMapEntry) :
    (m.entries.flatMap fun x => if x.addr = p then f x else [x]) = l1 ++ f e ++ l2 := by
  have hid : ∀ l : List VmMapEntry, (∀ x ∈ l, x.addr ≠ p) →
      (l.flatMap fun x => if x.addr = p then f x else [x]) = l := by
    intro l hl
    induction l with
    | nil => rfl
    | cons y l ih =>
      rw [flatMap_cons, if_neg (hl y mem_cons_self),
        ih fun x hx => hl x (mem_cons_of_mem _ hx)]
      rfl
  rw [h.entries, flatMap_append, flatMap_cons, hid l1 h.before, hid l2 h.after,
    if_pos h.addr, append_assoc]

end

end At

theorem Wf.saveHint (h : m.Wf) {hint : Option ℕ}
    (hh : ∀ p, hint = some p → p ∈ m.entries.map (·.addr)) : (m.saveHint hint).Wf :=
  { h with hint := hh }

theorem Wf.mapEntries (h : m.Wf) {f : VmMapEntry → VmMapEntry}
    (hf : ∀ x, (f x).addr = x.addr ∧ (f x).vmeStart = x.vmeStart ∧ (f x).vmeEnd = x.vmeEnd) :
    ({ m with entries := m.entries.map f } : VmMap).Wf := by
  have haddr : (m.entries.map f).map (·.addr) = m.entries.map (·.addr) := by
    rw [List.map_map]
    exact List.map_congr_left fun x _ => (hf x).1
  refine ⟨?_, fun x hx => ?_, ?_, fun x hx => ?_, fun p hp => ?_⟩
  · refine pairwise_map.mpr (h.sorted.imp fun {a b} hab => ?_)
    rw [(hf a).2.2, (hf b).2.1]
    exact hab
  · obtain ⟨y, hy, rfl⟩ := mem_map.mp hx
    rw [(hf y).2.1, (hf y).2.2]
    exact h.nonempty y hy
  · dsimp only
    rw [haddr]
    exact h.distinct
  · obtain ⟨y, hy, rfl⟩ := mem_map.mp hx
    rw [(hf y).1]
    exact h.allocated y hy
  · dsimp only
    rw [haddr]
    exact h.hint p hp

theorem At.mapEntries (h : m.At p l1 e l2) {f : VmMapEntry → VmMapEntry}
    (hf : ∀ x, (f x).addr = x.addr) :
    ({ m with entries := m.entries.map f } : VmMap).At p (l1.map f) (f e) (l2.map f) := by
  refine ⟨?_, (hf e).trans h.addr, fun x hx => ?_, fun x hx => ?_⟩
  · rw [h.entries, map_append, map_cons]
  · obtain ⟨y, hy, rfl⟩ := mem_map.mp hx
    rw [hf y]
    exact h.before y hy
  · obtain ⟨y, hy, rfl⟩ := mem_map.mp hx
    rw [hf y]
    exact h.after y hy

theorem Wf.unlink (h : m.Wf) (hhint : m.hint ≠ some p) : (m.unlink p).Wf := by
  have hsub : (m.unlink p).entries.Sublist m.entries := filter_sublist
  refine ⟨h.sorted.sublist hsub, fun x hx => h.nonempty x (hsub.subset hx),
    h.distinct.sublist (hsub.map _), fun x hx => h.allocated x (hsub.subset hx), fun q hq => ?_⟩
  have hne : q ≠ p := by
    rintro rfl
    exact hhint hq
  obtain ⟨x, hx, rfl⟩ := mem_map.mp (h.hint q hq)
  exact mem_map_of_mem (mem_filter.mpr ⟨hx, decide_eq_true hne⟩)

theorem Wf.split (h : m.Wf) (hat : m.At p l1 e l2) {x y : VmMapEntry} {mid : ℕ}
    (hmid : e.vmeStart < mid ∧ mid < e.vmeEnd)
    (hx : x.vmeStart = e.vmeStart ∧ x.vmeEnd = mid) (hy : y.vmeStart = mid ∧ y.vmeEnd = e.vmeEnd)
    (haddr : x.addr = p ∧ y.addr = m.fresh ∨ x.addr = m.fresh ∧ y.addr = p) :
    ({ m with entries := l1 ++ [x, y] ++ l2, fresh := m.fresh + 1 } : VmMap).Wf := by
  obtain ⟨hx1, hx2⟩ := hx
  obtain ⟨hy1, hy2⟩ := hy
  have hs := h.sorted
  have hn := h.nonempty
  have hd := h.distinct
  have ha := h.allocated
  have hhint := h.hint
  rw [hat.entries] at hs hn hd ha hhint
  simp only [pairwise_append, pairwise_cons, mem_cons, forall_eq_or_imp] at hs
  simp only [mem_append, mem_cons] at hn ha
  have hfresh : ∀ z ∈ l1 ++ l2, z.addr ≠ m.fresh := by
    intro z hz
    have := ha z (by rcases mem_append.mp hz with hz | hz <;> tauto)
    omega
  have hother : ∀ z ∈ l1 ++ l2, z.addr ≠ p := by
    intro z hz
    rcases mem_append.mp hz with hz | hz
    · exact hat.before z hz
    · exact hat.after z hz
  have hp : p < m.fresh := by
    rw [← hat.addr]
    exact ha e (.inr (.inl rfl))
  refine ⟨?_, fun z hz => ?_, ?_, fun z hz => ?_, fun q hq => ?_⟩
  · obtain ⟨h1, ⟨h2, h3⟩, h45⟩ := hs
    have h4 := fun a ha => (h45 a ha).1
    have h5 := fun a ha => (h45 a ha).2
    simp only [pairwise_append, pairwise_cons, mem_append, mem_cons,
      not_mem_nil, or_false, forall_eq_or_imp, forall_eq, List.Pairwise.nil, and_true,
      hx1, hx2, hy1, hy2, le_refl]
    refine ⟨⟨h1, ?_, fun a ha => ⟨h4 a ha, ?_⟩⟩, h3, ?_⟩
    · simp
    · have := h4 a ha
      omega
    · rintro a (ha | rfl | rfl) b hb
      · exact h5 a ha b hb
      · have := h2 b hb
        omega
      · have := h2 b hb
        omega
  · simp only [mem_append, mem_cons, not_mem_nil, or_false] at hz
    rcases hz with (hz | rfl | rfl) | hz
    · exact hn z (.inl hz)
    · omega
    · omega
    · exact hn z (.inr (.inr hz))
  · have hrest : (l1.map (·.addr) ++ l2.map (·.addr)).Nodup := by
      rw [map_append, map_cons, nodup_middle, List.nodup_cons] at hd
      exact hd.2
    have hnot : ∀ {a}, (∀ z ∈ l1 ++ l2, z.addr ≠ a) → a ∉ l1.map (·.addr) ++ l2.map (·.addr) := by
      intro a hz hmem
      rw [← map_append] at hmem
      obtain ⟨z, hz', rfl⟩ := mem_map.mp hmem
      exact hz z hz' rfl
    have hne : x.addr ≠ y.addr := by
      rcases haddr with ⟨hxa, hya⟩ | ⟨hxa, hya⟩ <;> omega
    dsimp only
    rw [append_assoc, map_append, map_append, map_cons, map_singleton,
      cons_append, singleton_append, nodup_middle, List.nodup_cons,
      nodup_middle, List.nodup_cons]
    refine ⟨?_, ?_, hrest⟩
    · have hx0 : x.addr ∉ l1.map (·.addr) ++ l2.map (·.addr) := by
        rcases haddr with ⟨hxa, -⟩ | ⟨hxa, -⟩ <;> rw [hxa]
        · exact hnot hother
        · exact hnot hfresh
      simp only [mem_append, mem_cons] at hx0 ⊢
      tauto
    · rcases haddr with ⟨-, hya⟩ | ⟨-, hya⟩ <;> rw [hya]
      · exact hnot hfresh
      · exact hnot hother
  · simp only [mem_append, mem_cons, not_mem_nil, or_false] at hz
    dsimp only
    rcases hz with (hz | rfl | rfl) | hz
    · have := ha z (Or.inl hz)
      omega
    · rcases haddr with ⟨hza, -⟩ | ⟨hza, -⟩ <;> omega
    · rcases haddr with ⟨-, hza⟩ | ⟨-, hza⟩ <;> omega
    · have := ha z (Or.inr (Or.inr hz))
      omega
  · have hmem := hhint q hq
    simp only [map_append, map_cons, mem_append, mem_cons, map_nil,
      not_mem_nil, or_false] at hmem ⊢
    rcases hmem with hmem | hmem | hmem
    · exact .inl (.inl hmem)
    · rw [hat.addr] at hmem
      rcases haddr with ⟨hxa, -⟩ | ⟨-, hya⟩
      · exact .inl (.inr (.inl (hmem.trans hxa.symm)))
      · exact .inl (.inr (.inr (hmem.trans hya.symm)))
    · exact .inr hmem

/-- **`vm_map_clip_end`** leaves the entry in its place, ending at `endaddr` at the latest. -/
theorem Wf.clipEnd (h : m.Wf) (hat : m.At p l1 e l2) (hlt : e.vmeStart < a) :
    (vmMapClipEnd m p a).Wf ∧ (vmMapClipEnd m p a).hint = m.hint ∧
      ∃ e' l2', (vmMapClipEnd m p a).At p l1 e' l2' ∧ e'.vmeStart = e.vmeStart ∧
        e'.vmeEnd = min e.vmeEnd a := by
  unfold vmMapClipEnd
  rw [hat.find_eq]
  dsimp only
  split
  · next hend =>
    rw [hat.flatMap_eq fun x =>
      [{ x with vmeEnd := a }, { x with addr := m.fresh, vmeStart := a }]]
    have hwf := h.split hat ⟨hlt, hend⟩ (x := { e with vmeEnd := a })
      (y := { e with addr := m.fresh, vmeStart := a }) ⟨rfl, rfl⟩ ⟨rfl, rfl⟩
      (Or.inl ⟨hat.addr, rfl⟩)
    refine ⟨hwf, rfl, { e with vmeEnd := a }, { e with addr := m.fresh, vmeStart := a } :: l2, ?_,
      rfl, (Nat.min_eq_right hend.le).symm⟩
    obtain rfl := hat.addr
    exact hwf.at_of_entries (e := { e with vmeEnd := a }) (by simp)
  · next hend => exact ⟨h, rfl, e, l2, hat, rfl, (Nat.min_eq_left (not_lt.mp hend)).symm⟩

/-- **`vm_map_clip_start`** leaves the entry in its place, beginning at `startaddr` at the
earliest. -/
theorem Wf.clipStart (h : m.Wf) (hat : m.At p l1 e l2) (hlt : a < e.vmeEnd) :
    (vmMapClipStart m p a).Wf ∧
      ∃ l1' e', (vmMapClipStart m p a).At p l1' e' l2 ∧ e'.vmeStart = max e.vmeStart a ∧
        e'.vmeEnd = e.vmeEnd := by
  unfold vmMapClipStart
  rw [hat.find_eq]
  dsimp only
  split
  · next hstart =>
    rw [hat.flatMap_eq fun x =>
      [{ x with addr := m.fresh, vmeEnd := a }, { x with vmeStart := a }]]
    have hwf := h.split hat ⟨hstart, hlt⟩ (x := { e with addr := m.fresh, vmeEnd := a })
      (y := { e with vmeStart := a }) ⟨rfl, rfl⟩ ⟨rfl, rfl⟩ (Or.inr ⟨rfl, hat.addr⟩)
    refine ⟨hwf, l1 ++ [{ e with addr := m.fresh, vmeEnd := a }], { e with vmeStart := a }, ?_,
      (Nat.max_eq_right hstart.le).symm, rfl⟩
    obtain rfl := hat.addr
    exact hwf.at_of_entries (e := { e with vmeStart := a }) (by simp)
  · next hstart => exact ⟨h, l1, e, hat, (Nat.max_eq_left (not_lt.mp hstart)).symm, rfl⟩

theorem cut (m : VmMap) (address : ℕ) : ∃ l1 l2, m.entries = l1 ++ l2 ∧
    m.lastBefore address = l1.getLast? ∧ m.firstAfter address = l2.head? ∧
    ∀ x ∈ l1, x.vmeEnd ≤ address := by
  refine ⟨_, _, (takeWhile_append_dropWhile).symm, rfl, rfl, fun x hx => ?_⟩
  simpa using mem_takeWhile_imp hx

/-- **Looking up an address, and going on to the next entry if there is none**: the pointer is
to the first entry that ends after the address. -/
theorem entryFrom_spec (h : m.Wf) (address : ℕ) :
    ∃ found m' l1 l2, m.entryFrom address = (found, l2.head?.map (·.addr), m') ∧
      m' = m.saveHint m'.hint ∧ m'.Wf ∧ m.entries = l1 ++ l2 ∧
      m.firstAfter address = l2.head? ∧ (∀ x ∈ l1, x.vmeEnd ≤ address) ∧
      (found = true → ∃ e l3, l2 = e :: l3 ∧ e.vmeStart ≤ address ∧ address < e.vmeEnd) ∧
      (found = false → m'.hint = l1.getLast?.map (·.addr) ∧
        ∀ e, l2.head? = some e → address < e.vmeStart) := by
  obtain ⟨l1, l2, heq, hlast, hfirst, hle⟩ := m.cut address
  have hbefore : (m.saveHint (l1.getLast?.map (·.addr))).Wf := by
    refine h.saveHint fun p hp => ?_
    obtain ⟨x, hx, rfl⟩ := map_eq_some_iff.mp hp
    rw [heq]
    exact mem_map_of_mem (mem_append_left _ (List.mem_of_getLast? hx))
  -- when the address is not found, the pointer moves on from the last entry before it
  have hmove : vmMapLookupEntry m address = (false, l1.getLast?.map (·.addr),
        m.saveHint (l1.getLast?.map (·.addr))) →
      m.entryFrom address = (false, l2.head?.map (·.addr),
        m.saveHint (l1.getLast?.map (·.addr))) := by
    intro hlook
    unfold entryFrom
    rw [hlook]
    rcases eq_nil_or_concat l1 with rfl | ⟨l, x, rfl⟩
    · dsimp only [List.getLast?_nil, map_none, VmMap.saveHint]
      rw [heq, nil_append]
    rw [concat_eq_append] at heq hbefore ⊢
    rw [append_assoc, singleton_append] at heq
    have hat := hbefore.at_of_entries (e := x) heq
    rw [List.getLast?_concat, map_some] at hat ⊢
    dsimp only
    rw [hat.next_eq]
  cases l2 with
  | nil =>
    refine ⟨false, _, l1, [], hmove ?_, rfl, hbefore, heq, hfirst, hle, nofun,
      fun _ => ⟨rfl, nofun⟩⟩
    rw [vmMapLookupEntry, hfirst, hlast]
    rfl
  | cons e l3 =>
    have hend : address < e.vmeEnd := by
      have hd := List.head?_dropWhile_not (fun e => decide (e.vmeEnd ≤ address)) m.entries
      unfold firstAfter at hfirst
      rw [hfirst] at hd
      simpa using hd
    by_cases hstart : e.vmeStart ≤ address
    · have hwf : (m.saveHint (some e.addr)).Wf := h.saveHint fun p hp => by
        cases hp
        rw [heq]
        exact mem_map_of_mem (mem_append_right _ mem_cons_self)
      refine ⟨true, m.saveHint (some e.addr), l1, e :: l3, ?_, rfl, hwf, heq, hfirst, hle,
        fun _ => ⟨e, l3, rfl, hstart, hend⟩, nofun⟩
      simp [entryFrom, vmMapLookupEntry, hfirst, hstart]
    refine ⟨false, _, l1, e :: l3, hmove ?_, rfl, hbefore, heq, hfirst, hle,
      nofun, fun _ => ⟨rfl, fun x hx => ?_⟩⟩
    · simp [vmMapLookupEntry, hfirst, hlast, hstart]
    · cases hx
      exact not_le.mp hstart

end VmMap

end Osfmk

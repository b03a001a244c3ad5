import Osfmk.Vm.MapEntry

/-!
# Finding space in a map

`vm_map_enter` and `vm_remap_range_allocate` look for room for a new range: from the first hole, which a
map keeps in `first_free`, or from the entry that a lookup finds, they go from entry to entry.
-/

open List Option

namespace Osfmk

/-- A map with its range of addresses. -/
structure VmRange extends VmMap where
  minOffset : ℕ
  maxOffset : ℕ
  firstFree : Option ℕ
  waitForSpace : Bool

/-- The entries after the one that a pointer points to. -/
def VmMap.entriesAfter (m : VmMap) : Option ℕ → List VmMapEntry
  | none => m.entries
  | some p => (m.entries.dropWhile fun e => decide (e.addr ≠ p)).drop 1

/-- The linear search of `vm_map_lookup_entry`; `prev` is before the entries. -/
def lookupSearch (address : ℕ) : Option ℕ → List VmMapEntry → Bool × Option ℕ
  | prev, [] => (false, prev)
  | prev, cur :: rest =>
    if cur.vmeEnd > address then
      if address ≥ cur.vmeStart then (true, some cur.addr) else (false, prev)
    else lookupSearch address (some cur.addr) rest

/-- `vm_map_lookup_entry`: whether there is an entry for the address, and that entry or the one before
the address. -/
def lookupFromHint (m : VmMap) (address : ℕ) : Bool × Option ℕ :=
  let isHint (e : VmMapEntry) := m.hint.all fun p => decide (e.addr = p)
  match m.entries.dropWhile fun e => !isHint e with
  | [] => (false, none)
  | cur :: rest =>
    if address ≥ cur.vmeStart then
      if cur.vmeEnd > address then (true, some cur.addr)
      else lookupSearch address none (cur :: rest)
    else
      -- from the start to the hint, inclusively
      lookupSearch address none ((m.entries.takeWhile fun e => !isHint e) ++ [cur])

def truncPage (page x : ℕ) : ℕ := x / page * page

/-- The loop of `first_free_is_valid` and of `UPDATE_FIRST_FREE`, from an entry with the given start and
end; `minOffset` is where the header starts. -/
def firstFreeFrom (page minOffset : ℕ) (entry : Option ℕ) (vmeStart vmeEnd : ℕ) :
    List VmMapEntry → Option ℕ
  | [] => if truncPage page minOffset = truncPage page vmeEnd then none else entry
  | next :: rest =>
    if truncPage page next.vmeStart = truncPage page vmeEnd ∨
        truncPage page next.vmeStart = truncPage page vmeStart then
      firstFreeFrom page minOffset (some next.addr) next.vmeStart next.vmeEnd rest
    else entry

/-- How a search for space ends; `entry` is before the address, and `wrapped` is the `return` inside the
loop. -/
inductive SpaceResult
  | found (address : ℕ) (entry : Option ℕ)
  | noSpace
  | wrapped
  | wait
  deriving DecidableEq

/-- `(start + mask) & ~mask`. -/
def alignMask (start mask : ℕ) : ℕ := ((start + mask) % 2 ^ 32) &&& ((2 ^ 32 - 1) ^^^ mask)

/-- The loop: `entry` precedes the proposed region throughout, and `rest` are the entries after it. -/
def spaceSearch (m : VmRange) (size mask start : ℕ) (entry : Option ℕ) (rest : List VmMapEntry) :
    SpaceResult :=
  let aligned := alignMask start mask
  let stop := (aligned + size) % 2 ^ 32
  if aligned < start then .wrapped
  else if stop > m.maxOffset ∨ stop < aligned then
    if m.waitForSpace ∧ size ≤ m.maxOffset - m.minOffset then .wait else .noSpace
  else match rest with
    | [] => .found aligned entry
    | next :: rest =>
      if next.vmeStart ≥ stop then .found aligned entry
      else spaceSearch m size mask next.vmeEnd (some next.addr) rest

/-- The end of an entry. -/
def VmMap.endOf (m : VmMap) (p : ℕ) : ℕ := (m.find p).elim 0 (·.vmeEnd)

/-- The first address to try, and the entry before it. -/
def spaceStart (m : VmRange) (address : ℕ) : Option (ℕ × Option ℕ) :=
  let start := if address < m.minOffset then m.minOffset else address
  if start > m.maxOffset then none
  else if start = m.minOffset then
    match m.firstFree with
    | none => some (start, none)
    | some p => some (m.endOf p, some p)
  else
    match lookupFromHint m.toVmMap start with
    | (true, some p) => some (m.endOf p, some p)
    | (_, entry) => some (start, entry)

/-- The search that `vm_map_enter` and `vm_remap_range_allocate` both have. -/
def findSpace (m : VmRange) (address size mask : ℕ) : SpaceResult :=
  match spaceStart m address with
  | none => .noSpace
  | some (start, entry) => spaceSearch m size mask start entry (m.entriesAfter entry)

/-- `vm_map_enter` with `anywhere`: the address. -/
def vmMapEnterAnywhere (m : VmRange) (address size mask : ℕ) : SpaceResult :=
  findSpace m address size mask

/-- `vm_remap_range_allocate` with `anywhere`: the address and `*map_entry`. -/
def vmRemapRangeAllocateAnywhere (m : VmRange) (address size mask : ℕ) : SpaceResult :=
  findSpace m address size mask

/-- **A well-formed map with a range**: the entries are inside, the range ends with a page, and
`first_free` is before the first hole. -/
structure VmRange.Wf (page : ℕ) (m : VmRange) : Prop where
  map : m.toVmMap.Wf
  page_pos : 0 < page
  inside : ∀ e ∈ m.entries, m.minOffset ≤ e.vmeStart ∧ e.vmeEnd ≤ m.maxOffset
  range : m.maxOffset < 2 ^ 32
  wholePages : page ∣ m.maxOffset
  firstFree : m.firstFree = firstFreeFrom page m.minOffset none m.minOffset m.maxOffset m.entries

/-- There is room for `size` bytes at `a`, which is aligned and not before `address`. -/
structure VmRange.Fits (m : VmRange) (address size mask a : ℕ) : Prop where
  hint : address ≤ a
  low : m.minOffset ≤ a
  aligned : a &&& mask = 0
  high : a + size ≤ m.maxOffset
  free : ∀ e ∈ m.entries, e.vmeEnd ≤ a ∨ a + size ≤ e.vmeStart

variable {m : VmMap} {v : VmRange} {page address size mask start k a : ℕ}

variable {l1 l2 : List VmMapEntry} {e : VmMapEntry} {p : ℕ}

theorem lookupSearch_append (h : ∀ e ∈ l1, e.vmeEnd ≤ address)
    (prev : Option ℕ) (l2 : List VmMapEntry) :
    lookupSearch address prev (l1 ++ l2) =
      lookupSearch address ((l1.getLast?.map (·.addr)).or prev) l2 := by
  induction l1 generalizing prev with
  | nil => rfl
  | cons e l1 ih =>
    have he := h e mem_cons_self
    rw [cons_append, lookupSearch, if_neg (by omega),
      ih fun x hx => h x (mem_cons_of_mem _ hx), List.getLast?_cons]
    cases l1.getLast? <;> rfl

theorem lookupSearch_stop {cur : VmMapEntry} (h : address < cur.vmeEnd) (prev : Option ℕ)
    (l rest : List VmMapEntry) :
    lookupSearch address prev (l ++ cur :: rest) = lookupSearch address prev (l ++ [cur]) := by
  induction l generalizing prev with
  | nil =>
    rw [nil_append, nil_append, lookupSearch, lookupSearch, if_pos h, if_pos h]
  | cons e l ih =>
    rw [cons_append, cons_append, lookupSearch, lookupSearch, ih]

/-- **The hint makes no difference**: the entries are sorted. -/
theorem lookupFromHint_eq_search (h : m.Wf) (address : ℕ) :
    lookupFromHint m address = lookupSearch address none m.entries := by
  unfold lookupFromHint
  dsimp only
  set isHint : VmMapEntry → Bool := fun e => m.hint.all fun p => decide (e.addr = p) with hdef
  have hsplit := takeWhile_append_dropWhile (p := fun e => !isHint e) (l := m.entries)
  cases hfrom : m.entries.dropWhile fun e => !isHint e with
  | nil =>
    have hnone := dropWhile_eq_nil_iff.mp hfrom
    suffices hnil : m.entries = [] by
      rw [hnil]
      rfl
    cases hh : m.hint with
    | none =>
      refine eq_nil_iff_forall_not_mem.mpr fun e he => ?_
      have := hnone e he
      simp [hdef, hh] at this
    | some p =>
      obtain ⟨e, he, rfl⟩ := mem_map.mp (h.hint p hh)
      have := hnone e he
      simp [hdef, hh] at this
  | cons cur rest =>
    rw [hfrom] at hsplit
    set l1 := m.entries.takeWhile fun e => !isHint e
    have hsorted := h.sorted
    rw [← hsplit, pairwise_append] at hsorted
    have hcur := h.nonempty cur (by rw [← hsplit]; simp)
    rw [← hsplit]
    dsimp only
    by_cases hle : cur.vmeStart ≤ address
    · have hbefore : ∀ e ∈ l1, e.vmeEnd ≤ address := fun e he =>
        (hsorted.2.2 e he cur mem_cons_self).trans hle
      rw [if_pos hle, lookupSearch_append hbefore, lookupSearch, lookupSearch]
      split_ifs <;> rfl
    · rw [if_neg hle]
      exact (lookupSearch_stop (by omega) none l1 rest).symm

theorem lookupFromHint_spec (h : m.Wf) (address : ℕ) :
    ∃ l1 l2, m.entries = l1 ++ l2 ∧ (∀ e ∈ l1, e.vmeEnd ≤ address) ∧
      (∀ cur, l2.head? = some cur → address < cur.vmeEnd) ∧
      m.lastBefore address = l1.getLast? ∧ m.firstAfter address = l2.head? ∧
      lookupFromHint m address = match l2.head? with
        | some cur => if cur.vmeStart ≤ address then (true, some cur.addr)
          else (false, l1.getLast?.map (·.addr))
        | none => (false, l1.getLast?.map (·.addr)) := by
  obtain ⟨l1, l2, heq, hlast, hfirst, hle⟩ := m.cut address
  have hafter : ∀ cur, l2.head? = some cur → address < cur.vmeEnd := by
    intro cur hcur
    have hnot := List.head?_dropWhile_not (fun e : VmMapEntry => decide (e.vmeEnd ≤ address)) m.entries
    rw [show (m.entries.dropWhile _).head? = _ from hfirst, hcur] at hnot
    simpa using hnot
  refine ⟨l1, l2, heq, hle, hafter, hlast, hfirst, ?_⟩
  rw [lookupFromHint_eq_search h, heq, lookupSearch_append hle, or_none]
  cases l2 with
  | nil => rfl
  | cons cur rest =>
    rw [lookupSearch, if_pos (hafter cur rfl)]
    rfl

theorem lookupFromHint_eq (h : m.Wf) (address : ℕ) :
    lookupFromHint m address = ((vmMapLookupEntry m address).1, (vmMapLookupEntry m address).2.1) := by
  obtain ⟨l1, l2, -, -, -, hlast, hfirst, hlook⟩ := lookupFromHint_spec h address
  rw [hlook, vmMapLookupEntry, hlast, hfirst]
  cases l2 with
  | nil => rfl
  | cons cur rest =>
    dsimp only [List.head?_cons]
    split_ifs <;> rfl

theorem VmMap.Wf.ends (h : m.Wf) {pre rest : List VmMapEntry} {x : VmMapEntry}
    (heq : m.entries = pre ++ x :: rest) :
    (∀ e ∈ pre ++ [x], e.vmeEnd ≤ x.vmeEnd) ∧ ∀ e ∈ x :: rest, x.vmeEnd ≤ e.vmeEnd := by
  have hsorted := h.sorted
  rw [heq, pairwise_append, pairwise_cons] at hsorted
  have hne := h.nonempty x (by rw [heq]; simp)
  refine ⟨fun e he => ?_, fun e he => ?_⟩
  · rcases mem_append.mp he with he | he
    · exact (hsorted.2.2 e he x mem_cons_self).trans hne.le
    · rw [mem_singleton.mp he]
  · rcases mem_cons.mp he with rfl | hrest
    · exact le_rfl
    · have := h.nonempty e (by rw [heq]; exact mem_append_right _ he)
      exact (hsorted.2.1.1 e hrest).trans this.le

/-- An entry for an address. -/
def VmMapEntry.Covers (e : VmMapEntry) (address : ℕ) : Prop :=
  e.vmeStart ≤ address ∧ address < e.vmeEnd

/-- **Lookup does not depend on the hint**: it finds the only entry for the address, and otherwise the
last entry that ends at the address or before. -/
theorem lookup_finds_place (h : m.Wf) (address : ℕ) : (∀ e ∈ m.entries, e.Covers address →
      lookupFromHint m address = (true, some e.addr) ∧ ∀ x ∈ m.entries, x.Covers address → x = e) ∧
    ((∀ e ∈ m.entries, ¬ e.Covers address) → lookupFromHint m address =
        (false, (m.entries.filter fun e => decide (e.vmeEnd ≤ address)).getLast?.map (·.addr))) := by
  obtain ⟨l1, l2, heq, hbefore, hafter, -, -, hlook⟩ := lookupFromHint_spec h address
  have hsorted := h.sorted
  rw [heq, pairwise_append] at hsorted
  cases l2 with
  | nil =>
    rw [append_nil] at heq
    refine ⟨fun e he hc => absurd hc.2 (by have := hbefore e (heq ▸ he); omega), fun _ => ?_⟩
    rw [hlook, heq, filter_eq_self.mpr fun e he => decide_eq_true (hbefore e he)]
    rfl
  | cons cur rest =>
    have hcur := hafter cur rfl
    have hends := (h.ends heq).2
    -- only the first entry that ends after the address can begin before it
    have honly : ∀ x ∈ m.entries, x.Covers address → x = cur := by
      intro x hx hc
      rw [heq] at hx
      rcases mem_append.mp hx with hx | hx
      · exact absurd hc.2 (by have := hbefore x hx; omega)
      rcases mem_cons.mp hx with rfl | hx
      · rfl
      · have := (pairwise_cons.mp hsorted.2.1).1 x hx
        exact absurd hc.1 (by omega)
    dsimp only [List.head?_cons] at hlook
    refine ⟨fun e he hc => ?_, fun hnone => ?_⟩
    · obtain rfl := honly e he hc
      rw [hlook, if_pos hc.1]
      exact ⟨rfl, honly⟩
    · have hnot : ¬ cur.vmeStart ≤ address := fun hle => hnone cur (by rw [heq]; simp) ⟨hle, hcur⟩
      have hfilter : (cur :: rest).filter (fun e => decide (e.vmeEnd ≤ address)) = [] := by
        rw [filter_eq_nil_iff]
        intro e he
        have := hends e he
        rw [decide_eq_true_iff]
        omega
      rw [hlook, if_neg hnot, heq, filter_append, hfilter, append_nil,
        filter_eq_self.mpr fun e he => decide_eq_true (hbefore e he)]

/-- Two entries with a hole between them; the hint is the second one. -/
def twoEntries : VmMap where
  entries := [⟨1, 4096, 8192, false, false, 0, 0⟩, ⟨2, 12288, 16384, false, false, 0, 0⟩]
  hint := some 2
  timestamp := 0
  fresh := 3

theorem lookup_in_hole : twoEntries.Wf ∧ lookupFromHint twoEntries 8192 = (false, some 1) :=
  have hwf : twoEntries.Wf := by decide
  ⟨hwf, (lookup_finds_place hwf 8192).2 (by unfold VmMapEntry.Covers; decide)⟩

theorem alignMask_eq (hk : k ≤ 32) (start : ℕ) :
    alignMask start (2 ^ k - 1) = (start + (2 ^ k - 1)) % 2 ^ 32 / 2 ^ k * 2 ^ k := by
  unfold alignMask
  set x := (start + (2 ^ k - 1)) % 2 ^ 32 with hx
  have hlt : x < 2 ^ 32 := Nat.mod_lt _ (by decide)
  refine Nat.eq_of_testBit_eq fun i => ?_
  rw [Nat.testBit_and, Nat.testBit_xor, Nat.testBit_two_pow_sub_one, Nat.testBit_two_pow_sub_one,
    Nat.testBit_mul_two_pow, Nat.testBit_div_two_pow]
  by_cases hik : i < k
  · simp [hik, show i < 32 by omega, show ¬ k ≤ i by omega]
  by_cases hi : i < 32
  · simp [hik, hi, show k ≤ i by omega, show i - k + k = i by omega]
  · have hbit : x.testBit i = false :=
      Nat.testBit_lt_two_pow (hlt.trans_le (Nat.pow_le_pow_right (by decide) (by omega)))
    simp [hbit, show i - k + k = i by omega]

theorem alignMask_spec (hk : k ≤ 32) (start : ℕ) :
    (start ≤ alignMask start (2 ^ k - 1) → alignMask start (2 ^ k - 1) &&& (2 ^ k - 1) = 0) ∧
      ∀ a, start ≤ a → a < 2 ^ 32 → a &&& (2 ^ k - 1) = 0 →
        start ≤ alignMask start (2 ^ k - 1) ∧ alignMask start (2 ^ k - 1) ≤ a := by
  have hpos : 0 < 2 ^ k := Nat.two_pow_pos k
  have hpow : 2 ^ k ≤ 2 ^ 32 := Nat.pow_le_pow_right (by decide) hk
  rw [alignMask_eq hk]
  refine ⟨fun _ => ?_, fun a hle ha hmask => ?_⟩
  · rw [Nat.and_two_pow_sub_one_eq_mod, Nat.mul_mod_left]
  · rw [Nat.and_two_pow_sub_one_eq_mod] at hmask
    obtain ⟨q, rfl⟩ := Nat.dvd_of_mod_eq_zero hmask
    -- the next multiple is at most `a`, so nothing wraps
    obtain ⟨r, hr⟩ : 2 ^ k ∣ 2 ^ 32 := pow_dvd_pow 2 hk
    have hqr : q < r := by
      rw [hr] at ha
      exact Nat.lt_of_mul_lt_mul_left ha
    have hwrap : start + (2 ^ k - 1) < 2 ^ 32 := by
      have : 2 ^ k * (q + 1) ≤ 2 ^ k * r := Nat.mul_le_mul_left _ hqr
      rw [Nat.mul_add, ← hr] at this
      omega
    rw [Nat.mod_eq_of_lt hwrap]
    have hdiv := Nat.div_add_mod (start + (2 ^ k - 1)) (2 ^ k)
    have hmod := Nat.mod_lt (start + (2 ^ k - 1)) hpos
    rw [Nat.mul_comm] at hdiv
    refine ⟨by omega, ?_⟩
    rw [Nat.mul_comm (2 ^ k) q]
    refine Nat.mul_le_mul_right _ (Nat.lt_succ_iff.mp ((Nat.div_lt_iff_lt_mul hpos).mpr ?_))
    rw [Nat.succ_mul, Nat.mul_comm q]
    omega

theorem alignMask_lt (start mask : ℕ) : alignMask start mask < 2 ^ 32 :=
  Nat.and_le_left.trans_lt (Nat.mod_lt _ (by decide))

/-- What a search without waiting should end with. -/
def FirstFit (v : VmRange) (address size mask : ℕ) : SpaceResult → Prop
  | .found a _ => IsLeast {a | v.Fits address size mask a} a
  | .noSpace | .wrapped => ∀ a, ¬ v.Fits address size mask a
  | .wait => False

section Search

variable (hv : v.Wf page) (hwait : v.waitForSpace = false) (hk : k ≤ 32) (hsize : size < 2 ^ 32)
include hv hwait hk hsize

theorem spaceSearch_round (entry : Option ℕ) (rest : List VmMapEntry)
    (hpassed : ∀ a, v.Fits address size (2 ^ k - 1) a → start ≤ a) :
    FirstFit v address size (2 ^ k - 1) (spaceSearch v size (2 ^ k - 1) start entry rest) ∨
    ∃ aligned, start ≤ aligned ∧ aligned &&& (2 ^ k - 1) = 0 ∧ aligned + size ≤ v.maxOffset ∧
      (∀ a, v.Fits address size (2 ^ k - 1) a → aligned ≤ a) ∧
      spaceSearch v size (2 ^ k - 1) start entry rest = match rest with
        | [] => .found aligned entry
        | next :: rest =>
          if next.vmeStart ≥ aligned + size then .found aligned entry
          else spaceSearch v size (2 ^ k - 1) next.vmeEnd (some next.addr) rest := by
  obtain ⟨hmask, hleast⟩ := alignMask_spec hk start
  have hlt := alignMask_lt start (2 ^ k - 1)
  have hrange := hv.range
  have hbelow : ∀ a, v.Fits address size (2 ^ k - 1) a →
      start ≤ alignMask start (2 ^ k - 1) ∧ alignMask start (2 ^ k - 1) ≤ a :=
    fun a ha => hleast a (hpassed a ha) (by have := ha.high; omega) ha.aligned
  rw [spaceSearch.eq_def v size (2 ^ k - 1) start entry rest]
  generalize alignMask start (2 ^ k - 1) = aligned at hmask hlt hbelow ⊢
  dsimp only
  by_cases h1 : aligned < start
  · rw [if_pos h1]
    exact Or.inl fun a ha => absurd (hbelow a ha).1 (by omega)
  rw [if_neg h1]
  by_cases h2 : (aligned + size) % 2 ^ 32 > v.maxOffset ∨ (aligned + size) % 2 ^ 32 < aligned
  · rw [if_pos h2, if_neg (by simp [hwait])]
    refine Or.inl fun a ha => ?_
    have hle := (hbelow a ha).2
    have hhigh := ha.high
    rw [Nat.mod_eq_of_lt (by omega)] at h2
    omega
  · have hstop : (aligned + size) % 2 ^ 32 = aligned + size := by omega
    rw [if_neg h2, hstop]
    exact Or.inr ⟨aligned, by omega, hmask (by omega), by omega, fun a ha => (hbelow a ha).2, rfl⟩

/-- **The loop**: the entries before are passed, and nothing that fits has been. -/
theorem spaceSearch_spec (entry : Option ℕ) (pre rest : List VmMapEntry)
    (heq : v.entries = pre ++ rest) (hpre : ∀ e ∈ pre, e.vmeEnd ≤ start)
    (hrest : ∀ e ∈ rest, start ≤ e.vmeEnd) (hhint : address ≤ start) (hlow : v.minOffset ≤ start)
    (hpassed : ∀ a, v.Fits address size (2 ^ k - 1) a → start ≤ a) :
    FirstFit v address size (2 ^ k - 1) (spaceSearch v size (2 ^ k - 1) start entry rest) := by
  induction rest generalizing start entry pre with
  | nil =>
    rcases spaceSearch_round hv hwait hk hsize entry [] hpassed with
      hno | ⟨aligned, hle, hmask, hhigh, hleast, hfound⟩
    · exact hno
    rw [hfound]
    rw [append_nil] at heq
    exact ⟨⟨hhint.trans hle, hlow.trans hle, hmask, hhigh,
      fun e he => Or.inl ((hpre e (heq ▸ he)).trans hle)⟩, fun a ha => hleast a ha⟩
  | cons next rest ih =>
    have hsorted := hv.map.sorted
    rw [heq, pairwise_append, pairwise_cons] at hsorted
    have hmem : next ∈ v.entries := by
      rw [heq]
      exact mem_append_right _ mem_cons_self
    obtain ⟨hbefore, hafter⟩ := hv.map.ends heq
    rcases spaceSearch_round hv hwait hk hsize entry (next :: rest) hpassed with
      hno | ⟨aligned, hle, hmask, hhigh, hleast, hround⟩
    · exact hno
    rw [hround]
    dsimp only
    split_ifs with hroom
    · refine ⟨⟨hhint.trans hle, hlow.trans hle, hmask, hhigh, fun e he => ?_⟩,
        fun a ha => hleast a ha⟩
      rw [heq] at he
      rcases mem_append.mp he with he | he
      · exact Or.inl ((hpre e he).trans hle)
      rcases mem_cons.mp he with rfl | he
      · exact Or.inr hroom
      · have := hsorted.2.1.1 e he
        have := hv.map.nonempty next hmem
        exact Or.inr (by omega)
    -- what fits does not end before `next`, so it starts after it
    refine ih (some next.addr) (pre ++ [next]) (by rw [heq, append_assoc]; rfl)
      hbefore (fun e he => hafter e (mem_cons_of_mem _ he))
      (hhint.trans (hrest next mem_cons_self))
      (hlow.trans (hrest next mem_cons_self)) fun a ha => ?_
    have := hleast a ha
    exact (ha.free next hmem).resolve_right (by omega)

end Search

theorem lt_of_truncPage_eq (hpage : 0 < page) {x y : ℕ}
    (h : truncPage page x = truncPage page y) : x < y + page := by
  have hx := Nat.div_add_mod x page
  have hy := Nat.div_add_mod y page
  have hmod := Nat.mod_lt x hpage
  rw [truncPage, truncPage, Nat.mul_comm, Nat.mul_comm (y / page)] at h
  omega

theorem passed_next (hpages : page ≤ size) {low : ℕ} {next : VmMapEntry} (hmem : next ∈ v.entries)
    (hlow : ∀ a, v.Fits address size mask a → low ≤ a) (hnear : next.vmeStart < low + page) :
    ∀ a, v.Fits address size mask a → next.vmeEnd ≤ a := by
  intro a ha
  have := hlow a ha
  exact (ha.free next hmem).resolve_right (by omega)

section FirstFree

variable (hv : v.Wf page) (hpages : page ≤ size)
include hv hpages

theorem firstFreeFrom_spec (x : VmMapEntry) (pre rest : List VmMapEntry)
    (heq : v.entries = pre ++ x :: rest)
    (hpassed : ∀ a, v.Fits address size mask a → x.vmeEnd ≤ a) {p : ℕ}
    (h : firstFreeFrom page v.minOffset (some x.addr) x.vmeStart x.vmeEnd rest = some p) :
    ∃ l1 e l2, v.toVmMap.At p l1 e l2 ∧ ∀ a, v.Fits address size mask a → e.vmeEnd ≤ a := by
  induction rest generalizing x pre with
  | nil =>
    rw [firstFreeFrom] at h
    split_ifs at h
    cases h
    exact ⟨pre, x, [], hv.map.at_of_entries heq, hpassed⟩
  | cons next rest ih =>
    rw [firstFreeFrom] at h
    split_ifs at h with hnear
    · have hx := hv.map.nonempty x (by rw [heq]; simp)
      refine ih next (pre ++ [x]) (by rw [heq, append_assoc]; rfl)
        (passed_next hpages (by rw [heq]; simp) hpassed ?_) h
      rcases hnear with hnear | hnear
      · exact lt_of_truncPage_eq hv.page_pos hnear
      · have := lt_of_truncPage_eq hv.page_pos hnear
        omega
    · cases h
      exact ⟨pre, x, next :: rest, hv.map.at_of_entries heq, hpassed⟩

/-- **Nothing fits before `first_free`** ends. -/
theorem firstFree_spec {p : ℕ} (h : v.firstFree = some p) :
    ∃ l1 e l2, v.toVmMap.At p l1 e l2 ∧ ∀ a, v.Fits address size mask a → e.vmeEnd ≤ a := by
  rw [hv.firstFree] at h
  cases hentries : v.entries with
  | nil =>
    rw [hentries, firstFreeFrom] at h
    split_ifs at h
  | cons next rest =>
    rw [hentries, firstFreeFrom] at h
    split_ifs at h with hnear
    have hmem : next ∈ v.entries := by
      rw [hentries]
      exact mem_cons_self
    refine firstFreeFrom_spec hv hpages next [] rest hentries
      (passed_next hpages hmem (fun a ha => ha.low) ?_) h
    rcases hnear with hnear | hnear
    · -- no entry begins in the page after the range
      exfalso
      have hne := hv.map.nonempty next hmem
      have hin := (hv.inside next hmem).2
      have hle : truncPage page next.vmeStart ≤ next.vmeStart := Nat.div_mul_le_self _ _
      rw [hnear, truncPage, Nat.div_mul_cancel hv.wholePages] at hle
      omega
    · exact lt_of_truncPage_eq hv.page_pos hnear

end FirstFree

theorem VmMap.At.endOf_eq
    (h : m.At p l1 e l2) : m.endOf p = e.vmeEnd := by
  rw [endOf, h.find_eq]
  rfl

theorem VmMap.At.entriesAfter_eq
    (h : m.At p l1 e l2) : m.entriesAfter (some p) = l2 := by
  change (m.entries.dropWhile _).drop 1 = l2
  rw [h.entries, dropWhile_append_of_pos, dropWhile_cons_of_neg, drop_one,
    tail_cons]
  · simp [h.addr]
  · intro x hx
    simpa using h.before x hx

theorem VmMap.Wf.entriesAfter_last (h : m.Wf)
    (heq : m.entries = l1 ++ l2) : m.entriesAfter (l1.getLast?.map (·.addr)) = l2 := by
  rcases eq_nil_or_concat l1 with rfl | ⟨l, x, rfl⟩
  · exact heq
  · rw [concat_eq_append] at heq ⊢
    rw [List.getLast?_concat, map_some]
    exact (h.at_of_entries (by rw [heq, append_assoc]; rfl)).entriesAfter_eq

section Find

variable (hv : v.Wf page) (hwait : v.waitForSpace = false) (hk : k ≤ 32) (hsize : size < 2 ^ 32)
include hv hwait hk hsize

theorem spaceSearch_after {p : ℕ} {l1 l2 : List VmMapEntry} {e : VmMapEntry}
    (hat : v.toVmMap.At p l1 e l2) (hhint : address ≤ e.vmeEnd)
    (hpassed : ∀ a, v.Fits address size (2 ^ k - 1) a → e.vmeEnd ≤ a) :
    FirstFit v address size (2 ^ k - 1) (spaceSearch v size (2 ^ k - 1) (v.endOf p) (some p)
      (v.entriesAfter (some p))) := by
  rw [hat.endOf_eq, hat.entriesAfter_eq]
  obtain ⟨hbefore, hafter⟩ := hv.map.ends hat.entries
  exact spaceSearch_spec hv hwait hk hsize (some p) (l1 ++ [e]) l2
    (by rw [hat.entries, append_assoc]; rfl) hbefore
    (fun x hx => hafter x (mem_cons_of_mem _ hx)) hhint
    ((hv.inside e hat.mem).1.trans (hv.map.nonempty e hat.mem).le) hpassed

/-- **First fit**: the lowest address that fits is found. -/
theorem findSpace_firstFit (hpages : page ≤ size) :
    FirstFit v address size (2 ^ k - 1) (findSpace v address size (2 ^ k - 1)) := by
  unfold findSpace spaceStart
  set start := if address < v.minOffset then v.minOffset else address with hstart
  have hmaximum : start = max v.minOffset address := by
    rw [hstart]
    split_ifs <;> omega
  have hlow : v.minOffset ≤ start := by omega
  have hhint : address ≤ start := by omega
  have hfrom : ∀ a, v.Fits address size (2 ^ k - 1) a → start ≤ a := by
    intro a ha
    have := ha.hint
    have := ha.low
    omega
  have hpos := hv.page_pos
  dsimp only
  split_ifs with hmax hmin
  · intro a ha
    have := hfrom a ha
    have := ha.high
    omega
  · cases hff : v.firstFree with
    | none =>
      refine spaceSearch_spec hv hwait hk hsize none [] v.entries rfl
        (fun e he => absurd he not_mem_nil) (fun e he => ?_) hhint hlow hfrom
      have := (hv.inside e he).1
      have := hv.map.nonempty e he
      omega
    | some p =>
      obtain ⟨l1, e, l2, hat, hpassed⟩ := firstFree_spec hv hpages hff
      have := (hv.inside e hat.mem).1
      have := hv.map.nonempty e hat.mem
      exact spaceSearch_after hv hwait hk hsize hat (by omega) hpassed
  · obtain ⟨l1, l2, heq, hle, hafter, -, -, hlook⟩ := lookupFromHint_spec hv.map start
    have hmiss : FirstFit v address size (2 ^ k - 1) (spaceSearch v size (2 ^ k - 1) start
        (l1.getLast?.map (·.addr)) (v.entriesAfter (l1.getLast?.map (·.addr)))) := by
      rw [hv.map.entriesAfter_last heq]
      refine spaceSearch_spec hv hwait hk hsize _ l1 l2 heq hle (fun e he => ?_) hhint hlow hfrom
      cases l2 with
      | nil => cases he
      | cons cur rest => exact (hafter cur rfl).le.trans ((hv.map.ends heq).2 e he)
    rw [hlook]
    cases l2 with
    | nil => exact hmiss
    | cons cur rest =>
      dsimp only [List.head?_cons]
      split_ifs with hin
      · have hat := hv.map.at_of_entries heq
        have hcur := hafter cur rfl
        refine spaceSearch_after hv hwait hk hsize hat (by omega) fun a ha => ?_
        have := hfrom a ha
        exact (ha.free cur hat.mem).resolve_right (by omega)
      · exact hmiss

end Find

/-- **The address is the lowest that fits**, and there is no space only when nothing fits, for both
functions. -/
theorem first_fit_exact (page k : ℕ) (v : VmRange) (hv : v.Wf page) (hwait : v.waitForSpace = false)
    (hk : k ≤ 32) (address size : ℕ) (hpos : 0 < size) (hpages : page ∣ size)
    (hsize : size < 2 ^ 32) :
    FirstFit v address size (2 ^ k - 1) (vmMapEnterAnywhere v address size (2 ^ k - 1)) ∧
      vmRemapRangeAllocateAnywhere v address size (2 ^ k - 1) =
        vmMapEnterAnywhere v address size (2 ^ k - 1) :=
  ⟨findSpace_firstFit hv hwait hk hsize (Nat.le_of_dvd hpos hpages), rfl⟩

/-- A map of four pages of 16 bytes, of which the second has an entry. -/
def onePage : VmRange where
  entries := [⟨0, 32, 48, false, false, 0, 0⟩]
  hint := some 0
  timestamp := 0
  fresh := 1
  minOffset := 16
  maxOffset := 80
  firstFree := none
  waitForSpace := false

theorem first_fit_exact_onePage : FirstFit onePage 16 32 31 (vmMapEnterAnywhere onePage 16 32 31) ∧
      vmRemapRangeAllocateAnywhere onePage 16 32 31 = vmMapEnterAnywhere onePage 16 32 31 :=
  first_fit_exact 16 5 onePage
    ⟨by decide, by decide, by decide, by decide, by decide, by decide⟩ rfl (by decide) 16 32
    (by decide) (by decide) (by decide)

end Osfmk

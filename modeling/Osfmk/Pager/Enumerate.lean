import Osfmk.Pager.Vsmap

/-!
# The stored pages of an object

`ps_vstruct_allocated_pages` goes through the map of an object and stores the offsets of the valid
pages in a buffer, and `ps_vstruct_allocated_size` counts them (`dp_backing_store.c`).  The loop over a
direct map has the length of a block, whatever the size of the map is, and the count is compared with
the capacity of the buffer when it includes the page already, so the last place is not used.

## Main results

* `allocatedPages_right_iff` — the pages that are stored are the right ones exactly when the loop ends
  with the map and the buffer has a place to spare.
-/

open List

namespace Osfmk.Paging.Enumerate

/-- The number of pages that have been found, the offsets in the buffer, and the running offset. -/
structure Walk where
  numPages : ℕ
  stored : List ℕ
  offset : ℕ

variable (pageSize clsize capacity : ℕ)

/-- One turn of the loop on the pages of a cluster. -/
def pageStep (e : VsMap) (w : Walk) (k : ℕ) : Walk :=
  if e.bmap.getLsbD k then
    { numPages := w.numPages + 1
      stored := if w.numPages + 1 < capacity then w.stored ++ [w.offset] else w.stored
      offset := w.offset + pageSize }
  else { w with offset := w.offset + pageSize }

/-- One turn of the loop on the clusters of a map or of a block. -/
def clusterStep (entries : ℕ → VsMap) (w : Walk) (j : ℕ) : Walk :=
  if (entries j).isClr || (entries j).error then { w with offset := w.offset + pageSize * clsize }
  else (List.range clsize).foldl (pageStep pageSize capacity (entries j)) w

/-- One turn of the loop on the blocks. -/
def blockStep (blocks : ℕ → Option (ℕ → VsMap)) (w : Walk) (i : ℕ) : Walk :=
  match blocks i with
  | none => { w with offset := w.offset + pageSize * (clmapEntries * clsize) }
  | some b => (List.range clmapEntries).foldl (clusterStep pageSize clsize capacity b) w

def psVstructAllocatedPages (vs : Vs) : Walk :=
  match vs.map with
  | .dmap entries =>
    (List.range clmapEntries).foldl (clusterStep pageSize clsize capacity entries) ⟨0, [], 0⟩
  | .imap blocks => (List.range (indirectClmapEntries vs.size)).foldl
      (blockStep pageSize clsize capacity blocks) ⟨0, [], 0⟩

/-- The same loops, where only the pages are counted. -/
def clusterCount (entries : ℕ → VsMap) (n j : ℕ) : ℕ :=
  if (entries j).isClr || (entries j).error then n
  else (List.range clsize).foldl (fun n k => if (entries j).bmap.getLsbD k then n + 1 else n) n

def blockCount (blocks : ℕ → Option (ℕ → VsMap)) (n i : ℕ) : ℕ :=
  match blocks i with
  | none => n
  | some b => (List.range clmapEntries).foldl (clusterCount clsize b) n

def psVstructAllocatedSize (vs : Vs) : ℕ :=
  pageSize * match vs.map with
    | .dmap entries => (List.range clmapEntries).foldl (clusterCount clsize entries) 0
    | .imap blocks =>
      (List.range (indirectClmapEntries vs.size)).foldl (blockCount clsize blocks) 0

/-- The entries that the loops inspect. -/
def inspected (vs : Vs) : List ℕ :=
  match vs.map with
  | .dmap _ => List.range clmapEntries
  | .imap blocks => (List.range (indirectClmapEntries vs.size)).flatMap fun i =>
      if (blocks i).isSome then (List.range clmapEntries).map (i * clmapEntries + ·) else []

/-- A page is valid when its bit is set in an entry that is neither clear nor in error. -/
def valid (vs : Vs) (p : ℕ) : Bool :=
  (vs.lookup (p / clsize)).any fun e => !(e.isClr || e.error) && e.bmap.getLsbD (p % clsize)

/-- The valid pages of an object. -/
def validPages (vs : Vs) : List ℕ := (List.range (vs.limit * clsize)).filter (valid clsize vs)

variable {pageSize clsize capacity} {w : Walk}

/-- The loops have come to a page: the valid pages before it have been counted, and the buffer is
filled but for its last place. -/
structure Tracks (pageSize capacity : ℕ) (valid : ℕ → Bool) (w : Walk) (page : ℕ) : Prop where
  numPages : w.numPages = ((List.range page).filter valid).length
  stored : w.stored = (((List.range page).filter valid).take (capacity - 1)).map (· * pageSize)
  offset : w.offset = page * pageSize

variable {v : ℕ → Bool} {page : ℕ}

theorem Tracks.skip (h : Tracks pageSize capacity v w page) {n : ℕ}
    (hv : ∀ k, k < n → v (page + k) = false) :
    Tracks pageSize capacity v { w with offset := w.offset + pageSize * n } (page + n) := by
  have hsame : (List.range (page + n)).filter v = (List.range page).filter v := by
    rw [range_add, filter_append, append_right_eq_self, filter_eq_nil_iff]
    intro p hp
    obtain ⟨k, hk, rfl⟩ := mem_map.mp hp
    rw [hv k (mem_range.mp hk)]
    exact Bool.false_ne_true
  refine ⟨?_, ?_, ?_⟩
  · rw [hsame]
    exact h.numPages
  · rw [hsame]
    exact h.stored
  · rw [h.offset, Nat.add_mul, Nat.mul_comm pageSize]

theorem Tracks.pageStep (h : Tracks pageSize capacity v w page) {e : VsMap} {k : ℕ}
    (hv : v page = e.bmap.getLsbD k) :
    Tracks pageSize capacity v (pageStep pageSize capacity e w k) (page + 1) := by
  unfold Enumerate.pageStep
  split
  · next hbit =>
    have hnext : (List.range (page + 1)).filter v = (List.range page).filter v ++ [page] := by
      rw [range_succ, filter_append, filter_singleton, hv, hbit]
      rfl
    refine ⟨?_, ?_, ?_⟩
    · rw [hnext, length_append, ← h.numPages]
      rfl
    · rw [hnext, h.numPages, take_append, map_append, ← h.stored, h.offset]
      split
      · next hlt =>
        rw [take_of_length_le (by rw [length_singleton]; omega), map_singleton]
      · next hge =>
        rw [show capacity - 1 - ((List.range page).filter v).length = 0 by omega, take_zero,
          map_nil, append_nil]
    · rw [h.offset, Nat.add_one_mul]
  · next hbit =>
    have hskip := h.skip (n := 1) fun k' hk' => by
      rw [Nat.lt_one_iff.mp hk', Nat.add_zero, hv]
      exact Bool.not_eq_true _ ▸ hbit
    rwa [Nat.mul_one] at hskip

/-- **A loop whose turns advance by `m` pages.** -/
theorem Tracks.foldl {f : Walk → ℕ → Walk} {m : ℕ} (n : ℕ)
    (hf : ∀ i, i < n → ∀ w, Tracks pageSize capacity v w (page + i * m) →
      Tracks pageSize capacity v (f w i) (page + (i + 1) * m))
    (h : Tracks pageSize capacity v w page) :
    Tracks pageSize capacity v ((List.range n).foldl f w) (page + n * m) := by
  induction n with
  | zero => rwa [Nat.zero_mul]
  | succ n ih =>
    rw [range_succ, foldl_append]
    exact hf n (Nat.lt_succ_self n) _ (ih fun i hi => hf i (hi.trans (Nat.lt_succ_self n)))

theorem Tracks.clusterStep {entries : ℕ → VsMap} {j : ℕ} (h : Tracks pageSize capacity v w page)
    (hv : ∀ k, k < clsize → v (page + k) =
      (!((entries j).isClr || (entries j).error) && (entries j).bmap.getLsbD k)) :
    Tracks pageSize capacity v (clusterStep pageSize clsize capacity entries w j)
      (page + clsize) := by
  unfold Enumerate.clusterStep
  split
  · next hclr =>
    refine h.skip fun k hk => ?_
    rw [hv k hk, hclr]
    rfl
  · next hclr =>
    rw [Bool.not_eq_true] at hclr
    have hpages := h.foldl (m := 1) (f := Enumerate.pageStep pageSize capacity (entries j)) clsize
      fun k hk w hw => by
        rw [Nat.mul_one] at hw ⊢
        refine hw.pageStep ?_
        rw [hv k hk, hclr]
        rfl
    rwa [Nat.mul_one] at hpages

variable {vs : Vs}

theorem valid_of_lookup (hpos : 0 < clsize) {c k : ℕ} (hk : k < clsize) :
    valid clsize vs (c * clsize + k) =
      (vs.lookup c).any fun e => !(e.isClr || e.error) && e.bmap.getLsbD k := by
  rw [valid, Nat.mul_comm, Nat.mul_add_div hpos, Nat.div_eq_of_lt hk, Nat.mul_add_mod,
    Nat.mod_eq_of_lt hk, Nat.add_zero]

theorem Tracks.entries (hpos : 0 < clsize) (entries : ℕ → VsMap) {i : ℕ}
    (hl : ∀ j, j < clmapEntries → vs.lookup (i * clmapEntries + j) = some (entries j))
    (h : Tracks pageSize capacity (valid clsize vs) w (i * clmapEntries * clsize)) :
    Tracks pageSize capacity (valid clsize vs)
      ((List.range clmapEntries).foldl (Enumerate.clusterStep pageSize clsize capacity entries) w)
      ((i + 1) * clmapEntries * clsize) := by
  rw [Nat.add_one_mul, Nat.add_mul]
  refine h.foldl (m := clsize) clmapEntries fun j hj w hw => ?_
  rw [Nat.add_one_mul, ← Nat.add_assoc]
  refine hw.clusterStep fun k hk => ?_
  rw [← Nat.add_mul, valid_of_lookup hpos hk, hl j hj]
  rfl

theorem Tracks.blockStep (hpos : 0 < clsize) {blocks : ℕ → Option (ℕ → VsMap)} {i : ℕ}
    (hm : vs.map = .imap blocks)
    (h : Tracks pageSize capacity (valid clsize vs) w (i * clmapEntries * clsize)) :
    Tracks pageSize capacity (valid clsize vs) (Enumerate.blockStep pageSize clsize capacity blocks w i)
      ((i + 1) * clmapEntries * clsize) := by
  have hl : ∀ j, j < clmapEntries →
      vs.lookup (i * clmapEntries + j) = (blocks i).map fun b => b j := by
    intro j hj
    rw [Vs.lookup, hm]
    dsimp only
    rw [Nat.mul_comm i, Nat.mul_add_div (by decide), Nat.div_eq_of_lt hj, Nat.mul_add_mod,
      Nat.mod_eq_of_lt hj, Nat.add_zero]
  unfold Enumerate.blockStep
  split
  · next hb =>
    rw [Nat.add_one_mul, Nat.add_mul]
    refine h.skip fun k hk => ?_
    have hdm := Nat.div_add_mod' k clsize
    have hlt := (Nat.div_lt_iff_lt_mul hpos).mpr hk
    rw [← hdm, ← Nat.add_assoc, ← Nat.add_mul, valid_of_lookup hpos (Nat.mod_lt k hpos), hl _ hlt, hb]
    rfl
  · next b hb => exact h.entries hpos b fun j hj => by rw [hl j hj, hb]; rfl

/-- **What the loops find** in a map whose entries they do not leave. -/
theorem tracks_allocatedPages (pageSize capacity : ℕ) (hpos : 0 < clsize)
    (hdir : vs.indirect = false → vs.size = clmapEntries) :
    Tracks pageSize capacity (valid clsize vs) (psVstructAllocatedPages pageSize clsize capacity vs)
      (vs.limit * clsize) := by
  have h0 : Tracks pageSize capacity (valid clsize vs) ⟨0, [], 0⟩ (0 * clmapEntries * clsize) :=
    ⟨by simp, by simp, by simp⟩
  unfold psVstructAllocatedPages Vs.limit
  cases hm : vs.map with
  | dmap entries =>
    have hind : vs.indirect = false := by rw [Vs.indirect, hm]
    rw [hind, if_neg Bool.false_ne_true, hdir hind]
    have hall := h0.entries hpos entries fun j hj => by
      rw [Vs.lookup, hm, Nat.zero_mul, Nat.zero_add]
      dsimp only
      rw [Nat.mod_eq_of_lt hj]
    rwa [Nat.zero_add, Nat.one_mul] at hall
  | imap blocks =>
    have hind : vs.indirect = true := by rw [Vs.indirect, hm]
    rw [hind, if_pos rfl]
    have hall := h0.foldl (m := clmapEntries * clsize) (indirectClmapEntries vs.size)
      (f := Enumerate.blockStep pageSize clsize capacity blocks) fun i _ w hw => by
        rw [Nat.zero_mul, Nat.zero_mul, Nat.zero_add, ← Nat.mul_assoc] at hw ⊢
        exact hw.blockStep hpos hm
    rwa [Nat.zero_mul, Nat.zero_mul, Nat.zero_add, ← Nat.mul_assoc,
      Nat.mul_comm (indirectClmapEntries _)] at hall

theorem clusterCount_numPages (entries : ℕ → VsMap) (w : Walk) (j : ℕ) :
    clusterCount clsize entries w.numPages j =
      (clusterStep pageSize clsize capacity entries w j).numPages := by
  unfold clusterCount clusterStep
  split
  · rfl
  · refine foldl_hom Walk.numPages fun w k => ?_
    unfold pageStep
    split
    · rfl
    · rfl

theorem blockCount_numPages (blocks : ℕ → Option (ℕ → VsMap)) (w : Walk) (i : ℕ) :
    blockCount clsize blocks w.numPages i =
      (blockStep pageSize clsize capacity blocks w i).numPages := by
  unfold blockCount blockStep
  split
  · rfl
  · exact foldl_hom Walk.numPages fun w j => clusterCount_numPages _ w j

theorem allocatedSize_eq (capacity : ℕ) (vs : Vs) : psVstructAllocatedSize pageSize clsize vs =
    pageSize * (psVstructAllocatedPages pageSize clsize capacity vs).numPages := by
  unfold psVstructAllocatedSize psVstructAllocatedPages
  refine congrArg (pageSize * ·) ?_
  cases vs.map with
  | dmap entries =>
    show List.foldl _ (Walk.numPages ⟨0, [], 0⟩) _ = _
    exact foldl_hom Walk.numPages fun w j => clusterCount_numPages entries w j
  | imap blocks =>
    show List.foldl _ (Walk.numPages ⟨0, [], 0⟩) _ = _
    exact foldl_hom Walk.numPages fun w i => blockCount_numPages blocks w i

/-- Only entries of the map are inspected, the valid pages are counted, and the buffer holds the
offsets of the first ones, as many as it has room for. -/
def Right (pageSize clsize capacity : ℕ) (vs : Vs) : Prop :=
  let w := psVstructAllocatedPages pageSize clsize capacity vs
  (∀ c ∈ inspected vs, c < vs.limit) ∧ w.numPages = (validPages clsize vs).length ∧
    w.stored = ((validPages clsize vs).take capacity).map (· * pageSize) ∧
    psVstructAllocatedSize pageSize clsize vs = (validPages clsize vs).length * pageSize

theorem inspected_lt_iff (h : vs.WF) : (∀ c ∈ inspected vs, c < vs.limit) ↔
    vs.indirect = true ∨ vs.size = clmapEntries := by
  unfold Vs.WF at h
  unfold inspected Vs.limit
  cases hm : vs.map with
  | dmap entries =>
    have hind : vs.indirect = false := by rw [Vs.indirect, hm]
    rw [hind, indirectClmap] at h
    have hle : ¬ vs.size * 8 > 512 := of_decide_eq_false h.symm
    rw [hind, if_neg Bool.false_ne_true, clmapEntries]
    refine ⟨fun hall => .inr ?_, fun hor c hc => ?_⟩
    · have := hall 63 (mem_range.mpr (by decide))
      omega
    · rcases hor with he | he
      · cases he
      · exact he ▸ mem_range.mp hc
  | imap blocks =>
    have hind : vs.indirect = true := by rw [Vs.indirect, hm]
    rw [hind, if_pos rfl]
    refine ⟨fun _ => .inl rfl, fun _ c hc => ?_⟩
    obtain ⟨i, hi, hc⟩ := mem_flatMap.mp hc
    split at hc
    · obtain ⟨j, hj, rfl⟩ := mem_map.mp hc
      have hi := mem_range.mp hi
      have hj := mem_range.mp hj
      rw [clmapEntries] at *
      omega
    · cases hc

/-- **When the pages that are stored are the right ones**: the map is indirect or has the length of a
block, and the buffer is empty or has more places than there are valid pages. -/
theorem allocatedPages_right_iff (h : vs.WF) (hpos : 0 < clsize) :
    Right pageSize clsize capacity vs ↔ (vs.indirect = true ∨ vs.size = clmapEntries) ∧
      (capacity = 0 ∨ (validPages clsize vs).length < capacity) := by
  unfold Right
  dsimp only
  rw [inspected_lt_iff h, allocatedSize_eq capacity]
  refine and_congr_right fun hmap => ?_
  have ht := tracks_allocatedPages pageSize capacity hpos fun hind =>
    hmap.resolve_left (by rw [hind]; decide)
  rw [ht.stored, ht.numPages, ← validPages]
  refine ⟨fun hr => ?_, fun hc => ⟨rfl, ?_, Nat.mul_comm _ _⟩⟩
  · have hlen := congrArg List.length hr.2.1
    rw [length_map, length_map, length_take, length_take] at hlen
    omega
  · rcases hc with rfl | hc
    · rfl
    · rw [take_of_length_le (by omega), take_of_length_le hc.le]

/-- A cluster of one page that is valid. -/
def stored : VsMap := ⟨0, 1, false, 1, 1⟩

/-- An object with an absent block, and valid pages in the other one. -/
def sparse : Vs := ⟨128, .imap fun i => if i = 1 then some fun _ => stored else none⟩

theorem allocatedPages_right_sparse : Right 4096 1 65 sparse :=
  (allocatedPages_right_iff (show sparse.WF from rfl) (by decide)).mpr ⟨.inl rfl, .inr (by decide)⟩

/-- The one valid page is not stored in a buffer of one place. -/
theorem allocatedPages_drops_last :
    let vs : Vs := ⟨64, .dmap fun i => if i = 0 then stored else VsMap.clr⟩
    (psVstructAllocatedPages 4096 1 1 vs).stored = [] ∧ validPages 1 vs = [0] ∧
      ¬ Right 4096 1 1 vs := by
  have hpages : validPages 1 ⟨64, .dmap fun i => if i = 0 then stored else VsMap.clr⟩ = [0] := by
    decide
  have hstored : (psVstructAllocatedPages 4096 1 1
      ⟨64, .dmap fun i => if i = 0 then stored else VsMap.clr⟩).stored = [] := by decide
  refine ⟨hstored, hpages, fun hr => ?_⟩
  have hall := hr.2.2.1
  rw [hstored, hpages] at hall
  cases hall

end Osfmk.Paging.Enumerate

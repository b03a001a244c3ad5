import Osfmk.Ipc.SpaceUpdate

/-!
# Growing the table

`ipc_entry_grow_table` keeps the invariant of a space and the map it stands for.  The
growth moves into the new slots the tree entries whose index has become one of the table,
as far as they do not collide, recounts `is_tree_small` and puts the slots left over on
the free list.
-/

open Function (update update_of_ne update_self)
open List

namespace Osfmk

open BinTree

variable {T : TableSizes} {s s' : IpcSpace} {free free' : List ℕ} {name : ℕ}

/-- The capability under a name, when a slot counts only if it has a type: the reading of
a table whose new part is still zero. -/
def viewUsed (table : ℕ → IpcEntry) (L : List (ℕ × IpcEntry)) (name : ℕ) : Option Capability :=
  if (table (machPortIndex name)).ieBits.type ≠ .none ∧
      (table (machPortIndex name)).ieBits.gen = machPortGen name then
    some (table (machPortIndex name)).capability
  else (L.lookup name).bind IpcEntry.live

theorem viewUsed_congr {table table' : ℕ → IpcEntry} {L L' : List (ℕ × IpcEntry)}
    (hg : (table' (machPortIndex name)).ieBits.gen = (table (machPortIndex name)).ieBits.gen)
    (hc : (table' (machPortIndex name)).capability = (table (machPortIndex name)).capability)
    (hL : L'.lookup name = L.lookup name) : viewUsed table' L' name = viewUsed table L name := by
  have ht : (table' (machPortIndex name)).ieBits.type = (table (machPortIndex name)).ieBits.type :=
    congrArg Capability.type hc
  unfold viewUsed
  rw [hg, hc, ht, hL]

/-- **The invariant of the move loop**, over the slots from `osize` to `size`: `K` are the
entries seen and left in the tree, `R` those not seen yet. -/
structure Moving (osize size : ℕ) (s0 : IpcSpace) (B : List (ℕ × IpcEntry)) (st : IpcSpace)
    (K R : List (ℕ × IpcEntry)) : Prop where
  frame : st = { s0 with
    isTable := st.isTable, isTreeTotal := st.isTreeTotal, isTreeHash := st.isTreeHash }
  low : ∀ i, i < osize → st.isTable i = s0.isTable i
  slot : ∀ i, osize ≤ i → i < size → (st.isTable i = .zero ∧ ∀ p ∈ K, machPortIndex p.1 ≠ i) ∨
      ((st.isTable i).ieBits.type ≠ .none ∧ (st.isTable i).ieBits.gen < 256 ∧
        ((st.isTable i).ieBits.collision = true ↔ ∃ p ∈ K, machPortIndex p.1 = i) ∧
        ∀ p ∈ K ++ R, machPortIndex p.1 = i → (st.isTable i).ieBits.gen ≠ machPortGen p.1)
  view : ∀ n, osize ≤ machPortIndex n → machPortIndex n < size →
    viewUsed st.isTable (K ++ R) n = (B.lookup n).bind IpcEntry.live
  total : st.isTreeTotal + B.length = s0.isTreeTotal + (K ++ R).length
  hash : st.isTreeHash + sendCount B = s0.isTreeHash + sendCount (K ++ R)

theorem lookup_middle {α : Type*} {K R : List (ℕ × α)} {p : ℕ × α} {n : ℕ} (hn : n ≠ p.1) :
    (K ++ p :: R).lookup n = (K ++ R).lookup n := by
  have hb : (n == p.1) = false := by simpa using hn
  rw [lookup_append, lookup_append, lookup_cons, hb]

theorem sendCount_middle (K R : List (ℕ × IpcEntry)) (p : ℕ × IpcEntry) :
    sendCount (K ++ p :: R) = sendCount (K ++ R) + if p.2.ieBits.type = .send then 1 else 0 :=
  sendCount_perm perm_middle

theorem moving_step {osize size : ℕ} {s0 st : IpcSpace} {B K R : List (ℕ × IpcEntry)}
    {p : ℕ × IpcEntry} (h : Moving osize size s0 B st K (p :: R))
    (hsorted : KeysSorted (K ++ p :: R)) (hlo : osize ≤ machPortIndex p.1)
    (hhi : machPortIndex p.1 < size)
    (hplain : p.2.ieBits.gen = 0 ∧ p.2.ieBits.collision = false)
    (htype : p.2.ieBits.type ≠ .none)
    (htot : B.length ≤ s0.isTreeTotal) (hhash : sendCount B ≤ s0.isTreeHash) :
    Moving osize size s0 B (growMove st p.1 p.2).1
      (K ++ if (growMove st p.1 p.2).2 then [] else [p]) R := by
  set i := machPortIndex p.1 with hi
  -- the names after and before `p` are not `p`
  have hdist : ∀ q ∈ K ++ R, q.1 ≠ p.1 := by
    intro q hq
    rw [KeysSorted.append_iff, KeysSorted.cons_iff] at hsorted
    rcases mem_append.mp hq with hq | hq
    · exact ne_of_lt (hsorted.2.2 q hq p mem_cons_self)
    · exact ne_of_gt (hsorted.2.1.1 q hq)
  unfold growMove
  by_cases hz : (st.isTable i).ieBits = .zero
  · -- the slot is new: the entry moves into it
    rw [if_neg (not_not.mpr hz)]
    have hzero : st.isTable i = .zero ∧ ∀ q ∈ K, machPortIndex q.1 ≠ i := by
      rcases h.slot i hlo hhi with hc | hc
      · exact hc
      · exact absurd (by rw [hz]; rfl) hc.1
    have hor : p.2.ieBits.orGen p.1 =
        ⟨machPortGen p.1, false, p.2.ieBits.type, p.2.ieBits.urefs⟩ := by
      rw [IeBits.orGen, hplain.1, hplain.2, Nat.zero_or]
    set enew : IpcEntry := ⟨p.2.ieBits.orGen p.1, p.2.ieObject, p.2.ieRequest⟩ with henew
    have hstate : ∀ b : Bool, (({ (if p.2.ieBits.type = .send then
          (st.setSlot i enew).hashGlobalDelete else st.setSlot i enew) with
        isTreeTotal := (if p.2.ieBits.type = .send then
          (st.setSlot i enew).hashGlobalDelete else st.setSlot i enew).isTreeTotal - 1 } : IpcSpace), b) =
        (({ st with
          isTable := update st.isTable i enew
          isTreeTotal := st.isTreeTotal - 1
          isTreeHash := st.isTreeHash - if p.2.ieBits.type = .send then 1 else 0 } : IpcSpace), b) := by
      intro b
      by_cases hsend : p.2.ieBits.type = .send
      · simp only [if_pos hsend]; rfl
      · simp only [if_neg hsend]; rfl
    rw [hstate]
    generalize hh : st.isTreeHash - (if p.2.ieBits.type = .send then 1 else 0) = h'
    simp only [if_true, append_nil]
    have hself : update st.isTable i enew i = enew := update_self ..
    have hother : ∀ j, j ≠ i → update st.isTable i enew j = st.isTable j := fun j hj =>
      update_of_ne hj _ _
    refine ⟨?_, ?_, ?_, ?_, ?_, ?_⟩
    · have := h.frame
      rw [this]
    · intro j hj
      dsimp only
      rw [hother j (by omega)]
      exact h.low j hj
    · intro j hj1 hj2
      dsimp only
      by_cases hji : j = i
      · right
        rw [hji, hself, henew, hor]
        refine ⟨htype, machPortGen_lt _, ?_, ?_⟩
        · constructor
          · intro hc; cases hc
          · rintro ⟨q, hq, hqi⟩; exact absurd hqi (hzero.2 q hq)
        · intro q hq hqi hg
          exact hdist q hq (name_ext (hqi.trans hi) hg.symm)
      rw [hother j hji]
      rcases h.slot j hj1 hj2 with hc | hc
      · exact Or.inl hc
      · refine Or.inr ⟨hc.1, hc.2.1, hc.2.2.1, fun q hq => hc.2.2.2 q ?_⟩
        rw [mem_append] at hq ⊢
        exact hq.imp_right (mem_cons_of_mem _)
    · intro n hn1 hn2
      rw [← h.view n hn1 hn2]
      by_cases hni : machPortIndex n = i
      · have hold : viewUsed st.isTable (K ++ p :: R) n =
            ((K ++ p :: R).lookup n).bind IpcEntry.live := by
          refine if_neg ?_
          rw [hni, hzero.1]
          exact fun hc => hc.1 rfl
        have hnew : update st.isTable i enew (machPortIndex n) = enew := by
          rw [hni]; exact hself
        rw [hold]
        unfold viewUsed
        simp only [hnew]
        by_cases hnp : n = p.1
        · rw [if_pos ⟨by rw [henew, hor]; exact htype, by rw [henew, hor, hnp]⟩, hnp,
            hsorted.lookup_eq_some_iff.mpr (by simp : (p.1, p.2) ∈ K ++ p :: R)]
          rw [Option.bind_some, IpcEntry.live, if_neg htype, henew, hor]
          rfl
        · rw [if_neg fun hc => hnp (name_ext (hni.trans hi) (by
            have := hc.2; rw [henew, hor] at this; exact this.symm)), lookup_middle hnp]
      · have hsame := hother _ hni
        exact viewUsed_congr (congrArg (·.ieBits.gen) hsame) (congrArg IpcEntry.capability hsame)
          (lookup_middle fun hc => hni (by rw [hc])).symm
    · have := h.total
      simp only [length_append, length_cons] at this ⊢
      omega
    · have h1 := h.hash
      rw [sendCount_middle] at h1
      dsimp only
      split at hh <;> rename_i hsend
      · rw [if_pos hsend] at h1; omega
      · rw [if_neg hsend] at h1; omega
  · -- the slot was filled by an earlier entry
    rw [if_pos hz]
    have hused : (st.isTable i).ieBits.type ≠ .none ∧ (st.isTable i).ieBits.gen < 256 ∧
        ((st.isTable i).ieBits.collision = true ↔ ∃ q ∈ K, machPortIndex q.1 = i) ∧
        ∀ q ∈ K ++ p :: R, machPortIndex q.1 = i → (st.isTable i).ieBits.gen ≠ machPortGen q.1 := by
      rcases h.slot i hlo hhi with hc | hc
      · exact absurd (by rw [hc.1]; rfl) hz
      · exact hc
    simp only [Bool.false_eq_true, if_false]
    have hassoc : K ++ [p] ++ R = K ++ p :: R := by simp
    set enew : IpcEntry :=
      { st.isTable i with ieBits := (st.isTable i).ieBits.setCollision } with henew
    have hself : update st.isTable i enew i = enew := update_self ..
    have hother : ∀ j, j ≠ i → update st.isTable i enew j = st.isTable j := fun j hj =>
      update_of_ne hj _ _
    have hK : ∀ j, j ≠ i → ((∃ q ∈ K ++ [p], machPortIndex q.1 = j) ↔
        ∃ q ∈ K, machPortIndex q.1 = j) := by
      intro j hji
      constructor
      · rintro ⟨q, hq, rfl⟩
        rcases mem_append.mp hq with hq | hq
        · exact ⟨q, hq, rfl⟩
        · exact absurd (by rw [mem_singleton.mp hq]) hji
      · rintro ⟨q, hq, rfl⟩
        exact ⟨q, mem_append_left _ hq, rfl⟩
    refine ⟨?_, ?_, ?_, ?_, ?_, ?_⟩
    · have := h.frame
      rw [IpcSpace.setBits, IpcSpace.setSlot, this]
    · intro j hj
      exact (hother j (by omega)).trans (h.low j hj)
    · intro j hj1 hj2
      rw [hassoc]
      change (update st.isTable i enew j = _ ∧ _) ∨ _
      rw [show (st.setBits i (st.isTable i).ieBits.setCollision).isTable j =
        update st.isTable i enew j from rfl]
      by_cases hji : j = i
      · right
        rw [hji, hself]
        exact ⟨hused.1, hused.2.1, ⟨fun _ => ⟨p, by simp, rfl⟩, fun _ => rfl⟩, hused.2.2.2⟩
      rw [hother j hji]
      rcases h.slot j hj1 hj2 with hc | hc
      · refine .inl ⟨hc.1, fun q hq hqj => ?_⟩
        obtain ⟨q', hq', hqj'⟩ := (hK j hji).mp ⟨q, hq, hqj⟩
        exact hc.2 q' hq' hqj'
      · exact .inr ⟨hc.1, hc.2.1, hc.2.2.1.trans (hK j hji).symm, hc.2.2.2⟩
    · intro n hn1 hn2
      rw [hassoc, ← h.view n hn1 hn2]
      by_cases hni : machPortIndex n = i
      · have hnew : (st.setBits i (st.isTable i).ieBits.setCollision).isTable (machPortIndex n) =
            enew := by rw [hni]; exact hself
        have hold : st.isTable i = st.isTable (machPortIndex n) := by rw [hni]
        have hcap : enew.capability = (st.isTable i).capability := rfl
        exact viewUsed_congr ((congrArg (·.ieBits.gen) hnew).trans (congrArg (·.ieBits.gen) hold))
          ((congrArg IpcEntry.capability hnew).trans
            (hcap.trans (congrArg IpcEntry.capability hold))) rfl
      · have hsame := hother _ hni
        exact viewUsed_congr (congrArg (·.ieBits.gen) hsame) (congrArg IpcEntry.capability hsame) rfl
    · rw [hassoc]; exact h.total
    · rw [hassoc]; exact h.hash

/-- **The whole loop.** -/
theorem moving_loop {osize size : ℕ} {s0 st : IpcSpace} {B K R : List (ℕ × IpcEntry)}
    (h : Moving osize size s0 B st K R) (hsorted : KeysSorted (K ++ R))
    (hR : ∀ p ∈ R, osize ≤ machPortIndex p.1 ∧ machPortIndex p.1 < size ∧
      (p.2.ieBits.gen = 0 ∧ p.2.ieBits.collision = false) ∧ p.2.ieBits.type ≠ .none)
    (htot : B.length ≤ s0.isTreeTotal) (hhash : sendCount B ≤ s0.isTreeHash) :
    Moving osize size s0 B (visitList growMove st R).1 (K ++ (visitList growMove st R).2) [] := by
  induction R generalizing st K with
  | nil => simpa [visitList] using h
  | cons p R ih =>
    obtain ⟨hlo, hhi, hplain, htype⟩ := hR p mem_cons_self
    have hstep := moving_step h hsorted hlo hhi hplain htype htot hhash
    have hsub : ((K ++ if (growMove st p.1 p.2).2 then [] else [p]) ++ R).Sublist
        (K ++ p :: R) := by
      split <;> simp
    have := ih hstep (hsorted.sublist hsub) fun q hq => hR q (mem_cons_of_mem _ hq)
    rw [append_assoc] at this
    exact this

theorem visitList_growCount_snd (st : ℕ × ℕ) (C : List (ℕ × IpcEntry)) :
    (visitList growCount st C).2 = C := by
  induction C generalizing st with
  | nil => rfl
  | cons p C ih =>
    rw [visitList, ih]
    rfl

/-- **The count is the number of different indexes**: equal indexes are neighbours. -/
theorem visitList_growCount_fst (c j : ℕ) {C : List (ℕ × IpcEntry)} (hs : KeysSorted C)
    (hj : ∀ p ∈ C, j ≤ machPortIndex p.1) :
    (visitList growCount (c, j) C).1.1 =
      c + ((C.map fun p => machPortIndex p.1).toFinset.erase j).card := by
  induction C generalizing c j with
  | nil => simp [visitList]
  | cons p C ih =>
    rw [KeysSorted.cons_iff] at hs
    have hmono : ∀ q ∈ C, machPortIndex p.1 ≤ machPortIndex q.1 := fun q hq =>
      Nat.div_le_div_right (hs.1 q hq).le
    rw [visitList]
    by_cases hp : machPortIndex p.1 = j
    · -- the index just counted
      have hst : (growCount (c, j) p.1 p.2).1 = (c, j) := if_neg (not_not.mpr hp)
      rw [hst, ih c j hs.2 fun q hq => hp ▸ hmono q hq, map_cons, toFinset_cons, hp]
      simp
    have hst : (growCount (c, j) p.1 p.2).1 = (c + 1, machPortIndex p.1) := if_pos hp
    rw [hst, ih (c + 1) _ hs.2 hmono, map_cons, toFinset_cons]
    -- the last index seen is below all that follow
    have hjlt : j < machPortIndex p.1 := lt_of_le_of_ne (hj p mem_cons_self) (Ne.symm hp)
    have hnot : j ∉ insert (machPortIndex p.1) (C.map fun p => machPortIndex p.1).toFinset := by
      rw [Finset.mem_insert, mem_toFinset, mem_map, not_or]
      refine ⟨Ne.symm hp, ?_⟩
      rintro ⟨q, hq, hqj⟩
      have := hmono q hq
      omega
    rw [Finset.erase_eq_of_notMem hnot, ← Finset.insert_erase (s := insert _ _)
      (Finset.mem_insert_self (machPortIndex p.1) _), Finset.erase_insert_eq_erase,
      Finset.card_insert_of_notMem (Finset.notMem_erase _ _)]
    omega

/-- What the transfer of tree entries leaves. -/
structure TreeGrown (osize size nsize : ℕ) (s st : IpcSpace) : Prop where
  active : st.isActive = s.isActive
  isTableSize : st.isTableSize = s.isTableSize
  isTableNext : st.isTableNext = s.isTableNext
  wf : st.isTree.Wf
  sub : ∀ p ∈ st.isTree.toList, p ∈ s.isTree.toList
  outside : ∀ p ∈ s.isTree.toList, ¬ (osize ≤ machPortIndex p.1 ∧ machPortIndex p.1 < size) →
    p ∈ st.isTree.toList
  low : ∀ i, i < osize → st.isTable i = s.isTable i
  slot : ∀ i, osize ≤ i → i < size →
    (st.isTable i = .zero ∧ ∀ p ∈ st.isTree.toList, machPortIndex p.1 ≠ i) ∨
      ((st.isTable i).ieBits.type ≠ .none ∧ (st.isTable i).ieBits.gen < 256 ∧
        ((st.isTable i).ieBits.collision = true ↔ ∃ p ∈ st.isTree.toList, machPortIndex p.1 = i) ∧
        ∀ p ∈ st.isTree.toList, machPortIndex p.1 = i → (st.isTable i).ieBits.gen ≠ machPortGen p.1)
  view : ∀ n, osize ≤ machPortIndex n → machPortIndex n < size →
    viewUsed st.isTable st.isTree.toList n = (s.isTree.toList.lookup n).bind IpcEntry.live
  total : st.isTreeTotal = st.isTree.toList.length
  small : st.isTreeSmall = (smallIndexes st.isTree.toList size nsize).card
  hash : st.isTreeHash = sendCount st.isTree.toList

/-- The hypotheses of a growth: a space whose table has been extended by zeros. -/
structure Extended (osize size nsize : ℕ) (s : IpcSpace) : Prop where
  osize_pos : 0 < osize
  lt : osize < size
  le : size ≤ nsize
  bound : nsize < 2 ^ 24
  wf : s.isTree.Wf
  plain : ∀ p ∈ s.isTree.toList, p.2.ieBits.gen = 0 ∧ p.2.ieBits.collision = false
  typed : ∀ p ∈ s.isTree.toList, p.2.ieBits.type ≠ .none
  zero : ∀ i, osize ≤ i → i < size → s.isTable i = .zero
  total : s.isTreeTotal = s.isTree.toList.length
  hash : s.isTreeHash = sendCount s.isTree.toList

theorem treeGrown_empty {osize size nsize : ℕ} (h : Extended osize size nsize s)
    (h0 : s.isTreeTotal = 0) (hsmall : s.isTreeSmall = 0) :
    TreeGrown osize size nsize s s := by
  have hnil : s.isTree.toList = [] := length_eq_zero_iff.mp (h.total ▸ h0)
  refine ⟨rfl, rfl, rfl, h.wf, fun p hp => hp, fun p hp _ => hp, fun _ _ => rfl, ?_, ?_, h.total,
    ?_, h.hash⟩
  · intro i h1 h2
    exact .inl ⟨h.zero i h1 h2, by simp [hnil]⟩
  · intro n h1 h2
    rw [viewUsed, if_neg]
    rw [h.zero _ h1 h2]
    exact fun hc => hc.1 rfl
  · rw [hnil, hsmall]
    rfl

/-- **The transfer of tree entries**: the tree is cut into four regions by index, and put
together again without the entries that moved. -/
theorem treeGrown {osize size nsize : ℕ} (h : Extended osize size nsize s)
    (h0 : 0 < s.isTreeTotal) : TreeGrown osize size nsize s (growTree s osize size nsize) := by
  obtain ⟨hpos, hlt, hle, hbd, hwf, hplain, htyped, hzero, htotal, hhash⟩ := h
  obtain ⟨hu, hl, hwu, hwl⟩ := split_index hwf hbd
  obtain ⟨hc, hm, hwc, hwm⟩ := split_index hwl (i := size) (by omega)
  obtain ⟨hb, ha, hwb, hwa⟩ := split_index hwm (i := osize) (by omega)
  unfold growTree
  rw [if_pos h0]
  dsimp only
  set upper := ipcSplayTreeSplit s.isTree (machPortMake nsize 0) with hupper
  set small := ipcSplayTreeSplit upper.2 (machPortMake size 0) with hsmall
  set move := ipcSplayTreeSplit small.2 (machPortMake osize 0) with hmove
  -- membership in the four regions
  have hB : ∀ p, p ∈ move.1.toList ↔ p ∈ s.isTree.toList ∧ osize ≤ machPortIndex p.1 ∧
      machPortIndex p.1 < size := by
    intro p
    rw [hb, hm, hl]
    exact ⟨fun h => ⟨h.1.1.1, h.2, h.1.2⟩, fun h => ⟨⟨⟨h.1, by omega⟩, h.2.2⟩, h.2.1⟩⟩
  have hA : ∀ p, p ∈ move.2.toList ↔ p ∈ s.isTree.toList ∧ machPortIndex p.1 < osize := by
    intro p
    rw [ha, hm, hl]
    exact ⟨fun h => ⟨h.1.1.1, h.2⟩, fun h => ⟨⟨⟨h.1, by omega⟩, by omega⟩, h.2⟩⟩
  have hC : ∀ p, p ∈ small.1.toList ↔ p ∈ s.isTree.toList ∧ size ≤ machPortIndex p.1 ∧
      machPortIndex p.1 < nsize := by
    intro p
    rw [hc, hl]
    exact ⟨fun h => ⟨h.1.1, h.2, h.1.2⟩, fun h => ⟨⟨h.1, h.2.2⟩, h.2.1⟩⟩
  have hpermB : s.isTree.toList.Perm (move.1.toList ++ s.isTree.toList.filter
      fun p => ! decide (osize ≤ machPortIndex p.1 ∧ machPortIndex p.1 < size)) := by
    have hBf : move.1.toList = s.isTree.toList.filter
        fun p => decide (osize ≤ machPortIndex p.1 ∧ machPortIndex p.1 < size) :=
      KeysSorted.ext hwb.sorted (hwf.sorted.filter _) fun p => by
        rw [hB, mem_filter, decide_eq_true_eq]
    rw [hBf]
    exact (filter_append_perm _ _).symm
  -- the two loops
  obtain ⟨hv1, hv2⟩ := traverse_spec hwb growMove s
  have hwk := wf_traverse hwb growMove s
  obtain ⟨hn1, hn2⟩ := traverse_spec hwc growCount (0, 0)
  have hwn := wf_traverse hwc growCount (0, 0)
  rw [visitList_growCount_snd] at hn2
  have hlenB : move.1.toList.length ≤ s.isTreeTotal := by
    rw [htotal, hpermB.length_eq]; simp
  have hsendB : sendCount move.1.toList ≤ s.isTreeHash := by
    rw [hhash, sendCount, sendCount, hpermB.countP_eq, countP_append]
    exact Nat.le_add_right _ _
  have hstart : Moving osize size s move.1.toList s [] move.1.toList := by
    refine ⟨rfl, fun _ _ => rfl, fun i h1 h2 => Or.inl ⟨hzero i h1 h2, by simp⟩, ?_, by simp,
      by simp⟩
    intro n h1 h2
    rw [viewUsed, if_neg, nil_append]
    rw [hzero _ h1 h2]
    exact fun hc => hc.1 rfl
  have hloop := moving_loop hstart hwb.sorted (fun p hp => by
    obtain ⟨hp, h1, h2⟩ := (hB p).mp hp
    exact ⟨h1, h2, hplain p hp, htyped p hp⟩) hlenB hsendB
  rw [← hv1, nil_append, ← hv2] at hloop
  set moved := ipcSplayTraverse growMove s move.1 with hmoved
  set counted := ipcSplayTraverse growCount (0, 0) small.1 with hcounted
  have hKsub : moved.2.toList.Sublist move.1.toList := by
    rw [hv2]; exact visitList_sublist _ _ _
  have hK : ∀ p ∈ moved.2.toList, p ∈ s.isTree.toList ∧ osize ≤ machPortIndex p.1 ∧
      machPortIndex p.1 < size := fun p hp => (hB p).mp (hKsub.subset hp)
  -- the joins
  obtain ⟨hj1, hwj1⟩ := IpcSplayTree.join_spec hwu hwn fun p hp q hq => by
    rw [hn2, hC] at hp
    rw [hu] at hq
    exact lt_of_index_lt (by omega)
  obtain ⟨hj2, hwj2⟩ := IpcSplayTree.join_spec hwj1 hwk fun p hp q hq => by
    have hp := hK p hp
    rw [hj1, mem_append, hn2, hC, hu] at hq
    exact lt_of_index_lt (by omega)
  obtain ⟨hj3, hwj3⟩ := IpcSplayTree.join_spec hwj2 hwa fun p hp q hq => by
    rw [hA] at hp
    rw [hj2, mem_append, hj1, mem_append, hn2, hC, hu] at hq
    rcases hq with hq | hq
    · have := hK q hq
      exact lt_of_index_lt (by omega)
    · exact lt_of_index_lt (by omega)
  set tree := ipcSplayTreeJoin (ipcSplayTreeJoin (ipcSplayTreeJoin upper.1 counted.2) moved.2)
    move.2 with htree
  have hmem : ∀ p, p ∈ tree.toList ↔ (p ∈ s.isTree.toList ∧
      ¬ (osize ≤ machPortIndex p.1 ∧ machPortIndex p.1 < size)) ∨ p ∈ moved.2.toList := by
    intro p
    rw [hj3, hj2, hj1, mem_append, mem_append, mem_append, hA, hn2, hC, hu]
    constructor
    · rintro (⟨h1, h2⟩ | h1 | ⟨h1, h2⟩ | ⟨h1, h2⟩)
      · exact Or.inl ⟨h1, by omega⟩
      · exact Or.inr h1
      · exact Or.inl ⟨h1, by omega⟩
      · exact Or.inl ⟨h1, by omega⟩
    · rintro (⟨h1, h2⟩ | h1)
      · rcases Nat.lt_or_ge (machPortIndex p.1) osize with h3 | h3
        · exact Or.inl ⟨h1, h3⟩
        · have hs2 : size ≤ machPortIndex p.1 := by
            by_contra hc; exact h2 ⟨h3, by omega⟩
          rcases Nat.lt_or_ge (machPortIndex p.1) nsize with h4 | h4
          · exact Or.inr (Or.inr (Or.inl ⟨h1, hs2, h4⟩))
          · exact Or.inr (Or.inr (Or.inr ⟨h1, h4⟩))
      · exact Or.inr (Or.inl h1)
  have hindex : ∀ i, osize ≤ i → i < size → ∀ p, (p ∈ tree.toList ∧ machPortIndex p.1 = i) ↔
      (p ∈ moved.2.toList ∧ machPortIndex p.1 = i) := by
    intro i h1 h2 p
    rw [hmem]
    constructor
    · rintro ⟨⟨-, hn⟩ | hp, rfl⟩
      · exact absurd ⟨h1, h2⟩ hn
      · exact ⟨hp, rfl⟩
    · rintro ⟨hp, rfl⟩; exact ⟨Or.inr hp, rfl⟩
  have hpermT : tree.toList.Perm (moved.2.toList ++ s.isTree.toList.filter
      fun p => ! decide (osize ≤ machPortIndex p.1 ∧ machPortIndex p.1 < size)) := by
    refine (perm_ext_iff_of_nodup (hwj3.sorted.keys_nodup.of_map _) ?_).mpr fun p => ?_
    · refine List.Nodup.append (hwk.sorted.keys_nodup.of_map _)
        ((hwf.sorted.keys_nodup.of_map _).filter _) fun p hp hq => ?_
      have := (hK p hp).2
      simp [this] at hq
    · rw [hmem, mem_append, mem_filter]
      simp only [Bool.not_eq_true', decide_eq_false_iff_not]
      exact or_comm
  have hframe := hloop.frame
  refine ⟨?_, ?_, ?_, hwj3, ?_, ?_, hloop.low, ?_, ?_, ?_, ?_, ?_⟩
  · dsimp only; rw [hframe]
  · dsimp only; rw [hframe]
  · dsimp only; rw [hframe]
  · intro p hp
    rcases (hmem p).mp hp with h | h
    · exact h.1
    · exact (hK p h).1
  · exact fun p hp hn => (hmem p).mpr (Or.inl ⟨hp, hn⟩)
  · intro i h1 h2
    rcases hloop.slot i h1 h2 with hz | hz
    · exact Or.inl ⟨hz.1, fun p hp hpi => hz.2 p ((hindex i h1 h2 p).mp ⟨hp, hpi⟩).1 hpi⟩
    refine Or.inr ⟨hz.1, hz.2.1, hz.2.2.1.trans ?_, fun p hp hpi => hz.2.2.2 p ?_ hpi⟩
    · exact exists_congr fun p => (hindex i h1 h2 p).symm
    · rw [append_nil]
      exact ((hindex i h1 h2 p).mp ⟨hp, hpi⟩).1
  · intro n h1 h2
    have hv := hloop.view n h1 h2
    rw [append_nil] at hv
    have hlk : tree.toList.lookup n = moved.2.toList.lookup n :=
      KeysSorted.lookup_congr hwj3.sorted hwk.sorted fun a => by
        have := hindex _ h1 h2 (n, a)
        simpa using this
    have hlb : move.1.toList.lookup n = s.isTree.toList.lookup n :=
      KeysSorted.lookup_congr hwb.sorted hwf.sorted fun a => by
        rw [hB]; simp [h1, h2]
    rw [← hlb, ← hv]
    exact viewUsed_congr rfl rfl hlk
  · have h1 := hloop.total
    rw [append_nil] at h1
    have h2 := hpermT.length_eq
    have h3 := hpermB.length_eq
    rw [length_append] at h2 h3
    dsimp only
    omega
  · dsimp only
    have hpos' : ∀ p ∈ small.1.toList, 0 ≤ machPortIndex p.1 := fun _ _ => Nat.zero_le _
    rw [hn1, visitList_growCount_fst 0 0 hwc.sorted hpos', Nat.zero_add]
    congr 1
    ext i
    rw [mem_smallIndexes, Finset.mem_erase, mem_toFinset, mem_map]
    constructor
    · rintro ⟨-, p, hp, rfl⟩
      obtain ⟨hp, h1, h2⟩ := (hC p).mp hp
      exact ⟨⟨p, (hmem p).mpr (Or.inl ⟨hp, by omega⟩), rfl⟩, h1, h2⟩
    · rintro ⟨⟨p, hp, rfl⟩, h1, h2⟩
      refine ⟨by omega, p, (hC p).mpr ⟨?_, h1, h2⟩, rfl⟩
      rcases (hmem p).mp hp with h | h
      · exact h.1
      · exact (hK p h).1
  · have h1 := hloop.hash
    rw [append_nil] at h1
    have h2 := hpermT.countP_eq (fun p => decide (p.2.ieBits.type = .send))
    have h3 := hpermB.countP_eq (fun p => decide (p.2.ieBits.type = .send))
    rw [countP_append] at h2 h3
    dsimp only
    unfold sendCount at h1 hhash ⊢
    omega

/-- **The loop over the new slots** puts those without an entry in front of the free list,
in order. -/
theorem growFree_spec (table : ℕ → IpcEntry) {head : ℕ} {free : List ℕ} (is : List ℕ)
    (hnd : is.Nodup)
    (hpos : ∀ i ∈ is, 0 < i) (hdisj : ∀ i ∈ is, i ∉ free) (h0 : 0 ∉ free)
    (hchain : LinkedChain (update (fun i => (table i).ieNext) 0 head) 0 0 free) :
    LinkedChain (update (fun i => ((growFree is table head).1 i).ieNext) 0
        (growFree is table head).2) 0 0
        (is.filter (fun i => decide ((table i).ieBits = .zero)) ++ free) ∧
      (∀ j, ¬ (j ∈ is ∧ (table j).ieBits = .zero) → (growFree is table head).1 j = table j) ∧
      ∀ j, j ∈ is → (table j).ieBits = .zero →
        ∃ next, (growFree is table head).1 j = ⟨.genMask, (table j).ieObject, next⟩ := by
  induction is with
  | nil => exact ⟨hchain, fun _ _ => rfl, by simp⟩
  | cons i is ih =>
    rw [List.nodup_cons] at hnd
    obtain ⟨hc, hsame, hset⟩ := ih hnd.2 (fun j hj => hpos j (mem_cons_of_mem _ hj))
      fun j hj => hdisj j (mem_cons_of_mem _ hj)
    have hi0 : i ≠ 0 := Nat.pos_iff_ne_zero.mp (hpos i mem_cons_self)
    have hti : (growFree is table head).1 i = table i := hsame i fun h => hnd.1 h.1
    have hunfold : growFree (i :: is) table head =
        if ((growFree is table head).1 i).ieBits = .zero then
          (update (growFree is table head).1 i
            { (growFree is table head).1 i with
              ieBits := .genMask, ieRequest := (growFree is table head).2 }, i)
        else growFree is table head := rfl
    generalize growFree is table head = res at *
    obtain ⟨t, h⟩ := res
    dsimp only at hc hsame hset hti hunfold
    rw [hunfold]
    by_cases hz : (table i).ieBits = .zero
    · have hzt : (t i).ieBits = .zero := by rw [hti]; exact hz
      rw [if_pos hzt, filter_cons, if_pos (by simpa using hz), cons_append]
      have hnot : i ∉ is.filter (fun i => decide ((table i).ieBits = .zero)) ++ free := by
        rw [mem_append, mem_filter, not_or]
        exact ⟨fun hc => hnd.1 hc.1, hdisj i mem_cons_self⟩
      have hnot0 : 0 ∉ is.filter (fun i => decide ((table i).ieBits = .zero)) ++ free := by
        rw [mem_append, mem_filter, not_or]
        exact ⟨fun hc => absurd (hpos 0 (mem_cons_of_mem _ hc.1)) (lt_irrefl 0), h0⟩
      refine ⟨?_, ?_, ?_⟩
      · refine (hc.push hi0 hnot hnot0).congr fun x _ => ?_
        dsimp only
        by_cases hx0 : x = 0
        · rw [hx0, update_self, update_self]
        rw [update_of_ne hx0, update_of_ne hx0]
        by_cases hxi : x = i
        · rw [hxi, update_self, update_self, update_self]
          rfl
        · rw [update_of_ne hxi, update_of_ne hxi, update_of_ne hx0]
      · intro j hj
        have hji : j ≠ i := fun h => hj ⟨by rw [h]; exact mem_cons_self, by rw [h]; exact hz⟩
        dsimp only
        rw [update_of_ne hji]
        exact hsame j fun h => hj ⟨mem_cons_of_mem _ h.1, h.2⟩
      · intro j hj hjz
        dsimp only
        by_cases hji : j = i
        · rw [hji, update_self, hti]; exact ⟨_, rfl⟩
        · rw [update_of_ne hji]
          exact hset j ((mem_cons.mp hj).resolve_left hji) hjz
    · have hzt : ¬ (t i).ieBits = .zero := by rw [hti]; exact hz
      rw [if_neg hzt, filter_cons, if_neg (by simpa using hz)]
      refine ⟨hc, fun j hj => hsame j fun h => hj ⟨mem_cons_of_mem _ h.1, h.2⟩,
        fun j hj hjz => hset j ?_ hjz⟩
      rcases mem_cons.mp hj with rfl | hj
      · exact absurd hjz hz
      · exact hj

/-- **One growth of the table** keeps the invariant and the map. -/
theorem growTo_spec (hs : Rep T s free) (ht : s.TypedBut free []) {its : ℕ}
    (hits : s.isTableNext ≤ its) (hlast : its < T.last) :
    ∃ free', Rep T (growTo T s its) free' ∧ (growTo T s its).TypedBut free' [] ∧
      (growTo T s its).view = s.view ∧ (growTo T s its).isActive = s.isActive ∧
      (growTo T s its).isTableNext = its + 1 := by
  have hnp := hs.next_pos
  have hosz := hs.size_eq
  have hlt : T.itsSize (s.isTableNext - 1) < T.itsSize its := T.lt_of_lt (by omega) hlast
  have hle : T.itsSize its ≤ T.itsSize (its + 1) :=
    T.itsSize_pred_le (i := its + 1) (by omega) (by omega)
  have hbd : T.itsSize (its + 1) < 2 ^ 24 := T.itsSize_lt (by omega)
  unfold growTo
  dsimp only
  rw [← hosz] at hlt ⊢
  generalize hsize : T.itsSize its = size at *
  generalize hnsize : T.itsSize (its + 1) = nsize at *
  set osize := s.isTableSize with hosize
  set s1 : IpcSpace := { s with
    isTable := fun i => if i < osize then s.isTable i else .zero
    isTableSize := size
    isTableNext := its + 1 } with hs1
  have hlow1 : ∀ i, i < osize → s1.isTable i = s.isTable i := fun i hi => if_pos hi
  have hext : Extended osize size nsize s1 := ⟨hs.slots.size_pos, hlt, hle, hbd, hs.wf,
    hs.nodes.plain, fun p hp => ht.node p hp (by simp), fun i h1 _ => if_neg (by omega), hs.total,
    hs.hash⟩
  have hgrown : TreeGrown osize size nsize s1 (growTree s1 osize size nsize) := by
    rcases Nat.eq_zero_or_pos s1.isTreeTotal with h0 | h0
    · have hnil : s.isTree.toList = [] := length_eq_zero_iff.mp (hs.total ▸ h0)
      rw [growTree, if_neg (by omega)]
      refine treeGrown_empty hext h0 ?_
      have := hs.small
      rw [hnil] at this
      exact this
    · exact treeGrown hext h0
  generalize growTree s1 osize size nsize = st at *
  have hlow : ∀ i, i < osize → st.isTable i = s.isTable i := fun i hi =>
    (hgrown.low i hi).trans (hlow1 i hi)
  have hfree_lt : ∀ i ∈ 0 :: free, i < osize := by
    intro i hi
    rcases mem_cons.mp hi with rfl | hi
    · exact hs.slots.size_pos
    · exact (hs.slots.range i hi).2
  set is := List.range' osize (size - osize) with his
  have hismem : ∀ i, i ∈ is ↔ osize ≤ i ∧ i < size := by
    intro i
    rw [his, mem_range'_1]
    omega
  have hchain0 : LinkedChain (update (fun i => (st.isTable i).ieNext) 0
      (st.isTable 0).ieNext) 0 0 free := by
    refine hs.slots.chain.congr fun x hx => ?_
    rw [Function.update_eq_self, hlow x (hfree_lt x hx)]
  obtain ⟨hchain, hsame, hset⟩ := growFree_spec st.isTable is
    nodup_range' (fun i hi => by have := (hismem i).mp hi; have := hs.slots.size_pos; omega)
    (fun i hi hf => by
      have h1 := (hismem i).mp hi
      have h2 := hfree_lt i (mem_cons_of_mem _ hf)
      omega) hs.slots.head_not_mem hchain0
  generalize growFree is st.isTable (st.isTable 0).ieNext = freed at *
  obtain ⟨tf, hd⟩ := freed
  dsimp only at hchain hsame hset
  set Z := is.filter fun i => decide ((st.isTable i).ieBits = .zero) with hZ
  have hZmem : ∀ i, i ∈ Z ↔ (osize ≤ i ∧ i < size) ∧ (st.isTable i).ieBits = .zero := by
    intro i
    rw [hZ, mem_filter, hismem, decide_eq_true_eq]
  -- the final table
  set table : ℕ → IpcEntry := update tf 0 { tf 0 with ieRequest := hd } with htable
  have hstate : ({ st with isTable := tf } : IpcSpace).setNext 0 hd = { st with isTable := table } :=
    rfl
  have htf0 : tf 0 = s.isTable 0 := by
    rw [hsame 0 fun h => absurd ((hismem 0).mp h.1).1 (by have := hs.slots.size_pos; omega)]
    exact hlow 0 hs.slots.size_pos
  have htab0 : table 0 = { s.isTable 0 with ieRequest := hd } := by
    rw [htable, update_self, htf0]
  have htablow : ∀ i, i < osize → i ≠ 0 → table i = s.isTable i := by
    intro i hi hi0
    rw [htable, update_of_ne hi0, hsame i fun h => by
      have := (hismem i).mp h.1; omega, hlow i hi]
  have hlowbits : ∀ i, i < osize → (table i).ieBits = (s.isTable i).ieBits ∧
      (table i).ieObject = (s.isTable i).ieObject := by
    intro i hi
    by_cases hi0 : i = 0
    · rw [hi0, htab0]; exact ⟨rfl, rfl⟩
    · rw [htablow i hi hi0]; exact ⟨rfl, rfl⟩
  have hnewfree : ∀ i ∈ Z, (∃ next, table i = ⟨.genMask, .null, next⟩) ∧
      ∀ p ∈ st.isTree.toList, machPortIndex p.1 ≠ i := by
    intro i hi
    obtain ⟨⟨h1, h2⟩, hz⟩ := (hZmem i).mp hi
    have hi0 : i ≠ 0 := by have := hs.slots.size_pos; omega
    rcases hgrown.slot i h1 h2 with hc | hc
    · obtain ⟨next, hnext⟩ := hset i ((hismem i).mpr ⟨h1, h2⟩) hz
      refine ⟨⟨next, ?_⟩, hc.2⟩
      rw [htable, update_of_ne hi0, hnext, hc.1]
      rfl
    · exact absurd (by rw [hz]; rfl) hc.1
  have hnewused : ∀ i, osize ≤ i → i < size → i ∉ Z → table i = st.isTable i ∧
      (st.isTable i).ieBits.type ≠ .none ∧ (st.isTable i).ieBits.gen < 256 ∧
      ((st.isTable i).ieBits.collision = true ↔ ∃ p ∈ st.isTree.toList, machPortIndex p.1 = i) ∧
      ∀ p ∈ st.isTree.toList, machPortIndex p.1 = i →
        (st.isTable i).ieBits.gen ≠ machPortGen p.1 := by
    intro i h1 h2 hz
    have hi0 : i ≠ 0 := by have := hs.slots.size_pos; omega
    have hnz : (st.isTable i).ieBits ≠ .zero := fun h => hz ((hZmem i).mpr ⟨⟨h1, h2⟩, h⟩)
    refine ⟨by rw [htable, update_of_ne hi0, hsame i fun h => hnz h.2], ?_⟩
    rcases hgrown.slot i h1 h2 with hc | hc
    · exact absurd (by rw [hc.1]; rfl) hnz
    · exact hc
  have hnodeslow : ∀ i, ¬ (osize ≤ i ∧ i < size) →
      ((∃ p ∈ st.isTree.toList, machPortIndex p.1 = i) ↔
        ∃ p ∈ s.isTree.toList, machPortIndex p.1 = i) := by
    intro i hi
    constructor
    · rintro ⟨p, hp, rfl⟩; exact ⟨p, hgrown.sub p hp, rfl⟩
    · rintro ⟨p, hp, rfl⟩; exact ⟨p, hgrown.outside p hp hi, rfl⟩
  have hlookup : ∀ n, ¬ (osize ≤ machPortIndex n ∧ machPortIndex n < size) →
      st.isTree.toList.lookup n = s.isTree.toList.lookup n := by
    intro n hn
    exact KeysSorted.lookup_congr hgrown.wf.sorted hs.wf.sorted fun a =>
      ⟨fun h => hgrown.sub _ h, fun h => hgrown.outside _ h hn⟩
  have hsz : st.isTableSize = size := hgrown.isTableSize
  have hnx : st.isTableNext = its + 1 := hgrown.isTableNext
  rw [hstate]
  refine ⟨Z ++ free, ⟨?_, ?_, ?_, ⟨?_, ?_, ?_, ?_, ?_, ?_, ?_⟩, hgrown.wf, ⟨?_, ?_, ?_, ?_⟩,
    hgrown.total, ?_, hgrown.hash⟩, ⟨?_, ?_⟩, ?_, hgrown.active, hnx⟩
  · dsimp only; rw [hnx]; omega
  · dsimp only; rw [hnx]; omega
  · dsimp only; rw [hnx, hsz, ← hsize]; rfl
  · dsimp only; rw [hsz]; omega
  · refine hchain.congr fun x _ => ?_
    dsimp only
    by_cases hx0 : x = 0
    · rw [hx0, htab0, update_self]; rfl
    · rw [htable, update_of_ne hx0, update_of_ne hx0]
  · refine List.Nodup.append (List.Nodup.filter _ nodup_range') hs.slots.nodup fun i hi hf => ?_
    have h1 := ((hZmem i).mp hi).1
    have h2 := hfree_lt i (mem_cons_of_mem _ hf)
    omega
  · intro i hi
    dsimp only
    rw [hsz]
    rcases mem_append.mp hi with hi | hi
    · have := ((hZmem i).mp hi).1
      have := hs.slots.size_pos
      omega
    · have := hs.slots.range i hi
      omega
  · intro i hi
    dsimp only
    rcases mem_append.mp hi with hi | hi
    · obtain ⟨⟨next, hn⟩, -⟩ := hnewfree i hi
      rw [hn]; exact ⟨rfl, rfl⟩
    · have := hlowbits i (hfree_lt i (mem_cons_of_mem _ hi))
      rw [this.1, this.2]
      exact hs.slots.unused i hi
  · dsimp only
    rw [htab0]
    exact hs.slots.head
  · intro i hi
    dsimp only at hi ⊢
    rw [hsz] at hi
    by_cases hio : i < osize
    · rw [(hlowbits i hio).1]; exact hs.slots.gen_lt i hio
    by_cases hz : i ∈ Z
    · obtain ⟨⟨next, hn⟩, -⟩ := hnewfree i hz
      rw [hn]; exact (by decide : (255 : ℕ) < 256)
    · have := hnewused i (by omega) hi hz
      rw [this.1]; exact this.2.2.1
  · exact fun p hp => hs.nodes.valid p (hgrown.sub p hp)
  · exact fun p hp => hs.nodes.plain p (hgrown.sub p hp)
  · intro i hi
    dsimp only at hi ⊢
    rw [hsz] at hi
    by_cases hio : i < osize
    · rw [(hlowbits i hio).1, hs.nodes.collision i hio, hnodeslow i (by omega)]
    by_cases hz : i ∈ Z
    · obtain ⟨⟨next, hn⟩, hno⟩ := hnewfree i hz
      rw [hn]
      constructor
      · intro hc; cases hc
      · rintro ⟨p, hp, hpi⟩; exact absurd hpi (hno p hp)
    · have := hnewused i (by omega) hi hz
      rw [this.1]; exact this.2.2.2.1
  · intro p hp h0 h1
    dsimp only at h1 ⊢
    rw [hsz] at h1
    by_cases hio : machPortIndex p.1 < osize
    · rw [(hlowbits _ hio).1]
      exact hs.nodes.gen_ne p (hgrown.sub p hp) h0 hio
    by_cases hz : machPortIndex p.1 ∈ Z
    · exact absurd rfl ((hnewfree _ hz).2 p hp)
    · have := hnewused _ (by omega) h1 hz
      rw [this.1]
      exact this.2.2.2.2 p hp rfl
  · have := hgrown.small
    dsimp only
    rw [hsz, hnx, hnsize]
    exact this
  · intro i h0 hi hf _
    dsimp only at hi ⊢
    rw [hsz] at hi
    rw [mem_append, not_or] at hf
    by_cases hio : i < osize
    · rw [(hlowbits i hio).1]; exact ht.slot i h0 hio hf.2 (by simp)
    · have := hnewused i (by omega) hi hf.1
      rw [this.1]; exact this.2.1
  · exact fun p hp _ => ht.node p (hgrown.sub p hp) (by simp)
  · funext n
    unfold IpcSpace.view
    dsimp only
    rw [hsz]
    by_cases hin : osize ≤ machPortIndex n ∧ machPortIndex n < size
    · -- an index of the new part: what was in the tree is now here or there
      have hold : viewOf s.isTableSize s.isTable s.isTree.toList n =
          (s.isTree.toList.lookup n).bind IpcEntry.live := if_neg fun h => by
        have := h.2.1
        omega
      rw [hold, ← hgrown.view n hin.1 hin.2]
      by_cases hz : machPortIndex n ∈ Z
      · obtain ⟨⟨next, hn⟩, hno⟩ := hnewfree _ hz
        have hl : st.isTree.toList.lookup n = none := by
          rw [KeysSorted.lookup_eq_none_iff]
          rintro p hp rfl
          exact hno p hp rfl
        have hzero := ((hZmem _).mp hz).2
        rw [viewOf_eq_none (by rw [hn]; rfl) (by rintro ⟨p, hp, hpi⟩; exact hno p hp hpi),
          viewUsed, if_neg (by rw [hzero]; exact fun h => h.1 rfl), hl]
        rfl
      obtain ⟨htab, hty, -⟩ := hnewused _ hin.1 hin.2 hz
      by_cases hg : (st.isTable (machPortIndex n)).ieBits.gen = machPortGen n
      · rw [viewOf_of_gen (by have := hs.slots.size_pos; omega) hin.2 (by rw [htab]; exact hg),
          viewUsed, if_pos ⟨hty, hg⟩, htab, IpcEntry.live, if_neg hty]
      · rw [viewOf_of_gen_ne (by rw [htab]; exact hg), viewUsed, if_neg fun h => hg h.2]
    · unfold viewOf
      rw [hlookup n hin]
      by_cases hio : machPortIndex n < osize
      · by_cases hn0 : machPortIndex n = 0
        · rw [if_neg fun h => by omega, if_neg fun h => by omega]
        · rw [htablow _ hio hn0]
          by_cases hg : (s.isTable (machPortIndex n)).ieBits.gen = machPortGen n
          · rw [if_pos ⟨by omega, by omega, hg⟩, if_pos ⟨by omega, hio, hg⟩]
          · rw [if_neg fun h => hg h.2.2, if_neg fun h => hg h.2.2]
      · rw [if_neg fun h => hin ⟨by omega, h.2.1⟩, if_neg fun h => hio h.2.1]

theorem growSearch_spec (T : TableSizes) (t fuel psize its : ℕ) (h0 : 0 < its)
    (hits : its ≤ T.last) (hp : psize = T.itsSize (its - 1)) (hfuel : T.last ≤ its + fuel) :
    its ≤ (growSearch T t fuel psize its).2 ∧ (growSearch T t fuel psize its).2 ≤ T.last ∧
      (growSearch T t fuel psize its).1 = T.itsSize ((growSearch T t fuel psize its).2 - 1) := by
  induction fuel generalizing psize its with
  | zero => exact ⟨le_rfl, hits, hp⟩
  | succ fuel ih =>
    rw [growSearch]
    split
    · next h =>
      have hne : its ≠ T.last := fun he => h.1 (hp.trans ((T.itsSize_pred_eq_iff h0 hits).mpr he))
      have := ih (T.itsSize its) (its + 1) (by omega) (by omega) rfl (by omega)
      exact ⟨by omega, this.2⟩
    · exact ⟨le_rfl, hits, hp⟩

theorem growTarget_ok (hs : Rep T s free) {target : Option ℕ} {its : ℕ}
    (h : growTarget T s target = .ok its) : s.isTableNext ≤ its ∧ its < T.last := by
  have hp := hs.next_pos
  have hl := hs.next_le
  unfold growTarget at h
  dsimp only at h
  cases target with
  | none =>
    dsimp only at h
    split at h
    · cases h
    next hne =>
    cases h
    refine ⟨le_rfl, lt_of_le_of_ne hl fun he => hne ?_⟩
    exact (T.itsSize_pred_eq_iff hp hl).mpr he
  | some t =>
    obtain ⟨h1, h2, h3⟩ := growSearch_spec T t T.last _ _ hp hl rfl (by omega)
    dsimp only at h
    split at h
    · cases h
    split at h
    · cases h
    next hne =>
    split at h
    · cases h
    cases h
    refine ⟨h1, lt_of_le_of_ne h2 fun he => hne ?_⟩
    rw [h3]
    exact (T.itsSize_pred_eq_iff (by omega) h2).mpr he

/-- What growing does to a space: the invariant and the map are kept, and
`is_table_next` does not go back. -/
structure Grown (T : TableSizes) (s s' : IpcSpace) : Prop where
  rep : ∃ free', Rep T s' free' ∧ s'.TypedBut free' []
  view : s'.view = s.view
  active : s'.isActive = s.isActive
  next : s.isTableNext ≤ s'.isTableNext

theorem growLoop_spec (target : Option ℕ) (fuel : ℕ) (mem : List Bool) (hs : Rep T s free)
    (ht : s.TypedBut free []) : Grown T s (growLoop T target fuel s mem).2.1 := by
  induction fuel generalizing s free mem with
  | zero => exact ⟨⟨free, hs, ht⟩, rfl, rfl, le_rfl⟩
  | succ fuel ih =>
    rw [growLoop]
    cases htgt : growTarget T s target with
    | error kr => exact ⟨⟨free, hs, ht⟩, rfl, rfl, le_rfl⟩
    | ok its =>
      obtain ⟨hits, hlast⟩ := growTarget_ok hs htgt
      obtain ⟨free', hrep, htyp, hview, hact, hnext⟩ := growTo_spec hs ht hits hlast
      dsimp only
      split
      · exact ⟨⟨free, hs, ht⟩, rfl, rfl, le_rfl⟩
      next mem' _ =>
      split
      · have := ih mem' hrep htyp
        exact ⟨this.rep, this.view.trans hview, this.active.trans hact,
          by have := this.next; omega⟩
      · exact ⟨⟨free', hrep, htyp⟩, hview, hact, by dsimp only; omega⟩

/-- **`ipc_entry_grow_table` keeps the invariant and the map**, whatever it returns. -/
theorem growTable_spec (target : Option ℕ) (mem : List Bool) (hs : Rep T s free)
    (ht : s.TypedBut free []) : Grown T s (ipcEntryGrowTable T s target mem).2.1 :=
  growLoop_spec target _ mem hs ht

theorem growTable_success (mem : List Bool) (hs : Rep T s free) (ht : s.TypedBut free [])
    (h : (ipcEntryGrowTable T s none mem).1 = .success) :
    s.isTableNext < (ipcEntryGrowTable T s none mem).2.1.isTableNext := by
  have hl := hs.next_le
  obtain ⟨n, hn⟩ : ∃ n, T.last + 1 - s.isTableNext = n + 1 := ⟨T.last - s.isTableNext, by omega⟩
  unfold ipcEntryGrowTable at h ⊢
  rw [hn, growLoop] at h ⊢
  cases htgt : growTarget T s none with
  | error kr =>
    rw [htgt] at h
    have hkr : kr = .noSpace := by
      unfold growTarget at htgt
      dsimp only at htgt
      split at htgt <;> cases htgt
      rfl
    rw [hkr] at h
    cases h
  | ok its =>
    obtain ⟨hits, hlast⟩ := growTarget_ok hs htgt
    obtain ⟨free', hrep, htyp, -, -, hnext⟩ := growTo_spec hs ht hits hlast
    rw [htgt] at h
    dsimp only at h ⊢
    split
    · next hm => rw [hm] at h; cases h
    next mem' _ =>
    split
    · have := (growLoop_spec (T := T) none n mem' hrep htyp).next
      omega
    · dsimp only; omega

theorem growLoop_fuel (target : Option ℕ) {fuel : ℕ} (mem : List Bool) (hs : Rep T s free)
    (ht : s.TypedBut free []) (hfuel : T.last + 1 ≤ s.isTableNext + fuel) :
    growLoop T target (fuel + 1) s mem = growLoop T target fuel s mem := by
  induction fuel generalizing s free mem with
  | zero => have := hs.next_le; omega
  | succ fuel ih =>
    rw [growLoop]
    conv_rhs => rw [growLoop]
    cases htgt : growTarget T s target with
    | error kr => rfl
    | ok its =>
      obtain ⟨hits, hlast⟩ := growTarget_ok hs htgt
      obtain ⟨free', hrep, htyp, -, -, hnext⟩ := growTo_spec hs ht hits hlast
      dsimp only
      split
      · rfl
      · split
        · exact ih _ hrep htyp (by omega)
        · rfl

end Osfmk

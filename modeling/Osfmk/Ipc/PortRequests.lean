import Osfmk.Ipc.Port
import Osfmk.Ipc.SpaceGrowLock
import Osfmk.Lib.LinkedChain

/-!
# The table of dead-name requests

`ipc_port_dngrow` walks up the array of sizes to one that is as large as its caller asks for, unlocks the
port to allocate the table, and installs it only if the port still has the old table and the new size is
the one after it.  While the port is unlocked other threads register and cancel requests.
-/

open Function (update)
open List Option

namespace Osfmk

/-- The array `ipc_table_dnrequests`: sizes that increase, and a zero at the end. -/
structure DnSizes where
  itsSize : ℕ → ℕ
  last : ℕ
  first : 1 < itsSize 0
  increasing : ∀ i, i + 1 < last → itsSize i < itsSize (i + 1)
  sentinel : ∀ i, itsSize i = 0 ↔ last ≤ i

/-- The array as `ipc_table_init` leaves it. -/
def dnSizes : DnSizes where
  itsSize := ipcTables.dnrequests
  last := 63
  first := by decide +kernel
  increasing := by
    have h : ∀ i < 62, ipcTables.dnrequests i < ipcTables.dnrequests (i + 1) := by decide +kernel
    exact fun i hi => h i (by omega)
  sentinel := by
    have h : ∀ i < 63, ipcTables.dnrequests i ≠ 0 := by decide +kernel
    have hlen : (ipcTableFill 63 2 sizeofIpcPortRequest ++ [0]).length = 64 := by decide +kernel
    intro i
    refine ⟨fun h0 => ?_, fun hi => ?_⟩
    · by_contra hlt
      exact h i (by omega) h0
    · rcases Nat.lt_or_ge i 64 with hlt | hge
      · obtain rfl : i = 63 := by omega
        decide +kernel
      · exact getD_eq_default _ _ (by omega)

/-- The search for a size: stops at the zero, or at a size that is large enough. -/
def dngrowSearch (D : DnSizes) (target : ℕ) : ℕ → ℕ → ℕ
  | 0, its => its
  | fuel + 1, its =>
    if D.itsSize its ≠ 0 ∧ D.itsSize its < target then dngrowSearch D target fuel (its + 1) else its

/-- The size to grow to, or the code to return at once. -/
def dngrowPlan (D : DnSizes) (target : Option ℕ) (otable : DnTable) : Except KernReturn ℕ :=
  let its := match otable.iprSize with
    | none => 0
    | some size => size + 1
  match target with
  | none => .ok its
  | some t =>
    if otable.iprSize.any fun size => t ≤ D.itsSize size then .error .success
    else
      let its := dngrowSearch D t D.last its
      if D.itsSize its = 0 then .error .noSpace else .ok its

/-- The copy of a table into a larger one. -/
def DnTable.growTo (D : DnSizes) (table : DnTable) (its : ℕ) : DnTable :=
  let osize := match table.iprSize with
    | none => 1
    | some size => D.itsSize size
  let free := match table.iprSize with
    | none => 0
    | some _ => table.iprNext
  let grown := dngrowFree table.request free (List.range' osize (D.itsSize its - osize))
  ⟨some its, grown.2, grown.1⟩

/-- `ipc_port_dngrow`: the code and the table of the port. -/
def ipcPortDngrowTo (D : DnSizes) (target : Option ℕ) (otable : DnTable) (memory active same : Bool)
    (now : DnTable) : KernReturn × DnTable :=
  match dngrowPlan D target otable with
  | .error kr => (kr, otable)
  | .ok its =>
    if D.itsSize its = 0 ∨ memory = false then (.resourceShortage, now)
    else if active ∧ same ∧ (otable.iprSize = none ∨ otable.iprSize.map (· + 1) = some its) then
      (.success, now.growTo D its)
    else (.success, now)

/-- The links of the free list, from element 0. -/
def DnTable.link (table : DnTable) (i : ℕ) : ℕ :=
  if i = 0 then table.iprNext else (table.request i).iprNext

/-- The number of elements of a table, element 0 included. -/
def DnTable.slots (D : DnSizes) (table : DnTable) : ℕ := table.iprSize.elim 0 D.itsSize

/-- The free list has the elements without a name, each once. -/
structure DnTable.Wf (D : DnSizes) (table : DnTable) : Prop where
  size : ∀ size, table.iprSize = some size → size < D.last
  free : table.iprSize ≠ none → ∃ free, LinkedChain table.link 0 0 free ∧ (0 :: free).Nodup ∧
    ∀ i, i ∈ free ↔ 0 < i ∧ i < table.slots D ∧ (table.request i).iprName = machPortNull

/-- **What growing should do**: the table is as large as asked for, or larger than it was; the requests
are as they were; and the rest is on the free list, each element once. -/
structure DnTable.Grown (D : DnSizes) (target : Option ℕ) (old new : DnTable) : Prop where
  large : ∀ t, target = some t → t ≤ new.slots D
  larger : target = none → old.slots D < new.slots D
  requests : ∀ i, 0 < i → i < old.slots D → (old.request i).iprName ≠ machPortNull →
    i < new.slots D ∧ new.request i = old.request i
  free : 0 < new.slots D → ∃ free, LinkedChain new.link 0 0 free ∧ free.Nodup ∧
    ∀ i, i ∈ free ↔ 0 < i ∧ i < new.slots D ∧
      ¬ (i < old.slots D ∧ (old.request i).iprName ≠ machPortNull)

variable {D : DnSizes} {target : Option ℕ} {otable now table : DnTable}

variable {i its t : ℕ}

theorem DnSizes.lt_of_lt (D : DnSizes) {j : ℕ} (hij : i < j) (hj : j < D.last) :
    D.itsSize i < D.itsSize j := by
  induction j with
  | zero => omega
  | succ j ih =>
    rcases Nat.lt_succ_iff_lt_or_eq.mp hij with h | rfl
    · exact (ih h (by omega)).trans (D.increasing j hj)
    · exact D.increasing i hj

theorem DnSizes.one_lt (D : DnSizes) (hi : i < D.last) : 1 < D.itsSize i := by
  rcases Nat.eq_zero_or_pos i with rfl | h
  · exact D.first
  · exact D.first.trans (D.lt_of_lt h hi)

theorem dngrowFree_request (request : ℕ → IpcPortRequest) (free : ℕ) (is : List ℕ)
    (hi : i ∉ is) : (dngrowFree request free is).1 i = request i := by
  induction is generalizing request free with
  | nil => rfl
  | cons j is ih =>
    obtain ⟨hij, hi⟩ := ne_and_not_mem_of_not_mem_cons hi
    rw [dngrowFree, ih _ _ hi, Function.update_of_ne hij]

theorem dngrowFree_chain (request : ℕ → IpcPortRequest) (head : ℕ) (size : Option ℕ)
    (is free : List ℕ) (hc : LinkedChain (DnTable.mk size head request).link 0 0 free)
    (h0 : 0 ∉ free) (his : ∀ i ∈ is, i ≠ 0 ∧ i ∉ free) (hn : is.Nodup) :
    LinkedChain (DnTable.mk size (dngrowFree request head is).2 (dngrowFree request head is).1).link
      0 0 (is.reverse ++ free) := by
  induction is generalizing request head free with
  | nil => exact hc
  | cons i is ih =>
    obtain ⟨hi0, hif⟩ := his i mem_cons_self
    obtain ⟨hii, hn⟩ := List.nodup_cons.mp hn
    have hpush := hc.push hi0 hif h0
    have hlink : update (update (DnTable.mk size head request).link i
        ((DnTable.mk size head request).link 0)) 0 i =
        (DnTable.mk size i (update request i ⟨machPortNull, none, head⟩)).link := by
      funext j
      by_cases hj0 : j = 0
      · simp [DnTable.link, hj0]
      · by_cases hji : j = i
        · simp [DnTable.link, hji, hi0]
        · simp [DnTable.link, hj0, hji]
    rw [hlink] at hpush
    rw [dngrowFree, reverse_cons, append_assoc]
    refine ih _ _ (i :: free) hpush (not_mem_cons_of_ne_of_not_mem (Ne.symm hi0) h0)
      (fun j hj => ⟨(his j (mem_cons_of_mem _ hj)).1, ?_⟩) hn
    refine not_mem_cons_of_ne_of_not_mem ?_ (his j (mem_cons_of_mem _ hj)).2
    rintro rfl
    exact hii hj

theorem DnTable.Wf.growTo (h : table.Wf D) (hits : its < D.last)
    (hlt : ∀ size, table.iprSize = some size → size < its)
    (htarget : ∀ t, target = some t → t ≤ D.itsSize its) :
    Grown D target table (table.growTo D its) := by
  have hslots : (table.growTo D its).slots D = D.itsSize its := rfl
  cases hsize : table.iprSize with
  | none =>
    have hold : table.slots D = 0 := by rw [slots, hsize]; rfl
    have hone := D.one_lt hits
    refine ⟨htarget, fun _ => by rw [hslots, hold]; omega, fun i _ hi => by omega, fun _ => ?_⟩
    have hchain := dngrowFree_chain table.request 0 (some its) (List.range' 1 (D.itsSize its - 1)) []
      rfl not_mem_nil (fun i hi => ⟨by rw [mem_range'_1] at hi; omega, not_mem_nil⟩)
      nodup_range'
    refine ⟨(List.range' 1 (D.itsSize its - 1)).reverse, ?_, ?_, fun i => ?_⟩
    · rw [DnTable.growTo, hsize]
      rw [append_nil] at hchain
      exact hchain
    · rw [nodup_reverse]
      exact nodup_range'
    · rw [mem_reverse, mem_range'_1, hslots, hold]
      omega
  | some size =>
    have hold : table.slots D = D.itsSize size := by rw [slots, hsize]; rfl
    have hgrow := D.lt_of_lt (hlt size hsize) hits
    have hone := D.one_lt (h.size size hsize)
    obtain ⟨free, hc, hn, hfree⟩ := h.free (by rw [hsize]; exact some_ne_none _)
    obtain ⟨h0, hn⟩ := List.nodup_cons.mp hn
    set is := List.range' (D.itsSize size) (D.itsSize its - D.itsSize size) with his
    have hmem : ∀ i, i ∈ is ↔ D.itsSize size ≤ i ∧ i < D.itsSize its := by
      intro i
      rw [his, mem_range'_1]
      omega
    have hnew : table.growTo D its = ⟨some its, (dngrowFree table.request table.iprNext is).2,
          (dngrowFree table.request table.iprNext is).1⟩ := by
      rw [DnTable.growTo, hsize]
    have hchain := dngrowFree_chain table.request table.iprNext (some its) is free hc h0
      (fun i hi => ⟨by have := (hmem i).mp hi; omega, fun hf => ?_⟩) nodup_range'
    · refine ⟨htarget, fun _ => by rw [hslots, hold]; exact hgrow, fun i hi hlt' hname => ?_,
        fun _ => ⟨is.reverse ++ free, ?_, ?_, fun i => ?_⟩⟩
      · refine ⟨by rw [hslots]; omega, ?_⟩
        rw [hnew]
        exact dngrowFree_request _ _ _ fun hin => by have := (hmem i).mp hin; omega
      · rw [hnew]
        exact hchain
      · refine nodup_append.mpr ⟨nodup_reverse.mpr nodup_range', hn, ?_⟩
        rintro i hi j hj rfl
        have h1 := (hmem i).mp (mem_reverse.mp hi)
        have h2 := (hfree i).mp hj
        omega
      · rw [mem_append, mem_reverse, hmem, hfree, hslots, hold]
        constructor
        · rintro (hi | ⟨hi, hlt', hname⟩)
          · exact ⟨by omega, hi.2, fun hc => by omega⟩
          · exact ⟨hi, by omega, fun hc => hc.2 hname⟩
        · rintro ⟨hi, hlt', hc⟩
          by_cases hge : D.itsSize size ≤ i
          · exact Or.inl ⟨hge, hlt'⟩
          · refine Or.inr ⟨hi, by omega, ?_⟩
            by_contra hname
            exact hc ⟨by omega, hname⟩
    · have h1 := (hmem i).mp hi
      have h2 := (hfree i).mp hf
      omega

theorem dngrowSearch_stops (fuel : ℕ) (hfuel : D.last ≤ its + fuel) :
    its ≤ dngrowSearch D t fuel its ∧
      (D.itsSize (dngrowSearch D t fuel its) = 0 ∨ t ≤ D.itsSize (dngrowSearch D t fuel its)) := by
  induction fuel generalizing its with
  | zero => exact ⟨le_rfl, Or.inl ((D.sentinel its).mpr hfuel)⟩
  | succ fuel ih =>
    rw [dngrowSearch]
    split
    · obtain ⟨hle, h⟩ := ih (show D.last ≤ its + 1 + fuel by omega)
      exact ⟨by omega, h⟩
    · exact ⟨le_rfl, by omega⟩

theorem dngrowSearch_of_le (h : t ≤ D.itsSize its) (fuel : ℕ) :
    dngrowSearch D t fuel its = its := by
  cases fuel with
  | zero => rfl
  | succ fuel => rw [dngrowSearch, if_neg (by omega)]

theorem dngrowPlan_ok (h : dngrowPlan D target otable = .ok its) :
    (∀ size, otable.iprSize = some size → size < its) ∧
      (∀ t, target = some t → t ≤ D.itsSize its) := by
  cases target with
  | none =>
    cases h
    refine ⟨fun size hsize => ?_, nofun⟩
    rw [hsize]
    exact Nat.lt_succ_self size
  | some t =>
    simp only [dngrowPlan] at h
    split_ifs at h with hmet hzero
    cases h
    set start := (match otable.iprSize with | none => 0 | some size => size + 1) with hstart
    obtain ⟨hle, hstop⟩ := dngrowSearch_stops (D := D) (t := t) D.last
      (show D.last ≤ start + D.last by omega)
    refine ⟨fun size hsize => ?_, fun t' ht => ?_⟩
    · rw [hsize] at hstart
      simp only at hstart
      omega
    · cases ht
      exact hstop.resolve_left hzero

/-- The target is no further than the size after the one the table has. -/
def OneSizeAway (D : DnSizes) (target : Option ℕ) (otable : DnTable) : Prop :=
  ∀ size t, otable.iprSize = some size → target = some t →
    t ≤ D.itsSize size ∨ t ≤ D.itsSize (size + 1)

theorem OneSizeAway.plan (h : OneSizeAway D target otable)
    (hplan : dngrowPlan D target otable = .ok its) :
    otable.iprSize = none ∨ otable.iprSize.map (· + 1) = some its := by
  cases hsize : otable.iprSize with
  | none => exact Or.inl rfl
  | some size =>
    refine Or.inr (congrArg some ?_)
    cases target with
    | none =>
      simp only [dngrowPlan, hsize] at hplan
      exact Except.ok.inj hplan
    | some t =>
      simp only [dngrowPlan, hsize] at hplan
      split_ifs at hplan with hmet hzero
      rw [← Except.ok.inj hplan, dngrowSearch_of_le]
      exact (h size t hsize rfl).resolve_left fun hle => hmet (decide_eq_true hle)

theorem DnTable.Wf.of_plan_success (h : otable.Wf D) (hplan : dngrowPlan D target otable = .error .success) :
    Grown D target otable otable := by
  cases target with
  | none => nomatch hplan
  | some t =>
    simp only [dngrowPlan] at hplan
    split_ifs at hplan with hmet hzero
    · obtain ⟨size, hsize, hle⟩ := (any_eq_true _ _).mp hmet
      have hslots : otable.slots D = D.itsSize size := by rw [slots, hsize]; rfl
      refine ⟨fun t' ht => ?_, nofun, fun i _ hi _ => ⟨hi, rfl⟩, fun _ => ?_⟩
      · cases ht
        rw [hslots]
        exact of_decide_eq_true hle
      · obtain ⟨free, hc, hn, hfree⟩ := h.free (by rw [hsize]; exact some_ne_none _)
        refine ⟨free, hc, (List.nodup_cons.mp hn).2, fun i => (hfree i).trans ?_⟩
        tauto
    · cases hplan

/-- **What a success means.**  The port stays active and only this call grows its table, while others
register and cancel requests: the table has grown as it should exactly when the target is at most one
size away. -/
theorem dngrow_grown_iff (D : DnSizes) (target : ℤ) (otable now : DnTable) (memory : Bool)
    (hold : otable.Wf D) (hnow : now.Wf D) (hsize : now.iprSize = otable.iprSize)
    (hkr : (ipcPortDngrowTo D (itsTarget target) otable memory true true now).1 = .success) :
    DnTable.Grown D (itsTarget target)
      (if (dngrowPlan D (itsTarget target) otable).toBool then now else otable)
      (ipcPortDngrowTo D (itsTarget target) otable memory true true now).2 ↔
        OneSizeAway D (itsTarget target) otable := by
  have hslots : ∀ {size}, otable.iprSize = some size → otable.slots D = D.itsSize size ∧
      now.slots D = D.itsSize size := fun hs => by
    rw [DnTable.slots, DnTable.slots, hsize, hs]
    exact ⟨rfl, rfl⟩
  cases hplan : dngrowPlan D (itsTarget target) otable with
  | error kr =>
    simp only [ipcPortDngrowTo, hplan] at hkr ⊢
    subst hkr
    have hgrown := hold.of_plan_success hplan
    exact iff_of_true hgrown fun size t hs ht => .inl ((hslots hs).1 ▸ hgrown.large t ht)
  | ok its =>
    obtain ⟨hlt, htarget⟩ := dngrowPlan_ok hplan
    rw [show (Except.ok its : Except KernReturn ℕ).toBool = true from rfl, if_pos rfl]
    simp only [ipcPortDngrowTo, hplan] at hkr ⊢
    split_ifs at hkr ⊢ with hmem hre
    · have hits : its < D.last := by
        by_contra hge
        exact hmem (Or.inl ((D.sentinel its).mpr (by omega)))
      refine iff_of_true (hnow.growTo hits (fun size hs => hlt size (hsize ▸ hs)) htarget) ?_
      intro size t hs ht
      rw [hs] at hre
      have hits : size + 1 = its := some.inj (hre.2.2.resolve_left (some_ne_none _))
      exact .inr (hits ▸ htarget t ht)
    · -- the new table is thrown away
      exact ⟨fun hgrown size t hs ht => .inl ((hslots hs).2 ▸ hgrown.large t ht),
        fun haway => absurd ⟨trivial, trivial, haway.plan hplan⟩ hre⟩

/-- A table of the smallest size with a request in its only element. -/
def oneRequest : DnTable := ⟨some 0, 0, fun _ => ⟨1, some 0, 0⟩⟩

theorem oneRequest_wf : oneRequest.Wf dnSizes where
  size := by
    rintro _ ⟨⟩
    exact Nat.succ_pos 62
  free _ := by
    refine ⟨[], rfl, nodup_singleton 0, fun i => iff_of_false not_mem_nil ?_⟩
    rintro ⟨-, -, h⟩
    exact absurd h Nat.one_ne_zero

theorem dngrow_grown_oneRequest : DnTable.Grown dnSizes none oneRequest
      (ipcPortDngrowTo dnSizes (itsTarget (-1)) oneRequest true true true oneRequest).2 :=
  (dngrow_grown_iff dnSizes (-1) oneRequest oneRequest true oneRequest_wf oneRequest_wf rfl
    (by decide +kernel)).mpr fun _ _ _ h => nomatch h

/-- **A target two sizes away**: eight elements are asked for, the table has two, and a success is
returned with the table as it was. -/
theorem dngrow_discards :
    (ipcPortDngrowTo dnSizes (itsTarget 8) oneRequest true true true oneRequest).1 = .success ∧
      (ipcPortDngrowTo dnSizes (itsTarget 8) oneRequest true true true oneRequest).2.slots dnSizes = 2 ∧
      ¬ DnTable.Grown dnSizes (itsTarget 8) oneRequest
        (ipcPortDngrowTo dnSizes (itsTarget 8) oneRequest true true true oneRequest).2 := by
  have hslots : (ipcPortDngrowTo dnSizes (itsTarget 8) oneRequest true true true
      oneRequest).2.slots dnSizes = 2 := by decide +kernel
  refine ⟨by decide +kernel, hslots, fun h => ?_⟩
  have hlarge := h.large 8 rfl
  omega

end Osfmk

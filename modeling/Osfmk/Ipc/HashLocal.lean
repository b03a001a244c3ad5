import Osfmk.Lib.Probing
import Osfmk.Lib.Trace

/-!
# The reverse hash table of a space

`ipc/ipc_hash.c`: the field `ie_index` of the entries of a space's table is an open-addressing hash table
from objects to indexes, with linear probing.  Index 0 is never entered, so a zero is an empty slot.
Deleting an index leaves a hole, into which an index from further along may have to be moved, which
leaves a hole of its own.
-/

open Function (update update_of_ne update_self)

namespace Osfmk

open Probing Finset

/-- The fields of a space's table that the hash uses. -/
structure LocalTable where
  size : ℕ
  ieIndex : ℕ → ℕ
  ieObject : ℕ → ℕ

/-- `IH_LOCAL_HASH`; an object is an address, of which the macro takes 32 bits. -/
def ihLocalHash (obj size : ℕ) : ℕ := (obj % 2 ^ 32) >>> 6 % size

namespace LocalTable

/-- `table[hindex].ie_index = index`. -/
def setIndex (t : LocalTable) (hindex index : ℕ) : LocalTable :=
  { t with ieIndex := update t.ieIndex hindex index }

/-- `table[index].ie_object = obj`. -/
def setObject (t : LocalTable) (index obj : ℕ) : LocalTable :=
  { t with ieObject := update t.ieObject index obj }

/-- The slot where the probing for an object starts. -/
def home (t : LocalTable) (obj : ℕ) : ℕ := ihLocalHash obj t.size

/-- `ipc_hash_local_lookup`: the index found, if any. -/
def ipcHashLocalLookup (t : LocalTable) (obj : ℕ) : Option (Option ℕ) :=
  (probe t.size (fun h => t.ieIndex h == 0 || t.ieObject (t.ieIndex h) == obj) t.size
    (t.home obj)).map fun h => if t.ieIndex h = 0 then none else some (t.ieIndex h)

def ipcHashLocalInsert (t : LocalTable) (obj index : ℕ) : Option LocalTable :=
  (probe t.size (fun h => t.ieIndex h == 0) t.size (t.home obj)).map fun h => t.setIndex h index

/-- The test for a displaced object: its home `tindex` is not after the hole `hindex`. -/
def displaced (dindex hindex tindex : ℕ) : Bool :=
  if dindex < hindex then decide (dindex < tindex) && decide (tindex ≤ hindex)
  else decide (dindex < tindex) || decide (tindex ≤ hindex)

/-- The inner loop of `ipc_hash_local_delete`: the next slot after the hole that is empty or has a
displaced object. -/
def nextDisplaced (t : LocalTable) (hindex : ℕ) : Option ℕ :=
  probe t.size (fun d => t.ieIndex d == 0 ||
    displaced d hindex (t.home (t.ieObject (t.ieIndex d)))) (t.size - 1) (next t.size hindex)

/-- The outer loop of `ipc_hash_local_delete`: fill the hole with what the inner loop finds, which makes a
new hole, until it finds an empty slot. -/
def fillHole : ℕ → LocalTable → ℕ → Option LocalTable
  | 0, _, _ => none
  | fuel + 1, t, hindex =>
    (t.nextDisplaced hindex).bind fun dindex =>
      if t.ieIndex dindex = 0 then some (t.setIndex hindex 0)
      else fillHole fuel (t.setIndex hindex (t.ieIndex dindex)) dindex

def ipcHashLocalDelete (t : LocalTable) (obj index : ℕ) : Option LocalTable :=
  (probe t.size (fun h => t.ieIndex h == index) t.size (t.home obj)).bind fun h => fillHole t.size t h

end LocalTable

/-- A table, and the indexes that are in the hash: the pairs are `(ie_object, index)`. -/
structure LocalHash where
  table : LocalTable
  live : ℕ → Bool

/-- A call of a routine, or a change of an entry that is not in the hash. -/
inductive HashOp
  | insert (obj index : ℕ)
  | delete (obj index : ℕ)
  | write (index obj : ℕ)

namespace LocalHash

/-- A routine is refused when one of its loops does not end. -/
def step (s : LocalHash) : HashOp → Option LocalHash
  | .insert obj index =>
    ((s.table.setObject index obj).ipcHashLocalInsert obj index).map fun t =>
      ⟨t, update s.live index true⟩
  | .delete obj index =>
    (s.table.ipcHashLocalDelete obj index).map fun t => ⟨t, update s.live index false⟩
  | .write index obj => some ⟨s.table.setObject index obj, s.live⟩

/-- The indexes and the objects are distinct and not null, and what is deleted is there. -/
def Admissible (s : LocalHash) : HashOp → Prop
  | .insert obj index => 0 < index ∧ index < s.table.size ∧ obj ≠ 0 ∧ s.live index = false ∧
      ∀ i, s.live i = true → s.table.ieObject i ≠ obj
  | .delete obj index => s.live index = true ∧ s.table.ieObject index = obj
  | .write index _ => s.live index = false

/-- An empty table. -/
def empty (size : ℕ) (objects : ℕ → ℕ) : LocalHash := ⟨⟨size, fun _ => 0, objects⟩, fun _ => false⟩

/-- The table finds what is in it: a lookup ends, with the index of the object if there is one; and no
empty slot lies between the home of an object and its slot. -/
structure Exact (s : LocalHash) : Prop where
  lookup : ∀ obj, ∃ r, s.table.ipcHashLocalLookup obj = some r ∧
    ∀ i, r = some i ↔ s.live i = true ∧ s.table.ieObject i = obj
  reachable : ∀ i, s.live i = true → ∃ p, p < s.table.size ∧ s.table.ieIndex p = i ∧
    ∀ q, q < s.table.size → dist s.table.size (s.table.home (s.table.ieObject i)) q <
        dist s.table.size (s.table.home (s.table.ieObject i)) p → s.table.ieIndex q ≠ 0

/-- The table up to a hole: the slots `p` with `hole p` are not looked at. -/
structure Probed (t : LocalTable) (live : ℕ → Bool) (hole : ℕ → Prop) : Prop where
  range : ∀ i, live i = true → 0 < i ∧ i < t.size
  objects : ∀ i j, live i = true → live j = true → t.ieObject i = t.ieObject j → i = j
  sound : ∀ p, p < t.size → ¬ hole p → t.ieIndex p ≠ 0 → live (t.ieIndex p) = true
  unique : ∀ p q, p < t.size → q < t.size → ¬ hole p → ¬ hole q → t.ieIndex p ≠ 0 →
    t.ieIndex p = t.ieIndex q → p = q
  reach : ∀ i, live i = true → ∃ p, p < t.size ∧ ¬ hole p ∧ t.ieIndex p = i ∧
    ∀ q, q < t.size → dist t.size (t.home (t.ieObject i)) q < dist t.size (t.home (t.ieObject i)) p →
      hole q ∨ t.ieIndex q ≠ 0

/-- **The invariant**: no hole. -/
def Inv (s : LocalHash) : Prop := 2 ≤ s.table.size ∧ Probed s.table s.live fun _ => False

theorem home_lt {t : LocalTable} (h : 0 < t.size) (obj : ℕ) : t.home obj < t.size := Nat.mod_lt _ h

variable {t : LocalTable} {live : ℕ → Bool} {s : LocalHash}

theorem exists_zero {f : ℕ → ℕ} {S T : Finset ℕ} (hcard : T.card < S.card)
    (hmaps : ∀ p ∈ S, f p ≠ 0 → f p ∈ T)
    (hinj : ∀ p ∈ S, ∀ q ∈ S, f p ≠ 0 → f p = f q → p = q) : ∃ p ∈ S, f p = 0 := by
  by_contra hne
  push Not at hne
  obtain ⟨p, hp, q, hq, hpq, heq⟩ :=
    exists_ne_map_eq_of_card_lt_of_maps_to hcard fun p hp => hmaps p hp (hne p hp)
  exact hpq (hinj p hp q hq (hne p hp) heq)

theorem Inv.exists_empty (h : s.Inv) : ∃ p, p < s.table.size ∧ s.table.ieIndex p = 0 := by
  obtain ⟨hsize, hp⟩ := h
  obtain ⟨p, hpn, hzero⟩ := exists_zero (f := s.table.ieIndex) (S := Finset.range s.table.size)
    (T := Finset.Ico 1 s.table.size) (by simp; omega)
    (fun p hpn h0 => mem_Ico.mpr (hp.range _ (hp.sound p (mem_range.mp hpn) id h0)))
    (fun p hpn q hqn => hp.unique p q (mem_range.mp hpn) (mem_range.mp hqn) id id)
  exact ⟨p, mem_range.mp hpn, hzero⟩

variable {d h index obj : ℕ}

theorem Probed.exists_empty {hindex : ℕ} (h : Probed t live (· = hindex))
    (hh : hindex < t.size) (hi : 0 < index ∧ index < t.size) (hdead : live index = false) :
    ∃ p, p < t.size ∧ p ≠ hindex ∧ t.ieIndex p = 0 := by
  have hcard : ((Finset.Ico 1 t.size).erase index).card <
      ((Finset.range t.size).erase hindex).card := by
    rw [card_erase_of_mem (mem_Ico.mpr hi),
      card_erase_of_mem (mem_range.mpr hh), card_range, Nat.card_Ico]
    omega
  have hmem : ∀ p ∈ (Finset.range t.size).erase hindex, p ≠ hindex ∧ p < t.size := by
    intro p hp
    rwa [mem_erase, mem_range] at hp
  have hmaps : ∀ p ∈ (Finset.range t.size).erase hindex, t.ieIndex p ≠ 0 →
      t.ieIndex p ∈ (Finset.Ico 1 t.size).erase index := by
    intro p hp h0
    have hl := h.sound p (hmem p hp).2 (hmem p hp).1 h0
    rw [mem_erase, mem_Ico]
    refine ⟨fun heq => ?_, h.range _ hl⟩
    rw [heq, hdead] at hl
    cases hl
  obtain ⟨p, hp, hzero⟩ := exists_zero hcard hmaps fun p hp q hq =>
    h.unique p q (hmem p hp).2 (hmem q hq).2 (hmem p hp).1 (hmem q hq).1
  exact ⟨p, (hmem p hp).2, (hmem p hp).1, hzero⟩

/-- **A lookup** finds the index of the object. -/
theorem Inv.lookup (h : s.Inv) (obj : ℕ) : ∃ r, s.table.ipcHashLocalLookup obj = some r ∧
    ∀ i, r = some i ↔ s.live i = true ∧ s.table.ieObject i = obj := by
  have hp := h.2
  have hpos : 0 < s.table.size := by have := h.1; omega
  have hhome := home_lt hpos obj
  unfold LocalTable.ipcHashLocalLookup
  by_cases hex : ∃ i, s.live i = true ∧ s.table.ieObject i = obj
  · obtain ⟨i, hi, rfl⟩ := hex
    obtain ⟨p, hpn, -, hpi, hpath⟩ := hp.reach i hi
    rw [probe_eq hhome hpn (by simp [hpi]) (fun q hq hlt => ?_) (dist_lt hhome hpn)]
    · refine ⟨some i, by simp [hpi, (hp.range i hi).1.ne'], fun j => ?_⟩
      refine ⟨fun hj => ?_, fun hj => congrArg some (hp.objects i j hi hj.1 hj.2.symm)⟩
      cases hj
      exact ⟨hi, rfl⟩
    have h0 := (hpath q hq hlt).resolve_left id
    have hobj : s.table.ieObject (s.table.ieIndex q) ≠ s.table.ieObject i := by
      intro heq
      have hqi := hp.objects _ i (hp.sound q hq id h0) hi heq
      rw [hp.unique q p hq hpn id id h0 (hqi.trans hpi.symm)] at hlt
      exact lt_irrefl _ hlt
    simp [h0, hobj]
  · obtain ⟨e, hen, hzero, hnear⟩ := exists_nearest (s.table.home obj) h.exists_empty
    rw [probe_eq hhome hen (by simp [hzero]) (fun q hq hlt => ?_) (dist_lt hhome hen)]
    · refine ⟨none, by simp [hzero], fun i => ⟨nofun, fun hi => ?_⟩⟩
      exact absurd ⟨i, hi⟩ hex
    have h0 := hnear q hq hlt
    have hobj : s.table.ieObject (s.table.ieIndex q) ≠ obj :=
      fun heq => hex ⟨_, hp.sound q hq id h0, heq⟩
    simp [h0, hobj]

/-- **An insertion** puts the index into the first empty slot after the home of the object. -/
theorem Inv.insert (h : s.Inv) (ha : s.Admissible (.insert obj index)) :
    ∃ s', s.step (.insert obj index) = some s' ∧ s'.Inv := by
  obtain ⟨hpos, hlt, -, hdead, hfresh⟩ := ha
  have hp := h.2
  have hhome := home_lt (t := s.table) (by omega) obj
  obtain ⟨e, hen, hzero, hnear⟩ := exists_nearest (s.table.home obj) h.exists_empty
  have hprobe : probe s.table.size (fun h => s.table.ieIndex h == 0) s.table.size
      (s.table.home obj) = some e :=
    probe_eq hhome hen (by simp [hzero]) (fun q hq hd => by simpa using hnear q hq hd)
      (dist_lt hhome hen)
  have hne : ∀ i, s.live i = true → i ≠ index := by
    rintro i hi rfl
    rw [hdead] at hi
    cases hi
  -- the slots other than `e` and the indexes other than the new one are as they were
  have hcase : ∀ i, update s.live index true i = true → i = index ∨
      i ≠ index ∧ s.live i = true := by
    intro i hi
    by_cases heq : i = index
    · exact Or.inl heq
    · rw [update_of_ne heq] at hi
      exact Or.inr ⟨heq, hi⟩
  refine ⟨⟨(s.table.setObject index obj).setIndex e index, update s.live index true⟩, ?_,
    h.1, ⟨fun i hi => ?_, fun i j hi hj => ?_, fun p hpn _ => ?_, fun p q hpn hqn _ _ => ?_,
      fun i hi => ?_⟩⟩
  · change Option.map _ (Option.map _ (probe s.table.size _ _ (s.table.home obj))) = _
    exact congrArg _ (congrArg _ hprobe)
  · rcases hcase i hi with rfl | ⟨-, hi⟩
    · exact ⟨hpos, hlt⟩
    · exact hp.range i hi
  · dsimp only [LocalTable.setIndex, LocalTable.setObject]
    rcases hcase i hi with rfl | ⟨hii, hi'⟩ <;> rcases hcase j hj with rfl | ⟨hji, hj'⟩
    · exact fun _ => rfl
    · rw [update_self, update_of_ne hji]
      exact fun heq => absurd heq.symm (hfresh j hj')
    · rw [update_self, update_of_ne hii]
      exact fun heq => absurd heq (hfresh i hi')
    · rw [update_of_ne hii, update_of_ne hji]
      exact hp.objects i j hi' hj'
  · dsimp only [LocalTable.setIndex, LocalTable.setObject]
    by_cases hpe : p = e
    · rw [hpe, update_self, update_self]
      exact fun _ => rfl
    rw [update_of_ne hpe]
    intro h0
    have hl := hp.sound p hpn id h0
    rw [update_of_ne (hne _ hl)]
    exact hl
  · dsimp only [LocalTable.setIndex, LocalTable.setObject]
    have hother : ∀ r, r < s.table.size → s.table.ieIndex r ≠ index := by
      intro r hr heq
      by_cases h0 : s.table.ieIndex r = 0
      · omega
      · exact hne _ (hp.sound r hr id h0) heq
    by_cases hpe : p = e <;> by_cases hqe : q = e
    · exact fun _ _ => hpe.trans hqe.symm
    · rw [hpe, update_self, update_of_ne hqe]
      exact fun _ heq => absurd heq.symm (hother q hqn)
    · rw [hqe, update_self, update_of_ne hpe]
      exact fun _ heq => absurd heq (hother p hpn)
    · rw [update_of_ne hpe, update_of_ne hqe]
      exact hp.unique p q hpn hqn id id
  · dsimp only [LocalTable.setIndex, LocalTable.setObject, LocalTable.home]
    rcases hcase i hi with rfl | ⟨hii, hi'⟩
    · refine ⟨e, hen, id, update_self .., fun q hq hd => Or.inr ?_⟩
      rw [update_self] at hd
      by_cases hqe : q = e
      · rw [hqe] at hd
        exact absurd hd (lt_irrefl _)
      · rw [update_of_ne hqe]
        exact hnear q hq hd
    obtain ⟨p, hpn, -, hpi, hpath⟩ := hp.reach i hi'
    have hpe : p ≠ e := by
      rintro rfl
      have := (hp.range i hi').1
      omega
    refine ⟨p, hpn, id, by rw [update_of_ne hpe, hpi], fun q hq hd => Or.inr ?_⟩
    rw [update_of_ne hii] at hd
    by_cases hqe : q = e
    · rw [hqe, update_self]
      omega
    · rw [update_of_ne hqe]
      exact (hpath q hq hd).resolve_left id

/-- How far slot `p` is from the home of the object of index `i`. -/
abbrev way (t : LocalTable) (i p : ℕ) : ℕ := dist t.size (t.home (t.ieObject i)) p

/-- Between the hole `h` and slot `d` nothing is empty or displaced. -/
def Passed (t : LocalTable) (h d : ℕ) : Prop :=
  ∀ q, q < t.size → q ≠ h → dist t.size h q < dist t.size h d →
    t.ieIndex q ≠ 0 ∧ way t (t.ieIndex q) q ≤ way t (t.ieIndex q) h

theorem displaced_iff {n a : ℕ} (hd : d < n) (hh : h < n) (ha : a < n) (hne : d ≠ h) :
    LocalTable.displaced d h a = true ↔ dist n a h < dist n a d := by
  unfold LocalTable.displaced Probing.dist
  split_ifs <;> simp <;> omega

theorem nextDisplaced_spec {e : ℕ} (hh : h < t.size) (he : e < t.size) (hne : e ≠ h)
    (hzero : t.ieIndex e = 0) :
    ∃ d, d < t.size ∧ d ≠ h ∧ t.nextDisplaced h = some d ∧ dist t.size h d ≤ dist t.size h e ∧
      (t.ieIndex d = 0 ∨ way t (t.ieIndex d) h < way t (t.ieIndex d) d) ∧ Passed t h d := by
  have hhome := home_lt (t := t) (by omega)
  obtain ⟨d, hdn, ⟨hdh, hstop⟩, hnear⟩ := exists_nearest (n := t.size) h
    (P := fun d => d ≠ h ∧ (t.ieIndex d = 0 ∨ way t (t.ieIndex d) h < way t (t.ieIndex d) d))
    ⟨e, he, hne, Or.inl hzero⟩
  have hpass : Passed t h d := by
    intro q hq hqh hlt
    have := hnear q hq hlt
    push Not at this
    exact this hqh
  refine ⟨d, hdn, hdh, ?_, ?_, hstop, hpass⟩
  · have hd := dist_next hh hdn hdh
    have hdlt := dist_lt hh hdn
    refine probe_eq (next_lt hh) hdn ?_ (fun q hq hlt => ?_) (by omega)
    · simpa [displaced_iff hdn hh (hhome _) hdh] using hstop
    -- the hole is passed last
    have hqh : q ≠ h := by
      rintro rfl
      have hlast : dist t.size (next t.size q) q + 1 = t.size := by
        unfold Probing.dist next
        split_ifs <;> omega
      omega
    obtain ⟨h0, hle⟩ := hpass q hq hqh (by rw [dist_next hh hq hqh, hd]; omega)
    have hdis : LocalTable.displaced q h (t.home (t.ieObject (t.ieIndex q))) = false := by
      rw [← Bool.not_eq_true, displaced_iff hq hh (hhome _) hqh]
      exact not_lt.mpr hle
    simp [h0, hdis]
  · by_contra hlt
    exact (hpass e he hne (by omega)).1 hzero

theorem Probed.close (hp : Probed t live (· = h)) (hh : h < t.size) (hd : d < t.size)
    (hdh : d ≠ h) (hzero : t.ieIndex d = 0)
    (hpass : Passed t h d) : Probed (t.setIndex h 0) live fun _ => False := by
  have hset : ∀ p, (t.setIndex h 0).ieIndex p ≠ 0 →
      p ≠ h ∧ (t.setIndex h 0).ieIndex p = t.ieIndex p := by
    intro p h0
    by_cases hph : p = h
    · rw [hph] at h0
      exact absurd (update_self ..) h0
    · exact ⟨hph, update_of_ne hph ..⟩
  refine ⟨hp.range, hp.objects, fun p hpn _ h0 => ?_, fun p q hpn hqn _ _ h0 heq => ?_,
    fun i hi => ?_⟩
  · obtain ⟨hph, hpe⟩ := hset p h0
    rw [hpe] at h0 ⊢
    exact hp.sound p hpn hph h0
  · obtain ⟨hph, hpe⟩ := hset p h0
    obtain ⟨hqh, hqe⟩ := hset q (heq ▸ h0)
    rw [hpe] at h0 heq
    exact hp.unique p q hpn hqn hph hqh h0 (heq.trans hqe)
  · obtain ⟨p, hpn, hph, hpi, hpath⟩ := hp.reach i hi
    have hhome := home_lt (t := t) (by omega) (t.ieObject i)
    refine ⟨p, hpn, id, (update_of_ne hph ..).trans hpi, fun q hq hlt => Or.inr ?_⟩
    have hqh : q ≠ h := by
      rintro rfl
      -- `i` is passed before `d`, or `d` is on the way to it
      have hpd : p ≠ d := by
        rintro rfl
        have := (hp.range i hi).1
        omega
      have hne : dist t.size q p ≠ dist t.size q d := fun heq => hpd (by
        have := dist_add (n := t.size) hq hpn hd heq.ge
        exact (dist_eq_zero hd).mp (by omega))
      rcases lt_or_gt_of_ne hne with hlt' | hgt
      · have := (hpass p hpn hph hlt').2
        rw [hpi] at this
        exact absurd hlt (not_lt.mpr this)
      have hbet := dist_between hhome hq hpn hd hlt.le hgt.le
      have hall := dist_between hhome hq hpn hpn hlt.le le_rfl
      rcases hpath d hd (by omega) with hdq | h0
      · exact hdh hdq
      · exact h0 hzero
    rw [show (t.setIndex h 0).ieIndex q = t.ieIndex q from update_of_ne hqh ..]
    exact (hpath q hq hlt).resolve_left hqh

theorem Probed.move (hp : Probed t live (· = h)) (hh : h < t.size) (hd : d < t.size)
    (hdh : d ≠ h) (h0 : t.ieIndex d ≠ 0)
    (hdis : way t (t.ieIndex d) h < way t (t.ieIndex d) d) :
    Probed (t.setIndex h (t.ieIndex d)) live (· = d) := by
  have hself : (t.setIndex h (t.ieIndex d)).ieIndex h = t.ieIndex d := update_self ..
  have hother : ∀ p, p ≠ h → (t.setIndex h (t.ieIndex d)).ieIndex p = t.ieIndex p :=
    fun p hph => update_of_ne hph ..
  refine ⟨hp.range, hp.objects, fun p hpn hpd hp0 => ?_, fun p q hpn hqn hpd hqd hp0 heq => ?_,
    fun i hi => ?_⟩
  · by_cases hph : p = h
    · rw [hph, hself]
      exact hp.sound d hd hdh h0
    · rw [hother p hph] at hp0 ⊢
      exact hp.sound p hpn hph hp0
  · by_cases hph : p = h <;> by_cases hqh : q = h
    · exact hph.trans hqh.symm
    · rw [hph, hself, hother q hqh] at heq
      exact absurd (hp.unique d q hd hqn hdh hqh h0 heq).symm hqd
    · rw [hqh, hself, hother p hph] at heq
      exact absurd (hp.unique d p hd hpn hdh hph h0 heq.symm).symm hpd
    · rw [hother p hph, hother q hqh] at heq
      rw [hother p hph] at hp0
      exact hp.unique p q hpn hqn hph hqh hp0 heq
  · obtain ⟨p, hpn, hph, hpi, hpath⟩ := hp.reach i hi
    by_cases hpd : p = d
    · -- the index that moves: the way to the hole is the first part of its way
      subst hpd
      rw [hpi] at hdis
      refine ⟨h, hh, Ne.symm hdh, hself.trans hpi, fun q hq hlt => Or.inr ?_⟩
      have hqh : q ≠ h := by
        rintro rfl
        exact lt_irrefl _ hlt
      rw [hother q hqh]
      exact (hpath q hq (lt_trans hlt hdis)).resolve_left hqh
    refine ⟨p, hpn, hpd, (hother p hph).trans hpi, fun q hq hlt => Or.inr ?_⟩
    by_cases hqh : q = h
    · rw [hqh, hself]
      exact h0
    · rw [hother q hqh]
      exact (hpath q hq hlt).resolve_left hqh

/-- **The hole is filled**, in fewer rounds than there are slots. -/
theorem fillHole_spec (fuel : ℕ) (t : LocalTable) (h e : ℕ) (hp : Probed t live (· = h))
    (hh : h < t.size) (he : e < t.size) (hne : e ≠ h) (hzero : t.ieIndex e = 0)
    (hfuel : dist t.size h e ≤ fuel) :
    ∃ t', LocalTable.fillHole fuel t h = some t' ∧ Probed t' live (fun _ => False) ∧
      t'.size = t.size ∧ t'.ieObject = t.ieObject := by
  induction fuel generalizing t h with
  | zero => exact absurd ((dist_eq_zero hh).mp (Nat.le_zero.mp hfuel)) hne
  | succ fuel ih =>
    obtain ⟨d, hd, hdh, hnext, hle, hstop, hpass⟩ := nextDisplaced_spec hh he hne hzero
    rw [LocalTable.fillHole, hnext, Option.bind_some]
    by_cases h0 : t.ieIndex d = 0
    · rw [if_pos h0]
      exact ⟨_, rfl, hp.close hh hd hdh h0 hpass, rfl, rfl⟩
    rw [if_neg h0]
    have hed : e ≠ d := by
      rintro rfl
      exact h0 hzero
    have hpos : dist t.size h d ≠ 0 := fun hd0 => hdh ((dist_eq_zero hh).mp hd0)
    have hsum := dist_add hh he hd hle
    refine ih (t.setIndex h (t.ieIndex d)) d (hp.move hh hd hdh h0 (hstop.resolve_left h0)) hd he
      hed ((update_of_ne hne ..).trans hzero) ?_
    change dist t.size d e ≤ fuel
    omega

/-- **A deletion** takes the index out and no other. -/
theorem Inv.delete (h : s.Inv) (ha : s.Admissible (.delete obj index)) :
    ∃ s', s.step (.delete obj index) = some s' ∧ s'.Inv := by
  obtain ⟨hlive, rfl⟩ := ha
  have hp := h.2
  have hindex := hp.range index hlive
  have hhome := home_lt (t := s.table) (by omega) (s.table.ieObject index)
  obtain ⟨p, hpn, -, hpi, hpath⟩ := hp.reach index hlive
  have hprobe : probe s.table.size (fun h => s.table.ieIndex h == index) s.table.size
      (s.table.home (s.table.ieObject index)) = some p := by
    refine probe_eq hhome hpn (by simp [hpi]) (fun q hq hlt => ?_) (dist_lt hhome hpn)
    have hq0 := (hpath q hq hlt).resolve_left id
    refine beq_false_of_ne fun heq => ?_
    rw [hp.unique q p hq hpn id id hq0 (heq.trans hpi.symm)] at hlt
    exact lt_irrefl _ hlt
  have hcase : ∀ i, update s.live index false i = true → i ≠ index ∧ s.live i = true := by
    intro i hi
    by_cases heq : i = index
    · rw [heq, update_self] at hi
      cases hi
    · rw [update_of_ne heq] at hi
      exact ⟨heq, hi⟩
  have hhole : Probed s.table (update s.live index false) (· = p) := by
    refine ⟨fun i hi => hp.range i (hcase i hi).2,
      fun i j hi hj => hp.objects i j (hcase i hi).2 (hcase j hj).2, fun q hq hqp h0 => ?_,
      fun q r hq hr _ _ => hp.unique q r hq hr id id, fun i hi => ?_⟩
    · have hqi : s.table.ieIndex q ≠ index := fun heq =>
        hqp (hp.unique q p hq hpn id id h0 (heq.trans hpi.symm))
      rw [update_of_ne hqi]
      exact hp.sound q hq id h0
    · obtain ⟨q, hq, -, hqi, hqpath⟩ := hp.reach i (hcase i hi).2
      refine ⟨q, hq, ?_, hqi, fun r hr hlt => Or.inr ((hqpath r hr hlt).resolve_left id)⟩
      rintro rfl
      exact (hcase i hi).1 (hqi.symm.trans hpi)
  obtain ⟨e, he, hep, hzero⟩ := hhole.exists_empty hpn hindex (update_self ..)
  obtain ⟨t', hfill, hp', hsize, -⟩ :=
    fillHole_spec s.table.size s.table p e hhole hpn he hep hzero (dist_lt hpn he).le
  refine ⟨⟨t', update s.live index false⟩, ?_, hsize ▸ h.1, hp'⟩
  rw [LocalHash.step, LocalTable.ipcHashLocalDelete, hprobe, Option.bind_some, hfill,
    Option.map_some]

theorem Inv.write (h : s.Inv) (ha : s.Admissible (.write index obj)) :
    ∃ s', s.step (.write index obj) = some s' ∧ s'.Inv := by
  have hp := h.2
  have hobj : ∀ i, s.live i = true → update s.table.ieObject index obj i =
      s.table.ieObject i := by
    intro i hi
    refine update_of_ne ?_ ..
    rintro rfl
    rw [show s.live i = false from ha] at hi
    cases hi
  refine ⟨_, rfl, h.1, hp.range, fun i j hi hj => ?_, hp.sound, hp.unique, fun i hi => ?_⟩
  · dsimp only [LocalTable.setObject]
    rw [hobj i hi, hobj j hj]
    exact hp.objects i j hi hj
  · dsimp only [LocalTable.setObject, LocalTable.home]
    rw [hobj i hi]
    exact hp.reach i hi

theorem Inv.step (s : LocalHash) (op : HashOp) (h : s.Inv) (ha : s.Admissible op) :
    ∃ s', s.step op = some s' ∧ s'.Inv := by
  cases op with
  | insert obj index => exact h.insert ha
  | delete obj index => exact h.delete ha
  | write index obj => exact h.write ha

theorem inv_empty {size : ℕ} (hsize : 2 ≤ size) (objects : ℕ → ℕ) : (empty size objects).Inv :=
  ⟨hsize, nofun, nofun, fun _ _ _ h0 => absurd rfl h0,
    fun _ _ _ _ _ _ h0 => absurd rfl h0, nofun⟩

/-- **The reverse hash after every run**: the loops of all operations end, and lookups find exactly what
is in the table. -/
theorem hash_exact_of_run (size : ℕ) (hsize : 2 ≤ size) (objects : ℕ → ℕ) (ops : List HashOp)
    (hops : Trace.Meets LocalHash.step Admissible (empty size objects) ops) :
    ∃ s, Trace.run LocalHash.step (empty size objects) ops = some s ∧ s.Exact := by
  obtain ⟨s, hrun, hinv⟩ := Trace.completes Inv.step ops _ (inv_empty hsize objects) hops
  refine ⟨s, hrun, hinv.lookup, fun i hi => ?_⟩
  obtain ⟨p, hpn, -, hpi, hpath⟩ := hinv.2.reach i hi
  exact ⟨p, hpn, hpi, fun q hq hlt => (hpath q hq hlt).resolve_left id⟩

/-- Two objects with one home; the first of them is deleted, and the second moves into its slot. -/
def clump : List HashOp := [.insert 192 1, .insert 448 2, .delete 192 1]

theorem hash_exact_of_clump :
    ∃ s, Trace.run LocalHash.step (empty 4 fun _ => 0) clump = some s ∧ s.Exact := by
  refine hash_exact_of_run 4 (by decide) (fun _ => 0) clump ?_
  refine .cons ⟨by decide, by decide, by decide, rfl, nofun⟩ rfl ?_
  refine .cons ⟨by decide, by decide, by decide, rfl, fun i _ => ?_⟩ rfl ?_
  · change update (fun _ => 0) 1 192 i ≠ 448
    by_cases h1 : i = 1 <;> simp [h1]
  exact .cons ⟨rfl, rfl⟩ rfl trivial

end LocalHash

end Osfmk

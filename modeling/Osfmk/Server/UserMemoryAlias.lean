import Osfmk.Lib.Trace
import Osfmk.Server.UserMemoryFresh

/-!
# What a lookup hands out

The calls of the user-memory cache, one after the other: a lookup, an unlock, a change of the user's
mappings with the flush that follows it, the end of a task.  A lookup that returns a region returns the
alias of the range that was asked for, if the range does not reach the last page of the address space,
a region that is extended keeps its protection, and `insert_mru` finds its oldest fresh region.
-/

open List Option

open Function (update)

namespace Osfmk

namespace Cache

variable {T R : Type} [DecidableEq T] [DecidableEq R]

def userMemorySlowLookup (s : Cache T R) (task : T) (addr size : ℕ) (svrAddr : Option ℕ) (new : R) :
    Option (Cache T R × Option R) :=
  match s.find task addr size with
  | .miss => s.missed task addr size svrAddr new
  | .short r => s.extended r addr size svrAddr
  | .whole r => (s.touch r).map fun s => (s, some r)

/-- `user_memory_lookup`; `svrAddr` is where the kernel finds room, and `new` what `kmalloc` returns. -/
def userMemoryLookup (s : Cache T R) (task : T) (addr size : ℕ) (prot : VmProt)
    (svrAddr : Option ℕ) (new : R) : Option (Cache T R × ℕ × Option R) :=
  match s.hinted task addr size with
  | some r => s.finish addr prot r
  | none =>
    (s.userMemorySlowLookup task addr size svrAddr new).bind fun m => m.1.finishSlow task addr prot m.2

/-- The walk of `user_memory_flush_area` along the list of a task. -/
def flushList (start stop : ℕ) : List R → Cache T R → Option (Cache T R)
  | [], s => some s
  | r :: l, s =>
    (s.regions r).bind fun x =>
      if inArea x start stop then (s.flushRegion r).bind (flushList start stop l)
      else flushList start stop l s

def userMemoryFlushArea (s : Cache T R) (task : T) (start stop : ℕ) : Option (Cache T R) :=
  flushList start stop (s.intask task) s

def userMemoryFlushTask (s : Cache T R) (task : T) : Option (Cache T R) :=
  (unlinkAll (s.intask task) s).bind fun s1 =>
    unmapAll (s1.intask task) { s1 with intask := update s1.intask task [] }

/-- A page that has an address in `[start, stop)`. -/
def InRange (p start stop : ℕ) : Prop := p * umPage < stop ∧ start < (p + 1) * umPage

instance (p start stop : ℕ) : Decidable (InRange p start stop) := by
  unfold InRange
  infer_instance

/-- The user's mappings change within a range. -/
def protect (s : Cache T R) (task : T) (start stop : ℕ) (perm : ℕ → Option VmProt) : Cache T R :=
  { s with user := fun t p =>
      if t = task ∧ InRange p start stop then perm p else s.user t p }

/-- A call. -/
inductive Call (T R : Type)
  | lookup (task : T) (addr size : ℕ) (prot : VmProt) (svrAddr : Option ℕ) (new : R)
  | unlock (r : R)
  | flushArea (task : T) (start stop : ℕ) (perm : ℕ → Option VmProt)
  | flushTask (task : T)

def call (s : Cache T R) : Call T R → Option (Cache T R)
  | .lookup task addr size prot svrAddr new =>
    (s.userMemoryLookup task addr size prot svrAddr new).map fun m => m.1
  | .unlock r => s.userMemoryUnlock r
  | .flushArea task start stop perm =>
    (s.protect task start stop perm).userMemoryFlushArea task start stop
  | .flushTask task => s.userMemoryFlushTask task

/-- `user_memory.c` before any lookup. -/
structure Initial (s : Cache T R) : Prop where
  regions : ∀ r, s.regions r = none
  chain : ∀ h, s.chain h = []
  intask : ∀ t, s.intask t = []
  mru : s.mru = []
  hint1 : ∀ t, s.umHint1 t = none
  hint2 : ∀ t, s.umHint2 t = none

/-- A task may do `prot` with a page. -/
def Permits (s : Cache T R) (task : T) (prot : VmProt) (p : ℕ) : Prop :=
  ∃ q, s.user task p = some q ∧ prot &&& q = prot

/-- **What a lookup promises**: the range lies in the region and in the address space, the address is the
alias of `addr`, and the task may do what was asked for with each page. -/
structure Aliases (s : Cache T R) (task : T) (addr size : ℕ) (prot : VmProt) (a : ℕ) (r : R) : Prop where
  inSpace : addr + size ≤ 2 ^ 32
  inRegion : ∃ x, s.regions r = some x ∧ x.task = task ∧ x.userPage * umPage ≤ addr ∧
    addr + size ≤ x.userPage * umPage + x.size ∧ a + x.userPage * umPage = x.svrAddr + addr
  pages : ∀ p, addr / umPage ≤ p → p * umPage < addr + size →
    s.server (a / umPage + (p - addr / umPage)) = some (task, p) ∧ s.Permits task prot p

/-- **The condition on a lookup**: the range does not reach the last page of the address space; if a
region has to be extended, then the pages that are asked for allow what the region does; and if one is
inserted, then `oldest_fresh` is not a region that has been freed. -/
def Sound (s : Cache T R) : Call T R → Prop
  | .lookup task addr size _ svrAddr _ =>
    addr + size ≤ 2 ^ 32 - umPage ∧
      (∀ r x, s.hinted task addr size = none → s.find task addr size = .short r →
        s.regions r = some x → ∀ p, addr / umPage ≤ p → p * umPage < addr + size →
          s.Permits task x.prot p) ∧
      (s.hinted task addr size = none → s.find task addr size = .miss →
        (s.mapRegion task addr size svrAddr).isSome = true → s.Ready)
  | _ => True

/-- What is known of a region: it ends before the last page, and its task may do with its pages what it
says. -/
structure Honest (s : Cache T R) (x : UmRegion T) : Prop where
  bounded : x.userPage * umPage + x.size ≤ 2 ^ 32 - umPage
  permits : ∀ i < x.size / umPage, s.Permits x.task x.prot (x.userPage + i)

/-- **What holds between two calls.** -/
structure Inv (s : Cache T R) : Prop where
  lists : s.Lists
  frames : s.Frames
  linked : ∀ r x, s.regions r = some x → r ∈ s.mru
  honest : ∀ r x, s.regions r = some x → s.Honest x

variable {s s' : Cache T R} {r : R} {x : UmRegion T} {task : T} {addr size : ℕ} {prot : VmProt}

section

omit [DecidableEq T] [DecidableEq R]

theorem Initial.inv (h : s.Initial) : Inv s := by
  have hno : ∀ r x, ¬ s.Linked r x := by
    intro r x hx
    rw [Linked, h.regions] at hx
    cases hx.1
  refine ⟨⟨?_, fun k r => ?_, fun t r => ?_, ?_, fun k => ?_, fun t => ?_, fun t r hr => ?_,
    fun t r hr => ?_⟩, ⟨fun r x hx => ?_, fun r q x y p hx => ?_⟩, fun r x hx => ?_, fun r x hx => ?_⟩
  · simp [h.mru]
  · simp [h.chain, hno]
  · simp [h.intask, hno]
  · simp [h.mru]
  · simp [h.chain]
  · simp [h.intask]
  · simp [h.hint1] at hr
  · simp [h.hint2] at hr
  all_goals
    rw [h.regions] at hx
    cases hx

theorem permits_curProtection {page : ℕ} : ∀ {n i : ℕ}, i < n →
    (s.user task (page + i)).isSome = true → s.Permits task (s.curProtection task page n) (page + i) := by
  intro n i hi hsome
  obtain ⟨q, hq⟩ := isSome_iff_exists.mp hsome
  refine ⟨q, hq, ?_⟩
  induction n with
  | zero => omega
  | succ n ih =>
    rw [curProtection]
    by_cases hin : i = n
    · rw [← hin, hq, getD_some, BitVec.and_assoc, BitVec.and_self]
    · have hlt : i < n := by omega
      rw [BitVec.and_assoc, BitVec.and_comm _ q, ← BitVec.and_assoc, ih hlt]

theorem Inv.of_less (h : Inv s) (hless : Less s s') : Inv s' := by
  refine ⟨hless.lists, hless.frames, fun r x hx => ?_, fun r x hx => ?_⟩
  · exact (hless.mru r).mpr ⟨h.linked r x (hless.sub r x hx), by rw [hx]; rfl⟩
  · have hh := h.honest r x (hless.sub r x hx)
    refine ⟨hh.bounded, fun i hi => ?_⟩
    unfold Permits
    rw [hless.user]
    exact hh.permits i hi

end

omit [DecidableEq T] in
theorem Inv.of_looked (h : Inv s) (hlook : Looked s s' r x) (hx : s.Honest x) : Inv s' := by
  have huser : ∀ y, s.Honest y → s'.Honest y := by
    intro y hy
    refine ⟨hy.bounded, fun i hi => ?_⟩
    unfold Permits
    rw [hlook.user]
    exact hy.permits i hi
  refine ⟨hlook.lists, hlook.frames, fun q y hy => ?_, fun q y hy => ?_⟩
  · rcases hlook.sub q y hy with ⟨rfl, -⟩ | hy'
    · exact hlook.linked.2
    · by_cases hq : q = r
      · rw [hq]
        exact hlook.linked.2
      · exact (hlook.mru q hq).mpr ⟨h.linked q y hy', by rw [hy]; rfl⟩
  · rcases hlook.sub q y hy with ⟨-, rfl⟩ | hy'
    · exact huser _ hx
    · exact huser y (h.honest q y hy')

theorem mapSize_eq (h : addr + size ≤ 2 ^ 32 - umPage) :
    addr + size ≤ addr / umPage * umPage + mapSize addr size ∧
      addr / umPage * umPage + mapSize addr size ≤ 2 ^ 32 - umPage ∧
      ∀ p, addr / umPage ≤ p → p < addr / umPage + mapSize addr size / umPage →
        p * umPage < addr + size := by
  unfold mapSize alignAddrUp alignAddrDown umWord umPage at *
  refine ⟨by omega, by omega, fun p hp hlt => ?_⟩
  omega

/-- A region begins with the page of `addr` and covers the range. -/
structure Spans (s : Cache T R) (r : R) (x : UmRegion T) (task : T) (addr size : ℕ) : Prop where
  linked : s.Linked r x
  task : x.task = task
  start : x.userPage * umPage ≤ addr
  stop : addr + size ≤ x.userPage * umPage + x.size

variable {res : Option R} {svr : Option ℕ} {new : R} {a start stop : ℕ}

section

variable (h : Inv s)
include h

theorem Inv.missed (hend : addr + size ≤ 2 ^ 32 - umPage)
    (hm : s.missed task addr size svr new = some (s', res)) :
    Inv s' ∧ ∀ r, res = some r → ∃ x, s'.Spans r x task addr size := by
  rcases missed_looked h.lists h.frames hm with ⟨rfl, rfl⟩ | ⟨rfl, -, s1, x, hmap, hlook⟩
  · exact ⟨h, nofun⟩
  obtain ⟨hre, -, ht, hp, hsz, -, hprot⟩ := mapRegion_eq hmap
  obtain ⟨hcover, hbound, -⟩ := mapSize_eq hend
  have hx : s.Honest x := by
    refine ⟨by rw [hp, hsz]; exact hbound, fun i hi => ?_⟩
    have hsome := (hre.2.2.2.2 i hi).1
    rw [Nat.mul_div_cancel _ (by decide)] at hsome
    rw [hprot, ht]
    exact permits_curProtection hi hsome
  refine ⟨h.of_looked hlook hx, fun r hr => ?_⟩
  cases hr
  refine ⟨x, hlook.linked, ht, ?_, ?_⟩
  · rw [hp]
    exact Nat.div_mul_le_self addr umPage
  · rw [hp, hsz]
    exact hcover

theorem Inv.extended (hx : s.Linked r x)
    (ht : x.task = task) (hp : x.userPage = addr / umPage) (hend : addr + size ≤ 2 ^ 32 - umPage)
    (hperm : ∀ p, addr / umPage ≤ p → p * umPage < addr + size → s.Permits task x.prot p)
    (hm : s.extended r addr size svr = some (s', res)) :
    Inv s' ∧ ∀ q, res = some q → ∃ y, s'.Spans q y task addr size := by
  rcases extended_looked h.lists h.frames hx hm with ⟨rfl, rfl⟩ | ⟨rfl, s1, y, hmap, hlook, -⟩
  · exact ⟨h, nofun⟩
  obtain ⟨-, -, -, -, hsz, -, -⟩ := mapRegion_eq hmap
  obtain ⟨hcover, hbound, hpages⟩ := mapSize_eq hend
  -- the new range ends where the one of a new region would
  have hsize : y.size = mapSize addr size := by
    rw [hsz, pagenumToAddr_of_mapped (h.frames.mapped r x hx.1), hp]
    unfold mapSize alignAddrUp alignAddrDown pageoffset pagenumToAddr addrToPagenum umWord umPage at *
    omega
  have hy : s.Honest { x with svrAddr := y.svrAddr, size := y.size } := by
    refine ⟨?_, fun i hi => ?_⟩
    · simp only [hp, hsize]
      exact hbound
    · simp only [hsize] at hi
      simp only [hp, ht]
      exact hperm _ (Nat.le_add_right _ _) (hpages _ (Nat.le_add_right _ _) (by omega))
  refine ⟨h.of_looked hlook hy, fun q hq => ?_⟩
  cases hq
  refine ⟨_, hlook.linked, ht, ?_, ?_⟩
  · simp only [hp]
    exact Nat.div_mul_le_self addr umPage
  · simp only [hp, hsize]
    exact hcover

theorem Inv.slowLookup
    (hs : s.Sound (.lookup task addr size prot svr new)) (hh : s.hinted task addr size = none)
    (hm : s.userMemorySlowLookup task addr size svr new = some (s', res)) :
    Inv s' ∧ ∀ r, res = some r → ∃ x, s'.Spans r x task addr size := by
  unfold userMemorySlowLookup at hm
  have hend : addr + size ≤ 2 ^ 32 - umPage := hs.1
  split at hm
  · exact h.missed hend hm
  · next r hfind =>
    have hfound := hfind
    unfold find at hfind
    split at hfind
    · cases hfind
    next q hq =>
    split at hfind
    · obtain rfl := Found.short.inj hfind
      obtain ⟨x, hx, ht, hp⟩ := linked_of_onChain h.lists hq
      exact h.extended hx ht hp hend (hs.2.1 q x hh hfound hx.1) hm
    · cases hfind
  · next r hfind =>
    unfold find at hfind
    split at hfind
    · cases hfind
    next q hq =>
    split at hfind
    · cases hfind
    next hshort =>
    obtain rfl := Found.whole.inj hfind
    obtain ⟨x, hx, ht, hp⟩ := linked_of_onChain h.lists hq
    obtain ⟨s1, h1, he⟩ := map_eq_some_iff.mp hm
    obtain ⟨rfl, rfl⟩ := Prod.mk.inj he
    have hlook := touch_looked h.lists h.frames hx h1
    refine ⟨h.of_looked hlook (h.honest q x hx.1), fun r hr => ?_⟩
    cases hr
    rw [hx.1, any_some, decide_eq_true_eq, not_lt] at hshort
    refine ⟨x, hlook.linked, ht, ?_, ?_⟩
    · rw [hp]
      exact Nat.div_mul_le_self addr umPage
    · rw [hp]
      unfold pageoffset pagenumToAddr addrToPagenum umWord umPage at *
      omega

theorem Inv.setRefCount (hx : s.regions r = some x) (n : ℕ) :
    Inv (s.setRegion r { x with refCount := n }) := by
  have hold : ∀ q y, (s.setRegion r { x with refCount := n }).regions q = some y →
      ∃ z m, s.regions q = some z ∧ y = { z with refCount := m } := by
    intro q y hy
    simp only [setRegion, Function.update_apply] at hy
    split at hy
    · next hq =>
      rw [← some.inj hy, hq]
      exact ⟨x, n, hx, rfl⟩
    · exact ⟨y, y.refCount, hy, rfl⟩
  refine ⟨h.lists.setRegion hx rfl rfl, h.frames.setRefCount hx n, fun q y hy => ?_, fun q y hy => ?_⟩
  · obtain ⟨z, m, hz, -⟩ := hold q y hy
    exact h.linked q z hz
  · obtain ⟨z, m, hz, rfl⟩ := hold q y hy
    have hh := h.honest q z hz
    exact ⟨hh.bounded, hh.permits⟩

/-- **What a lookup hands out, once it has found the region.** -/
theorem Inv.finish (hsp : s.Spans r x task addr size)
    (hm : s.finish addr prot r = some (s', a, res)) :
    Inv s' ∧ (size ≠ 0 → ∀ q, res = some q → s'.Aliases task addr size prot a q) := by
  obtain ⟨hx, ht, hlo, hhi⟩ := hsp
  unfold Cache.finish at hm
  rw [hx.1, map_some] at hm
  split at hm
  · obtain ⟨rfl, rfl, rfl⟩ := Prod.mk.injEq _ _ _ _ ▸ some.inj hm
    exact ⟨h, nofun⟩
  next hprot =>
  rw [not_not] at hprot
  obtain ⟨rfl, rfl, rfl⟩ := Prod.mk.injEq _ _ _ _ ▸ some.inj hm
  have hmap := h.frames.mapped r x hx.1
  have hh := h.honest r x hx.1
  have hsvr := hmap.svrEnd
  have hbound := hh.bounded
  refine ⟨h.setRefCount hx.1 _, fun hsize q hq => ?_⟩
  cases hq
  -- the address in the server does not wrap around
  have ha : umWord (x.svrAddr + addr + 2 ^ 32 - pagenumToAddr x.userPage) + x.userPage * umPage =
      x.svrAddr + addr := by
    rw [pagenumToAddr_of_mapped hmap]
    unfold umWord
    omega
  refine ⟨by omega, ⟨_, Function.update_self _ _ _, ht, hlo, hhi, ha⟩, fun p hp hpend => ?_⟩
  have haligned := hmap.svrAligned
  have hsz := hmap.sizeAligned
  have hi : p - x.userPage < x.size / umPage := by
    unfold umPage at *
    omega
  have hpage : x.userPage + (p - x.userPage) = p := by
    unfold umPage at *
    omega
  have hfar : umWord (x.svrAddr + addr + 2 ^ 32 - pagenumToAddr x.userPage) / umPage +
      (p - addr / umPage) = x.svrAddr / umPage + (p - x.userPage) := by
    generalize umWord (x.svrAddr + addr + 2 ^ 32 - pagenumToAddr x.userPage) = a at ha
    unfold umPage at *
    omega
  constructor
  · rw [hfar]
    have hshare := hmap.shares _ hi
    rwa [hpage, ht] at hshare
  · obtain ⟨q, hq, hand⟩ := hh.permits _ hi
    rw [hpage, ht] at hq
    refine ⟨q, hq, ?_⟩
    rw [← hprot, BitVec.and_assoc, hand]

omit [DecidableEq R] in
theorem spans_of_goodHint {hint : Option R} (hend : addr + size ≤ 2 ^ 32 - umPage)
    (hlinked : ∀ q, hint = some q → ∃ x, s.Linked q x ∧ x.task = task)
    (hg : s.goodHint hint addr size = some r) : ∃ x, s.Spans r x task addr size := by
  obtain ⟨hr, hgood⟩ := filter_eq_some_iff.mp hg
  obtain ⟨x, hx, ht⟩ := hlinked r hr
  rw [hx.1, any_some, inHint, Bool.and_eq_true, decide_eq_true_eq, decide_eq_true_eq,
    pagenumToAddr_of_mapped (h.frames.mapped r x hx.1)] at hgood
  refine ⟨x, hx, ht, hgood.1, ?_⟩
  unfold umWord umPage at *
  omega

/-- **A lookup keeps its promise.** -/
theorem Inv.lookup (hs : s.Sound (.lookup task addr size prot svr new))
    (hm : s.userMemoryLookup task addr size prot svr new = some (s', a, res)) :
    Inv s' ∧ (size ≠ 0 → ∀ r, res = some r → s'.Aliases task addr size prot a r) := by
  unfold userMemoryLookup at hm
  split at hm
  · next r hr =>
    obtain ⟨x, hx⟩ : ∃ x, s.Spans r x task addr size := by
      rcases or_eq_some_iff.mp hr with hg | ⟨-, hg⟩
      · exact spans_of_goodHint h hs.1 (h.lists.hint1 task) hg
      · exact spans_of_goodHint h hs.1 (h.lists.hint2 task) hg
    exact h.finish hx hm
  next hh =>
  obtain ⟨⟨s1, res1⟩, h1, hm⟩ := bind_eq_some_iff.mp hm
  obtain ⟨hi1, hsp⟩ := h.slowLookup hs hh h1
  cases res1 with
  | none =>
    obtain ⟨rfl, rfl, rfl⟩ := Prod.mk.injEq _ _ _ _ ▸ some.inj hm
    exact ⟨hi1, nofun⟩
  | some r =>
    obtain ⟨x, hx⟩ := hsp r rfl
    obtain ⟨h1, h2, hadd⟩ := addHint_eq s1 task r
    have hi2 : Inv (s1.addHint task r) := by
      refine ⟨hi1.lists.addHint hx.linked hx.task, ?_, ?_, ?_⟩
      all_goals rw [hadd]
      · exact { hi1.frames with }
      · exact hi1.linked
      · exact fun q y hy => ⟨(hi1.honest q y hy).bounded, (hi1.honest q y hy).permits⟩
    have hsp2 : (s1.addHint task r).Spans r x task addr size := by
      refine ⟨?_, hx.task, hx.start, hx.stop⟩
      rw [hadd]
      exact hx.linked
    exact hi2.finish hsp2 hm

theorem Inv.unlock (hm : s.userMemoryUnlock r = some s') : Inv s' := by
  obtain ⟨x, hx, hm⟩ := bind_eq_some_iff.mp hm
  have hi := h.setRefCount hx (x.refCount - 1)
  split at hm
  · cases hm
  dsimp only at hm
  split at hm
  · exact hi.of_less (flushRegion_less hi.lists hi.frames hm).1
  · cases hm
    exact hi

end

theorem flushList_less : ∀ (l : List R) {s s' : Cache T R}, s.Lists → s.Frames →
    flushList start stop l s = some s' →
    Less s s' ∧ ∀ r x, r ∈ l → s'.regions r = some x → inArea x start stop = false := by
  intro l
  induction l with
  | nil =>
    intro s s' hl hf h
    cases h
    exact ⟨Less.refl hl hf, fun r x hr => absurd hr not_mem_nil⟩
  | cons r l ih =>
    intro s s' hl hf h
    obtain ⟨x, hx, h⟩ := bind_eq_some_iff.mp h
    split at h
    · obtain ⟨s1, h1, h⟩ := bind_eq_some_iff.mp h
      obtain ⟨hless, hgone⟩ := flushRegion_less hl hf h1
      obtain ⟨hless', hrest⟩ := ih hless.lists hless.frames h
      refine ⟨hless.trans hless', fun q y hq hy => ?_⟩
      rcases mem_cons.mp hq with rfl | hq
      · have hy := hless'.sub q y hy
        rw [hgone] at hy
        cases hy
      · exact hrest q y hq hy
    · next harea =>
      obtain ⟨hless, hrest⟩ := ih hl hf h
      refine ⟨hless, fun q y hq hy => ?_⟩
      rcases mem_cons.mp hq with rfl | hq
      · have hy := hless.sub q y hy
        rw [hx] at hy
        rw [← some.inj hy]
        simpa using harea
      · exact hrest q y hq hy

/-- **After the flush no region of the task is left that the change touches.** -/
theorem Inv.flushArea {perm : ℕ → Option VmProt} (h : Inv s)
    (hm : (s.protect task start stop perm).userMemoryFlushArea task start stop = some s') : Inv s' := by
  have hl : (s.protect task start stop perm).Lists :=
    { h.lists with }
  have hf : (s.protect task start stop perm).Frames := ⟨h.frames.mapped, h.frames.apart⟩
  obtain ⟨hless, hrest⟩ := flushList_less _ hl hf hm
  have hsub : ∀ r x, s'.regions r = some x → s.regions r = some x := hless.sub
  have hmru : ∀ r, r ∈ s'.mru ↔ r ∈ s.mru ∧ (s'.regions r).isSome = true := hless.mru
  refine ⟨hless.lists, hless.frames, fun r x hx => ?_, fun r x hx => ?_⟩
  · exact (hmru r).mpr ⟨h.linked r x (hsub r x hx), by rw [hx]; rfl⟩
  · have hx0 := hsub r x hx
    have hh := h.honest r x hx0
    refine ⟨hh.bounded, fun i hi => ?_⟩
    obtain ⟨q, hq, hand⟩ := hh.permits i hi
    refine ⟨q, ?_, hand⟩
    rw [hless.user]
    -- a page of the region that had been changed would have been in the area
    refine (if_neg ?_).trans hq
    rintro ⟨ht, hstop, hstart⟩
    have hnot := hrest r x ((h.lists.intask task r).mpr ⟨x, ⟨hx0, h.linked r x hx0⟩, ht⟩) hx
    have hmap := h.frames.mapped r x hx0
    have hbound := hh.bounded
    have hsz := hmap.sizeAligned
    rw [inArea, pagenumToAddr_of_mapped hmap, Bool.and_eq_false_iff, decide_eq_false_iff_not,
      decide_eq_false_iff_not] at hnot
    unfold umWord umPage at *
    omega

theorem Inv.flushTask (h : Inv s) (hm : s.userMemoryFlushTask task = some s') : Inv s' := by
  obtain ⟨s1, h1, hm⟩ := bind_eq_some_iff.mp hm
  obtain ⟨hl2, hr1, hv1, hu1, -, ht1, hm1⟩ := h.lists.unlinkAll h1
  have hf2 : { s1 with intask := update s1.intask task [] }.Frames :=
    h.frames.congr hr1 hv1
  have hnot : ∀ r ∈ s1.intask task, r ∉ s1.mru := by
    intro r hr hmem
    rw [ht1] at hr
    exact ((hm1 r).mp hmem).2 hr
  obtain ⟨hl', hf', hm', hu', hsub⟩ := unmapAll_lists _ hl2 hf2 hnot hm
  refine ⟨hl', hf', fun r x hx => ?_, fun r x hx => ?_⟩
  · obtain ⟨hx, hr⟩ := hsub r x hx
    have hx0 : s.regions r = some x := hr1 ▸ hx
    rw [hm']
    exact (hm1 r).mpr ⟨h.linked r x hx0, ht1 ▸ hr⟩
  · obtain ⟨hx, -⟩ := hsub r x hx
    have hh := h.honest r x (hr1 ▸ hx)
    refine ⟨hh.bounded, fun i hi => ?_⟩
    unfold Permits
    rw [hu', show ({ s1 with intask := update s1.intask task [] } : Cache T R).user = s.user
      from hu1]
    exact hh.permits i hi

theorem Inv.call (h : Inv s) {c : Call T R} (hs : s.Sound c) (hm : s.call c = some s') : Inv s' := by
  cases c with
  | lookup t a n p v k =>
    obtain ⟨⟨s1, a1, res⟩, h1, rfl⟩ := map_eq_some_iff.mp hm
    exact (h.lookup hs h1).1
  | unlock r => exact h.unlock hm
  | flushArea t start stop perm => exact h.flushArea hm
  | flushTask t => exact h.flushTask hm

/-- **A lookup that returns a region returns the alias of the range that was asked for**, after any
calls whose lookups were sound, if it is sound itself. -/
theorem lookup_aliases (calls : List (Call T R)) {s'' : Cache T R} {svr : Option ℕ} {new : R} {a : ℕ}
    (hinit : s.Initial) (hsound : Trace.Meets Cache.call Sound s calls)
    (hrun : Trace.run Cache.call s calls = some s')
    (hs : s'.Sound (.lookup task addr size prot svr new)) (hsize : size ≠ 0)
    (hm : s'.userMemoryLookup task addr size prot svr new = some (s'', a, some r)) :
    s''.Aliases task addr size prot a r := by
  have hinv : Inv s' := Trace.invariant (P := Sound) (I := Inv)
    (fun _ _ _ h hs hm => h.call hs hm) calls s s' hinit.inv hsound hrun
  exact (hinv.lookup hs hm).2 hsize r rfl

/-- A task that may read and write its page 1, and only read its page 2. -/
def twoPages : Cache Unit ℕ where
  regions := fun _ => none
  chain := fun _ => []
  intask := fun _ => []
  mru := []
  fresh := fun _ => false
  oldestFresh := none
  umHint1 := fun _ => none
  umHint2 := fun _ => none
  pid := fun _ => 1
  machAware := fun _ => false
  user := fun _ p => if p = 1 then some 3 else if p = 2 then some 1 else none
  server := fun _ => none

theorem twoPages_initial : twoPages.Initial :=
  ⟨fun _ => rfl, fun _ => rfl, fun _ => rfl, rfl, fun _ => rfl, fun _ => rfl⟩

/-- A first lookup in page 1. -/
theorem lookup_aliases_first :
    ∃ s, twoPages.userMemoryLookup () 0x1010 16 2 (some 0x8000) 0 = some (s, 0x8010, some 0) ∧
      s.Aliases () 0x1010 16 2 0x8010 0 := by
  obtain ⟨s, hs⟩ : ∃ s, twoPages.userMemoryLookup () 0x1010 16 2 (some 0x8000) 0 =
      some (s, 0x8010, some 0) := ⟨_, rfl⟩
  refine ⟨s, hs, lookup_aliases [] twoPages_initial trivial rfl ⟨by decide, fun r x _ hf => ?_,
    fun _ _ _ hlen => ?_⟩ (by decide) hs⟩
  · cases hf
  · cases hlen

/-- **A range that wraps around.**  The hint covers one page; `addr + size` is 0xfff as a 32-bit word,
which is below its end, and the lookup hands out the region for a range of 4 GB less one byte. -/
theorem lookup_wraps :
    ∃ s s' a, Trace.run Cache.call twoPages [.lookup () 0x1000 16 1 (some 0x8000) 0] = some s ∧
      s.userMemoryLookup () 0x1000 (2 ^ 32 - 1) 1 none 1 = some (s', a, some 0) ∧
      ¬ s'.Aliases () 0x1000 (2 ^ 32 - 1) 1 a 0 := by
  refine ⟨_, _, _, rfl, rfl, fun h => ?_⟩
  have hspace := h.inSpace
  omega

/-- **A region that is extended over a read-only page.**  It keeps the protection of its first page, and
the lookup hands it out for writing. -/
theorem lookup_stale_prot :
    ∃ s s' a, Trace.run Cache.call twoPages [.lookup () 0x1000 16 2 (some 0x8000) 0] = some s ∧
      s.userMemoryLookup () 0x1000 0x1800 2 (some 0x10000) 1 = some (s', a, some 0) ∧
      ¬ s'.Aliases () 0x1000 0x1800 2 a 0 := by
  refine ⟨_, _, _, rfl, rfl, fun h => ?_⟩
  obtain ⟨q, hq, hand⟩ := (h.pages 2 (by decide) (by decide)).2
  obtain rfl : (1 : VmProt) = q := some.inj hq
  exact absurd hand (by decide)

end Cache

end Osfmk

import Osfmk.Lib.SearchTree

/-!
# The splay tree of an IPC space

`ipc/ipc_splay.c`: the entries of a space that do not fit its table are kept in a
splay tree, stored in *unassembled* form.  `ist_root` is the middle tree of the
last top-down splay, `ist_ltree`/`ist_ltreep` and `ist_rtree`/`ist_rtreep` are the
left and right trees with a pointer to the hole at their inner end; here the two
pairs are the spines of `Osfmk.Lib.SearchTree`.  `ist_name` caches the name of the
last lookup, and an operation on that name skips the splay.
-/

open List

namespace Osfmk

open BinTree

def machPortSmallest : ℕ := 0

def machPortLargest : ℕ := 2 ^ 32 - 1

variable {α : Type*}

/-- `ipc_splay_prim_lookup`: descend from `tree` towards `name`, linking the nodes
passed to the two spines. -/
def ipcSplayPrimLookup (name : ℕ) :
    BinTree ℕ α → LSpine ℕ α → RSpine ℕ α → BinTree ℕ α × LSpine ℕ α × RSpine ℕ α
  | .nil, lt, rt => (.nil, lt, rt)
  | .node l k a r, lt, rt =>
    if name = k then (.node l k a r, lt, rt)
    else if name < k then
      -- descend to left
      match l with
      | .nil => (.node .nil k a r, lt, rt)
      | .node ll lk la lr =>
        if name < lk ∧ ll.isNil = false then
          -- rotate_right, link_right
          ipcSplayPrimLookup name ll lt ((lk, la, .node lr k a r) :: rt)
        else if lk < name ∧ lr.isNil = false then
          -- link_right, link_left
          ipcSplayPrimLookup name lr ((ll, lk, la) :: lt) ((k, a, r) :: rt)
        else ipcSplayPrimLookup name (.node ll lk la lr) lt ((k, a, r) :: rt)
    else
      -- descend to right
      match r with
      | .nil => (.node l k a .nil, lt, rt)
      | .node rl rk ra rr =>
        if rk < name ∧ rr.isNil = false then
          -- rotate_left, link_left
          ipcSplayPrimLookup name rr ((.node l k a rl, rk, ra) :: lt) rt
        else if name < rk ∧ rl.isNil = false then
          -- link_left, link_right
          ipcSplayPrimLookup name rl ((l, k, a) :: lt) ((rk, ra, rr) :: rt)
        else ipcSplayPrimLookup name (.node rl rk ra rr) ((l, k, a) :: lt) rt
termination_by structural t => t

/-- `ipc_splay_prim_assemble`: put the three trees of a lookup back together, with
the middle root on top. -/
def ipcSplayPrimAssemble : BinTree ℕ α → LSpine ℕ α → RSpine ℕ α → BinTree ℕ α
  | .nil, _, _ => .nil
  | .node l k a r, lt, rt => .node (closeLeft lt l) k a (closeRight rt r)

/-- What a lookup leaves in the middle: the node with the name, or a node that has
no child on the side of the name. -/
def EndsAt (name : ℕ) : BinTree ℕ α → Prop
  | .nil => False
  | .node l k _ r => k = name ∨ (name < k ∧ l = .nil) ∨ (k < name ∧ r = .nil)

theorem toList_primLookup (name : ℕ) (t : BinTree ℕ α) (lt : LSpine ℕ α) (rt : RSpine ℕ α) :
    leftList (ipcSplayPrimLookup name t lt rt).2.1 ++ ((ipcSplayPrimLookup name t lt rt).1.toList ++
          rightList (ipcSplayPrimLookup name t lt rt).2.2)
      = leftList lt ++ (t.toList ++ rightList rt) := by
  fun_induction ipcSplayPrimLookup name t lt rt <;> simp_all

theorem endsAt_primLookup (name : ℕ) (t : BinTree ℕ α) (lt : LSpine ℕ α) (rt : RSpine ℕ α)
    (ht : t ≠ .nil) : EndsAt name (ipcSplayPrimLookup name t lt rt).1 := by
  fun_induction ipcSplayPrimLookup name t lt rt with
  | case1 => exact absurd rfl ht
  | case2 => exact .inl rfl
  | case3 => exact .inr (.inl ⟨by assumption, rfl⟩)
  | case7 => exact .inr (.inr ⟨by omega, rfl⟩)
  | _ => simp_all [isNil_eq_false]

/-- The keys of the left spine are below `name`, those of the right spine above it. -/
def SpinesApart (name : ℕ) (lt : LSpine ℕ α) (rt : RSpine ℕ α) : Prop :=
  (∀ p ∈ leftList lt, p.1 < name) ∧ ∀ p ∈ rightList rt, name < p.1

variable {l r : BinTree ℕ α} {lt : LSpine ℕ α} {rt : RSpine ℕ α} {a : α} {k name : ℕ}

theorem SpinesApart.linkRight (h : SpinesApart name lt rt) (hk : name < k)
    (hr : ∀ p ∈ r.toList, k < p.1) : SpinesApart name lt ((k, a, r) :: rt) := by
  refine ⟨h.1, fun p hp => ?_⟩
  rw [rightList_cons, mem_cons, mem_append] at hp
  rcases hp with rfl | hp | hp
  · exact hk
  · exact hk.trans (hr p hp)
  · exact h.2 p hp

theorem SpinesApart.linkLeft (h : SpinesApart name lt rt) (hk : k < name)
    (hl : ∀ p ∈ l.toList, p.1 < k) : SpinesApart name ((l, k, a) :: lt) rt := by
  refine ⟨fun p hp => ?_, h.2⟩
  rw [leftList_cons, mem_append, mem_append, mem_singleton] at hp
  rcases hp with hp | hp | rfl
  · exact h.1 p hp
  · exact (hl p hp).trans hk
  · exact hk

theorem keysSorted_node (h : KeysSorted (node l k a r).toList) :
    KeysSorted l.toList ∧ KeysSorted r.toList ∧
      (∀ p ∈ l.toList, p.1 < k) ∧ ∀ p ∈ r.toList, k < p.1 := by
  rw [toList_node, KeysSorted.append_iff, KeysSorted.cons_iff] at h
  exact ⟨h.1, h.2.1.2, fun p hp => h.2.2 p hp (k, a) mem_cons_self, h.2.1.1⟩

/-- **What a descent links to the spines is on the right side of the name.** -/
theorem spinesApart_primLookup (name : ℕ) (t : BinTree ℕ α) (lt : LSpine ℕ α)
    (rt : RSpine ℕ α) (ht : KeysSorted t.toList) (h : SpinesApart name lt rt) :
    SpinesApart name (ipcSplayPrimLookup name t lt rt).2.1
      (ipcSplayPrimLookup name t lt rt).2.2 := by
  fun_induction ipcSplayPrimLookup name t lt rt with
  | case1 => exact h
  | case2 => exact h
  | case3 => exact h
  | case7 => exact h
  | case4 k a r lt rt hne hlt ll lk la lr hc ih =>
    -- rotate_right, link_right: the old root hangs below the linked child
    obtain ⟨hl, hr, hlk, hrk⟩ := keysSorted_node ht
    obtain ⟨hll, hlr, hllk, hlrk⟩ := keysSorted_node hl
    refine ih hll (h.linkRight hc.1 fun p hp => ?_)
    have hkk : lk < k := hlk (lk, la) (by simp)
    rw [toList_node, mem_append, mem_cons] at hp
    rcases hp with hp | rfl | hp
    · exact hlrk p hp
    · exact hkk
    · exact hkk.trans (hrk p hp)
  | case5 k a r lt rt hne hlt ll lk la lr _ hc ih =>
    obtain ⟨hl, hr, hlk, hrk⟩ := keysSorted_node ht
    obtain ⟨hll, hlr, hllk, hlrk⟩ := keysSorted_node hl
    exact ih hlr ((h.linkRight hlt hrk).linkLeft hc.1 hllk)
  | case6 k a r lt rt hne hlt ll lk la lr _ _ ih =>
    obtain ⟨hl, hr, hlk, hrk⟩ := keysSorted_node ht
    exact ih hl (h.linkRight hlt hrk)
  | case8 l k a lt rt hne hlt rl rk ra rr hc ih =>
    -- rotate_left, link_left
    obtain ⟨hl, hr, hlk, hrk⟩ := keysSorted_node ht
    obtain ⟨hrl, hrr, hrlk, hrrk⟩ := keysSorted_node hr
    refine ih hrr (h.linkLeft hc.1 fun p hp => ?_)
    have hkk : k < rk := hrk (rk, ra) (by simp)
    rw [toList_node, mem_append, mem_cons] at hp
    rcases hp with hp | rfl | hp
    · exact (hlk p hp).trans hkk
    · exact hkk
    · exact hrlk p hp
  | case9 l k a lt rt hne hlt rl rk ra rr _ hc ih =>
    obtain ⟨hl, hr, hlk, hrk⟩ := keysSorted_node ht
    obtain ⟨hrl, hrr, hrlk, hrrk⟩ := keysSorted_node hr
    exact ih hrl ((h.linkLeft (by omega) hlk).linkRight hc.1 hrrk)
  | case10 l k a lt rt hne hlt rl rk ra rr _ _ ih =>
    obtain ⟨hl, hr, hlk, hrk⟩ := keysSorted_node ht
    exact ih hr (h.linkLeft (by omega) hlk)

/-- `struct ipc_splay_tree`. -/
structure IpcSplayTree (α : Type*) where
  istName : ℕ
  istRoot : BinTree ℕ α
  istLtree : LSpine ℕ α
  istRtree : RSpine ℕ α
  deriving DecidableEq, Inhabited

/-- `ipc_splay_tree_init`: a tree with no entries; the other fields are not read
while the root is null. -/
def ipcSplayTreeInit : IpcSplayTree α := ⟨0, .nil, [], []⟩

/-- A tree stored in one piece, with the cached name that of its root: how the
operations leave a tree they have assembled. -/
def IpcSplayTree.ofRoot : BinTree ℕ α → IpcSplayTree α
  | .nil => ipcSplayTreeInit
  | .node l k a r => ⟨k, .node l k a r, [], []⟩

/-- The splay every operation starts with, skipped when the cached name is the one
asked for. -/
def IpcSplayTree.access (s : IpcSplayTree α) (name : ℕ) : BinTree ℕ α × LSpine ℕ α × RSpine ℕ α :=
  if s.istName ≠ name then
    ipcSplayPrimLookup name (ipcSplayPrimAssemble s.istRoot s.istLtree s.istRtree) [] []
  else (s.istRoot, s.istLtree, s.istRtree)

/-- `ipc_splay_tree_pick`: some entry of the tree, the one at the root. -/
def ipcSplayTreePick (s : IpcSplayTree α) : Option (ℕ × α) :=
  match s.istRoot with
  | .nil => none
  | .node _ k a _ => some (k, a)

def ipcSplayTreeLookup (s : IpcSplayTree α) (name : ℕ) : Option α × IpcSplayTree α :=
  match s.istRoot with
  | .nil => (none, s)
  | .node _ _ _ _ =>
    let (root, lt, rt) := s.access name
    (match root with
      | .nil => none
      | .node _ k a _ => if name = k then some a else none,
      ⟨name, root, lt, rt⟩)

/-- `ipc_splay_tree_insert`: the new entry becomes the root, over what the lookup
of its name left on either side. -/
def ipcSplayTreeInsert (s : IpcSplayTree α) (name : ℕ) (entry : α) : IpcSplayTree α :=
  match s.istRoot with
  | .nil => ⟨name, .node .nil name entry .nil, [], []⟩
  | .node _ _ _ _ =>
    let (root, lt, rt) := s.access name
    match root with
    | .nil => ⟨name, .node .nil name entry .nil, [], []⟩
    | .node l k a r =>
      if name < k then
        ⟨name, .node (closeLeft lt .nil) name entry (closeRight rt (.node l k a r)), [], []⟩
      else
        ⟨name, .node (closeLeft lt (.node l k a r)) name entry (closeRight rt .nil), [], []⟩

/-- `root->ite_rchild = saved`. -/
def setRchild : BinTree ℕ α → BinTree ℕ α → BinTree ℕ α
  | .nil, saved => saved
  | .node l k a _, saved => .node l k a saved

/-- Splay the largest node of `ltree` to the root and hang `saved` on its right:
the end of `ipc_splay_tree_delete`. -/
def joinLargest (ltree saved : BinTree ℕ α) : BinTree ℕ α :=
  let (root, lt, rt) := ipcSplayPrimLookup machPortLargest ltree [] []
  setRchild (ipcSplayPrimAssemble root lt rt) saved

/-- `ipc_splay_tree_delete`: the root after the lookup is freed and its two sides
are joined. -/
def ipcSplayTreeDelete (s : IpcSplayTree α) (name : ℕ) : IpcSplayTree α :=
  let (root, lt, rt) := s.access name
  match root with
  | .nil => s
  | .node l _ _ r =>
    let ltree := closeLeft lt l
    let saved := closeRight rt r
    IpcSplayTree.ofRoot (if ltree.isNil then saved
        else if saved.isNil then ltree
        else joinLargest ltree saved)

/-- `ipc_splay_tree_split`: returns the tree that keeps the names from `name` on
and the tree `small` of the names below it. -/
def ipcSplayTreeSplit (s : IpcSplayTree α) (name : ℕ) : IpcSplayTree α × IpcSplayTree α :=
  match s.istRoot with
  | .nil => (s, ipcSplayTreeInit)
  | .node _ _ _ _ =>
    let (root, lt, rt) := s.access name
    match root with
    | .nil => (s, ipcSplayTreeInit)
    | .node l k a r =>
      if k < name then
        -- root goes into small, rtree goes into splay
        (IpcSplayTree.ofRoot (closeRight rt .nil), ⟨k, .node (closeLeft lt l) k a r, [], []⟩)
      else
        -- root stays in splay, ltree goes into small
        (⟨name, .node .nil k a r, [], rt⟩, IpcSplayTree.ofRoot (closeLeft lt l))

/-- `root->ite_lchild = sroot`. -/
def setLchild : BinTree ℕ α → BinTree ℕ α → BinTree ℕ α
  | .nil, sroot => sroot
  | .node _ k a r, sroot => .node sroot k a r

/-- `ipc_splay_tree_join`: merge the entries of `small`, all below those of
`splay`, into `splay`. -/
def ipcSplayTreeJoin (s small : IpcSplayTree α) : IpcSplayTree α :=
  match small.istRoot with
  | .nil => s
  | .node _ _ _ _ =>
    let sroot := ipcSplayPrimAssemble small.istRoot small.istLtree small.istRtree
    match s.istRoot with
    | .nil => IpcSplayTree.ofRoot sroot
    | .node _ _ _ _ =>
      -- get smallest entry in splay tree to top
      let (root, lt, rt) := s.access machPortSmallest
      IpcSplayTree.ofRoot (setLchild (ipcSplayPrimAssemble root lt rt) sroot)

/-- The name at the inner end of the left tree, read through `ist_ltreep`. -/
def ltreepName : LSpine ℕ α → ℕ
  | [] => machPortLargest
  | (_, k, _) :: _ => k

/-- The name at the inner end of the right tree, read through `ist_rtreep`. -/
def rtreepName : RSpine ℕ α → ℕ
  | [] => machPortSmallest
  | (k, _, _) :: _ => k

/-- `ipc_splay_tree_bounds`: the nearest names at or below, and at or above, `name`;
`~0` and `0` when there are none. -/
def ipcSplayTreeBounds (s : IpcSplayTree α) (name : ℕ) : (ℕ × ℕ) × IpcSplayTree α :=
  match s.istRoot with
  | .nil => ((machPortLargest, machPortSmallest), s)
  | .node _ _ _ _ =>
    let (root, lt, rt) := s.access name
    let rname := match root with
      | .nil => 0
      | .node _ k _ _ => k
    let lower := if rname ≤ name then rname else ltreepName lt
    let upper := if name ≤ rname then rname else rtreepName rt
    ((lower, upper), ⟨name, root, lt, rt⟩)

/-- Writing through a pointer to the entry called `name`. -/
def IpcSplayTree.modify (s : IpcSplayTree α) (name : ℕ) (f : α → α) : IpcSplayTree α where
  istName := s.istName
  istRoot := s.istRoot.mapKey name f
  istLtree := mapLeft name f s.istLtree
  istRtree := mapRight name f s.istRtree

/-- The entries of a tree in name order. -/
def IpcSplayTree.toList (s : IpcSplayTree α) : List (ℕ × α) :=
  match s.istRoot with
  | .nil => []
  | .node _ _ _ _ => leftList s.istLtree ++ (s.istRoot.toList ++ rightList s.istRtree)

/-- A tree is well formed when its names increase, fit in 32 bits, and its three
parts are those a lookup of the cached name leaves. -/
structure IpcSplayTree.Wf (s : IpcSplayTree α) : Prop where
  sorted : KeysSorted s.toList
  bounded : ∀ p ∈ s.toList, p.1 ≤ machPortLargest
  ends : s.istRoot ≠ .nil → EndsAt s.istName s.istRoot
  apart : s.istRoot ≠ .nil → SpinesApart s.istName s.istLtree s.istRtree

namespace IpcSplayTree

@[simp] theorem toList_init : (ipcSplayTreeInit : IpcSplayTree α).toList = [] := rfl

variable {t : BinTree ℕ α} {s : IpcSplayTree α} {L : List (ℕ × α)} {name : ℕ}

theorem toList_of_ne (h : s.istRoot ≠ .nil) :
    s.toList = leftList s.istLtree ++ (s.istRoot.toList ++ rightList s.istRtree) := by
  unfold toList
  split
  · next h' => exact absurd h' h
  · rfl

theorem toList_eq_nil_iff : s.toList = [] ↔ s.istRoot = .nil := by
  unfold toList
  split
  · next h => simp [h]
  · next h => simp [h]

theorem wf_init : (ipcSplayTreeInit : IpcSplayTree α).Wf :=
  ⟨by simp, by simp, fun h => absurd rfl h, fun h => absurd rfl h⟩

@[simp] theorem toList_ofRoot (t : BinTree ℕ α) : (ofRoot t).toList = t.toList := by
  cases t <;> simp [ofRoot, toList, ipcSplayTreeInit]

theorem wf_ofRoot (h : KeysSorted t.toList)
    (hb : ∀ p ∈ t.toList, p.1 ≤ machPortLargest) : (ofRoot t).Wf := by
  refine ⟨by simpa using h, by simpa using hb, ?_, ?_⟩
  · cases t with
    | nil => intro h; exact absurd rfl h
    | node l k a r => intro _; exact .inl rfl
  · cases t with
    | nil => intro h; exact absurd rfl h
    | node l k a r => intro _; exact ⟨by simp [ofRoot], by simp [ofRoot]⟩

theorem toList_primAssemble (ht : t ≠ .nil) (lt : LSpine ℕ α) (rt : RSpine ℕ α) :
    (ipcSplayPrimAssemble t lt rt).toList = leftList lt ++ (t.toList ++ rightList rt) := by
  cases t with
  | nil => exact absurd rfl ht
  | node l k a r => simp [ipcSplayPrimAssemble]

section

variable (hs : s.Wf)
include hs

section

variable (hne : s.istRoot ≠ .nil)
include hne

/-- **The splay of an operation**: the middle node it ends at, with everything
before it below the name and everything after it above. -/
theorem access_spec (name : ℕ) : ∃ l k a r lt rt, s.access name = (.node l k a r, lt, rt) ∧
      s.toList = leftList lt ++ (l.toList ++ (k, a) :: (r.toList ++ rightList rt)) ∧
      SpinesApart name lt rt ∧
      (k = name ∨ (name < k ∧ l = .nil) ∨ (k < name ∧ r = .nil)) := by
  unfold access
  by_cases hn : s.istName = name
  · -- the cache answers: the state itself is the result of the lookup
    have he := hs.ends hne
    have ha := hs.apart hne
    rw [hn] at he ha
    rw [if_neg (not_not.mpr hn)]
    cases hr : s.istRoot with
    | nil => exact absurd hr hne
    | node l k a r =>
      rw [hr] at he
      refine ⟨l, k, a, r, _, _, rfl, ?_, ha, he⟩
      rw [toList_of_ne hne, hr]
      simp
  · rw [if_pos hn]
    have hasm := toList_primAssemble hne s.istLtree s.istRtree
    have hsorted : KeysSorted (ipcSplayPrimAssemble s.istRoot s.istLtree s.istRtree).toList := by
      rw [hasm, ← toList_of_ne hne]; exact hs.sorted
    have hane : ipcSplayPrimAssemble s.istRoot s.istLtree s.istRtree ≠ .nil := by
      intro h
      rw [h] at hasm
      have := congrArg List.length hasm
      cases hr : s.istRoot with
      | nil => exact hne hr
      | node l k a r => rw [hr] at this; simp at this
    have hlist := toList_primLookup name
      (ipcSplayPrimAssemble s.istRoot s.istLtree s.istRtree) [] []
    have hends := endsAt_primLookup name _ [] [] hane
    have hap := spinesApart_primLookup name _ [] [] hsorted ⟨by simp, by simp⟩
    rw [hasm] at hlist
    generalize ipcSplayPrimLookup name
      (ipcSplayPrimAssemble s.istRoot s.istLtree s.istRtree) [] [] = res at *
    obtain ⟨t, lt, rt⟩ := res
    cases t with
    | nil => exact absurd hends (by simp [EndsAt])
    | node l k a r =>
      refine ⟨l, k, a, r, lt, rt, rfl, ?_, hap, hends⟩
      rw [toList_of_ne hne]
      simpa using hlist.symm

/-- **The splay cuts the tree at the name**: what is before the cut is below the
name, what is after it is not. -/
theorem access_cut (name : ℕ) :
    ∃ l k a r lt rt L M, s.access name = (.node l k a r, lt, rt) ∧ s.toList = L ++ M ∧
      (∀ p ∈ L, p.1 < name) ∧ (∀ p ∈ M, name ≤ p.1) ∧ SpinesApart name lt rt ∧
      ((k < name ∧ r = .nil ∧ L = leftList lt ++ (l.toList ++ [(k, a)]) ∧ M = rightList rt) ∨
        (name ≤ k ∧ (name < k → l = .nil) ∧ L = leftList lt ++ l.toList ∧
          M = (k, a) :: (r.toList ++ rightList rt))) := by
  obtain ⟨l, k, a, r, lt, rt, hacc, hlist, hap, hend⟩ := access_spec hs hne name
  have hsorted := hs.sorted
  rw [hlist, KeysSorted.append_iff, KeysSorted.append_iff, KeysSorted.cons_iff] at hsorted
  obtain ⟨-, ⟨-, ⟨hka, -⟩, hlk⟩, -⟩ := hsorted
  rcases lt_or_ge k name with hk | hk
  · have hr : r = .nil := by
      rcases hend with h | h | h
      · omega
      · omega
      · exact h.2
    refine ⟨l, k, a, r, lt, rt, leftList lt ++ (l.toList ++ [(k, a)]), rightList rt, hacc, ?_,
      ?_, fun p hp => (hap.2 p hp).le, hap, .inl ⟨hk, hr, rfl, rfl⟩⟩
    · rw [hlist, hr]; simp
    · intro p hp
      rw [mem_append, mem_append, mem_singleton] at hp
      rcases hp with hp | hp | rfl
      · exact hap.1 p hp
      · exact (hlk p hp (k, a) mem_cons_self).trans hk
      · exact hk
  · have hl : name < k → l = .nil := by
      intro hlt
      rcases hend with h | h | h
      · omega
      · exact h.2
      · omega
    refine ⟨l, k, a, r, lt, rt, leftList lt ++ l.toList, (k, a) :: (r.toList ++ rightList rt),
      hacc, ?_, ?_, ?_, hap, .inr ⟨hk, hl, rfl, rfl⟩⟩
    · rw [hlist]; simp
    · intro p hp
      rw [mem_append] at hp
      rcases hp with hp | hp
      · exact hap.1 p hp
      · rcases hk.lt_or_eq with hlt | heq
        · rw [hl hlt] at hp; simp at hp
        · rw [heq]; exact hlk p hp (k, a) mem_cons_self
    · intro p hp
      rw [mem_cons] at hp
      rcases hp with rfl | hp
      · exact hk
      · exact hk.trans (hka p hp).le

theorem wf_access (name : ℕ) :
    (⟨name, (s.access name).1, (s.access name).2.1, (s.access name).2.2⟩ : IpcSplayTree α).Wf ∧
      (⟨name, (s.access name).1, (s.access name).2.1, (s.access name).2.2⟩ :
        IpcSplayTree α).toList = s.toList := by
  obtain ⟨l, k, a, r, lt, rt, hacc, hlist, hap, hend⟩ := access_spec hs hne name
  have hl : (⟨name, .node l k a r, lt, rt⟩ : IpcSplayTree α).toList = s.toList := by
    rw [hlist, toList_of_ne (by simp)]; simp
  rw [hacc]
  refine ⟨⟨?_, ?_, fun _ => hend, fun _ => hap⟩, hl⟩
  · rw [hl]; exact hs.sorted
  · rw [hl]; exact hs.bounded

end

/-- **A lookup finds the entry stored under the name.** -/
theorem lookup_eq (name : ℕ) : (ipcSplayTreeLookup s name).1 = s.toList.lookup name := by
  unfold ipcSplayTreeLookup
  cases hr : s.istRoot with
  | nil => rw [toList_eq_nil_iff.mpr hr]; rfl
  | node l0 k0 a0 r0 =>
    have hne : s.istRoot ≠ .nil := by rw [hr]; simp
    obtain ⟨l, k, a, r, lt, rt, L, M, hacc, hlist, hL, hM, hap, hcut⟩ := access_cut hs hne name
    rw [hacc, hlist]
    rcases hcut with ⟨hk, -, rfl, rfl⟩ | ⟨hk, -, rfl, rfl⟩
    · have hnone : (leftList lt ++ (l.toList ++ [(k, a)]) ++ rightList rt).lookup name = none := by
        rw [KeysSorted.lookup_eq_none_iff]
        intro p hp
        rw [mem_append] at hp
        rcases hp with hp | hp
        · exact ne_of_lt (hL p hp)
        · exact ne_of_gt (hap.2 p hp)
      rw [hnone]
      exact if_neg (by omega)
    by_cases hkn : k = name
    · subst hkn
      have hM : ∀ p ∈ r.toList ++ rightList rt, k < p.1 := by
        have := hs.sorted
        rw [hlist, KeysSorted.append_iff, KeysSorted.cons_iff] at this
        exact this.2.1.1
      rw [KeysSorted.lookup_split hL hM]
    have hnone : (leftList lt ++ l.toList ++ (k, a) :: (r.toList ++ rightList rt)).lookup name
        = none := by
      rw [KeysSorted.lookup_eq_none_iff]
      intro p hp
      rw [mem_append] at hp
      rcases hp with hp | hp
      · exact ne_of_lt (hL p hp)
      have hsorted := hs.sorted
      rw [hlist, KeysSorted.append_iff, KeysSorted.cons_iff] at hsorted
      rw [mem_cons] at hp
      rcases hp with rfl | hp
      · exact hkn
      · have := hsorted.2.1.1 p hp
        simp only at this
        omega
    rw [hnone]
    exact if_neg (Ne.symm hkn)

theorem toList_lookup (name : ℕ) : (ipcSplayTreeLookup s name).2.toList = s.toList := by
  unfold ipcSplayTreeLookup
  cases hr : s.istRoot with
  | nil => rfl
  | node l0 k0 a0 r0 => exact (wf_access hs (by rw [hr]; simp) name).2

theorem wf_lookup (name : ℕ) : (ipcSplayTreeLookup s name).2.Wf := by
  unfold ipcSplayTreeLookup
  cases hr : s.istRoot with
  | nil => exact hs
  | node l0 k0 a0 r0 => exact (wf_access hs (by rw [hr]; simp) name).1

end

theorem mem_pick {p : ℕ × α} (h : ipcSplayTreePick s = some p) :
    p ∈ s.toList := by
  unfold ipcSplayTreePick at h
  cases hr : s.istRoot with
  | nil => rw [hr] at h; simp at h
  | node l k a r =>
    rw [hr] at h
    rw [toList_of_ne (by rw [hr]; simp), hr]
    simp only [Option.some.injEq] at h
    simp [← h]

theorem pick_eq_none_iff : ipcSplayTreePick s = none ↔ s.toList = [] := by
  rw [toList_eq_nil_iff]
  unfold ipcSplayTreePick
  cases s.istRoot <;> simp

/-- `lower` is the largest name of `L` that is at most `name`, or `~0`. -/
def IsLower (L : List (ℕ × α)) (name lower : ℕ) : Prop :=
  (lower ≤ name ∧ (∃ a, (lower, a) ∈ L) ∧ ∀ q ∈ L, q.1 ≤ name → q.1 ≤ lower) ∨
    (lower = machPortLargest ∧ ∀ q ∈ L, name < q.1)

/-- `upper` is the smallest name of `L` that is at least `name`, or `0`. -/
def IsUpper (L : List (ℕ × α)) (name upper : ℕ) : Prop :=
  (name ≤ upper ∧ (∃ a, (upper, a) ∈ L) ∧ ∀ q ∈ L, name ≤ q.1 → upper ≤ q.1) ∨
    (upper = machPortSmallest ∧ ∀ q ∈ L, q.1 < name)

theorem isLower_leftList {lt : LSpine ℕ α} {M : List (ℕ × α)}
    (hsorted : KeysSorted (leftList lt ++ M)) (hL : ∀ p ∈ leftList lt, p.1 < name)
    (hM : ∀ p ∈ M, name < p.1) :
    IsLower (leftList lt ++ M) name (ltreepName lt) := by
  cases lt with
  | nil => exact .inr ⟨rfl, by simpa using hM⟩
  | cons f sp =>
    obtain ⟨l, k, a⟩ := f
    have hs := (KeysSorted.append_iff.mp hsorted).1
    rw [leftList_cons, ← append_assoc] at hs hL
    have hk : k < name := hL (k, a) (by simp)
    refine .inl ⟨hk.le, ⟨a, by simp [ltreepName]⟩, fun q hq hqn => ?_⟩
    rw [leftList_cons, mem_append] at hq
    rcases hq with hq | hq
    · rw [← append_assoc, mem_append, mem_singleton] at hq
      rcases hq with hq | rfl
      · exact ((KeysSorted.append_iff.mp hs).2.2 q hq (k, a) (by simp)).le
      · exact le_rfl
    · exact absurd (hM q hq) (by omega)

theorem isUpper_rightList {rt : RSpine ℕ α}
    (hsorted : KeysSorted (L ++ rightList rt)) (hL : ∀ p ∈ L, p.1 < name)
    (hM : ∀ p ∈ rightList rt, name < p.1) :
    IsUpper (L ++ rightList rt) name (rtreepName rt) := by
  cases rt with
  | nil => exact .inr ⟨rfl, by simpa using hL⟩
  | cons f sp =>
    obtain ⟨k, a, r⟩ := f
    have hs := (KeysSorted.append_iff.mp hsorted).2.1
    rw [rightList_cons, KeysSorted.cons_iff] at hs
    have hk : name < k := hM (k, a) (by simp)
    refine .inl ⟨hk.le, ⟨a, by simp [rtreepName]⟩, fun q hq hqn => ?_⟩
    rw [rightList_cons, mem_append, mem_cons] at hq
    rcases hq with hq | rfl | hq
    · exact absurd (hL q hq) (by omega)
    · exact le_rfl
    · exact (hs.1 q hq).le

/-- **The bounds are tight**: the largest name at most `name` and the smallest name
at least `name`, with their markers when there is none. -/
theorem bounds_spec (hs : s.Wf) (name : ℕ) :
    IsLower s.toList name (ipcSplayTreeBounds s name).1.1 ∧
      IsUpper s.toList name (ipcSplayTreeBounds s name).1.2 := by
  unfold ipcSplayTreeBounds
  cases hr : s.istRoot with
  | nil =>
    rw [toList_eq_nil_iff.mpr hr]
    exact ⟨.inr ⟨rfl, by simp⟩, .inr ⟨rfl, by simp⟩⟩
  | node l0 k0 a0 r0 =>
    have hne : s.istRoot ≠ .nil := by rw [hr]; simp
    have hsorted := hs.sorted
    obtain ⟨l, k, a, r, lt, rt, L, M, hacc, hlist, hL, hM, hap, hcut⟩ := access_cut hs hne name
    rw [hlist] at hsorted
    rw [hacc, hlist]
    simp only
    rcases hcut with ⟨hk, -, rfl, rfl⟩ | ⟨hk, hl, rfl, rfl⟩
    · -- the root is the largest name below
      refine ⟨?_, ?_⟩
      · rw [if_pos hk.le]
        refine .inl ⟨hk.le, ⟨a, by simp⟩, fun q hq hqn => ?_⟩
        rw [mem_append, ← append_assoc, mem_append, mem_singleton] at hq
        rw [← append_assoc] at hsorted
        rcases hq with (hq | rfl) | hq
        · exact ((KeysSorted.append_iff.mp (KeysSorted.append_iff.mp hsorted).1).2.2 q hq (k, a)
            (by simp)).le
        · exact le_rfl
        · exact absurd (hap.2 q hq) (by omega)
      · rw [if_neg (by omega)]
        exact isUpper_rightList hsorted hL hap.2
    · have hrest := (KeysSorted.cons_iff.mp (KeysSorted.append_iff.mp hsorted).2.1).1
      refine ⟨?_, ?_⟩
      · rcases hk.lt_or_eq with hlt | rfl
        · -- the root is above: the largest name below ends the left spine
          rw [if_neg (by omega)]
          rw [hl hlt, toList_nil, append_nil] at hsorted hL ⊢
          refine isLower_leftList hsorted hL fun p hp => ?_
          rw [mem_cons] at hp
          rcases hp with rfl | hp
          · exact hlt
          · exact hlt.trans (hrest p hp)
        · rw [if_pos le_rfl]
          exact .inl ⟨le_rfl, ⟨a, by simp⟩, fun q _ hqn => hqn⟩
      · rw [if_pos hk]
        refine .inl ⟨hk, ⟨a, by simp⟩, fun q hq hqn => ?_⟩
        rw [mem_append, mem_cons] at hq
        rcases hq with hq | rfl | hq
        · exact absurd (hL q hq) (by omega)
        · exact le_rfl
        · exact (hrest q hq).le

theorem toList_bounds (hs : s.Wf) (name : ℕ) :
    (ipcSplayTreeBounds s name).2.toList = s.toList := by
  unfold ipcSplayTreeBounds
  cases hr : s.istRoot with
  | nil => rfl
  | node l0 k0 a0 r0 => exact (wf_access hs (by rw [hr]; simp) name).2

theorem wf_bounds (hs : s.Wf) (name : ℕ) :
    (ipcSplayTreeBounds s name).2.Wf := by
  unfold ipcSplayTreeBounds
  cases hr : s.istRoot with
  | nil => exact hs
  | node l0 k0 a0 r0 => exact (wf_access hs (by rw [hr]; simp) name).1

/-- **Insertion puts a fresh name at its place.** -/
theorem toList_insert (hs : s.Wf) (entry : α)
    (hfresh : ∀ p ∈ s.toList, p.1 ≠ name) :
    (ipcSplayTreeInsert s name entry).toList = s.toList.filter (fun p => decide (p.1 < name)) ++
        (name, entry) :: s.toList.filter (fun p => decide (name ≤ p.1)) := by
  unfold ipcSplayTreeInsert
  cases hr : s.istRoot with
  | nil => rw [toList_eq_nil_iff.mpr hr]; rfl
  | node l0 k0 a0 r0 =>
    have hne : s.istRoot ≠ .nil := by rw [hr]; simp
    obtain ⟨l, k, a, r, lt, rt, L, M, hacc, hlist, hL, hM, hap, hcut⟩ := access_cut hs hne name
    rw [hacc, hlist, KeysSorted.filter_lt_append hL hM, KeysSorted.filter_le_append hL hM]
    dsimp only
    rcases hcut with ⟨hk, rfl, rfl, rfl⟩ | ⟨hk, hl, rfl, rfl⟩
    · rw [if_neg (by omega)]
      simp [toList]
    have hkn : k ≠ name := by
      have := hfresh (k, a) (by rw [hlist]; simp)
      exact this
    have hlt : name < k := by omega
    rw [if_pos hlt, hl hlt]
    simp [toList]

theorem keysSorted_insert (h : KeysSorted L) (entry : α)
    (hfresh : ∀ p ∈ L, p.1 ≠ name) :
    KeysSorted (L.filter (fun p => decide (p.1 < name)) ++
      (name, entry) :: L.filter (fun p => decide (name ≤ p.1))) := by
  rw [KeysSorted.append_iff, KeysSorted.cons_iff]
  refine ⟨h.filter _, ⟨?_, h.filter _⟩, ?_⟩
  · intro q hq
    rw [mem_filter, decide_eq_true_eq] at hq
    exact lt_of_le_of_ne hq.2 (hfresh q hq.1).symm
  · intro p hp q hq
    rw [mem_filter, decide_eq_true_eq] at hp
    rw [mem_cons, mem_filter, decide_eq_true_eq] at hq
    rcases hq with rfl | hq
    · exact hp.2
    · exact lt_of_lt_of_le hp.2 hq.2

theorem wf_insert (hs : s.Wf) (entry : α)
    (hname : name ≤ machPortLargest) (hfresh : ∀ p ∈ s.toList, p.1 ≠ name) :
    (ipcSplayTreeInsert s name entry).Wf := by
  have hshape : ∃ l r, ipcSplayTreeInsert s name entry = ⟨name, .node l name entry r, [], []⟩ := by
    unfold ipcSplayTreeInsert
    split
    · exact ⟨_, _, rfl⟩
    split
    split
    · exact ⟨_, _, rfl⟩
    · split <;> exact ⟨_, _, rfl⟩
  refine ⟨?_, ?_, ?_, ?_⟩
  · rw [toList_insert hs entry hfresh]
    exact keysSorted_insert hs.sorted entry hfresh
  · rw [toList_insert hs entry hfresh]
    intro p hp
    rw [mem_append, mem_cons] at hp
    rcases hp with hp | rfl | hp
    · exact hs.bounded p (mem_of_mem_filter hp)
    · exact hname
    · exact hs.bounded p (mem_of_mem_filter hp)
  · obtain ⟨l, r, h⟩ := hshape
    rw [h]
    exact fun _ => .inl rfl
  · obtain ⟨l, r, h⟩ := hshape
    rw [h]
    exact fun _ => ⟨by simp, by simp⟩

theorem joinLargest_eq {ltree : BinTree ℕ α} (saved : BinTree ℕ α) (hne : ltree ≠ .nil)
    (hsorted : KeysSorted ltree.toList) (hb : ∀ p ∈ ltree.toList, p.1 ≤ machPortLargest) :
    ∃ l k a, joinLargest ltree saved = .node l k a saved ∧ ltree.toList = l.toList ++ [(k, a)] := by
  unfold joinLargest
  have hlist := toList_primLookup machPortLargest ltree [] []
  have hends := endsAt_primLookup machPortLargest ltree [] [] hne
  have hap := spinesApart_primLookup machPortLargest ltree [] [] hsorted ⟨by simp, by simp⟩
  generalize ipcSplayPrimLookup machPortLargest ltree [] [] = res at *
  obtain ⟨t, lt, rt⟩ := res
  cases t with
  | nil => exact absurd hends (by simp [EndsAt])
  | node l k a r =>
    simp only [leftList_nil, rightList_nil, nil_append, append_nil, toList_node] at hlist
    have hbound : ∀ p ∈ r.toList ++ rightList rt, p.1 ≤ machPortLargest := by
      intro p hp
      refine hb p ?_
      rw [← hlist]
      simp only [append_assoc, mem_append, cons_append, mem_cons] at hp ⊢
      tauto
    have hright : rightList rt = [] := eq_nil_iff_forall_not_mem.mpr fun p hp =>
      absurd (hap.2 p hp) (not_lt.mpr (hbound p (mem_append_right _ hp)))
    have hr : r = .nil := by
      rcases hends with rfl | ⟨hk, -⟩ | ⟨-, hr⟩
      · rw [← hlist, KeysSorted.append_iff, append_assoc, KeysSorted.append_iff] at hsorted
        rw [← BinTree.toList_eq_nil_iff]
        refine eq_nil_iff_forall_not_mem.mpr fun p hp => ?_
        have hlt := (KeysSorted.cons_iff.mp hsorted.2.1.2.1).1 p (mem_append_left _ hp)
        exact absurd hlt (not_lt.mpr (hbound p (mem_append_left _ hp)))
      · exact absurd hk (not_lt.mpr (hb (k, a) (by rw [← hlist]; simp)))
      · exact hr
    subst hr
    refine ⟨closeLeft lt l, k, a, rfl, ?_⟩
    rw [← hlist, hright]
    simp

/-- **Deletion removes the name and nothing else.** -/
theorem toList_delete (hs : s.Wf)
    (hmem : ∃ a, (name, a) ∈ s.toList) :
    (ipcSplayTreeDelete s name).toList = s.toList.filter (fun p => decide (p.1 ≠ name)) := by
  have hne : s.istRoot ≠ .nil := by
    intro h
    obtain ⟨a, ha⟩ := hmem
    rw [toList_eq_nil_iff.mpr h] at ha
    simp at ha
  unfold ipcSplayTreeDelete
  have hsorted := hs.sorted
  have hbound := hs.bounded
  obtain ⟨l, k, a, r, lt, rt, L, M, hacc, hlist, hL, hM, hap, hcut⟩ := access_cut hs hne name
  rw [hlist] at hsorted hbound
  rw [hacc, hlist]
  rcases hcut with ⟨hk, rfl, rfl, rfl⟩ | ⟨hk, hl, rfl, rfl⟩
  · -- the splay ended elsewhere: the name is not there
    obtain ⟨b, hb⟩ := hmem
    rw [hlist, mem_append] at hb
    rcases hb with hb | hb
    · exact absurd (hL _ hb) (lt_irrefl _)
    · exact absurd (hap.2 _ hb) (lt_irrefl _)
  have hrest := (KeysSorted.cons_iff.mp (KeysSorted.append_iff.mp hsorted).2.1).1
  have hkn : k = name := by
    obtain ⟨b, hb⟩ := hmem
    rw [hlist, mem_append, mem_cons] at hb
    rcases hb with hb | hb | hb
    · exact absurd (hL _ hb) (lt_irrefl _)
    · exact (Prod.mk.inj hb).1.symm
    · have := hrest _ hb
      simp only at this
      omega
  subst hkn
  have hfilter : (leftList lt ++ l.toList ++ (k, a) :: (r.toList ++ rightList rt)).filter
      (fun p => decide (p.1 ≠ k)) = (closeLeft lt l).toList ++ (closeRight rt r).toList := by
    rw [filter_append, filter_eq_self.mpr
        (fun p hp => by simpa using ne_of_lt (hL p hp)), filter_cons,
      filter_eq_self.mpr (fun p hp => by simpa using ne_of_gt (hrest p hp))]
    simp
  rw [hfilter, toList_ofRoot]
  split
  · next h => cases hc : closeLeft lt l <;> simp_all
  next h1 =>
  split
  · next h => cases hc : closeRight rt r <;> simp_all
  next h2 =>
  obtain ⟨l', k', a', hjoin, hltree⟩ := joinLargest_eq (closeRight rt r)
    (isNil_eq_false.mp (by simpa using h1))
    (by rw [toList_closeLeft]; exact (KeysSorted.append_iff.mp hsorted).1)
    (by rw [toList_closeLeft]; exact fun p hp => hbound p (mem_append_left _ hp))
  rw [hjoin, hltree]
  simp

theorem wf_delete (hs : s.Wf)
    (hmem : ∃ a, (name, a) ∈ s.toList) : (ipcSplayTreeDelete s name).Wf := by
  have hlist := toList_delete hs hmem
  have hshape : ∃ t, ipcSplayTreeDelete s name = ofRoot t := by
    have hne : s.istRoot ≠ .nil := by
      intro h
      obtain ⟨a, ha⟩ := hmem
      rw [toList_eq_nil_iff.mpr h] at ha
      simp at ha
    obtain ⟨l, k, a, r, lt, rt, hacc, -⟩ := access_spec hs hne name
    unfold ipcSplayTreeDelete
    rw [hacc]
    exact ⟨_, rfl⟩
  obtain ⟨t, ht⟩ := hshape
  rw [ht, toList_ofRoot] at hlist
  rw [ht]
  refine wf_ofRoot ?_ ?_
  · rw [hlist]; exact hs.sorted.filter _
  · rw [hlist]; exact fun p hp => hs.bounded p (mem_of_mem_filter hp)

/-- **A split cuts the entries at the name**; both halves are well formed. -/
theorem split_spec (hs : s.Wf) (name : ℕ) :
    (ipcSplayTreeSplit s name).1.toList = s.toList.filter (fun p => decide (name ≤ p.1)) ∧
      (ipcSplayTreeSplit s name).2.toList = s.toList.filter (fun p => decide (p.1 < name)) ∧
      (ipcSplayTreeSplit s name).1.Wf ∧ (ipcSplayTreeSplit s name).2.Wf := by
  unfold ipcSplayTreeSplit
  cases hr : s.istRoot with
  | nil =>
    rw [toList_eq_nil_iff.mpr hr]
    exact ⟨by simp, rfl, hs, wf_init⟩
  | node l0 k0 a0 r0 =>
    have hne : s.istRoot ≠ .nil := by rw [hr]; simp
    obtain ⟨l, k, a, r, lt, rt, L, M, hacc, hlist, hL, hM, hap, hcut⟩ := access_cut hs hne name
    have hsorted := hs.sorted
    have hbound := hs.bounded
    rw [hlist] at hsorted hbound
    have hLs := (KeysSorted.append_iff.mp hsorted).1
    have hMs := (KeysSorted.append_iff.mp hsorted).2.1
    have hLb : ∀ p ∈ L, p.1 ≤ machPortLargest := fun p hp => hbound p (mem_append_left _ hp)
    have hMb : ∀ p ∈ M, p.1 ≤ machPortLargest := fun p hp => hbound p (mem_append_right _ hp)
    rw [hacc, hlist, KeysSorted.filter_lt_append hL hM, KeysSorted.filter_le_append hL hM]
    dsimp only
    rcases hcut with ⟨hk, rfl, rfl, rfl⟩ | ⟨hk, hl, rfl, rfl⟩
    · rw [if_pos hk]
      refine ⟨by simp, by simp [toList], ?_, ?_⟩
      · exact wf_ofRoot (by simpa using hMs) (by simpa using hMb)
      · exact ⟨by simpa [toList] using hLs, by simpa [toList] using hLb, fun _ => Or.inl rfl,
          fun _ => ⟨by simp, by simp⟩⟩
    rw [if_neg (by omega)]
    refine ⟨by simp [toList], by simp, ⟨by simpa [toList] using hMs,
      by simpa [toList] using hMb, fun _ => ?_, fun _ => ⟨by simp, hap.2⟩⟩, ?_⟩
    · rcases hk.lt_or_eq with hlt | rfl
      · exact .inr (.inl ⟨hlt, rfl⟩)
      · exact .inl rfl
    · exact wf_ofRoot (by simpa using hLs) (by simpa using hLb)

/-- **Joining appends**, when the entries of `small` are below those of the tree. -/
theorem join_spec {small : IpcSplayTree α} (hs : s.Wf) (hsmall : small.Wf)
    (hlt : ∀ p ∈ small.toList, ∀ q ∈ s.toList, p.1 < q.1) :
    (ipcSplayTreeJoin s small).toList = small.toList ++ s.toList ∧
      (ipcSplayTreeJoin s small).Wf := by
  have hsorted : KeysSorted (small.toList ++ s.toList) :=
    KeysSorted.append_iff.mpr ⟨hsmall.sorted, hs.sorted, hlt⟩
  have hbound : ∀ p ∈ small.toList ++ s.toList, p.1 ≤ machPortLargest := by
    intro p hp
    rcases mem_append.mp hp with hp | hp
    · exact hsmall.bounded p hp
    · exact hs.bounded p hp
  unfold ipcSplayTreeJoin
  cases hrs : small.istRoot with
  | nil =>
    rw [toList_eq_nil_iff.mpr hrs]
    exact ⟨rfl, hs⟩
  | node l1 k1 a1 r1 =>
    have hsl : (ipcSplayPrimAssemble (.node l1 k1 a1 r1) small.istLtree small.istRtree).toList
        = small.toList := by
      rw [← hrs, toList_primAssemble (by rw [hrs]; simp), toList_of_ne (by rw [hrs]; simp)]
    cases hr : s.istRoot with
    | nil =>
      rw [toList_eq_nil_iff.mpr hr] at hsorted hbound ⊢
      rw [toList_ofRoot, hsl]
      exact ⟨by simp, wf_ofRoot (by simpa [hsl] using hsorted) (by simpa [hsl] using hbound)⟩
    | node l0 k0 a0 r0 =>
      have hne : s.istRoot ≠ .nil := by rw [hr]; simp
      obtain ⟨l, k, a, r, lt, rt, L, M, hacc, hlist, hL, hM, hap, hcut⟩ :=
        access_cut hs hne machPortSmallest
      -- nothing is below the smallest name
      have hempty : L = [] := eq_nil_iff_forall_not_mem.mpr fun p hp =>
        absurd (hL p hp) (Nat.not_lt_zero _)
      have htree : (setLchild (ipcSplayPrimAssemble (.node l k a r) lt rt)
          (ipcSplayPrimAssemble (.node l1 k1 a1 r1) small.istLtree small.istRtree)).toList
          = small.toList ++ s.toList := by
        rcases hcut with ⟨hk, -⟩ | ⟨-, -, rfl, rfl⟩
        · exact absurd hk (Nat.not_lt_zero _)
        · rw [hlist, hempty, ← hsl]
          simp [ipcSplayPrimAssemble, setLchild]
      rw [hacc]
      rw [toList_ofRoot, htree]
      exact ⟨rfl, wf_ofRoot (by rw [htree]; exact hsorted) (by rw [htree]; exact hbound)⟩

theorem modify_istRoot_ne (name : ℕ) (f : α → α) :
    (s.modify name f).istRoot ≠ .nil ↔ s.istRoot ≠ .nil := by
  cases h : s.istRoot <;> simp [modify, h, mapKey]

theorem toList_modify (s : IpcSplayTree α) (name : ℕ) (f : α → α) :
    (s.modify name f).toList = mapKeyList name f s.toList := by
  by_cases hr : s.istRoot = .nil
  · rw [toList_eq_nil_iff.mpr hr, toList_eq_nil_iff.mpr (by simp [modify, hr, mapKey])]
    rfl
  · rw [toList_of_ne hr, toList_of_ne ((modify_istRoot_ne name f).mpr hr)]
    simp only [modify, leftList_mapLeft, rightList_mapRight, toList_mapKey]
    simp [mapKeyList]

theorem wf_modify (hs : s.Wf) (name : ℕ) (f : α → α) :
    (s.modify name f).Wf := by
  refine ⟨?_, ?_, fun hne => ?_, fun hne => ?_⟩
  · rw [toList_modify]; exact hs.sorted.mapKeyList name f
  · rw [toList_modify]; exact (forall_mem_mapKeyList (P := (· ≤ machPortLargest))).mpr hs.bounded
  · have hends := hs.ends ((modify_istRoot_ne name f).mp hne)
    cases hr : s.istRoot with
    | nil => exact absurd hr ((modify_istRoot_ne name f).mp hne)
    | node l k a r =>
      rw [hr] at hends
      simp only [modify, hr, mapKey, EndsAt] at hends ⊢
      rcases hends with h | ⟨h, rfl⟩ | ⟨h, rfl⟩
      · exact .inl h
      · exact .inr (.inl ⟨h, rfl⟩)
      · exact .inr (.inr ⟨h, rfl⟩)
  · have hap := hs.apart ((modify_istRoot_ne name f).mp hne)
    refine ⟨?_, ?_⟩
    · simp only [modify, leftList_mapLeft]
      exact (forall_mem_mapKeyList (P := (· < s.istName))).mpr hap.1
    · simp only [modify, rightList_mapRight]
      exact (forall_mem_mapKeyList (P := (s.istName < ·))).mpr hap.2

end IpcSplayTree

end Osfmk

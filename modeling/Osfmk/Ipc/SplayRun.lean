import Osfmk.Ipc.SpaceRun
import Osfmk.Lib.Trace

/-!
# Runs of the splay tree

Any number of splay trees, worked on by any sequence of the operations of `ipc_splay.c`: the trees
between two operations are the unassembled ones that the last operation has left.  Each tree stands for
a map from names to entries, and the operations do to the maps what their names say.  The assertions of
the source are part of the step, which is refused when one of them fails.
-/

open Function (update update_of_ne update_self)
open List Option

namespace Osfmk

open BinTree IpcSplayTree

variable {ι α : Type}

/-- `root->ite_lchild == ITE_NULL`. -/
def lchildNull : BinTree ℕ α → Bool
  | .nil => false
  | .node l _ _ _ => l.isNil

/-- `root->ite_rchild == ITE_NULL`. -/
def rchildNull : BinTree ℕ α → Bool
  | .nil => false
  | .node _ _ _ r => r.isNil

/-- The largest node of a tree at its root. -/
def splayLargest (t : BinTree ℕ α) : BinTree ℕ α :=
  let (root, lt, rt) := ipcSplayPrimLookup machPortLargest t [] []
  ipcSplayPrimAssemble root lt rt

/-- The assertions of `ipc_splay_tree_insert`. -/
def insertAsserts (s : IpcSplayTree α) (name : ℕ) : Bool :=
  s.istRoot.isNil ||
    let root := (s.access name).1
    decide (iteName root ≠ name) &&
      if name < iteName root then lchildNull root else rchildNull root

/-- The assertions of `ipc_splay_tree_delete`. -/
def deleteAsserts (s : IpcSplayTree α) (name : ℕ) : Bool :=
  !s.istRoot.isNil &&
    match s.access name with
    | (.nil, _, _) => false
    | (.node l k _ r, lt, rt) =>
      decide (k = name) && ((closeLeft lt l).isNil || (closeRight rt r).isNil ||
          rchildNull (splayLargest (closeLeft lt l)))

/-- The assertion of `ipc_splay_tree_split`. -/
def splitAsserts (s : IpcSplayTree α) (name : ℕ) : Bool :=
  s.istRoot.isNil ||
    let root := (s.access name).1
    decide (name ≤ iteName root) || rchildNull root

/-- The assertions of `ipc_splay_tree_join`. -/
def joinAsserts (s small : IpcSplayTree α) : Bool :=
  small.istRoot.isNil || s.istRoot.isNil ||
    let (root, lt, rt) := s.access machPortSmallest
    lchildNull (ipcSplayPrimAssemble root lt rt) &&
      decide (iteName small.assembled < iteName (ipcSplayPrimAssemble root lt rt))

variable {t : BinTree ℕ α} {s : IpcSplayTree α} {name : ℕ}

theorem insertAsserts_of_fresh (hs : s.Wf)
    (hfresh : ∀ p ∈ s.toList, p.1 ≠ name) : insertAsserts s name = true := by
  cases hr : s.istRoot with
  | nil => simp [insertAsserts, hr]
  | node l0 k0 a0 r0 =>
    obtain ⟨l, k, a, r, lt, rt, hacc, hlist, -, hend⟩ := access_spec hs (by rw [hr]; simp) name
    have hk : k ≠ name := hfresh (k, a) (by rw [hlist]; simp)
    rcases hend with h | ⟨hlt, rfl⟩ | ⟨hlt, rfl⟩
    · exact absurd h hk
    · simp [insertAsserts, hacc, iteName, hk, hlt, lchildNull]
    · simp [insertAsserts, hacc, iteName, hk, not_lt.mpr hlt.le, rchildNull]

theorem rchildNull_splayLargest (hne : t ≠ .nil) (hs : KeysSorted t.toList)
    (hb : ∀ p ∈ t.toList, p.1 ≤ machPortLargest) : rchildNull (splayLargest t) = true := by
  obtain ⟨l, k, a, hjoin, hlist⟩ := joinLargest_eq .nil hne hs hb
  have hall := toList_primLookup machPortLargest t [] []
  have hends := endsAt_primLookup machPortLargest t [] [] hne
  unfold joinLargest at hjoin
  unfold splayLargest
  generalize ipcSplayPrimLookup machPortLargest t [] [] = res at *
  obtain ⟨root, lt, rt⟩ := res
  cases root with
  | nil => exact absurd hends (by simp [EndsAt])
  | node l' k' a' r' =>
    obtain ⟨rfl, rfl, rfl, -⟩ := BinTree.node.inj hjoin
    simp only [hlist, leftList_nil, rightList_nil, nil_append, append_nil, toList_node,
      toList_closeLeft, append_assoc, cons_append, append_cancel_left_eq,
      List.cons.injEq, true_and] at hall
    have hr : (closeRight rt r').toList = [] := by rw [toList_closeRight, hall]
    simp [ipcSplayPrimAssemble, rchildNull, BinTree.toList_eq_nil_iff.mp hr]

theorem deleteAsserts_of_mem (hs : s.Wf) {a : α}
    (hmem : (name, a) ∈ s.toList) : deleteAsserts s name = true := by
  have hne : s.istRoot ≠ .nil := by
    intro h
    rw [IpcSplayTree.toList_eq_nil_iff.mpr h] at hmem
    cases hmem
  obtain ⟨l, k, a', r, lt, rt, L, M, hacc, hlist, hL, hM, hap, hcut⟩ := access_cut hs hne name
  have hsorted := hs.sorted
  have hbound := hs.bounded
  rw [hlist] at hmem hsorted hbound
  have hin : (name, a) ∈ M := (mem_append.mp hmem).resolve_left fun h =>
    absurd (hL _ h) (lt_irrefl name)
  rcases hcut with ⟨-, -, -, rfl⟩ | ⟨hk, -, rfl, rfl⟩
  · exact absurd (hap.2 _ hin) (lt_irrefl name)
  · have hkn : k = name := by
      rcases mem_cons.mp hin with h | h
      · exact (congrArg Prod.fst h).symm
      · have := (KeysSorted.cons_iff.mp (KeysSorted.append_iff.mp hsorted).2.1).1 _ h
        omega
    have hleft : (closeLeft lt l).isNil = true ∨
        rchildNull (splayLargest (closeLeft lt l)) = true := by
      by_cases hnil : (closeLeft lt l).isNil = true
      · exact Or.inl hnil
      · refine Or.inr (rchildNull_splayLargest (isNil_eq_false.mp (by simpa using hnil)) ?_ ?_)
        · rw [toList_closeLeft]
          exact (KeysSorted.append_iff.mp hsorted).1
        · rw [toList_closeLeft]
          exact fun p hp => hbound p (mem_append_left _ hp)
    rcases hleft with h | h <;> simp [deleteAsserts, isNil_eq_false.mpr hne, hacc, hkn, h]

theorem splitAsserts_of_wf (hs : s.Wf) (name : ℕ) :
    splitAsserts s name = true := by
  cases hr : s.istRoot with
  | nil => simp [splitAsserts, hr]
  | node l0 k0 a0 r0 =>
    obtain ⟨l, k, a, r, lt, rt, hacc, -, -, hend⟩ := access_spec hs (by rw [hr]; simp) name
    rcases hend with h | ⟨hlt, -⟩ | ⟨-, rfl⟩
    · simp [splitAsserts, hacc, iteName, h]
    · simp [splitAsserts, hacc, iteName, hlt.le]
    · simp [splitAsserts, hacc, rchildNull]

theorem iteName_mem (h : t ≠ .nil) : ∃ a, (iteName t, a) ∈ t.toList := by
  cases t with
  | nil => exact absurd rfl h
  | node l k a r => exact ⟨a, by simp [iteName]⟩

theorem joinAsserts_of_below {small : IpcSplayTree α} (hs : s.Wf)
    (hlt : ∀ p ∈ small.toList, ∀ q ∈ s.toList, p.1 < q.1) : joinAsserts s small = true := by
  by_cases hsm : small.istRoot = .nil
  · simp [joinAsserts, hsm]
  by_cases hr : s.istRoot = .nil
  · simp [joinAsserts, hr]
  obtain ⟨l, k, a, r, lt, rt, L, M, hacc, hlist, hL, -, -, hcut⟩ :=
    access_cut hs hr machPortSmallest
  have hempty : L = [] := eq_nil_iff_forall_not_mem.mpr fun p hp =>
    absurd (hL p hp) (Nat.not_lt_zero _)
  rcases hcut with ⟨hk, -⟩ | ⟨-, -, hLeq, rfl⟩
  · exact absurd hk (Nat.not_lt_zero _)
  have hleft : closeLeft lt l = .nil := by
    rw [← BinTree.toList_eq_nil_iff, toList_closeLeft, ← hLeq, hempty]
  have hsroot : small.assembled ≠ .nil := by
    rw [Ne, ← BinTree.toList_eq_nil_iff, toList_assembled, IpcSplayTree.toList_eq_nil_iff]
    exact hsm
  obtain ⟨a', hmem⟩ := iteName_mem hsroot
  have hlow : iteName small.assembled < k :=
    hlt (iteName small.assembled, a') (by rwa [toList_assembled] at hmem) (k, a)
      (by rw [hlist]; simp)
  have hroot : iteName (ipcSplayPrimAssemble (.node l k a r) lt rt) = k := rfl
  have hnull : lchildNull (ipcSplayPrimAssemble (.node l k a r) lt rt) = true := by
    rw [ipcSplayPrimAssemble, lchildNull, hleft, isNil_nil]
  simp [joinAsserts, hacc, hroot, hnull, hlow]

/-- The loop of a traversal. -/
def traverseCalls (delete : ℕ → Bool) :
    ℕ → ℕ → Traverse α → Option (List (ℕ × α) × List (ℕ × α) × BinTree ℕ α)
  | _, _, .finished root => some ([], [], root)
  | 0, _, .entry _ _ => none
  | _ + 1, _, .entry .nil _ => none
  | n + 1, i, .entry (.node l k a r) path =>
    (traverseCalls delete n (i + 1)
      (ipcSplayTraverseNext (delete i) (.node l k a r) path)).map fun (seen, freed, root) =>
        ((k, a) :: seen, (if delete i then [(k, a)] else []) ++ freed, root)

/-- `ipc_splay_traverse_start`, at most `fuel` rounds of the loop, and `ipc_splay_traverse_finish`. -/
def splayTraverse (delete : ℕ → Bool) (fuel : ℕ) (s : IpcSplayTree α) :
    Option (List (ℕ × α) × List (ℕ × α) × IpcSplayTree α) :=
  match s.istRoot with
  | .nil => some ([], [], s)
  | .node _ _ _ _ =>
    (traverseCalls delete fuel 0 (traverseLeft s.assembled [])).map fun (seen, freed, root) =>
      (seen, freed, ofRoot root)

/-- The entries of a list whose number has a flag, counted from `i`. -/
def entriesWhere (flag : ℕ → Bool) (i : ℕ) (L : List (ℕ × α)) : List (ℕ × α) :=
  ((L.zipIdx i).filter fun p => flag p.2).map Prod.fst

theorem entriesWhere_cons (flag : ℕ → Bool) (i : ℕ) (p : ℕ × α) (L : List (ℕ × α)) :
    entriesWhere flag i (p :: L) = (if flag i then [p] else []) ++ entriesWhere flag (i + 1) L := by
  rw [entriesWhere, zipIdx_cons, filter_cons]
  cases flag i <;> rfl

theorem entriesWhere_sublist (flag : ℕ → Bool) (i : ℕ) (L : List (ℕ × α)) :
    (entriesWhere flag i L).Sublist L := by
  induction L generalizing i with
  | nil => exact List.Sublist.refl _
  | cons p L ih =>
    rw [entriesWhere_cons]
    cases flag i with
    | true => exact (ih _).cons_cons p
    | false => exact (ih _).cons p

theorem traverseCalls_spec (delete : ℕ → Bool) (n i : ℕ) (T : Traverse α) {K R : List (ℕ × α)}
    (hT : T.At K R) (hn : R.length ≤ n) (hs : KeysSorted (K ++ R))
    (hb : ∀ q ∈ K ++ R, q.1 ≤ machPortLargest) :
    ∃ root, traverseCalls delete n i T = some (R, entriesWhere delete i R, root) ∧
      root.toList = K ++ entriesWhere (fun j => !delete j) i R := by
  induction R generalizing n i T K with
  | nil =>
    cases T with
    | entry t path => cases t <;> simp [Traverse.At] at hT
    | finished root => exact ⟨root, by cases n <;> rfl, by simpa [entriesWhere] using hT.2⟩
  | cons p R ih =>
    cases T with
    | finished root => exact absurd hT.1 (by simp)
    | entry t path =>
      cases t with
      | nil => exact hT.elim
      | node l k a r =>
        obtain ⟨m, rfl⟩ : ∃ m, n = m + 1 := ⟨n - 1, by simp at hn; omega⟩
        obtain rfl : p = (k, a) := (List.cons.inj hT.2).1
        have hsub : (K ++ (if delete i then [] else [(k, a)]) ++ R).Sublist (K ++ (k, a) :: R) := by
          split <;> simp
        obtain ⟨root, hcalls, hroot⟩ := ih m (i + 1) _ (next_at hT hs hb (delete i))
          (by simpa using hn) (hs.sublist hsub) fun q hq => hb q (hsub.subset hq)
        refine ⟨root, ?_, ?_⟩
        · rw [traverseCalls, hcalls, entriesWhere_cons]
          rfl
        · rw [hroot, entriesWhere_cons, append_assoc]
          cases delete i <;> rfl

/-- **A traversal** sees every entry once, in the order of the names, and ends; it frees the entries
that it is told to delete, and leaves a search tree of the others. -/
theorem traversal_exact {s : IpcSplayTree α} (hs : s.Wf) (delete : ℕ → Bool) (fuel : ℕ)
    (hfuel : s.toList.length ≤ fuel) :
    ∃ s', splayTraverse delete fuel s = some (s.toList, entriesWhere delete 0 s.toList, s') ∧
      s'.Wf ∧ s'.toList = entriesWhere (fun i => !delete i) 0 s.toList := by
  unfold splayTraverse
  cases hr : s.istRoot with
  | nil =>
    rw [IpcSplayTree.toList_eq_nil_iff.mpr hr]
    exact ⟨s, rfl, hs, IpcSplayTree.toList_eq_nil_iff.mpr hr⟩
  | node l k a r =>
    obtain ⟨root, hcalls, hroot⟩ := traverseCalls_spec delete fuel 0 _
      (traverse_start (by rw [hr]; simp)) hfuel hs.sorted hs.bounded
    have hsub := entriesWhere_sublist (fun i => !delete i) 0 s.toList
    rw [nil_append] at hroot
    refine ⟨ofRoot root, ?_, wf_ofRoot ?_ ?_, ?_⟩
    · dsimp only
      rw [hcalls]
      rfl
    · rw [hroot]
      exact hs.sorted.sublist hsub
    · rw [hroot]
      exact fun p hp => hs.bounded p (hsub.subset hp)
    · rw [toList_ofRoot, hroot]

theorem traversal_exact_two : ∃ s', splayTraverse (fun i => i == 0) 2
        (ipcSplayTreeInsert (ipcSplayTreeInsert ipcSplayTreeInit 5 50) 9 90) =
          some ([(5, 50), (9, 90)], [(5, 50)], s') ∧ s'.Wf ∧ s'.toList = [(9, 90)] :=
  traversal_exact (wf_insert (wf_insert wf_init 50 (by decide) (by simp)) 90 (by decide) (by decide))
    (fun i => i == 0) 2 (by decide)

/-- A call of an operation on the trees; `small` is the second tree of a split or a join, and a
traversal deletes the names with a flag. -/
inductive SplayOp (ι α : Type)
  | lookup (i : ι) (name : ℕ)
  | bounds (i : ι) (name : ℕ)
  | insert (i : ι) (name : ℕ) (entry : α)
  | delete (i : ι) (name : ℕ)
  | split (i : ι) (name : ℕ) (small : ι)
  | join (i small : ι)
  | traverse (i : ι) (delete : ℕ → Bool)

/-- The trees, and the maps they should stand for. -/
structure Forest (ι α : Type) where
  tree : ι → IpcSplayTree α
  map : ι → ℕ → Option α

namespace Forest

variable [DecidableEq ι]

/-- Every tree is as `ipc_splay_tree_init` leaves it. -/
def init : Forest ι α := ⟨fun _ => ipcSplayTreeInit, fun _ _ => none⟩

/-- What an operation does to the trees, unless an assertion fails. -/
def treeStep (tree : ι → IpcSplayTree α) : SplayOp ι α → Option (ι → IpcSplayTree α)
  | .lookup i name => some (update tree i (ipcSplayTreeLookup (tree i) name).2)
  | .bounds i name => some (update tree i (ipcSplayTreeBounds (tree i) name).2)
  | .insert i name entry =>
    if insertAsserts (tree i) name then
      some (update tree i (ipcSplayTreeInsert (tree i) name entry))
    else none
  | .delete i name =>
    if deleteAsserts (tree i) name then
      some (update tree i (ipcSplayTreeDelete (tree i) name))
    else none
  | .split i name small =>
    if splitAsserts (tree i) name then
      some (update (update tree i (ipcSplayTreeSplit (tree i) name).1) small
        (ipcSplayTreeSplit (tree i) name).2)
    else none
  | .join i small =>
    if joinAsserts (tree i) (tree small) then
      some (update (update tree i (ipcSplayTreeJoin (tree i) (tree small))) small
        { tree small with istRoot := .nil })
    else none
  | .traverse i delete =>
    some (update tree i
      (ipcSplayTraverse (fun (_ : Unit) name _ => ((), delete name)) () (tree i)).2)

/-- What an operation should do to the maps. -/
def mapStep (map : ι → ℕ → Option α) : SplayOp ι α → ι → ℕ → Option α
  | .lookup _ _ | .bounds _ _ => map
  | .insert i name entry => update map i (update (map i) name (some entry))
  | .delete i name => update map i (update (map i) name none)
  | .split i name small =>
    update (update map i fun k => if name ≤ k then map i k else none) small
      fun k => if k < name then map i k else none
  | .join i small =>
    update (update map i fun k => (map small k).or (map i k)) small fun _ => none
  | .traverse i delete => update map i fun k => if delete k then none else map i k

/-- An operation on the trees and the maps. -/
def step (f : Forest ι α) (op : SplayOp ι α) : Option (Forest ι α) :=
  (treeStep f.tree op).map fun tree => ⟨tree, mapStep f.map op⟩

/-- What the callers have to see to: a name that is inserted is new, one that is deleted is there, and
the names of `small` are below those of the tree it is joined to. -/
def Admissible (f : Forest ι α) : SplayOp ι α → Prop
  | .insert i name _ => name ≤ machPortLargest ∧ f.map i name = none
  | .delete i name => f.map i name ≠ none
  | .split i _ small => i ≠ small
  | .join i small => i ≠ small ∧
      ∀ k k', f.map small k ≠ none → f.map i k' ≠ none → k < k'
  | _ => True

end Forest

/-- The tree stands for the map. -/
structure Represents (s : IpcSplayTree α) (m : ℕ → Option α) : Prop where
  wf : s.Wf
  mem : ∀ name entry, (name, entry) ∈ s.toList ↔ m name = some entry

namespace Represents

variable {s small : IpcSplayTree α} {m m' : ℕ → Option α} {name : ℕ} {entry : α}

theorem ne_none (h : Represents s m) {p : ℕ × α} (hp : p ∈ s.toList) : m p.1 ≠ none := by
  rw [(h.mem p.1 p.2).mp hp]
  exact some_ne_none _

theorem of_toList {s' : IpcSplayTree α} (h : Represents s m) (hwf : s'.Wf)
    (hl : s'.toList = s.toList) : Represents s' m :=
  ⟨hwf, fun name entry => by rw [hl, h.mem]⟩

theorem of_filter {s' : IpcSplayTree α} {q : ℕ → Bool} (h : Represents s m) (hwf : s'.Wf)
    (hl : s'.toList = s.toList.filter fun p => q p.1)
    (hm : ∀ name, m' name = if q name then m name else none) : Represents s' m' := by
  refine ⟨hwf, fun name entry => ?_⟩
  rw [hl, mem_filter, h.mem, hm]
  cases q name <;> simp

theorem init : Represents (ipcSplayTreeInit : IpcSplayTree α) fun _ => none :=
  ⟨wf_init, fun name entry => by simp⟩

section

variable (h : Represents s m)
include h

theorem insert (hname : name ≤ machPortLargest) (hfresh : m name = none) :
    Represents (ipcSplayTreeInsert s name entry) (update m name (some entry)) := by
  have hnew : ∀ p ∈ s.toList, p.1 ≠ name := by
    rintro p hp rfl
    exact h.ne_none hp hfresh
  refine ⟨wf_insert h.wf entry hname hnew, fun k e => ?_⟩
  rw [toList_insert h.wf entry hnew, (KeysSorted.perm_insert h.wf.sorted name entry).mem_iff,
    mem_cons, h.mem]
  by_cases hk : k = name
  · subst hk
    simp [hfresh, eq_comm]
  · simp [hk]

theorem delete (hin : m name ≠ none) :
    Represents (ipcSplayTreeDelete s name) (update m name none) := by
  obtain ⟨e, he⟩ := ne_none_iff_exists'.mp hin
  have hmem : ∃ a, (name, a) ∈ s.toList := ⟨e, (h.mem name e).mpr he⟩
  refine h.of_filter (q := fun k => decide (k ≠ name)) (wf_delete h.wf hmem)
    (toList_delete h.wf hmem) fun k => ?_
  by_cases hk : k = name <;> simp [hk]

theorem split (name : ℕ) :
    Represents (ipcSplayTreeSplit s name).1 (fun k => if name ≤ k then m k else none) ∧
      Represents (ipcSplayTreeSplit s name).2 fun k => if k < name then m k else none := by
  obtain ⟨hl, hl', hwf, hwf'⟩ := split_spec h.wf name
  exact ⟨h.of_filter (q := fun k => decide (name ≤ k)) hwf hl fun k => by simp,
    h.of_filter (q := fun k => decide (k < name)) hwf' hl' fun k => by simp⟩

theorem join (h' : Represents small m') (hlt : ∀ p ∈ small.toList, ∀ q ∈ s.toList, p.1 < q.1) :
    Represents (ipcSplayTreeJoin s small) fun k => (m' k).or (m k) := by
  obtain ⟨hl, hwf⟩ := join_spec h.wf h'.wf hlt
  refine ⟨hwf, fun k e => ?_⟩
  rw [hl, mem_append, h.mem, h'.mem, or_eq_some_iff]
  -- a name is in one of the two trees only
  refine or_congr_right ⟨fun he => ⟨?_, he⟩, fun he => he.2⟩
  by_contra hne
  obtain ⟨e', he'⟩ := ne_none_iff_exists'.mp hne
  exact absurd (hlt (k, e') ((h'.mem k e').mpr he') (k, e) ((h.mem k e).mpr he)) (lt_irrefl k)

theorem traverse (delete : ℕ → Bool) :
    Represents (ipcSplayTraverse (fun (_ : Unit) name _ => ((), delete name)) () s).2
      fun k => if delete k then none else m k := by
  have hvisit : ∀ L : List (ℕ × α),
      (visitList (fun (_ : Unit) name _ => ((), delete name)) () L).2 =
        L.filter fun p => !delete p.1 := by
    intro L
    induction L with
    | nil => rfl
    | cons p L ih =>
      rw [visitList, ih, filter_cons]
      cases delete p.1 <;> rfl
  refine h.of_filter (q := fun k => !delete k) (wf_traverse h.wf _ ())
    (((traverse_spec h.wf _ ()).2).trans (hvisit _)) fun k => ?_
  cases delete k <;> rfl

end

end Represents

namespace Forest

variable [DecidableEq ι] {f f' : Forest ι α}

/-- **The invariant**: each tree stands for its map. -/
def Inv (f : Forest ι α) : Prop := ∀ i, Represents (f.tree i) (f.map i)

variable {s : IpcSplayTree α} {tree : ι → IpcSplayTree α} {m : ℕ → Option α}

theorem Inv.update {map : ι → ℕ → Option α}
    (h : ∀ i, Represents (tree i) (map i)) (i : ι)
    (hs : Represents s m) (j : ι) :
    Represents (update tree i s j) (update map i m j) := by
  by_cases hj : j = i
  · subst hj
    rw [update_self, update_self]
    exact hs
  · rw [update_of_ne hj, update_of_ne hj]
    exact h j

theorem Inv.same (h : f.Inv) (i : ι) (hs : Represents s (f.map i)) (j : ι) :
    Represents (Function.update f.tree i s j) (f.map j) := by
  have := Inv.update h i hs j
  rwa [Function.update_eq_self] at this

theorem Inv.of_treeStep {op : SplayOp ι α}
    (hs : treeStep f.tree op = some tree)
    (hinv : ∀ i, Represents (tree i) (mapStep f.map op i)) : ∃ f', f.step op = some f' ∧ f'.Inv :=
  ⟨⟨tree, mapStep f.map op⟩, by rw [Forest.step, hs, map_some], hinv⟩

/-- **An operation that is admissible** passes its assertions and does to the map what it should. -/
theorem Inv.step (f : Forest ι α) (op : SplayOp ι α) (h : f.Inv) (ha : f.Admissible op) :
    ∃ f', f.step op = some f' ∧ f'.Inv := by
  cases op with
  | lookup i name =>
    exact Inv.of_treeStep rfl
      (h.same i ((h i).of_toList (wf_lookup (h i).wf name) (toList_lookup (h i).wf name)))
  | bounds i name =>
    exact Inv.of_treeStep rfl
      (h.same i ((h i).of_toList (wf_bounds (h i).wf name) (toList_bounds (h i).wf name)))
  | insert i name entry =>
    have hfresh : ∀ p ∈ (f.tree i).toList, p.1 ≠ name := by
      rintro p hp rfl
      exact (h i).ne_none hp ha.2
    have hassert := insertAsserts_of_fresh (h i).wf hfresh
    exact Inv.of_treeStep (if_pos hassert) (Inv.update h i ((h i).insert ha.1 ha.2))
  | delete i name =>
    obtain ⟨e, he⟩ := ne_none_iff_exists'.mp ha
    have hassert := deleteAsserts_of_mem (h i).wf (((h i).mem name e).mpr he)
    exact Inv.of_treeStep (if_pos hassert) (Inv.update h i ((h i).delete ha))
  | split i name small =>
    have hassert := splitAsserts_of_wf (h i).wf name
    exact Inv.of_treeStep (if_pos hassert)
      (Inv.update (Inv.update h i ((h i).split name).1) small ((h i).split name).2)
  | join i small =>
    have hlt : ∀ p ∈ (f.tree small).toList, ∀ q ∈ (f.tree i).toList, p.1 < q.1 :=
      fun p hp q hq => ha.2 p.1 q.1 ((h small).ne_none hp) ((h i).ne_none hq)
    have hassert := joinAsserts_of_below (h i).wf hlt
    have hempty : Represents { f.tree small with istRoot := .nil } fun _ => none :=
      ⟨⟨.nil, nofun, fun hne => absurd rfl hne, fun hne => absurd rfl hne⟩,
        fun k e => (by simp [IpcSplayTree.toList])⟩
    exact Inv.of_treeStep (if_pos hassert)
      (Inv.update (Inv.update h i ((h i).join (h small) hlt)) small hempty)
  | traverse i delete => exact Inv.of_treeStep rfl (Inv.update h i ((h i).traverse delete))

/-- A tree is an ordered map: in one piece it is a search tree with the entries of the map, and a lookup
finds what the map has. -/
structure OrderedMap (s : IpcSplayTree α) (m : ℕ → Option α) : Prop where
  sorted : KeysSorted s.assembled.toList
  entries : ∀ name entry, (name, entry) ∈ s.assembled.toList ↔ m name = some entry
  lookup : ∀ name, (ipcSplayTreeLookup s name).1 = m name

theorem orderedMap_of_represents (h : Represents s m) :
    OrderedMap s m := by
  refine ⟨?_, fun name entry => ?_, fun name => Option.ext fun entry => ?_⟩
  · rw [toList_assembled]
    exact h.wf.sorted
  · rw [toList_assembled]
    exact h.mem name entry
  · rw [lookup_eq h.wf, h.wf.sorted.lookup_eq_some_iff]
    exact h.mem name entry

omit [DecidableEq ι] in
theorem inv_init : (init : Forest ι α).Inv := fun _ => .init

/-- **The splay tree is an ordered map**: every run of admissible operations, from trees that are
initialized, passes all assertions, and then each tree is an ordered map of what the operations have put
into it. -/
theorem ordered_map_of_run (ops : List (SplayOp ι α))
    (hops : Trace.Meets Forest.step Admissible init ops) :
    ∃ f, Trace.run Forest.step init ops = some f ∧ ∀ i, OrderedMap (f.tree i) (f.map i) := by
  obtain ⟨f, hrun, hinv⟩ := Trace.completes Inv.step ops init inv_init hops
  exact ⟨f, hrun, fun i => orderedMap_of_represents (hinv i)⟩

/-- Two trees: names go into the first, are split off and are joined again. -/
def splitAndJoin : List (SplayOp Bool ℕ) :=
  [.insert true 5 50, .insert true 9 90, .lookup true 7, .split true 7 false, .delete true 9,
    .insert true 8 80, .join true false]

theorem splitAndJoin_admissible : Trace.Meets Forest.step Admissible init splitAndJoin := by
  refine .cons ⟨by decide, rfl⟩ rfl ?_
  refine .cons ⟨by decide, rfl⟩ rfl ?_
  refine .cons trivial rfl ?_
  refine .cons Bool.noConfusion rfl ?_
  refine .cons (some_ne_none 90) rfl ?_
  refine .cons ⟨by decide, rfl⟩ rfl ?_
  refine .cons ⟨Bool.noConfusion, fun k k' hk hk' => ?_⟩ rfl trivial
  have hlow : k < 7 := by
    by_contra hge
    exact hk (by simp [mapStep, init, hge])
  have hhigh : 7 ≤ k' := by
    by_contra hlt
    have h8 : k' ≠ 8 := by omega
    have h9 : k' ≠ 9 := by omega
    exact hk' (by simp [mapStep, init, h8, h9, hlt])
  omega

theorem ordered_map_of_splitAndJoin : ∃ f, Trace.run Forest.step init splitAndJoin = some f ∧
      ∀ i, OrderedMap (f.tree i) (f.map i) :=
  ordered_map_of_run splitAndJoin splitAndJoin_admissible

/-- **The bounds are tight**, whatever state the operations before have left the tree in; and in every
space that is reached, a collision is found exactly when the tree has a name with the index. -/
theorem bounds_of_run : (∀ (ops : List (SplayOp ι α)), Trace.Meets Forest.step Admissible init ops →
      ∃ f, Trace.run Forest.step init ops = some f ∧ ∀ i name,
        IsLower (f.tree i).assembled.toList name (ipcSplayTreeBounds (f.tree i) name).1.1 ∧
        IsUpper (f.tree i).assembled.toList name (ipcSplayTreeBounds (f.tree i) name).1.2) ∧
    ∀ (T : TableSizes) (initial : ℕ), initial < T.last → ∀ (ops : List SpaceOp) (s : IpcSpace)
      (m : NameMap), spaceRun T initial ops = some (s, m) → ∀ name,
        (ipcEntryTreeCollision s name).1 = true ↔
          ∃ p ∈ s.isTree.assembled.toList, machPortIndex p.1 = machPortIndex name := by
  refine ⟨fun ops hops => ?_, fun T initial hi ops s m hrun name => ?_⟩
  · obtain ⟨f, hrun, hinv⟩ := Trace.completes Inv.step ops init inv_init hops
    refine ⟨f, hrun, fun i name => ?_⟩
    rw [toList_assembled]
    exact bounds_spec (hinv i).wf name
  · obtain ⟨⟨free, hs, -⟩, -⟩ := runInv_run hi hrun
    rw [toList_assembled]
    exact treeCollision_fst hs.wf hs.nodes.valid name

theorem bounds_of_splitAndJoin : ∃ f, Trace.run Forest.step init splitAndJoin = some f ∧ ∀ i name,
      IsLower (f.tree i).assembled.toList name (ipcSplayTreeBounds (f.tree i) name).1.1 ∧
      IsUpper (f.tree i).assembled.toList name (ipcSplayTreeBounds (f.tree i) name).1.2 :=
  bounds_of_run.1 splitAndJoin splitAndJoin_admissible

end Forest

end Osfmk

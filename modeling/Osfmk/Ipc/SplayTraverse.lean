import Osfmk.Ipc.Splay

/-!
# Traversing the splay tree

`ipc_splay_traverse_start`, `ipc_splay_traverse_next` and `ipc_splay_traverse_finish`
walk a splay tree in symmetric order.  The walk reverses the child links on the way
down, so the path to the current entry is kept in the tree itself; here it is a list
of frames, innermost first.  The caller may ask for the entry it has just seen to be
deleted, and the walk then patches the tree around it.
-/

namespace Osfmk

open BinTree IpcSplayTree

variable {α σ : Type*}

/-- A node whose left (right) child field holds the link to its parent. -/
inductive Frame (α : Type*)
  | left (k : ℕ) (a : α) (r : BinTree ℕ α) : Frame α
  | right (l : BinTree ℕ α) (k : ℕ) (a : α) : Frame α
  deriving DecidableEq

def Frame.iteName : Frame α → ℕ
  | .left k _ _ => k
  | .right _ k _ => k

/-- Put the current subtree back where the link to the parent was. -/
def Frame.restore : Frame α → BinTree ℕ α → BinTree ℕ α
  | .left k a r, cur => .node cur k a r
  | .right l k a, cur => .node l k a cur

def iteName : BinTree ℕ α → ℕ
  | .nil => 0
  | .node _ k _ _ => k

/-- Where a traversal is: at the root of a subtree with the path that leads to it, or
finished with the whole tree restored. -/
inductive Traverse (α : Type*)
  /-- `ist_ltree` is the current entry, `ist_rtree` its parent. -/
  | entry (cur : BinTree ℕ α) (path : List (Frame α)) : Traverse α
  | finished (root : BinTree ℕ α) : Traverse α
  deriving DecidableEq

/-- `traverse_left`: descend to the smallest entry of a subtree. -/
def traverseLeft : BinTree ℕ α → List (Frame α) → Traverse α
  | .node (.node ll lk la lr) k a r, path =>
    traverseLeft (.node ll lk la lr) (.left k a r :: path)
  | cur, path => .entry cur path

/-- `traverse_back`: climb until the walk comes out of a left child. -/
def traverseBack (cur : BinTree ℕ α) : List (Frame α) → Traverse α
  | [] => .finished cur
  | f :: path =>
    if iteName cur < f.iteName then .entry (f.restore cur) path
    else traverseBack (f.restore cur) path

/-- `traverse_right`: the right subtree of the current entry, or back. -/
def traverseRight : BinTree ℕ α → List (Frame α) → Traverse α
  | .node l k a (.node rl rk ra rr), path =>
    traverseLeft (.node rl rk ra rr) (.right l k a :: path)
  | cur, path => traverseBack cur path

def ipcSplayTraverseNext (delete : Bool) (cur : BinTree ℕ α) (path : List (Frame α)) : Traverse α :=
  if delete = false then traverseRight cur path
  else
    match cur with
    | .nil => .finished .nil
    | .node .nil k _ .nil =>
      -- like traverse_back, but with deletion
      match path with
      | [] => .finished .nil
      | f :: path =>
        if k < f.iteName then .entry (f.restore .nil) path
        else traverseBack (f.restore .nil) path
    | .node .nil _ _ r => traverseLeft r path
    | .node l _ _ .nil => traverseBack l path
    | .node l _ _ r =>
      -- replace current with largest of left children
      traverseRight (joinLargest l r) path

/-- The loop over a traversal, with the body `visit`: it updates the caller's state and
says whether the entry is to be deleted. -/
def traverseLoop (visit : σ → ℕ → α → σ × Bool) : ℕ → σ → Traverse α → σ × BinTree ℕ α
  | _, st, .finished root => (st, root)
  | 0, st, .entry cur _ => (st, cur)
  | _ + 1, st, .entry .nil _ => (st, .nil)
  | n + 1, st, .entry (.node l k a r) path =>
    traverseLoop visit n (visit st k a).1
      (ipcSplayTraverseNext (visit st k a).2 (.node l k a r) path)

/-- A whole traversal: `ipc_splay_traverse_start`, the loop, and
`ipc_splay_traverse_finish`. -/
def ipcSplayTraverse (visit : σ → ℕ → α → σ × Bool) (st : σ) (s : IpcSplayTree α) :
    σ × IpcSplayTree α :=
  match s.istRoot with
  | .nil => (st, s)
  | .node _ _ _ _ =>
    let res := traverseLoop visit s.toList.length st
      (traverseLeft (ipcSplayPrimAssemble s.istRoot s.istLtree s.istRtree) [])
    (res.1, ofRoot res.2)

/-- The same loop over a list of entries: the final state and the entries kept. -/
def visitList (visit : σ → ℕ → α → σ × Bool) : σ → List (ℕ × α) → σ × List (ℕ × α)
  | st, [] => (st, [])
  | st, (k, a) :: L =>
    ((visitList visit (visit st k a).1 L).1,
      (if (visit st k a).2 then [] else [(k, a)]) ++ (visitList visit (visit st k a).1 L).2)

/-- The entries before a position, outside the current subtree. -/
def framesBefore : List (Frame α) → List (ℕ × α)
  | [] => []
  | .left _ _ _ :: path => framesBefore path
  | .right l k a :: path => framesBefore path ++ (l.toList ++ [(k, a)])

/-- The entries after a position, outside the current subtree. -/
def framesAfter : List (Frame α) → List (ℕ × α)
  | [] => []
  | .left k a r :: path => (k, a) :: (r.toList ++ framesAfter path)
  | .right _ _ _ :: path => framesAfter path

/-- The position has the entries `K` behind it and the entries `R` ahead of it, the
current one first. -/
def Traverse.At (K R : List (ℕ × α)) : Traverse α → Prop
  | .entry .nil _ => False
  | .entry (.node l k a r) path =>
    K = framesBefore path ++ l.toList ∧ R = (k, a) :: (r.toList ++ framesAfter path)
  | .finished root => R = [] ∧ root.toList = K

theorem traverseLeft_at (t : BinTree ℕ α) (path : List (Frame α)) (ht : t ≠ .nil) :
    (traverseLeft t path).At (framesBefore path) (t.toList ++ framesAfter path) := by
  fun_induction traverseLeft t path with
  | case1 path k a r ll lk la lr ih => simpa [framesBefore, framesAfter] using ih (by simp)
  | case2 t path hleft =>
    cases t with
    | nil => exact absurd rfl ht
    | node l k a r =>
      cases l with
      | nil => simp [Traverse.At]
      | node ll lk la lr => exact absurd rfl (hleft ll lk la lr k a r)

theorem traverseBack_at (path : List (Frame α)) (t : BinTree ℕ α) (ht : t ≠ .nil)
    (hs : KeysSorted (framesBefore path ++ (t.toList ++ framesAfter path))) :
    (traverseBack t path).At (framesBefore path ++ t.toList) (framesAfter path) := by
  induction path generalizing t with
  | nil => simp [traverseBack, Traverse.At, framesBefore, framesAfter]
  | cons f path ih =>
    cases t with
    | nil => exact absurd rfl ht
    | node l0 k0 a0 r0 =>
      cases f with
      | left k a r =>
        -- out of a left child: the parent is the next entry
        have hlt : k0 < k := by
          rw [KeysSorted.append_iff, KeysSorted.append_iff] at hs
          exact hs.2.1.2.2 (k0, a0) (by simp) (k, a) (by simp [framesAfter])
        rw [traverseBack, if_pos (by simpa [iteName, Frame.iteName] using hlt)]
        simp [Frame.restore, Traverse.At, framesBefore, framesAfter]
      | right l k a =>
        have hlt : k < k0 := by
          rw [KeysSorted.append_iff] at hs
          exact hs.2.2 (k, a) (by simp [framesBefore]) (k0, a0) (by simp)
        rw [traverseBack, if_neg (by simpa [iteName, Frame.iteName] using hlt.le)]
        have := ih (.node l k a (.node l0 k0 a0 r0)) (by simp)
          (by simpa [framesBefore, framesAfter] using hs)
        simpa [Frame.restore, framesBefore, framesAfter] using this

theorem traverseRight_at {l r : BinTree ℕ α} {k : ℕ} {a : α} (path : List (Frame α))
    (hs : KeysSorted (framesBefore path ++ (l.toList ++ (k, a) :: (r.toList ++ framesAfter path)))) :
    (traverseRight (.node l k a r) path).At (framesBefore path ++ (l.toList ++ [(k, a)]))
      (r.toList ++ framesAfter path) := by
  cases r with
  | nil =>
    have := traverseBack_at path (.node l k a .nil) (by simp) (by simpa using hs)
    simpa [traverseRight] using this
  | node rl rk ra rr =>
    have := traverseLeft_at (.node rl rk ra rr) (.right l k a :: path) (by simp)
    simpa [traverseRight, framesBefore, framesAfter] using this

/-- **One step of a traversal**: the current entry goes behind, or is gone, and the
rest is as before. -/
theorem next_at {K R : List (ℕ × α)} {p : ℕ × α} {t : BinTree ℕ α} {path : List (Frame α)}
    (h : (Traverse.entry t path).At K (p :: R)) (hs : KeysSorted (K ++ p :: R))
    (hb : ∀ q ∈ K ++ p :: R, q.1 ≤ machPortLargest) (delete : Bool) :
    (ipcSplayTraverseNext delete t path).At (K ++ if delete then [] else [p]) R := by
  cases t with
  | nil => exact h.elim
  | node l k a r =>
    obtain ⟨rfl, hR⟩ := h
    obtain ⟨rfl, rfl⟩ := List.cons.inj hR
    rw [List.append_assoc] at hs hb
    unfold ipcSplayTraverseNext
    cases delete with
    | false => simpa using traverseRight_at path hs
    | true =>
      rw [if_neg Bool.true_eq_false_eq_False, if_pos rfl, List.append_nil]
      have hkept : KeysSorted (framesBefore path ++ (l.toList ++ (r.toList ++ framesAfter path))) :=
        hs.sublist (by simp)
      cases l with
      | nil =>
        cases r with
        | nil =>
          cases path with
          | nil => simp [Traverse.At, framesBefore, framesAfter]
          | cons f path =>
            -- the parent loses its child
            cases f with
            | left k' a' r' =>
              have hlt : k < k' := by
                rw [KeysSorted.append_iff] at hs
                have := (KeysSorted.cons_iff.mp (by simpa using hs.2.1)).1 (k', a')
                  (by simp [framesAfter])
                exact this
              simp only [Frame.iteName, hlt, if_true]
              simp [Frame.restore, Traverse.At, framesBefore, framesAfter]
            | right l' k' a' =>
              have hlt : k' < k := by
                rw [KeysSorted.append_iff] at hs
                exact hs.2.2 (k', a') (by simp [framesBefore]) (k, a) (by simp)
              simp only [Frame.iteName, not_lt.mpr hlt.le, if_false]
              have := traverseBack_at path (.node l' k' a' .nil) (by simp)
                (by simpa [framesBefore, framesAfter] using hkept)
              simpa [Frame.restore, framesBefore, framesAfter] using this
        | node rl rk ra rr =>
          simpa using traverseLeft_at (.node rl rk ra rr) path (by simp)
      | node ll lk la lr =>
        cases r with
        | nil =>
          simpa using traverseBack_at path (.node ll lk la lr) (by simp) (by simpa using hkept)
        | node rl rk ra rr =>
          -- the largest entry on the left, already visited, takes the place of the current one
          obtain ⟨l', k', a', hjoin, hl⟩ := joinLargest_eq (.node rl rk ra rr)
            (by simp) (KeysSorted.append_iff.mp
              (KeysSorted.append_iff.mp hkept).2.1).1
            (fun q hq => hb q (by simp only [List.mem_append]; tauto))
          rw [hl] at hkept ⊢
          have := traverseRight_at (r := .node rl rk ra rr) path (by simpa using hkept)
          dsimp only
          rw [hjoin]
          exact this

/-- **The loop of a traversal is the loop over the list.** -/
theorem traverseLoop_spec (visit : σ → ℕ → α → σ × Bool) (n : ℕ) (st : σ) (T : Traverse α)
    {K R : List (ℕ × α)} (hT : T.At K R) (hn : R.length ≤ n) (hs : KeysSorted (K ++ R))
    (hb : ∀ q ∈ K ++ R, q.1 ≤ machPortLargest) :
    (traverseLoop visit n st T).1 = (visitList visit st R).1 ∧
      (traverseLoop visit n st T).2.toList = K ++ (visitList visit st R).2 := by
  induction R generalizing n st T K with
  | nil =>
    cases T with
    | entry t path => cases t <;> simp [Traverse.At] at hT
    | finished root => cases n <;> simpa [traverseLoop, visitList] using hT.2
  | cons p R ih =>
    cases T with
    | finished root => exact absurd hT.1 (by simp)
    | entry t path =>
      cases t with
      | nil => exact hT.elim
      | node l k a r =>
        obtain ⟨m, rfl⟩ : ∃ m, n = m + 1 := ⟨n - 1, by simp at hn; omega⟩
        have hp : p = (k, a) := (List.cons.inj hT.2).1
        subst hp
        have hnext := next_at hT hs hb (visit st k a).2
        -- the entries behind and ahead of the next position are among the present ones
        have hsub : (K ++ (if (visit st k a).2 then [] else [(k, a)]) ++ R).Sublist
            (K ++ (k, a) :: R) := by
          split <;> simp
        have := ih m (visit st k a).1 _ hnext (by simpa using hn) (hs.sublist hsub)
          (fun q hq => hb q (hsub.subset hq))
        rw [traverseLoop, visitList]
        exact ⟨this.1, by rw [this.2, List.append_assoc]⟩

/-- The tree in one piece. -/
def IpcSplayTree.assembled (s : IpcSplayTree α) : BinTree ℕ α :=
  ipcSplayPrimAssemble s.istRoot s.istLtree s.istRtree

theorem toList_assembled (s : IpcSplayTree α) : s.assembled.toList = s.toList := by
  rw [assembled]
  by_cases hr : s.istRoot = .nil
  · rw [IpcSplayTree.toList_eq_nil_iff.mpr hr, hr, ipcSplayPrimAssemble, toList_nil]
  · rw [toList_primAssemble hr, toList_of_ne hr]

theorem traverse_start {s : IpcSplayTree α} (hr : s.istRoot ≠ .nil) :
    (traverseLeft s.assembled []).At [] s.toList := by
  have hne : s.assembled ≠ .nil := by
    rwa [Ne, ← BinTree.toList_eq_nil_iff, toList_assembled, IpcSplayTree.toList_eq_nil_iff]
  have hstart := traverseLeft_at s.assembled [] hne
  simpa only [framesBefore, framesAfter, List.append_nil, toList_assembled] using hstart

/-- **A traversal visits the entries in name order**, each once, whatever is deleted. -/
theorem traverse_spec {s : IpcSplayTree α} (hs : s.Wf) (visit : σ → ℕ → α → σ × Bool) (st : σ) :
    (ipcSplayTraverse visit st s).1 = (visitList visit st s.toList).1 ∧
      (ipcSplayTraverse visit st s).2.toList = (visitList visit st s.toList).2 := by
  unfold ipcSplayTraverse
  cases hr : s.istRoot with
  | nil =>
    rw [IpcSplayTree.toList_eq_nil_iff.mpr hr]
    exact ⟨rfl, rfl⟩
  | node l k a r =>
    have := traverseLoop_spec visit s.toList.length st _ (traverse_start (by rw [hr]; simp)) le_rfl
      hs.sorted hs.bounded
    rw [assembled, hr] at this
    exact ⟨this.1, by simpa using this.2⟩

theorem visitList_sublist (visit : σ → ℕ → α → σ × Bool) (st : σ) (L : List (ℕ × α)) :
    (visitList visit st L).2.Sublist L := by
  induction L generalizing st with
  | nil => exact List.Sublist.refl _
  | cons p L ih =>
    rw [visitList]
    split
    · exact (ih _).cons p
    · exact (ih _).cons_cons p

theorem wf_traverse {s : IpcSplayTree α} (hs : s.Wf) (visit : σ → ℕ → α → σ × Bool) (st : σ) :
    (ipcSplayTraverse visit st s).2.Wf := by
  have hlist := (traverse_spec hs visit st).2
  have hsub := visitList_sublist visit st s.toList
  have hshape : (ipcSplayTraverse visit st s).2 = s ∨
      ∃ t, (ipcSplayTraverse visit st s).2 = ofRoot t := by
    unfold ipcSplayTraverse
    split
    · exact Or.inl rfl
    · exact Or.inr ⟨_, rfl⟩
  rcases hshape with h | ⟨t, h⟩
  · rw [h]; exact hs
  · rw [h] at hlist ⊢
    rw [toList_ofRoot] at hlist
    exact wf_ofRoot (by rw [hlist]; exact hs.sorted.sublist hsub)
      (by rw [hlist]; exact fun p hp => hs.bounded p (hsub.subset hp))

end Osfmk

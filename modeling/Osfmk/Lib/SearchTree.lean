import Mathlib

/-!
# Binary trees with holes, read through their in-order lists

A binary tree whose nodes carry a key and a value, together with the two spines
a top-down descent leaves behind: the *left spine* collects the nodes passed on
the way to the right (each has a hole where its right child was), the *right
spine* the nodes passed on the way to the left.  Every question about such a
broken tree is answered on the list of its nodes in symmetric order, on which
linking a node to a spine, rotating it and filling a hole are the identity.
-/

open List Option

namespace Osfmk

/-- A binary tree with a key and a value at each node. -/
inductive BinTree (κ α : Type*)
  | nil : BinTree κ α
  /-- A node with its left child, key, value and right child. -/
  | node (l : BinTree κ α) (k : κ) (a : α) (r : BinTree κ α) : BinTree κ α
  deriving DecidableEq, Inhabited

/-- A left spine: nodes whose right child is the hole, innermost first. -/
abbrev LSpine (κ α : Type*) := List (BinTree κ α × κ × α)

/-- A right spine: nodes whose left child is the hole, innermost first. -/
abbrev RSpine (κ α : Type*) := List (κ × α × BinTree κ α)

namespace BinTree

variable {κ α : Type*}

/-- The nodes of a tree in symmetric order. -/
def toList : BinTree κ α → List (κ × α)
  | nil => []
  | node l k a r => l.toList ++ (k, a) :: r.toList

@[simp] theorem toList_nil : (nil : BinTree κ α).toList = [] := rfl

@[simp] theorem toList_node (l : BinTree κ α) (k : κ) (a : α) (r : BinTree κ α) :
    (node l k a r).toList = l.toList ++ (k, a) :: r.toList := rfl

@[simp] theorem toList_eq_nil_iff {t : BinTree κ α} : t.toList = [] ↔ t = nil := by
  cases t <;> simp

/-- Is the tree empty? -/
def isNil : BinTree κ α → Bool
  | nil => true
  | node _ _ _ _ => false

@[simp] theorem isNil_nil : (nil : BinTree κ α).isNil = true := rfl

@[simp] theorem isNil_node (l : BinTree κ α) (k : κ) (a : α) (r : BinTree κ α) :
    (node l k a r).isNil = false := rfl

theorem isNil_eq_false {t : BinTree κ α} : t.isNil = false ↔ t ≠ nil := by
  cases t <;> simp

/-- The nodes of a left spine in symmetric order. -/
def leftList : LSpine κ α → List (κ × α)
  | [] => []
  | (l, k, a) :: sp => leftList sp ++ (l.toList ++ [(k, a)])

/-- The nodes of a right spine in symmetric order. -/
def rightList : RSpine κ α → List (κ × α)
  | [] => []
  | (k, a, r) :: sp => (k, a) :: (r.toList ++ rightList sp)

/-- Fill the hole of a left spine. -/
def closeLeft : LSpine κ α → BinTree κ α → BinTree κ α
  | [], t => t
  | (l, k, a) :: sp, t => closeLeft sp (node l k a t)

/-- Fill the hole of a right spine. -/
def closeRight : RSpine κ α → BinTree κ α → BinTree κ α
  | [], t => t
  | (k, a, r) :: sp, t => closeRight sp (node t k a r)

@[simp] theorem leftList_nil : leftList ([] : LSpine κ α) = [] := rfl

@[simp] theorem leftList_cons (l : BinTree κ α) (k : κ) (a : α) (sp : LSpine κ α) :
    leftList ((l, k, a) :: sp) = leftList sp ++ (l.toList ++ [(k, a)]) := rfl

@[simp] theorem rightList_nil : rightList ([] : RSpine κ α) = [] := rfl

@[simp] theorem rightList_cons (k : κ) (a : α) (r : BinTree κ α) (sp : RSpine κ α) :
    rightList ((k, a, r) :: sp) = (k, a) :: (r.toList ++ rightList sp) := rfl

/-- **Filling the hole of a left spine appends the filling to its nodes.** -/
@[simp] theorem toList_closeLeft (sp : LSpine κ α) (t : BinTree κ α) :
    (closeLeft sp t).toList = leftList sp ++ t.toList := by
  induction sp generalizing t with
  | nil => simp [closeLeft]
  | cons f sp ih =>
    obtain ⟨l, k, a⟩ := f
    simp [closeLeft, ih]

/-- **Filling the hole of a right spine puts the filling before its nodes.** -/
@[simp] theorem toList_closeRight (sp : RSpine κ α) (t : BinTree κ α) :
    (closeRight sp t).toList = t.toList ++ rightList sp := by
  induction sp generalizing t with
  | nil => simp [closeRight]
  | cons f sp ih =>
    obtain ⟨k, a, r⟩ := f
    simp [closeRight, ih]

/-- Replacing the value stored under a key, at every node that carries it. -/
def mapKey [DecidableEq κ] (k0 : κ) (f : α → α) : BinTree κ α → BinTree κ α
  | nil => nil
  | node l k a r => node (l.mapKey k0 f) k (if k = k0 then f a else a) (r.mapKey k0 f)

/-- The value replacement on a list of nodes. -/
def mapKeyList [DecidableEq κ] (k0 : κ) (f : α → α) (L : List (κ × α)) : List (κ × α) :=
  L.map fun p => (p.1, if p.1 = k0 then f p.2 else p.2)

@[simp] theorem toList_mapKey [DecidableEq κ] (k0 : κ) (f : α → α) (t : BinTree κ α) :
    (t.mapKey k0 f).toList = mapKeyList k0 f t.toList := by
  induction t with
  | nil => rfl
  | node l k a r ihl ihr => simp [mapKey, ihl, ihr, mapKeyList]

/-- Replacement along a left spine. -/
def mapLeft [DecidableEq κ] (k0 : κ) (f : α → α) (sp : LSpine κ α) : LSpine κ α :=
  sp.map fun p => (p.1.mapKey k0 f, p.2.1, if p.2.1 = k0 then f p.2.2 else p.2.2)

/-- Replacement along a right spine. -/
def mapRight [DecidableEq κ] (k0 : κ) (f : α → α) (sp : RSpine κ α) : RSpine κ α :=
  sp.map fun p => (p.1, if p.1 = k0 then f p.2.1 else p.2.1, p.2.2.mapKey k0 f)

@[simp] theorem leftList_mapLeft [DecidableEq κ] (k0 : κ) (f : α → α) (sp : LSpine κ α) :
    leftList (mapLeft k0 f sp) = mapKeyList k0 f (leftList sp) := by
  induction sp with
  | nil => rfl
  | cons p sp ih =>
    obtain ⟨l, k, a⟩ := p
    simp_all [mapLeft, mapKeyList]

@[simp] theorem rightList_mapRight [DecidableEq κ] (k0 : κ) (f : α → α) (sp : RSpine κ α) :
    rightList (mapRight k0 f sp) = mapKeyList k0 f (rightList sp) := by
  induction sp with
  | nil => rfl
  | cons p sp ih =>
    obtain ⟨k, a, r⟩ := p
    simp_all [mapRight, mapKeyList]

theorem forall_mem_mapKeyList [DecidableEq κ] {k0 : κ} {f : α → α} {L : List (κ × α)}
    {P : κ → Prop} : (∀ p ∈ mapKeyList k0 f L, P p.1) ↔ ∀ p ∈ L, P p.1 := by
  unfold mapKeyList
  rw [List.forall_mem_map]

end BinTree

/-- The keys of a list of nodes increase strictly: the search-tree property. -/
def KeysSorted {κ α : Type*} [LT κ] (L : List (κ × α)) : Prop :=
  L.Pairwise fun p q => p.1 < q.1

namespace KeysSorted

variable {κ α : Type*} [LinearOrder κ]

@[simp] theorem nil : KeysSorted ([] : List (κ × α)) := List.Pairwise.nil

variable {L M : List (κ × α)} {a : α} {k : κ}

theorem append_iff : KeysSorted (L ++ M) ↔
      KeysSorted L ∧ KeysSorted M ∧ ∀ p ∈ L, ∀ q ∈ M, p.1 < q.1 :=
  pairwise_append

theorem cons_iff {p : κ × α} :
    KeysSorted (p :: L) ↔ (∀ q ∈ L, p.1 < q.1) ∧ KeysSorted L :=
  pairwise_cons

theorem sublist (h : KeysSorted M) (hs : L.Sublist M) : KeysSorted L :=
  List.Pairwise.sublist hs h

section

variable (h : KeysSorted L)
include h

theorem filter (p : κ × α → Bool) : KeysSorted (L.filter p) :=
  h.sublist filter_sublist

theorem mapKeyList (k0 : κ) (f : α → α) : KeysSorted (BinTree.mapKeyList k0 f L) := by
  unfold KeysSorted BinTree.mapKeyList
  rw [pairwise_map]
  exact h

theorem keys_nodup : (L.map Prod.fst).Nodup := by
  rw [List.Nodup, pairwise_map]
  exact h.imp fun hlt => ne_of_lt hlt

theorem lookup_eq_some_iff : L.lookup k = some a ↔ (k, a) ∈ L := by
  induction L with
  | nil => simp
  | cons p L ih =>
    obtain ⟨k', a'⟩ := p
    rw [cons_iff] at h
    rw [lookup_cons]
    by_cases hk : k = k'
    · subst hk
      simp only [beq_self_eq_true, some.injEq, mem_cons, Prod.mk.injEq, true_and]
      constructor
      · intro ha; exact Or.inl ha.symm
      · rintro (ha | ha)
        · exact ha.symm
        · exact absurd (h.1 _ ha) (lt_irrefl _)
    · have hb : (k == k') = false := by simpa using hk
      simp only [hb, mem_cons, Prod.mk.injEq, hk, false_and, false_or]
      exact ih h.2

end

theorem lookup_eq_none_iff : L.lookup k = none ↔ ∀ p ∈ L, p.1 ≠ k := by
  rw [List.lookup_eq_none_iff]
  constructor
  · intro h p hp he
    have := h p hp
    rw [he] at this
    simp at this
  · intro h p hp
    simpa using fun he => h p hp he.symm

/-- **A key can only sit at its place**: when everything before a point is below
`k` and everything after it above, looking `k` up inspects that point alone. -/
theorem lookup_split {k' : κ}
    (hL : ∀ p ∈ L, p.1 < k) (hM : ∀ p ∈ M, k < p.1) :
    (L ++ (k', a) :: M).lookup k = if k' = k then some a else none := by
  have hLn : L.lookup k = none := lookup_eq_none_iff.mpr fun p hp => ne_of_lt (hL p hp)
  have hMn : M.lookup k = none := lookup_eq_none_iff.mpr fun p hp => ne_of_gt (hM p hp)
  rw [lookup_append, hLn, none_or, lookup_cons]
  by_cases h : k = k'
  · simp [h]
  · have hb : (k == k') = false := by simpa using h
    rw [hb]
    simp [hMn, Ne.symm h]

theorem filter_lt_append (hL : ∀ p ∈ L, p.1 < k)
    (hM : ∀ p ∈ M, k ≤ p.1) : (L ++ M).filter (fun p => decide (p.1 < k)) = L := by
  rw [filter_append, filter_eq_self.mpr (by simpa using hL),
    filter_eq_nil_iff.mpr (by simpa using hM), append_nil]

theorem filter_le_append (hL : ∀ p ∈ L, p.1 < k)
    (hM : ∀ p ∈ M, k ≤ p.1) : (L ++ M).filter (fun p => decide (k ≤ p.1)) = M := by
  rw [filter_append, filter_eq_nil_iff.mpr (by simpa using hL),
    filter_eq_self.mpr (by simpa using hM), nil_append]

section

variable (h : KeysSorted L)
include h

theorem filter_append_filter (k : κ) :
    L.filter (fun p => decide (p.1 < k)) ++ L.filter (fun p => decide (k ≤ p.1)) = L := by
  induction L with
  | nil => rfl
  | cons p L ih =>
    rw [cons_iff] at h
    by_cases hp : p.1 < k
    · have hn : ¬ k ≤ p.1 := not_le.mpr hp
      simp only [filter_cons, hp, hn, decide_true, decide_false, if_true, cons_append]
      simp [ih h.2]
    · have hle : k ≤ p.1 := not_lt.mp hp
      have hnil : L.filter (fun p => decide (p.1 < k)) = [] := by
        rw [filter_eq_nil_iff]
        intro q hq
        simpa using hle.trans (h.1 q hq).le
      have hself : L.filter (fun p => decide (k ≤ p.1)) = L := by
        rw [filter_eq_self]
        intro q hq
        simpa using hle.trans (h.1 q hq).le
      simp [hp, hle, hnil, hself]

theorem perm_cons_filter
    (hk : (k, a) ∈ L) : L.Perm ((k, a) :: L.filter fun p => decide (p.1 ≠ k)) := by
  induction L with
  | nil => simp at hk
  | cons p L ih =>
    rw [cons_iff] at h
    rcases mem_cons.mp hk with rfl | hk'
    · have hself : L.filter (fun p => decide (p.1 ≠ k)) = L := by
        rw [filter_eq_self]
        intro q hq
        simpa using ne_of_gt (h.1 q hq)
      rw [filter_cons, if_neg (by simp), hself]
    · have hpk : p.1 ≠ k := ne_of_lt (h.1 _ hk')
      rw [filter_cons, if_pos (by simpa using hpk)]
      exact ((ih h.2 hk').cons p).trans (List.Perm.swap _ _ _)

theorem perm_insert (k : κ) (a : α) :
    (L.filter (fun p => decide (p.1 < k)) ++ (k, a) :: L.filter fun p => decide (k ≤ p.1)).Perm
      ((k, a) :: L) := by
  refine perm_middle.trans (List.Perm.cons _ ?_)
  rw [filter_append_filter h]

theorem perm_mapKeyList (f : α → α) (hk : (k, a) ∈ L) :
    (BinTree.mapKeyList k f L).Perm ((k, f a) :: L.filter fun p => decide (p.1 ≠ k)) := by
  have hrest : BinTree.mapKeyList k f (L.filter fun p => decide (p.1 ≠ k)) =
      L.filter fun p => decide (p.1 ≠ k) := by
    unfold BinTree.mapKeyList
    conv_rhs => rw [← map_id (L.filter _)]
    refine map_congr_left fun p hp => ?_
    rw [mem_filter, decide_eq_true_eq] at hp
    simp [hp.2]
  have := (perm_cons_filter h hk).map fun p => (p.1, if p.1 = k then f p.2 else p.2)
  rw [map_cons] at this
  simpa [BinTree.mapKeyList] using this.trans (List.Perm.cons _ (List.Perm.of_eq hrest))

end

theorem lookup_congr (hL : KeysSorted L) (hM : KeysSorted M)
    (h : ∀ a, (k, a) ∈ L ↔ (k, a) ∈ M) : L.lookup k = M.lookup k :=
  Option.ext fun a => by rw [hL.lookup_eq_some_iff, hM.lookup_eq_some_iff, h a]

theorem lookup_filter_ne (h : KeysSorted L) (k k' : κ) :
    (L.filter fun p => decide (p.1 ≠ k)).lookup k' = if k' = k then none else L.lookup k' := by
  split
  · next hk => exact lookup_eq_none_iff.mpr fun p hp => by simp_all
  · next hk => exact lookup_congr (h.filter _) h fun a => by simp [hk]

theorem lookup_mapKeyList (k k' : κ) (f : α → α) :
    (BinTree.mapKeyList k f L).lookup k' =
      if k' = k then (L.lookup k').map f else L.lookup k' := by
  induction L with
  | nil => simp [BinTree.mapKeyList]
  | cons p L ih =>
    obtain ⟨j, a⟩ := p
    have hcons : BinTree.mapKeyList k f ((j, a) :: L) =
        (j, if j = k then f a else a) :: BinTree.mapKeyList k f L := rfl
    rw [hcons, lookup_cons, lookup_cons, ih]
    by_cases hj : k' = j
    · subst hj
      by_cases hk : k' = k <;> simp [hk]
    · have hb : (k' == j) = false := by simpa using hj
      simp [hb]

theorem ext (hL : KeysSorted L) (hM : KeysSorted M)
    (h : ∀ p, p ∈ L ↔ p ∈ M) : L = M := by
  have hperm : L.Perm M :=
    (perm_ext_iff_of_nodup (hL.keys_nodup.of_map _) (hM.keys_nodup.of_map _)).mpr h
  exact hperm.eq_of_pairwise (fun a b _ _ hab hba => absurd (hab.trans hba) (lt_irrefl _)) hL hM

end KeysSorted

end Osfmk

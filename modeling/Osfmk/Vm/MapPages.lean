import Mathlib

/-!
# What a VM map says of each page

`vm_map_protect` and `vm_map_simplify` of `vm/vm_map.c` change the entries of a map.  What counts is
what the map says of each address: entries that are split or joined say the same as before.  A map is
the list of its entries here, and the place of an entry in the list stands for its address.
-/

open List Option

namespace Osfmk

inductive VmInherit
  | share
  | copy
  | none
  deriving DecidableEq

inductive VmBehavior
  | default
  | random
  | sequential
  | reverseSequential
  deriving DecidableEq

/-- The fields of `struct vm_map_entry` that say what is mapped and how. -/
structure VmAttrs where
  /-- The object or the sub-map; `none` is `VM_OBJECT_NULL`. -/
  object : Option ℕ
  offset : ℕ
  isShared : Bool
  isSubMap : Bool
  needsCopy : Bool
  behavior : VmBehavior
  protection : ℕ
  maxProtection : ℕ
  inheritance : VmInherit
  deriving DecidableEq

/-- `struct vm_map_entry`. -/
structure VmEntry extends VmAttrs where
  vmeStart : ℕ
  vmeEnd : ℕ
  inTransition : Bool
  needsWakeup : Bool
  wiredCount : ℕ
  userWiredCount : ℕ
  deriving DecidableEq

namespace VmEntry

/-- The entry is for this address. -/
def Covers (e : VmEntry) (a : ℕ) : Prop := e.vmeStart ≤ a ∧ a < e.vmeEnd

instance (e : VmEntry) (a : ℕ) : Decidable (e.Covers a) := inferInstanceAs (Decidable (_ ∧ _))

/-- The part of an entry before an address, after a clipping there. -/
def below (e : VmEntry) (a : ℕ) : VmEntry := { e with vmeEnd := a }

/-- The part of an entry from an address on. -/
def above (e : VmEntry) (a : ℕ) : VmEntry :=
  { e with vmeStart := a, offset := (e.offset + (a - e.vmeStart)) % 2 ^ 32 }

/-- What an entry says of one of its addresses. -/
def page (e : VmEntry) (a : ℕ) : VmEntry :=
  { e with
    vmeStart := a, vmeEnd := a + 1, offset := (e.offset + (a - e.vmeStart)) % 2 ^ 32
    needsWakeup := false }

end VmEntry

/-- The entries are sorted and not empty. -/
structure WfEntries (m : List VmEntry) : Prop where
  sorted : m.Pairwise fun x y => x.vmeEnd ≤ y.vmeStart
  nonempty : ∀ e ∈ m, e.vmeStart < e.vmeEnd

/-- **What a map says of an address.** -/
def pageAt (m : List VmEntry) (a : ℕ) : Option VmEntry :=
  (m.find? fun e => decide (e.Covers a)).map (·.page a)

/-- The entries that end before an address or at it, which a lookup passes. -/
def entriesTo (m : List VmEntry) (a : ℕ) : List VmEntry :=
  m.takeWhile fun e => decide (e.vmeEnd ≤ a)

/-- The entries from the first on that ends after an address: a lookup succeeds when that entry
begins before the address or at it. -/
def entriesFrom (m : List VmEntry) (a : ℕ) : List VmEntry :=
  m.dropWhile fun e => decide (e.vmeEnd ≤ a)

inductive ProtectReturn
  | success
  | invalidAddress
  | invalidArgument
  | protectionFailure
  deriving DecidableEq

/-- The first pass of `vm_map_protect`. -/
def protectCheck (newProt stop : ℕ) : ℕ → List VmEntry → ProtectReturn
  | prev, [] => if stop > prev then .invalidAddress else .success
  | prev, current :: rest =>
    if current.vmeStart < stop then
      if current.isSubMap then .invalidArgument
      else if current.vmeStart ≠ prev then .invalidAddress
      else if newProt &&& current.maxProtection ≠ newProt then .protectionFailure
      else protectCheck newProt stop current.vmeEnd rest
    else if stop > prev then .invalidAddress else .success

/-- The new protection of an entry. -/
def VmEntry.protect (newProt : ℕ) (setMax : Bool) (e : VmEntry) : VmEntry :=
  if setMax then { e with maxProtection := newProt, protection := newProt &&& e.protection }
  else { e with protection := newProt }

/-- The second pass of `vm_map_protect`. -/
def protectChange (newProt : ℕ) (setMax : Bool) (stop : ℕ) : List VmEntry → List VmEntry
  | [] => []
  | current :: rest =>
    if current.vmeStart < stop then
      if stop < current.vmeEnd then
        -- the new entry begins where the loop stops
        (current.below stop).protect newProt setMax :: current.above stop :: rest
      else current.protect newProt setMax :: protectChange newProt setMax stop rest
    else current :: rest

def vmMapProtect (m : List VmEntry) (start stop newProt : ℕ) (setMax : Bool) :
    ProtectReturn × List VmEntry :=
  match entriesFrom m start with
  | [] => (.invalidAddress, m)
  | entry :: rest =>
    if entry.vmeStart ≤ start then
      match protectCheck newProt stop entry.vmeStart (entry :: rest) with
      | .success =>
        (.success, entriesTo m start ++
          if start > entry.vmeStart then
            entry.below start :: protectChange newProt setMax stop (entry.above start :: rest)
          else protectChange newProt setMax stop (entry :: rest))
      | kr => (kr, m)
    else (.invalidAddress, m)

/-- The tests that both merges of `vm_map_simplify` make of two neighbours, but for the flags. -/
def VmEntry.Joins (x y : VmEntry) : Prop :=
  x.vmeEnd = y.vmeStart ∧ x.inheritance = y.inheritance ∧ x.protection = y.protection ∧
    x.maxProtection = y.maxProtection ∧ x.behavior = y.behavior ∧ x.wiredCount = y.wiredCount ∧
    x.userWiredCount = y.userWiredCount ∧ x.inTransition = false ∧ y.inTransition = false ∧
    x.needsCopy = y.needsCopy ∧ x.object = y.object ∧
    (x.offset + (x.vmeEnd - x.vmeStart)) % 2 ^ 32 = y.offset

instance (x y : VmEntry) : Decidable (x.Joins y) := by
  unfold VmEntry.Joins
  infer_instance

/-- The first merge of `vm_map_simplify`, with the entry before. -/
def simplifyLower (m : List VmEntry) (start : ℕ) : List VmEntry :=
  match (entriesTo m start).getLast?, entriesFrom m start with
  | some prev, this :: after =>
    if this.vmeStart ≤ start ∧ prev.isShared = false ∧ prev.isSubMap = false ∧
        this.isShared = false ∧ this.isSubMap = false ∧ prev.Joins this then
      (entriesTo m start).dropLast ++ { prev with vmeEnd := this.vmeEnd } :: after
    else m
  | _, _ => m

/-- The second merge, with the entry after: it tests the flags of that entry twice. -/
def simplifyUpper (m : List VmEntry) (start : ℕ) : List VmEntry :=
  match entriesFrom m start with
  | this :: next :: after =>
    if this.vmeStart ≤ start ∧ next.isShared = false ∧ next.isSubMap = false ∧
        next.isShared = false ∧ next.isSubMap = false ∧ this.Joins next then
      entriesTo m start ++ { this with vmeEnd := next.vmeEnd } :: after
    else m
  | _ => m

def vmMapSimplify (m : List VmEntry) (start : ℕ) : List VmEntry :=
  simplifyUpper (simplifyLower m start) start

variable {m l l1 l2 : List VmEntry} {e x y : VmEntry} {a s start stop newProt : ℕ} {setMax : Bool}

@[simp] theorem pageAt_nil (a : ℕ) : pageAt [] a = none := rfl

theorem pageAt_cons (e : VmEntry) (l : List VmEntry) (a : ℕ) : pageAt (e :: l) a =
      if e.vmeStart ≤ a ∧ a < e.vmeEnd then some (e.page a) else pageAt l a := by
  change _ = if e.Covers a then _ else _
  unfold pageAt
  rw [List.find?_cons]
  by_cases h : e.Covers a <;> simp [h]

theorem pageAt_append (l1 l2 : List VmEntry) (a : ℕ) :
    pageAt (l1 ++ l2) a = (pageAt l1 a).or (pageAt l2 a) := by
  unfold pageAt
  rw [List.find?_append, map_or]

theorem pageAt_append_congr (h : pageAt l1 a = pageAt l2 a) (l : List VmEntry) :
    pageAt (l ++ l1) a = pageAt (l ++ l2) a := by
  rw [pageAt_append, pageAt_append, h]

theorem pageAt_eq_none (h : ∀ e ∈ l, ¬ e.Covers a) : pageAt l a = none := by
  unfold pageAt
  rw [List.find?_eq_none.mpr fun e he => by simpa using h e he]
  rfl

theorem page_above (hs : e.vmeStart ≤ s) (ha : s ≤ a) : (e.above s).page a = e.page a := by
  unfold VmEntry.page VmEntry.above
  have : ((e.offset + (s - e.vmeStart)) % 2 ^ 32 + (a - s)) % 2 ^ 32 =
      (e.offset + (a - e.vmeStart)) % 2 ^ 32 := by omega
  simp only [this]

theorem pageAt_below_cons (e : VmEntry) (s : ℕ) (l : List VmEntry) (a : ℕ) :
    pageAt (e.below s :: l) a =
      if e.vmeStart ≤ a ∧ a < s then some (e.page a) else pageAt l a :=
  pageAt_cons (e.below s) l a

/-- **Clipping changes no page.** -/
theorem pageAt_clip (hs : e.vmeStart ≤ s) (hend : s ≤ e.vmeEnd) (l : List VmEntry) (a : ℕ) :
    pageAt (e.below s :: e.above s :: l) a = pageAt (e :: l) a := by
  rw [pageAt_below_cons, pageAt_cons, pageAt_cons]
  change (if _ then _ else if s ≤ a ∧ a < e.vmeEnd then _ else _) = _
  by_cases hlt : a < s
  · split_ifs <;> first | rfl | omega
  rw [if_neg (by omega)]
  by_cases h : s ≤ a ∧ a < e.vmeEnd
  · rw [if_pos h, if_pos (by omega), page_above hs h.1]
  · rw [if_neg h, if_neg (by omega)]

theorem entriesTo_append (m : List VmEntry) (a : ℕ) : entriesTo m a ++ entriesFrom m a = m :=
  takeWhile_append_dropWhile

theorem entriesTo_end (he : e ∈ entriesTo m a) : e.vmeEnd ≤ a := by
  simpa using mem_takeWhile_imp he

theorem entriesFrom_end (h : entriesFrom m a = e :: l) : a < e.vmeEnd := by
  have := List.head?_dropWhile_not (fun e : VmEntry => decide (e.vmeEnd ≤ a)) m
  rw [show m.dropWhile _ = _ from h] at this
  simpa using this

theorem WfEntries.from (h : WfEntries m) (a : ℕ) : WfEntries (entriesFrom m a) :=
  ⟨h.sorted.sublist (dropWhile_sublist _),
    fun e he => h.nonempty e ((dropWhile_sublist _).subset he)⟩

section

variable (h : WfEntries (e :: l))
include h

theorem WfEntries.pageAt_before (ha : a < e.vmeStart) : pageAt (e :: l) a = none := by
  refine pageAt_eq_none fun x hx hc => ?_
  rcases mem_cons.mp hx with rfl | hx
  · exact absurd hc.1 (by omega)
  · have hsorted := (pairwise_cons.mp h.sorted).1 x hx
    have := h.nonempty e mem_cons_self
    exact absurd hc.1 (by omega)

theorem WfEntries.tail : WfEntries l :=
  ⟨(pairwise_cons.mp h.sorted).2, fun x hx => h.nonempty x (mem_cons_of_mem _ hx)⟩

theorem WfEntries.above (hs : s < e.vmeEnd) : WfEntries (e.above s :: l) := by
  obtain ⟨hhead, htail⟩ := pairwise_cons.mp h.sorted
  refine ⟨pairwise_cons.mpr ⟨hhead, htail⟩, fun x hx => ?_⟩
  rcases mem_cons.mp hx with rfl | hx
  · exact hs
  · exact h.nonempty x (mem_cons_of_mem _ hx)

end

theorem protect_page : (e.protect newProt setMax).page a = (e.page a).protect newProt setMax := by
  unfold VmEntry.protect
  cases setMax <;> rfl

theorem pageAt_protect_cons (e : VmEntry) (l : List VmEntry) (a : ℕ) :
    pageAt (e.protect newProt setMax :: l) a =
      if e.vmeStart ≤ a ∧ a < e.vmeEnd then some ((e.page a).protect newProt setMax)
      else pageAt l a := by
  rw [pageAt_cons, protect_page]
  unfold VmEntry.protect
  cases setMax <;> rfl

/-- **The second pass**: the pages before `stop` get their new protection. -/
theorem pageAt_protectChange (h : WfEntries l) (a : ℕ) :
    pageAt (protectChange newProt setMax stop l) a =
      if a < stop then (pageAt l a).map (·.protect newProt setMax) else pageAt l a := by
  induction l with
  | nil => simp [protectChange]
  | cons current rest ih =>
    rw [protectChange]
    by_cases hstart : current.vmeStart < stop
    · rw [if_pos hstart]
      by_cases hclip : stop < current.vmeEnd
      · rw [if_pos hclip, pageAt_protect_cons, ← pageAt_clip hstart.le hclip.le rest a,
          pageAt_below_cons]
        change (if current.vmeStart ≤ a ∧ a < stop then _ else _) = _
        by_cases hlt : a < stop
        · rw [if_pos hlt, (h.above hclip).pageAt_before hlt]
          split_ifs <;> rfl
        · rw [if_neg hlt, if_neg (by omega), if_neg (by omega)]
      rw [if_neg hclip, pageAt_protect_cons, pageAt_cons, ih h.tail]
      by_cases hc : current.vmeStart ≤ a ∧ a < current.vmeEnd
      · rw [if_pos hc, if_pos hc, if_pos (by omega)]
        rfl
      · rw [if_neg hc, if_neg hc]
    · rw [if_neg hstart]
      by_cases hlt : a < stop
      · rw [if_pos hlt, h.pageAt_before (by omega)]
        rfl
      · rw [if_neg hlt]

/-- **The first pass**: the range is mapped, and every page of it allows the protection. -/
theorem protectCheck_success {prev : ℕ} (h : protectCheck newProt stop prev l = .success)
    (hle : prev ≤ a) (hlt : a < stop) :
    ∃ e, pageAt l a = some e ∧ newProt &&& e.maxProtection = newProt := by
  induction l generalizing prev with
  | nil =>
    rw [protectCheck, if_pos (by omega)] at h
    cases h
  | cons current rest ih =>
    rw [protectCheck] at h
    split_ifs at h with h1 h2 h3 h4 h5 <;> try omega
    rw [pageAt_cons]
    by_cases hc : current.vmeStart ≤ a ∧ a < current.vmeEnd
    · rw [if_pos hc]
      exact ⟨_, rfl, not_not.mp h4⟩
    · rw [if_neg hc]
      exact ih h (by omega)

theorem vmMapProtect_cases (hwf : WfEntries m) (start stop newProt : ℕ) (setMax : Bool) :
    ((vmMapProtect m start stop newProt setMax).1 ≠ .success ∧
      (vmMapProtect m start stop newProt setMax).2 = m) ∨
    (vmMapProtect m start stop newProt setMax).1 = .success ∧
      (∀ a, start ≤ a → a < stop → ∃ e, pageAt m a = some e ∧ newProt &&& e.maxProtection = newProt) ∧
      ∀ a, pageAt (vmMapProtect m start stop newProt setMax).2 a =
        if start ≤ a ∧ a < stop then (pageAt m a).map (·.protect newProt setMax)
        else pageAt m a := by
  unfold vmMapProtect
  have hm := entriesTo_append m start
  have hfrom := hwf.from start
  have hpassed : ∀ a, start ≤ a → pageAt (entriesTo m start) a = none := fun a ha =>
    pageAt_eq_none fun e he hc => absurd hc.2 (by have := entriesTo_end he; omega)
  cases hentries : entriesFrom m start with
  | nil => exact .inl ⟨ProtectReturn.noConfusion, rfl⟩
  | cons entry rest =>
    rw [hentries] at hm hfrom
    dsimp only
    by_cases hfound : entry.vmeStart ≤ start
    · rw [if_pos hfound]
      cases hcheck : protectCheck newProt stop entry.vmeStart (entry :: rest) with
      | success =>
        refine .inr ⟨rfl, fun a hle hlt => ?_, fun a => ?_⟩
        · rw [← hm, pageAt_append, hpassed a hle, none_or]
          exact protectCheck_success hcheck (hfound.trans hle) hlt
        have hend := entriesFrom_end hentries
        -- clipped or not, the second pass starts with an entry that begins at `start`
        have hsame : ∀ a, pageAt (if start > entry.vmeStart then
            entry.below start :: protectChange newProt setMax stop (entry.above start :: rest)
            else protectChange newProt setMax stop (entry :: rest)) a =
            if start ≤ a ∧ a < stop then (pageAt (entry :: rest) a).map (·.protect newProt setMax)
            else pageAt (entry :: rest) a := by
          intro a
          by_cases hclip : start > entry.vmeStart
          · rw [if_pos hclip, pageAt_below_cons, pageAt_protectChange (hfrom.above hend),
              ← pageAt_clip hfound hend.le rest a, pageAt_below_cons]
            by_cases hle : start ≤ a
            · have hnot : ¬ (entry.vmeStart ≤ a ∧ a < start) := by omega
              by_cases hlt : a < stop <;> simp [hle, hlt, hnot]
            · rw [(hfrom.above hend).pageAt_before (by exact not_le.mp hle)]
              simp [hle]
          rw [if_neg hclip, pageAt_protectChange hfrom]
          by_cases hle : start ≤ a
          · by_cases hlt : a < stop <;> simp [hle, hlt]
          · rw [hfrom.pageAt_before (by omega)]
            simp
        conv_rhs => rw [← hm]
        rw [pageAt_append, pageAt_append, hsame a]
        by_cases hin : start ≤ a ∧ a < stop
        · rw [if_pos hin, if_pos hin, hpassed a hin.1, none_or, none_or]
        · rw [if_neg hin, if_neg hin]
      | invalidAddress => exact .inl ⟨ProtectReturn.noConfusion, rfl⟩
      | invalidArgument => exact .inl ⟨ProtectReturn.noConfusion, rfl⟩
      | protectionFailure => exact .inl ⟨ProtectReturn.noConfusion, rfl⟩
    · rw [if_neg hfound]
      exact Or.inl ⟨ProtectReturn.noConfusion, rfl⟩

/-- Every page allows no more than its maximum. -/
def ProtectionsBounded (m : List VmEntry) : Prop :=
  ∀ a e, pageAt m a = some e → e.protection &&& e.maxProtection = e.protection

theorem protect_bounded (hnew : newProt &&& e.maxProtection = newProt) :
    (e.protect newProt setMax).protection &&& (e.protect newProt setMax).maxProtection =
      (e.protect newProt setMax).protection := by
  cases setMax with
  | false => exact hnew
  | true =>
    change newProt &&& e.protection &&& newProt = newProt &&& e.protection
    rw [Nat.and_right_comm, Nat.and_self]

/-- **`vm_map_protect` is atomic and exact.** -/
theorem protect_exact (hwf : WfEntries m) (start stop newProt : ℕ) (setMax : Bool) :
    ((vmMapProtect m start stop newProt setMax).1 ≠ .success →
      ∀ a, pageAt (vmMapProtect m start stop newProt setMax).2 a = pageAt m a) ∧
    ((vmMapProtect m start stop newProt setMax).1 = .success →
      (∀ a, start ≤ a → a < stop → (pageAt m a).isSome) ∧
      ∀ a, pageAt (vmMapProtect m start stop newProt setMax).2 a =
        if start ≤ a ∧ a < stop then (pageAt m a).map (·.protect newProt setMax)
        else pageAt m a) ∧
    (ProtectionsBounded m → ProtectionsBounded (vmMapProtect m start stop newProt setMax).2) := by
  rcases vmMapProtect_cases hwf start stop newProt setMax with
    ⟨hkr, hsame⟩ | ⟨hkr, hmapped, hpages⟩
  · rw [hsame]
    exact ⟨fun _ _ => rfl, fun h => absurd h hkr, id⟩
  refine ⟨fun h => absurd hkr h, fun _ => ⟨fun a hle hlt => ?_, hpages⟩, fun hb a e he => ?_⟩
  · obtain ⟨e, he, -⟩ := hmapped a hle hlt
    rw [he]
    rfl
  · rw [hpages a] at he
    split_ifs at he with hin
    · obtain ⟨x, hx, hallowed⟩ := hmapped a hin.1 hin.2
      rw [hx] at he
      obtain rfl := some.inj he
      exact protect_bounded hallowed
    · exact hb a e he

/-- A page of an object that can be read and written. -/
def plainEntry (vmeStart vmeEnd offset : ℕ) (isShared : Bool) : VmEntry where
  object := some 7
  offset := offset
  isShared := isShared
  isSubMap := false
  needsCopy := false
  behavior := .default
  protection := 3
  maxProtection := 7
  inheritance := .copy
  vmeStart := vmeStart
  vmeEnd := vmeEnd
  inTransition := false
  needsWakeup := false
  wiredCount := 0
  userWiredCount := 0

theorem plain_wf : WfEntries [plainEntry 0 8192 0 false, plainEntry 8192 12288 8192 false] :=
  ⟨by simp [plainEntry], by simp [plainEntry]⟩

theorem protect_one_page : pageAt (vmMapProtect
    [plainEntry 0 8192 0 false, plainEntry 8192 12288 8192 false] 4096 8192 1 false).2 4096 =
    some ((plainEntry 4096 4097 4096 false).protect 1 false) := by
  rw [((protect_exact plain_wf 4096 8192 1 false).2.1 (by decide)).2 4096]
  decide

/-- Two neighbours describe one range of the same object. -/
structure VmEntry.OneRange (x y : VmEntry) : Prop where
  adjacent : x.vmeEnd = y.vmeStart
  kind : x.isSubMap = y.isSubMap
  object : x.object = y.object
  offset : (x.offset + (x.vmeEnd - x.vmeStart)) % 2 ^ 32 = y.offset

/-- A map as it was, or with two neighbours merged that describe one range. -/
def Merged (m m' : List VmEntry) : Prop :=
  m' = m ∨ ∃ l1 x y l2, m = l1 ++ x :: y :: l2 ∧ x.OneRange y ∧
    m' = l1 ++ { x with vmeEnd := y.vmeEnd } :: l2

theorem pageAt_merge (hjoin : x.Joins y) (hshared : x.isShared = y.isShared)
    (hsub : x.isSubMap = y.isSubMap) (hx : x.vmeStart < x.vmeEnd) (hy : y.vmeStart < y.vmeEnd)
    (l : List VmEntry) (a : ℕ) :
    pageAt ({ x with vmeEnd := y.vmeEnd } :: l) a = pageAt (x :: y :: l) a := by
  rw [pageAt_cons, pageAt_cons, pageAt_cons]
  obtain ⟨hadj, h1, h2, h3, h4, h5, h6, h7, h8, h9, h10, hoffset⟩ := hjoin
  dsimp only
  by_cases hlow : x.vmeStart ≤ a ∧ a < x.vmeEnd
  · rw [if_pos hlow, if_pos (by omega)]
    rfl
  rw [if_neg hlow]
  by_cases hhigh : y.vmeStart ≤ a ∧ a < y.vmeEnd
  · rw [if_pos hhigh, if_pos (by omega)]
    have : (x.offset + (a - x.vmeStart)) % 2 ^ 32 = (y.offset + (a - y.vmeStart)) % 2 ^ 32 := by
      omega
    simp only [VmEntry.page, this, h1, h2, h3, h4, h5, h6, h7, h8, h9, h10, hshared, hsub]
  · rw [if_neg hhigh, if_neg (by omega)]

theorem dropLast_of_getLast? (h : l.getLast? = some x) : l = l.dropLast ++ [x] := by
  obtain ⟨hne, rfl⟩ := mem_getLast?_eq_getLast h
  exact (dropLast_append_getLast hne).symm

/-- **The first merge.** -/
theorem simplifyLower_spec (hwf : WfEntries m) (start : ℕ) :
    WfEntries (simplifyLower m start) ∧ Merged m (simplifyLower m start) ∧
      (∀ a, pageAt (simplifyLower m start) a = pageAt m a) ∧
      ∀ e ∈ simplifyLower m start, e ∈ m ∨ e.isShared = false ∧ e.isSubMap = false := by
  have hsame : WfEntries m ∧ Merged m m ∧ (∀ a, pageAt m a = pageAt m a) ∧
      ∀ e ∈ m, e ∈ m ∨ e.isShared = false ∧ e.isSubMap = false :=
    ⟨hwf, .inl rfl, fun _ => rfl, fun _ he => .inl he⟩
  unfold simplifyLower
  split
  · next prev this after hprev hthis =>
    split_ifs with htest
    · obtain ⟨-, hps, hpm, hts, htm, hjoin⟩ := htest
      have hm : m = (entriesTo m start).dropLast ++ prev :: this :: after := by
        conv_lhs => rw [← entriesTo_append m start, hthis, dropLast_of_getLast? hprev]
        rw [append_assoc, singleton_append]
      generalize (entriesTo m start).dropLast = before at hm
      subst hm
      have hx := hwf.nonempty prev (by simp)
      have hy := hwf.nonempty this (by simp)
      obtain ⟨hb, hrest, hcross⟩ := pairwise_append.mp hwf.sorted
      obtain ⟨hp, hrest⟩ := pairwise_cons.mp hrest
      obtain ⟨ht, hrest⟩ := pairwise_cons.mp hrest
      refine ⟨⟨?_, ?_⟩, .inr ⟨before, prev, this, after, rfl, ?_, rfl⟩, fun a => ?_, ?_⟩
      · refine pairwise_append.mpr ⟨hb, pairwise_cons.mpr ⟨ht, hrest⟩, fun x hx y hy => ?_⟩
        rcases mem_cons.mp hy with rfl | hy
        · exact hcross x hx prev (by simp)
        · exact hcross x hx y (by simp [hy])
      · intro e he
        rcases mem_append.mp he with he | he
        · exact hwf.nonempty e (by simp [he])
        rcases mem_cons.mp he with rfl | he
        · have := hjoin.1
          exact hx.trans (by simpa only [this] using hy)
        · exact hwf.nonempty e (by simp [he])
      · exact ⟨hjoin.1, hpm.trans htm.symm, hjoin.2.2.2.2.2.2.2.2.2.2.1, hjoin.2.2.2.2.2.2.2.2.2.2.2⟩
      · exact pageAt_append_congr (pageAt_merge hjoin (hps.trans hts.symm) (hpm.trans htm.symm)
          hx hy after a) before
      · intro e he
        rcases mem_append.mp he with he | he
        · exact .inl (by simp [he])
        · rcases mem_cons.mp he with rfl | he
          · exact .inr ⟨hps, hpm⟩
          · exact .inl (by simp [he])
    · exact hsame
  · exact hsame

/-- **The second merge**, when the entry for the address is neither shared nor a sub-map. -/
theorem simplifyUpper_spec (hwf : WfEntries m) (start : ℕ)
    (hplain : ∀ e ∈ m, e.Covers start → e.isShared = false ∧ e.isSubMap = false) :
    Merged m (simplifyUpper m start) ∧ ∀ a, pageAt (simplifyUpper m start) a = pageAt m a := by
  unfold simplifyUpper
  split
  · next this next after hfrom =>
    split_ifs with htest
    · obtain ⟨hfound, hns, hnm, -, -, hjoin⟩ := htest
      have hm : m = entriesTo m start ++ this :: next :: after := by
        conv_lhs => rw [← entriesTo_append m start, hfrom]
      have hend := entriesFrom_end hfrom
      have hmem : this ∈ m := by
        rw [hm]
        simp
      obtain ⟨hts, htm⟩ := hplain this hmem ⟨hfound, hend⟩
      refine ⟨.inr ⟨entriesTo m start, this, next, after, hm,
        ⟨hjoin.1, htm.trans hnm.symm, hjoin.2.2.2.2.2.2.2.2.2.2.1, hjoin.2.2.2.2.2.2.2.2.2.2.2⟩, rfl⟩,
        fun a => ?_⟩
      conv_rhs => rw [hm]
      exact pageAt_append_congr (pageAt_merge hjoin (hts.trans hns.symm) (htm.trans hnm.symm)
        (hwf.nonempty this hmem) (hwf.nonempty next (by rw [hm]; simp)) after a) _
    · exact ⟨.inl rfl, fun _ => rfl⟩
  · exact ⟨.inl rfl, fun _ => rfl⟩

/-- The entry for the address is neither shared nor a sub-map, if the entry after it can be joined to it
and is neither. -/
def JoinsPlain (m : List VmEntry) (start : ℕ) : Prop :=
  ∀ this next after, entriesFrom m start = this :: next :: after → this.vmeStart ≤ start →
    next.isShared = false → next.isSubMap = false → this.Joins next →
      this.isShared = false ∧ this.isSubMap = false

theorem entriesFrom_of_covers (hwf : WfEntries m) (he : e ∈ m) (hc : e.Covers start) :
    ∃ l, entriesFrom m start = e :: l := by
  obtain ⟨l1, l2, rfl⟩ := append_of_mem he
  refine ⟨l2, ?_⟩
  unfold entriesFrom
  rw [dropWhile_append_of_pos fun x hx => ?_, dropWhile_cons_of_neg (by simpa using hc.2)]
  have := (pairwise_append.mp hwf.sorted).2.2 x hx e mem_cons_self
  exact decide_eq_true (this.trans hc.1)

theorem pageAt_of_mem (hwf : WfEntries m) (he : e ∈ m) (hc : e.Covers a) :
    pageAt m a = some (e.page a) := by
  obtain ⟨l, hl⟩ := entriesFrom_of_covers hwf he hc
  rw [← entriesTo_append m a, hl, pageAt_append, pageAt_cons,
    pageAt_eq_none fun x hx hcx => absurd hcx.2 (by have := entriesTo_end hx; omega), none_or]
  exact if_pos hc

/-- **The second merge at an entry that is shared or a sub-map**: it changes the pages after the entry, or
it is not made. -/
theorem simplifyUpper_cases (hwf : WfEntries m) (hfrom : entriesFrom m start = e :: l)
    (he : e.vmeStart ≤ start) (hne : ¬ (e.isShared = false ∧ e.isSubMap = false)) :
    JoinsPlain m start ∧ simplifyUpper m start = m ∨
      ¬ JoinsPlain m start ∧ ∃ a, pageAt (simplifyUpper m start) a ≠ pageAt m a := by
  have hend := entriesFrom_end hfrom
  have hm := entriesTo_append m start
  rw [hfrom] at hm
  unfold simplifyUpper
  rw [hfrom]
  cases l with
  | nil =>
    refine .inl ⟨fun this next after h => ?_, rfl⟩
    rw [hfrom] at h
    cases h
  | cons next after =>
    dsimp only
    split_ifs with htest
    · obtain ⟨-, hns, hnm, -, -, hjoin⟩ := htest
      have hadj := hjoin.1
      have hnext : next ∈ m := by
        rw [← hm]
        simp
      have hlt := hwf.nonempty next hnext
      refine .inr ⟨fun h => hne (h e next after hfrom he hns hnm hjoin), next.vmeStart, fun h => hne ?_⟩
      rw [pageAt_of_mem hwf hnext ⟨le_rfl, hlt⟩, pageAt_append, pageAt_cons,
        pageAt_eq_none fun x hx hcx => absurd hcx.2 (by have := entriesTo_end hx; omega), none_or,
        if_pos ⟨show e.vmeStart ≤ _ by omega, hlt⟩] at h
      have hflags := some.inj h
      exact ⟨(congrArg (·.isShared) hflags).trans hns, (congrArg (·.isSubMap) hflags).trans hnm⟩
    · refine .inl ⟨fun this next' after' h hle hns hnm hjoin => ?_, rfl⟩
      rw [hfrom] at h
      cases h
      exact absurd ⟨he, hns, hnm, hns, hnm, hjoin⟩ htest

/-- **Simplification changes no page and merges only what is one range**, exactly when the entry for the
address is neither shared nor a sub-map, or no entry like it is after it. -/
theorem simplify_keeps_pages_iff (hwf : WfEntries m) (start : ℕ) :
    ((∀ a, pageAt (vmMapSimplify m start) a = pageAt m a) ∧
      ∃ mid, Merged m mid ∧ Merged mid (vmMapSimplify m start)) ↔ JoinsPlain m start := by
  by_cases hplain : ∀ e ∈ m, e.Covers start → e.isShared = false ∧ e.isSubMap = false
  · obtain ⟨hwf', hlower, hpages, hflags⟩ := simplifyLower_spec hwf start
    obtain ⟨hupper, hpages'⟩ := simplifyUpper_spec hwf' start fun e he hc =>
      (hflags e he).elim (fun h => hplain e h hc) id
    refine iff_of_true ⟨fun a => (hpages' a).trans (hpages a), _, hlower, hupper⟩ ?_
    intro this next after hfrom hle _ _ _
    refine hplain this ?_ ⟨hle, entriesFrom_end hfrom⟩
    rw [← entriesTo_append m start, hfrom]
    simp
  · obtain ⟨e, he⟩ := not_forall.mp hplain
    obtain ⟨he, hc⟩ := Classical.not_imp.mp he
    obtain ⟨hc, hflags⟩ := Classical.not_imp.mp hc
    obtain ⟨l, hfrom⟩ := entriesFrom_of_covers hwf he hc
    have hlower : simplifyLower m start = m := by
      unfold simplifyLower
      rw [hfrom]
      split
      · next hthis =>
        cases hthis
        exact if_neg fun h => hflags ⟨h.2.2.2.1, h.2.2.2.2.1⟩
      · rfl
    rw [vmMapSimplify, hlower]
    rcases simplifyUpper_cases hwf hfrom hc.1 hflags with ⟨hjoins, hsame⟩ | ⟨hjoins, a, ha⟩
    · rw [hsame]
      exact iff_of_true ⟨fun _ => rfl, m, .inl rfl, .inl rfl⟩ hjoins
    · exact iff_of_false (fun h => ha (h.1 a)) hjoins

theorem simplify_two_entries : (∀ a, pageAt (vmMapSimplify
        [plainEntry 0 8192 0 false, plainEntry 8192 12288 8192 false] 0) a =
      pageAt [plainEntry 0 8192 0 false, plainEntry 8192 12288 8192 false] a) ∧
    vmMapSimplify [plainEntry 0 8192 0 false, plainEntry 8192 12288 8192 false] 0 =
      [plainEntry 0 12288 0 false] :=
  ⟨((simplify_keeps_pages_iff plain_wf 0).mpr fun this _ _ hfrom _ _ _ _ => by cases hfrom; decide).1,
    by decide⟩

/-- The page after a shared entry becomes shared: the flags of the entry itself are not tested. -/
theorem simplify_shares_next :
    WfEntries [plainEntry 0 4096 0 true, plainEntry 4096 8192 4096 false] ∧
      (pageAt [plainEntry 0 4096 0 true, plainEntry 4096 8192 4096 false] 4096).map (·.isShared) =
        some false ∧
      (pageAt (vmMapSimplify [plainEntry 0 4096 0 true, plainEntry 4096 8192 4096 false] 0)
        4096).map (·.isShared) = some true :=
  ⟨⟨by simp [plainEntry], by simp [plainEntry]⟩, by decide, by decide⟩

end Osfmk

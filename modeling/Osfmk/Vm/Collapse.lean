import Osfmk.Vm.Object
import Mathlib.Tactic.Linarith
import Mathlib.Tactic.NormNum

/-!
# Collapsing a chain of shadows

`vm_object_collapse`: an object takes over the pages and the pager of the object it shadows when
it holds the only reference to it, or else bypasses it when none of its pages shows through.

## Main results

* `collapse_kept`, `bypass_kept` — what one step keeps.
* `collapse_contents` — the loop ends and keeps what is seen through the object.
-/

open List Option

namespace Osfmk

variable {D : Type}

/-- The loop of `vm_object_do_collapse` over the pages of the backing object. -/
def movePages (backingOffset : ℕ) : List (VmPage D) → VmObject D → VmObject D
  | [], object => object
  | p :: rest, object =>
    let newOffset := p.offset - backingOffset
    if p.offset < backingOffset ∨ object.size ≤ newOffset then
      movePages backingOffset rest object
    else
      match vmPageLookup object newOffset with
      | none =>
        movePages backingOffset rest
          { object with memq := object.memq ++ [{ p with offset := newOffset }] }
      | some pp =>
        if pp.absent then
          movePages backingOffset rest { object with
            memq := object.memq.filter (fun x => decide (x.offset ≠ newOffset)) ++
              [{ p with offset := newOffset }]
            absentCount := object.absentCount - 1 }
        else movePages backingOffset rest object

/-- `vm_object_do_collapse`, on the two objects. -/
def collapsedObject (object backing : VmObject D) : VmObject D :=
  let backingOffset := object.shadowOffset
  let object := movePages backingOffset backing.memq object
  let object :=
    if backing.pager.isSome then
      { object with pager := backing.pager, pagerCreated := backing.pagerCreated }
    else object
  { object with
    pagingOffset := (backing.pagingOffset + backingOffset) % offsetPages
    existenceMap :=
      if backingOffset ≠ 0 ∨ object.size ≠ backing.size then none else backing.existenceMap
    shadow := backing.shadow
    shadowOffset := (object.shadowOffset + backing.shadowOffset) % offsetPages }

def vmObjectDoCollapse (w : VmWorld D) (x b : ℕ) : VmWorld D :=
  (w.modify x fun object => collapsedObject object (w.objects b)).modify b fun backing =>
    { backing with memq := [], existenceMap := none, alive := false }

/-- A reference more to an object. -/
def VmObject.addRef (object : VmObject D) : VmObject D :=
  { object with refCount := object.refCount + 1 }

/-- A reference less. -/
def VmObject.dropRef (object : VmObject D) : VmObject D :=
  { object with refCount := object.refCount - 1 }

/-- The copy link of an object is cleared if it leads to `x`. -/
def VmObject.clearCopy (x : ℕ) (object : VmObject D) : VmObject D :=
  if object.copy = some x then { object with copy := none } else object

/-- `vm_object_terminate`. -/
def VmObject.terminated (object : VmObject D) : VmObject D :=
  { object with memq := [], pager := none, existenceMap := none, refCount := 0, alive := false }

/-- Changes an object if there is one. -/
def VmWorld.modifyOpt (w : VmWorld D) (x : Option ℕ) (f : VmObject D → VmObject D) : VmWorld D :=
  match x with
  | none => w
  | some x => w.modify x f

/-- `vm_object_deallocate`, of objects that are not cached; `none` when it does not end. -/
def vmObjectDeallocate : ℕ → VmWorld D → Option ℕ → Option (VmWorld D)
  | _, w, none => some w
  | 0, _, some _ => none
  | fuel + 1, w, some x =>
    if 1 < (w.objects x).refCount then some (w.modify x VmObject.dropRef)
    else
      let shadow := (w.objects x).shadow
      let w := w.modify x VmObject.terminated
      vmObjectDeallocate fuel (w.modifyOpt shadow (VmObject.clearCopy x)) shadow

def vmObjectDoBypass (fuel : ℕ) (w : VmWorld D) (x b : ℕ) : Option (VmWorld D) :=
  let backing := w.objects b
  let w := w.modifyOpt backing.shadow VmObject.addRef
  let w := w.modify x fun object => { object with
    shadow := backing.shadow
    shadowOffset := (object.shadowOffset + backing.shadowOffset) % offsetPages }
  let w := w.modify b (VmObject.clearCopy x)
  if 1 < (w.objects b).refCount then some (w.modify b VmObject.dropRef)
  else vmObjectDeallocate fuel w (some b)

/-- No page of the backing object shows through the object: the two loops that check it. -/
def canBypass (object backing : VmObject D) : Bool :=
  backing.memq.all (fun p =>
    let newOffset := p.offset - object.shadowOffset
    decide (p.offset < object.shadowOffset ∨ object.size ≤ newOffset) ||
      (vmPageLookup object newOffset).isSome ||
      decide (vmExternalStateGet object.existenceMap newOffset = .exists)) &&
  (!backing.pagerCreated || (List.range object.size).all fun newOffset =>
    decide (vmExternalStateGet backing.existenceMap
        ((newOffset + object.shadowOffset) % offsetPages) = .absent) ||
      (vmPageLookup object newOffset).isSome ||
      !(object.existenceMap.isNone ||
        decide (vmExternalStateGet object.existenceMap newOffset = .absent)))

/-- What the loop depends on besides the objects. -/
structure CollapseEnv where
  vmObjectCollapseAllowed : Bool
  vmObjectBypassAllowed : Bool
  cacheLockTry : ℕ → Bool

/-- The loop of `vm_object_collapse`; `none` when it does not end. -/
def collapseLoop (env : CollapseEnv) : ℕ → VmWorld D → ℕ → Option (VmWorld D)
  | 0, _, _ => none
  | fuel + 1, w, x =>
    let object := w.objects x
    if object.pagingInProgress ≠ 0 ∨ object.absentCount ≠ 0 then some w
    else
      match object.shadow with
      | none => some w
      | some b =>
        let backing := w.objects b
        if !backing.internal ∨ backing.pagingInProgress ≠ 0 then some w
        else if backing.shadow.any fun s => (w.objects s).copy.isSome then some w
        else if backing.refCount = 1 ∧ !object.pagerCreated ∧ env.vmObjectCollapseAllowed then
          if env.cacheLockTry fuel then collapseLoop env fuel (vmObjectDoCollapse w x b) x
          else some w
        else if !env.vmObjectBypassAllowed then some w
        else if backing.pagerCreated ∧ backing.existenceMap.isNone then some w
        else if canBypass object backing then
          (vmObjectDoBypass fuel w x b).bind fun w => collapseLoop env fuel w x
        else some w

def vmObjectCollapse (env : CollapseEnv) (fuel : ℕ) (w : VmWorld D) (x : ℕ) : Option (VmWorld D) :=
  if !env.vmObjectCollapseAllowed ∧ !env.vmObjectBypassAllowed then some w
  else collapseLoop env fuel w x

variable {w w' : VmWorld D} {x b : ℕ} {object : VmObject D}

/-- **The loop moves the pages that show through**, and only these. -/
theorem movePages_spec (backingOffset : ℕ) (l : List (VmPage D)) (object : VmObject D)
    (hobj : object.Present) (hl : ∀ p ∈ l, p.absent = false) :
    ∃ memq, movePages backingOffset l object = { object with memq := memq } ∧
      (∀ p ∈ memq, p.absent = false) ∧
      (∀ f < object.size,
        pageData memq f = (pageData object.memq f).or (pageData l (f + backingOffset))) ∧
      ∀ f, object.size ≤ f → pageData memq f = pageData object.memq f := by
  induction l generalizing object with
  | nil =>
    refine ⟨object.memq, rfl, hobj, fun f _ => ?_, fun f _ => rfl⟩
    simp [pageData]
  | cons p rest ih =>
    have hrest : ∀ q ∈ rest, q.absent = false := fun q hq => hl q (mem_cons_of_mem p hq)
    rw [movePages]
    split
    · -- the page falls outside the parent
      next hout =>
      obtain ⟨memq, heq, hpres, hdata, hbeyond⟩ := ih object hobj hrest
      refine ⟨memq, heq, hpres, fun f hf => ?_, hbeyond⟩
      rw [hdata f hf, pageData_cons, if_neg]
      omega
    next hin =>
    cases hlook : vmPageLookup object (p.offset - backingOffset) with
    | none =>
      obtain ⟨memq, heq, hpres, hdata, hbeyond⟩ := ih
        { object with memq := object.memq ++ [{ p with offset := p.offset - backingOffset }] }
        (by
          intro q hq
          rcases mem_append.mp hq with hq | hq
          · exact hobj q hq
          · rw [mem_singleton.mp hq]
            exact hl p mem_cons_self) hrest
      refine ⟨memq, heq, hpres, fun f hf => ?_, fun f hf => ?_⟩
      rotate_left
      · have hne : p.offset - backingOffset ≠ f := by omega
        rw [hbeyond f hf, pageData_append, pageData_cons, if_neg hne]
        exact Option.or_none
      have hnone : pageData object.memq (p.offset - backingOffset) = none := by
        unfold pageData
        rw [show List.find? _ object.memq = none from hlook]
        rfl
      rw [hdata f hf]
      rw [pageData_append, pageData_cons, pageData_cons]
      by_cases hp : p.offset = f + backingOffset
      · have hf' : p.offset - backingOffset = f := by omega
        rw [if_pos hf', if_pos hp, ← hf', hnone]
        rfl
      · have hf' : p.offset - backingOffset ≠ f := by omega
        rw [if_neg hf', if_neg hp, Option.or_assoc]
        rfl
    | some pp =>
      -- the parent has a page here
      have hpp : pp.absent = false := hobj pp (mem_of_find?_eq_some hlook)
      obtain ⟨memq, heq, hpres, hdata, hbeyond⟩ := ih object hobj hrest
      dsimp only
      rw [hpp, if_neg (by simp)]
      refine ⟨memq, heq, hpres, fun f hf => ?_, hbeyond⟩
      rw [hdata f hf, pageData_cons]
      split
      · next hp =>
        have hf' : p.offset - backingOffset = f := by omega
        have hsome : pageData object.memq f = some pp.data := by
          unfold pageData
          rw [← hf', show List.find? _ object.memq = some pp from hlook]
          rfl
        rw [hsome]
        rfl
      · rfl

/-- **An object of a chain**: no page is absent, and the existence map is exact. -/
structure ObjectOk (w : VmWorld D) (x : ℕ) : Prop where
  present : (w.objects x).Present
  pager : (w.objects x).pager.isSome → (w.objects x).pagerCreated = true
  exact : ∀ bits, (w.objects x).existenceMap = some bits →
    ∀ f, bits f = true ↔ (w.pagedOut (w.objects x) f).isSome

/-- The shadows of an object, each with a reference to it; no offset within the object passes the largest
one on its way through them. -/
structure ChainOk (w : VmWorld D) (x : ℕ) (tail : List ℕ) : Prop where
  chain : w.Chain (some x) (x :: tail)
  ok : ∀ y ∈ x :: tail, ObjectOk w y
  referenced : ∀ y ∈ tail, 1 ≤ (w.objects y).refCount
  fits : ∀ y ∈ tail, (w.objects x).size + ((x :: tail).map w.shadowOffsetOf).sum +
    (w.objects y).pagingOffset < offsetPages

/-- An object of which at most the reference count and the copy link have changed. -/
def Alike (a b : VmObject D) : Prop := b = { a with refCount := b.refCount, copy := b.copy }

/-- **What a step of the loop keeps**: what is seen through the object, and all objects that
are not shadows of it. -/
structure ContentsKept (w w' : VmWorld D) (x : ℕ) (tail tail' : List ℕ) : Prop where
  chain : ChainOk w' x tail'
  subset : ∀ y ∈ tail', y ∈ tail
  size : (w'.objects x).size = (w.objects x).size
  alive : (w'.objects x).alive = (w.objects x).alive
  contents : ∀ f < (w.objects x).size, w'.contents (x :: tail') f = w.contents (x :: tail) f
  beyond : ∀ f, (w.objects x).size ≤ f →
    pageData (w'.objects x).memq f = pageData (w.objects x).memq f
  pagers : w'.pagers = w.pagers
  others : ∀ y ∉ x :: tail, Alike (w.objects y) (w'.objects y)

theorem Alike.refl (a : VmObject D) : Alike a a := rfl

theorem Alike.trans {a b c : VmObject D} (h : Alike a b) (h' : Alike b c) : Alike a c := by
  unfold Alike at *
  rw [h', h]

theorem ContentsKept.refl {tail : List ℕ} (h : ChainOk w x tail) : ContentsKept w w x tail tail :=
  ⟨h, fun _ hy => hy, rfl, rfl, fun _ _ => rfl, fun _ _ => rfl, rfl, fun _ _ => Alike.refl _⟩

theorem ContentsKept.trans {w1 w2 w3 : VmWorld D} {t1 t2 t3 : List ℕ}
    (h : ContentsKept w1 w2 x t1 t2) (h' : ContentsKept w2 w3 x t2 t3) :
    ContentsKept w1 w3 x t1 t3 := by
  refine ⟨h'.chain, fun y hy => h.subset y (h'.subset y hy), h'.size.trans h.size,
    h'.alive.trans h.alive, fun f hf => ?_, fun f hf => ?_, h'.pagers.trans h.pagers, fun y hy => ?_⟩
  · rw [h'.contents f (by rwa [h.size]), h.contents f hf]
  · rw [h'.beyond f (by rwa [h.size]), h.beyond f hf]
  · refine (h.others y hy).trans (h'.others y fun hc => hy ?_)
    rcases mem_cons.mp hc with rfl | hc
    · exact mem_cons_self
    · exact mem_cons_of_mem x (h.subset y hc)

theorem Alike.own {y : ℕ} (h : Alike (w.objects y) (w'.objects y)) (hp : w'.pagers = w.pagers) :
    w'.own y = w.own y := by
  funext f
  unfold VmWorld.own VmWorld.pagedOut VmObject.resident vmPageLookup
  rw [h, hp]

theorem Alike.shadowOf {y : ℕ} (h : Alike (w.objects y) (w'.objects y)) :
    w'.shadowOf y = w.shadowOf y ∧ w'.shadowOffsetOf y = w.shadowOffsetOf y := by
  unfold VmWorld.shadowOf VmWorld.shadowOffsetOf
  rw [h]
  exact ⟨rfl, rfl⟩

theorem Alike.objectOk {y : ℕ} (h : Alike (w.objects y) (w'.objects y))
    (hp : w'.pagers = w.pagers) (hok : ObjectOk w y) : ObjectOk w' y := by
  refine ⟨?_, ?_, ?_⟩
  · rw [h]
    exact hok.present
  · rw [h]
    exact hok.pager
  · intro bits hbits f
    rw [h] at hbits
    unfold VmWorld.pagedOut
    rw [h, hp]
    exact hok.exact bits hbits f

/-- What a step does to the objects other than the object and its backing object. -/
structure OthersKept (w w' : VmWorld D) (x b : ℕ) : Prop where
  pagers : w'.pagers = w.pagers
  alike : ∀ y, y ≠ x → y ≠ b → Alike (w.objects y) (w'.objects y)
  referenced : ∀ y, y ≠ x → y ≠ b → 1 ≤ (w.objects y).refCount → 1 ≤ (w'.objects y).refCount

theorem OthersKept.trans {w1 w2 w3 : VmWorld D} (h : OthersKept w1 w2 x b)
    (h' : OthersKept w2 w3 x b) : OthersKept w1 w3 x b :=
  ⟨h'.pagers.trans h.pagers, fun y hx hb => (h.alike y hx hb).trans (h'.alike y hx hb),
    fun y hx hb hr => h'.referenced y hx hb (h.referenced y hx hb hr)⟩

theorem OthersKept.modify_of (w : VmWorld D) {z : ℕ} (hz : z = x ∨ z = b)
    (f : VmObject D → VmObject D) : OthersKept w (w.modify z f) x b := by
  have hsame : ∀ y, y ≠ x → y ≠ b → (w.modify z f).objects y = w.objects y := by
    intro y hx hb
    refine modify_objects_ne w ?_ f
    rintro rfl
    exact hz.elim hx hb
  refine ⟨rfl, fun y hx hb => ?_, fun y hx hb hr => ?_⟩
  · rw [hsame y hx hb]
    exact Alike.refl _
  · rw [hsame y hx hb]
    exact hr

theorem OthersKept.modify_alike (w : VmWorld D) (z : ℕ) (f : VmObject D → VmObject D)
    (hf : Alike (w.objects z) (f (w.objects z)))
    (hr : 1 ≤ (w.objects z).refCount → 1 ≤ (f (w.objects z)).refCount) :
    OthersKept w (w.modify z f) x b := by
  refine ⟨rfl, fun y _ _ => ?_, fun y _ _ hy => ?_⟩
  · by_cases hyz : y = z
    · subst hyz
      rw [modify_objects_self]
      exact hf
    · rw [modify_objects_ne w hyz]
      exact Alike.refl _
  · by_cases hyz : y = z
    · subst hyz
      rw [modify_objects_self]
      exact hr hy
    · rw [modify_objects_ne w hyz]
      exact hy

theorem VmObject.clearCopy_alike (x : ℕ) (object : VmObject D) :
    Alike object (object.clearCopy x) ∧ (object.clearCopy x).refCount = object.refCount := by
  unfold VmObject.clearCopy
  split <;> exact ⟨rfl, rfl⟩

/-- **The backing object is terminated**: the reference it had to its shadow is dropped, and
the object has one of its own. -/
theorem vmObjectDeallocate_spec (hxb : x ≠ b) (hb : ¬ 1 < (w.objects b).refCount)
    (hs : ∀ s, (w.objects b).shadow = some s → s ≠ x ∧ s ≠ b ∧ 2 ≤ (w.objects s).refCount)
    (fuel : ℕ) :
    ∃ w', vmObjectDeallocate (fuel + 2) w (some b) = some w' ∧ OthersKept w w' x b ∧
      w'.objects x = w.objects x := by
  rw [vmObjectDeallocate, if_neg hb]
  dsimp only
  have hterm := OthersKept.modify_of (x := x) w (z := b) (.inr rfl) VmObject.terminated
  cases hshadow : (w.objects b).shadow with
  | none =>
    exact ⟨_, rfl, hterm, modify_objects_ne w hxb _⟩
  | some s =>
    obtain ⟨hsx, hsb, href⟩ := hs s hshadow
    have hs1 : (w.modify b VmObject.terminated).objects s = w.objects s := modify_objects_ne w hsb _
    obtain ⟨halike, hcount⟩ := VmObject.clearCopy_alike b (w.objects s)
    have hclear : OthersKept (w.modify b VmObject.terminated)
        ((w.modify b VmObject.terminated).modify s (VmObject.clearCopy b)) x b := by
      refine OthersKept.modify_alike _ s _ ?_ ?_
      · rw [hs1]
        exact halike
      · rw [hs1, hcount]
        exact id
    have hs2 : (((w.modify b VmObject.terminated).modify s (VmObject.clearCopy b)).objects
        s).refCount = (w.objects s).refCount := by
      rw [modify_objects_self, hs1, hcount]
    rw [VmWorld.modifyOpt, vmObjectDeallocate, if_pos (by omega)]
    refine ⟨_, rfl, (hterm.trans hclear).trans
      (OthersKept.modify_alike _ s VmObject.dropRef rfl ?_), ?_⟩
    · intro _
      show 1 ≤ VmObject.refCount _ - 1
      omega
    · rw [modify_objects_ne _ hsx.symm, modify_objects_ne _ hsx.symm, modify_objects_ne _ hxb]

/-- **`vm_object_do_bypass`.** -/
theorem vmObjectDoBypass_spec (hxb : x ≠ b)
    (hs : ∀ s, (w.objects b).shadow = some s → s ≠ x ∧ s ≠ b ∧ 1 ≤ (w.objects s).refCount)
    (fuel : ℕ) :
    ∃ w', vmObjectDoBypass (fuel + 2) w x b = some w' ∧ OthersKept w w' x b ∧
      w'.objects x = { w.objects x with
        shadow := (w.objects b).shadow
        shadowOffset := ((w.objects x).shadowOffset + (w.objects b).shadowOffset) % offsetPages } := by
  obtain ⟨w1, hw1⟩ : ∃ w1, w1 = w.modifyOpt (w.objects b).shadow VmObject.addRef := ⟨_, rfl⟩
  have hkept1 : OthersKept w w1 x b ∧ w1.objects x = w.objects x ∧ w1.objects b = w.objects b ∧
      ∀ s, (w.objects b).shadow = some s → 2 ≤ (w1.objects s).refCount := by
    cases hshadow : (w.objects b).shadow with
    | none =>
      rw [hshadow] at hw1
      subst hw1
      exact ⟨⟨rfl, fun _ _ _ => Alike.refl _, fun _ _ _ h => h⟩, rfl, rfl, nofun⟩
    | some s =>
      obtain ⟨hsx, hsb, href⟩ := hs s hshadow
      rw [hshadow] at hw1
      subst hw1
      refine ⟨OthersKept.modify_alike w s _ rfl fun _ => Nat.le_add_left 1 _,
        modify_objects_ne w hsx.symm _, modify_objects_ne w hsb.symm _, ?_⟩
      rintro _ ⟨⟩
      rw [VmWorld.modifyOpt, modify_objects_self]
      exact Nat.succ_le_succ href
  obtain ⟨hkept1, hx1, hb1, href1⟩ := hkept1
  obtain ⟨w2, hw2⟩ : ∃ w2, w2 = (w1.modify x fun object => { object with
      shadow := (w.objects b).shadow
      shadowOffset := (object.shadowOffset + (w.objects b).shadowOffset) % offsetPages }).modify b
        (VmObject.clearCopy x) := ⟨_, rfl⟩
  have hkept2 : OthersKept w1 w2 x b := by
    subst hw2
    exact (OthersKept.modify_of _ (.inl rfl) _).trans (OthersKept.modify_of _ (.inr rfl) _)
  have hx2 : w2.objects x = { w.objects x with
      shadow := (w.objects b).shadow
      shadowOffset := ((w.objects x).shadowOffset + (w.objects b).shadowOffset) % offsetPages } := by
    subst hw2
    rw [modify_objects_ne _ hxb, modify_objects_self, hx1]
  have hb2 : Alike (w.objects b) (w2.objects b) := by
    subst hw2
    rw [modify_objects_self, modify_objects_ne _ hxb.symm, hb1]
    exact (VmObject.clearCopy_alike x _).1
  have hshadow2 : (w2.objects b).shadow = (w.objects b).shadow := by rw [hb2]
  have hrun : vmObjectDoBypass (fuel + 2) w x b =
      if 1 < (w2.objects b).refCount then some (w2.modify b VmObject.dropRef)
      else vmObjectDeallocate (fuel + 2) w2 (some b) := by
    rw [vmObjectDoBypass, hw2, hw1]
  rw [hrun]
  split
  · refine ⟨_, rfl, (hkept1.trans hkept2).trans (OthersKept.modify_of _ (.inr rfl) _), ?_⟩
    rw [modify_objects_ne _ hxb, hx2]
  next hb =>
  obtain ⟨w3, hw3, hkept3, hx3⟩ := vmObjectDeallocate_spec (x := x) hxb hb (fun s hshadow => by
    rw [hshadow2] at hshadow
    obtain ⟨hsx, hsb, -⟩ := hs s hshadow
    refine ⟨hsx, hsb, ?_⟩
    have hsame : w2.objects s = w1.objects s := by
      rw [hw2, modify_objects_ne _ hsb, modify_objects_ne _ hsx]
    rw [hsame]
    exact href1 s hshadow) fuel
  exact ⟨w3, hw3, (hkept1.trans hkept2).trans hkept3, hx3.trans hx2⟩

variable {s : Option ℕ} {tail : List ℕ}

theorem ChainOk.cons_inv (h : ChainOk w x tail) (hb : (w.objects x).shadow = some b) :
    ∃ rest, tail = b :: rest ∧ x ≠ b ∧ x ∉ rest ∧ b ∉ rest ∧ w.Chain (w.objects b).shadow rest := by
  have hnd := Layers.Chain.nodup h.chain
  obtain ⟨-, hchain⟩ := h.chain
  change Layers.Chain w.shadowOf (w.objects x).shadow tail at hchain
  rw [hb] at hchain
  cases tail with
  | nil => exact hchain.elim
  | cons c rest =>
    obtain ⟨rfl, hrest⟩ := hchain
    rw [List.nodup_cons, List.nodup_cons, mem_cons, not_or] at hnd
    exact ⟨rest, rfl, hnd.1.1, hnd.1.2, hnd.2.1, hrest⟩

theorem ChainOk.fits_head {rest : List ℕ} (h : ChainOk w x (b :: rest)) :
    (w.objects x).size + (w.objects x).shadowOffset + (w.objects b).shadowOffset +
      (w.objects b).pagingOffset < offsetPages := by
  have := h.fits b mem_cons_self
  simp only [map_cons, sum_cons, VmWorld.shadowOffsetOf] at this
  omega

theorem OthersKept.contentsKept {rest : List ℕ} (h : OthersKept w w' x b)
    (hok : ChainOk w x (b :: rest)) (hx : x ∉ rest) (hb : b ∉ rest)
    (hchain : w.Chain (w.objects b).shadow rest) (hobject : ObjectOk w' x)
    (hshadow : (w'.objects x).shadow = (w.objects b).shadow)
    (hoffset : (w'.objects x).shadowOffset =
      (w.objects x).shadowOffset + (w.objects b).shadowOffset)
    (hsize : (w'.objects x).size = (w.objects x).size)
    (halive : (w'.objects x).alive = (w.objects x).alive)
    (hbeyond : ∀ f, (w.objects x).size ≤ f →
      pageData (w'.objects x).memq f = pageData (w.objects x).memq f)
    (hown : ∀ f < (w.objects x).size,
      w'.own x f = (w.own x f).or (w.own b (f + (w.objects x).shadowOffset))) :
    ContentsKept w w' x (b :: rest) rest := by
  have hrest : ∀ y ∈ rest, y ≠ x ∧ y ≠ b := fun y hy =>
    ⟨fun he => hx (he ▸ hy), fun he => hb (he ▸ hy)⟩
  have halike : ∀ y ∈ rest, Alike (w.objects y) (w'.objects y) := fun y hy =>
    h.alike y (hrest y hy).1 (hrest y hy).2
  refine ⟨⟨⟨rfl, ?_⟩, fun y hy => ?_, fun y hy => ?_, fun y hy => ?_⟩,
    fun y hy => mem_cons_of_mem b hy, hsize, halive, fun f hf => ?_, hbeyond, h.pagers, fun y hy => ?_⟩
  · show Layers.Chain w'.shadowOf (w'.objects x).shadow rest
    rw [hshadow]
    exact Layers.Chain.congr hchain fun y hy => (halike y hy).shadowOf.1
  · rcases mem_cons.mp hy with rfl | hy
    · exact hobject
    · exact (halike y hy).objectOk h.pagers
        (hok.ok y (mem_cons_of_mem x (mem_cons_of_mem b hy)))
  · exact h.referenced y (hrest y hy).1 (hrest y hy).2
      (hok.referenced y (mem_cons_of_mem b hy))
  · have hfits := hok.fits y (mem_cons_of_mem b hy)
    have hsum : rest.map w'.shadowOffsetOf = rest.map w.shadowOffsetOf :=
      map_congr_left fun z hz => (halike z hz).shadowOf.2
    have hpaging : (w'.objects y).pagingOffset = (w.objects y).pagingOffset := by rw [halike y hy]
    simp only [map_cons, sum_cons, VmWorld.shadowOffsetOf] at hfits hsum ⊢
    rw [hsize, hoffset, hsum, hpaging]
    omega
  · show (w'.own x f).or (Layers.contents w'.own w'.shadowOffsetOf rest
        (f + (w'.objects x).shadowOffset)) =
      (w.own x f).or ((w.own b (f + (w.objects x).shadowOffset)).or
        (Layers.contents w.own w.shadowOffsetOf rest
          (f + (w.objects x).shadowOffset + (w.objects b).shadowOffset)))
    rw [hown f hf, hoffset, Option.or_assoc, Nat.add_assoc]
    congr 2
    exact Layers.contents_congr
      (fun y hy => ⟨(halike y hy).own h.pagers, (halike y hy).shadowOf.2⟩) _
  · rw [mem_cons, mem_cons, not_or, not_or] at hy
    exact h.alike y hy.1 hy.2.1

/-- **Collapse** keeps what the object contains. -/
theorem collapse_kept (h : ChainOk w x tail) (hb : (w.objects x).shadow = some b)
    (hpager : (w.objects x).pagerCreated = false) :
    ∃ tail', tail'.length < tail.length ∧
      ContentsKept w (vmObjectDoCollapse w x b) x tail tail' := by
  obtain ⟨rest, rfl, hxb, hx, hbrest, hchain⟩ := h.cons_inv hb
  have hokx := h.ok x mem_cons_self
  have hokb := h.ok b (by simp)
  have hfits := h.fits_head
  have hnone : (w.objects x).pager = none := by
    by_contra hc
    have := hokx.pager (isSome_iff_ne_none.mpr hc)
    rw [hpager] at this
    cases this
  obtain ⟨memq, hmove, hpres, hdata, hbeyond⟩ := movePages_spec (w.objects x).shadowOffset
    (w.objects b).memq (w.objects x) hokx.present hokb.present
  have hobj : (vmObjectDoCollapse w x b).objects x =
      collapsedObject (w.objects x) (w.objects b) := by
    rw [vmObjectDoCollapse, modify_objects_ne _ hxb, modify_objects_self]
  have hpagers : (vmObjectDoCollapse w x b).pagers = w.pagers := rfl
  have hothers : OthersKept w (vmObjectDoCollapse w x b) x b :=
    (OthersKept.modify_of _ (.inl rfl) _).trans (OthersKept.modify_of _ (.inr rfl) _)
  have hfields : collapsedObject (w.objects x) (w.objects b) = { w.objects x with
      memq := memq
      pager := (w.objects b).pager
      pagerCreated := if (w.objects b).pager.isSome then (w.objects b).pagerCreated else false
      pagingOffset := (w.objects b).pagingOffset + (w.objects x).shadowOffset
      existenceMap := if (w.objects x).shadowOffset ≠ 0 ∨ (w.objects x).size ≠ (w.objects b).size
        then none else (w.objects b).existenceMap
      shadow := (w.objects b).shadow
      shadowOffset := (w.objects x).shadowOffset + (w.objects b).shadowOffset } := by
    unfold collapsedObject
    dsimp only
    rw [hmove, Nat.mod_eq_of_lt (show (w.objects b).pagingOffset + (w.objects x).shadowOffset <
      offsetPages by omega)]
    have hmod := Nat.mod_eq_of_lt (show (w.objects x).shadowOffset + (w.objects b).shadowOffset <
      offsetPages by omega)
    cases hp : (w.objects b).pager with
    | none => simp [hnone, hpager, hmod]
    | some pager => simp [hmod]
  rw [hfields] at hobj
  have hpaged : ∀ f, (vmObjectDoCollapse w x b).pagedOut ((vmObjectDoCollapse w x b).objects x) f =
      w.pagedOut (w.objects b) (f + (w.objects x).shadowOffset) := by
    intro f
    unfold VmWorld.pagedOut
    rw [hobj, hpagers]
    rw [Nat.add_comm (w.objects b).pagingOffset, Nat.add_assoc]
  refine ⟨rest, Nat.lt_succ_self _, hothers.contentsKept h hx hbrest hchain ⟨?_, ?_, ?_⟩
    (by rw [hobj]) (by rw [hobj]) (by rw [hobj]) (by rw [hobj]) (by rw [hobj]; exact hbeyond)
    fun f hf => ?_⟩
  · rw [hobj]
    exact hpres
  · rw [hobj]
    dsimp only
    intro hsome
    rw [if_pos hsome]
    exact hokb.pager hsome
  · intro bits hbits f
    rw [hpaged]
    rw [hobj] at hbits
    dsimp only at hbits
    split at hbits
    · cases hbits
    · next hzero =>
      rw [not_or, not_not] at hzero
      rw [hzero.1, Nat.add_zero]
      exact hokb.exact bits hbits f
  · have hres : ((vmObjectDoCollapse w x b).objects x).resident f = ((w.objects x).resident f).or
          ((w.objects b).resident (f + (w.objects x).shadowOffset)) := by
      have hpresent : ((vmObjectDoCollapse w x b).objects x).Present := by
        rw [hobj]
        exact hpres
      rw [hpresent.resident_eq, hokx.present.resident_eq, hokb.present.resident_eq, hobj]
      exact hdata f hf
    have hxpaged : w.pagedOut (w.objects x) f = none := by rw [VmWorld.pagedOut, hnone]; rfl
    unfold VmWorld.own
    rw [hres, hpaged, hxpaged, Option.or_none, Option.or_assoc]

theorem canBypass_own (hokx : ObjectOk w x) (hokb : ObjectOk w b)
    (hmap : ¬ ((w.objects b).pagerCreated = true ∧ (w.objects b).existenceMap.isNone = true))
    (hcan : canBypass (w.objects x) (w.objects b) = true) {f : ℕ} (hf : f < (w.objects x).size)
    (hfits : (w.objects x).size + (w.objects x).shadowOffset < offsetPages)
    (hnone : w.own x f = none) : w.own b (f + (w.objects x).shadowOffset) = none := by
  unfold canBypass at hcan
  rw [Bool.and_eq_true, List.all_eq_true] at hcan
  obtain ⟨hpages, hpaged⟩ := hcan
  obtain ⟨hres, hout⟩ := Option.or_eq_none_iff.mp hnone
  have hlookup : vmPageLookup (w.objects x) f = none := by
    rw [hokx.present.resident] at hres
    exact map_eq_none_iff.mp hres
  have hbits : vmExternalStateGet (w.objects x).existenceMap f ≠ .exists := by
    intro hc
    unfold vmExternalStateGet at hc
    split at hc
    · cases hc
    next bits hbits =>
    split at hc
    · next hbit =>
      have := (hokx.exact bits hbits f).mp hbit
      rw [hout] at this
      cases this
    · cases hc
  refine or_eq_none_iff.mpr ⟨?_, ?_⟩
  · -- a page in memory
    by_contra hc
    obtain ⟨d, hd⟩ := ne_none_iff_exists'.mp hc
    rw [hokb.present.resident] at hd
    obtain ⟨p, hp, -⟩ := map_eq_some_iff.mp hd
    have hoff : p.offset = f + (w.objects x).shadowOffset := by simpa using List.find?_some hp
    have := hpages p (mem_of_find?_eq_some hp)
    dsimp only at this
    rw [show p.offset - (w.objects x).shadowOffset = f by omega, hlookup] at this
    simp only [isSome_none, Bool.or_false, Bool.or_eq_true, decide_eq_true_eq] at this
    rcases this with this | this
    · omega
    · exact hbits this
  · -- a page that is paged out
    by_contra hc
    have hsome : (w.objects b).pager.isSome = true := by
      cases hpg : (w.objects b).pager with
      | none => exact absurd (by rw [VmWorld.pagedOut, hpg]; rfl) hc
      | some pager => rfl
    have hcreated := hokb.pager hsome
    cases hbmap : (w.objects b).existenceMap with
    | none => exact hmap ⟨hcreated, by rw [hbmap]; rfl⟩
    | some bits =>
      have hbit : bits (f + (w.objects x).shadowOffset) = true :=
        (hokb.exact bits hbmap _).mpr (Option.isSome_iff_ne_none.mpr hc)
      rw [hcreated, Bool.not_true, Bool.false_or, List.all_eq_true] at hpaged
      have := hpaged f (List.mem_range.mpr hf)
      rw [hlookup, hbmap, Nat.mod_eq_of_lt (by omega)] at this
      cases hxmap : (w.objects x).existenceMap with
      | none => simp [hxmap, vmExternalStateGet, hbit] at this
      | some xbits =>
        rw [hxmap] at hbits
        by_cases hx : xbits f = true
        · simp [vmExternalStateGet, hx] at hbits
        · simp [hxmap, vmExternalStateGet, hbit, hx] at this

/-- **Bypass** keeps what the object contains. -/
theorem bypass_kept (h : ChainOk w x tail) (hb : (w.objects x).shadow = some b)
    (hmap : ¬ ((w.objects b).pagerCreated = true ∧ (w.objects b).existenceMap.isNone = true))
    (hcan : canBypass (w.objects x) (w.objects b) = true) (fuel : ℕ) :
    ∃ w' tail', vmObjectDoBypass (fuel + 2) w x b = some w' ∧ tail'.length < tail.length ∧
      ContentsKept w w' x tail tail' := by
  obtain ⟨rest, rfl, hxb, hx, hbrest, hchain⟩ := h.cons_inv hb
  have hokx := h.ok x mem_cons_self
  have hokb := h.ok b (by simp)
  have hfits := h.fits_head
  obtain ⟨w', hrun, hothers, hobj⟩ := vmObjectDoBypass_spec hxb (fun s hs => by
    rw [hs] at hchain
    cases rest with
    | nil => exact hchain.elim
    | cons c rest =>
      obtain ⟨rfl, -⟩ := hchain
      exact ⟨fun he => hx (by simp [he]), fun he => hbrest (by simp [he]),
        h.referenced s (by simp)⟩) fuel
  rw [Nat.mod_eq_of_lt (by omega)] at hobj
  have hpaged : ∀ f, w'.pagedOut (w'.objects x) f = w.pagedOut (w.objects x) f := by
    intro f
    unfold VmWorld.pagedOut
    rw [hobj, hothers.pagers]
  refine ⟨w', rest, hrun, Nat.lt_succ_self _, hothers.contentsKept h hx hbrest hchain ⟨?_, ?_, ?_⟩
    (by rw [hobj]) (by rw [hobj]) (by rw [hobj]) (by rw [hobj]) (fun f _ => by rw [hobj])
    fun f hf => ?_⟩
  · rw [hobj]
    exact hokx.present
  · rw [hobj]
    exact hokx.pager
  · intro bits hbits f
    rw [hpaged]
    rw [hobj] at hbits
    exact hokx.exact bits hbits f
  · have hsame : w'.own x f = w.own x f := by
      unfold VmWorld.own
      rw [hpaged, hobj]
      rfl
    rw [hsame]
    cases hown : w.own x f with
    | none => rw [canBypass_own hokx hokb hmap hcan hf (by omega) hown]; rfl
    | some d => rfl

/-- **The loop ends**, and keeps what the object contains. -/
theorem collapseLoop_kept (env : CollapseEnv) (n : ℕ) (h : ChainOk w x tail)
    (hn : tail.length + 2 < n) :
    ∃ w' tail', collapseLoop env n w x = some w' ∧ ContentsKept w w' x tail tail' := by
  -- each step takes an object out of the chain
  induction n generalizing w tail with
  | zero => omega
  | succ n ih =>
    have hstop : ∃ w' tail', some w = some w' ∧ ContentsKept w w' x tail tail' :=
      ⟨w, tail, rfl, .refl h⟩
    rw [collapseLoop]
    dsimp only
    split
    · exact hstop
    cases hb : (w.objects x).shadow with
    | none => exact hstop
    | some b =>
      dsimp only
      split
      · exact hstop
      split
      · exact hstop
      split
      · next hcollapse =>
        split
        · obtain ⟨tail1, hlen, hkept⟩ := collapse_kept h hb (by simpa using hcollapse.2.1)
          obtain ⟨w', tail', hrun, hkept'⟩ := ih hkept.chain (by omega)
          exact ⟨w', tail', hrun, hkept.trans hkept'⟩
        · exact hstop
      split
      · exact hstop
      split
      · exact hstop
      next hmap =>
      split
      · next hcan =>
        obtain ⟨k, rfl⟩ : ∃ k, n = k + 2 := ⟨n - 2, by omega⟩
        obtain ⟨w1, tail1, hrun1, hlen, hkept⟩ := bypass_kept h hb hmap hcan k
        obtain ⟨w', tail', hrun, hkept'⟩ := ih hkept.chain (by omega)
        rw [hrun1, bind_some]
        exact ⟨w', tail', hrun, hkept.trans hkept'⟩
      · exact hstop

/-- **`vm_object_collapse` ends and keeps what is seen through the object.**  For every object
whose chain of shadows passes through the given one, what it contains at an offset that falls
within the given object stays the same. -/
theorem collapse_contents (env : CollapseEnv) (h : ChainOk w x tail) :
    ∃ n w' tail', vmObjectCollapse env n w x = some w' ∧
      ∀ c above, w.Chain (some c) (above ++ x :: tail) →
        (w'.objects c).alive = (w.objects c).alive ∧
        w'.Chain (some c) (above ++ x :: tail') ∧
        ∀ f, f + (above.map w.shadowOffsetOf).sum < (w.objects x).size →
          w'.contents (above ++ x :: tail') f = w.contents (above ++ x :: tail) f := by
  obtain ⟨w', tail', hrun, hkept⟩ :
      ∃ w' tail', vmObjectCollapse env (tail.length + 3) w x = some w' ∧
        ContentsKept w w' x tail tail' := by
    unfold vmObjectCollapse
    split
    · exact ⟨w, tail, rfl, .refl h⟩
    · exact collapseLoop_kept env _ h (by omega)
  refine ⟨_, w', tail', hrun, fun c above hc => ?_⟩
  have habove : ∀ y ∈ above, Alike (w.objects y) (w'.objects y) := by
    intro y hy
    have hnd := Layers.Chain.nodup hc
    exact hkept.others y fun hmem => (nodup_append.mp hnd).2.2 y hy y hmem rfl
  refine ⟨?_, Layers.Chain.replace hc (fun y hy => (habove y hy).shadowOf.1) hkept.chain.chain,
    fun f hf => ?_⟩
  · cases above with
    | nil =>
      obtain ⟨rfl, -⟩ := hc
      exact hkept.alive
    | cons a above =>
      obtain ⟨rfl, -⟩ := hc
      have := habove c mem_cons_self
      rw [this]
  · exact Layers.contents_append_congr
      (fun y hy => ⟨(habove y hy).own hkept.pagers, (habove y hy).shadowOf.2⟩)
      (hkept.contents _ hf)

/-- An object without pages that nothing has happened to. -/
def plainObject (size : ℕ) (shadow : Option ℕ) (memq : List (VmPage ℕ)) : VmObject ℕ :=
  { size := size, memq := memq, refCount := 1, shadow := shadow, shadowOffset := 0, copy := none
    pagerCreated := false, pager := none, pagingOffset := 0, existenceMap := none
    internal := true, pagingInProgress := 0, absentCount := 0, alive := true }

/-- Object 0, of two pages, shadows object 1, of `size` pages, which shadows object 2, of two
pages with a page in memory. -/
def threeObjects (size : ℕ) : VmWorld ℕ :=
  { objects := fun x =>
      if x = 0 then plainObject 2 (some 1) []
      else if x = 1 then plainObject size (some 2) []
      else plainObject 2 none [⟨1, false, 7⟩]
    pagers := fun _ _ => none }

/-- Everything is allowed, and the lock of the cache is free. -/
def freeEnv : CollapseEnv := ⟨true, true, fun _ => true⟩

theorem collapse_contents_threeObjects : (threeObjects 2).contents [0, 1, 2] 1 = some 7 ∧
    ∃ n w' tail', vmObjectCollapse freeEnv n (threeObjects 2) 1 = some w' ∧
      w'.contents ([0] ++ 1 :: tail') 1 = some 7 := by
  refine ⟨by decide, ?_⟩
  have hok : ChainOk (threeObjects 2) 1 [2] := by
    refine ⟨⟨rfl, rfl, trivial⟩, fun y hy => ?_, fun y hy => ?_, fun y hy => ?_⟩
    · rcases mem_cons.mp hy with rfl | hy
      · exact ⟨nofun, nofun, nofun⟩
      · rw [mem_singleton.mp hy]
        exact ⟨by simp [threeObjects, plainObject, VmObject.Present], nofun, nofun⟩
    · rw [mem_singleton.mp hy]
      decide
    · rw [mem_singleton.mp hy]
      decide
  obtain ⟨n, w', tail', hrun, h⟩ := collapse_contents freeEnv hok
  obtain ⟨-, -, hcontents⟩ := h 0 [0] ⟨rfl, rfl, rfl, trivial⟩
  exact ⟨n, w', tail', hrun, hcontents 1 (by decide)⟩

/-- **An object that reaches beyond the one it shadows loses pages**: the page of object 2 falls
outside object 1, and is freed when this takes over the pages of object 2. -/
theorem collapse_beyond_size : (threeObjects 1).contents [0, 1, 2] 1 = some 7 ∧
    ((threeObjects 1).objects 0).size = 2 ∧
    ∃ w', vmObjectCollapse freeEnv 4 (threeObjects 1) 1 = some w' ∧
      w'.Chain (some 0) [0, 1] ∧ (w'.objects 0).alive = true ∧ w'.contents [0, 1] 1 = none :=
  ⟨by decide, by decide, _, rfl, ⟨rfl, rfl, trivial⟩, rfl, rfl⟩

end Osfmk

import Osfmk.Pager.Store

/-!
# Every cluster in use has one owner

Between two operations, the bit of a cluster is set exactly when one entry of one map refers to it, and
the counter of a segment is the number of clear bits.  While an operation is under way, a cluster may
be reserved that is still free, and the entries of an object that dies are freed one after the other.
-/

open Function (update update_apply update_of_ne update_self)
open Option

namespace Osfmk.Paging

open Owners Census

/-- An entry that has been freed before the end of its object. -/
def Busy.freed : Busy → ℕ → Bool
  | .deallocating i, c => decide (c < i)
  | _, _ => false

/-- A cluster of a segment has been reserved. -/
def Busy.reserves : Busy → ℕ → Bool
  | .allocating p _ _ _, q => decide (p = q)
  | _, _ => false

/-- The segment and the cluster that an entry of a map refers to, unless it has been freed. -/
def mapRefers (m : Option Vs) (b : Busy) (c : ℕ) : Option (ℕ × ℕ) :=
  if b.freed c then none else m.bind fun m => m.refers c

/-- The bit of a cluster. -/
def Segment.used (g : Segment) (k : ℕ) : Bool := decide (k < g.ncls) && g.bmap k

namespace Store

variable {V : Type}

/-- The bit of a cluster of a segment. -/
def used (s : Store V) (r : ℕ × ℕ) : Bool := (s.segs r.1).any fun g => g.used r.2

/-- The reference of an entry of an object. -/
def refers (s : Store V) (o : V × ℕ) : Option (ℕ × ℕ) := mapRefers (s.vs o.1) (s.busy o.1) o.2

variable (s : Store V) (v : V) (m : Option Vs) (b : Busy) (p : ℕ) (g : Segment)

theorem refers_put [DecidableEq V] (o : V × ℕ) :
    (s.put v m b).refers o = if o.1 = v then mapRefers m b o.2 else s.refers o := by
  unfold refers put
  dsimp only
  split
  · next h => rw [h, update_self, update_self]
  · next h => rw [update_of_ne h, update_of_ne h]

theorem used_setSeg (r : ℕ × ℕ) :
    (s.setSeg p g).used r = if r.1 = p then g.used r.2 else s.used r := by
  unfold used setSeg
  dsimp only
  split
  · next h =>
    rw [h, update_self]
    rfl
  · next h => rw [update_of_ne h]

end Store

variable {V : Type} [DecidableEq V] [Fintype V] {clshift : ℕ} {s s' : Store V} {v : V}
  {m : Option Vs} {b : Busy} {p : ℕ} {g g' : Segment} {lost : ℕ × ℕ → Bool}

variable (clshift) in
/-- What an operation under way knows. -/
def BusyOk (segs : ℕ → Option Segment) (m : Option Vs) : Busy → Prop
  | .idle => True
  | .allocating p c _ _ => segs p ≠ none ∧ ∃ m', m = some m' ∧ c < m'.limit ∧ m'.lookup c ≠ none ∧
      m'.refers c = none
  | .unmapping offset length => ∃ m', m = some m' ∧ offset + length ≤ m'.size * Store.clsize clshift
  | .deallocating _ => m ≠ none

variable (clshift) in
/-- **What holds between two steps**, when some clusters have been lost. -/
structure Inv (lost : ℕ × ℕ → Bool) (s : Store V) : Prop where
  wf : ∀ v m, s.vs v = some m → m.WF
  busy : ∀ v, BusyOk clshift s.segs (s.vs v) (s.busy v)
  bound : ∀ p g, s.segs p = some g → p < 31 ∧ g.ncls ≤ 0x7fffff
  hint : ∀ p g, s.segs p = some g → g.HintOk
  count : ∀ p g, s.segs p = some g →
    (g.clcount : ℤ) + tally (fun v => (s.busy v).reserves p) = g.clear
  used : ∀ r, lost r = true → s.used r = true
  owned : Owned (fun r => s.used r && !lost r) s.refers

omit [Fintype V] [DecidableEq V] in
theorem BusyOk.setSeg (h : BusyOk clshift s.segs m b) : BusyOk clshift (s.setSeg p g).segs m b := by
  cases b with
  | idle => exact trivial
  | unmapping offset length => exact h
  | deallocating i => exact h
  | allocating q c newoff size =>
    refine ⟨fun hn => ?_, h.2⟩
    have hn' : update s.segs p (some g) q = none := hn
    rw [update_apply] at hn'
    split at hn'
    · cases hn'
    · exact h.1 hn'

theorem Vs.WF.all {m : Vs} (h : m.WF) : ∀ m', some m = some m' → m'.WF := by
  intro m' hm'
  rwa [← some.inj hm']

theorem tally_put (s : Store V) (v : V) (b : Busy) (p : ℕ) :
    tally (fun w => (update s.busy v b w).reserves p) =
      tally (fun w => (s.busy w).reserves p) - ind ((s.busy v).reserves p) + ind (b.reserves p) := by
  have h : tally (fun w => (update s.busy v b w).reserves p) =
      tally (fun w => (s.busy w).reserves p) - ind ((s.busy v).reserves p) +
        ind ((update s.busy v b v).reserves p) :=
    tally_change fun w hw => by rw [update_of_ne hw]
  rw [update_self] at h
  exact h

section

variable (h : Inv clshift lost s)
include h

theorem Inv.wf_put (hm : ∀ m', m = some m' → m'.WF) (w : V) (m' : Vs)
    (hw : (s.put v m b).vs w = some m') : m'.WF := by
  have hw' : update s.vs v m w = some m' := hw
  rw [update_apply] at hw'
  split at hw'
  · exact hm m' hw'
  · exact h.wf w m' hw'

theorem Inv.busy_put (hb : BusyOk clshift s.segs m b) (w : V) :
    BusyOk clshift s.segs ((s.put v m b).vs w) ((s.put v m b).busy w) := by
  unfold Store.put
  dsimp only
  by_cases hw : w = v
  · rw [hw, update_self, update_self]
    exact hb
  · rw [update_of_ne hw, update_of_ne hw]
    exact h.busy w

variable (hm : ∀ m', m = some m' → m'.WF) (hb : BusyOk clshift s.segs m b)
include hm hb

/-- **A step that changes no reference.** -/
theorem Inv.silent (hres : ∀ p, b.reserves p = (s.busy v).reserves p)
    (href : ∀ c, mapRefers m b c = mapRefers (s.vs v) (s.busy v) c) :
    Inv clshift lost (s.put v m b) where
  wf := h.wf_put hm
  busy := h.busy_put hb
  bound := h.bound
  hint := h.hint
  count p g hg := by
    have hc := h.count p g hg
    show _ + tally (fun w => (update s.busy v b w).reserves p) = _
    rw [tally_put, hres]
    omega
  used := h.used
  owned := by
    refine h.owned.congr (fun _ => rfl) fun o => ?_
    rw [Store.refers_put]
    split
    · next ho =>
      rw [href, ← ho]
      rfl
    · rfl

section

variable (hg : s.segs p = some g)
include hg

theorem Inv.change (hn : g'.ncls = g.ncls) (hh : g'.HintOk)
    (hres : ∀ q, q ≠ p → b.reserves q = (s.busy v).reserves q)
    (hcount : (g'.clcount : ℤ) + ind (b.reserves p) - g'.clear =
      g.clcount + ind ((s.busy v).reserves p) - g.clear)
    (hused : ∀ r, lost r = true → (s.setSeg p g').used r = true)
    (howned : Owned (fun r => (s.setSeg p g').used r && !lost r) (s.put v m b).refers) :
    Inv clshift lost ((s.setSeg p g').put v m b) := by
  have hseg : ∀ q k, update s.segs p (some g') q = some k →
      q = p ∧ k = g' ∨ q ≠ p ∧ s.segs q = some k := by
    intro q k hk
    by_cases hq : q = p
    · rw [hq, update_self] at hk
      exact Or.inl ⟨hq, (some.inj hk).symm⟩
    · rw [update_of_ne hq] at hk
      exact Or.inr ⟨hq, hk⟩
  refine ⟨h.wf_put (b := b) hm, fun w => (h.busy_put hb w).setSeg, fun q k hk => ?_, fun q k hk => ?_,
    fun q k hk => ?_, hused, howned⟩
  · rcases hseg q k hk with ⟨hq, hk'⟩ | ⟨-, hk'⟩
    · rw [hq, hk', hn]
      exact h.bound p g hg
    · exact h.bound q k hk'
  · rcases hseg q k hk with ⟨-, hk'⟩ | ⟨-, hk'⟩
    · rw [hk']
      exact hh
    · exact h.hint q k hk'
  · show _ + tally (fun w => (update s.busy v b w).reserves q) = _
    rw [tally_put]
    rcases hseg q k hk with ⟨hq, hk'⟩ | ⟨hq, hk'⟩
    · have hc := h.count p g hg
      rw [hq, hk']
      omega
    · have hc := h.count q k hk'
      rw [hres q hq]
      omega

/-- **A cluster is reserved.** -/
theorem Inv.reserve (hpos : g.clcount ≠ 0)
    (hold : ∀ q, (s.busy v).reserves q = false) (hnew : ∀ q, b.reserves q = decide (p = q))
    (href : ∀ c, mapRefers m b c = mapRefers (s.vs v) (s.busy v) c) :
    Inv clshift lost ((s.setSeg p { g with clcount := g.clcount - 1 }).put v m b) := by
  -- the bits stay as they are
  have hused : ∀ r, (s.setSeg p { g with clcount := g.clcount - 1 }).used r = s.used r := by
    intro r
    rw [Store.used_setSeg]
    split
    · next hr =>
      unfold Store.used
      rw [hr, hg]
      rfl
    · rfl
  refine h.change hm hb hg rfl (h.hint p g hg) (fun q hq => ?_) ?_ (fun r hr => ?_) ?_
  · rw [hnew, hold, decide_eq_false fun he => hq he.symm]
  · rw [hnew, hold, decide_eq_true rfl]
    show ((g.clcount - 1 : ℕ) : ℤ) + 1 - (g.clear : ℤ) = g.clcount + 0 - g.clear
    omega
  · rw [hused]
    exact h.used r hr
  refine h.owned.congr (fun r => by rw [hused]) fun o => ?_
  · rw [Store.refers_put]
    split
    · next ho =>
      rw [href, ← ho]
      rfl
    · rfl

/-- **The cluster that was reserved is taken.** -/
theorem Inv.take {c : ℕ}
    (hold : ∀ q, (s.busy v).reserves q = decide (p = q)) (hnew : ∀ q, b.reserves q = false)
    (hnone : mapRefers (s.vs v) (s.busy v) c = none)
    (href : g.allocateCluster.1 < 0x7fffff → mapRefers m b c = some (p, g.allocateCluster.1))
    (href' : ∀ d, d ≠ c → mapRefers m b d = mapRefers (s.vs v) (s.busy v) d) :
    Inv clshift lost ((s.setSeg p g.allocateCluster.2).put v m b) := by
  -- what has been reserved is free
  have hcount := h.count p g hg
  have hres : (s.busy v).reserves p = true := by rw [hold, decide_eq_true rfl]
  have hpos : 1 ≤ tally (fun w => (s.busy w).reserves p) := by
    have hle := Finset.single_le_sum (f := fun w => ind ((s.busy w).reserves p))
      (fun w _ => ind_nonneg _) (Finset.mem_univ v)
    rw [hres] at hle
    exact hle
  obtain ⟨k, hk, hclr⟩ := Segment.exists_clear (g := g) (by omega)
  obtain ⟨hlt, hbit, hh, hint, hseg⟩ := Segment.allocateCluster_spec (h.hint p g hg) hk hclr
  have hclear := Segment.clear_update_true hlt hbit hint
  have hfree : s.used (p, g.allocateCluster.1) = false := by
    unfold Store.used Segment.used
    dsimp only
    rw [hg, any_some, hbit, Bool.and_false]
  have hnew' : (s.setSeg p g.allocateCluster.2).used (p, g.allocateCluster.1) = true := by
    rw [Store.used_setSeg, if_pos rfl, hseg]
    unfold Segment.used
    dsimp only
    rw [update_self, decide_eq_true hlt]
    rfl
  have hother : ∀ r, r ≠ (p, g.allocateCluster.1) →
      (s.setSeg p g.allocateCluster.2).used r = s.used r := by
    intro r hr
    rw [Store.used_setSeg]
    split
    · next hr' =>
      have hne : r.2 ≠ g.allocateCluster.1 := fun he => hr (Prod.ext hr' he)
      unfold Store.used Segment.used
      rw [hr', hg, hseg]
      dsimp only
      rw [update_of_ne hne]
      rfl
    · rfl
  have hkept : lost (p, g.allocateCluster.1) = false := by
    by_contra hl
    have hu := h.used _ (Bool.not_eq_false _ ▸ hl)
    rw [hfree] at hu
    cases hu
  refine h.change hm hb hg (by rw [hseg]) hh (fun q hq => ?_) ?_ (fun r hr => ?_) ?_
  · rw [hnew, hold, decide_eq_false fun he => hq he.symm]
  · have hcl : g.allocateCluster.2.clcount = g.clcount := by rw [hseg]
    rw [hnew, hres, hcl, hseg, ind_true, ind_false]
    omega
  · by_cases he : r = (p, g.allocateCluster.1)
    · rw [he]
      exact hnew'
    · rw [hother r he]
      exact h.used r hr
  refine h.owned.take (o := (v, c)) (r := (p, g.allocateCluster.1)) ?_ ?_ (fun r hr => ?_) hnone
    ?_ fun o ho => ?_
  · rw [hfree, Bool.false_and]
  · rw [hnew', hkept]
    rfl
  · rw [hother r hr]
  · rw [Store.refers_put, if_pos rfl]
    exact href (by have := (h.bound p g hg).2; omega)
  rw [Store.refers_put]
  split
  · next ho' =>
    rw [href' o.2 fun he => ho (Prod.ext ho' he), ← ho']
    rfl
  · rfl

end

/-- **A cluster is given back** by the entry that refers to it. -/
theorem Inv.drop {c k : ℕ} {s' : Store V}
    (hres : ∀ q, b.reserves q = (s.busy v).reserves q)
    (hold : mapRefers (s.vs v) (s.busy v) c = some (p, k))
    (href : mapRefers m b c = none)
    (href' : ∀ d, d ≠ c → mapRefers m b d = mapRefers (s.vs v) (s.busy v) d)
    (hs : (s.put v m b).deallocateCluster p k = some s') : Inv clshift lost s' := by
  obtain ⟨g, hg, hs⟩ := bind_eq_some_iff.mp hs
  obtain ⟨g', hg', hs⟩ := map_eq_some_iff.mp hs
  have hseg : s.segs p = some g := hg
  have hin := (h.owned.used_iff (p, k)).mpr ⟨(v, c), hold⟩
  rw [Bool.and_eq_true, Bool.not_eq_true'] at hin
  have hbit : g.bmap k = true := by
    have hused := hin.1
    unfold Store.used Segment.used at hused
    dsimp only at hused
    rw [hseg, any_some, Bool.and_eq_true] at hused
    exact hused.2
  have hclear := Segment.clear_deallocate hbit hg'
  have hh := (h.hint p g hseg).deallocate hg'
  unfold Segment.deallocateCluster at hg'
  split at hg'
  · cases hg'
  next hlt =>
  have he := some.inj hg'
  have hn : g'.ncls = g.ncls := by rw [← he]
  have hcl : g'.clcount = g.clcount + 1 := by rw [← he]
  have hbm : g'.bmap = update g.bmap k false := by rw [← he]
  rw [← hs]
  have hother : ∀ r, r ≠ (p, k) → (s.setSeg p g').used r = s.used r := by
    intro r hr
    rw [Store.used_setSeg]
    split
    · next hr' =>
      have hne : r.2 ≠ k := fun he => hr (Prod.ext hr' he)
      unfold Store.used Segment.used
      rw [hr', hseg, hbm, hn, update_of_ne hne]
      rfl
    · rfl
  refine h.change hm hb hseg hn hh (fun q _ => hres q) ?_ (fun r hr => ?_) ?_
  · rw [hres, hcl, hclear]
    push_cast
    omega
  · rw [hother r fun he => by rw [he, hin.2] at hr; cases hr]
    exact h.used r hr
  refine h.owned.drop (o := (v, c)) (r := (p, k)) hold ?_ (fun r hr => ?_) ?_ fun o ho => ?_
  · rw [Store.used_setSeg, if_pos rfl]
    unfold Segment.used
    rw [hbm, update_self, Bool.and_false, Bool.false_and]
  · rw [hother r hr]
  · rw [Store.refers_put, if_pos rfl]
    exact href
  rw [Store.refers_put]
  split
  · next ho' =>
    rw [href' o.2 fun he => ho (Prod.ext ho' he), ← ho']
    rfl
  · rfl

end

theorem mapRefers_some {m : Vs} (hb : ∀ c, b.freed c = false) (c : ℕ) :
    mapRefers (some m) b c = m.refers c := by
  rw [mapRefers, hb, if_neg Bool.false_ne_true]
  rfl

section

variable (h : Inv clshift lost s)
include h

theorem Inv.rewrite {m : Vs} {c : ℕ} {e e' : VsMap} (hm : s.vs v = some m)
    (hc : c < m.limit) (hl : m.lookup c = some e) (he : e'.refers = e.refers)
    (hold : ∀ d, (s.busy v).freed d = false) (hnew : ∀ d, b.freed d = false)
    (hres : ∀ p, b.reserves p = (s.busy v).reserves p)
    (hb : BusyOk clshift s.segs (some (m.store c e')) b) :
    Inv clshift lost (s.put v (some (m.store c e')) b) := by
  have hwf := h.wf v m hm
  refine h.silent (hwf.store c e').all hb hres fun d => ?_
  have hne : m.lookup c ≠ none := by rw [hl]; exact some_ne_none e
  rw [hm, mapRefers_some hnew, mapRefers_some hold, Vs.refers_store hwf hc hne]
  split
  · next hd => rw [hd, he, Vs.refers_of_lookup hc hl]
  · rfl

theorem Inv.release {m : Vs} {c : ℕ} {e e' : VsMap} (hm : s.vs v = some m)
    (hc : c < m.limit) (hl : m.lookup c = some e) (hclr : ¬ e.isClr = true) (herr : ¬ e.error = true)
    (he : e'.refers = none) (hold : ∀ d, (s.busy v).freed d = false)
    (hnew : ∀ d, b.freed d = false) (hres : ∀ p, b.reserves p = (s.busy v).reserves p)
    (hb : BusyOk clshift s.segs (some (m.store c e')) b)
    (hs : (s.put v (some (m.store c e')) b).deallocateCluster e.psindex.toNat e.entry.toNat =
      some s') : Inv clshift lost s' := by
  have hwf := h.wf v m hm
  have hne : m.lookup c ≠ none := by rw [hl]; exact some_ne_none e
  refine h.drop (c := c) (hwf.store c e').all hb hres ?_ ?_ (fun d hd => ?_) hs
  · rw [hm, mapRefers_some hold, Vs.refers_of_lookup hc hl, VsMap.refers_of_live hclr herr]
  · rw [mapRefers_some hnew, Vs.refers_store hwf hc hne, if_pos rfl, he]
  · rw [hm, mapRefers_some hnew, mapRefers_some hold, Vs.refers_store hwf hc hne, if_neg hd]

omit [DecidableEq V] in
theorem Inv.idle_of_none (hv : s.vs v = none) : s.busy v = .idle := by
  have hb := h.busy v
  rw [hv] at hb
  cases hbusy : s.busy v with
  | idle => rfl
  | allocating p c newoff size =>
    rw [hbusy] at hb
    obtain ⟨-, m, hm, -⟩ := hb
    cases hm
  | unmapping offset length =>
    rw [hbusy] at hb
    obtain ⟨m, hm, -⟩ := hb
    cases hm
  | deallocating i =>
    rw [hbusy] at hb
    exact absurd rfl hb

theorem Inv.create (hv : s.vs v = none) (size : ℕ) (fresh : ℕ → VsMap) :
    Inv clshift lost (s.put v (some (Vs.create size fresh)) .idle) := by
  have hidle := h.idle_of_none hv
  refine h.silent (Vs.wf_create size fresh).all trivial (fun p => by rw [hidle]) fun c => ?_
  rw [hv, hidle, mapRefers_some (fun _ => rfl), Vs.refers_create]
  rfl

theorem Inv.clmapAlloc {m : Vs} (hm : s.vs v = some m) (hidle : s.busy v = .idle)
    (offset size : ℕ) (mem : Vs.Memory) (choice : Option ℕ) :
    Inv clshift lost (s.clmapAlloc clshift v m offset size mem choice) := by
  unfold Store.clmapAlloc
  dsimp only
  obtain ⟨c, hc⟩ : ∃ c, c = offset / Store.clsize clshift := ⟨_, rfl⟩
  rw [← hc]
  obtain ⟨hwf, -, -, -, hfound⟩ := Vs.reach_spec (h.wf v m hm) c mem
  have href : ∀ (b : Busy), (∀ d, b.freed d = false) → ∀ d,
      mapRefers (some (m.reach c mem).1) b d = mapRefers (s.vs v) (s.busy v) d := by
    intro b hb d
    rw [hm, hidle, mapRefers_some hb, mapRefers_some (fun _ => rfl), Vs.refers_reach (h.wf v m hm)]
  -- the map may have grown, and that is all
  have hsilent : Inv clshift lost (s.put v (some (m.reach c mem).1) .idle) :=
    h.silent hwf.all trivial (fun p => by rw [hidle]) (href .idle fun _ => rfl)
  split
  · exact hsilent
  next e he =>
  cases hr : (m.reach c mem).2
  · rw [hr, if_neg Bool.false_ne_true] at he
    cases he
  rw [hr, if_pos rfl] at he
  have hlt : c < (m.reach c mem).1.limit :=
    (hfound hr).1.trans_le (Vs.size_le_limit _)
  split
  · exact hsilent
  split
  · next hclr =>
    split
    · exact hsilent
    next q hq =>
    obtain ⟨p, -, hq⟩ := bind_eq_some_iff.mp hq
    obtain ⟨g, hg, hq⟩ := bind_eq_some_iff.mp hq
    obtain ⟨hpos, hq⟩ := Trace.of_guard hq
    rw [hq]
    refine h.reserve hwf.all ⟨?_, _, rfl, hlt, (hfound hr).2, ?_⟩ hg hpos
      (fun r => by rw [hidle]; rfl) (fun r => rfl) (href _ fun _ => rfl)
    · rw [hg]
      exact some_ne_none g
    · rw [Vs.refers_of_lookup hlt he, VsMap.refers_of_isClr hclr]
  · obtain ⟨h1, h2, h3, -⟩ := VsMap.setAllocs_frame (Store.clsize clshift) e
      (offset % Store.clsize clshift) size
    have hput := hsilent.rewrite (v := v) (b := .idle) (update_self ..) hlt he
      (VsMap.refers_congr ⟨h1, h2, h3⟩)
      (fun d => by rw [Store.put]; dsimp only; rw [update_self]; rfl) (fun _ => rfl)
      (fun p => by rw [Store.put]; dsimp only; rw [update_self]) trivial
    unfold Store.put at hput ⊢
    simp only [Function.update_idem] at hput
    exact hput

theorem Inv.allocate {m : Vs} (hm : s.vs v = some m) {p c newoff size : ℕ}
    (hb : s.busy v = .allocating p c newoff size)
    (hs : s.allocate clshift v m p c newoff size = some s') : Inv clshift lost s' := by
  obtain ⟨g, hg, hs⟩ := map_eq_some_iff.mp hs
  rw [← hs]
  have hok := h.busy v
  rw [hb, hm] at hok
  obtain ⟨-, m', hm', hlt, hl, hnone⟩ := hok
  cases hm'
  have hwf := h.wf v m hm
  have hfree : ∀ d, (s.busy v).freed d = false := fun d => by rw [hb]; rfl
  refine h.take (c := c) (hwf.store c _).all trivial hg (fun q => by rw [hb]; rfl) (fun _ => rfl) ?_
    (fun hk => ?_) fun d hd => ?_
  · rw [hm, mapRefers_some hfree, hnone]
  · obtain ⟨h1, h2, h3, -⟩ := VsMap.setAllocs_frame (Store.clsize clshift)
      (VsMap.mapped g.allocateCluster.1 p) newoff size
    have hp := (h.bound p g hg).1
    rw [mapRefers_some (fun _ => rfl), Vs.refers_store hwf hlt hl, if_pos rfl,
      VsMap.refers_congr ⟨h1, h2, h3⟩, VsMap.refers_mapped hk (by omega)]
  · rw [hm, mapRefers_some (fun _ => rfl), mapRefers_some hfree, Vs.refers_store hwf hlt hl,
      if_neg hd]

/-- **A write completes**; one that fails does not find the cluster 0. -/
theorem Inv.writeComplete {m : Vs} (hm : s.vs v = some m)
    (hidle : s.busy v = .idle) {offset size error : ℕ}
    (hzero : error ≠ 0 → offset / Store.clsize clshift < m.size →
      ∀ e, m.lookup (offset / Store.clsize clshift) = some e → e.entry = 0 → e.error = true)
    (hs : s.writeComplete clshift v m offset size error = some s') : Inv clshift lost s' := by
  have hfree : ∀ d, (s.busy v).freed d = false := fun d => by rw [hidle]; rfl
  have hres : ∀ p, Busy.idle.reserves p = (s.busy v).reserves p := fun p => by rw [hidle]
  unfold Store.writeComplete at hs
  dsimp only at hs
  split at hs
  · cases hs
    exact h
  next e he =>
  obtain ⟨hlt, he⟩ := ite_none_right_eq_some.mp he
  have hlt' := hlt.trans_le (Vs.size_le_limit m)
  split at hs
  · cases hs
    exact h
  next herr =>
  split at hs
  · next hclr =>
    split at hs
    · cases hs
      refine h.rewrite hm hlt' he ?_ hfree (fun _ => rfl) hres trivial
      rw [VsMap.refers_of_isClr hclr, VsMap.refers_of_error rfl]
    · cases hs
      exact h
  next hclr =>
  split at hs
  · cases hs
    exact h
  split at hs
  · cases hs
    obtain ⟨h1, h2, h3, -⟩ := VsMap.setPgs_frame e (offset % Store.clsize clshift) size
    exact h.rewrite hm hlt' he (VsMap.refers_congr ⟨h1, h2, h3⟩) hfree (fun _ => rfl) hres
      trivial
  next hne =>
  split at hs
  · exact h.release hm hlt' he hclr herr (VsMap.refers_of_error rfl) hfree (fun _ => rfl)
      hres trivial hs
  · next hz => exact absurd (hzero hne hlt e he (not_not.mp hz)) herr

end

theorem VsMap.clrPgs_left (n : ℕ) (e : VsMap) (i length : ℕ) :
    (VsMap.clrPgs n e i length).2 ≤ length := by
  induction length generalizing e i with
  | zero => exact le_rfl
  | succ k ih =>
    rw [VsMap.clrPgs]
    split
    · exact (ih (e.clrPg i) (i + 1)).trans (Nat.le_succ k)
    · exact le_rfl

/-- **A turn of the loop of `ps_clunmap`**, on an entry that is not in error. -/
theorem Inv.unmap (h : Inv clshift lost s) {m : Vs} (hm : s.vs v = some m) {offset length : ℕ}
    (hb : s.busy v = .unmapping offset length)
    (hsound : length ≠ 0 → ∀ e, m.lookup (offset / Store.clsize clshift) = some e → e.error = false)
    (hs : s.unmap clshift v m offset length = some s') : Inv clshift lost s' := by
  have hfree : ∀ d, (s.busy v).freed d = false := fun d => by rw [hb]; rfl
  have hres : ∀ p, Busy.idle.reserves p = (s.busy v).reserves p := fun p => by rw [hb]; rfl
  have hgo : ∀ o l p, (Busy.unmapping o l).reserves p = (s.busy v).reserves p :=
    fun o l p => by rw [hb]; rfl
  have hwf := (h.wf v m hm).all
  have hok := h.busy v
  rw [hb, hm] at hok
  obtain ⟨m', hm', hrange⟩ := hok
  cases hm'
  have hend : Inv clshift lost (s.put v (some m) .idle) :=
    h.silent hwf trivial hres fun c => by rw [hm, mapRefers_some (fun _ => rfl), mapRefers_some hfree]
  unfold Store.unmap at hs
  dsimp only at hs
  split at hs
  · cases hs
    exact hend
  next hpos =>
  have hlt : offset / Store.clsize clshift < m.limit := by
    refine lt_of_lt_of_le ?_ (Vs.size_le_limit m)
    refine (Nat.div_lt_iff_lt_mul (Nat.two_pow_pos clshift)).mpr (lt_of_lt_of_le ?_ hrange)
    omega
  split at hs
  · cases hs
    exact hend
  next e he =>
  split at hs
  · cases hs
    refine h.silent hwf ⟨m, rfl, by omega⟩ (hgo _ _) fun c => ?_
    rw [hm, mapRefers_some (fun _ => rfl), mapRefers_some hfree]
  next hclr =>
  have herr : ¬ e.error = true := by rw [hsound hpos e he]; exact Bool.false_ne_true
  obtain ⟨h1, h2, h3⟩ := VsMap.clrPgs_frame (Store.clsize clshift) e
    (offset % Store.clsize clshift) length
  have hleft := VsMap.clrPgs_left (Store.clsize clshift) e (offset % Store.clsize clshift) length
  have hsize : ∀ e', (m.store (offset / Store.clsize clshift) e').size = m.size :=
    fun e' => (m.store_frame _ e').1
  have hrest : ∀ e', BusyOk clshift s.segs (some (m.store (offset / Store.clsize clshift) e'))
      (.unmapping (offset + (length - (VsMap.clrPgs (Store.clsize clshift) e
        (offset % Store.clsize clshift) length).2)) (VsMap.clrPgs (Store.clsize clshift) e
          (offset % Store.clsize clshift) length).2) := by
    intro e'
    refine ⟨_, rfl, ?_⟩
    rw [hsize]
    omega
  split at hs
  · rw [h1, h2] at hs
    exact h.release hm hlt he hclr herr rfl hfree (fun _ => rfl) (hgo _ _) (hrest _) hs
  · cases hs
    exact h.rewrite hm hlt he (VsMap.refers_congr ⟨h1, h2, h3⟩) hfree (fun _ => rfl) (hgo _ _)
      (hrest _)

theorem mapRefers_of_deallocating (m : Vs) (i c : ℕ) :
    mapRefers (some m) (.deallocating i) c = if c < i then none else m.refers c := by
  have hfreed : (Busy.deallocating i).freed c = decide (c < i) := rfl
  rw [mapRefers, hfreed, bind_some]
  simp only [decide_eq_true_iff]

theorem mapRefers_deallocating (m : Vs) (i c : ℕ) : mapRefers (some m) (.deallocating (i + 1)) c =
      if c = i then none else mapRefers (some m) (.deallocating i) c := by
  rw [mapRefers_of_deallocating, mapRefers_of_deallocating]
  split_ifs <;> first | rfl | omega

theorem mapRefers_self (m : Vs) (i : ℕ) : mapRefers (some m) (.deallocating i) i = m.refers i := by
  rw [mapRefers_of_deallocating, if_neg (lt_irrefl i)]

/-- **An object dies**: the cluster of one more entry is given back, or the map goes. -/
theorem Inv.free (h : Inv clshift lost s) {m : Vs} (hm : s.vs v = some m) {i : ℕ}
    (hb : s.busy v = .deallocating i) (hs : s.free v m i = some s') : Inv clshift lost s' := by
  have hwf := (h.wf v m hm).all
  have hok : BusyOk clshift s.segs (some m) (.deallocating (i + 1)) := some_ne_none m
  have hres : ∀ p, (Busy.deallocating (i + 1)).reserves p = (s.busy v).reserves p :=
    fun p => by rw [hb]; rfl
  unfold Store.free at hs
  dsimp only at hs
  split at hs
  · next hlt =>
    -- an entry that refers to nothing is passed
    have hpass : m.refers i = none →
        Inv clshift lost (s.put v (some m) (.deallocating (i + 1))) := by
      intro hnone
      refine h.silent hwf hok hres fun c => ?_
      rw [hm, hb, mapRefers_deallocating]
      split
      · next hc => rw [hc, mapRefers_self, hnone]
      · rfl
    split at hs
    · next hl =>
      cases hs
      refine hpass ?_
      rw [Vs.refers, if_pos hlt, hl]
      rfl
    next e hl =>
    split at hs
    · next hlive =>
      rw [Bool.and_eq_true, Bool.not_eq_true', Bool.not_eq_true'] at hlive
      refine h.drop (c := i) hwf hok hres ?_ ?_ (fun d hd => ?_) hs
      · rw [hm, hb, mapRefers_self, Vs.refers_of_lookup hlt hl,
          VsMap.refers_of_live (by rw [hlive.1]; exact Bool.false_ne_true)
            (by rw [hlive.2]; exact Bool.false_ne_true)]
      · rw [mapRefers_deallocating, if_pos rfl]
      · rw [hm, hb, mapRefers_deallocating, if_neg hd]
    next hdead =>
    cases hs
    refine hpass ?_
    rw [Vs.refers_of_lookup hlt hl]
    by_cases hclr : e.isClr = true
    · exact VsMap.refers_of_isClr hclr
    refine VsMap.refers_of_error ?_
    rw [Bool.not_eq_true] at hclr
    rw [hclr, Bool.not_false, Bool.true_and, Bool.not_eq_true'] at hdead
    exact Bool.not_eq_false _ ▸ hdead
  · next hge =>
    cases hs
    refine h.silent (by simp) trivial (fun p => by rw [hb]; rfl) fun c => ?_
    rw [hm, hb, mapRefers_of_deallocating]
    split
    · rfl
    · rw [Vs.refers, if_neg (by omega)]
      rfl

variable (clshift) in
/-- The condition on a step: a write that fails does not find the cluster 0 in its entry, and the
entry of a page that is unmapped is not in error. -/
def Sound (s : Store V) : Act V → Prop
  | .writeComplete v offset _ error => error ≠ 0 → ∀ m e, s.vs v = some m →
      offset / Store.clsize clshift < m.size →
      m.lookup (offset / Store.clsize clshift) = some e → e.entry = 0 → e.error = true
  | .unmap v => ∀ m offset length e, s.vs v = some m → s.busy v = .unmapping offset length →
      length ≠ 0 → m.lookup (offset / Store.clsize clshift) = some e → e.error = false
  | _ => True

/-- **One step.** -/
theorem Inv.step (h : Inv clshift lost s) {a : Act V} (hsound : Sound clshift s a)
    (hs : Paging.step clshift s a = some s') : Inv clshift lost s' := by
  cases a with
  | create v size fresh =>
    obtain ⟨hv, hs⟩ := Trace.of_guard hs
    rw [hs]
    exact h.create hv size fresh
  | clmap v offset size mem choice =>
    obtain ⟨m, hm, hs⟩ := bind_eq_some_iff.mp hs
    obtain ⟨hidle, hs⟩ := Trace.of_guard hs
    rw [hs]
    exact h.clmapAlloc hm hidle offset size mem choice
  | allocate v =>
    obtain ⟨m, hm, hs⟩ := bind_eq_some_iff.mp hs
    split at hs
    · next hb => exact h.allocate hm hb hs
    · cases hs
  | writeComplete v offset size error =>
    obtain ⟨m, hm, hs⟩ := bind_eq_some_iff.mp hs
    obtain ⟨hidle, hs⟩ := ite_none_right_eq_some.mp hs
    exact h.writeComplete hm hidle (fun he hlt e => hsound he m e hm hlt) hs
  | clunmap v offset length =>
    obtain ⟨m, hm, hs⟩ := bind_eq_some_iff.mp hs
    obtain ⟨⟨hidle, hrange⟩, hs⟩ := Trace.of_guard hs
    rw [hs]
    refine h.silent (h.wf v m hm).all ⟨m, rfl, hrange⟩ (fun p => by rw [hidle]; rfl) fun c => ?_
    rw [hm, hidle, mapRefers_some (fun _ => rfl), mapRefers_some (fun _ => rfl)]
  | unmap v =>
    obtain ⟨m, hm, hs⟩ := bind_eq_some_iff.mp hs
    split at hs
    · next offset length hb =>
      exact h.unmap hm hb (fun hlen e => hsound m offset length e hm hb hlen) hs
    · cases hs
  | dealloc v =>
    obtain ⟨m, hm, hs⟩ := bind_eq_some_iff.mp hs
    obtain ⟨hidle, hs⟩ := Trace.of_guard hs
    rw [hs]
    refine h.silent (h.wf v m hm).all (some_ne_none m) (fun p => by rw [hidle]; rfl) fun c => ?_
    rw [hm, hidle, mapRefers_of_deallocating, if_neg (Nat.not_lt_zero c),
      mapRefers_some (fun _ => rfl)]
  | free v =>
    obtain ⟨m, hm, hs⟩ := bind_eq_some_iff.mp hs
    split at hs
    · next i hb => exact h.free hm hb hs
    · cases hs

/-- A segment that `default_pager_add_segment` has set up. -/
def Segment.Fresh (g : Segment) : Prop :=
  g.clcount = g.ncls ∧ g.hint = 0 ∧ ∀ k, k < g.ncls → g.bmap k = false

/-- Segments that have been added to the array, and no object. -/
structure Initial (s : Store V) : Prop where
  vs : ∀ v, s.vs v = none
  busy : ∀ v, s.busy v = .idle
  seg : ∀ p g, s.segs p = some g → p < 31 ∧ g.Fresh

/-- The numbers of the clusters fit the field of an entry. -/
def Fits (s : Store V) : Prop := ∀ p g, s.segs p = some g → g.ncls ≤ 0x7fffff

theorem Segment.Fresh.used (h : g.Fresh) (k : ℕ) : g.used k = false := by
  unfold Segment.used
  by_cases hk : k < g.ncls
  · rw [h.2.2 k hk, Bool.and_false]
  · rw [decide_eq_false hk, Bool.false_and]

theorem Segment.Fresh.clear (h : g.Fresh) : g.clear = g.clcount := by
  rw [Segment.clear, Finset.filter_true_of_mem fun k hk => h.2.2 k (Finset.mem_range.mp hk),
    Finset.card_range, h.1]

omit [DecidableEq V] in
theorem tally_idle (h : ∀ v, s.busy v = .idle) (p : ℕ) :
    tally (fun v => (s.busy v).reserves p) = 0 := by
  refine Finset.sum_eq_zero fun v _ => ?_
  show ind ((s.busy v).reserves p) = 0
  rw [h v]
  rfl

omit [DecidableEq V] in
theorem Initial.inv (h : Initial s) (hfit : Fits s) : Inv clshift (fun _ => false) s where
  wf v m hm := by
    rw [h.vs v] at hm
    cases hm
  busy v := by
    rw [h.busy v]
    exact trivial
  bound p g hg := ⟨(h.seg p g hg).1, hfit p g hg⟩
  hint p g hg k hk := by
    rw [(h.seg p g hg).2.2.1, Nat.zero_mul] at hk
    exact absurd hk (Nat.not_lt_zero k)
  count p g hg := by
    rw [tally_idle h.busy, (h.seg p g hg).2.clear, add_zero]
  used r hr := by cases hr
  owned := by
    have href : ∀ o, s.refers o = none := by
      intro o
      rw [Store.refers, h.vs, h.busy]
      rfl
    refine ⟨fun r => ⟨fun hu => ?_, fun ho => ?_⟩, fun o p r ho => ?_⟩
    · rw [Bool.and_eq_true] at hu
      have hu := hu.1
      unfold Store.used at hu
      cases hg : s.segs r.1 with
      | none =>
        rw [hg] at hu
        cases hu
      | some g =>
        rw [hg, any_some, (h.seg r.1 g hg).2.used r.2] at hu
        cases hu
    · obtain ⟨o, ho⟩ := ho
      rw [href o] at ho
      cases ho
    · rw [href o] at ho
      cases ho

/-- **Every cluster in use has one owner**: when no operation is in progress, the bit of a cluster is
set exactly when one entry of one object refers to it, and the counter of a segment is the number of
its clear bits. -/
theorem owned_of_run {s0 s : Store V} {acts : List (Act V)} (h0 : Initial s0) (hfit : Fits s0)
    (hsound : Trace.Meets (step clshift) (Sound clshift) s0 acts)
    (hrun : Trace.run (step clshift) s0 acts = some s) (hidle : ∀ v, s.busy v = .idle) :
    ∀ p g, s.segs p = some g →
      (∀ k, k < g.ncls → (g.bmap k = true ↔ ∃! o, s.refers o = some (p, k))) ∧
        g.clcount = g.clear := by
  have hinv : Inv clshift (fun _ => false) s :=
    Trace.invariant (P := Sound clshift) (I := Inv clshift fun _ => false)
      (fun _ _ _ hI hP hs => hI.step hP hs) acts s0 s (h0.inv hfit) hsound hrun
  intro p g hg
  refine ⟨fun k hk => ?_, ?_⟩
  · rw [← hinv.owned.used_iff_unique, Store.used, hg, any_some, Segment.used,
      decide_eq_true hk, Bool.true_and, Bool.not_false, Bool.and_true]
  · have hcount := hinv.count p g hg
    rw [tally_idle hidle] at hcount
    omega

/-- A segment of 16 clusters, and no object. -/
def oneSegment : Store Bool where
  segs p := if p = 0 then some ⟨⟨0, 0, 3, 16⟩, 16, 0, fun _ => false⟩ else none
  vs _ := none
  busy _ := .idle

theorem oneSegment_initial : Initial oneSegment ∧ Fits oneSegment := by
  have hseg : ∀ p g, oneSegment.segs p = some g →
      p = 0 ∧ (⟨⟨0, 0, 3, 16⟩, 16, 0, fun _ => false⟩ : Segment) = g := by
    intro p g hg
    obtain ⟨hp, hg⟩ := ite_none_right_eq_some.mp hg
    exact ⟨hp, some.inj hg⟩
  refine ⟨⟨fun _ => rfl, fun _ => rfl, fun p g hg => ?_⟩, fun p g hg => ?_⟩
  · obtain ⟨hp, hg⟩ := hseg p g hg
    rw [hp, ← hg]
    exact ⟨by decide, rfl, rfl, fun _ _ => rfl⟩
  · rw [← (hseg p g hg).2]
    decide

/-- Memory for the maps. -/
def memory : Vs.Memory := ⟨true, true, fun _ => VsMap.clr⟩

/-- A page of an object is written, and then a page of another one. -/
def twoWrites : List (Act Bool) :=
  [.create true 1 fun _ => VsMap.clr, .clmap true 0 1 memory (some 0), .allocate true,
    .writeComplete true 0 1 0, .create false 1 fun _ => VsMap.clr,
    .clmap false 5 1 memory (some 0), .allocate false, .writeComplete false 5 1 0]

theorem owned_of_run_write : ∃ s, Trace.run (step 2) oneSegment twoWrites = some s ∧
    ∀ p g, s.segs p = some g →
      (∀ k, k < g.ncls → (g.bmap k = true ↔ ∃! o, s.refers o = some (p, k))) ∧
        g.clcount = g.clear := by
  obtain ⟨s, hs⟩ : ∃ s, Trace.run (step 2) oneSegment twoWrites = some s := ⟨_, rfl⟩
  have hidle : ∀ v, (Trace.run (step 2) oneSegment twoWrites).map (fun s => s.busy v) =
      some .idle := by
    intro v
    cases v <;> rfl
  refine ⟨s, hs, owned_of_run oneSegment_initial.1 oneSegment_initial.2 ?_ hs fun v => ?_⟩
  · exact ⟨trivial, fun _ _ => ⟨trivial, fun _ _ => ⟨trivial, fun _ _ => ⟨fun h => absurd rfl h,
      fun _ _ => ⟨trivial, fun _ _ => ⟨trivial, fun _ _ => ⟨trivial, fun _ _ =>
        ⟨fun h => absurd rfl h, fun _ _ => trivial⟩⟩⟩⟩⟩⟩⟩⟩
  · have hv := hidle v
    rw [hs] at hv
    exact some.inj hv

/-- A page is written, and the write fails. -/
def failedWrite : List (Act Bool) :=
  [.create true 1 fun _ => VsMap.clr, .clmap true 0 1 memory (some 0), .allocate true,
    .writeComplete true 0 1 5]

/-- **A write that fails loses the cluster 0**: its bit stays set, and no entry refers to it. -/
theorem writeComplete_loses_cluster : ∃ s, Trace.run (step 2) oneSegment failedWrite = some s ∧
    (∀ v, s.busy v = .idle) ∧ s.used (0, 0) = true ∧ ∀ o, s.refers o ≠ some (0, 0) := by
  refine ⟨_, rfl, fun v => by cases v <;> rfl, rfl, fun o => ?_⟩
  obtain ⟨v, c⟩ := o
  cases v
  · exact nofun
  -- the map has one entry
  rcases Nat.eq_zero_or_pos c with hc | hc
  · rw [hc]
    exact nofun
  · refine ne_of_eq_of_ne (if_neg ?_) (some_ne_none _).symm
    exact not_lt.mpr hc

/-- Two clusters of an object are written; a write of another one fails with the error 1 while its page
is being read, and the page that has been read is unmapped. -/
def readDuringFailedWrite : List (Act Bool) :=
  [.create false 2 fun _ => VsMap.clr, .clmap false 0 1 memory (some 0), .allocate false,
    .clmap false 4 1 memory (some 0), .allocate false, .create true 1 fun _ => VsMap.clr,
    .clmap true 0 1 memory (some 0), .allocate true, .writeComplete true 0 1 0,
    .writeComplete true 0 1 1, .clunmap true 0 1, .unmap true, .unmap true]

/-- **The cluster of another object is given back**, because its number is the error. -/
theorem clunmap_frees_cluster_in_use :
    ∃ s, Trace.run (step 2) oneSegment readDuringFailedWrite = some s ∧
      (∀ v, s.busy v = .idle) ∧ s.used (0, 1) = false ∧ s.refers (false, 1) = some (0, 1) :=
  ⟨_, rfl, fun v => by cases v <;> rfl, rfl, rfl⟩

end Osfmk.Paging

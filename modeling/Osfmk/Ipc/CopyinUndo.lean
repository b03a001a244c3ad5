import Osfmk.Ipc.Right

/-!
# Undoing the copyin of a right to a dead port

`ipc_right_copyin_undo` is called when the port of a right that was copied in has died.  It has the entry
that the copyin left, the object and the send-once right that the copyin returned, and makes the entry
what it would be had the port died before.  Here an entry is taken together with its port, and the
references to the port are counted.
-/

open List Option

namespace Osfmk

/-- The dispositions that can be undone. -/
inductive SendDisposition
  | moveSend
  | copySend
  | moveSendOnce
  deriving DecidableEq

/-- An entry and the port it has, or had. -/
structure EntryPort where
  entry : IpcEntry
  hashed : Bool
  ipActive : Bool
  ipDnrequests : DnTable
  ipReferences : ℤ

/-- The send-once right of the request with a given index; index 0 is no request. -/
def DnTable.soright (table : DnTable) (index : ℕ) : Option ℕ :=
  if index = 0 then none else (table.request index).iprSoright

/-- The table without the request with a given index. -/
def DnTable.cancel (table : DnTable) (index : ℕ) : DnTable :=
  if index = 0 then table
  else { table with
    iprNext := index
    request := Function.update table.request index ⟨machPortNull, none, table.iprNext⟩ }

theorem DnTable.request_cancel {table : DnTable} {index k : ℕ} (h : index = 0 ∨ k ≠ index) :
    (table.cancel index).request k = table.request k := by
  unfold DnTable.cancel
  split
  · rfl
  · exact Function.update_of_ne (by tauto) _ _

/-- The number of dead-name requests in a table whose notifications go to `port`. -/
def DnTable.requestsFor (table : DnTable) (slots port : ℕ) : ℕ :=
  (List.range' 1 (slots - 1)).countP fun i =>
    decide ((table.request i).iprName ≠ machPortNull ∧ (table.request i).iprSoright = some port)

namespace EntryPort

/-- Write the right of the entry. -/
def setRight (s : EntryPort) (type : MachPortType) (urefs : ℕ) (object : IpcObject) : EntryPort :=
  { s with entry := { s.entry with
    ieBits := { s.entry.ieBits with type := type, urefs := urefs }, ieObject := object } }

/-- `ip_reference`, and `ipc_port_release` for a negative number. -/
def reference (s : EntryPort) (n : ℤ) : EntryPort := { s with ipReferences := s.ipReferences + n }

/-- `ipc_right_check`. -/
def check (s : EntryPort) : Bool × EntryPort :=
  if s.ipActive then (false, s)
  else (true, { s with
    entry := s.entry.toDeadName
    hashed := if s.entry.ieBits.type.hasSend then false else s.hashed
    ipReferences := s.ipReferences - 1 })

/-- `ipc_right_dncancel_macro`. -/
def dncancel (s : EntryPort) : Option ℕ × EntryPort :=
  (s.ipDnrequests.soright s.entry.ieRequest, { s with
    entry := { s.entry with ieRequest := 0 }
    ipDnrequests := s.ipDnrequests.cancel s.entry.ieRequest })

/-- What a copyin returns: `*objectp`, `*sorightp` and the new state. -/
structure Copied where
  object : IpcObject
  soright : Option ℕ
  state : EntryPort

/-- The `copy_dead` label; `none` is `KERN_INVALID_RIGHT`. -/
def copyDead (s : EntryPort) (deadok : Bool) : Option Copied :=
  if deadok then some ⟨.dead, none, s⟩ else none

/-- The `move_dead` label. -/
def moveDead (s : EntryPort) (deadok : Bool) : Option Copied :=
  let bits := s.entry.ieBits
  if deadok = false then none
  else if bits.urefs = 1 then some ⟨.dead, none, s.setRight .none bits.urefs s.entry.ieObject⟩
  else some ⟨.dead, none, s.setRight bits.type (bits.urefs - 1) s.entry.ieObject⟩

/-- How the three dispositions begin: a dead name, or a right whose port is found dead, goes to a label
for dead names. -/
def begin (s : EntryPort) (dead live : EntryPort → Option Copied) : Option Copied :=
  if s.entry.ieBits.type = .deadName then dead s
  else if s.entry.ieBits.type.hasSendRights = false then none
  else match s.check with
    | (true, s) => dead s
    | (false, s) => live s

/-- `ipc_right_copyin`, for an entry of `port`. -/
def copyin (port : ℕ) (s : EntryPort) (deadok : Bool) : SendDisposition → Option Copied
  | .copySend => s.begin (copyDead · deadok) fun s =>
    if s.entry.ieBits.type.hasSend = false then none else some ⟨.port port, none, s.reference 1⟩
  | .moveSend => s.begin (moveDead · deadok) fun s =>
    let bits := s.entry.ieBits
    if bits.type.hasSend = false then none
    else if bits.urefs = 1 then
      if bits.type.hasReceive then
        some ⟨.port port, none, (s.setRight bits.type.clearSend 0 s.entry.ieObject).reference 1⟩
      else
        some ⟨.port port, s.dncancel.1,
          { s.dncancel.2.setRight bits.type.clearSend 0 .null with hashed := false }⟩
    else
      some ⟨.port port, none, (s.setRight bits.type (bits.urefs - 1) s.entry.ieObject).reference 1⟩
  | .moveSendOnce => s.begin (moveDead · deadok) fun s =>
    if s.entry.ieBits.type ≠ .sendOnce then none
    else some ⟨.port port, s.dncancel.1, s.dncancel.2.setRight .none s.entry.ieBits.urefs .null⟩

/-- One user reference more, unless the right was copied. -/
def increment (s : EntryPort) (disposition : SendDisposition) : EntryPort :=
  if disposition = .copySend then s
  else s.setRight s.entry.ieBits.type (s.entry.ieBits.urefs + 1) s.entry.ieObject

/-- `ipc_right_copyin_undo`. -/
def copyinUndo (s : EntryPort) (disposition : SendDisposition) (object : IpcObject)
    (soright : Option ℕ) : EntryPort :=
  let undone :=
    if soright ≠ none then s.setRight .deadName 2 s.entry.ieObject
    else if s.entry.ieBits.type = .none then s.setRight .deadName 1 s.entry.ieObject
    else if s.entry.ieBits.type = .deadName then s.increment disposition
    else (s.increment disposition).check.2
  -- release the reference acquired by copyin
  if object ≠ .dead then undone.reference (-1) else undone

/-- The death of the port: the reference of its receiver is released, and those of the send-once rights
for the port itself in the dead-name requests, whose notifications are sent to a dead port. -/
def die (slots port : ℕ) (s : EntryPort) : EntryPort :=
  if s.ipActive then { s with
    ipActive := false
    ipDnrequests := .null
    ipReferences := s.ipReferences - 1 - s.ipDnrequests.requestsFor slots port }
  else s

/-- `ipc_right_check` on an entry that is not a dead name yet. -/
def checked (s : EntryPort) : EntryPort :=
  if s.entry.ieBits.type = .deadName then s else s.check.2

/-- **The states of an entry** without a receive right: a send right, a send-once right or a dead name,
with a dead-name request that is in the table of the port, if any. -/
structure Legal (slots port : ℕ) (s : EntryPort) : Prop where
  right : match s.entry.ieBits.type with
    | .send => s.entry.ieObject = .port port ∧ 0 < s.entry.ieBits.urefs ∧
        s.entry.ieBits.urefs < machPortUrefsMax
    | .sendOnce => s.entry.ieObject = .port port ∧ s.entry.ieBits.urefs = 1
    | .deadName => s.entry.ieObject = .null ∧ 0 < s.entry.ieBits.urefs ∧
        s.entry.ieBits.urefs ≤ machPortUrefsMax ∧ s.entry.ieRequest = 0
    | _ => False
  hashed : s.hashed = decide (s.entry.ieBits.type = .send)
  request : s.ipActive = true → s.entry.ieRequest ≠ 0 → s.entry.ieRequest < slots ∧
    (s.ipDnrequests.request s.entry.ieRequest).iprName ≠ machPortNull ∧
    (s.ipDnrequests.request s.entry.ieRequest).iprSoright ≠ none

end EntryPort

theorem countP_update {l : List ℕ} {f g : ℕ → Bool} {p : ℕ} (hl : l.Nodup) (hp : p ∈ l)
    (hfg : ∀ q, q ≠ p → f q = g q) :
    l.countP f + (g p).toNat = l.countP g + (f p).toNat := by
  have hperm := perm_cons_erase hp
  have hrest : (l.erase p).countP f = (l.erase p).countP g :=
    countP_congr fun q hq => by rw [hfg q (hl.mem_erase_iff.mp hq).1]
  rw [hperm.countP_eq, hperm.countP_eq, countP_cons, countP_cons, hrest]
  cases f p <;> cases g p <;> simp

theorem DnTable.requestsFor_cancel (table : DnTable) (slots index port : ℕ)
    (h : index ≠ 0 → index < slots ∧ (table.request index).iprName ≠ machPortNull) :
    table.requestsFor slots port = (table.cancel index).requestsFor slots port +
      if table.soright index = some port then 1 else 0 := by
  by_cases h0 : index = 0
  · rw [cancel, if_pos h0, soright, if_pos h0, if_neg (some_ne_none port).symm]
    rfl
  · obtain ⟨hlt, hname⟩ := h h0
    have hcount := countP_update (p := index) (nodup_range' (s := 1) (n := slots - 1))
      (mem_range'_1.mpr ⟨by omega, by omega⟩)
      (f := fun i => decide (((table.cancel index).request i).iprName ≠ machPortNull ∧
        ((table.cancel index).request i).iprSoright = some port))
      (g := fun i => decide ((table.request i).iprName ≠ machPortNull ∧
        (table.request i).iprSoright = some port))
      fun q hq => by rw [request_cancel (Or.inr hq)]
    have hself : (table.cancel index).request index = ⟨machPortNull, none, table.iprNext⟩ := by
      rw [cancel, if_neg h0]
      exact Function.update_self ..
    simp only [hself, ne_eq, not_true_eq_false, false_and, decide_false, Bool.toNat_false,
      add_zero] at hcount
    rw [requestsFor, requestsFor, soright, if_neg h0, ← hcount]
    by_cases hs : (table.request index).iprSoright = some port <;> simp [hs, hname]

namespace EntryPort

variable {slots port : ℕ} {s : EntryPort} {deadok : Bool} {d : SendDisposition} {r : Copied}

/-- The state after the undo, and the one it should be; a send-once right for the port itself that the
copyin returned is still in the hands of its caller. -/
def Commutes (slots port : ℕ) (s : EntryPort) (d : SendDisposition) (r : Copied) : Prop :=
  (r.state.die slots port).copyinUndo d r.object r.soright =
    (s.die slots port).checked.reference (if r.soright = some port then 1 else 0)

theorem die_setRight (type : MachPortType) (urefs : ℕ) (object : IpcObject) :
    (s.setRight type urefs object).die slots port = (s.die slots port).setRight type urefs object := by
  unfold die setRight
  split <;> rfl

@[simp] theorem die_entry (s : EntryPort) (slots port : ℕ) :
    (s.die slots port).entry = s.entry := by
  unfold die
  split <;> rfl

theorem reference_zero : s.reference 0 = s := by
  rw [reference, add_zero]

theorem setRight_self {type : MachPortType} {urefs : ℕ} (ht : s.entry.ieBits.type = type)
    (hu : s.entry.ieBits.urefs = urefs) (t : MachPortType) (u : ℕ) :
    (s.setRight t u s.entry.ieObject).setRight type urefs s.entry.ieObject = s := by
  subst ht hu
  rfl

theorem copyinUndo_deadName (ht : s.entry.ieBits.type = .deadName) :
    s.copyinUndo d .dead none = s.increment d := by
  simp [copyinUndo, ht]

theorem copyinUndo_none {soright : Option ℕ} (ht : s.entry.ieBits.type = .none) (object : IpcObject) :
    s.copyinUndo d object soright =
      (s.setRight .deadName (if soright = none then 1 else 2) s.entry.ieObject).reference
        (if object = .dead then 0 else -1) := by
  cases soright <;> by_cases ho : object = .dead <;> simp [copyinUndo, ht, ho, reference]

theorem copyinUndo_send (ht : s.entry.ieBits.type = .send) (p : ℕ) :
    s.copyinUndo d (.port p) none = (s.increment d).check.2.reference (-1) := by
  simp [copyinUndo, ht]

theorem undo_moveDead (ht : s.entry.ieBits.type = .deadName) (hpos : 0 < s.entry.ieBits.urefs)
    (hd : d ≠ .copySend) (hr : s.moveDead deadok = some r) :
    (r.state.die slots port).copyinUndo d r.object r.soright = s.die slots port ∧
      r.soright = none := by
  unfold moveDead at hr
  dsimp only at hr
  split_ifs at hr with hok hone
  · cases hr
    refine ⟨?_, rfl⟩
    dsimp only
    rw [die_setRight, copyinUndo_none rfl, if_pos rfl, if_pos rfl, reference_zero]
    rw [← die_entry s slots port] at ht hone ⊢
    exact setRight_self ht hone .none _
  · cases hr
    refine ⟨?_, rfl⟩
    dsimp only
    have hu : s.entry.ieBits.urefs = s.entry.ieBits.urefs - 1 + 1 := by omega
    have hleft : ((s.die slots port).setRight s.entry.ieBits.type (s.entry.ieBits.urefs - 1)
        s.entry.ieObject).entry.ieBits.type = .deadName := ht
    rw [die_setRight, copyinUndo_deadName hleft, increment, if_neg hd]
    rw [← die_entry s slots port] at ht hu ⊢
    exact setRight_self rfl hu _ _

theorem undo_copyDead (ht : s.entry.ieBits.type = .deadName) (hr : s.copyDead deadok = some r) :
    (r.state.die slots port).copyinUndo .copySend r.object r.soright = s.die slots port ∧
      r.soright = none := by
  unfold copyDead at hr
  split_ifs at hr
  cases hr
  exact ⟨(copyinUndo_deadName (by rw [die_entry]; exact ht)).trans (if_pos rfl), rfl⟩

theorem commutes_of_dead (s' : EntryPort) (deadok : Bool) (ht : s'.entry.ieBits.type = .deadName)
    (hpos : 0 < s'.entry.ieBits.urefs) (hs' : (s.die slots port).checked = s'.die slots port)
    (hr : if d = .copySend then s'.copyDead deadok = some r else s'.moveDead deadok = some r) :
    Commutes slots port s d r := by
  have hundo : (r.state.die slots port).copyinUndo d r.object r.soright = s'.die slots port ∧
      r.soright = none := by
    split_ifs at hr with hd
    · subst hd
      exact undo_copyDead ht hr
    · exact undo_moveDead ht hpos hd hr
  rw [Commutes, hundo.1, hundo.2, hs', if_neg (some_ne_none port).symm, reference_zero]

theorem commutes_of_inactive (hs : s.Legal slots port) (hdead : s.ipActive = false)
    (hr : s.copyin port deadok d = some r) : Commutes slots port s d r := by
  have hdie : ∀ t : EntryPort, t.ipActive = false → t.die slots port = t := fun t ht => by
    simp [die, ht]
  by_cases ht : s.entry.ieBits.type = .deadName
  · refine commutes_of_dead s deadok ht ?_ ?_ (d := d) ?_
    · have := hs.right
      rw [ht] at this
      exact this.2.1
    · simp [checked, ht]
    · cases d <;> simpa [copyin, begin, ht] using hr
  · refine commutes_of_dead s.check.2 deadok ?_ ?_ ?_ ?_
    · simp [check, hdead, IpcEntry.toDeadName]
    · have := hs.right
      cases hty : s.entry.ieBits.type <;> simp_all [check, IpcEntry.toDeadName]
    · rw [hdie s hdead, checked, if_neg ht, hdie _ (by simp [check, hdead])]
    · have := hs.right
      cases d <;> cases hty : s.entry.ieBits.type <;>
        simp_all [copyin, begin, check, MachPortType.hasSendRights]

theorem commutes_copySend (ha : s.ipActive = true) (ht : s.entry.ieBits.type = .send) :
    Commutes slots port s .copySend ⟨.port port, none, s.reference 1⟩ := by
  rw [Commutes, copyinUndo_send (by rw [die_entry]; exact ht), increment, if_pos rfl,
    if_neg (some_ne_none port).symm, reference_zero, checked,
    if_neg (by rw [die_entry, ht]; exact nofun)]
  simp only [die, reference, ha, check, if_true, Bool.false_eq_true, if_false]
  congr 1
  ring

theorem commutes_moveSend (ha : s.ipActive = true) (ht : s.entry.ieBits.type = .send)
    (hpos : 0 < s.entry.ieBits.urefs) :
    Commutes slots port s .moveSend ⟨.port port, none,
      (s.setRight .send (s.entry.ieBits.urefs - 1) s.entry.ieObject).reference 1⟩ := by
  have hu : s.entry.ieBits.urefs - 1 + 1 = s.entry.ieBits.urefs := by omega
  rw [Commutes, copyinUndo_send (by rw [die_entry]; rfl), increment, if_neg nofun,
    if_neg (some_ne_none port).symm, reference_zero, checked,
    if_neg (by rw [die_entry, ht]; exact nofun)]
  simp only [die, reference, setRight, ha, check, IpcEntry.toDeadName, ht, hu, if_true,
    Bool.false_eq_true, if_false]
  congr 1
  ring

theorem commutes_last (hs : s.Legal slots port) (ha : s.ipActive = true)
    (ht : s.entry.ieBits.type = .send ∨ s.entry.ieBits.type = .sendOnce)
    (hone : s.entry.ieBits.urefs = 1) (urefs : ℕ) :
    Commutes slots port s d ⟨.port port, s.dncancel.1,
      { s.dncancel.2.setRight .none urefs .null with hashed := false }⟩ := by
  have hcount := s.ipDnrequests.requestsFor_cancel slots s.entry.ieRequest port
    fun h => ⟨(hs.request ha h).1, (hs.request ha h).2.1⟩
  have hhashed : (if s.entry.ieBits.type.hasSend then false else s.hashed) = false := by
    rcases ht with ht | ht <;> simp [ht, hs.hashed, MachPortType.hasSend]
  have hnot : s.entry.ieBits.type ≠ .deadName := by
    rcases ht with ht | ht <;> simp [ht]
  have hurefs : (if s.dncancel.1 = none then 1 else 2) = 1 + if s.entry.ieRequest = 0 then 0 else 1 := by
    by_cases h0 : s.entry.ieRequest = 0
    · simp [dncancel, DnTable.soright, h0]
    · simp [dncancel, DnTable.soright, h0, (hs.request ha h0).2.2]
  have hnot' : (s.die slots port).entry.ieBits.type ≠ .deadName := by rwa [die_entry]
  rw [Commutes, copyinUndo_none (by rw [die_entry]; rfl), hurefs, checked, if_neg hnot']
  simp only [die, reference, setRight, ha, check, IpcEntry.toDeadName, dncancel, if_true,
    Bool.false_eq_true, reduceCtorEq, if_false, hone, hhashed]
  congr 1
  rw [hcount]
  push_cast
  ring

theorem commutes_of_active (hs : s.Legal slots port) (ha : s.ipActive = true)
    (hr : s.copyin port deadok d = some r) : Commutes slots port s d r := by
  have hright := hs.right
  have hcheck : s.check = (false, s) := if_pos ha
  cases ht : s.entry.ieBits.type <;> rw [ht] at hright <;> try exact hright.elim
  case send =>
    cases d with
    | copySend =>
      simp only [copyin, begin, ht, hcheck, MachPortType.hasSendRights, MachPortType.hasSend, reduceCtorEq,
        if_false, some.injEq] at hr
      subst hr
      exact commutes_copySend ha ht
    | moveSend =>
      simp only [copyin, begin, ht, hcheck, MachPortType.hasSendRights, MachPortType.hasSend,
        MachPortType.hasReceive, MachPortType.clearSend, reduceCtorEq, if_false,
        Bool.false_eq_true] at hr
      split_ifs at hr with hone
      · cases hr
        exact commutes_last hs ha (Or.inl ht) hone 0
      · cases hr
        exact commutes_moveSend ha ht hright.2.1
    | moveSendOnce => simp [copyin, begin, ht, hcheck, MachPortType.hasSendRights] at hr
  case sendOnce =>
    cases d with
    | copySend | moveSend =>
      simp [copyin, begin, ht, hcheck, MachPortType.hasSendRights, MachPortType.hasSend] at hr
    | moveSendOnce =>
      simp only [copyin, begin, ht, hcheck, MachPortType.hasSendRights, reduceCtorEq, if_false, ne_eq,
        not_true_eq_false, some.injEq] at hr
      subst hr
      have hlast := commutes_last (d := .moveSendOnce) hs ha (Or.inr ht) hright.2 s.entry.ieBits.urefs
      have hhashed : s.hashed = false := by rw [hs.hashed, ht]; rfl
      have heq : { s.dncancel.2.setRight .none s.entry.ieBits.urefs .null with hashed := false } =
          s.dncancel.2.setRight .none s.entry.ieBits.urefs .null := by
        rw [← hhashed]
        rfl
      rwa [heq] at hlast
  case deadName =>
    refine commutes_of_dead s deadok ht hright.2.1 ?_ ?_
    · rw [checked, if_pos (by rw [die_entry]; exact ht)]
    · cases d <;> simpa [copyin, begin, ht] using hr

/-- **Copyin, death and undo** leave the entry, its place in the reverse hash table and the references to
the port as death and check do, for every entry and every copyin that succeeds. -/
theorem undo_commutes (slots port : ℕ) (s : EntryPort) (hs : s.Legal slots port) (d : SendDisposition)
    (deadok : Bool) (r : Copied) (hr : s.copyin port deadok d = some r) :
    (r.state.die slots port).copyinUndo d r.object r.soright =
      (s.die slots port).checked.reference (if r.soright = some port then 1 else 0) := by
  cases ha : s.ipActive with
  | true => exact commutes_of_active hs ha hr
  | false => exact commutes_of_inactive hs ha hr

/-- A send right for port 7 with one user reference and a dead-name request, whose notification goes to
`notify`. -/
def oneSendRight (notify : ℕ) : EntryPort where
  entry := ⟨⟨0, false, .send, 1⟩, .port 7, 1⟩
  hashed := true
  ipActive := true
  ipDnrequests := ⟨some 0, 0, fun _ => ⟨1, some notify, 0⟩⟩
  ipReferences := 3

theorem oneSendRight_legal (notify : ℕ) : (oneSendRight notify).Legal 2 7 :=
  ⟨⟨rfl, Nat.one_pos, (by decide : 1 < machPortUrefsMax)⟩, rfl,
    fun _ _ => ⟨Nat.one_lt_two, Nat.one_ne_zero, nofun⟩⟩

theorem undo_commutes_oneSendRight : ∃ r, (oneSendRight 9).copyin 7 true .moveSend = some r ∧
      (r.state.die 2 7).copyinUndo .moveSend r.object r.soright =
        ((oneSendRight 9).die 2 7).checked.reference (if r.soright = some 7 then 1 else 0) :=
  ⟨_, rfl, undo_commutes 2 7 (oneSendRight 9) (oneSendRight_legal 9) .moveSend true _ rfl⟩

/-- **A request whose notification goes to the port itself**: the copyin has taken it out of the table,
so the death does not release its reference. -/
theorem own_request_kept : ((oneSendRight 7).copyin 7 true .moveSend).map (fun r =>
        ((r.state.die 2 7).copyinUndo .moveSend r.object r.soright).ipReferences) = some 1 ∧
      ((oneSendRight 7).die 2 7).checked.ipReferences = 0 := by
  decide

end EntryPort

end Osfmk

import Osfmk.Lib.Census
import Osfmk.Lib.Trace

/-!
# The order of the requests to the default pager

Several threads of the default pager serve the messages that the kernel sends to one memory object
(`dp_memory_object.c`, with `PARALLEL`).  Each message has a sequence number, and a handler gets past
`vs_lock` only when it is its turn.  Reads wait for the writes before them, `memory_object_terminate`
waits for reads and writes, and the no-senders notification waits for asynchronous writes only: it
relies on the null control port.
-/

open Osfmk.Trace (of_guard)

namespace Osfmk.Pager

/-- The messages to a memory object. -/
inductive Msg
  | init (controlPort : Option ℕ)
  | synchronize
  | dataRequest
  | dataReturn
  | dataInitialize
  | terminate
  | noSenders
  deriving DecidableEq

/-- `memory_object_data_return` and `memory_object_data_initialize`. -/
def Msg.isWrite : Msg → Bool
  | .dataReturn | .dataInitialize => true
  | _ => false

/-- The messages that move data. -/
def Msg.isData : Msg → Bool
  | .dataRequest | .dataReturn | .dataInitialize => true
  | _ => false

/-- Where the handler of a message is. -/
inductive Pc
  | queued
  | seqno
  /-- In `vs_check_request`, with the pager unlocked for the call of the kernel. -/
  | checkRequest
  | readers
  | writers
  | async
  | refs
  | reading
  | writing
  | done
  deriving DecidableEq

/-- `struct vstruct`, as far as the handlers use it, and the handlers of `N` messages. -/
structure Vstruct (N : ℕ) where
  vsSeqno : ℕ
  vsReaders : ℤ
  vsWriters : ℤ
  vsAsyncPending : ℤ
  vsControlPort : Option ℕ
  vsControlRefs : ℕ
  vsNameRefs : ℕ
  freed : Bool
  pc : Fin N → Pc
  /-- The `vs_async` structures of the writes that have not completed: the message that asked for the
  write, and `vsa_size`. -/
  asyncs : List (Fin N × ℕ)

def defaultPagerMaxUrefs : ℕ := 10000

namespace Vstruct

variable {N : ℕ}

/-- The handler of a message gets to a place. -/
def goto (s : Vstruct N) (n : Fin N) (p : Pc) : Vstruct N :=
  { s with pc := Function.update s.pc n p }

def vsUnlock (s : Vstruct N) : Vstruct N := { s with vsSeqno := s.vsSeqno + 1 }

def vsStartRead (s : Vstruct N) : Vstruct N := { s with vsReaders := s.vsReaders + 1 }

def vsStartWrite (s : Vstruct N) : Vstruct N := { s with vsWriters := s.vsWriters + 1 }

def vsFinishRead (s : Vstruct N) : Vstruct N := { s with vsReaders := s.vsReaders - 1 }

def vsFinishWrite (s : Vstruct N) : Vstruct N := { s with vsWriters := s.vsWriters - 1 }

/-- The data request from `vs_async_wait` on. -/
def requestAsync (s : Vstruct N) (n : Fin N) : Vstruct N :=
  if s.vsAsyncPending > 0 then s.goto n .async else (s.vsStartRead.goto n .reading).vsUnlock

/-- The data request from `vs_wait_for_writers` on. -/
def requestWriters (s : Vstruct N) (n : Fin N) : Vstruct N :=
  if s.vsWriters ≠ 0 then s.goto n .writers else s.requestAsync n

/-- What is left of a handler after `vs_check_request`. -/
def checked (s : Vstruct N) (n : Fin N) (msg : Msg) : Vstruct N :=
  match msg with
  | .dataRequest => s.requestWriters n
  | .dataReturn | .dataInitialize => (s.vsStartWrite.goto n .writing).vsUnlock
  | _ => (s.goto n .done).vsUnlock

/-- `vs_check_request`, and what is left after it if it need not call the kernel. -/
def vsCheckRequest (s : Vstruct N) (n : Fin N) (msg : Msg) : Vstruct N :=
  if s.vsControlRefs + 1 > defaultPagerMaxUrefs then { s with vsControlRefs := 1 }.goto n .checkRequest
  else { s with vsControlRefs := s.vsControlRefs + 1 }.checked n msg

/-- `memory_object_terminate` from `vs_wait_for_refs` on. -/
def terminateRefs (s : Vstruct N) (n : Fin N) : Vstruct N :=
  if s.vsNameRefs = 0 then s.goto n .refs
  else ({ s with vsControlPort := none, vsControlRefs := 0, vsNameRefs := 0 }.goto n .done).vsUnlock

/-- `memory_object_terminate` from `vs_async_wait` on. -/
def terminateAsync (s : Vstruct N) (n : Fin N) : Vstruct N :=
  if s.vsAsyncPending > 0 then s.goto n .async else s.terminateRefs n

/-- `memory_object_terminate` from `vs_wait_for_writers` on. -/
def terminateWriters (s : Vstruct N) (n : Fin N) : Vstruct N :=
  if s.vsWriters ≠ 0 then s.goto n .writers else s.terminateAsync n

/-- `memory_object_terminate` from `vs_wait_for_readers` on. -/
def terminateReaders (s : Vstruct N) (n : Fin N) : Vstruct N :=
  if s.vsReaders ≠ 0 then s.goto n .readers else s.terminateWriters n

/-- `default_pager_no_senders` from `vs_async_wait` on; `none` stands for its panic. -/
def noSendersAsync (s : Vstruct N) (n : Fin N) : Option (Vstruct N) :=
  if s.vsAsyncPending > 0 then some (s.goto n .async)
  else if s.vsControlPort ≠ none then none
  else some ({ s with freed := true }.goto n .done)

/-- `memory_object_init` after `vs_lock`; `none` stands for its panic. -/
def initLocked (s : Vstruct N) (n : Fin N) (controlPort : Option ℕ) : Option (Vstruct N) :=
  if s.vsControlPort ≠ none then none
  else some ({ s with vsControlPort := controlPort, vsControlRefs := 1, vsNameRefs := 1 }.goto n
    .done).vsUnlock

/-- A handler after `vs_lock`. -/
def locked (s : Vstruct N) (n : Fin N) (msg : Msg) : Option (Vstruct N) :=
  match msg with
  | .init controlPort => s.initLocked n controlPort
  | .terminate => some (s.terminateReaders n)
  | .noSenders => s.noSendersAsync n
  | _ => some (s.vsCheckRequest n msg)

end Vstruct

/-- A thread receives a message; a handler goes on; a write of the message `n` is handed to the
device, and the device has done one. -/
inductive Act (N : ℕ)
  | receive (n : Fin N)
  | proceed (n : Fin N)
  | asyncWrite (n : Fin N) (size : ℕ)
  | writeComplete (n : Fin N) (size : ℕ)

section

variable {N : ℕ} (msgs : Fin N → Msg)

/-- A handler goes on. -/
def proceed (s : Vstruct N) (n : Fin N) : Option (Vstruct N) :=
  match s.pc n with
  | .queued | .done => none
  | .seqno => if s.vsSeqno = n then s.locked n (msgs n) else none
  | .checkRequest => some (s.checked n (msgs n))
  | .readers => some (s.terminateReaders n)
  | .writers => some (if msgs n = .terminate then s.terminateWriters n else s.requestWriters n)
  | .async =>
    if msgs n = .noSenders then s.noSendersAsync n
    else some (if msgs n = .terminate then s.terminateAsync n else s.requestAsync n)
  | .refs => some (s.terminateRefs n)
  | .reading => some (s.vsFinishRead.goto n .done)
  | .writing => some (s.vsFinishWrite.goto n .done)

/-- One step. -/
def step (s : Vstruct N) : Act N → Option (Vstruct N)
  | .receive n => if s.pc n = .queued then some (s.goto n .seqno) else none
  | .proceed n => proceed msgs s n
  | .asyncWrite n size =>
    if s.pc n = .writing ∧ 0 < size then
      some { s with
        vsAsyncPending := s.vsAsyncPending + size
        asyncs := (n, size) :: s.asyncs }
    else none
  | .writeComplete n size =>
    if (n, size) ∈ s.asyncs then
      some { s with
        vsAsyncPending := s.vsAsyncPending - size
        asyncs := s.asyncs.erase (n, size) }
    else none

end

variable {N : ℕ} {msgs : Fin N → Msg} {s s' : Vstruct N} {n m : Fin N} {a : Act N}

/-- A message past its turn. -/
def Pc.isPast : Pc → Bool
  | .reading | .writing | .done => true
  | _ => false

/-- A message before its turn. -/
def Pc.isFuture : Pc → Bool
  | .queued | .seqno => true
  | _ => false

/-- Nobody reads or writes, and no write is pending. -/
structure Idle (s : Vstruct N) : Prop where
  reading : ∀ n, s.pc n ≠ .reading
  writing : ∀ n, s.pc n ≠ .writing
  asyncs : s.asyncs = []

/-- What the handler of the message whose turn it is has seen. -/
def Seen (s : Vstruct N) (msg : Msg) : Pc → Prop
  | .queued | .seqno | .done => True
  | .checkRequest => msg ≠ .terminate ∧ msg ≠ .noSenders
  | .readers => msg = .terminate
  | .writers => msg = .dataRequest ∨ msg = .terminate ∧ s.vsReaders = 0
  | .async => msg = .noSenders ∨ msg = .dataRequest ∧ s.vsWriters = 0 ∨
      msg = .terminate ∧ s.vsReaders = 0 ∧ s.vsWriters = 0
  | .refs => msg = .terminate ∧ s.vsReaders = 0 ∧ s.vsWriters = 0 ∧ s.vsAsyncPending = 0
  | .reading | .writing => False

/-- Reads and writes in progress are those of the right messages. -/
def InProgress (msg : Msg) : Pc → Prop
  | .reading => msg = .dataRequest
  | .writing => msg.isWrite = true
  | _ => True

/-- The counts are those of the handlers, and the handlers are where the sequence number lets them
be. -/
structure Inv (msgs : Fin N → Msg) (s : Vstruct N) : Prop where
  readers : s.vsReaders = Census.tally fun n => decide (s.pc n = .reading)
  writers : s.vsWriters = Census.tally fun n => decide (s.pc n = .writing)
  pending : s.vsAsyncPending = ((s.asyncs.map (·.2)).sum : ℕ)
  sizes : ∀ v ∈ s.asyncs, 0 < v.2
  past : ∀ n : Fin N, n < s.vsSeqno → (s.pc n).isPast = true
  future : ∀ n : Fin N, s.vsSeqno < n → (s.pc n).isFuture = true
  turn : ∀ n : Fin N, s.vsSeqno = n → Seen s (msgs n) (s.pc n)
  kind : ∀ n, InProgress (msgs n) (s.pc n)

variable {msg : Msg} {p : Pc}

theorem Msg.isData_of_isWrite (h : msg.isWrite = true) : msg.isData = true := by
  cases msg <;> first | rfl | cases h

/-- A place where a handler waits in its turn. -/
def Pc.isWait (p : Pc) : Bool := !p.isPast && !p.isFuture

/-- What a handler can do in its turn. -/
inductive Turn (msg : Msg) (s : Vstruct N) (n : Fin N) : Vstruct N → Prop
  | wait (r : ℕ) {p : Pc} (hp : p.isWait = true) (hseen : Seen s msg p) :
      Turn msg s n ({ s with vsControlRefs := r }.goto n p)
  | read (r : ℕ) (hmsg : msg = .dataRequest) (hw : s.vsWriters = 0) (ha : ¬ s.vsAsyncPending > 0) :
      Turn msg s n (({ s with vsControlRefs := r }.vsStartRead.goto n .reading).vsUnlock)
  | write (r : ℕ) (hmsg : msg.isWrite = true) :
      Turn msg s n (({ s with vsControlRefs := r }.vsStartWrite.goto n .writing).vsUnlock)
  | finish (c : Option ℕ) (r k : ℕ) (hmsg : msg.isData = false)
      (hidle : msg = .terminate → s.vsReaders = 0 ∧ s.vsWriters = 0 ∧ ¬ s.vsAsyncPending > 0)
      (hc : c = none → msg = .terminate ∨ s.vsControlPort = none) :
      Turn msg s n (({ s with vsControlPort := c, vsControlRefs := r, vsNameRefs := k }.goto n
        .done).vsUnlock)
  | free (hmsg : msg = .noSenders) (hc : s.vsControlPort = none) (ha : ¬ s.vsAsyncPending > 0) :
      Turn msg s n ({ s with freed := true }.goto n .done)

theorem turn_requestAsync (r : ℕ) (hw : s.vsWriters = 0) :
    Turn .dataRequest s n ({ s with vsControlRefs := r }.requestAsync n) := by
  unfold Vstruct.requestAsync
  split
  · exact .wait r rfl (.inr (.inl ⟨rfl, hw⟩))
  · next ha => exact .read r rfl hw ha

theorem turn_requestWriters (r : ℕ) :
    Turn .dataRequest s n ({ s with vsControlRefs := r }.requestWriters n) := by
  unfold Vstruct.requestWriters
  split
  · exact .wait r rfl (.inl rfl)
  · next hw => exact turn_requestAsync r (not_not.mp hw)

theorem turn_checked (r : ℕ) (hmsg : msg ≠ .terminate) :
    Turn msg s n ({ s with vsControlRefs := r }.checked n msg) := by
  cases msg with
  | dataRequest => exact turn_requestWriters r
  | dataReturn | dataInitialize => exact .write r rfl
  | terminate => exact absurd rfl hmsg
  | synchronize | noSenders | init =>
    exact .finish s.vsControlPort r s.vsNameRefs rfl nofun .inr

theorem turn_vsCheckRequest (hmsg : msg ≠ .terminate ∧ msg ≠ .noSenders) :
    Turn msg s n (s.vsCheckRequest n msg) := by
  unfold Vstruct.vsCheckRequest
  split
  · exact .wait 1 rfl hmsg
  · exact turn_checked _ hmsg.1

theorem turn_terminateRefs (hr : s.vsReaders = 0) (hw : s.vsWriters = 0)
    (ha : ¬ s.vsAsyncPending > 0) (hpos : 0 ≤ s.vsAsyncPending) :
    Turn .terminate s n (s.terminateRefs n) := by
  unfold Vstruct.terminateRefs
  split
  · exact .wait s.vsControlRefs rfl ⟨rfl, hr, hw, by omega⟩
  · exact .finish none 0 0 rfl (fun _ => ⟨hr, hw, ha⟩) fun _ => .inl rfl

theorem turn_terminateAsync (hr : s.vsReaders = 0) (hw : s.vsWriters = 0)
    (hpos : 0 ≤ s.vsAsyncPending) : Turn .terminate s n (s.terminateAsync n) := by
  unfold Vstruct.terminateAsync
  split
  · exact .wait s.vsControlRefs rfl (.inr (.inr ⟨rfl, hr, hw⟩))
  · next ha => exact turn_terminateRefs hr hw ha hpos

theorem turn_terminateWriters (hr : s.vsReaders = 0) (hpos : 0 ≤ s.vsAsyncPending) :
    Turn .terminate s n (s.terminateWriters n) := by
  unfold Vstruct.terminateWriters
  split
  · exact .wait s.vsControlRefs rfl (.inr ⟨rfl, hr⟩)
  · next hw => exact turn_terminateAsync hr (not_not.mp hw) hpos

theorem turn_terminateReaders (hpos : 0 ≤ s.vsAsyncPending) :
    Turn .terminate s n (s.terminateReaders n) := by
  unfold Vstruct.terminateReaders
  split
  · exact .wait s.vsControlRefs rfl rfl
  · next hr => exact turn_terminateWriters (not_not.mp hr) hpos

theorem turn_noSendersAsync (hs : s.noSendersAsync n = some s') : Turn .noSenders s n s' := by
  unfold Vstruct.noSendersAsync at hs
  split at hs
  · cases hs
    exact .wait s.vsControlRefs rfl (.inl rfl)
  next ha =>
  split at hs
  · cases hs
  · next hc =>
    cases hs
    exact .free rfl (not_not.mp hc) ha

theorem turn_locked (hpos : 0 ≤ s.vsAsyncPending) (hs : s.locked n msg = some s') :
    Turn msg s n s' := by
  cases msg with
  | init controlPort =>
    simp only [Vstruct.locked, Vstruct.initLocked] at hs
    split at hs
    · cases hs
    · next hc =>
      cases hs
      exact .finish controlPort 1 1 rfl nofun fun _ => .inr (not_not.mp hc)
  | terminate =>
    cases hs
    exact turn_terminateReaders hpos
  | noSenders => exact turn_noSendersAsync hs
  | synchronize | dataRequest | dataReturn | dataInitialize =>
    cases hs
    exact turn_vsCheckRequest ⟨by decide, by decide⟩

/-- **What a handler does**: its turn, or the end of a read or a write. -/
theorem Inv.proceed_cases (h : Inv msgs s) (hs : proceed msgs s n = some s') :
    s.vsSeqno = n ∧ (s.pc n).isPast = false ∧ Turn (msgs n) s n s' ∨
      s.pc n = .reading ∧ s' = s.vsFinishRead.goto n .done ∨
      s.pc n = .writing ∧ s' = s.vsFinishWrite.goto n .done := by
  have hpos : 0 ≤ s.vsAsyncPending := by
    rw [h.pending]
    exact Int.natCast_nonneg _
  -- a handler that waits does so in its turn
  have hturn : (s.pc n).isWait = true → s.vsSeqno = n ∧ Seen s (msgs n) (s.pc n) := by
    intro hw
    have heq : s.vsSeqno = n := by
      rcases lt_trichotomy s.vsSeqno n with hlt | heq | hgt
      · have hf := h.future n hlt
        simp [Pc.isWait, hf] at hw
      · exact heq
      · have hp := h.past n hgt
        simp [Pc.isWait, hp] at hw
    exact ⟨heq, h.turn n heq⟩
  unfold proceed at hs
  cases hpc : s.pc n <;> rw [hpc] at hs hturn
  case queued | done => cases hs
  case seqno =>
    dsimp only at hs
    split at hs
    · next heq => exact .inl ⟨heq, rfl, turn_locked hpos hs⟩
    · cases hs
  case checkRequest =>
    obtain ⟨heq, hseen⟩ := hturn rfl
    cases hs
    exact .inl ⟨heq, rfl, turn_checked s.vsControlRefs hseen.1⟩
  case readers =>
    obtain ⟨heq, hseen⟩ := hturn rfl
    cases hs
    have hmsg : msgs n = .terminate := hseen
    rw [hmsg]
    exact .inl ⟨heq, rfl, turn_terminateReaders hpos⟩
  case writers =>
    obtain ⟨heq, hseen⟩ := hturn rfl
    cases hs
    refine .inl ⟨heq, rfl, ?_⟩
    rcases hseen with hmsg | ⟨hmsg, hr⟩
    · rw [hmsg]
      exact turn_requestWriters s.vsControlRefs
    · rw [hmsg]
      exact turn_terminateWriters hr hpos
  case async =>
    obtain ⟨heq, hseen⟩ := hturn rfl
    refine .inl ⟨heq, rfl, ?_⟩
    rcases hseen with hmsg | ⟨hmsg, hw⟩ | ⟨hmsg, hr, hw⟩
    · rw [hmsg] at hs ⊢
      exact turn_noSendersAsync hs
    · rw [hmsg] at hs ⊢
      cases hs
      exact turn_requestAsync s.vsControlRefs hw
    · rw [hmsg] at hs ⊢
      cases hs
      exact turn_terminateAsync hr hw hpos
  case refs =>
    obtain ⟨heq, hmsg, hr, hw, ha⟩ := hturn rfl
    cases hs
    rw [hmsg]
    exact .inl ⟨heq, rfl, turn_terminateRefs hr hw (by omega) hpos⟩
  case reading =>
    cases hs
    exact .inr (.inl ⟨rfl, rfl⟩)
  case writing =>
    cases hs
    exact .inr (.inr ⟨rfl, rfl⟩)

@[simp] theorem goto_pc (s : Vstruct N) (n : Fin N) (p : Pc) : (s.goto n p).pc n = p :=
  Function.update_self ..

theorem goto_pc_of_ne (s : Vstruct N) {n m : Fin N} (p : Pc) (h : m ≠ n) :
    (s.goto n p).pc m = s.pc m := Function.update_of_ne h ..

theorem tally_goto (s : Vstruct N) (n : Fin N) (p q : Pc) :
    Census.tally (fun m => decide ((s.goto n p).pc m = q)) =
      Census.tally (fun m => decide (s.pc m = q)) - Census.ind (decide (s.pc n = q)) +
        Census.ind (decide (p = q)) := by
  refine (Census.tally_change (m := n) (k := fun m => decide (s.pc m = q)) fun m hm => ?_).trans ?_
  · rw [goto_pc_of_ne s p hm]
  · rw [goto_pc]

theorem seen_of_isFuture (h : p.isFuture = true) : Seen s msg p := by
  cases p <;> trivial

theorem Seen.mono (h : Seen s msg p) (hr : s.vsReaders = 0 → s'.vsReaders = 0)
    (hw : s.vsWriters = 0 → s'.vsWriters = 0)
    (ha : s.vsWriters = 0 → s.vsAsyncPending = 0 → s'.vsAsyncPending = 0) : Seen s' msg p := by
  cases p with
  | queued | seqno | done | checkRequest | readers => exact h
  | reading | writing => exact h
  | writers => exact h.imp_right fun h => ⟨h.1, hr h.2⟩
  | async =>
    exact h.imp_right fun h => h.imp (fun h => ⟨h.1, hw h.2⟩) fun h => ⟨h.1, hr h.2.1, hw h.2.2⟩
  | refs => exact ⟨h.1, hr h.2.1, hw h.2.2.1, ha h.2.2.1 h.2.2.2⟩

section

variable (h : Inv msgs s)
include h

theorem Inv.pc_ne_reading (hr : s.vsReaders = 0) (n : Fin N) :
    s.pc n ≠ .reading := fun hp => by
  have hf := Census.eq_false_of_tally (h.readers.symm.trans hr) n
  rw [hp] at hf
  cases hf

theorem Inv.pc_ne_writing (hw : s.vsWriters = 0) (n : Fin N) :
    s.pc n ≠ .writing := fun hp => by
  have hf := Census.eq_false_of_tally (h.writers.symm.trans hw) n
  rw [hp] at hf
  cases hf

theorem Inv.asyncs_eq_nil (ha : ¬ s.vsAsyncPending > 0) : s.asyncs = [] := by
  have hp := h.pending
  have hsize := h.sizes
  cases hl : s.asyncs with
  | nil => rfl
  | cons v l =>
    rw [hl] at hp hsize
    have hv := hsize v List.mem_cons_self
    rw [List.map_cons, List.sum_cons] at hp
    omega

theorem Inv.idle
    (hz : s.vsReaders = 0 ∧ s.vsWriters = 0 ∧ ¬ s.vsAsyncPending > 0) : Idle s :=
  ⟨h.pc_ne_reading hz.1, h.pc_ne_writing hz.2.1, h.asyncs_eq_nil hz.2.2⟩

theorem Inv.goto (hn : s.vsSeqno = n) (p : Pc) (hpast : (s.pc n).isPast = false)
    (s1 : Vstruct N) (hpc : s1.pc = s.pc) (has : s1.asyncs = s.asyncs)
    (hpend : s1.vsAsyncPending = s.vsAsyncPending)
    (hr : s1.vsReaders = s.vsReaders + Census.ind (decide (p = .reading)))
    (hw : s1.vsWriters = s.vsWriters + Census.ind (decide (p = .writing)))
    (hseq : s1.vsSeqno = s.vsSeqno ∧ Seen s1 (msgs n) p ∨
      s1.vsSeqno = s.vsSeqno + 1 ∧ p.isPast = true)
    (hkind : InProgress (msgs n) p) : Inv msgs (s1.goto n p) where
  readers := by
    have hold : decide (s.pc n = .reading) = false := decide_eq_false fun he => by
      rw [he] at hpast
      cases hpast
    have ht := tally_goto s1 n p .reading
    rw [hpc, hold, ← h.readers] at ht
    exact hr.trans (by rw [ht]; simp)
  writers := by
    have hold : decide (s.pc n = .writing) = false := decide_eq_false fun he => by
      rw [he] at hpast
      cases hpast
    have ht := tally_goto s1 n p .writing
    rw [hpc, hold, ← h.writers] at ht
    exact hw.trans (by rw [ht]; simp)
  pending := by
    show s1.vsAsyncPending = ((s1.asyncs.map (·.2)).sum : ℕ)
    rw [has, hpend]
    exact h.pending
  sizes := by
    show ∀ v ∈ s1.asyncs, 0 < v.2
    rw [has]
    exact h.sizes
  past m hm := by
    have hm' : (m : ℕ) < s1.vsSeqno := hm
    by_cases he : m = n
    · rw [he, goto_pc]
      rcases hseq with ⟨hs, -⟩ | ⟨-, hp⟩
      · rw [he, hs, hn] at hm'
        exact absurd hm' (lt_irrefl _)
      · exact hp
    rw [goto_pc_of_ne _ _ he, hpc]
    refine h.past m ?_
    have hne : (m : ℕ) ≠ n := fun hv => he (Fin.ext hv)
    rcases hseq with ⟨hs, -⟩ | ⟨hs, -⟩ <;> omega
  future m hm := by
    have hm' : s1.vsSeqno < m := hm
    have hlt : s.vsSeqno < m := by
      rcases hseq with ⟨hs, -⟩ | ⟨hs, -⟩ <;> omega
    rw [goto_pc_of_ne _ _ (fun he => by rw [he] at hlt; omega), hpc]
    exact h.future m hlt
  turn m hm := by
    have hm' : s1.vsSeqno = m := hm
    rcases hseq with ⟨hs, hseen⟩ | ⟨hs, -⟩
    · have he : m = n := Fin.ext (by omega)
      rw [he, goto_pc]
      exact hseen.mono id id fun _ => id
    · have hlt : s.vsSeqno < m := by omega
      rw [goto_pc_of_ne _ _ (fun he => by rw [he] at hlt; omega), hpc]
      exact seen_of_isFuture (h.future m hlt)
  kind m := by
    by_cases he : m = n
    · rw [he, goto_pc]
      exact hkind
    · rw [goto_pc_of_ne _ _ he, hpc]
      exact h.kind m

theorem Inv.turn_step (hn : s.vsSeqno = n) (hpast : (s.pc n).isPast = false)
    (ht : Turn (msgs n) s n s') : Inv msgs s' := by
  cases ht with
  | @wait r p hp hseen =>
    have hind : ∀ q, q.isPast = true → Census.ind (decide (p = q)) = 0 := by
      rintro q hq
      rw [decide_eq_false]
      · rfl
      · rintro rfl
        simp [Pc.isWait, hq] at hp
    refine h.goto hn p hpast _ rfl rfl rfl ?_ ?_ (.inl ⟨rfl, hseen.mono id id fun _ => id⟩) ?_
    · rw [hind _ rfl, add_zero]
    · rw [hind _ rfl, add_zero]
    · cases p <;> trivial
  | read r hmsg =>
    exact h.goto hn .reading hpast { s with vsControlRefs := r }.vsStartRead.vsUnlock
      rfl rfl rfl rfl (add_zero _).symm (.inr ⟨rfl, rfl⟩) hmsg
  | write r hmsg =>
    exact h.goto hn .writing hpast { s with vsControlRefs := r }.vsStartWrite.vsUnlock
      rfl rfl rfl (add_zero _).symm rfl (.inr ⟨rfl, rfl⟩) hmsg
  | finish c r k =>
    exact h.goto hn .done hpast
      { s with vsControlPort := c, vsControlRefs := r, vsNameRefs := k }.vsUnlock
      rfl rfl rfl (add_zero _).symm (add_zero _).symm (.inr ⟨rfl, rfl⟩) trivial
  | free =>
    exact h.goto hn .done hpast _ rfl rfl rfl (add_zero _).symm (add_zero _).symm (.inl ⟨rfl, trivial⟩)
      trivial

theorem Inv.lt_of_isPast (hp : s.pc n = .reading ∨ s.pc n = .writing) :
    n < s.vsSeqno := by
  rcases lt_trichotomy s.vsSeqno n with hlt | heq | hgt
  · have hf := h.future n hlt
    rcases hp with hp | hp <;> rw [hp] at hf <;> cases hf
  · have hf := h.turn n heq
    rcases hp with hp | hp <;> rw [hp] at hf <;> cases hf
  · exact hgt

theorem Inv.retire (hp : s.pc n = .reading ∨ s.pc n = .writing) {s1 : Vstruct N}
    (hpc : s1.pc = s.pc) (has : s1.asyncs = s.asyncs) (hpend : s1.vsAsyncPending = s.vsAsyncPending)
    (hseq : s1.vsSeqno = s.vsSeqno)
    (hr : s1.vsReaders = s.vsReaders - Census.ind (decide (s.pc n = .reading)))
    (hw : s1.vsWriters = s.vsWriters - Census.ind (decide (s.pc n = .writing))) :
    Inv msgs (s1.goto n .done) where
  readers := by
    have ht := tally_goto s1 n .done .reading
    rw [hpc, ← h.readers] at ht
    exact hr.trans (by rw [ht]; exact (add_zero _).symm)
  writers := by
    have ht := tally_goto s1 n .done .writing
    rw [hpc, ← h.writers] at ht
    exact hw.trans (by rw [ht]; exact (add_zero _).symm)
  pending := by
    show s1.vsAsyncPending = ((s1.asyncs.map (·.2)).sum : ℕ)
    rw [has, hpend]
    exact h.pending
  sizes := by
    show ∀ v ∈ s1.asyncs, 0 < v.2
    rw [has]
    exact h.sizes
  past m hm := by
    by_cases he : m = n
    · rw [he, goto_pc]
      rfl
    · rw [goto_pc_of_ne _ _ he, hpc]
      exact h.past m (hseq ▸ hm)
  future m hm := by
    have hm' : s.vsSeqno < m := hseq ▸ hm
    have hlt := h.lt_of_isPast hp
    rw [goto_pc_of_ne _ _ (fun he => by rw [he] at hm'; omega), hpc]
    exact h.future m hm'
  turn m hm := by
    have hm' : s.vsSeqno = m := hseq ▸ hm
    have hlt := h.lt_of_isPast hp
    rw [goto_pc_of_ne _ _ (fun he => by rw [he] at hm'; omega), hpc]
    -- a count that has been seen at zero is not that of the handler
    refine (h.turn m hm').mono (fun hz => ?_) (fun hz => ?_) fun _ ha => hpend.trans ha
    · have hne := h.pc_ne_reading hz n
      rw [decide_eq_false hne] at hr
      exact (hr.trans (sub_zero _)).trans hz
    · have hne := h.pc_ne_writing hz n
      rw [decide_eq_false hne] at hw
      exact (hw.trans (sub_zero _)).trans hz
  kind m := by
    by_cases he : m = n
    · rw [he, goto_pc]
      trivial
    · rw [goto_pc_of_ne _ _ he, hpc]
      exact h.kind m

theorem Inv.setAsyncs {pending : ℤ} {asyncs : List (Fin N × ℕ)}
    (hpend : pending = ((asyncs.map (·.2)).sum : ℕ)) (hsize : ∀ v ∈ asyncs, 0 < v.2)
    (hzero : s.vsWriters = 0 → s.vsAsyncPending = 0 → pending = 0) :
    Inv msgs { s with vsAsyncPending := pending, asyncs := asyncs } :=
  { h with
    pending := hpend
    sizes := hsize
    turn := fun m hm => (h.turn m hm).mono id id hzero }

/-- **Every step keeps the invariant**. -/
theorem Inv.step (hs : step msgs s a = some s') : Inv msgs s' := by
  cases a with
  | receive n =>
    obtain ⟨hq, rfl⟩ := of_guard hs
    have ht := fun q => tally_goto s n .seqno q
    refine { h with readers := ?_, writers := ?_, past := ?_, future := ?_, turn := ?_, kind := ?_ }
    · rw [ht, hq]
      exact h.readers.trans (by simp)
    · rw [ht, hq]
      exact h.writers.trans (by simp)
    · intro m hm
      have hpast := h.past m hm
      rw [goto_pc_of_ne _ _ fun he => ?_]
      · exact hpast
      · rw [he, hq] at hpast
        cases hpast
    · intro m hm
      by_cases he : m = n
      · rw [he, goto_pc]
        rfl
      · rw [goto_pc_of_ne _ _ he]
        exact h.future m hm
    · intro m hm
      by_cases he : m = n
      · rw [he, goto_pc]
        trivial
      · rw [goto_pc_of_ne _ _ he]
        exact (h.turn m hm).mono id id fun _ => id
    · intro m
      by_cases he : m = n
      · rw [he, goto_pc]
        trivial
      · rw [goto_pc_of_ne _ _ he]
        exact h.kind m
  | proceed n =>
    rcases h.proceed_cases hs with ⟨hn, hpast, ht⟩ | ⟨hp, rfl⟩ | ⟨hp, rfl⟩
    · exact h.turn_step hn hpast ht
    · refine h.retire (.inl hp) rfl rfl rfl rfl ?_ ?_
      · rw [hp]
        rfl
      · rw [hp]
        exact (sub_zero _).symm
    refine h.retire (.inr hp) rfl rfl rfl rfl ?_ ?_
    · rw [hp]
      exact (sub_zero _).symm
    · rw [hp]
      rfl
  | asyncWrite n size =>
    obtain ⟨⟨hw, hsize⟩, rfl⟩ := of_guard hs
    refine h.setAsyncs ?_ ?_ fun hz _ => absurd hw (h.pc_ne_writing hz n)
    · rw [h.pending, List.map_cons, List.sum_cons]
      push_cast
      ring
    intro v hv
    rcases List.mem_cons.mp hv with rfl | hv
    · exact hsize
    · exact h.sizes v hv
  | writeComplete n size =>
    obtain ⟨hmem, rfl⟩ := of_guard hs
    have hsum : size + ((s.asyncs.erase (n, size)).map (·.2)).sum = (s.asyncs.map (·.2)).sum := by
      rw [((List.perm_cons_erase hmem).map (·.2)).sum_eq, List.map_cons, List.sum_cons]
    have hp := h.pending
    refine h.setAsyncs (by omega) (fun v hv => h.sizes v (List.mem_of_mem_erase hv)) fun _ ha => ?_
    have hnil := h.asyncs_eq_nil (by omega)
    rw [hnil] at hmem
    cases hmem

end

/-- A read starts only when the writes before it have ended and the device has done what they asked
for. -/
def ReadsAfterWrites (msgs : Fin N → Msg) (s s' : Vstruct N) : Prop :=
  ∀ n, s.pc n ≠ .reading → s'.pc n = .reading → ∀ m < n, (msgs m).isWrite = true →
    s.pc m = .done ∧ ∀ v ∈ s.asyncs, v.1 ≠ m

/-- `memory_object_terminate` clears the control port only when nothing is in progress. -/
def TerminatesIdle (msgs : Fin N → Msg) (s s' : Vstruct N) : Prop :=
  ∀ n, msgs n = .terminate → s.pc n ≠ .done → s'.pc n = .done → Idle s

/-- The object is freed only when nothing is in progress. -/
def FreesIdle (s s' : Vstruct N) : Prop := s.freed = false → s'.freed = true → Idle s

theorem Turn.pc_of_ne (ht : Turn msg s n s') (hm : m ≠ n) : s'.pc m = s.pc m := by
  cases ht <;> exact goto_pc_of_ne _ _ hm

section

variable (h : Inv msgs s)
include h

theorem Inv.proceed_of_ne (hs : Pager.step msgs s a = some s')
    (hne : s'.pc n ≠ s.pc n) (hp : s'.pc n ≠ .seqno) : proceed msgs s n = some s' := by
  cases a with
  | receive k =>
    obtain ⟨-, rfl⟩ := of_guard hs
    by_cases he : n = k
    · rw [he, goto_pc] at hp
      exact absurd rfl hp
    · exact absurd (goto_pc_of_ne _ _ he) hne
  | proceed k =>
    by_cases he : n = k
    · rw [he]
      exact hs
    refine absurd ?_ hne
    rcases h.proceed_cases hs with ⟨-, -, ht⟩ | ⟨-, rfl⟩ | ⟨-, rfl⟩
    · exact ht.pc_of_ne he
    · exact goto_pc_of_ne _ _ he
    · exact goto_pc_of_ne _ _ he
  | asyncWrite k size | writeComplete k size =>
    obtain ⟨-, rfl⟩ := of_guard hs
    exact absurd rfl hne

theorem Inv.done_of_isWrite (hw : s.vsWriters = 0) (hm : m < s.vsSeqno)
    (hwr : (msgs m).isWrite = true) : s.pc m = .done := by
  have hpast := h.past m hm
  have hkind := h.kind m
  cases hp : s.pc m with
  | done => rfl
  | writing => exact absurd hp (h.pc_ne_writing hw m)
  | reading =>
    rw [hp] at hkind
    rw [show msgs m = .dataRequest from hkind] at hwr
    cases hwr
  | queued | seqno | checkRequest | readers | writers | async | refs =>
    rw [hp] at hpast
    cases hpast

theorem Inv.readsAfterWrites (hs : Pager.step msgs s a = some s') : ReadsAfterWrites msgs s s' := by
  intro n hne hp m hmn hwr
  have hgo := h.proceed_of_ne hs (hp ▸ Ne.symm hne) (by rw [hp]; decide)
  rcases h.proceed_cases hgo with ⟨hn, -, ht⟩ | ⟨-, rfl⟩ | ⟨-, rfl⟩
  · cases ht with
    | wait r hw =>
      rw [goto_pc] at hp
      rw [hp] at hw
      cases hw
    | read r _ hw ha =>
      refine ⟨h.done_of_isWrite hw (by rw [hn]; exact hmn) hwr, fun v hv => ?_⟩
      rw [h.asyncs_eq_nil ha] at hv
      cases hv
    | write | finish | free => cases (goto_pc _ _ _).symm.trans hp
  · cases (goto_pc _ _ _).symm.trans hp
  · cases (goto_pc _ _ _).symm.trans hp

theorem Inv.terminatesIdle (hs : Pager.step msgs s a = some s') : TerminatesIdle msgs s s' := by
  intro n hmsg hne hp
  have hgo := h.proceed_of_ne hs (hp ▸ Ne.symm hne) (by rw [hp]; decide)
  have hkind := h.kind n
  rw [hmsg] at hkind
  rcases h.proceed_cases hgo with ⟨-, -, ht⟩ | ⟨hr, -⟩ | ⟨hw, -⟩
  · rw [hmsg] at ht
    cases ht with
    | wait r hw =>
      rw [goto_pc] at hp
      rw [hp] at hw
      cases hw
    | finish c r k _ hidle => exact h.idle (hidle rfl)
    | read | write => cases (goto_pc _ _ _).symm.trans hp
    | free hns => cases hns
  · rw [hr] at hkind
    cases hkind
  · rw [hw] at hkind
    cases hkind

end

/-- A data message gets its turn only while the object has a control port. -/
def Mapped (msgs : Fin N → Msg) (s : Vstruct N) : Act N → Prop
  | .proceed n => s.pc n = .seqno → s.vsSeqno = n → (msgs n).isData = true → s.vsControlPort ≠ none
  | _ => True

/-- Nothing is in progress while the object has no control port. -/
structure Quiet (msgs : Fin N → Msg) (s : Vstruct N) : Prop where
  idle : s.vsControlPort = none → Idle s
  data : ∀ n : Fin N, s.vsSeqno = n → (msgs n).isData = true → (s.pc n).isFuture = false →
    s.vsControlPort ≠ none

theorem Idle.goto (h : Idle s) (s1 : Vstruct N) (hpc : s1.pc = s.pc) (has : s1.asyncs = s.asyncs)
    (p : Pc) (hr : p ≠ .reading) (hw : p ≠ .writing) : Idle (s1.goto n p) where
  reading m := by
    by_cases he : m = n
    · rw [he, goto_pc]
      exact hr
    · rw [goto_pc_of_ne _ _ he, hpc]
      exact h.reading m
  writing m := by
    by_cases he : m = n
    · rw [he, goto_pc]
      exact hw
    · rw [goto_pc_of_ne _ _ he, hpc]
      exact h.writing m
  asyncs := has.trans h.asyncs

section

variable (h : Inv msgs s)
include h

theorem Inv.isFuture_next (hn : s.vsSeqno = n) (ht : Turn (msgs n) s n s')
    (hm : s.vsSeqno + 1 = m) : (s'.pc m).isFuture = true := by
  rw [ht.pc_of_ne fun he => by rw [he] at hm; omega]
  exact h.future m (by omega)

theorem Quiet.turn_step (hq : Quiet msgs s) (hn : s.vsSeqno = n)
    (hdata : (msgs n).isData = true → s.vsControlPort ≠ none) (ht : Turn (msgs n) s n s') :
    Quiet msgs s' := by
  -- when the turn goes on, the next message is still to come
  have hnext : s'.vsSeqno = s.vsSeqno + 1 → ∀ m : Fin N, s'.vsSeqno = m → (msgs m).isData = true →
      (s'.pc m).isFuture = false → s'.vsControlPort ≠ none := by
    intro hseq m hm _ hf
    rw [h.isFuture_next hn ht (hseq.symm.trans hm)] at hf
    cases hf
  cases ht with
  | @wait r p hp =>
    refine ⟨fun hc => (hq.idle hc).goto { s with vsControlRefs := r } rfl rfl p ?_ ?_,
      fun m hm hd _ => ?_⟩
    · rintro rfl
      cases hp
    · rintro rfl
      cases hp
    · have he : m = n := Fin.ext (Eq.trans (Eq.symm hm) hn)
      rw [he] at hd
      exact hdata hd
  | read r hmsg =>
    refine ⟨fun hc => absurd hc (hdata ?_), hnext rfl⟩
    rw [hmsg]
    rfl
  | write r hmsg =>
    exact ⟨fun hc => absurd hc (hdata (Msg.isData_of_isWrite hmsg)), hnext rfl⟩
  | finish c r k hmsg hidle hc =>
    refine ⟨fun hnone => ?_, hnext rfl⟩
    have hid : Idle s := (hc hnone).elim (fun ht => h.idle (hidle ht)) hq.idle
    exact hid.goto { s with vsControlPort := c, vsControlRefs := r, vsNameRefs := k }.vsUnlock
      rfl rfl .done (by decide) (by decide)
  | free hmsg hc =>
    refine ⟨fun _ => (hq.idle hc).goto { s with freed := true } rfl rfl .done (by decide) (by decide),
      fun m hm hd _ => ?_⟩
    have he : m = n := Fin.ext (Eq.trans (Eq.symm hm) hn)
    rw [he, hmsg] at hd
    cases hd

/-- **Every step keeps the object quiet** when the data messages come while it has a control port. -/
theorem Quiet.step (hq : Quiet msgs s) (hm : Mapped msgs s a)
    (hs : Pager.step msgs s a = some s') : Quiet msgs s' := by
  cases a with
  | receive n =>
    obtain ⟨-, rfl⟩ := of_guard hs
    refine ⟨fun hc => (hq.idle hc).goto s rfl rfl .seqno (by decide) (by decide),
      fun m hseq hd hf => ?_⟩
    by_cases he : m = n
    · rw [he, goto_pc] at hf
      cases hf
    · rw [goto_pc_of_ne _ _ he] at hf
      exact hq.data m hseq hd hf
  | proceed n =>
    rcases h.proceed_cases hs with ⟨hn, -, ht⟩ | ⟨hr, rfl⟩ | ⟨hw, rfl⟩
    · refine hq.turn_step h hn (fun hd => ?_) ht
      cases hp : s.pc n with
      | seqno => exact hm hp hn hd
      | queued =>
        rw [Pager.step, proceed, hp] at hs
        cases hs
      | _ => exact hq.data n hn hd (by rw [hp]; rfl)
    · refine ⟨fun hc => absurd hr ((hq.idle hc).reading n), fun m hseq hd hf => ?_⟩
      have hlt := h.lt_of_isPast (.inl hr)
      have hseq' : s.vsSeqno = m := hseq
      rw [goto_pc_of_ne _ _ fun he => by rw [he] at hseq'; omega] at hf
      exact hq.data m hseq hd hf
    · refine ⟨fun hc => absurd hw ((hq.idle hc).writing n), fun m hseq hd hf => ?_⟩
      have hlt := h.lt_of_isPast (.inr hw)
      have hseq' : s.vsSeqno = m := hseq
      rw [goto_pc_of_ne _ _ fun he => by rw [he] at hseq'; omega] at hf
      exact hq.data m hseq hd hf
  | asyncWrite n size =>
    obtain ⟨⟨hw, -⟩, rfl⟩ := of_guard hs
    exact ⟨fun hc => absurd hw ((hq.idle hc).writing n), hq.data⟩
  | writeComplete n size =>
    obtain ⟨hmem, rfl⟩ := of_guard hs
    refine ⟨fun hc => ?_, hq.data⟩
    rw [(hq.idle hc).asyncs] at hmem
    cases hmem

theorem Quiet.freesIdle (hq : Quiet msgs s)
    (hs : Pager.step msgs s a = some s') : FreesIdle s s' := by
  intro hfreed hfree
  cases a with
  | proceed n =>
    rcases h.proceed_cases hs with ⟨-, -, ht⟩ | ⟨-, rfl⟩ | ⟨-, rfl⟩
    · cases ht with
      | free _ hc => exact hq.idle hc
      | wait | read | write | finish => exact absurd (hfreed.symm.trans hfree) (by decide)
    · exact absurd (hfreed.symm.trans hfree) (by decide)
    · exact absurd (hfreed.symm.trans hfree) (by decide)
  | receive n | asyncWrite n size | writeComplete n size =>
    obtain ⟨-, rfl⟩ := of_guard hs
    exact absurd (hfreed.symm.trans hfree) (by decide)

end

/-- A memory object that has just been created, with a control port or without one. -/
structure Initial (s : Vstruct N) : Prop where
  vsSeqno : s.vsSeqno = 0
  vsReaders : s.vsReaders = 0
  vsWriters : s.vsWriters = 0
  vsAsyncPending : s.vsAsyncPending = 0
  pc : ∀ n, s.pc n = .queued
  asyncs : s.asyncs = []

theorem Initial.idle (h : Initial s) : Idle s :=
  ⟨fun n => by rw [h.pc n]; decide, fun n => by rw [h.pc n]; decide, h.asyncs⟩

theorem Initial.inv (h : Initial s) : Inv msgs s where
  readers := by
    rw [h.vsReaders]
    exact (Finset.sum_eq_zero fun n _ => by dsimp only; rw [h.pc n]; rfl).symm
  writers := by
    rw [h.vsWriters]
    exact (Finset.sum_eq_zero fun n _ => by dsimp only; rw [h.pc n]; rfl).symm
  pending := by
    rw [h.vsAsyncPending, h.asyncs]
    rfl
  sizes v hv := by
    rw [h.asyncs] at hv
    cases hv
  past n hn := by
    rw [h.vsSeqno] at hn
    exact absurd hn (Nat.not_lt_zero _)
  future n _ := by
    rw [h.pc n]
    rfl
  turn n _ := by
    rw [h.pc n]
    trivial
  kind n := by
    rw [h.pc n]
    trivial

theorem Initial.quiet (h : Initial s) : Quiet msgs s :=
  ⟨fun _ => h.idle, fun n _ _ hf => by rw [h.pc n] at hf; cases hf⟩

/-- **The order of the requests**: at every step of every run the counts are not negative, a read
starts only after the writes before it, and the control port is cleared only when nothing is in
progress. -/
theorem ordered_of_run (msgs : Fin N → Msg) (acts : List (Act N)) (s0 s s' : Vstruct N) (a : Act N)
    (h0 : Initial s0) (hr : Trace.run (step msgs) s0 acts = some s)
    (hs : step msgs s a = some s') :
    (0 ≤ s.vsReaders ∧ 0 ≤ s.vsWriters ∧ 0 ≤ s.vsAsyncPending) ∧ ReadsAfterWrites msgs s s' ∧
      TerminatesIdle msgs s s' ∧
        (Trace.Meets (step msgs) (Mapped msgs) s0 acts → FreesIdle s s') := by
  have h : Inv msgs s :=
    Trace.invariant_of_step (fun _ _ _ h hs => h.step hs) acts s0 s h0.inv hr
  refine ⟨⟨?_, ?_, ?_⟩, h.readsAfterWrites hs, h.terminatesIdle hs, fun hm => ?_⟩
  · rw [h.readers]
    exact Finset.sum_nonneg fun n _ => Census.ind_nonneg _
  · rw [h.writers]
    exact Finset.sum_nonneg fun n _ => Census.ind_nonneg _
  · rw [h.pending]
    exact Int.natCast_nonneg _
  · have hq : Inv msgs s ∧ Quiet msgs s := Trace.invariant (P := Mapped msgs)
      (I := fun s => Inv msgs s ∧ Quiet msgs s)
      (fun _ _ _ h hm hs => ⟨h.1.step hs, h.2.step h.1 hm hs⟩) acts s0 s ⟨h0.inv, h0.quiet⟩ hm hr
    exact hq.2.freesIdle h hs

/-- An object that `default_pager_object_create` has made. -/
def external (N : ℕ) : Vstruct N where
  vsSeqno := 0
  vsReaders := 0
  vsWriters := 0
  vsAsyncPending := 0
  vsControlPort := none
  vsControlRefs := 0
  vsNameRefs := 0
  freed := false
  pc _ := .queued
  asyncs := []

theorem external_initial (N : ℕ) : Initial (external N) :=
  ⟨rfl, rfl, rfl, rfl, fun _ => rfl, rfl⟩

/-- The kernel maps the object, writes a page and terminates it, and the last sender goes. -/
def mappedMsgs : Fin 4 → Msg := ![.init (some 5), .dataReturn, .terminate, .noSenders]

/-- The messages are served one after the other, up to the last one. -/
def mappedRun : List (Act 4) :=
  [.receive 3, .receive 0, .proceed 0, .receive 1, .proceed 1, .proceed 1, .receive 2, .proceed 2]

theorem ordered_of_run_mapped :
    ∃ s s', Trace.run (step mappedMsgs) (external 4) mappedRun = some s ∧
      step mappedMsgs s (.proceed 3) = some s' ∧ s'.freed = true ∧ FreesIdle s s' := by
  refine ⟨_, _, rfl, rfl, rfl, (ordered_of_run mappedMsgs mappedRun (external 4) _ _ (.proceed 3)
    (external_initial 4) rfl rfl).2.2.2 ?_⟩
  refine ⟨trivial, fun s1 h1 => ⟨trivial, fun s2 h2 => ⟨nofun, fun s3 h3 =>
    ⟨trivial, fun s4 h4 => ⟨?_, fun s5 h5 => ⟨?_, fun s6 _ => ⟨trivial, fun s7 _ =>
      ⟨nofun, fun _ _ => trivial⟩⟩⟩⟩⟩⟩⟩⟩
  · cases h1
    cases h2
    cases h3
    cases h4
    exact nofun
  · cases h1
    cases h2
    cases h3
    cases h4
    cases h5
    exact nofun

/-- **A no-senders notification frees an object that is being read**: a client of
`default_pager_object_create` asks for data of the object that it has not mapped, and drops its
right. -/
theorem noSenders_frees_reading :
    ∃ s s' : Vstruct 2, Trace.run (step ![.dataRequest, .noSenders]) (external 2)
        [.receive 0, .receive 1, .proceed 0] = some s ∧
      step ![.dataRequest, .noSenders] s (.proceed 1) = some s' ∧ s.pc 0 = .reading ∧
        s'.freed = true ∧ ¬ FreesIdle s s' :=
  ⟨_, _, rfl, rfl, rfl, rfl, fun h => (h rfl rfl).reading 0 rfl⟩

end Osfmk.Pager

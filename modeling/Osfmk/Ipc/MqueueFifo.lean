import Osfmk.Ipc.Mqueue

/-!
# Messages of a port are received in order

What holds in every state of every run of the routines on message queues: the messages
delivered to a port are those given to threads, in the same order and with consecutive sequence
numbers, followed by those in the queue of the port or of its set.
-/

set_option linter.unusedSectionVars false

open Function (update update_comm update_of_ne update_self)
open Option (some.inj)
open List

namespace Osfmk.Mqueue

variable {T P S K : Type} [DecidableEq T] [DecidableEq P] [DecidableEq S] [DecidableEq K]

/-- The thread has been given neither a message nor an error. -/
def IthState.waiting : IthState P K → Bool
  | .inProgress | .inProgressTimed => true
  | _ => false

/-- The messages of a port among some. -/
def ofPort (p : P) (ms : List (Kmsg P K)) : List (Kmsg P K) :=
  ms.filter fun m => decide (m.msghRemotePort = p)

/-- The messages of a port that threads have been given. -/
def MqWorld.takenOf (w : MqWorld T P S K) (p : P) : List (Receipt T P K) :=
  w.taken.filter fun r => decide (r.kmsg.msghRemotePort = p)

/-- The message a thread has been handed and has not returned with, by where it is. -/
def handOf (t : T) : MqPc P S K → IthState P K → List (Receipt T P K)
  | .blocked _, .success kmsg seqno => [⟨t, kmsg, seqno⟩]
  | _, _ => []

/-- The message a thread has in hand. -/
def MqWorld.inHand (w : MqWorld T P S K) (t : T) : List (Receipt T P K) :=
  handOf t (w.pc t) (w.ithState t)

/-- The messages some receipts are for, of one thread. -/
def ofThread (t : T) (rs : List (Receipt T P K)) : List (Receipt T P K) :=
  rs.filter fun r => decide (r.thread = t)

/-- **Receivers**: those in a queue are those that wait for it, and what a thread was given it
has returned with or has in hand. -/
structure MqThreads (w : MqWorld T P S K) : Prop where
  queued : ∀ q t, t ∈ (w.mqueue q).imqThreads → w.pc t = .blocked q ∧ (w.ithState t).waiting = true
  linked : ∀ q t, w.pc t = .blocked q → (w.ithState t).waiting = true → t ∈ (w.mqueue q).imqThreads
  nodup : ∀ q, (w.mqueue q).imqThreads.Nodup
  held : ∀ t, ofThread t w.taken = ofThread t w.returned ++ w.inHand t

/-- **Messages**, with some on the way from one queue to another. -/
structure MqQueues (w : MqWorld T P S K) (ms : List (Kmsg P K)) : Prop where
  separate : ∀ q, (w.mqueue q).imqMessages = [] ∨ (w.mqueue q).imqThreads = []
  home : ∀ q, ∀ m ∈ (w.mqueue q).imqMessages, q = w.queueOf m.msghRemotePort
  flow : ∀ p, ofPort p w.delivered =
    (w.takenOf p).map (·.kmsg) ++ ofPort p (w.mqueue (w.queueOf p)).imqMessages ++ ofPort p ms
  seqnos : ∀ p, (w.takenOf p).map (·.seqno) = (List.range (w.takenOf p).length).map (· % 2 ^ 32)
  seqno : ∀ p, w.ipSeqno p = (w.takenOf p).length % 2 ^ 32

/-- **Nobody waits** in the queue of a port that is in a set, or of a dead set. -/
structure MqQuiet (w : MqWorld T P S K) : Prop where
  member : ∀ p, w.ipPset p ≠ none → (w.mqueue (.port p)).imqThreads = []
  dead : ∀ s, w.ipsActive s = false → (w.mqueue (.pset s)).imqThreads = []

/-- What holds where a thread is. -/
def MqWorld.PcOk (w : MqWorld T P S K) (t : T) : MqPc P S K → Prop
  | .idle _ => True
  | .delivering q kmsg => w.imqLock q = some t ∧ q = w.queueOf kmsg.msghRemotePort
  | .moving p o n =>
    w.ioLock (.port p) = some t ∧ w.ioLock (.pset n) = some t ∧ w.ioLock (.pset o) = some t ∧
      w.ipPset p = none ∧ w.ipsActive n = true
  | .copiedIn (.port p) => w.ioLock (.port p) = some t ∧ w.ipPset p = none
  | .copiedIn (.pset s) => w.ioLock (.pset s) = some t ∧ w.ipsActive s = true
  | .blocked _ => True

/-- The invariant but for where the threads are. -/
structure MqRest (w : MqWorld T P S K) : Prop where
  threads : MqThreads w
  queues : MqQueues w []
  quiet : MqQuiet w

/-- **The invariant of the message queues.** -/
structure MqInv (w : MqWorld T P S K) : Prop extends MqRest w where
  pcs : ∀ t, w.PcOk t (w.pc t)

variable {w w' : MqWorld T P S K} {q : MqObject P S} {m : Kmsg P K} {ms : List (Kmsg P K)}
  {t th : T} {ths : List T} {p : P} {s : S}

@[simp] theorem setMessages_messages (ms : List (Kmsg P K)) (q' : MqObject P S) :
    ((w.setMessages q ms).mqueue q').imqMessages =
      if q' = q then ms else (w.mqueue q').imqMessages := by
  by_cases h : q' = q
  · subst h
    simp [MqWorld.setMessages]
  · simp [MqWorld.setMessages, h]

@[simp] theorem setMessages_threads (ms : List (Kmsg P K)) (q' : MqObject P S) :
    ((w.setMessages q ms).mqueue q').imqThreads = (w.mqueue q').imqThreads := by
  by_cases h : q' = q
  · subst h
    simp [MqWorld.setMessages]
  · simp [MqWorld.setMessages, h]

@[simp] theorem setThreads_messages (ths : List T) (q' : MqObject P S) :
    ((w.setThreads q ths).mqueue q').imqMessages = (w.mqueue q').imqMessages := by
  by_cases h : q' = q
  · subst h
    simp [MqWorld.setThreads]
  · simp [MqWorld.setThreads, h]

@[simp] theorem setThreads_threads (ths : List T) (q' : MqObject P S) :
    ((w.setThreads q ths).mqueue q').imqThreads =
      if q' = q then ths else (w.mqueue q').imqThreads := by
  by_cases h : q' = q
  · subst h
    simp [MqWorld.setThreads]
  · simp [MqWorld.setThreads, h]

@[simp] theorem ofPort_append (ms ns : List (Kmsg P K)) :
    ofPort p (ms ++ ns) = ofPort p ms ++ ofPort p ns := filter_append ..

theorem ofPort_cons (m : Kmsg P K) (ms : List (Kmsg P K)) :
    ofPort p (m :: ms) = (if m.msghRemotePort = p then [m] else []) ++ ofPort p ms := by
  by_cases h : m.msghRemotePort = p <;> simp [ofPort, h]

@[simp] theorem ofPort_nil : ofPort p ([] : List (Kmsg P K)) = [] := rfl

theorem take_takenOf (t : T) (m : Kmsg P K) : (w.take t m).takenOf p =
      w.takenOf p ++ if m.msghRemotePort = p then [⟨t, m, w.ipSeqno m.msghRemotePort⟩] else [] := by
  by_cases h : m.msghRemotePort = p <;> simp [MqWorld.take, MqWorld.takenOf, h]

theorem MqQueues.take_seqnos (h : MqQueues w ms) (t : T) (m : Kmsg P K) (p : P) :
    ((w.take t m).takenOf p).map (·.seqno) =
        (List.range ((w.take t m).takenOf p).length).map (· % 2 ^ 32) ∧
      (w.take t m).ipSeqno p = ((w.take t m).takenOf p).length % 2 ^ 32 := by
  rw [take_takenOf]
  by_cases hp : m.msghRemotePort = p
  · subst hp
    have hseq := h.seqno m.msghRemotePort
    simp only [if_true, map_append, length_append, map_cons, map_nil,
      length_singleton, range_succ, h.seqnos, hseq]
    refine ⟨trivial, ?_⟩
    simp only [MqWorld.take, update_self, hseq]
    omega
  simp only [hp, if_false, append_nil]
  refine ⟨h.seqnos p, ?_⟩
  simp only [MqWorld.take, update_of_ne (Ne.symm hp)]
  exact h.seqno p

/-- **A message on the way is handed over**: to the queue of its port. -/
theorem MqQueues.handOver (h : MqQueues w (m :: ms)) (hq : q = w.queueOf m.msghRemotePort) :
    MqQueues (w.handOver q m) ms := by
  unfold MqWorld.handOver
  split
  · next hth =>
    refine ⟨fun q' => ?_, fun q' x hx => ?_, fun p => ?_, h.seqnos, h.seqno⟩
    · rw [setMessages_threads, setMessages_messages]
      by_cases hqq : q' = q
      · exact .inr (hqq ▸ hth)
      · rw [if_neg hqq]
        exact h.separate q'
    · rw [setMessages_messages] at hx
      split at hx
      · next hqq =>
        subst hqq
        rcases mem_append.mp hx with hx | hx
        · exact h.home q' x hx
        · rw [mem_singleton.mp hx]
          exact hq
      · exact h.home q' x hx
    · refine (h.flow p).trans ?_
      rw [setMessages_messages, ofPort_cons]
      show _ = _ ++ ofPort p (if w.queueOf p = q then _ else _) ++ _
      by_cases hp : m.msghRemotePort = p
      · subst hp
        rw [if_pos rfl, if_pos hq.symm, hq, ofPort_append, ofPort_cons, if_pos rfl]
        simp [append_assoc, MqWorld.takenOf, MqWorld.setMessages]
      rw [if_neg hp]
      by_cases hqp : w.queueOf p = q
      · rw [if_pos hqp, ofPort_append, ofPort_cons, if_neg hp, hqp]
        simp [MqWorld.takenOf, MqWorld.setMessages]
      · rw [if_neg hqp]
        simp [MqWorld.takenOf, MqWorld.setMessages, MqWorld.queueOf]
  · next th ths hth =>
    have hempty : (w.mqueue q).imqMessages = [] := (h.separate q).resolve_right (by simp [hth])
    have hseq := h.take_seqnos th m
    refine ⟨fun q' => ?_, fun q' x hx => ?_, fun p => ?_, fun p => (hseq p).1, fun p => (hseq p).2⟩
    · show ((w.setThreads q ths).mqueue q').imqMessages = [] ∨ _
      rw [setThreads_messages]
      show _ ∨ ((w.setThreads q ths).mqueue q').imqThreads = []
      rw [setThreads_threads]
      by_cases hqq : q' = q
      · exact .inl (hqq ▸ hempty)
      · rw [if_neg hqq]
        exact h.separate q'
    · change x ∈ ((w.setThreads q ths).mqueue q').imqMessages at hx
      rw [setThreads_messages] at hx
      exact h.home q' x hx
    · have htaken := take_takenOf (w := w) (p := p) th m
      show ofPort p w.delivered = ((w.take th m).takenOf p).map (·.kmsg) ++
        ofPort p ((w.setThreads q ths).mqueue (w.queueOf p)).imqMessages ++ ofPort p ms
      rw [setThreads_messages, htaken, h.flow p, ofPort_cons]
      by_cases hp : m.msghRemotePort = p
      · subst hp
        rw [← hq, hempty]
        simp
      · simp [hp]

theorem ofThread_append (rs rs' : List (Receipt T P K)) :
    ofThread t (rs ++ rs') = ofThread t rs ++ ofThread t rs' := filter_append ..

theorem ofThread_singleton (r : Receipt T P K) :
    ofThread t [r] = if r.thread = t then [r] else [] := by
  by_cases h : r.thread = t <;> simp [ofThread, h]

variable {state : IthState P K} {dest q' source : MqObject P S} {pc : MqPc P S K} {o : Option S}

theorem handOf_of_waiting (h : state.waiting = true) (pc : MqPc P S K) :
    handOf t pc state = [] := by
  unfold handOf
  split
  · cases h
  · rfl

theorem handOf_of_not_blocked (h : ∀ q, pc ≠ .blocked q) (state : IthState P K) :
    handOf t pc state = [] := by
  unfold handOf
  split
  · exact absurd rfl (h _)
  · rfl

theorem handOf_idle (last : MqReturn) (state : IthState P K) :
    handOf t (.idle last : MqPc P S K) state = [] := rfl

theorem ofThread_handOf (t' : T) (pc : MqPc P S K) (state : IthState P K) :
    ofThread t' (handOf t pc state) = if t = t' then handOf t pc state else [] := by
  unfold handOf
  split
  · exact ofThread_singleton _
  · simp [ofThread]

theorem MqThreads.setMessages (h : MqThreads w) (q : MqObject P S) (ms : List (Kmsg P K)) :
    MqThreads (w.setMessages q ms) := by
  refine ⟨fun q' t ht => ?_, fun q' t hpc hw => ?_, fun q' => ?_, h.held⟩
  · rw [setMessages_threads] at ht
    exact h.queued q' t ht
  · rw [setMessages_threads]
    exact h.linked q' t hpc hw
  · rw [setMessages_threads]
    exact h.nodup q'

theorem MqThreads.setPset (h : MqThreads w) (ipPset : P → Option S) :
    MqThreads { w with ipPset := ipPset } := { h with }

theorem MqThreads.handOver (h : MqThreads w) (q : MqObject P S) (m : Kmsg P K) :
    MqThreads (w.handOver q m) := by
  unfold MqWorld.handOver
  split
  · exact h.setMessages _ _
  next th ths hth =>
  have hnd := h.nodup q
  rw [hth, List.nodup_cons] at hnd
  obtain ⟨hpc, hwait⟩ := h.queued q th (by simp [hth])
  have hthreads : ∀ q' t, t ∈ ((w.setThreads q ths).mqueue q').imqThreads →
      t ∈ (w.mqueue q').imqThreads ∧ t ≠ th := by
    intro q' t ht
    rw [setThreads_threads] at ht
    split at ht
    · next hqq =>
      subst hqq
      exact ⟨by simp [hth, ht], fun he => hnd.1 (he ▸ ht)⟩
    next hqq =>
    refine ⟨ht, fun he => hqq ?_⟩
    have := (h.queued q' t ht).1
    rw [he, hpc] at this
    exact (MqPc.blocked.inj this).symm
  refine ⟨fun q' t ht => ?_, fun q' t hpc' hw => ?_, fun q' => ?_, fun t => ?_⟩
  · obtain ⟨hmem, hne⟩ := hthreads q' t ht
    obtain ⟨h1, h2⟩ := h.queued q' t hmem
    refine ⟨h1, ?_⟩
    show (update w.ithState th _ t).waiting = true
    rw [update_of_ne hne]
    exact h2
  · change (update w.ithState th _ t).waiting = true at hw
    by_cases hne : t = th
    · subst hne
      rw [update_self] at hw
      cases hw
    rw [update_of_ne hne] at hw
    have hmem := h.linked q' t hpc' hw
    show t ∈ ((w.setThreads q ths).mqueue q').imqThreads
    rw [setThreads_threads]
    split
    · next hqq =>
      subst hqq
      rw [hth] at hmem
      exact (mem_cons.mp hmem).resolve_left hne
    · exact hmem
  · show ((w.setThreads q ths).mqueue q').imqThreads.Nodup
    rw [setThreads_threads]
    split
    · exact hnd.2
    · exact h.nodup q'
  · have hheld := h.held t
    show ofThread t (w.taken ++ [_]) = ofThread t w.returned ++ _
    rw [ofThread_append, ofThread_singleton, hheld, append_assoc]
    congr 1
    by_cases hne : t = th
    · subst hne
      rw [MqWorld.inHand, handOf_of_waiting hwait, if_pos rfl]
      show _ = handOf t (w.pc t) (update w.ithState t _ t)
      rw [update_self, hpc]
      rfl
    rw [if_neg (Ne.symm hne), append_nil]
    show _ = handOf t (w.pc t) (update w.ithState th _ t)
    rw [update_of_ne hne]
    rfl

theorem handOver_frame (w : MqWorld T P S K) (q : MqObject P S) (m : Kmsg P K) :
    (w.handOver q m).pc = w.pc ∧ (w.handOver q m).imqLock = w.imqLock ∧
      (w.handOver q m).ioLock = w.ioLock ∧ (w.handOver q m).ipPset = w.ipPset ∧
      (w.handOver q m).ipsActive = w.ipsActive ∧ (w.handOver q m).delivered = w.delivered := by
  unfold MqWorld.handOver
  split <;> exact ⟨rfl, rfl, rfl, rfl, rfl, rfl⟩

theorem handOver_threads (q' : MqObject P S) (h : (w.mqueue q').imqThreads = []) :
    ((w.handOver q m).mqueue q').imqThreads = [] := by
  unfold MqWorld.handOver
  split
  · rw [setMessages_threads]
    exact h
  next hth =>
  show ((w.setThreads q _).mqueue q').imqThreads = []
  rw [setThreads_threads, if_neg]
  · exact h
  · rintro rfl
    rw [h] at hth
    cases hth

/-- Messages are handed over one after another. -/
def MqWorld.handOverAll (w : MqWorld T P S K) (q : MqObject P S) (ms : List (Kmsg P K)) :
    MqWorld T P S K :=
  ms.foldl (fun w m => w.handOver q m) w

/-- The parts that handing over messages leaves as they are. -/
structure MqFrame (w w' : MqWorld T P S K) : Prop where
  pc : w'.pc = w.pc
  imqLock : w'.imqLock = w.imqLock
  ioLock : w'.ioLock = w.ioLock
  ipPset : w'.ipPset = w.ipPset
  ipsActive : w'.ipsActive = w.ipsActive
  delivered : w'.delivered = w.delivered
  threads : ∀ q, (w.mqueue q).imqThreads = [] → (w'.mqueue q).imqThreads = []

theorem MqFrame.trans {w1 w2 w3 : MqWorld T P S K} (h : MqFrame w1 w2) (h' : MqFrame w2 w3) :
    MqFrame w1 w3 :=
  ⟨h'.pc.trans h.pc, h'.imqLock.trans h.imqLock, h'.ioLock.trans h.ioLock,
    h'.ipPset.trans h.ipPset, h'.ipsActive.trans h.ipsActive, h'.delivered.trans h.delivered,
    fun q hq => h'.threads q (h.threads q hq)⟩

theorem handOverAll_frame (w : MqWorld T P S K) (q : MqObject P S) (ms : List (Kmsg P K)) :
    MqFrame w (w.handOverAll q ms) := by
  induction ms generalizing w with
  | nil => exact ⟨rfl, rfl, rfl, rfl, rfl, rfl, fun _ h => h⟩
  | cons m ms ih =>
    obtain ⟨h1, h2, h3, h4, h5, h6⟩ := handOver_frame w q m
    exact MqFrame.trans ⟨h1, h2, h3, h4, h5, h6, fun q' h => handOver_threads q' h⟩ (ih _)

theorem MqQueues.handOverAll (h : MqQueues w ms)
    (hq : ∀ m ∈ ms, q = w.queueOf m.msghRemotePort) : MqQueues (w.handOverAll q ms) [] := by
  induction ms generalizing w with
  | nil => exact h
  | cons m ms ih =>
    refine ih (h.handOver (hq m (by simp))) fun x hx => ?_
    rw [MqWorld.queueOf, (handOver_frame w q m).2.2.2.1]
    exact hq x (by simp [hx])

theorem MqThreads.handOverAll (h : MqThreads w) (q : MqObject P S) (ms : List (Kmsg P K)) :
    MqThreads (w.handOverAll q ms) := by
  induction ms generalizing w with
  | nil => exact h
  | cons m ms ih => exact ih (h.handOver q m)

theorem setMessages_self (h : (w.mqueue q).imqMessages = ms) : w.setMessages q ms = w := by
  subst h
  simp [MqWorld.setMessages]

theorem setMessages_setMessages (ms ms' : List (Kmsg P K)) :
    (w.setMessages q ms).setMessages q ms' = w.setMessages q ms' := by
  simp [MqWorld.setMessages]

theorem handOver_setMessages (hne : q' ≠ q) (ms : List (Kmsg P K)) :
    (w.handOver q m).setMessages q' ms = (w.setMessages q' ms).handOver q m := by
  unfold MqWorld.handOver
  rw [setMessages_threads]
  cases hth : (w.mqueue q).imqThreads with
  | nil =>
    simp [MqWorld.setMessages, update_of_ne hne, update_of_ne hne.symm, update_comm hne]
  | cons th ths =>
    simp [MqWorld.setMessages, MqWorld.setThreads, MqWorld.take, update_of_ne hne,
      update_of_ne hne.symm, update_comm hne]

theorem handOver_messages_ne (hne : q' ≠ q) :
    ((w.handOver q m).mqueue q').imqMessages = (w.mqueue q').imqMessages := by
  unfold MqWorld.handOver
  split
  · rw [setMessages_messages, if_neg hne]
  · exact setThreads_messages _ _

/-- **The loop of `ipc_mqueue_move`** hands over the messages of the port in their order. -/
theorem moveLoop_eq (hne : source ≠ dest) (port : P)
    (kept rest : List (Kmsg P K)) (hkept : ∀ m ∈ kept, m.msghRemotePort ≠ port)
    (hw : (w.mqueue source).imqMessages = kept ++ rest) :
    moveLoop dest source port rest w =
      (w.setMessages source (kept ++ rest.filter fun m => decide (m.msghRemotePort ≠ port))
        ).handOverAll dest (ofPort port rest) := by
  induction rest generalizing w kept with
  | nil =>
    exact (setMessages_self hw).symm
  | cons m rest ih =>
    rw [moveLoop]
    by_cases hm : m.msghRemotePort = port
    · have herase : (kept ++ m :: rest).erase m = kept ++ rest := by
        rw [erase_append_right _ fun hmem => hkept m hmem hm, erase_cons_head]
      rw [if_neg (not_not.mpr hm), ih kept hkept, handOver_setMessages hne, setMessages_setMessages]
      · simp [ofPort, hm, MqWorld.handOverAll]
      · rw [handOver_messages_ne hne, setMessages_messages, if_pos rfl, hw, herase]
    rw [if_pos hm, ih (kept ++ [m])]
    · simp [ofPort, hm]
    · intro x hx
      rcases mem_append.mp hx with hx | hx
      · exact hkept x hx
      · rwa [mem_singleton.mp hx]
    · rw [hw, append_assoc, singleton_append]

theorem ipcMqueueMove_eq (hne : source ≠ dest) (port : P) :
    ipcMqueueMove w dest source port = (w.setMessages source ((w.mqueue source).imqMessages.filter
        fun m => decide (m.msghRemotePort ≠ port))).handOverAll dest
          (ofPort port (w.mqueue source).imqMessages) :=
  moveLoop_eq hne port [] _ (by simp) rfl

theorem changedLoop_eq (mr : IthState P K) (ths : List T) (hw : (w.mqueue q).imqThreads = ths) :
    changedLoop q mr ths w =
      { w.setThreads q [] with ithState := fun t => if t ∈ ths then mr else w.ithState t } := by
  induction ths generalizing w with
  | nil =>
    have hself : w.setThreads q [] = w := by simp [MqWorld.setThreads, ← hw]
    simp [changedLoop, hself]
  | cons th ths ih =>
    rw [changedLoop, ih]
    · simp only [MqWorld.setThreads, update_self, Function.update_idem, mem_cons]
      congr 1
      funext t
      by_cases ht : t = th
      · subst ht
        simp
      · simp [ht]
    · exact (setThreads_threads _ _).trans (if_pos rfl)

theorem ipcMqueueChanged_eq (mr : IthState P K) : ipcMqueueChanged w q mr = { w.setThreads q [] with
      ithState := fun t => if t ∈ (w.mqueue q).imqThreads then mr else w.ithState t } :=
  changedLoop_eq mr _ rfl

theorem MqThreads.changed (h : MqThreads w) (q : MqObject P S) {mr : IthState P K}
    (hmr : mr = .portDied ∨ mr = .portChanged) : MqThreads (ipcMqueueChanged w q mr) := by
  have hwait : mr.waiting = false := by rcases hmr with rfl | rfl <;> rfl
  rw [ipcMqueueChanged_eq]
  have hthreads : ∀ q', ((w.setThreads q []).mqueue q').imqThreads =
      if q' = q then [] else (w.mqueue q').imqThreads := setThreads_threads []
  refine ⟨fun q' t ht => ?_, fun q' t hpc hw => ?_, fun q' => ?_, fun t => ?_⟩
  · rw [hthreads] at ht
    split at ht
    · cases ht
    next hne =>
    obtain ⟨hpc, hw⟩ := h.queued q' t ht
    refine ⟨hpc, ?_⟩
    dsimp only
    rw [if_neg]
    · exact hw
    intro hmem
    have := (h.queued q t hmem).1
    rw [hpc] at this
    exact hne (MqPc.blocked.inj this)
  · dsimp only at hw
    rw [hthreads]
    split at hw
    · rw [hwait] at hw
      cases hw
    next hmem =>
    have := h.linked q' t hpc hw
    rw [if_neg]
    · exact this
    · rintro rfl
      exact hmem this
  · rw [hthreads]
    split
    · exact nodup_nil
    · exact h.nodup q'
  · refine (h.held t).trans (congrArg _ ?_)
    by_cases hmem : t ∈ (w.mqueue q).imqThreads
    · rw [MqWorld.inHand, handOf_of_waiting (h.queued q t hmem).2]
      rcases hmr with rfl | rfl <;> simp [MqWorld.inHand, handOf, hmem]
    · simp [MqWorld.inHand, hmem, MqWorld.setThreads]

theorem MqQueues.mono (h : MqQueues w ms)
    (hm : ∀ q, (w'.mqueue q).imqMessages = (w.mqueue q).imqMessages)
    (hth : ∀ q, (w.mqueue q).imqThreads = [] → (w'.mqueue q).imqThreads = [])
    (hset : w'.ipPset = w.ipPset) (hseq : w'.ipSeqno = w.ipSeqno) (ht : w'.taken = w.taken)
    (hd : w'.delivered = w.delivered) : MqQueues w' ms := by
  have hqueue : w'.queueOf = w.queueOf := by
    funext p
    rw [MqWorld.queueOf, MqWorld.queueOf, hset]
  have htaken : w'.takenOf = w.takenOf := by
    funext p
    rw [MqWorld.takenOf, MqWorld.takenOf, ht]
  refine ⟨fun q => ?_, fun q m hmem => ?_, fun p => ?_, fun p => ?_, fun p => ?_⟩
  · rw [hm]
    exact (h.separate q).imp id (hth q)
  · rw [hqueue]
    exact h.home q m (hm q ▸ hmem)
  · rw [hd, htaken, hqueue, hm]
    exact h.flow p
  · rw [htaken]
    exact h.seqnos p
  · rw [hseq, htaken]
    exact h.seqno p

theorem MqQueues.changed (h : MqQueues w ms) (q : MqObject P S) (mr : IthState P K) :
    MqQueues (ipcMqueueChanged w q mr) ms := by
  rw [ipcMqueueChanged_eq]
  refine h.mono (fun q' => setThreads_messages _ _) (fun q' hq' => ?_) rfl rfl rfl rfl
  refine (setThreads_threads _ _).trans ?_
  split
  · rfl
  · exact hq'

theorem ofPort_ofPort (p' : P) (ms : List (Kmsg P K)) :
    ofPort p' (ofPort p ms) = if p' = p then ofPort p ms else [] := by
  unfold ofPort
  rw [filter_filter]
  split
  · next h =>
    subst h
    simp
  next h =>
  rw [filter_eq_nil_iff]
  intro m _
  simp only [Bool.and_eq_true, decide_eq_true_eq, not_and]
  rintro rfl h'
  exact h h'

theorem ofPort_filter_ne {p' : P} (h : p' ≠ p) (ms : List (Kmsg P K)) :
    ofPort p' (ms.filter fun m => decide (m.msghRemotePort ≠ p)) = ofPort p' ms := by
  unfold ofPort
  rw [filter_filter]
  refine filter_congr fun m _ => ?_
  by_cases hm : m.msghRemotePort = p'
  · simp [hm, h]
  · simp [hm]

/-- **The messages of a port follow it** into a set or out of one. -/
theorem MqQueues.setPset (h : MqQueues w [])
    (hsource : w.queueOf p = source)
    (hdest : { w with ipPset := update w.ipPset p o }.queueOf p = dest)
    (hne : source ≠ dest) :
    MqQueues (ipcMqueueMove { w with ipPset := update w.ipPset p o } dest source p)
      [] := by
  have hother : ∀ p', p' ≠ p →
      { w with ipPset := update w.ipPset p o }.queueOf p' = w.queueOf p' := by
    intro p' hp
    simp [MqWorld.queueOf, update_of_ne hp]
  rw [ipcMqueueMove_eq hne]
  refine MqQueues.handOverAll ⟨fun q => ?_, fun q m hm => ?_, fun p' => ?_, h.seqnos, h.seqno⟩
    fun m hm => ?_
  · rw [setMessages_messages, setMessages_threads]
    refine (h.separate q).imp (fun hq => ?_) id
    split
    · next hqq =>
      subst hqq
      rw [hq, filter_nil]
    · exact hq
  · rw [setMessages_messages] at hm
    have hmp : m.msghRemotePort ≠ p ∧ m ∈ (w.mqueue q).imqMessages := by
      split at hm
      · next hqq =>
        subst hqq
        rw [mem_filter, decide_eq_true_eq] at hm
        exact ⟨hm.2, hm.1⟩
      next hqq =>
      refine ⟨fun hp => hqq ?_, hm⟩
      rw [← hsource, ← hp]
      exact h.home q m hm
    exact (h.home q m hmp.2).trans (hother _ hmp.1).symm
  · show ofPort p' w.delivered = (w.takenOf p').map (·.kmsg) ++ ofPort p' (MqWorld.mqueue
      (MqWorld.setMessages _ source _)
      ({ w with ipPset := update w.ipPset p o }.queueOf p')).imqMessages ++ _
    rw [h.flow p', setMessages_messages, ofPort_ofPort, ofPort_nil, append_nil]
    by_cases hp : p' = p
    · subst hp
      have hnone : ofPort p' (w.mqueue dest).imqMessages = [] := by
        refine filter_eq_nil_iff.mpr fun m hm => ?_
        rw [decide_eq_true_eq]
        rintro rfl
        exact hne (hsource.symm.trans (h.home dest m hm).symm)
      rw [hdest, if_neg (Ne.symm hne), if_pos rfl, hsource]
      rw [hnone, append_nil]
    rw [hother p' hp, if_neg hp, append_nil]
    split
    · next hqq =>
      rw [ofPort_filter_ne hp, hqq]
    · rfl
  · have hmp : m.msghRemotePort = p := by
      have := (mem_filter.mp hm).2
      rwa [decide_eq_true_eq] at this
    rw [hmp]
    exact hdest.symm

theorem ipcMqueueMove_frame (hne : source ≠ dest) (port : P) :
    MqFrame w (ipcMqueueMove w dest source port) := by
  rw [ipcMqueueMove_eq hne]
  have hframe (ms : List (Kmsg P K)) : MqFrame w (w.setMessages source ms) :=
    ⟨rfl, rfl, rfl, rfl, rfl, rfl, fun q h => (setMessages_threads ms q).trans h⟩
  exact (hframe _).trans (handOverAll_frame _ _ _)

theorem MqThreads.move (h : MqThreads w) (hne : source ≠ dest)
    (port : P) : MqThreads (ipcMqueueMove w dest source port) := by
  rw [ipcMqueueMove_eq hne]
  exact (h.setMessages _ _).handOverAll _ _

/-- What a routine on sets does to locks, threads, sets and members. -/
structure MqMoved (w w' : MqWorld T P S K) (ipPset : P → Option S) (ipsActive : S → Bool) :
    Prop where
  pc : w'.pc = w.pc
  imqLock : w'.imqLock = w.imqLock
  ioLock : w'.ioLock = w.ioLock
  ipPset : w'.ipPset = ipPset
  ipsActive : w'.ipsActive = ipsActive
  delivered : w'.delivered = w.delivered

/-- **`ipc_pset_remove`.** -/
theorem MqRest.psetRemove (h : MqRest w) (hset : w.ipPset p = some s) :
    MqRest (ipcPsetRemove w s p) ∧
      MqMoved w (ipcPsetRemove w s p) (update w.ipPset p none) w.ipsActive := by
  have hne : (MqObject.pset s : MqObject P S) ≠ .port p := nofun
  have hframe := ipcMqueueMove_frame (w := { w with ipPset := update w.ipPset p none })
    hne p
  refine ⟨⟨(h.threads.setPset _).move hne p, ?_, ⟨fun p' hp => ?_, fun s' hs => ?_⟩⟩, hframe.pc,
    hframe.imqLock, hframe.ioLock, hframe.ipPset, hframe.ipsActive, hframe.delivered⟩
  · refine h.queues.setPset ?_ ?_ hne
    · rw [MqWorld.queueOf, hset]
    · simp [MqWorld.queueOf]
  · refine hframe.threads _ (h.quiet.member p' ?_)
    rw [ipcPsetRemove, hframe.ipPset] at hp
    intro hn
    apply hp
    dsimp only
    by_cases hpp : p' = p
    · subst hpp
      exact update_self ..
    · rw [update_of_ne hpp]
      exact hn
  · rw [ipcPsetRemove, hframe.ipsActive] at hs
    exact hframe.threads _ (h.quiet.dead s' hs)

/-- **`ipc_pset_add`.** -/
theorem MqRest.psetAdd (h : MqRest w) (hset : w.ipPset p = none) (s : S) :
    MqRest (ipcPsetAdd w s p) ∧
      MqMoved w (ipcPsetAdd w s p) (update w.ipPset p (some s)) w.ipsActive := by
  have hne : (MqObject.port p : MqObject P S) ≠ .pset s := nofun
  have hframe := ipcMqueueMove_frame
    (w := { w with ipPset := update w.ipPset p (some s) }) hne p
  have hqueues : MqQueues (ipcMqueueMove
      { w with ipPset := update w.ipPset p (some s) } (.pset s) (.port p) p) [] := by
    refine h.queues.setPset ?_ ?_ hne
    · rw [MqWorld.queueOf, hset]
    · simp [MqWorld.queueOf]
  have hthreads := (h.threads.setPset (update w.ipPset p (some s))).move hne p
  unfold ipcPsetAdd
  refine ⟨⟨hthreads.changed _ (.inr rfl), hqueues.changed _ _, ⟨fun p' hp => ?_, fun s' hs => ?_⟩⟩,
    ?_⟩
  · rw [ipcMqueueChanged_eq] at hp ⊢
    refine (setThreads_threads _ _).trans ?_
    split
    · rfl
    next hpp =>
    refine hframe.threads _ (h.quiet.member p' ?_)
    change (ipcMqueueMove _ _ _ _).ipPset p' ≠ none at hp
    rw [hframe.ipPset] at hp
    dsimp only at hp
    rwa [update_of_ne fun he => hpp (congrArg _ he)] at hp
  · rw [ipcMqueueChanged_eq] at hs ⊢
    refine (setThreads_threads _ _).trans ?_
    change (ipcMqueueMove _ _ _ _).ipsActive s' = false at hs
    rw [hframe.ipsActive] at hs
    rw [if_neg nofun]
    exact hframe.threads _ (h.quiet.dead s' hs)
  · rw [ipcMqueueChanged_eq]
    exact { hframe with }

/-- **`ipc_pset_destroy`.** -/
theorem MqRest.psetDestroy (h : MqRest w) (s : S) : MqRest (ipcPsetDestroy w s) ∧
      MqMoved w (ipcPsetDestroy w s) w.ipPset (update w.ipsActive s false) := by
  have hthreads : MqThreads { w with ipsActive := update w.ipsActive s false } :=
    { h.threads with }
  have hqueues : MqQueues { w with ipsActive := update w.ipsActive s false } [] :=
    h.queues.mono (fun _ => rfl) (fun _ h => h) rfl rfl rfl rfl
  unfold ipcPsetDestroy
  refine ⟨⟨hthreads.changed _ (.inl rfl), hqueues.changed _ _, ⟨fun p hp => ?_, fun s' hs => ?_⟩⟩,
    ?_⟩
  · rw [ipcMqueueChanged_eq] at hp ⊢
    refine (setThreads_threads _ _).trans ?_
    rw [if_neg nofun]
    exact h.quiet.member p hp
  · rw [ipcMqueueChanged_eq] at hs ⊢
    refine (setThreads_threads _ _).trans ?_
    split
    · rfl
    next hss =>
    refine h.quiet.dead s' ?_
    change update w.ipsActive s false s' = false at hs
    rwa [update_of_ne fun he => hss (congrArg _ he)] at hs
  · rw [ipcMqueueChanged_eq]
    exact ⟨rfl, rfl, rfl, rfl, rfl, rfl⟩

/-- A thread respects the locks of the others. -/
structure MqRespects (t : T) (w w' : MqWorld T P S K) : Prop where
  imqLock : ∀ q t', t' ≠ t → w.imqLock q = some t' → w'.imqLock q = some t'
  ioLock : ∀ o t', t' ≠ t → w.ioLock o = some t' → w'.ioLock o = some t'
  ipPset : ∀ p t', t' ≠ t → w'.ipPset p ≠ w.ipPset p →
    w.imqLock (w.queueOf p) ≠ some t' ∧ w.ioLock (.port p) ≠ some t'
  ipsActive : ∀ s t', t' ≠ t → w'.ipsActive s ≠ w.ipsActive s → w.ioLock (.pset s) ≠ some t'

theorem MqRespects.refl (t : T) (w : MqWorld T P S K) : MqRespects t w w :=
  ⟨fun _ _ _ h => h, fun _ _ _ h => h, fun _ _ _ h => absurd rfl h, fun _ _ _ h => absurd rfl h⟩

theorem MqRespects.pcOk (h : MqRespects t w w') {t' : T} (hne : t' ≠ t)
    (hpc : w.PcOk t' pc) : w'.PcOk t' pc := by
  have hset : ∀ p, w.ioLock (.port p) = some t' → w'.ipPset p = w.ipPset p := fun p hp =>
    by_contra fun hc => (h.ipPset p t' hne hc).2 hp
  have hactive : ∀ s, w.ioLock (.pset s) = some t' → w'.ipsActive s = w.ipsActive s := fun s hs =>
    by_contra fun hc => h.ipsActive s t' hne hc hs
  cases pc with
  | idle last => trivial
  | blocked q => trivial
  | delivering q m =>
    obtain ⟨hlock, hq⟩ := hpc
    have hsame : w'.ipPset m.msghRemotePort = w.ipPset m.msghRemotePort :=
      by_contra fun hc => (h.ipPset _ t' hne hc).1 (hq ▸ hlock)
    refine ⟨h.imqLock q t' hne hlock, hq.trans ?_⟩
    rw [MqWorld.queueOf, MqWorld.queueOf, hsame]
  | moving p o n =>
    obtain ⟨hp, hn, ho, hnone, hact⟩ := hpc
    exact ⟨h.ioLock _ t' hne hp, h.ioLock _ t' hne hn, h.ioLock _ t' hne ho,
      (hset p hp).trans hnone, (hactive n hn).trans hact⟩
  | copiedIn q =>
    cases q with
    | port p => exact ⟨h.ioLock _ t' hne hpc.1, (hset p hpc.1).trans hpc.2⟩
    | pset s => exact ⟨h.ioLock _ t' hne hpc.1, (hactive s hpc.1).trans hpc.2⟩

theorem MqInv.of_respects (h : MqInv w) (t : T) (pc : MqPc P S K) (hr : MqRespects t w w')
    (hrest : MqRest w') (hpc : w'.pc = update w.pc t pc) (hown : w'.PcOk t pc) :
    MqInv w' := by
  refine ⟨hrest, fun t' => ?_⟩
  rw [hpc]
  by_cases hne : t' = t
  · subst hne
    rw [update_self]
    exact hown
  · rw [update_of_ne hne]
    exact hr.pcOk hne (h.pcs t')

theorem MqRespects.goto (h : MqRespects t w w') (pc : MqPc P S K) :
    MqRespects t w (w'.goto t pc) := { h with }

theorem ne_of_held {lock : MqObject P S → Option T} {o o' : MqObject P S} {t' : T}
    (ho : lock o = none ∨ lock o = some t) (hne : t' ≠ t) (ho' : lock o' = some t') : o' ≠ o := by
  rintro rfl
  rw [ho'] at ho
  rcases ho with ho | ho
  · cases ho
  · exact hne (some.inj ho)

theorem MqRespects.setIoLock (h : MqRespects t w w') {o : MqObject P S}
    (ho : w.ioLock o = none ∨ w.ioLock o = some t) (owner : Option T) :
    MqRespects t w (w'.setIoLock o owner) := by
  refine ⟨h.imqLock, fun o' t' hne ho' => ?_, h.ipPset, h.ipsActive⟩
  show update w'.ioLock o owner o' = some t'
  rw [update_of_ne (ne_of_held ho hne ho')]
  exact h.ioLock o' t' hne ho'

theorem MqRespects.setImqLock (h : MqRespects t w w')
    (ho : w.imqLock q = none ∨ w.imqLock q = some t) (owner : Option T) :
    MqRespects t w (w'.setImqLock q owner) := by
  refine ⟨fun q' t' hne hq' => ?_, h.ioLock, h.ipPset, h.ipsActive⟩
  show update w'.imqLock q owner q' = some t'
  rw [update_of_ne (ne_of_held ho hne hq')]
  exact h.imqLock q' t' hne hq'

theorem MqMoved.respects (h : MqMoved w w' (update w.ipPset p o) w.ipsActive)
    (hq : w.imqLock (w.queueOf p) = none)
    (hp : w.ioLock (.port p) = none ∨ w.ioLock (.port p) = some t) : MqRespects t w w' := by
  refine ⟨fun q t' _ hq' => ?_, fun o' t' _ ho => ?_, fun p' t' hne hp' => ?_,
    fun s t' _ hs => ?_⟩
  · rw [h.imqLock]
    exact hq'
  · rw [h.ioLock]
    exact ho
  · have hpp : p' = p := by
      by_contra hc
      rw [h.ipPset, update_of_ne hc] at hp'
      exact hp' rfl
    subst hpp
    refine ⟨fun hc => ?_, fun hc => ?_⟩
    · rw [hq] at hc
      cases hc
    · exact ne_of_held hp hne hc rfl
  · exact absurd (congrFun h.ipsActive s) hs

theorem MqRest.goto (h : MqRest w) (hpc : ∀ q, w.pc t ≠ .blocked q)
    (hpc' : ∀ q, pc ≠ .blocked q) : MqRest (w.goto t pc) := by
  refine ⟨⟨fun q t' ht => ?_, fun q t' hb hw => ?_, h.threads.nodup, fun t' => ?_⟩,
    { h.queues with },
    ⟨h.quiet.member, h.quiet.dead⟩⟩
  · obtain ⟨hb, hw⟩ := h.threads.queued q t' ht
    refine ⟨?_, hw⟩
    show update w.pc t pc t' = _
    rw [update_of_ne]
    · exact hb
    · rintro rfl
      exact hpc q hb
  · change update w.pc t pc t' = _ at hb
    by_cases hne : t' = t
    · subst hne
      rw [update_self] at hb
      exact absurd hb (hpc' q)
    · rw [update_of_ne hne] at hb
      exact h.threads.linked q t' hb hw
  · refine (h.threads.held t').trans (congrArg _ ?_)
    show handOf t' (w.pc t') _ = handOf t' (update w.pc t pc t') _
    by_cases hne : t' = t
    · subst hne
      rw [update_self, handOf_of_not_blocked hpc, handOf_of_not_blocked hpc']
    · rw [update_of_ne hne]
      rfl

theorem blocked_of_idle {pc : T → MqPc P S K} {r : MqReturn} {t' : T}
    (h : update pc t (.idle r) t' = .blocked q) : t' ≠ t ∧ pc t' = .blocked q := by
  by_cases hne : t' = t
  · subst hne
    rw [update_self] at h
    cases h
  · rw [update_of_ne hne] at h
    exact ⟨hne, h⟩

theorem MqRest.receive (h : MqRest w) (hpc : ∀ q, w.pc t ≠ .blocked q) {rest : List (Kmsg P K)}
    (hq : (w.mqueue q).imqMessages = m :: rest) :
    MqRest { ((w.setMessages q rest).take t m).goto t (.idle .success) with
      returned := w.returned ++ [⟨t, m, w.ipSeqno m.msghRemotePort⟩] } := by
  have hmem : m ∈ (w.mqueue q).imqMessages := by simp [hq]
  have hseq := h.queues.take_seqnos t m
  refine ⟨⟨fun q' t' ht => ?_, fun q' t' hb hw => ?_, fun q' => ?_, fun t' => ?_⟩,
    ⟨fun q' => ?_, fun q' x hx => ?_, fun p => ?_, fun p => (hseq p).1, fun p => (hseq p).2⟩,
    ⟨fun p hp => ?_, fun s hs => ?_⟩⟩
  · change t' ∈ ((w.setMessages q rest).mqueue q').imqThreads at ht
    rw [setMessages_threads] at ht
    obtain ⟨hb, hw⟩ := h.threads.queued q' t' ht
    refine ⟨(update_of_ne ?_ ..).trans hb, hw⟩
    rintro rfl
    exact hpc q' hb
  · show t' ∈ ((w.setMessages q rest).mqueue q').imqThreads
    rw [setMessages_threads]
    exact h.threads.linked q' t' (blocked_of_idle hb).2 hw
  · show ((w.setMessages q rest).mqueue q').imqThreads.Nodup
    rw [setMessages_threads]
    exact h.threads.nodup q'
  · show ofThread t' (w.taken ++ [⟨t, m, w.ipSeqno m.msghRemotePort⟩]) =
      ofThread t' (w.returned ++ _) ++ handOf t' (update w.pc t _ t') (w.ithState t')
    rw [ofThread_append, ofThread_append, h.threads.held t', ofThread_singleton, MqWorld.inHand]
    by_cases hne : t' = t
    · subst hne
      rw [update_self, handOf_of_not_blocked hpc, handOf_idle, append_nil, append_nil]
    · rw [if_neg fun he => hne he.symm, append_nil, append_nil,
        update_of_ne hne]
  · show ((w.setMessages q rest).mqueue q').imqMessages = [] ∨
      ((w.setMessages q rest).mqueue q').imqThreads = []
    rw [setMessages_messages, setMessages_threads]
    split
    · next hqq =>
      subst hqq
      exact .inr ((h.queues.separate q').resolve_left (by simp [hq]))
    · exact h.queues.separate q'
  · change x ∈ ((w.setMessages q rest).mqueue q').imqMessages at hx
    rw [setMessages_messages] at hx
    refine h.queues.home q' x ?_
    split at hx
    · next hqq =>
      subst hqq
      rw [hq]
      exact mem_cons_of_mem m hx
    · exact hx
  · show ofPort p w.delivered = ((w.take t m).takenOf p).map (·.kmsg) ++
      ofPort p ((w.setMessages q rest).mqueue (w.queueOf p)).imqMessages ++ ofPort p []
    rw [h.queues.flow p, take_takenOf, setMessages_messages]
    by_cases hp : m.msghRemotePort = p
    · have hqp : w.queueOf p = q := hp ▸ (h.queues.home q m hmem).symm
      rw [if_pos hp, if_pos hqp, hqp, hq, ofPort_cons, if_pos hp]
      simp
    rw [if_neg hp]
    split
    · next hqp =>
      rw [hqp, hq, ofPort_cons, if_neg hp]
      simp
    · simp
  · show ((w.setMessages q rest).mqueue (.port p)).imqThreads = []
    rw [setMessages_threads]
    exact h.quiet.member p hp
  · show ((w.setMessages q rest).mqueue (.pset s)).imqThreads = []
    rw [setMessages_threads]
    exact h.quiet.dead s hs

theorem MqRest.block (h : MqRest w) (hpc : ∀ q, w.pc t ≠ .blocked q)
    (hq : (w.mqueue q).imqMessages = []) (hstate : state.waiting = true)
    (hport : ∀ p, q = .port p → w.ipPset p = none) (hpset : ∀ s, q = .pset s → w.ipsActive s = true) :
    MqRest { (w.setThreads q ((w.mqueue q).imqThreads ++ [t])).goto t (.blocked q) with
      ithState := update w.ithState t state } := by
  have hnot : ∀ q', t ∉ (w.mqueue q').imqThreads := fun q' ht => hpc q' (h.threads.queued q' t ht).1
  have hthreads : ∀ q', ((w.setThreads q ((w.mqueue q).imqThreads ++ [t])).mqueue q').imqThreads =
      if q' = q then (w.mqueue q).imqThreads ++ [t] else (w.mqueue q').imqThreads :=
    setThreads_threads _
  refine ⟨⟨fun q' t' ht => ?_, fun q' t' hb hw => ?_, fun q' => ?_, fun t' => ?_⟩,
    ⟨fun q' => ?_, fun q' x hx => ?_, fun p => ?_, h.queues.seqnos, h.queues.seqno⟩,
    ⟨fun p hp => ?_, fun s hs => ?_⟩⟩
  · change t' ∈ ((w.setThreads q _).mqueue q').imqThreads at ht
    show update w.pc t _ t' = _ ∧ (update w.ithState t state t').waiting = true
    rw [hthreads] at ht
    by_cases hne : t' = t
    · subst hne
      rw [update_self, update_self]
      split at ht
      · next hqq =>
        subst hqq
        exact ⟨rfl, hstate⟩
      · exact absurd ht (hnot q')
    rw [update_of_ne hne, update_of_ne hne]
    refine h.threads.queued q' t' ?_
    split at ht
    · next hqq =>
      subst hqq
      exact (mem_append.mp ht).resolve_right (by simpa using hne)
    · exact ht
  · change update w.pc t _ t' = _ at hb
    change (update w.ithState t state t').waiting = true at hw
    show t' ∈ ((w.setThreads q _).mqueue q').imqThreads
    rw [hthreads]
    by_cases hne : t' = t
    · subst hne
      rw [update_self] at hb
      rw [if_pos (MqPc.blocked.inj hb).symm]
      simp
    rw [update_of_ne hne] at hb hw
    have hmem := h.threads.linked q' t' hb hw
    split
    · next hqq =>
      subst hqq
      exact mem_append_left _ hmem
    · exact hmem
  · show ((w.setThreads q _).mqueue q').imqThreads.Nodup
    rw [hthreads]
    split
    · exact (h.threads.nodup q).append (nodup_singleton t) (by simpa using hnot q)
    · exact h.threads.nodup q'
  · refine (h.threads.held t').trans (congrArg _ ?_)
    show handOf t' _ _ = handOf t' (update w.pc t _ t') (update w.ithState t _ t')
    by_cases hne : t' = t
    · subst hne
      rw [update_self, update_self, handOf_of_not_blocked hpc, handOf_of_waiting hstate]
    · rw [update_of_ne hne, update_of_ne hne]
  · show ((w.setThreads q _).mqueue q').imqMessages = [] ∨
      ((w.setThreads q _).mqueue q').imqThreads = []
    rw [setThreads_messages, hthreads]
    split
    · next hqq => exact .inl (hqq ▸ hq)
    · exact h.queues.separate q'
  · change x ∈ ((w.setThreads q _).mqueue q').imqMessages at hx
    rw [setThreads_messages] at hx
    exact h.queues.home q' x hx
  · refine (h.queues.flow p).trans ?_
    show _ = _ ++ ofPort p ((w.setThreads q _).mqueue (w.queueOf p)).imqMessages ++ _
    rw [setThreads_messages]
    rfl
  · show ((w.setThreads q _).mqueue (.port p)).imqThreads = []
    rw [hthreads, if_neg]
    · exact h.quiet.member p hp
    · intro hqq
      exact hp (hport p hqq.symm)
  · show ((w.setThreads q _).mqueue (.pset s)).imqThreads = []
    rw [hthreads, if_neg]
    · exact h.quiet.dead s hs
    · intro hqq
      exact Bool.noConfusion ((hpset s hqq.symm).symm.trans hs)

theorem MqRest.leave (h : MqRest w) (hpc : w.pc t = .blocked q)
    (hw : (w.ithState t).waiting = true) (last : MqReturn) :
    MqRest ((w.setThreads q ((w.mqueue q).imqThreads.erase t)).goto t (.idle last)) := by
  have hthreads : ∀ q', ((w.setThreads q ((w.mqueue q).imqThreads.erase t)).mqueue q').imqThreads =
      if q' = q then (w.mqueue q).imqThreads.erase t else (w.mqueue q').imqThreads :=
    setThreads_threads _
  have hempty : ∀ q', (w.mqueue q').imqThreads = [] →
      ((w.setThreads q ((w.mqueue q).imqThreads.erase t)).mqueue q').imqThreads = [] := by
    intro q' hq'
    rw [hthreads]
    split
    · next hqq => rw [← hqq, hq', erase_nil]
    · exact hq'
  refine ⟨⟨fun q' t' ht => ?_, fun q' t' hb hw' => ?_, fun q' => ?_, fun t' => ?_⟩,
    h.queues.mono (fun q' => setThreads_messages _ _) hempty rfl rfl rfl rfl,
    ⟨fun p hp => hempty _ (h.quiet.member p hp), fun s hs => hempty _ (h.quiet.dead s hs)⟩⟩
  · change t' ∈ ((w.setThreads q _).mqueue q').imqThreads at ht
    rw [hthreads] at ht
    have hmem : t' ∈ (w.mqueue q').imqThreads ∧ t' ≠ t := by
      split at ht
      · next hqq =>
        subst hqq
        exact ⟨mem_of_mem_erase ht, fun he => (h.threads.nodup q').not_mem_erase (he ▸ ht)⟩
      next hqq =>
      refine ⟨ht, fun he => hqq ?_⟩
      have := (h.threads.queued q' t' ht).1
      rw [he, hpc] at this
      exact (MqPc.blocked.inj this).symm
    obtain ⟨hb, hw'⟩ := h.threads.queued q' t' hmem.1
    exact ⟨(update_of_ne hmem.2 ..).trans hb, hw'⟩
  · show t' ∈ ((w.setThreads q _).mqueue q').imqThreads
    obtain ⟨hne, hb⟩ := blocked_of_idle hb
    have hmem := h.threads.linked q' t' hb hw'
    rw [hthreads]
    split
    · next hqq =>
      subst hqq
      exact (mem_erase_of_ne hne).mpr hmem
    · exact hmem
  · show ((w.setThreads q _).mqueue q').imqThreads.Nodup
    rw [hthreads]
    split
    · exact (h.threads.nodup q).erase t
    · exact h.threads.nodup q'
  · refine (h.threads.held t').trans (congrArg _ ?_)
    show handOf t' _ _ = handOf t' (update w.pc t _ t') (w.ithState t')
    by_cases hne : t' = t
    · subst hne
      rw [update_self, handOf_of_waiting hw, handOf_idle]
    · rw [update_of_ne hne]

theorem MqRest.return (h : MqRest w) (hpc : w.pc t = .blocked q)
    (hw : (w.ithState t).waiting = false) (last : MqReturn) :
    MqRest { w.goto t (.idle last) with returned := w.returned ++ w.inHand t } := by
  refine ⟨⟨fun q' t' ht => ?_, fun q' t' hb hw' => ?_, h.threads.nodup, fun t' => ?_⟩,
    { h.queues with },
    ⟨h.quiet.member, h.quiet.dead⟩⟩
  · obtain ⟨hb, hw'⟩ := h.threads.queued q' t' ht
    refine ⟨(update_of_ne ?_ ..).trans hb, hw'⟩
    rintro rfl
    rw [hw] at hw'
    cases hw'
  · exact h.threads.linked q' t' (blocked_of_idle hb).2 hw'
  · show ofThread t' w.taken = ofThread t' (w.returned ++ w.inHand t) ++
      handOf t' (update w.pc t _ t') (w.ithState t')
    rw [ofThread_append, h.threads.held t', append_assoc, MqWorld.inHand, MqWorld.inHand,
      ofThread_handOf]
    by_cases hne : t' = t
    · subst hne
      rw [if_pos rfl, update_self, handOf_idle, append_nil]
    · rw [if_neg fun he => hne he.symm, nil_append, update_of_ne hne]

theorem MqPc.not_blocked_of_isIdle (h : pc.isIdle = true) (q : MqObject P S) :
    pc ≠ .blocked q := by
  rintro rfl
  cases h

theorem MqInv.of_moved (h : MqInv w)
    (hrest : MqRest w') (hmoved : MqMoved w w' (update w.ipPset p o) w.ipsActive)
    (hq : w.imqLock (w.queueOf p) = none) (hp : w.ioLock (.port p) = none)
    (hpc : ∀ q, w.pc t ≠ .blocked q) (hpc' : ∀ q, pc ≠ .blocked q)
    (hown : (w'.goto t pc).PcOk t pc) : MqInv (w'.goto t pc) := by
  refine h.of_respects t _ ((hmoved.respects hq (.inl hp)).goto pc) (hrest.goto ?_ hpc') ?_ hown
  · rw [hmoved.pc]
    exact hpc
  · show update w'.pc t pc = _
    rw [hmoved.pc]

theorem idle_ne_blocked (last : MqReturn) (q : MqObject P S) :
    (.idle last : MqPc P S K) ≠ .blocked q := nofun

theorem MqRest.setIoLock (h : MqRest w) (o : MqObject P S) (owner : Option T) :
    MqRest (w.setIoLock o owner) :=
  ⟨{ h.threads with },
    { h.queues with },
    ⟨h.quiet.member, h.quiet.dead⟩⟩

theorem MqRest.setImqLock (h : MqRest w) (q : MqObject P S) (owner : Option T) :
    MqRest (w.setImqLock q owner) :=
  ⟨{ h.threads with },
    { h.queues with },
    ⟨h.quiet.member, h.quiet.dead⟩⟩

theorem MqInv.idle (h : MqInv w) (hpc : (w.pc t).isIdle = true) (last : MqReturn) :
    MqInv (w.goto t (.idle last)) :=
  h.of_respects t _ ((MqRespects.refl t w).goto _)
    (h.toMqRest.goto (MqPc.not_blocked_of_isIdle hpc) (idle_ne_blocked last)) rfl trivial

theorem handOver_delivered (ds : List (Kmsg P K)) :
    ({ w with delivered := ds } : MqWorld T P S K).handOver q m =
      { w.handOver q m with delivered := ds } := by
  unfold MqWorld.handOver
  generalize (w.mqueue q).imqThreads = ths
  cases ths <;> rfl

section

variable (h : MqInv w)
include h

theorem MqInv.deliverFinish (hpc : w.pc t = .delivering q m) :
    MqInv { ((w.handOver q m).setImqLock q none).goto t (.idle .success) with
      delivered := w.delivered ++ [m] } := by
  have hown := h.pcs t
  rw [hpc] at hown
  obtain ⟨hlock, hq⟩ := hown
  obtain ⟨fpc, fimq, fio, fset, fact, -⟩ := handOver_frame w q m
  have hqueues : MqQueues ({ w with delivered := w.delivered ++ [m] }) [m] := by
    refine ⟨h.queues.separate, h.queues.home, fun p => ?_, h.queues.seqnos, h.queues.seqno⟩
    show ofPort p (w.delivered ++ [m]) = (w.takenOf p).map (·.kmsg) ++
      ofPort p (w.mqueue (w.queueOf p)).imqMessages ++ ofPort p [m]
    rw [ofPort_append, h.queues.flow p, ofPort_nil, append_nil]
  have hthreads : MqThreads ({ w with delivered := w.delivered ++ [m] }) :=
    { h.threads with }
  have hrest : MqRest ({ w.handOver q m with delivered := w.delivered ++ [m] }) := by
    rw [← handOver_delivered]
    refine ⟨hthreads.handOver q m, hqueues.handOver hq, ⟨fun p hp => ?_, fun s hs => ?_⟩⟩
    · rw [handOver_delivered] at hp
      rw [fset] at hp
      exact handOver_threads _ (h.quiet.member p hp)
    · rw [handOver_delivered] at hs
      rw [fact] at hs
      exact handOver_threads _ (h.quiet.dead s hs)
  have hr : MqRespects t w ({ w.handOver q m with delivered := w.delivered ++ [m] }) :=
    ⟨fun q' t' _ hq' => fimq ▸ hq', fun o t' _ ho => fio ▸ ho,
      fun p t' _ hp => absurd (congrFun fset p) hp, fun s t' _ hs => absurd (congrFun fact s) hs⟩
  refine h.of_respects t (.idle .success) ((hr.setImqLock (.inr hlock) none).goto _)
    ((hrest.setImqLock q none).goto ?_ (idle_ne_blocked _)) ?_ trivial
  · intro q' hb
    change (w.handOver q m).pc t = _ at hb
    rw [fpc, hpc] at hb
    cases hb
  · show update (w.handOver q m).pc t _ = _
    rw [fpc]

theorem MqInv.psetMove (hpc : (w.pc t).isIdle = true) (hport : w.ioFree (.port p))
    {nset : Option S} (hs : psetMoveStep w t p nset = some w') : MqInv w' := by
  have hnb := MqPc.not_blocked_of_isIdle hpc
  unfold psetMoveStep at hs
  split at hs
  · cases hs
    exact h.idle hpc _
  · -- into a set
    next n hset =>
    obtain ⟨hguard, ⟨⟩⟩ := Option.ite_none_right_eq_some.mp hs
    obtain ⟨hrest, hmoved⟩ := h.toMqRest.psetAdd hset n
    refine h.of_moved hrest hmoved ?_ hport hnb (idle_ne_blocked _) trivial
    rw [MqWorld.queueOf, hset]
    exact hguard.2.2.1
  · -- out of a set
    next o hset =>
    obtain ⟨hguard, ⟨⟩⟩ := Option.ite_none_right_eq_some.mp hs
    obtain ⟨hrest, hmoved⟩ := h.toMqRest.psetRemove hset
    refine h.of_moved hrest hmoved ?_ hport hnb (idle_ne_blocked _) trivial
    rw [MqWorld.queueOf, hset]
    exact hguard.2.2
  · -- from one set into another
    next o n hset =>
    split at hs
    · cases hs
      exact h.idle hpc _
    next hon =>
    obtain ⟨hguard, hs⟩ := Option.ite_none_right_eq_some.mp hs
    obtain ⟨ho, hn, hact, -, hqo⟩ := hguard
    cases hs
    obtain ⟨hrest, hmoved⟩ := h.toMqRest.psetRemove hset
    have hqueue : w.imqLock (w.queueOf p) = none := by
      rw [MqWorld.queueOf, hset]
      exact hqo
    refine h.of_respects t (.moving p o n)
      (((((hmoved.respects hqueue (.inl hport)).setIoLock (.inl hport) _).setIoLock
        (.inl ho) _).setIoLock (.inl hn) _).goto _)
      ((((hrest.setIoLock _ _).setIoLock _ _).setIoLock _ _).goto ?_ nofun) ?_ ?_
    · show ∀ q, (ipcPsetRemove w o p).pc t ≠ _
      rw [hmoved.pc]
      exact hnb
    · show update (ipcPsetRemove w o p).pc t _ = _
      rw [hmoved.pc]
    refine ⟨?_, ?_, ?_, ?_, ?_⟩
    · simp [MqWorld.goto, MqWorld.setIoLock]
    · exact update_self ..
    · simp [MqWorld.goto, MqWorld.setIoLock, Function.update_apply]
    · show (ipcPsetRemove w o p).ipPset p = none
      rw [hmoved.ipPset, update_self]
    · show (ipcPsetRemove w o p).ipsActive n = true
      rw [hmoved.ipsActive]
      exact hact

theorem MqInv.psetMoveFinish {o n : S} (hpc : w.pc t = .moving p o n)
    (hq : w.imqFree (.port p)) :
    MqInv (((((ipcPsetAdd w n p).setIoLock (.port p) none).setIoLock (.pset o) none).setIoLock
      (.pset n) none).goto t (.idle .success)) := by
  have hown := h.pcs t
  rw [hpc] at hown
  obtain ⟨hp, hn, ho, hset, -⟩ := hown
  obtain ⟨hrest, hmoved⟩ := h.toMqRest.psetAdd hset n
  have hqueue : w.imqLock (w.queueOf p) = none := by
    rw [MqWorld.queueOf, hset]
    exact hq
  refine h.of_respects t (.idle .success)
    (((((hmoved.respects hqueue (.inr hp)).setIoLock (.inr hp) _).setIoLock (.inr ho) _).setIoLock
      (.inr hn) _).goto _)
    ((((hrest.setIoLock _ _).setIoLock _ _).setIoLock _ _).goto ?_ (idle_ne_blocked _)) ?_ trivial
  · show ∀ q, (ipcPsetAdd w n p).pc t ≠ _
    rw [hmoved.pc, hpc]
    exact nofun
  · show update (ipcPsetAdd w n p).pc t _ = _
    rw [hmoved.pc]

theorem MqInv.psetDestroy (hpc : (w.pc t).isIdle = true) (hs : w.ioFree (.pset s)) :
    MqInv ((ipcPsetDestroy w s).goto t (.idle .success)) := by
  obtain ⟨hrest, hmoved⟩ := h.toMqRest.psetDestroy s
  have hr : MqRespects t w (ipcPsetDestroy w s) := by
    refine ⟨fun q t' _ hq => hmoved.imqLock ▸ hq, fun o t' _ ho => hmoved.ioLock ▸ ho,
      fun p t' _ hp => absurd (congrFun hmoved.ipPset p) hp, fun s' t' _ hs' hc => ?_⟩
    have hss : s' = s := by
      by_contra hne
      rw [hmoved.ipsActive, update_of_ne hne] at hs'
      exact hs' rfl
    rw [hss, hs] at hc
    cases hc
  refine h.of_respects t (.idle .success) (hr.goto _) (hrest.goto ?_ (idle_ne_blocked _)) ?_ trivial
  · rw [hmoved.pc]
    exact MqPc.not_blocked_of_isIdle hpc
  · show update (ipcPsetDestroy w s).pc t _ = _
    rw [hmoved.pc]

theorem MqInv.copyin (hpc : (w.pc t).isIdle = true) {o : MqObject P S}
    (ho : w.ioFree o) (hs : copyinStep w t o = some w') : MqInv w' := by
  have hnb := MqPc.not_blocked_of_isIdle hpc
  have hlock : w.ioLock o = none ∨ w.ioLock o = some t := .inl ho
  unfold copyinStep at hs
  split at hs
  · next s =>
    obtain ⟨hact, ⟨⟩⟩ := Option.ite_none_right_eq_some.mp hs
    exact h.of_respects t _ (((MqRespects.refl t w).setIoLock hlock _).goto _)
      ((h.toMqRest.setIoLock _ _).goto hnb nofun) rfl ⟨update_self .., hact⟩
  next p =>
  split at hs
  · next hset =>
    cases hs
    exact h.of_respects t _ (((MqRespects.refl t w).setIoLock hlock _).goto _)
      ((h.toMqRest.setIoLock _ _).goto hnb nofun) rfl ⟨update_self .., hset⟩
  next s hset =>
  obtain ⟨-, hs⟩ := Option.ite_none_right_eq_some.mp hs
  split at hs
  · cases hs
    exact h.idle hpc _
  · split at hs
    · next hguard =>
      cases hs
      obtain ⟨hrest, hmoved⟩ := h.toMqRest.psetRemove hset
      have hqueue : w.imqLock (w.queueOf p) = none := by
        rw [MqWorld.queueOf, hset]
        exact hguard.2
      refine h.of_respects t (.copiedIn (.port p))
        (((hmoved.respects hqueue hlock).setIoLock hlock _).goto _)
        ((hrest.setIoLock _ _).goto ?_ nofun) ?_ ⟨update_self .., ?_⟩
      · show ∀ q, (ipcPsetRemove w s p).pc t ≠ _
        rw [hmoved.pc]
        exact hnb
      · show update (ipcPsetRemove w s p).pc t _ = _
        rw [hmoved.pc]
      · show (ipcPsetRemove w s p).ipPset p = none
        rw [hmoved.ipPset, update_self]
    · cases hs

theorem MqInv.receiveStep (hpc : w.pc t = .copiedIn q) (timeout : Option ℕ) :
    MqInv (receiveLoop (w.setIoLock q none) t q timeout) := by
  have hown := h.pcs t
  rw [hpc] at hown
  have hnb : ∀ q', w.pc t ≠ .blocked q' := by
    rw [hpc]
    exact nofun
  have hlock : w.ioLock q = none ∨ w.ioLock q = some t := by
    cases q with
    | port p => exact .inr hown.1
    | pset s => exact .inr hown.1
  have hr : MqRespects t w (w.setIoLock q none) := (MqRespects.refl t w).setIoLock hlock none
  have hrest := h.toMqRest.setIoLock q none
  unfold receiveLoop
  split
  · next m rest hq =>
    exact h.of_respects t _ { hr with } (hrest.receive hnb hq) rfl
      trivial
  next hq =>
  split
  · exact h.of_respects t _ (hr.goto _) (hrest.goto hnb (idle_ne_blocked _)) rfl trivial
  refine h.of_respects t _ { hr with }
    (hrest.block hnb hq ?_ ?_ ?_) rfl trivial
  · split <;> rfl
  · rintro p rfl
    exact hown.2
  · rintro s rfl
    exact hown.2

theorem MqInv.wake (hpc : w.pc t = .blocked q) {why : MqWait}
    (hs : receiveWake w t q why = some w') : MqInv w' := by
  have hr := MqRespects.refl t w
  have hreturn : ∀ state last, w.ithState t = state → state.waiting = false →
      MqInv { w.goto t (.idle last) with
        returned := w.returned ++ handOf t (.blocked q : MqPc P S K) state } := by
    rintro state last rfl hw
    have hrest := h.toMqRest.return hpc hw last
    rw [MqWorld.inHand, hpc] at hrest
    exact h.of_respects t _ { hr with } hrest rfl trivial
  have hleave : (w.ithState t).waiting = true → ∀ last,
      MqInv ((w.setThreads q ((w.mqueue q).imqThreads.erase t)).goto t (.idle last)) := by
    intro hw last
    exact h.of_respects t _ { hr with }
      (h.toMqRest.leave hpc hw last) rfl trivial
  unfold receiveWake at hs
  split at hs
  · next hstate =>
    cases hs
    exact hreturn _ _ hstate rfl
  · next hstate =>
    cases hs
    have := hreturn _ .rcvPortDied hstate rfl
    simpa [handOf, MqWorld.goto] using this
  · next hstate =>
    cases hs
    have := hreturn _ .rcvPortChanged hstate rfl
    simpa [handOf, MqWorld.goto] using this
  · next hnsuccess hndied hnchanged =>
    have hw : (w.ithState t).waiting = true := by
      cases hstate : w.ithState t with
      | inProgress => rfl
      | inProgressTimed => rfl
      | success m n => exact absurd hstate (hnsuccess m n)
      | portDied => exact absurd hstate hndied
      | portChanged => exact absurd hstate hnchanged
    split at hs
    · cases hs
      exact hleave hw _
    obtain ⟨-, ⟨⟩⟩ := Option.ite_none_right_eq_some.mp hs
    -- a queue with a receiver has no messages
    have hempty : (w.mqueue q).imqMessages = [] :=
      (h.queues.separate q).resolve_right (ne_nil_of_mem (h.threads.linked q t hpc hw))
    have hnone : ((w.setThreads q ((w.mqueue q).imqThreads.erase t)).mqueue q).imqMessages =
        [] := (setThreads_messages _ _).trans hempty
    unfold receiveLoop
    rw [hnone, if_pos rfl]
    exact hleave hw _

/-- **Every event keeps the invariant.** -/
theorem MqInv.step {op : MqOp T P S K} (hs : mqStep w op = some w') : MqInv w' := by
  cases op with
  | deliver t m =>
    simp only [mqStep] at hs
    split at hs
    · next hguard =>
      obtain ⟨hpc, -, hq⟩ := hguard
      cases hs
      exact h.of_respects t _ (((MqRespects.refl t w).setImqLock (.inl hq) _).goto _)
        ((h.toMqRest.setImqLock _ _).goto (MqPc.not_blocked_of_isIdle hpc) nofun) rfl
        ⟨update_self .., rfl⟩
    · cases hs
  | deliverFinish t =>
    simp only [mqStep] at hs
    split at hs <;> cases hs
    next hpc =>
    exact h.deliverFinish hpc
  | psetAdd t s p =>
    obtain ⟨hguard, hs⟩ := Option.ite_none_right_eq_some.mp hs
    obtain ⟨hpc, hp, -, -, hset, hq, -⟩ := hguard
    cases hs
    obtain ⟨hrest, hmoved⟩ := h.toMqRest.psetAdd hset s
    refine h.of_moved hrest hmoved ?_ hp (MqPc.not_blocked_of_isIdle hpc) (idle_ne_blocked _)
      trivial
    rw [MqWorld.queueOf, hset]
    exact hq
  | psetRemove t s p =>
    obtain ⟨hguard, hs⟩ := Option.ite_none_right_eq_some.mp hs
    obtain ⟨hpc, hp, -, hset, -, hq⟩ := hguard
    cases hs
    obtain ⟨hrest, hmoved⟩ := h.toMqRest.psetRemove hset
    refine h.of_moved hrest hmoved ?_ hp (MqPc.not_blocked_of_isIdle hpc) (idle_ne_blocked _)
      trivial
    rw [MqWorld.queueOf, hset]
    exact hq
  | psetMove t p nset =>
    simp only [mqStep] at hs
    split at hs
    · next hguard => exact h.psetMove hguard.1 hguard.2 hs
    · cases hs
  | psetMoveFinish t =>
    simp only [mqStep] at hs
    split at hs
    · next hpc =>
      split at hs <;> cases hs
      next hguard =>
      exact h.psetMoveFinish hpc hguard.1
    · cases hs
  | psetDestroy t s =>
    simp only [mqStep] at hs
    split at hs <;> cases hs
    next hguard =>
    exact h.psetDestroy hguard.1 hguard.2.1
  | copyin t o =>
    simp only [mqStep] at hs
    split at hs
    · next hguard => exact h.copyin hguard.1 hguard.2 hs
    · cases hs
  | receive t timeout =>
    simp only [mqStep] at hs
    split at hs
    · next hpc =>
      split at hs
      · cases hs
        exact h.receiveStep hpc timeout
      · cases hs
    · cases hs
  | wake t why =>
    simp only [mqStep] at hs
    split at hs
    · next hpc =>
      split at hs
      · exact h.wake hpc hs
      · cases hs
    · cases hs

end

/-- **The invariant holds in every state of every run.** -/
theorem mqInv_run (ops : List (MqOp T P S K)) (hs : mqRun ops = some w) : MqInv w := by
  have hinit : MqInv (MqWorld.init T P S K) :=
    ⟨⟨⟨nofun, nofun, fun _ => nodup_nil, fun _ => rfl⟩,
      ⟨fun _ => .inl rfl, nofun, fun _ => rfl, fun _ => rfl, fun _ => rfl⟩,
      ⟨fun _ _ => rfl, fun _ _ => rfl⟩⟩, fun _ => trivial⟩
  exact Trace.invariant_of_step (fun _ _ _ h hs => h.step hs) ops _ w hinit hs

/-- **First in, first out, for every port.**  In every state of every run: the messages
delivered to a port are those given to threads, in this order and with consecutive sequence
numbers, followed by the messages of the port in its queue; what a thread was given it has
returned with, or has in hand; no queue has both messages and receivers; the queue of a port
that is in a set is empty, and the messages of one that is not are in no other queue. -/
theorem fifo_of_run (ops : List (MqOp T P S K)) (hs : mqRun ops = some w) :
    (∀ p, ofPort p w.delivered =
        (w.takenOf p).map (·.kmsg) ++ ofPort p (w.mqueue (w.queueOf p)).imqMessages ∧
      (w.takenOf p).map (·.seqno) = (List.range (w.takenOf p).length).map (· % 2 ^ 32)) ∧
    (∀ t, ofThread t w.taken = ofThread t w.returned ++ w.inHand t) ∧
    (∀ q, (w.mqueue q).imqMessages = [] ∨ (w.mqueue q).imqThreads = []) ∧
    (∀ p, w.ipPset p ≠ none → (w.mqueue (.port p)).imqMessages = []) ∧
    (∀ p, w.ipPset p = none → ∀ q, ∀ m ∈ (w.mqueue q).imqMessages, m.msghRemotePort = p →
      q = .port p) := by
  have h := mqInv_run ops hs
  refine ⟨fun p => ⟨?_, h.queues.seqnos p⟩, h.threads.held, h.queues.separate, fun p hp => ?_,
    fun p hp q m hm hmp => ?_⟩
  · have := h.queues.flow p
    rwa [ofPort_nil, append_nil] at this
  · rw [eq_nil_iff_forall_not_mem]
    intro m hm
    have hq := h.queues.home _ m hm
    unfold MqWorld.queueOf at hq
    split at hq
    · next hnone => exact hp (MqObject.port.inj hq ▸ hnone)
    · cases hq
  · rw [h.queues.home q m hm, hmp, MqWorld.queueOf, hp]

/-- A message is handed to a receiver of a set, the next one follows its port out of the set. -/
def memberOps : List (MqOp Bool Bool Unit ℕ) :=
  [.psetAdd true () false, .copyin false (.pset ()), .receive false none,
    .deliver true ⟨false, 7⟩, .deliverFinish true, .deliver true ⟨false, 8⟩, .deliverFinish true,
    .psetRemove true () false, .wake false .interrupted, .copyin false (.port false),
    .receive false none]

theorem fifo_of_memberOps : ∃ w, mqRun memberOps = some w ∧
      (w.takenOf false).map (fun r => (r.kmsg.body, r.seqno)) = [(7, 0), (8, 1)] ∧
      ofPort false w.delivered = (w.takenOf false).map (·.kmsg) ++
        ofPort false (w.mqueue (w.queueOf false)).imqMessages :=
  ⟨_, rfl, rfl, ((fifo_of_run memberOps rfl).1 false).1⟩

end Osfmk.Mqueue

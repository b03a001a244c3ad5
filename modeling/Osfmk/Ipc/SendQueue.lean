import Osfmk.Lib.Trace

/-!
# Senders that wait for a port

`ipc_mqueue_send` on a port whose queue is full: the sender is put into `ip_blocked` and waits.
It is taken out, and goes through the loop again, when a message has been received, when the
queue limit is raised and when the port is destroyed.  A timeout or an interruption wakes it as
well, and it is left in `ip_blocked` then.
-/

open Function (update_of_ne update_self)
open Option (some.inj)

namespace Osfmk.Send

variable {T : Type} [DecidableEq T]

/-- The options of a send: `MACH_SEND_TIMEOUT` with the timeout, `MACH_SEND_ALWAYS`, and whether
the message is for a send-once right. -/
structure SendOption where
  timeout : Option ℕ
  always : Bool
  sendOnce : Bool
  deriving DecidableEq

/-- What a send returns. -/
inductive SendReturn
  | success
  | timedOut
  | interrupted
  deriving DecidableEq

/-- `ith_state` of a sender that waits. -/
inductive IthState
  | sendInProgress
  | success
  deriving DecidableEq

inductive WaitResult
  | awakened
  | timedOut
  | interrupted
  deriving DecidableEq

/-- A thread: outside of `ipc_mqueue_send`, with what the last one returned, or inside of it at
`thread_block`, where it sleeps until it has a wait result. -/
inductive Thread
  | outside (last : Option SendReturn)
  | inside (option : SendOption) (ithState : IthState) (waitResult : Option WaitResult)
  deriving DecidableEq

/-- A port and the threads that send to it. -/
structure SendWorld (T : Type) where
  active : Bool
  msgcount : ℕ
  qlimit : ℕ
  blocked : List T
  thread : T → Thread

/-- A new port. -/
def SendWorld.init (T : Type) (qlimit : ℕ) : SendWorld T :=
  { active := true, msgcount := 0, qlimit := qlimit, blocked := []
    thread := fun _ => .outside none }

/-- A send returns. -/
def SendWorld.return (w : SendWorld T) (t : T) (mr : SendReturn) : SendWorld T :=
  { w with thread := Function.update w.thread t (.outside (some mr)) }

/-- A pass of the loop of `ipc_mqueue_send`, up to `thread_block`. -/
def sendLoop (w : SendWorld T) (t : T) (option : SendOption) : SendWorld T :=
  if w.active = false then w.return t .success
  else if w.msgcount < w.qlimit ∨ option.always ∨ option.sendOnce then
    -- `ipc_mqueue_deliver`
    { w.return t .success with msgcount := w.msgcount + 1 }
  else if option.timeout = some 0 then w.return t .timedOut
  else
    { w with
      blocked := w.blocked ++ [t]
      thread := Function.update w.thread t (.inside option .sendInProgress none) }

/-- What follows `thread_block` in `ipc_mqueue_send`; `none` is a panic. -/
def sendWake (w : SendWorld T) (t : T) (option : SendOption) (ithState : IthState)
    (waitResult : WaitResult) : Option (SendWorld T) :=
  if ithState = .success then some (sendLoop w t option)
  else
    match waitResult with
    | .interrupted => some (w.return t .interrupted)
    | .timedOut => some (sendLoop w t { option with timeout := some 0 })
    | .awakened => none

/-- `ith_state` is set, then `thread_go`. -/
def threadGo : Thread → Thread
  | .inside option _ waitResult => .inside option .success (some (waitResult.getD .awakened))
  | .outside last => .outside last

/-- Senders are taken out of `ip_blocked` from its front and woken, a number of them at most. -/
def wakeSenders : ℕ → SendWorld T → SendWorld T
  | 0, w => w
  | n + 1, w =>
    match w.blocked with
    | [] => w
    | t :: blocked =>
      wakeSenders n { w with
        blocked := blocked, thread := Function.update w.thread t (threadGo (w.thread t)) }

/-- The end of `ipc_mqueue_finish_receive`. -/
def ipcMqueueFinishReceive (w : SendWorld T) : SendWorld T :=
  if w.active then
    let w := { w with msgcount := w.msgcount - 1 }
    if w.msgcount < w.qlimit then wakeSenders 1 w else w
  else w

def ipcPortSetQlimit (w : SendWorld T) (qlimit : ℕ) : SendWorld T :=
  let w' := if w.qlimit < qlimit then wakeSenders (qlimit - w.qlimit) w else w
  { w' with qlimit := qlimit }

/-- `ipc_port_destroy`: all senders are roused. -/
def ipcPortDestroy (w : SendWorld T) : SendWorld T :=
  { wakeSenders w.blocked.length w with active := false }

/-- The events. -/
inductive SendOp (T : Type)
  | send (t : T) (option : SendOption)
  | clearWait (t : T) (waitResult : WaitResult)
  | resume (t : T)
  | finishReceive
  | setQlimit (qlimit : ℕ)
  | destroy

/-- One event; `none` when it cannot happen. -/
def sendStep (w : SendWorld T) : SendOp T → Option (SendWorld T)
  | .send t option =>
    match w.thread t with
    | .outside _ => some (sendLoop w t option)
    | .inside .. => none
  | .clearWait t waitResult =>
    match w.thread t with
    | .inside option ithState none =>
      if waitResult = .interrupted ∨ waitResult = .timedOut ∧ option.timeout.isSome then
        some { w with thread :=
          Function.update w.thread t (.inside option ithState (some waitResult)) }
      else none
    | _ => none
  | .resume t =>
    match w.thread t with
    | .inside option ithState (some waitResult) => sendWake w t option ithState waitResult
    | _ => none
  | .finishReceive =>
    if w.active = true → 0 < w.msgcount then some (ipcMqueueFinishReceive w) else none
  | .setQlimit qlimit => if w.active then some (ipcPortSetQlimit w qlimit) else none
  | .destroy => if w.active then some (ipcPortDestroy w) else none

/-- A run from a state. -/
def sendRun (w : SendWorld T) (ops : List (SendOp T)) : Option (SendWorld T) :=
  Trace.run sendStep w ops

/-- A thread inside of `ipc_mqueue_send` that has not been woken by a waker. -/
def Thread.IsWaiting : Thread → Prop
  | .inside _ .sendInProgress _ => True
  | _ => False

/-- A thread that was woken by a waker and has not gone through the loop again. -/
def Thread.IsWoken : Thread → Prop
  | .inside _ .success _ => True
  | _ => False

/-- **What is said about `ip_blocked`**: its threads are inside of `ipc_mqueue_send`, none is in
it twice, and while it is not empty the messages and the threads that were woken fill the
queue. -/
structure BlockedOk (w : SendWorld T) : Prop where
  waiting : ∀ t ∈ w.blocked, (w.thread t).IsWaiting
  once : w.blocked.Nodup
  filled : w.blocked ≠ [] → ∃ woken : List T, woken.Nodup ∧
    (∀ t, t ∈ woken ↔ (w.thread t).IsWoken) ∧ w.qlimit ≤ w.msgcount + woken.length

/-- **The condition on an event**: a sender that goes on has been taken out of `ip_blocked`. -/
def TakenOut (w : SendWorld T) (op : SendOp T) : Prop := ∀ t, op = .resume t → t ∉ w.blocked

/-- Every event of a run meets the condition. -/
def AllTakenOut (w : SendWorld T) (ops : List (SendOp T)) : Prop :=
  Trace.Meets sendStep TakenOut w ops

/-- The threads in `ip_blocked` and those woken. -/
structure Linked (w : SendWorld T) (woken : List T) : Prop where
  blocked_nodup : w.blocked.Nodup
  woken_nodup : woken.Nodup
  mem_blocked : ∀ t, t ∈ w.blocked ↔ (w.thread t).IsWaiting
  mem_woken : ∀ t, t ∈ woken ↔ (w.thread t).IsWoken

/-- The invariant: with the threads woken, the queue is full while senders wait; a dead port has
none. -/
structure SendInv (w : SendWorld T) (woken : List T) : Prop extends Linked w woken where
  filled : w.blocked ≠ [] → w.qlimit ≤ w.msgcount + woken.length
  dead : w.active = false → w.blocked = []

variable {w w' : SendWorld T} {woken : List T} {t : T} {option : SendOption}

omit [DecidableEq T] in
theorem SendInv.blockedOk (h : SendInv w woken) : BlockedOk w where
  waiting := fun t ht => (h.mem_blocked t).mp ht
  once := h.blocked_nodup
  filled := fun hne => ⟨woken, h.woken_nodup, h.mem_woken, h.filled hne⟩

theorem Linked.update (h : Linked w woken) {th : Thread} (hb : t ∉ w.blocked)
    (hth : ¬ th.IsWaiting ∧ ¬ th.IsWoken) :
    Linked { w with thread := Function.update w.thread t th } (woken.erase t) where
  blocked_nodup := h.blocked_nodup
  woken_nodup := h.woken_nodup.erase t
  mem_blocked := by
    intro t'
    by_cases ht : t' = t
    · subst ht
      simp [hb, hth.1]
    · simpa [update_of_ne ht] using h.mem_blocked t'
  mem_woken := by
    intro t'
    rw [h.woken_nodup.mem_erase_iff]
    by_cases ht : t' = t
    · subst ht
      simp [hth.2]
    · simpa [update_of_ne ht, ht] using h.mem_woken t'

theorem Linked.return (h : Linked w woken) (hb : t ∉ w.blocked) (mr : SendReturn) :
    Linked (w.return t mr) (woken.erase t) :=
  h.update hb ⟨id, id⟩

omit [DecidableEq T] in
theorem length_le_erase_add_one [BEq T] [LawfulBEq T] (l : List T) (t : T) :
    l.length ≤ (l.erase t).length + 1 := by
  rw [List.length_erase]
  split <;> omega

/-- **A pass of the loop** of a sender that is not in `ip_blocked`. -/
theorem SendInv.sendLoop (h : SendInv w woken) (hb : t ∉ w.blocked) :
    SendInv (sendLoop w t option) (woken.erase t) := by
  have hlen := length_le_erase_add_one woken t
  unfold Send.sendLoop
  split
  · next hdead =>
    have hempty := h.dead hdead
    exact ⟨h.toLinked.return hb _, fun hne => absurd hempty hne, h.dead⟩
  split
  · have hret := h.toLinked.return hb .success
    refine ⟨{ hret with },
      fun hne => ?_, h.dead⟩
    have := h.filled hne
    show w.qlimit ≤ w.msgcount + 1 + _
    omega
  next hactive hfull =>
  have hge : w.qlimit ≤ w.msgcount := by
    by_contra hlt
    exact hfull (.inl (by omega))
  split
  · refine ⟨h.toLinked.return hb _, fun _ => ?_, h.dead⟩
    exact Nat.le_trans hge (Nat.le_add_right _ _)
  -- the sender waits
  refine ⟨⟨?_, h.woken_nodup.erase t, fun t' => ?_, fun t' => ?_⟩, fun _ => ?_,
    fun hd => absurd hd hactive⟩
  · refine List.nodup_append.mpr ⟨h.blocked_nodup, List.nodup_singleton t, fun a ha b hb' => ?_⟩
    rw [List.mem_singleton.mp hb']
    rintro rfl
    exact hb ha
  · by_cases ht : t' = t
    · subst ht
      simp [Thread.IsWaiting]
    · simpa [update_of_ne ht, ht] using h.mem_blocked t'
  · rw [h.woken_nodup.mem_erase_iff]
    by_cases ht : t' = t
    · subst ht
      simp [Thread.IsWoken]
    · simpa [update_of_ne ht, ht] using h.mem_woken t'
  · exact Nat.le_trans hge (Nat.le_add_right _ _)

/-- **Senders are woken**: as many as there are, or as many as asked for. -/
theorem Linked.wakeSenders (h : Linked w woken) (n : ℕ) :
    ∃ woken', Linked (wakeSenders n w) woken' ∧ (Send.wakeSenders n w).blocked = w.blocked.drop n ∧
      (Send.wakeSenders n w).msgcount = w.msgcount ∧ (Send.wakeSenders n w).qlimit = w.qlimit ∧
      (Send.wakeSenders n w).active = w.active ∧
      (w.blocked.drop n ≠ [] → woken'.length = woken.length + n) := by
  induction n generalizing w woken with
  | zero => exact ⟨woken, h, rfl, rfl, rfl, rfl, fun _ => rfl⟩
  | succ n ih =>
    rw [Send.wakeSenders]
    cases hb : w.blocked with
    | nil => exact ⟨woken, h, hb, rfl, rfl, rfl, fun hne => absurd rfl hne⟩
    | cons t blocked =>
      have hnd := h.blocked_nodup
      rw [hb, List.nodup_cons] at hnd
      have hwait := (h.mem_blocked t).mp (by rw [hb]; exact List.mem_cons_self)
      have hnotwoken : t ∉ woken := fun hm => by
        have := (h.mem_woken t).mp hm
        revert hwait this
        cases w.thread t with
        | outside => exact fun hf => hf.elim
        | inside _ i _ => cases i <;> exact fun h1 h2 => by first | exact h1.elim | exact h2.elim
      have hgo : (threadGo (w.thread t)).IsWoken ∧ ¬ (threadGo (w.thread t)).IsWaiting := by
        revert hwait
        cases w.thread t with
        | outside => exact fun hf => hf.elim
        | inside => exact fun _ => ⟨trivial, id⟩
      have hstep : Linked { w with
          blocked := blocked, thread := Function.update w.thread t (threadGo (w.thread t)) }
          (t :: woken) := by
        refine ⟨hnd.2, List.nodup_cons.mpr ⟨hnotwoken, h.woken_nodup⟩, fun t' => ?_, fun t' => ?_⟩
        · by_cases ht : t' = t
          · subst ht
            simp [hnd.1, hgo.2]
          · simpa [hb, update_of_ne ht, ht] using h.mem_blocked t'
        · by_cases ht : t' = t
          · subst ht
            simp [hgo.1]
          · simpa [update_of_ne ht, ht] using h.mem_woken t'
      obtain ⟨woken', h1, h2, h3, h4, h5, h6⟩ := ih hstep
      refine ⟨woken', h1, h2, h3, h4, h5, fun hne => ?_⟩
      rw [h6 hne, List.length_cons]
      omega

/-- **One event** that meets the condition. -/
theorem SendInv.step (h : SendInv w woken) {op : SendOp T} (hs : sendStep w op = some w')
    (hc : TakenOut w op) : ∃ woken', SendInv w' woken' := by
  cases op with
  | send t option =>
    rw [sendStep] at hs
    split at hs <;> cases hs
    next last ht =>
    refine ⟨_, h.sendLoop fun hb => ?_⟩
    have := (h.mem_blocked t).mp hb
    rw [ht] at this
    exact this
  | clearWait t waitResult =>
    rw [sendStep] at hs
    split at hs
    · next option ithState ht =>
      obtain ⟨-, ⟨⟩⟩ := Option.ite_none_right_eq_some.mp hs
      refine ⟨woken, ⟨h.blocked_nodup, h.woken_nodup, fun t' => ?_, fun t' => ?_⟩, h.filled,
        h.dead⟩
      · rw [h.mem_blocked]
        by_cases htt : t' = t
        · subst htt
          dsimp only
          rw [ht, update_self]
          cases ithState <;> rfl
        · simp [update_of_ne htt]
      · rw [h.mem_woken]
        by_cases htt : t' = t
        · subst htt
          dsimp only
          rw [ht, update_self]
          cases ithState <;> rfl
        · simp [update_of_ne htt]
    · cases hs
  | resume t =>
    have hb := hc t rfl
    rw [sendStep] at hs
    split at hs
    · next option ithState waitResult ht =>
      have hi : ithState = .success := by
        cases ithState with
        | success => rfl
        | sendInProgress => exact absurd ((h.mem_blocked t).mpr (by rw [ht]; trivial)) hb
      unfold sendWake at hs
      rw [if_pos hi] at hs
      cases hs
      exact ⟨_, h.sendLoop hb⟩
    · cases hs
  | finishReceive =>
    rw [sendStep] at hs
    split at hs
    · cases hs
      unfold ipcMqueueFinishReceive
      split
      · next hpos hactive =>
        have hpos := hpos hactive
        have hl : Linked { w with msgcount := w.msgcount - 1 } woken :=
          { h with }
        dsimp only
        split
        · obtain ⟨woken', h1, h2, h3, h4, h5, h6⟩ := hl.wakeSenders 1
          refine ⟨woken', h1, fun hne => ?_, fun hd => ?_⟩
          · rw [h2] at hne
            have hlen := h6 hne
            have hfull := h.filled fun he => hne (by rw [he]; rfl)
            rw [h3, h4]
            dsimp only
            omega
          · rw [h5] at hd
            exact absurd hactive (by simp [show w.active = false from hd])
        · next hfull => exact ⟨woken, hl, fun _ => by dsimp only at hfull ⊢; omega, h.dead⟩
      · exact ⟨woken, h⟩
    · cases hs
  | setQlimit qlimit =>
    obtain ⟨hactive, ⟨⟩⟩ := Option.ite_none_right_eq_some.mp hs
    unfold ipcPortSetQlimit
    dsimp only
    split
    · next hlt =>
      obtain ⟨woken', h1, h2, h3, h4, h5, h6⟩ := h.toLinked.wakeSenders (qlimit - w.qlimit)
      refine ⟨woken', { h1 with },
        fun hne => ?_, fun hd => ?_⟩
      · dsimp only at hne ⊢
        rw [h2] at hne
        have hlen := h6 hne
        have hfull := h.filled fun he => hne (by rw [he, List.drop_nil])
        rw [h3]
        omega
      · dsimp only at hd
        rw [h5, hactive] at hd
        cases hd
    · next hge =>
      refine ⟨woken, { h with },
        fun hne => ?_, h.dead⟩
      have := h.filled hne
      dsimp only
      omega
  | destroy =>
    obtain ⟨-, ⟨⟩⟩ := Option.ite_none_right_eq_some.mp hs
    obtain ⟨woken', h1, h2, -⟩ := h.toLinked.wakeSenders w.blocked.length
    rw [List.drop_length] at h2
    exact ⟨woken', { h1 with },
      fun hne => absurd h2 hne, fun _ => h2⟩

theorem SendInv.init (T : Type) [DecidableEq T] (qlimit : ℕ) :
    SendInv (SendWorld.init T qlimit) [] where
  blocked_nodup := .nil
  woken_nodup := .nil
  mem_blocked := fun _ => ⟨fun hm => absurd hm List.not_mem_nil, fun hf => hf.elim⟩
  mem_woken := fun _ => ⟨fun hm => absurd hm List.not_mem_nil, fun hf => hf.elim⟩
  filled := fun hne => absurd rfl hne
  dead := fun _ => rfl

theorem SendInv.run (h : SendInv w woken) {ops : List (SendOp T)} (hs : sendRun w ops = some w')
    (hc : AllTakenOut w ops) : ∃ woken', SendInv w' woken' :=
  Trace.invariant (I := fun w => ∃ woken, SendInv w woken) (fun _ _ _ ⟨_, h⟩ hc hs => h.step hs hc)
    ops w w' ⟨woken, h⟩ hc hs

/-- **`ip_blocked` in every run** of senders, receivers, changes of the limit and the destruction
of the port in which no sender goes on while it is in `ip_blocked`. -/
theorem blockedOk_of_run {qlimit : ℕ} {ops : List (SendOp T)}
    (hs : sendRun (SendWorld.init T qlimit) ops = some w')
    (hc : AllTakenOut (SendWorld.init T qlimit) ops) : BlockedOk w' := by
  obtain ⟨woken, h⟩ := (SendInv.init T qlimit).run hs hc
  exact h.blockedOk

/-- A send without options. -/
def plain : SendOption := ⟨none, false, false⟩

/-- The second sender waits, and is woken when the first message has been received. -/
theorem blockedOk_of_run_woken : ∃ w' : SendWorld ℕ, sendRun (SendWorld.init ℕ 1)
        [.send 0 plain, .send 1 ⟨some 10, false, false⟩, .clearWait 1 .timedOut, .finishReceive,
          .resume 1, .send 2 plain] = some w' ∧
      w'.blocked = [2] ∧ BlockedOk w' := by
  obtain ⟨w', hw'⟩ : ∃ w' : SendWorld ℕ, sendRun (SendWorld.init ℕ 1)
      [.send 0 plain, .send 1 ⟨some 10, false, false⟩, .clearWait 1 .timedOut, .finishReceive,
        .resume 1, .send 2 plain] = some w' := ⟨_, rfl⟩
  refine ⟨w', hw', ?_, blockedOk_of_run hw' ?_⟩
  · obtain rfl := some.inj hw'
    rfl
  · refine ⟨nofun, fun w1 h1 => ⟨nofun, fun w2 h2 => ⟨nofun, fun w3 h3 => ⟨nofun, fun w4 h4 =>
      ⟨fun t ht => ?_, fun w5 _ => ⟨nofun, fun _ _ => trivial⟩⟩⟩⟩⟩⟩
    cases h1
    cases h2
    cases h3
    cases h4
    exact List.not_mem_nil

/-- **A sender that gives up stays in `ip_blocked`**: thread 1 has returned
`MACH_SEND_TIMED_OUT` and is in `ip_blocked`; the wakeup for thread 2 then goes to it, and thread 2
waits for a queue that is empty. -/
theorem blocked_after_timeout : ∃ w w' : SendWorld (Fin 3), sendRun (SendWorld.init (Fin 3) 1)
        [.send 0 plain, .send 1 ⟨some 10, false, false⟩, .clearWait 1 .timedOut, .resume 1] =
          some w ∧
      1 ∈ w.blocked ∧ w.thread 1 = .outside (some .timedOut) ∧ ¬ BlockedOk w ∧
      sendRun w [.send 2 plain, .finishReceive] = some w' ∧
      w'.blocked = [2] ∧ w'.msgcount = 0 ∧ w'.qlimit = 1 ∧ ∀ t, ¬ (w'.thread t).IsWoken := by
  refine ⟨_, _, rfl, by decide, rfl, fun h => h.waiting 1 (by decide), rfl, rfl, rfl, rfl,
    fun t => ?_⟩
  match t with
  | 0 => exact id
  | 1 => exact id
  | 2 => exact id

end Osfmk.Send

import Mathlib

/-!
# Packet filters

A network filter is a list of words that a program gives to the kernel, to be run on every packet that
comes in (`device/net_io.c`, `device/net_status.h`).  Each word says what is pushed on a stack, and
which operator is applied to the two elements on top of it.  `parse_net_filter` checks a filter when
it is set; `net_do_filter` runs it, without further checks of the stack.

## Main results

* `run_ends` — a run of a filter that has been accepted returns what the filter means.
* `netDoFilter_returns` — when it stays in its sandbox.
* `netDoFilter_of_no_short` — filters without short-circuit operators.
-/

open Function (update)
open List

namespace Osfmk.NetFilter

/-- `filter_t`, and the words of a packet. -/
abbrev Word := BitVec 16

/-- The elements of the stack. -/
abbrev Value := BitVec 32

def netFilterStackDepth : ℤ := 32

def netHdwHdrMax : ℕ := 64

/-- `NETF_ARG`: what is pushed. -/
inductive Arg
  | nopush
  | pushlit
  | pushzero
  | pushind
  | pushhdrind
  | pushword (code : ℕ)
  | pushhdr (i : ℕ)
  | pushstk (i : ℕ)
  deriving DecidableEq

/-- The argument of an instruction. -/
def netfArg (w : Word) : Arg :=
  let arg := w.toNat % 1024
  if arg = 0 then .nopush
  else if arg = 1 then .pushlit
  else if arg = 2 then .pushzero
  else if arg = 14 then .pushind
  else if arg = 15 then .pushhdrind
  else if arg ≥ 992 then .pushstk (arg - 992)
  else if arg ≥ 960 then .pushhdr (arg - 960)
  else .pushword arg

/-- The operators that leave a result. -/
inductive BinOp
  | eq | lt | le | gt | ge | and | or | xor | neq | lsh | rsh | add | sub
  deriving DecidableEq

/-- The operators that may decide about the packet. -/
inductive ShortOp
  | cor | cand | cnor | cnand
  deriving DecidableEq

inductive Op
  | nop
  | bin (op : BinOp)
  | short (op : ShortOp)
  | undefined
  deriving DecidableEq

/-- `NETF_OP`: the operator of an instruction. -/
def netfOp (w : Word) : Op :=
  match w.toNat / 1024 with
  | 0 => .nop
  | 1 => .bin .eq
  | 2 => .bin .lt
  | 3 => .bin .le
  | 4 => .bin .gt
  | 5 => .bin .ge
  | 6 => .bin .and
  | 7 => .bin .or
  | 8 => .bin .xor
  | 9 => .short .cor
  | 10 => .short .cand
  | 11 => .short .cnor
  | 12 => .short .cnand
  | 13 => .bin .neq
  | 14 => .bin .lsh
  | 15 => .bin .rsh
  | 16 => .bin .add
  | 17 => .bin .sub
  | _ => .undefined

/-- What the machine makes of a shift by the width of a word or more. -/
structure Machine where
  shl : Value → Value → Value
  sar : Value → Value → Value

/-- A truth value. -/
def truth (b : Bool) : Value := if b then 1 else 0

/-- The result of an operator; comparisons are unsigned, since `arg` is. -/
def BinOp.eval (m : Machine) (top arg : Value) : BinOp → Value
  | .and => top &&& arg
  | .or => top ||| arg
  | .xor => top ^^^ arg
  | .eq => truth (top == arg)
  | .neq => truth (top != arg)
  | .lt => truth (top.ult arg)
  | .le => truth (top.ule arg)
  | .gt => truth (arg.ult top)
  | .ge => truth (arg.ule top)
  | .lsh => (if arg.toNat < 32 then top <<< arg.toNat else m.shl top arg) &&& 0xFFFF
  | .rsh => if arg.toNat < 32 then top.sshiftRight arg.toNat else m.sar top arg
  | .add => (top + arg) &&& 0xFFFF
  | .sub => (top - arg) &&& 0xFFFF

/-- What an operator decides. -/
def ShortOp.decides (top arg : Value) : ShortOp → Option Bool
  | .cor => if top = arg then some true else none
  | .cand => if top ≠ arg then some false else none
  | .cnor => if top = arg then some false else none
  | .cnand => if top ≠ arg then some true else none

/-- A packet: its words, its length in bytes, and the words of its header. -/
structure Packet where
  data : ℕ → Word
  count : ℕ
  header : ℕ → Word

/-- The number of words of a packet. -/
def Packet.words (pk : Packet) : ℕ := pk.count / 2

/-! ### The check -/

/-- What `parse_net_filter` makes of an argument: the words that are left, and its stack pointer. -/
def parseArg (arg : Arg) (rest : List Word) (sp : ℤ) : Option (List Word × ℤ) :=
  match arg with
  | .nopush => some (rest, sp)
  | .pushzero => some (rest, sp - 1)
  | .pushlit =>
    match rest with
    | [] => none
    | _ :: rest => some (rest, sp - 1)
  | .pushind => if sp ≥ netFilterStackDepth then none else some (rest, sp)
  | .pushhdrind => if sp ≥ netFilterStackDepth then none else some (rest, sp)
  | .pushstk i => if i + sp > netFilterStackDepth then none else some (rest, sp - 1)
  | .pushhdr i => if i ≥ netHdwHdrMax / 2 then none else some (rest, sp - 1)
  | .pushword _ => some (rest, sp - 1)

/-- What it makes of an operator. -/
def parseOp (op : Op) (sp : ℤ) : Option ℤ :=
  if sp < 2 then none
  else
    match op with
    | .nop => some sp
    | .bin _ => if sp > netFilterStackDepth - 2 then none else some (sp + 1)
    | .short _ => if sp > netFilterStackDepth - 2 then none else some (sp + 1)
    | .undefined => none

/-- The loop of `parse_net_filter`, for at most `n` instructions. -/
def parse : ℕ → List Word → ℤ → Bool
  | _, [], _ => true
  | 0, _ :: _, _ => false
  | n + 1, w :: rest, sp =>
    match parseArg (netfArg w) rest sp with
    | none => false
    | some r =>
      match parseOp (netfOp w) r.2 with
      | none => false
      | some sp' => parse n r.1 sp'

def parseNetFilter (filter : List Word) : Bool := parse filter.length filter netFilterStackDepth

/-! ### The run -/

/-- What is accessed. -/
inductive Access
  | stack (i : ℤ)
  | header (i : ℕ)
  | data (i : ℕ)
  | filter
  deriving DecidableEq

/-- How a run ends: `net_do_filter` returns, or there is an access outside of the sandbox. -/
inductive Stop
  | returns (b : Bool)
  | fault (a : Access)
  deriving DecidableEq

/-- The stack and the stack pointer. -/
structure State where
  sp : ℤ
  stack : ℤ → Value

/-- An access to the stack. -/
def checkStack (i : ℤ) : Except Stop Unit :=
  if 0 ≤ i ∧ i ≤ netFilterStackDepth then .ok () else .error (.fault (.stack i))

def State.read (s : State) (i : ℤ) : Except Stop Value := (checkStack i).map fun _ => s.stack i

def State.write (s : State) (i : ℤ) (x : Value) : Except Stop State :=
  (checkStack i).map fun _ => { s with stack := update s.stack i x }

def Packet.readHeader (pk : Packet) (i : ℕ) : Except Stop Word :=
  if i < netHdwHdrMax / 2 then .ok (pk.header i) else .error (.fault (.header i))

def Packet.readData (pk : Packet) (i : ℕ) : Except Stop Word :=
  if i < pk.words then .ok (pk.data i) else .error (.fault (.data i))

/-- The next word of the filter. -/
def fetch : List Word → Except Stop (Word × List Word)
  | [] => .error (.fault .filter)
  | w :: rest => .ok (w, rest)

/-- A word as an `unsigned int`. -/
def extend (w : Word) : Value := w.setWidth 32

/-- The argument of an instruction, with the words that are left and the state. -/
def runArg (pk : Packet) (rest : List Word) (s : State) : Arg → Except Stop (Value × List Word × State)
  | .nopush => (s.read s.sp).map fun x => (x, rest, { s with sp := s.sp + 1 })
  | .pushzero => .ok (0, rest, s)
  | .pushlit => (fetch rest).map fun r => (extend r.1, r.2, s)
  | .pushind => (s.read s.sp).bind fun x =>
      if x.toNat ≥ pk.words then .error (.returns false)
      else (pk.readData x.toNat).map fun w => (extend w, rest, { s with sp := s.sp + 1 })
  | .pushhdrind => (s.read s.sp).bind fun x =>
      if x.toNat ≥ netHdwHdrMax / 2 then .error (.returns false)
      else (pk.readHeader x.toNat).map fun w => (extend w, rest, { s with sp := s.sp + 1 })
  | .pushstk i => (s.read (s.sp + i)).map fun x => (x, rest, s)
  | .pushhdr i => (pk.readHeader i).map fun w => (extend w, rest, s)
  | .pushword code =>
      -- for a code below 16 the difference wraps around
      let i := BitVec.ofNat 32 code - 16
      if i.toNat ≥ pk.words then .error (.returns false)
      else (pk.readData i.toNat).map fun w => (extend w, rest, s)

/-- The operator of an instruction. -/
def runOp (m : Machine) (arg : Value) (s : State) : Op → Except Stop State
  | .nop => (s.write (s.sp - 1) arg).map fun s => { s with sp := s.sp - 1 }
  | .bin op => (s.read s.sp).bind fun top => s.write s.sp (op.eval m top arg)
  | .short op => (s.read s.sp).bind fun top =>
      match op.decides top arg with
      | some b => .error (.returns b)
      | none => .ok { s with sp := s.sp + 1 }
  | .undefined => .ok s

/-- The end of the filter: the packet is accepted if the element on top is not 0. -/
def finish : Except Stop Value → Stop
  | .error stop => stop
  | .ok x => .returns (decide (x ≠ 0))

/-- The loop of `net_do_filter`, for at most `n` instructions. -/
def run (m : Machine) (pk : Packet) : ℕ → List Word → State → Option Stop
  | _, [], s => some (finish (s.read s.sp))
  | 0, _ :: _, _ => none
  | n + 1, w :: rest, s =>
    match runArg pk rest s (netfArg w) with
    | .error stop => some stop
    | .ok r =>
      match runOp m r.1 r.2.2 (netfOp w) with
      | .error stop => some stop
      | .ok s' => run m pk n r.2.1 s'

/-- `net_do_filter`; `stack` is what is on the stack before, and one turn of the loop takes at least
one word. -/
def netDoFilter (m : Machine) (stack : ℤ → Value) (filter : List Word) (pk : Packet) : Option Stop :=
  run m pk filter.length filter
    ⟨netFilterStackDepth, update stack netFilterStackDepth (truth true)⟩

/-! ### The meaning of a filter -/

/-- What a filter says about a packet: whether it is accepted, or that the stack was empty where an
element was wanted. -/
inductive Verdict
  | accepts (b : Bool)
  | underflow
  deriving DecidableEq

/-- The element on top of the stack, and the others. -/
def pop : List Value → Except Verdict (Value × List Value)
  | [] => .error .underflow
  | x :: st => .ok (x, st)

/-- The argument of an instruction, with the words that are left and the stack. -/
def meanArg (pk : Packet) (rest : List Word) (st : List Value) :
    Arg → Except Verdict (Value × List Word × List Value)
  | .nopush => (pop st).map fun r => (r.1, rest, r.2)
  | .pushzero => .ok (0, rest, st)
  | .pushlit => .ok (extend (rest.headD 0), rest.tail, st)
  | .pushind => (pop st).bind fun r =>
      if r.1.toNat ≥ pk.words then .error (.accepts false)
      else .ok (extend (pk.data r.1.toNat), rest, r.2)
  | .pushhdrind => (pop st).bind fun r =>
      if r.1.toNat ≥ netHdwHdrMax / 2 then .error (.accepts false)
      else .ok (extend (pk.header r.1.toNat), rest, r.2)
  | .pushstk i => (pop (st.drop i)).map fun r => (r.1, rest, st)
  | .pushhdr i => .ok (extend (pk.header i), rest, st)
  | .pushword code =>
      let i := BitVec.ofNat 32 code - 16
      if i.toNat ≥ pk.words then .error (.accepts false)
      else .ok (extend (pk.data i.toNat), rest, st)

/-- The operator of an instruction. -/
def meanOp (m : Machine) (arg : Value) (st : List Value) : Op → Except Verdict (List Value)
  | .nop => .ok (arg :: st)
  | .bin op => (pop st).map fun r => op.eval m r.1 arg :: r.2
  | .short op => (pop st).bind fun r =>
      match op.decides r.1 arg with
      | some b => .error (.accepts b)
      | none => .ok r.2
  | .undefined => .ok st

/-- The end of the filter. -/
def conclude : Except Verdict (Value × List Value) → Verdict
  | .error v => v
  | .ok r => .accepts (decide (r.1 ≠ 0))

/-- At most `n` instructions. -/
def mean (m : Machine) (pk : Packet) : ℕ → List Word → List Value → Verdict
  | 0, _, st => conclude (pop st)
  | _ + 1, [], st => conclude (pop st)
  | n + 1, w :: rest, st =>
    match meanArg pk rest st (netfArg w) with
    | .error v => v
    | .ok r =>
      match meanOp m r.1 r.2.2 (netfOp w) with
      | .error v => v
      | .ok st' => mean m pk n r.2.1 st'

/-- **What a filter says about a packet.**  The stack holds the value true at the beginning. -/
def meaning (m : Machine) (filter : List Word) (pk : Packet) : Verdict :=
  mean m pk filter.length filter [truth true]

/-- The array holds the list, from the stack pointer to the end. -/
structure Holds (s : State) (st : List Value) : Prop where
  sp : s.sp = netFilterStackDepth + 1 - st.length
  get : ∀ (i : ℕ) (h : i < st.length), s.stack (s.sp + i) = st.get ⟨i, h⟩

variable {s s' : State} {st : List Value} {m : Machine} {pk : Packet}

/-- The outcome of a part of an instruction: a value, with what it means; the same decision; or a fault
where the stack is empty. -/
inductive Agrees {α β : Type} (R : α → β → Prop) : Except Stop α → Except Verdict β → Prop
  | ok {a : α} {b : β} (h : R a b) : Agrees R (.ok a) (.ok b)
  | returns (b : Bool) : Agrees R (.error (.returns b)) (.error (.accepts b))
  | fault (a : Access) : Agrees R (.error (.fault a)) (.error .underflow)

theorem Agrees.bind {α β γ δ : Type} {R : α → β → Prop} {Q : γ → δ → Prop} {x : Except Stop α}
    {y : Except Verdict β} {f : α → Except Stop γ} {g : β → Except Verdict δ} (h : Agrees R x y)
    (hfg : ∀ a b, R a b → Agrees Q (f a) (g b)) : Agrees Q (x.bind f) (y.bind g) := by
  cases h with
  | ok h => exact hfg _ _ h
  | returns b => exact .returns b
  | fault a => exact .fault a

theorem Agrees.map {α β γ δ : Type} {R : α → β → Prop} {Q : γ → δ → Prop} {x : Except Stop α}
    {y : Except Verdict β} {f : α → γ} {g : β → δ} (h : Agrees R x y)
    (hfg : ∀ a b, R a b → Q (f a) (g b)) : Agrees Q (x.map f) (y.map g) := by
  cases h with
  | ok h => exact .ok (hfg _ _ h)
  | returns b => exact .returns b
  | fault a => exact .fault a

section

variable (h : Holds s st)
include h

theorem Holds.sp_le : s.sp ≤ netFilterStackDepth + 1 := by
  rw [h.sp]
  omega

/-- **An element of the stack is read**, where there is one. -/
theorem Holds.read (hsp : 0 ≤ s.sp) (i : ℕ) :
    Agrees (fun x r => x = r.1 ∧ (i = 0 → Holds { s with sp := s.sp + 1 } r.2))
      (s.read (s.sp + i)) (pop (st.drop i)) := by
  by_cases hi : i < st.length
  · rw [drop_eq_getElem_cons hi]
    have hbound : 0 ≤ s.sp + i ∧ s.sp + i ≤ netFilterStackDepth := by
      have := h.sp
      omega
    unfold State.read checkStack
    rw [if_pos hbound]
    refine .ok ⟨h.get i hi, fun hz => ?_⟩
    subst hz
    refine ⟨?_, fun j hj => ?_⟩
    · rw [length_drop]
      show s.sp + 1 = _
      rw [h.sp]
      omega
    · have hj' : j + 1 < st.length := by
        rw [length_drop] at hj
        omega
      have hget := h.get (j + 1) hj'
      rw [show s.sp + 1 + (j : ℤ) = s.sp + ((j + 1 : ℕ) : ℤ) by push_cast; ring, hget]
      simp [get_eq_getElem]
  · rw [drop_eq_nil_of_le (not_lt.mp hi)]
    have hbound : ¬ (0 ≤ s.sp + i ∧ s.sp + i ≤ netFilterStackDepth) := by
      have := h.sp
      omega
    unfold State.read checkStack
    rw [if_neg hbound]
    exact .fault _

theorem Holds.top (hsp : 0 ≤ s.sp) :
    Agrees (fun x r => x = r.1 ∧ Holds { s with sp := s.sp + 1 } r.2) (s.read s.sp) (pop st) := by
  have hread := h.read hsp 0
  rw [Nat.cast_zero, add_zero, drop_zero] at hread
  generalize s.read s.sp = x at hread ⊢
  generalize pop st = y at hread ⊢
  cases hread with
  | ok hr => exact .ok ⟨hr.1, hr.2 rfl⟩
  | returns b => exact .returns b
  | fault a => exact .fault a

/-- **An element is pushed**: it is written below the stack pointer. -/
theorem Holds.push (x : Value) : Holds ⟨s.sp - 1, update s.stack (s.sp - 1) x⟩ (x :: st) := by
  refine ⟨?_, fun i hi => ?_⟩
  · rw [length_cons]
    show s.sp - 1 = _
    rw [h.sp]
    push_cast
    ring
  · show update s.stack (s.sp - 1) x (s.sp - 1 + i) = _
    cases i with
    | zero =>
      rw [Nat.cast_zero, add_zero, Function.update_self]
      rfl
    | succ i =>
      rw [Function.update_of_ne (by push_cast; omega)]
      have hget := h.get i (Nat.lt_of_succ_lt_succ hi)
      rw [show s.sp - 1 + ((i + 1 : ℕ) : ℤ) = s.sp + i by push_cast; ring, hget]
      rfl

end

theorem readData_of_lt {i : ℕ} (h : ¬ i ≥ pk.words) : pk.readData i = .ok (pk.data i) :=
  if_pos (not_le.mp h)

theorem readHeader_of_lt {i : ℕ} (h : ¬ i ≥ netHdwHdrMax / 2) : pk.readHeader i = .ok (pk.header i) :=
  if_pos (not_le.mp h)

theorem of_refused {α : Type*} {c : Prop} [Decidable c] {a b : α}
    (h : (if c then none else some a) = some b) : ¬ c ∧ a = b := by
  split at h
  · cases h
  · next hc => exact ⟨hc, Option.some.inj h⟩

/-- What the argument leaves, compared with what the check has counted: the stack pointer is at least
one more. -/
structure AfterArg (c : ℤ) (rest : List Word) (r : Value × List Word × State)
    (q : Value × List Word × List Value) : Prop where
  value : r.1 = q.1
  words : r.2.1 = rest
  words' : q.2.1 = rest
  holds : Holds r.2.2 q.2.2
  depth : c + 1 ≤ r.2.2.sp

/-- **The argument of an instruction** that has been checked. -/
theorem runArg_agrees (pk : Packet) (h : Holds s st) {c c' : ℤ} {rest rest' : List Word} {arg : Arg}
    (hc : 2 ≤ c) (hsp : c ≤ s.sp) (hparse : parseArg arg rest c = some (rest', c')) :
    Agrees (AfterArg c' rest') (runArg pk rest s arg) (meanArg pk rest st arg) := by
  have htop := h.top (by omega)
  have hpush : c - 1 + 1 ≤ s.sp := by omega
  cases arg with
  | nopush =>
    cases hparse
    refine htop.map fun x r hr => ⟨hr.1, rfl, rfl, hr.2, ?_⟩
    show c + 1 ≤ s.sp + 1
    omega
  | pushzero =>
    cases hparse
    exact .ok ⟨rfl, rfl, rfl, h, hpush⟩
  | pushlit =>
    cases rest with
    | nil => cases hparse
    | cons w rest =>
      cases hparse
      exact .ok ⟨rfl, rfl, rfl, h, hpush⟩
  | pushind =>
    obtain ⟨-, heq⟩ := of_refused hparse
    cases heq
    refine htop.bind fun x r hr => ?_
    rw [hr.1]
    split
    · exact .returns false
    next hlt =>
    rw [readData_of_lt hlt]
    refine .ok ⟨rfl, rfl, rfl, hr.2, ?_⟩
    show c + 1 ≤ s.sp + 1
    omega
  | pushhdrind =>
    obtain ⟨-, heq⟩ := of_refused hparse
    cases heq
    refine htop.bind fun x r hr => ?_
    rw [hr.1]
    split
    · exact .returns false
    next hlt =>
    rw [readHeader_of_lt hlt]
    refine .ok ⟨rfl, rfl, rfl, hr.2, ?_⟩
    show c + 1 ≤ s.sp + 1
    omega
  | pushstk i =>
    obtain ⟨-, heq⟩ := of_refused hparse
    cases heq
    refine (h.read (by omega) i).map fun x r hr => ⟨hr.1, rfl, rfl, h, hpush⟩
  | pushhdr i =>
    obtain ⟨hlt, heq⟩ := of_refused hparse
    cases heq
    unfold runArg
    dsimp only
    rw [readHeader_of_lt hlt]
    exact .ok ⟨rfl, rfl, rfl, h, hpush⟩
  | pushword code =>
    cases hparse
    unfold runArg meanArg
    dsimp only
    split
    · exact .returns false
    · next hlt =>
      rw [readData_of_lt hlt]
      exact .ok ⟨rfl, rfl, rfl, h, hpush⟩

/-- **The operator of an instruction** that has been checked. -/
theorem runOp_agrees (h : Holds s st) {c c' : ℤ} {op : Op} (arg : Value) (hsp : c + 1 ≤ s.sp)
    (hparse : parseOp op c = some c') :
    Agrees (fun s' st' => Holds s' st' ∧ 2 ≤ c' ∧ c' ≤ s'.sp) (runOp m arg s op)
      (meanOp m arg st op) := by
  unfold parseOp at hparse
  split at hparse
  · cases hparse
  next hc =>
  have htop := h.top (by omega)
  have hle := h.sp_le
  cases op with
  | nop =>
    cases hparse
    have hbound : 0 ≤ s.sp - 1 ∧ s.sp - 1 ≤ netFilterStackDepth := by omega
    unfold runOp State.write checkStack
    dsimp only
    rw [if_pos hbound]
    exact .ok ⟨h.push arg, by omega, (by show c ≤ s.sp - 1; omega)⟩
  | bin op =>
    dsimp only at hparse
    split at hparse
    · cases hparse
    cases hparse
    unfold runOp meanOp
    -- where there is an element, the result takes its place
    by_cases hne : st = []
    · subst hne
      rw [State.read]
      unfold checkStack
      have hbound : ¬ (0 ≤ s.sp ∧ s.sp ≤ netFilterStackDepth) := by
        have hs := h.sp
        rw [length_nil] at hs
        omega
      rw [if_neg hbound]
      exact .fault _
    obtain ⟨y, ys, rfl⟩ := exists_cons_of_ne_nil hne
    have hbound : 0 ≤ s.sp ∧ s.sp ≤ netFilterStackDepth := by
      have hs := h.sp
      rw [length_cons] at hs
      push_cast at hs
      omega
    have hget : s.stack s.sp = y := by
      have hg := h.get 0 (Nat.succ_pos _)
      rw [Nat.cast_zero, add_zero] at hg
      exact hg
    have hpop : Holds { s with sp := s.sp + 1 } ys := by
      have ht := htop
      unfold State.read checkStack at ht
      rw [if_pos hbound] at ht
      cases ht with
      | ok hr => exact hr.2
    unfold State.read State.write checkStack
    rw [if_pos hbound]
    have hpush := hpop.push (op.eval m y arg)
    dsimp only at hpush
    rw [show s.sp + 1 - 1 = s.sp by ring] at hpush
    refine .ok ⟨?_, by omega, hsp⟩
    rw [hget]
    exact hpush
  | short op =>
    dsimp only at hparse
    split at hparse
    · cases hparse
    cases hparse
    refine htop.bind fun x r hr => ?_
    rw [hr.1]
    split
    · next b _ => exact .returns b
    · refine .ok ⟨hr.2, by omega, ?_⟩
      show c + 1 ≤ s.sp + 1
      omega
  | undefined => cases hparse

/-- A run that returns what is meant, or faults where the stack is empty. -/
def Ends (stop : Option Stop) (v : Verdict) : Prop :=
  (∀ b, v = .accepts b → stop = some (.returns b)) ∧ (v = .underflow → ∃ a, stop = some (.fault a))

theorem Ends.returns (b : Bool) : Ends (some (.returns b)) (.accepts b) := by
  refine ⟨fun b' hb => ?_, nofun⟩
  rw [Verdict.accepts.inj hb]

theorem Ends.fault (a : Access) : Ends (some (.fault a)) .underflow :=
  ⟨nofun, fun _ => ⟨a, rfl⟩⟩

theorem ends_nil (h : Holds s st) (hsp : 0 ≤ s.sp) (n : ℕ) :
    Ends (run m pk n [] s) (mean m pk n [] st) := by
  have hrun : run m pk n [] s = some (finish (s.read s.sp)) := by cases n <;> rfl
  have hmean : mean m pk n [] st = conclude (pop st) := by cases n <;> rfl
  rw [hrun, hmean]
  have htop := h.top hsp
  generalize s.read s.sp = x at htop ⊢
  generalize pop st = y at htop ⊢
  cases htop with
  | ok hr =>
    rw [finish, conclude, hr.1]
    exact .returns _
  | returns b => exact .returns b
  | fault a => exact .fault a

theorem parseArg_suffix {arg : Arg} {rest rest' : List Word} {c c' : ℤ}
    (h : parseArg arg rest c = some (rest', c')) : rest' <:+ rest := by
  unfold parseArg at h
  split at h
  case h_3 =>
    split at h
    · cases h
    · next w rest =>
      cases h
      exact suffix_cons w rest'
  all_goals first
    | cases h
      exact suffix_rfl
    | split at h
      · cases h
      · cases h
        exact suffix_rfl

/-- **A run of a filter that has been checked** returns what the filter means, and faults where the
stack is empty. -/
theorem run_ends (n : ℕ) (filter : List Word) (c : ℤ) (s : State) (st : List Value)
    (hn : filter.length ≤ n) (h : Holds s st) (hc : 2 ≤ c) (hsp : c ≤ s.sp)
    (hparse : parse n filter c = true) :
    Ends (run m pk n filter s) (mean m pk n filter st) := by
  induction n generalizing filter c s st with
  | zero =>
    obtain rfl : filter = [] := eq_nil_of_length_eq_zero (Nat.le_zero.mp hn)
    exact ends_nil h (by omega) 0
  | succ n ih =>
    cases filter with
    | nil => exact ends_nil h (by omega) (n + 1)
    | cons w rest =>
      rw [parse] at hparse
      split at hparse
      · cases hparse
      next r hr =>
      split at hparse
      · cases hparse
      next c' hc' =>
      have hlen := (parseArg_suffix hr).length_le
      rw [run, mean]
      -- the argument
      have harg := runArg_agrees pk h hc hsp hr
      generalize runArg pk rest s (netfArg w) = x at harg ⊢
      generalize meanArg pk rest st (netfArg w) = y at harg ⊢
      cases harg with
      | returns b => exact .returns b
      | fault a => exact .fault a
      | ok harg =>
        next a b =>
        dsimp only
        rw [harg.value, harg.words, harg.words']
        -- the operator
        have hop := runOp_agrees (m := m) harg.holds b.1 harg.depth hc'
        generalize runOp m b.1 a.2.2 (netfOp w) = x at hop ⊢
        generalize meanOp m b.1 b.2.2 (netfOp w) = y at hop ⊢
        cases hop with
        | returns b => exact .returns b
        | fault a => exact .fault a
        | ok hop =>
          rw [length_cons] at hn
          exact ih r.1 c' _ _ (by omega) hop.1 hop.2.1 hop.2.2 hparse

/-- **A filter that has been accepted** returns what it means, whatever the stack held before, and faults
where it finds the stack empty. -/
theorem netDoFilter_ends (m : Machine) (stack : ℤ → Value) (filter : List Word) (pk : Packet)
    (hparse : parseNetFilter filter = true) :
    Ends (netDoFilter m stack filter pk) (meaning m filter pk) := by
  refine run_ends filter.length filter netFilterStackDepth _ _ le_rfl ⟨rfl, fun i hi => ?_⟩
    (by decide) le_rfl hparse
  obtain rfl : i = 0 := Nat.lt_one_iff.mp hi
  show update stack netFilterStackDepth (truth true) (netFilterStackDepth + (0 : ℕ)) = _
  rw [Nat.cast_zero, add_zero, Function.update_self]
  rfl

/-! ### Filters that never find the stack empty -/

/-- The elements that the argument of an instruction leaves on the stack, if they are enough for it. -/
def depthArg (depth : ℕ) : Arg → Option ℕ
  | .nopush | .pushind | .pushhdrind => if depth = 0 then none else some (depth - 1)
  | .pushstk i => if i < depth then some depth else none
  | _ => some depth

/-- The elements that the operator leaves; a short-circuit operator that does not decide leaves none of its
two. -/
def depthOp (depth : ℕ) : Op → Option ℕ
  | .nop => some (depth + 1)
  | .bin _ => if depth = 0 then none else some depth
  | .short _ => if depth = 0 then none else some (depth - 1)
  | .undefined => some depth

/-- What is left of a filter after an instruction. -/
def afterArg (rest : List Word) (arg : Arg) : List Word :=
  if arg = .pushlit then rest.tail else rest

/-- The check with short-circuit operators counted as they are carried out, for at most `n`
instructions. -/
def deepEnough : ℕ → List Word → ℕ → Bool
  | 0, _, depth => decide (0 < depth)
  | _ + 1, [], depth => decide (0 < depth)
  | n + 1, w :: rest, depth =>
    match depthArg depth (netfArg w) with
    | none => false
    | some d =>
      match depthOp d (netfOp w) with
      | none => false
      | some d' => deepEnough n (afterArg rest (netfArg w)) d'

/-- The filter has elements to spare for all its short-circuit operators; the stack has one at the
beginning. -/
def Deep (filter : List Word) : Prop := deepEnough filter.length filter 1 = true

/-- The outcome of a part of an instruction that does not find the stack empty. -/
def Fine {β : Type} (Q : β → Prop) : Except Verdict β → Prop
  | .ok b => Q b
  | .error v => v ≠ .underflow

theorem conclude_ne_underflow (h : 0 < st.length) : conclude (pop st) ≠ .underflow := by
  obtain ⟨x, ys, rfl⟩ := exists_cons_of_length_pos h
  exact nofun

theorem cons_of_refused {d e : ℕ} (h : (if st.length = 0 then none else some d) = some e) :
    (∃ x ys, st = x :: ys) ∧ d = e :=
  (of_refused h).imp_left fun hne => exists_cons_of_length_pos (Nat.pos_of_ne_zero hne)

theorem fine_meanArg (pk : Packet) {d : ℕ} (rest : List Word) {arg : Arg}
    (h : depthArg st.length arg = some d) :
    Fine (fun r => r.2.1 = afterArg rest arg ∧ r.2.2.length = d) (meanArg pk rest st arg) := by
  cases arg with
  | nopush =>
    obtain ⟨⟨x, ys, rfl⟩, rfl⟩ := cons_of_refused h
    exact ⟨rfl, rfl⟩
  | pushind | pushhdrind =>
    obtain ⟨⟨x, ys, rfl⟩, rfl⟩ := cons_of_refused h
    change Fine _ (if _ then _ else _)
    split
    · exact nofun
    · exact ⟨rfl, rfl⟩
  | pushstk i =>
    obtain ⟨hlt, heq⟩ := Option.ite_none_right_eq_some.mp h
    cases heq
    obtain ⟨y, zs, hdrop⟩ := exists_cons_of_length_pos (l := st.drop i) (by
      rw [length_drop]
      omega)
    rw [meanArg, hdrop]
    exact ⟨rfl, rfl⟩
  | pushword code =>
    cases h
    unfold meanArg
    dsimp only
    split
    · exact nofun
    · exact ⟨rfl, rfl⟩
  | pushzero | pushlit | pushhdr i =>
    cases h
    exact ⟨rfl, rfl⟩

theorem fine_meanOp {d : ℕ} {op : Op} (arg : Value) (h : depthOp st.length op = some d) :
    Fine (fun st' => st'.length = d) (meanOp m arg st op) := by
  cases op with
  | nop | undefined =>
    cases h
    exact rfl
  | bin op =>
    obtain ⟨⟨x, ys, rfl⟩, rfl⟩ := cons_of_refused h
    exact rfl
  | short op =>
    obtain ⟨⟨x, ys, rfl⟩, rfl⟩ := cons_of_refused h
    change Fine _ (match op.decides x arg with | some b => _ | none => _)
    split
    · exact nofun
    · exact rfl

/-- **A filter that is deep enough** never finds the stack empty. -/
theorem mean_ne_underflow (n : ℕ) (filter : List Word) (st : List Value)
    (h : deepEnough n filter st.length = true) : mean m pk n filter st ≠ .underflow := by
  induction n generalizing filter st with
  | zero => exact conclude_ne_underflow (of_decide_eq_true h)
  | succ n ih =>
    cases filter with
    | nil => exact conclude_ne_underflow (of_decide_eq_true h)
    | cons w rest =>
      rw [deepEnough] at h
      split at h
      · cases h
      next d hd =>
      split at h
      · cases h
      next d' hd' =>
      rw [mean]
      have harg := fine_meanArg pk rest hd
      generalize meanArg pk rest st (netfArg w) = y at harg ⊢
      cases y with
      | error v => exact harg
      | ok q =>
        rw [← harg.2] at hd'
        have hop := fine_meanOp (m := m) q.1 hd'
        dsimp only
        rw [harg.1]
        generalize meanOp m q.1 q.2.2 (netfOp w) = y at hop ⊢
        cases y with
        | error v => exact hop
        | ok st' => exact ih _ st' (hop ▸ h)

theorem netDoFilter_of_deep (m : Machine) (filter : List Word) (pk : Packet)
    (hparse : parseNetFilter filter = true) (hdeep : Deep filter) :
    ∃ b, meaning m filter pk = .accepts b ∧
      ∀ stack, netDoFilter m stack filter pk = some (.returns b) := by
  have hne : meaning m filter pk ≠ .underflow := mean_ne_underflow _ filter _ hdeep
  cases hv : meaning m filter pk with
  | underflow => exact absurd hv hne
  | accepts b => exact ⟨b, rfl, fun stack => (netDoFilter_ends m stack filter pk hparse).1 b hv⟩

/-- **A filter that has been accepted and has elements to spare stays in its sandbox**: on every packet
`net_do_filter` returns, without an access outside of the stack, the header, the packet or the filter.  On a
single packet, any filter that has been accepted does so exactly when it never finds the stack empty
there. -/
theorem netDoFilter_returns (m : Machine) (stack : ℤ → Value) (filter : List Word) (pk : Packet)
    (hparse : parseNetFilter filter = true) :
    (Deep filter → ∃ b, netDoFilter m stack filter pk = some (.returns b)) ∧
      ((∃ b, netDoFilter m stack filter pk = some (.returns b)) ↔
        meaning m filter pk ≠ .underflow) := by
  have hends := netDoFilter_ends m stack filter pk hparse
  refine ⟨fun hdeep => ?_, ?_, fun hne => ?_⟩
  · obtain ⟨b, -, hb⟩ := netDoFilter_of_deep m filter pk hparse hdeep
    exact ⟨b, hb stack⟩
  · rintro ⟨b, hb⟩ hu
    obtain ⟨a, ha⟩ := hends.2 hu
    rw [hb] at ha
    cases ha
  · cases hv : meaning m filter pk with
    | accepts b => exact ⟨b, hends.1 b hv⟩
    | underflow => exact absurd hv hne

/-! ### Filters without short-circuit operators -/

theorem depthArg_of_parse {c c' : ℤ} {rest rest' : List Word} {arg : Arg} {d : ℕ}
    (hd : (d : ℤ) = netFilterStackDepth + 1 - c) (hc : c ≤ netFilterStackDepth)
    (hparse : parseArg arg rest c = some (rest', c')) :
    afterArg rest arg = rest' ∧ ∃ d', depthArg d arg = some d' ∧ (d' : ℤ) = netFilterStackDepth - c' := by
  cases arg with
  | nopush =>
    cases hparse
    exact ⟨rfl, _, if_neg (by omega), by omega⟩
  | pushind | pushhdrind =>
    obtain ⟨-, heq⟩ := of_refused hparse
    cases heq
    exact ⟨rfl, _, if_neg (by omega), by omega⟩
  | pushlit =>
    cases rest with
    | nil => cases hparse
    | cons w rest =>
      cases hparse
      exact ⟨rfl, d, rfl, by omega⟩
  | pushstk i =>
    obtain ⟨hle, heq⟩ := of_refused hparse
    cases heq
    exact ⟨rfl, d, if_pos (by omega), by omega⟩
  | pushhdr i =>
    obtain ⟨-, heq⟩ := of_refused hparse
    cases heq
    exact ⟨rfl, d, rfl, by omega⟩
  | pushzero | pushword code =>
    cases hparse
    exact ⟨rfl, d, rfl, by omega⟩

theorem depthOp_of_parse {c c' : ℤ} {op : Op} {d : ℕ} (hop : ∀ o, op ≠ .short o)
    (hd : (d : ℤ) = netFilterStackDepth - c) (hparse : parseOp op c = some c') :
    c' ≤ netFilterStackDepth ∧
      ∃ d', depthOp d op = some d' ∧ (d' : ℤ) = netFilterStackDepth + 1 - c' := by
  unfold parseOp at hparse
  split at hparse
  · cases hparse
  cases op with
  | nop =>
    cases hparse
    exact ⟨by omega, d + 1, rfl, by omega⟩
  | bin op =>
    dsimp only at hparse
    split at hparse
    · cases hparse
    cases hparse
    exact ⟨by omega, d, if_neg (by omega), by omega⟩
  | short op => exact absurd rfl (hop op)
  | undefined => cases hparse

/-- **The check is right about the other operators**: a filter without short-circuit operators that has
been accepted is deep enough. -/
theorem deepEnough_of_parse (n : ℕ) (filter : List Word) (c : ℤ) (d : ℕ)
    (hshort : ∀ w ∈ filter, ∀ o, netfOp w ≠ .short o)
    (hd : (d : ℤ) = netFilterStackDepth + 1 - c) (hc : c ≤ netFilterStackDepth)
    (hparse : parse n filter c = true) : deepEnough n filter d = true := by
  induction n generalizing filter c d with
  | zero => exact decide_eq_true (by omega)
  | succ n ih =>
    cases filter with
    | nil => exact decide_eq_true (by omega)
    | cons w rest =>
      rw [parse] at hparse
      split at hparse
      · cases hparse
      next r hr =>
      split at hparse
      · cases hparse
      next c' hc' =>
      obtain ⟨hrest, d1, hd1, hd1c⟩ := depthArg_of_parse hd hc hr
      obtain ⟨hle, d2, hd2, hd2c⟩ := depthOp_of_parse (hshort w mem_cons_self) hd1c hc'
      rw [deepEnough, hd1]
      dsimp only
      rw [hd2, hrest]
      refine ih r.1 c' d2 (fun u hu => ?_) hd2c hle hparse
      exact hshort u (mem_cons_of_mem w ((parseArg_suffix hr).subset hu))

/-- **A filter without short-circuit operators that has been accepted** returns on every packet, and what
it returns does not depend on what the stack held before. Literals must not look like such operators. -/
theorem netDoFilter_of_no_short (m : Machine) (filter : List Word) (pk : Packet)
    (hparse : parseNetFilter filter = true) (hshort : ∀ w ∈ filter, ∀ o, netfOp w ≠ .short o) :
    ∃ b, meaning m filter pk = .accepts b ∧
      ∀ stack, netDoFilter m stack filter pk = some (.returns b) :=
  netDoFilter_of_deep m filter pk hparse
    (deepEnough_of_parse _ filter netFilterStackDepth 1 hshort rfl le_rfl hparse)

/-- Shifts on a machine that takes the count modulo the width. -/
def i386 : Machine where
  shl top arg := top <<< (arg.toNat % 32)
  sar top arg := top.sshiftRight (arg.toNat % 32)

/-- A packet of four words. -/
def aPacket : Packet := ⟨fun i => BitVec.ofNat 16 (7 * i), 8, fun _ => 0⟩

/-- The second word of the packet is 7, or the packet is dropped: `PUSHWORD+1`, `PUSHLIT|CAND 7`,
`PUSHLIT 1`. -/
def wordFilter : List Word := [17, 1 + 10 * 1024, 7, 1, 1]

theorem netDoFilter_returns_wordFilter : parseNetFilter wordFilter = true ∧
    ∃ b, netDoFilter i386 (fun _ => 0) wordFilter aPacket = some (.returns b) := by
  have hparse : parseNetFilter wordFilter = true := by decide
  refine ⟨hparse, (netDoFilter_returns i386 (fun _ => 0) wordFilter aPacket hparse).1 ?_⟩
  show deepEnough _ _ _ = true
  decide

/-- Is the second word of the packet 7? -/
theorem netDoFilter_of_no_short_eq : ∃ b, ∀ stack,
    netDoFilter i386 stack [17, 1 + 1024, 7] aPacket = some (.returns b) :=
  (netDoFilter_of_no_short i386 [17, 1 + 1024, 7] aPacket (by decide)
    (by simp [netfOp])).imp fun _ h => h.2

/-- Three short-circuit operators, none of which decides: `PUSHLIT 5`, `PUSHLIT|COR 2`,
`PUSHLIT|COR 3`, `PUSHLIT|COR 4`. -/
def corFilter : List Word := [1, 5, 1 + 9 * 1024, 2, 1 + 9 * 1024, 3, 1 + 9 * 1024, 4]

/-- **A filter that is accepted reads behind the stack**: each short-circuit operator takes two elements
and leaves none, but the check counts one. -/
theorem parseNetFilter_accepts_underflow : corFilter.length ≤ 64 ∧ parseNetFilter corFilter = true ∧
    netDoFilter i386 (fun _ => 0) corFilter aPacket = some (.fault (.stack 33)) := by
  decide

end Osfmk.NetFilter

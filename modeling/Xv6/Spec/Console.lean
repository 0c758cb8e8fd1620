import Xv6.Lib.Run
import Xv6.Spec.Param

/-! Console input of `console.c`, read by any set `P` of processes. A step is one character of
`consoleintr`, the part of a `consoleread` from an `acquire(&cons.lock)` to the next release (`sleep`
releases it too), the start of a read, or a `kill`. -/

namespace Xv6.Console

open Trace

def INPUT_BUF : ℕ := 128

/-- `C(x)` -/
def ctrl (c : Char) : UInt8 := UInt8.ofNat (c.toNat - '@'.toNat)

def LF : UInt8 := 10
def CR : UInt8 := 13
def DEL : UInt8 := 0x7f

structure Input where
  buf : ℕ → UInt8
  r : ℕ
  w : ℕ
  e : ℕ

/-- `input.e--` -/
def Input.unput (p : Input) : Input := { p with e := sub32 p.e 1 }

/-- The loop of `^U`. Each round takes one from `e - w`, which bounds the rounds. -/
def Input.killLine : ℕ → Input → Input
  | 0, p => p
  | k + 1, p =>
    if p.e ≠ p.w ∧ p.buf (sub32 p.e 1 % INPUT_BUF) ≠ LF then Input.killLine k p.unput else p

/-- `input.buf[input.e++ % INPUT_BUF] = c` -/
def Input.put (p : Input) (c : UInt8) : Input :=
  { p with buf := Function.update p.buf (p.e % INPUT_BUF) c, e := u32 (p.e + 1) }

/-- One round of `consoleintr`, and whether it ends with `wakeup(&input.r)`. -/
def Input.consoleintr (p : Input) (c : UInt8) : Input × Bool :=
  if c = ctrl 'P' then (p, false)
  else if c = ctrl 'U' then (p.killLine (sub32 p.e p.w), false)
  else if c = ctrl 'H' ∨ c = DEL then (if p.e ≠ p.w then p.unput else p, false)
  else if c ≠ 0 ∧ sub32 p.e p.r < INPUT_BUF then
    let c := if c = CR then LF else c
    let p := p.put c
    if c = LF ∨ c = ctrl 'D' ∨ p.e = u32 (p.r + INPUT_BUF) then ({ p with w := p.e }, true) else (p, false)
  else (p, false)

/-- How a section of `consoleread` ends: with `n` bytes or a newline, at a `^D` that is taken or kept, or at
an empty buffer. -/
inductive Stop where
  | line
  | eof
  | kept
  | empty
deriving DecidableEq

/-- The loop of `consoleread` with `n` bytes to go: the bytes copied to the user. -/
def Input.readLoop (target : ℕ) : ℕ → Input → Input × List UInt8 × Stop
  | 0, p => (p, [], .line)
  | n + 1, p =>
    if p.r = p.w then (p, [], .empty)
    else
      let c := p.buf (p.r % INPUT_BUF)
      let q := { p with r := u32 (p.r + 1) }
      if c = ctrl 'D' then
        if n + 1 < target then ({ q with r := sub32 q.r 1 }, [], .kept) else (q, [], .eof)
      else if c = LF then (q, [c], .line)
      else
        let x := Input.readLoop target n q
        (x.1, c :: x.2.1, x.2.2)

/-- Where a process is: at the `acquire` or back from `sleep`, or asleep on `&input.r`; with the bytes it
asked for and those still to read. -/
inductive Pc where
  | out
  | read (target n : ℕ)
  | asleep (target n : ℕ)
deriving DecidableEq

def Pc.wake : Pc → Pc
  | .asleep target n => .read target n
  | c => c

structure Proc where
  pc : Pc := .out
  killed : Bool := false

structure State (P : Type) where
  input : Input
  proc : P → Proc

/-- What a step copies to the user, whether it takes a `^D` from the buffer, and what the call returns when
the step ends it. -/
structure Out where
  copied : List UInt8 := []
  eof : Bool := false
  ret : Option ℤ := none
deriving DecidableEq

inductive Act (P : Type) where
  | intr (c : UInt8)
  | read (q : P) (n : ℤ)
  /-- With `raced`, a `kill` of `q` comes after `q` has looked at `killed` and before it sleeps. -/
  | run (q : P) (raced : Bool)
  | kill (q : P)

variable {P : Type}

/-- `wakeup(&input.r)` -/
def State.wakeup (s : State P) : State P :=
  { s with proc := fun q => { s.proc q with pc := (s.proc q).pc.wake } }

def State.intr (s : State P) (c : UInt8) : State P :=
  let r := s.input.consoleintr c
  let t := { s with input := r.1 }
  if r.2 = true then t.wakeup else t

variable [DecidableEq P]

def State.set (s : State P) (q : P) (x : Proc) : State P := { s with proc := Function.update s.proc q x }

/-- `consoleread`; a read of `n ≤ 0` bytes has none to go and returns 0. -/
def State.consoleread (s : State P) (q : P) (raced : Bool) (target n : ℕ) : State P × Out :=
  let r := s.input.readLoop target n
  let t := { s with input := r.1 }
  let left := n - r.2.1.length
  let x := s.proc q
  match r.2.2 with
  | .empty =>
    if x.killed = true then (t.set q { x with pc := .out }, { copied := r.2.1, ret := some (-1) })
    else (t.set q ⟨.asleep target left, x.killed || raced⟩, { copied := r.2.1 })
  | .eof => (t.set q { x with pc := .out }, { copied := r.2.1, eof := true, ret := some (target - left : ℤ) })
  | .line | .kept => (t.set q { x with pc := .out }, { copied := r.2.1, ret := some (target - left : ℤ) })

def State.kill (s : State P) (q : P) : State P := s.set q ⟨(s.proc q).pc.wake, true⟩

inductive Step : State P → Act P × Out → State P → Prop where
  | intr {s : State P} {c : UInt8} : Step s (.intr c, {}) (s.intr c)
  | read {s : State P} {q : P} {n : ℤ} (hq : (s.proc q).pc = .out) :
      Step s (.read q n, {}) (s.set q { s.proc q with pc := .read n.toNat n.toNat })
  | run {s : State P} {q : P} {raced : Bool} {target n : ℕ} (hq : (s.proc q).pc = .read target n) :
      Step s (.run q raced, (s.consoleread q raced target n).2) (s.consoleread q raced target n).1
  | kill {s : State P} {q : P} : Step s (.kill q, {}) (s.kill q)

/-- `input` starts as zeros. -/
def system (P : Type) [DecidableEq P] : System (State P) (Act P × Out) where
  init s := s.input = ⟨fun _ => 0, 0, 0, 0⟩ ∧ ∀ q, (s.proc q).pc = .out
  step := Step

/-! ### The line discipline, over streams -/

/-- The input committed so far, how much of it reads have taken, and the line being edited. -/
structure Typed where
  committed : List UInt8 := []
  taken : ℕ := 0
  pending : List UInt8 := []

/-- A character comes in: editing applies to the pending line only. -/
def Typed.feed (t : Typed) (c : UInt8) : Typed :=
  if c = ctrl 'P' then t
  else if c = ctrl 'U' then { t with pending := [] }
  else if c = ctrl 'H' ∨ c = DEL then { t with pending := t.pending.dropLast }
  else if c = 0 ∨ INPUT_BUF ≤ t.committed.length - t.taken + t.pending.length then t
  else
    let c := if c = CR then LF else c
    let line := t.pending ++ [c]
    if c = LF ∨ c = ctrl 'D' ∨ t.committed.length - t.taken + line.length = INPUT_BUF then
      { t with committed := t.committed ++ line, pending := [] }
    else { t with pending := line }

/-- What a step takes from the committed input. -/
def Out.took (o : Out) : List UInt8 := o.copied ++ if o.eof = true then [ctrl 'D'] else []

def Typed.next (t : Typed) (e : Act P × Out) : Typed :=
  match e.1 with
  | .intr c => t.feed c
  | _ => { t with taken := t.taken + e.2.took.length }

/-- The input after a run. -/
def typed (es : List (Act P × Out)) : Typed := es.foldl Typed.next {}

/-- What a run has taken from the input. -/
def took (es : List (Act P × Out)) : List UInt8 := es.flatMap fun e => e.2.took

/-- What a run has copied to users. -/
def copied (es : List (Act P × Out)) : List UInt8 := es.flatMap fun e => e.2.copied

end Xv6.Console

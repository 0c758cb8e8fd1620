import Xv6.Lib.Run
import Xv6.Spec.Param

/-! A pipe of `pipe.c` and any set `P` of processes that use it. A step is what a process does from an
`acquire(&p->lock)` to the next release, `sleep` releasing it too; or it starts a call, or is a `kill`. -/

namespace Xv6.Pipes

open Trace

def PIPESIZE : ℕ := 512

structure Pipe where
  data : ℕ → UInt8
  nread : ℕ
  nwrite : ℕ
  readopen : Bool
  writeopen : Bool

/-- Where a process is: at the `acquire` of a call or back from its `sleep`, or asleep. `i` bytes of the
`n` to write are in the pipe. -/
inductive Pc where
  | out
  | write (n : ℤ) (i : ℕ)
  | read (n : ℤ)
  /-- asleep on `&p->nwrite` -/
  | full (n : ℤ) (i : ℕ)
  /-- asleep on `&p->nread` -/
  | empty (n : ℤ)
deriving DecidableEq

structure Proc where
  pc : Pc := .out
  killed : Bool := false

structure State (P : Type) where
  pipe : Pipe
  proc : P → Proc

/-- What a step stores in the pipe, takes from it, and what the call returns when the step ends it. -/
structure Out where
  stored : List UInt8 := []
  delivered : List UInt8 := []
  ret : Option ℤ := none
deriving DecidableEq

inductive Act (P : Type) where
  /-- the start of `write(fd, addr, n)` -/
  | write (q : P) (n : ℤ)
  | read (q : P) (n : ℤ)
  /-- the next section of the lock of the call that `q` is in. `addr` is what the user buffer holds now.
  With `raced`, a `kill` of `q` comes after `q` has looked at `killed` and before it sleeps. -/
  | run (q : P) (addr : ℕ → UInt8) (raced : Bool)
  /-- the last `fileclose` of the write end, or the read end -/
  | close (writable : Bool)
  | kill (q : P)

def Pipe.isFull (p : Pipe) : Bool := p.nwrite = u32 (p.nread + PIPESIZE)

def Pipe.isEmpty (p : Pipe) : Bool := p.nread = p.nwrite

/-- `p->data[p->nwrite++ % PIPESIZE] = b` -/
def Pipe.put (p : Pipe) (b : UInt8) : Pipe :=
  { p with data := Function.update p.data (p.nwrite % PIPESIZE) b, nwrite := u32 (p.nwrite + 1) }

/-- `p->data[p->nread++ % PIPESIZE]`, without its value -/
def Pipe.take (p : Pipe) : Pipe := { p with nread := u32 (p.nread + 1) }

/-- The loop of `pipewrite` up to a full pipe, with `k` bytes to go: the bytes stored. -/
def Pipe.fill (addr : ℕ → UInt8) : ℕ → ℕ → Pipe → Pipe × List UInt8
  | _, 0, p => (p, [])
  | i, k + 1, p =>
    if p.isFull then (p, [])
    else
      let (p', bs) := Pipe.fill addr (i + 1) k (p.put (addr i))
      (p', addr i :: bs)

/-- The loop of `piperead` that copies: the bytes taken. -/
def Pipe.drain : ℕ → Pipe → Pipe × List UInt8
  | 0, p => (p, [])
  | k + 1, p =>
    if p.isEmpty then (p, [])
    else
      let (p', bs) := Pipe.drain k p.take
      (p', p.data (p.nread % PIPESIZE) :: bs)

/-- `wakeup(&p->nread)` -/
def Pc.wakeRead : Pc → Pc
  | .empty n => .read n
  | c => c

/-- `wakeup(&p->nwrite)` -/
def Pc.wakeWrite : Pc → Pc
  | .full n i => .write n i
  | c => c

variable {P : Type}

def State.wakeRead (s : State P) : State P :=
  { s with proc := fun q => { s.proc q with pc := (s.proc q).pc.wakeRead } }

def State.wakeWrite (s : State P) : State P :=
  { s with proc := fun q => { s.proc q with pc := (s.proc q).pc.wakeWrite } }

/-- A process is in a call that uses the write end; it holds a reference to its file. -/
def Pc.writes : Pc → Bool
  | .write _ _ | .full _ _ => true
  | _ => false

def Pc.reads : Pc → Bool
  | .read _ | .empty _ => true
  | _ => false

variable [DecidableEq P]

def State.goto (s : State P) (q : P) (c : Pc) : State P :=
  { s with proc := Function.update s.proc q { s.proc q with pc := c } }

/-- `q` goes to sleep; a `kill` in between finds it running and does not wake it. -/
def State.sleep (s : State P) (q : P) (c : Pc) (raced : Bool) : State P :=
  { s with proc := Function.update s.proc q ⟨c, (s.proc q).killed || raced⟩ }

/-- `pipewrite`, from byte `i` on. -/
def State.pipewrite (s : State P) (q : P) (addr : ℕ → UInt8) (raced : Bool) (n : ℤ) (i : ℕ) : State P × Out :=
  let r := s.pipe.fill addr i (n.toNat - i)
  let t := { s with pipe := r.1 }
  if n.toNat ≤ i + r.2.length then (t.wakeRead.goto q .out, { stored := r.2, ret := some n })
  else if r.1.readopen = false ∨ (s.proc q).killed = true then (t.goto q .out, { stored := r.2, ret := some (-1) })
  else (t.wakeRead.sleep q (.full n (i + r.2.length)) raced, { stored := r.2 })

def State.piperead (s : State P) (q : P) (raced : Bool) (n : ℤ) : State P × Out :=
  if s.pipe.isEmpty = true ∧ s.pipe.writeopen = true then
    if (s.proc q).killed = true then (s.goto q .out, { ret := some (-1) })
    else (s.sleep q (.empty n) raced, {})
  else
    let r := s.pipe.drain n.toNat
    ({ s with pipe := r.1 }.wakeWrite.goto q .out, { delivered := r.2, ret := some (r.2.length : ℤ) })

/-- `pipeclose`; with both ends closed the pipe is freed, and no process can use it. -/
def State.pipeclose (s : State P) (writable : Bool) : State P :=
  if writable = true then { s with pipe := { s.pipe with writeopen := false } }.wakeRead
  else { s with pipe := { s.pipe with readopen := false } }.wakeWrite

/-- `kill` sets `killed` and wakes a sleeping process. -/
def State.kill (s : State P) (q : P) : State P :=
  { s with proc := Function.update s.proc q ⟨(s.proc q).pc.wakeRead.wakeWrite, true⟩ }

/-- A call is made on an open end. The last reference to an end is dropped by a process that is in no call,
when no other process is in a call on it. -/
inductive Step : State P → Act P × Out → State P → Prop where
  | write {s : State P} {q : P} {n : ℤ} (ho : s.pipe.writeopen = true) (hq : (s.proc q).pc = .out) :
      Step s (.write q n, {}) (s.goto q (.write n 0))
  | read {s : State P} {q : P} {n : ℤ} (ho : s.pipe.readopen = true) (hq : (s.proc q).pc = .out) :
      Step s (.read q n, {}) (s.goto q (.read n))
  | runWrite {s : State P} {q : P} {addr : ℕ → UInt8} {raced : Bool} {n : ℤ} {i : ℕ}
      (hq : (s.proc q).pc = .write n i) :
      Step s (.run q addr raced, (s.pipewrite q addr raced n i).2) (s.pipewrite q addr raced n i).1
  | runRead {s : State P} {q : P} {addr : ℕ → UInt8} {raced : Bool} {n : ℤ} (hq : (s.proc q).pc = .read n) :
      Step s (.run q addr raced, (s.piperead q raced n).2) (s.piperead q raced n).1
  | closeWrite {s : State P} (ho : s.pipe.writeopen = true) (hq : ∀ q, (s.proc q).pc.writes = false) :
      Step s (.close true, {}) (s.pipeclose true)
  | closeRead {s : State P} (ho : s.pipe.readopen = true) (hq : ∀ q, (s.proc q).pc.reads = false) :
      Step s (.close false, {}) (s.pipeclose false)
  | kill {s : State P} {q : P} : Step s (.kill q, {}) (s.kill q)

/-- The pipe that `pipealloc` sets up, whatever its page held before. -/
def Pipe.alloc (data : ℕ → UInt8) : Pipe := ⟨data, 0, 0, true, true⟩

/-- The processes at work on a new pipe. -/
def system (P : Type) [DecidableEq P] : System (State P) (Act P × Out) where
  init s := (∃ data, s.pipe = Pipe.alloc data) ∧ ∀ q, (s.proc q).pc = .out
  step := Step

/-- The bytes stored in a run, in the order of the sections of the lock. -/
def stored (es : List (Act P × Out)) : List UInt8 := es.flatMap fun e => e.2.stored

def delivered (es : List (Act P × Out)) : List UInt8 := es.flatMap fun e => e.2.delivered

/-- The bytes in the pipe, oldest first. -/
def Pipe.contents (p : Pipe) : List UInt8 :=
  (List.range (sub32 p.nwrite p.nread)).map fun k => p.data (u32 (p.nread + k) % PIPESIZE)

/-- A process is asleep on a channel of the pipe with nothing to wait for. -/
def State.Stuck (s : State P) : Prop :=
  (∃ q n, (s.proc q).pc = .empty n ∧ (s.pipe.nread ≠ s.pipe.nwrite ∨ s.pipe.writeopen = false)) ∨
    ∃ q n i, (s.proc q).pc = .full n i ∧
      (sub32 s.pipe.nwrite s.pipe.nread < PIPESIZE ∨ s.pipe.readopen = false)

/-- A killed writer with more bytes left than the pipe has room for does not run while a reader sleeps. -/
def Calm (s : State P) (e : Act P × Out) : Prop :=
  ∀ q addr raced n i, e.1 = .run q addr raced → (s.proc q).pc = .write n i → (s.proc q).killed = true →
    s.pipe.readopen = true → PIPESIZE - sub32 s.pipe.nwrite s.pipe.nread < n.toNat - i →
    ∀ r m, (s.proc r).pc ≠ .empty m

end Xv6.Pipes

import Xv6.Lib.Linked
import Xv6.Lib.Run
import Xv6.Spec.Bio

/-! `ide.c`: the queue of disk requests. A step is a section under `idelock`, or the disk at work: `iderw` up to its `sleep`,
the disk performing the command it was given, the interrupt handler, and the return of `iderw`. -/

namespace Xv6.Ide

open Linked Bio Function

def SECTOR_SIZE : ℕ := 512
def BSIZE : ℕ := 512

structure Buf where
  /-- `B_VALID` -/
  valid : Bool
  /-- `B_DIRTY` -/
  dirty : Bool
  dev : ℕ
  blockno : ℕ
  data : Sector

/-- What `idestart` writes to the controller: the registers `0x1f2` to `0x1f6`, and the data of a write. -/
structure Cmd where
  count : ℕ
  lba0 : ℕ
  lba1 : ℕ
  lba2 : ℕ
  drive : ℕ
  write : Option Sector

/-- The sector and the disk that a command is for. -/
def Cmd.sector (c : Cmd) : ℕ := c.lba0 + c.lba1 * 2 ^ 8 + c.lba2 * 2 ^ 16 + c.drive % 16 * 2 ^ 24
def Cmd.disk (c : Cmd) : ℕ := c.drive / 16 % 2

def idestart (b : Buf) : Except String Cmd :=
  if b.blockno ≥ FSSIZE then .error "incorrect blockno"
  else
    let sector_per_block := BSIZE / SECTOR_SIZE
    let sector := b.blockno * sector_per_block
    .ok
      { count := sector_per_block
        lba0 := sector % 2 ^ 8
        lba1 := sector / 2 ^ 8 % 2 ^ 8
        lba2 := sector / 2 ^ 16 % 2 ^ 8
        drive := 0xe0 ||| (b.dev % 2) <<< 4 ||| sector / 2 ^ 24 % 16
        write := if b.dirty then some b.data else none }

structure State where
  buf : Fin NBUF → Buf
  qnext : Fin NBUF → Option (Fin NBUF)
  idequeue : Option (Fin NBUF)
  havedisk1 : Bool
  /-- the sectors of the two disks -/
  disk : ℕ → ℕ → Sector
  /-- the command that the controller has -/
  cmd : Option Cmd
  /-- it is performed, and its interrupt is still to be handled -/
  done : Bool
  /-- what the controller has read, for `insl` -/
  drq : Sector
  /-- the buffer for which a process is in `iderw` -/
  proc : Fin NPROC → Option (Fin NBUF)
  /-- the requests so far, in order: put in the queue, started, completed -/
  queued : List (Fin NBUF)
  started : List (Fin NBUF)
  completed : List (Fin NBUF)

/-- Append to `idequeue`: the loop with `pp` stops at the null pointer. -/
def State.append (s : State) (b : Fin NBUF) : State :=
  let qnext := update s.qnext b none
  match s.idequeue with
  | none => { s with qnext := qnext, idequeue := some b, queued := s.queued ++ [b] }
  | some h => { s with qnext := update qnext (last qnext NBUF h) (some b), queued := s.queued ++ [b] }

def State.start (s : State) (b : Fin NBUF) : Except String State :=
  match idestart (s.buf b) with
  | .error e => .error e
  | .ok c => .ok { s with cmd := some c, started := s.started ++ [b] }

/-- `iderw(b)` by process `p`, which holds the lock of `b`, up to `sleep`. The flags are not those it waits for, so it
does sleep. -/
def iderw (s : State) (p : Fin NPROC) (b : Fin NBUF) : Except String State :=
  if (s.buf b).valid = true ∧ (s.buf b).dirty = false then .error "iderw: nothing to do"
  else if (s.buf b).dev ≠ 0 ∧ s.havedisk1 = false then .error "iderw: ide disk 1 not present"
  else
    let s := { s.append b with proc := update s.proc p (some b) }
    if s.idequeue = some b then s.start b else .ok s

/-- `ideintr`; `idewait` finds no error. -/
def ideintr (s : State) : Except String State :=
  match s.idequeue with
  | none => .ok { s with done := false }
  | some b =>
    let x := s.buf b
    let x := { x with data := if x.dirty then x.data else s.drq, valid := true, dirty := false }
    let s := { s with idequeue := s.qnext b, buf := update s.buf b x, cmd := none, done := false,
                      completed := s.completed ++ [b] }
    match s.idequeue with
    | none => .ok s
    | some c => s.start c

/-- The disk performs a command, on the block of that command. -/
def State.perform (s : State) (c : Cmd) : State :=
  match c.write with
  | some data =>
    { s with disk := update s.disk c.disk (update (s.disk c.disk) c.sector data), done := true }
  | none => { s with drq := s.disk c.disk c.sector, done := true }

inductive Act where
  /-- `iderw(b)`, for a buffer that its holder has made `x` -/
  | call (p : Fin NPROC) (b : Fin NBUF) (x : Buf)
  | perform
  | intr
  | ret (p : Fin NPROC)

/-- A call is for a buffer that no other process is in `iderw` for. The disk performs each command once and raises one interrupt
for it. A panic is the end of the run. -/
inductive Step : State → Act → State → Prop where
  | call {s s' : State} {p : Fin NPROC} {b : Fin NBUF} {x : Buf} (hp : s.proc p = none) (hb : ∀ q, s.proc q ≠ some b)
      (h : iderw { s with buf := update s.buf b x } p b = .ok s') : Step s (.call p b x) s'
  | perform {s : State} {c : Cmd} (hc : s.cmd = some c) (hd : s.done = false) : Step s .perform (s.perform c)
  | intr {s s' : State} (hd : s.done = true) (h : ideintr s = .ok s') : Step s .intr s'
  | ret {s : State} {p : Fin NPROC} {b : Fin NBUF} (hp : s.proc p = some b)
      (h : (s.buf b).valid = true ∧ (s.buf b).dirty = false) :
      Step s (.ret p) { s with proc := update s.proc p none }

def system : Trace.System State Act where
  init s := s.idequeue = none ∧ s.cmd = none ∧ s.done = false ∧ (∀ p, s.proc p = none) ∧ s.queued = [] ∧ s.started = [] ∧
    s.completed = []
  step := Step

end Xv6.Ide

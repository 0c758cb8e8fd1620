import Xv6.Lib.Run
import Mathlib.Data.BitVec
import Mathlib.Logic.Function.Basic
import Mathlib.Data.Fintype.Basic

/-! `checksum.c`: producers read a file byte by byte into a ring, and consumers add the bytes up. What a process does between
taking the mutex and giving it back is one step; `cv_wait` is two, as it gives the mutex back, and it may return at any time. -/

namespace Xv6.Checksum

open Function

def BUFFERSIZE : ℕ := 129
def NUMP : ℕ := 4
def NUMC : ℕ := 4

instance : NeZero NUMP := ⟨by decide⟩
instance : NeZero NUMC := ⟨by decide⟩

/-- `share_mem_t`, without the mutex and the condition variables -/
structure Shm where
  buff : ℕ → UInt8 := fun _ => 0
  head : ℕ := 0
  /-- the next free cell -/
  tail : ℕ := 0
  total : BitVec 32 := 0
  pdone : ℕ := 0

/-- `put`; `none` is -1 -/
def put (m : Shm) (chara : UInt8) : Option Shm :=
  if (m.tail + 1) % BUFFERSIZE = m.head then none
  else some { m with buff := update m.buff m.tail chara, tail := (m.tail + 1) % BUFFERSIZE }

/-- `get`; `none` is -1 -/
def get (m : Shm) : Option (UInt8 × Shm) :=
  if m.tail = m.head then none
  else some (m.buff m.head, { m with head := (m.head + 1) % BUFFERSIZE })

def isempty (m : Shm) : Bool := m.tail = m.head

inductive Producer where
  /-- before `mutex_lock` -/
  | top
  /-- in `cv_wait`, with the byte it could not put -/
  | waiting (chara : UInt8)
  | exited
  deriving DecidableEq, Repr

inductive Consumer where
  | top (csum : BitVec 32)
  | waiting (csum : BitVec 32)
  | exited
  deriving DecidableEq, Repr

structure State where
  shm : Shm
  /-- what is left of the file, after the offset that the producers share -/
  rest : List UInt8
  prod : Fin NUMP → Producer
  cons : Fin NUMC → Consumer
  /-- the bytes read so far, and those the consumers have got -/
  read : List UInt8
  got : List UInt8

/-- `put` once; a producer that finds the ring full keeps the byte and waits. -/
def tryPut (s : State) (p : Fin NUMP) (chara : UInt8) : State :=
  match put s.shm chara with
  | some m => { s with shm := m, prod := update s.prod p .top }
  | none => { s with prod := update s.prod p (.waiting chara) }

def producer (s : State) (p : Fin NUMP) : Option State :=
  match s.prod p with
  | .top =>
    match s.rest with
    | [] => some { s with shm := { s.shm with pdone := s.shm.pdone + 1 }, prod := update s.prod p .exited }
    | chara :: rest => some (tryPut { s with rest := rest, read := s.read ++ [chara] } p chara)
  | .waiting chara => some (tryPut s p chara)
  | .exited => none

/-- `toInt` is the conversion of a `char` to `int`. -/
def consumer (toInt : UInt8 → ℤ) (s : State) (c : Fin NUMC) : Option State :=
  match s.cons c with
  | .top csum =>
    if s.shm.pdone < NUMP ∨ isempty s.shm = false then
      match get s.shm with
      | none => some { s with cons := update s.cons c (.waiting csum) }
      | some (buf, m) =>
        some { s with shm := m, got := s.got ++ [buf],
                      cons := update s.cons c (.top (csum + BitVec.ofInt 32 (toInt buf))) }
    else
      some { s with shm := { s.shm with total := s.shm.total + csum }, cons := update s.cons c .exited }
  | .waiting csum => some { s with cons := update s.cons c (.top csum) }
  | .exited => none

inductive Act where
  | producer (p : Fin NUMP)
  | consumer (c : Fin NUMC)
  deriving DecidableEq, Repr

def act (toInt : UInt8 → ℤ) (s : State) : Act → Option State
  | .producer p => producer s p
  | .consumer c => consumer toInt s c

def start (file : List UInt8) : State :=
  { shm := {}, rest := file, prod := fun _ => .top, cons := fun _ => .top 0, read := [], got := [] }

def system (toInt : UInt8 → ℤ) (file : List UInt8) : Trace.System State Act where
  init s := s = start file
  step s a s' := act toInt s a = some s'

end Xv6.Checksum

import Xv6.Spec.Proc
import Xv6.Spec.Syscall

/-! The futex calls of `sysproc.c` and the wake-ups of `proc.c` behind them. From the test of the
word on a call holds `ptable.lock`, so each call is one step here; a caller that goes to sleep
has its result 0 when it is woken. -/

namespace Xv6

open Prog Bytes

/-- The frame under address `va` of the process in slot `i`, if its page is present. -/
def Kern.frame (s : Kern) (i va : ℕ) : Option ℕ :=
  let e := s.entry (s.proc i).pgdir (va / PGSIZE)
  if e.p then some e.ppn else none

/-- The byte the kernel finds at address `va` with the page table of slot `i`. -/
def Kern.byte (s : Kern) (i va : ℕ) : UInt8 :=
  s.mem (s.entry (s.proc i).pgdir (va / PGSIZE)).ppn (va % PGSIZE)

namespace Futex

/-- The kernel with `p->chan` of every slot, 0 for the null pointer. -/
structure State extends Kern where
  chan : ℕ → ℕ

/-- A program of the memory system, which leaves the channels alone. -/
def kern {α : Type} (x : K α) : M State α := fun s =>
  match x s.toKern with
  | .ok a k => .ok a { s with toKern := k }
  | .fault k => .fault { s with toKern := k }
  | .panic m k => .panic m { s with toKern := k }

/-- With `ptable.lock` held, a fault that kills the process ends in `exit`, which acquires it. -/
def locked {α : Type} (x : M State α) : M State α := catchFault x (Prog.panic "acquire")

/-- `*(int*)va` in the kernel. -/
def loadint (i va : ℕ) : M State ℕ := do
  let s ← get
  if ∀ k < 4, (s.frame i (va + k)).isSome = true then
    return unle ((List.range 4).map fun k => s.byte i (va + k))
  else fault

/-- `argint(n)` of the process in slot `i`, with the page fault of a stack that is not mapped. -/
def getint (i n : ℕ) : M State (Option ℕ) := do
  let s ← get
  match argint (i = 0) (s.proc i) (s.byte i) n with
  | none => return none
  | some _ => do
    let v ← loadint i (u32 ((s.proc i).esp + 4 + 4 * n))
    return some v

def getptr (i n : ℕ) (size : ℤ) : M State (Option ℕ) := do
  let s ← get
  match ← getint i n with
  | none => return none
  | some _ => return argptr (i = 0) (s.proc i) (s.byte i) n size

/-- `sleep(chan, &ptable.lock)` up to the switch. -/
def sleep (i chan : ℕ) : M State Unit :=
  modify fun s =>
    { s with
      toKern := s.setProc i { s.proc i with state := .sleeping }
      chan := Function.update s.chan i chan }

/-- The test of the loop of `wakeupfutex1`. -/
def State.asleep (s : State) (chan p : ℕ) : Prop :=
  (s.proc p).state = .sleeping ∧ s.chan p = chan

instance (s : State) (chan p : ℕ) : Decidable (s.asleep chan p) := inferInstanceAs (Decidable (_ ∧ _))

/-- One round of that loop, with `i` processes woken so far. -/
def wakeOne (chan : ℕ) (i : ℤ) (p : ℕ) : M State ℤ := do
  let s ← get
  if s.asleep chan p then do
    kern (setProc p { s.proc p with state := .runnable })
    return i + 1
  else return i

def wakeupfutex1 (chan : ℕ) : M State ℤ := (List.range NPROC).foldlM (wakeOne chan) 0

def wakeupfutex (chan : ℕ) : M State ℤ := wakeupfutex1 chan

/-- The test of the word and what depends on it. -/
def waitOn (i loc val : ℕ) : M State ℤ := do
  let v ← locked (loadint i loc)
  if v = val then do
    sleep i loc
    return 0
  else return -1

def sysFutexWait (i : ℕ) : M State ℤ := do
  match ← getint i 1 with
  | none => return -1
  | some val =>
    match ← getptr i 0 4 with
    | none => return -1
    | some loc => waitOn i loc val

def sysFutexWake (i : ℕ) : M State ℤ := do
  match ← getptr i 0 4 with
  | none => return -1
  | some loc => wakeupfutex loc

end Futex

end Xv6

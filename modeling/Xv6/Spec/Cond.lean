import Xv6.Lib.Count
import Xv6.Lib.Run
import Xv6.Spec.Param
import Mathlib.Logic.Function.Basic
import Mathlib.Data.Fintype.Basic

/-! The mutexes and condition variables of `ulib.c` over the futex calls of `sysproc.c`, for the
processes that share one `cond_var_t`. A step is one access to a shared word, one section of kernel
code under `ptable.lock`, or a decision of the scheduler; only `sys_futex_wait2` touches two shared
words while it holds that lock, so only there the lock is part of the state. -/

namespace Xv6.Cond

open Count

/-- The shared words: the two of the `cond_var_t`, and the mutexes. -/
inductive Word where
  | cvnum
  | cvslock
  | mutex (m : ℕ)
deriving DecidableEq

/-- Where `mutex_lock` and `mutex_unlock` are called: in `cv_wait(cv, m)` before it sleeps, in
`cv_bcast`, or on a mutex of the program. -/
inductive Site where
  | wait (m : ℕ)
  | bcast
  | own (m : ℕ)
deriving DecidableEq

def Site.lockWord : Site → Word
  | .wait _ | .bcast => .cvslock
  | .own m => .mutex m

def Site.unlockWord : Site → Word
  | .wait m | .own m => .mutex m
  | .bcast => .cvslock

/-- The next thing a process does. -/
inductive Pc where
  | idle
  /-- `__sync_lock_test_and_set` of `mutex_lock` -/
  | testSet (k : Site)
  /-- `futex_wait` of `mutex_lock` -/
  | futexWait (k : Site)
  /-- `__sync_lock_release` of `mutex_unlock` -/
  | release (k : Site)
  /-- `futex_wake` of `mutex_unlock` -/
  | futexWake (k : Site)
  /-- the load and the store of `cv->cvnum = cv->cvnum + 1` -/
  | load (m : ℕ)
  | store (m v : ℕ)
  /-- the load of the argument of `futex_wait2`, and the call -/
  | arg (m : ℕ)
  | futexWait2 (m val : ℕ)
  /-- in `sys_futex_wait2`: after `lk->lock=0`, after `wakeupfutex2` -/
  | released (m val : ℕ)
  | woken (m val : ℕ)
  /-- `futex_wake` of `cv_bcast`, and the test of its loop -/
  | wake (numwake : ℕ)
  | test (numwake : ℕ)
  /-- the load and the store of `cv->cvnum=cv->cvnum-numwake` -/
  | sub (numwake : ℕ)
  | clear (numwake v : ℕ)
deriving DecidableEq

/-- User code; a system call that has passed the first test of `trap`; or one that is about to make
the second. -/
inductive Mode where
  | user
  | sys
  | ret
deriving DecidableEq

inductive PState where
  | unused
  | runnable
  | running
  | sleeping (chan : Word)
deriving DecidableEq

structure Proc where
  state : PState := .unused
  killed : Bool := false
  mode : Mode := .user
  pc : Pc := .idle

structure State where
  mem : Word → ℕ := fun _ => 0
  /-- the process in `sys_futex_wait2`, which holds `ptable.lock` -/
  ptlock : Option (Fin NPROC) := none
  proc : Fin NPROC → Proc := fun _ => {}

def State.set (s : State) (p : Fin NPROC) (x : Proc) : State :=
  { s with proc := Function.update s.proc p x }

def State.put (s : State) (w : Word) (v : ℕ) : State := { s with mem := Function.update s.mem w v }

/-- Process `p` goes on at `pc`. -/
def State.goto (s : State) (p : Fin NPROC) (pc : Pc) : State := s.set p { s.proc p with pc := pc }

/-- The system call of `p` is done, and user code goes on at `pc`. -/
def State.retTo (s : State) (p : Fin NPROC) (pc : Pc) : State :=
  s.set p { s.proc p with pc := pc, mode := .ret }

/-- `sleep`: `p` waits for a wakeup on `w`, and then returns to `pc`. -/
def State.sleep (s : State) (p : Fin NPROC) (w : Word) (pc : Pc) : State :=
  s.set p { s.proc p with state := .sleeping w, pc := pc, mode := .ret }

/-- `exit`, and the slot is free again -/
def State.exit (s : State) (p : Fin NPROC) : State := s.set p {}

def asleep (w : Word) (x : Proc) : Bool := decide (x.state = .sleeping w)

/-- `wakeupfutex1`: what it does to the process table, and the number it returns. -/
def State.wakeup (s : State) (w : Word) : State :=
  { s with proc := fun p => if asleep w (s.proc p) then { s.proc p with state := .runnable } else s.proc p }

def State.asleepOn (s : State) (w : Word) : ℕ := refs Finset.univ (fun p => asleep w (s.proc p)) true

/-- Where a mutex is locked, and unlocked. -/
def Site.locked : Site → Pc
  | .wait m => .release (.wait m)
  | .bcast => .wake 0
  | .own _ => .idle

def Site.unlocked : Site → Pc
  | .wait m => .load m
  | .bcast | .own _ => .idle

/-- The entry of a system call: the first test of `trap`. -/
def State.enter (s : State) (p : Fin NPROC) : Option State :=
  if (s.proc p).killed then
    if s.ptlock = none then some (s.exit p) else none
  else some (s.set p { s.proc p with mode := .sys })

/-- A step of `p` in user code. -/
def State.user (s : State) (p : Fin NPROC) : Option State :=
  match (s.proc p).pc with
  | .testSet k =>
    let pc := if s.mem k.lockWord ≠ 0 then .futexWait k else k.locked
    some ((s.put k.lockWord 1).goto p pc)
  | .release k => some ((s.put k.unlockWord 0).goto p (.futexWake k))
  | .load m => some (s.goto p (.store m (s.mem .cvnum)))
  | .store m v => some ((s.put .cvnum (u32 (v + 1))).goto p (.arg m))
  | .arg m => some (s.goto p (.futexWait2 m (s.mem .cvnum)))
  | .test n => some (s.goto p (if s.mem .cvnum ≠ n then .wake n else .sub n))
  | .sub n => some (s.goto p (.clear n (s.mem .cvnum)))
  | .clear n v => some ((s.put .cvnum (sub32 v n)).goto p (.release .bcast))
  | .futexWait _ | .futexWake _ | .futexWait2 _ _ | .wake _ => s.enter p
  | .idle | .released _ _ | .woken _ _ => none

/-- A step of `p` in a system call; `ok w` says that `argptr` accepts the address of `w`. -/
def State.sys (ok : Word → Bool) (s : State) (p : Fin NPROC) : Option State :=
  match (s.proc p).pc with
  | .futexWait k =>
    if ok k.lockWord = false then some (s.retTo p (.testSet k))
    else if s.ptlock ≠ none then none
    else if s.mem k.lockWord = 1 then some (s.sleep p k.lockWord (.testSet k))
    else some (s.retTo p (.testSet k))
  | .futexWake k =>
    if ok k.unlockWord = false then some (s.retTo p k.unlocked)
    else if s.ptlock ≠ none then none
    else some ((s.wakeup k.unlockWord).retTo p k.unlocked)
  | .futexWait2 m val =>
    if ok .cvnum = false ∨ ok .cvslock = false then some (s.retTo p (.testSet (.own m)))
    else if s.ptlock ≠ none then none
    else some ({ s.put .cvslock 0 with ptlock := some p }.goto p (.released m val))
  | .released m val => some ((s.wakeup .cvslock).goto p (.woken m val))
  | .woken m val =>
    let s := { s with ptlock := none }
    if s.mem .cvnum = val then some (s.sleep p .cvnum (.testSet (.own m)))
    else some (s.retTo p (.testSet (.own m)))
  | .wake n =>
    if ok .cvnum = false then some (s.retTo p (.test (sub32 n 1)))
    else if s.ptlock ≠ none then none
    else some ((s.wakeup .cvnum).retTo p (.test (u32 (n + s.asleepOn .cvnum))))
  | _ => none

inductive Call where
  | cvWait (m : ℕ)
  | cvBcast
  | mutexLock (m : ℕ)
  | mutexUnlock (m : ℕ)

def Call.entry : Call → Pc
  | .cvWait m => .testSet (.wait m)
  | .cvBcast => .testSet .bcast
  | .mutexLock m => .testSet (.own m)
  | .mutexUnlock m => .release (.own m)

inductive Act where
  /-- a new process -/
  | fork (p : Fin NPROC)
  | call (p : Fin NPROC) (c : Call)
  | step (p : Fin NPROC)
  /-- the scheduler gives `p` a processor -/
  | run (p : Fin NPROC)
  /-- a timer interrupt while `p` is in user code -/
  | tick (p : Fin NPROC)
  | kill (p : Fin NPROC)

/-- A step of the system; `none` where it cannot be taken now. -/
def State.next (ok : Word → Bool) (s : State) : Act → Option State
  | .fork p =>
    if s.ptlock = none ∧ (s.proc p).state = .unused then
      some (s.set p { s.proc p with state := .runnable })
    else none
  | .call p c =>
    if (s.proc p).state = .running ∧ (s.proc p).mode = .user ∧ (s.proc p).pc = .idle then
      some (s.goto p c.entry)
    else none
  | .step p =>
    if (s.proc p).state = .running then
      match (s.proc p).mode with
      | .user => s.user p
      | .sys => s.sys ok p
      | .ret =>
        if (s.proc p).killed then
          if s.ptlock = none then some (s.exit p) else none
        else some (s.set p { s.proc p with mode := .user })
    else none
  | .run p =>
    if s.ptlock = none ∧ (s.proc p).state = .runnable then
      some (s.set p { s.proc p with state := .running })
    else none
  | .tick p =>
    if s.ptlock = none ∧ (s.proc p).state = .running ∧ (s.proc p).mode = .user then
      some (if (s.proc p).killed then s.exit p else s.set p { s.proc p with state := .runnable })
    else none
  | .kill p =>
    if s.ptlock = none then
      let st := match (s.proc p).state with
        | .sleeping _ => .runnable
        | st => st
      some (s.set p { s.proc p with killed := true, state := st })
    else none

/-- All words zero, as `cv_init` and `mutex_init` leave them, and no process yet. -/
def system (ok : Word → Bool) : Trace.System State Act where
  init s := s = {}
  step s a s' := s.next ok a = some s'

/-- Asleep on `&cvnum`, or in `sys_futex_wait2` and about to sleep on it. -/
def Proc.waiting (x : Proc) : Bool :=
  asleep .cvnum x ||
    match x.pc with
    | .released _ _ | .woken _ _ => true
    | _ => false

def State.waiters (s : State) : ℕ := refs Finset.univ (fun p => (s.proc p).waiting) true

end Xv6.Cond

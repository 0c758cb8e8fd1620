import Xv6.Lib.Run
import Mathlib.Data.Nat.Notation
import Mathlib.Logic.Function.Basic

/-! The mutexes of `ulib.c` over the futex calls of `sysproc.c`, for any set `P` of processes that share
them. A step is one access to a shared word, or a section of kernel code under `ptable.lock` that
touches none; a call that reads or writes a shared word while it has that lock takes it in a step
of its own. `argptr` accepts the addresses of the words. -/

namespace Xv6.Mutex

/-- A shared word: the `lock` of a mutex, or one that `futex_wait2` waits on. -/
inductive Word where
  | lock (m : ℕ)
  | loc (l : ℕ)
deriving DecidableEq

/-- The next thing a process does. -/
inductive Pc where
  | user
  /-- `__sync_lock_test_and_set` of `mutex_lock` and of `mutex_trylock` -/
  | testSet (m : ℕ)
  | tryTestSet (m : ℕ)
  /-- `sys_futex_wait`: `acquire`, the test `*loc == val`, `sleep` -/
  | wait (m : ℕ)
  | waitTest (m : ℕ)
  | waitSleep (m : ℕ)
  /-- `__sync_lock_release` of `mutex_unlock`, and its `futex_wake` -/
  | release (m : ℕ)
  | wake (m : ℕ)
  /-- `sys_futex_wait2`: `acquire`, `lk->lock=0`, `wakeupfutex2`, the test, `sleep` -/
  | wait2 (l val m : ℕ)
  | wait2Store (l val m : ℕ)
  | wait2Wake (l val m : ℕ)
  | wait2Test (l val : ℕ)
  | wait2Sleep (l : ℕ)
deriving DecidableEq

inductive PState where
  | unused
  | runnable
  | running
  | sleeping (chan : Word)
deriving DecidableEq

structure Proc where
  state : PState := .unused
  pc : Pc := .user
  /-- the mutexes that the process has locked and not released -/
  locked : ℕ → Bool := fun _ => false

structure State (P : Type) where
  mem : Word → ℕ := fun _ => 0
  /-- the process that holds `ptable.lock` across steps -/
  ptlock : Option P := none
  proc : P → Proc := fun _ => {}

section

variable {P : Type} [DecidableEq P] (s : State P) (p : P)

def State.set (x : Proc) : State P := { s with proc := Function.update s.proc p x }

def State.put (w : Word) (v : ℕ) : State P := { s with mem := Function.update s.mem w v }

def State.goto (pc : Pc) : State P := s.set p { s.proc p with pc := pc }

/-- The test-and-set has found the word 0. -/
def State.take (m : ℕ) : State P :=
  s.set p { s.proc p with pc := .user, locked := Function.update (s.proc p).locked m true }

/-- 0 is stored to the lock, and the call goes on at `pc`. -/
def State.drop (m : ℕ) (pc : Pc) : State P :=
  (s.put (.lock m) 0).set p { s.proc p with pc := pc, locked := Function.update (s.proc p).locked m false }

/-- `sleep`, with `ptable.lock` given up by the scheduler; the process goes on at `pc`. -/
def State.sleep (w : Word) (pc : Pc) : State P :=
  { s with ptlock := none }.set p { s.proc p with state := .sleeping w, pc := pc }

omit [DecidableEq P] in
/-- `wakeupfutex1` -/
def State.wakeup (w : Word) : State P :=
  { s with proc := fun p =>
      if (s.proc p).state = .sleeping w then { s.proc p with state := .runnable } else s.proc p }

/-- A step of the code that `p` is in. -/
def State.code : Option (State P) :=
  match (s.proc p).pc with
  | .user => none
  | .testSet m =>
    if s.mem (.lock m) ≠ 0 then some ((s.put (.lock m) 1).goto p (.wait m))
    else some ((s.put (.lock m) 1).take p m)
  | .tryTestSet m =>
    if s.mem (.lock m) ≠ 0 then some ((s.put (.lock m) 1).goto p .user)
    else some ((s.put (.lock m) 1).take p m)
  | .wait m => if s.ptlock = none then some ({ s with ptlock := some p }.goto p (.waitTest m)) else none
  | .waitTest m =>
    if s.mem (.lock m) = 1 then some (s.goto p (.waitSleep m))
    else some ({ s with ptlock := none }.goto p (.testSet m))
  | .waitSleep m => some (s.sleep p (.lock m) (.testSet m))
  | .release m => some (s.drop p m (.wake m))
  | .wake m => if s.ptlock = none then some ((s.wakeup (.lock m)).goto p .user) else none
  | .wait2 l val m =>
    if s.ptlock = none then some ({ s with ptlock := some p }.goto p (.wait2Store l val m)) else none
  | .wait2Store l val m => some (s.drop p m (.wait2Wake l val m))
  | .wait2Wake l val m => some ((s.wakeup (.lock m)).goto p (.wait2Test l val))
  | .wait2Test l val =>
    if s.mem (.loc l) = val then some (s.goto p (.wait2Sleep l))
    else some ({ s with ptlock := none }.goto p .user)
  | .wait2Sleep l => some (s.sleep p (.loc l) .user)

end

inductive Call where
  | lock (m : ℕ)
  | trylock (m : ℕ)
  | unlock (m : ℕ)
  /-- `futex_wait2` on another word than a lock -/
  | wait2 (l val m : ℕ)

def Call.entry : Call → Pc
  | .lock m => .testSet m
  | .trylock m => .tryTestSet m
  | .unlock m => .release m
  | .wait2 l val m => .wait2 l val m

/-- Only the holder releases a mutex. -/
def Call.allowed (x : Proc) : Call → Bool
  | .lock _ | .trylock _ => true
  | .unlock m | .wait2 _ _ m => x.locked m

/-- In a section of kernel code that has `ptable.lock`, where no timer interrupt comes. -/
def Pc.locks : Pc → Bool
  | .waitTest _ | .waitSleep _ | .wait2Store _ _ _ | .wait2Wake _ _ _ | .wait2Test _ _ | .wait2Sleep _ => true
  | _ => false

inductive Act (P : Type) where
  | fork (p : P)
  | exit (p : P)
  | call (p : P) (c : Call)
  | step (p : P)
  /-- the program stores to a word that is no lock -/
  | store (p : P) (l v : ℕ)
  /-- the scheduler gives `p` a processor, and takes it away -/
  | run (p : P)
  | tick (p : P)

/-- A step of the system; `none` where it cannot be taken now. -/
def State.next {P : Type} [DecidableEq P] (s : State P) : Act P → Option (State P)
  | .fork p =>
    if s.ptlock = none ∧ (s.proc p).state = .unused then some (s.set p { state := .runnable }) else none
  | .exit p =>
    if s.ptlock = none ∧ (s.proc p).state = .running ∧ (s.proc p).pc = .user then some (s.set p {}) else none
  | .call p c =>
    if (s.proc p).state = .running ∧ (s.proc p).pc = .user ∧ c.allowed (s.proc p) = true then
      some (s.goto p c.entry)
    else none
  | .step p => if (s.proc p).state = .running then s.code p else none
  | .store p l v =>
    if (s.proc p).state = .running ∧ (s.proc p).pc = .user then some (s.put (.loc l) v) else none
  | .run p =>
    if s.ptlock = none ∧ (s.proc p).state = .runnable then
      some (s.set p { s.proc p with state := .running })
    else none
  | .tick p =>
    if s.ptlock = none ∧ (s.proc p).state = .running ∧ (s.proc p).pc.locks = false then
      some (s.set p { s.proc p with state := .runnable })
    else none

/-- All words 0, as `mutex_init` leaves them, and no process yet. -/
def system (P : Type) [DecidableEq P] : Trace.System (State P) (Act P) where
  init s := s = {}
  step s a s' := s.next a = some s'

/-- Has stored 0 to the lock of `m`, with the wake to come. -/
def Pc.owes (m : ℕ) : Pc → Bool
  | .wake n | .wait2Wake _ _ n => n = m
  | _ => false

end Xv6.Mutex

import Xv6.Lib.Run
import Mathlib.Logic.Function.Basic

/-! `sleep` and `wakeup` of `proc.c`, for any set `P` of processes and one channel, among other channels `C`. The
lock `lk` of the channel is `ptable.lock` or another spinlock. It protects data `D`; a process that
sleeps on the channel waits for one of the conditions `I` on them. A step is one acquire or release, or
what a holder of `ptable.lock` does to the process table before its next one. -/

namespace Xv6.Sleep

inductive Lock where
  | ptable
  | other
deriving DecidableEq

/-- A spinlock is held by a process, or by the scheduler of a processor. -/
inductive Holder (P : Type) where
  | proc (p : P)
  | sched
deriving DecidableEq

/-- What a process sleeps for: a condition, on the channel, or anything, on another one. -/
inductive Wait (C I : Type) where
  | here (i : I)
  | on (c : C)
deriving DecidableEq

/-- `none` is the channel. -/
def Wait.chan {C I : Type} : Wait C I → Option C
  | .here _ => none
  | .on c => some c

inductive PState (C I : Type) where
  | unused
  | runnable
  | running
  | sleeping (w : Wait C I)
  | zombie
deriving DecidableEq

/-- How a process that is in no section of `lk` calls `sched`: in `yield`, in `sleep` with a lock of its own, in `exit`. -/
inductive Rest (C : Type) where
  | yield
  | sleep (c : C)
  | exit

def Rest.state {C I : Type} : Rest C → PState C I
  | .yield => .runnable
  | .sleep c => .sleeping (.on c)
  | .exit => .zombie

/-- The next thing a process does. -/
inductive Pc (P C I : Type) where
  | out
  /-- `acquire(lk)` -/
  | enter
  /-- between `acquire(lk)` and `release(lk)` -/
  | inside
  /-- `sleep`: `acquire(&ptable.lock)`, `release(lk)`, the new state and `sched`; when `sched` returns, and
  `acquire(lk)` again -/
  | sleep (w : Wait C I)
  | sleepRel (w : Wait C I)
  | sleepSet (w : Wait C I)
  | back
  | relock
  /-- `wakeup`, in a section of `lk` or not: `acquire(&ptable.lock)`, `wakeup1`, the release -/
  | wake (c : Option C) (locked : Bool)
  | wakeDo (c : Option C) (locked : Bool)
  | wakeRel (locked : Bool)
  | kill (q : P)
  | killDo (q : P)
  | killRel
  | rest (r : Rest C)
  | restSet (r : Rest C)
  /-- `forkret`, and `yield` and `sleep` when `sched` returns -/
  | restBack

structure Proc (P C I : Type) where
  state : PState C I := .unused
  pc : Pc P C I := .out
  /-- in its section of `lk` it may have made a condition true, and has not called `wakeup` -/
  owes : Bool := false
  /-- in its section of `lk` it has called `wakeup` -/
  woke : Bool := false

structure State (P C D I : Type) where
  data : D
  lock : Lock → Option (Holder P) := fun _ => none
  proc : P → Proc P C I := fun _ => {}

section

variable {P C D I : Type} [DecidableEq P] [DecidableEq C]

def State.set (s : State P C D I) (p : P) (x : Proc P C I) : State P C D I :=
  { s with proc := Function.update s.proc p x }

def State.goto (s : State P C D I) (p : P) (pc : Pc P C I) : State P C D I := s.set p { s.proc p with pc := pc }

def State.setLock (s : State P C D I) (l : Lock) (o : Option (Holder P)) : State P C D I :=
  { s with lock := Function.update s.lock l o }

/-- `acquire`, in a process -/
def State.acquire (s : State P C D I) (p : P) (l : Lock) (pc : Pc P C I) : Option (State P C D I) :=
  match s.lock l with
  | none => some ((s.setLock l (some (.proc p))).goto p pc)
  | some _ => none

def State.release (s : State P C D I) (p : P) (l : Lock) (pc : Pc P C I) : State P C D I :=
  (s.setLock l none).goto p pc

/-- `sched`: the scheduler goes on, with `ptable.lock`. -/
def State.sched (s : State P C D I) (p : P) (st : PState C I) (pc : Pc P C I) : State P C D I :=
  (s.setLock .ptable (some .sched)).set p { s.proc p with state := st, pc := pc }

/-- `wakeup1` -/
def State.wakeup (s : State P C D I) (c : Option C) : State P C D I :=
  { s with proc := fun p =>
      match (s.proc p).state with
      | .sleeping w => if w.chan = c then { s.proc p with state := .runnable } else s.proc p
      | _ => s.proc p }

/-- What `kill` does to its target. -/
def State.unsleep (s : State P C D I) (q : P) : State P C D I :=
  match (s.proc q).state with
  | .sleeping _ => s.set q { s.proc q with state := .runnable }
  | _ => s

/-- The end of a section of `lk`. -/
def State.endSection (s : State P C D I) (p : P) : State P C D I := s.set p { s.proc p with woke := false }

/-- A step of the code that `p` is in. -/
def State.code (lk : Lock) (s : State P C D I) (p : P) : Option (State P C D I) :=
  match (s.proc p).pc with
  | .out | .inside => none
  | .enter => s.acquire p lk .inside
  | .sleep w => if lk = .ptable then some (s.goto p (.sleepSet w)) else s.acquire p .ptable (.sleepRel w)
  | .sleepRel w => some (s.release p lk (.sleepSet w))
  | .sleepSet w => some (s.sched p (.sleeping w) .back)
  | .back => if lk = .ptable then some (s.goto p .inside) else some (s.release p .ptable .relock)
  | .relock => s.acquire p lk .inside
  | .wake c b => if lk = .ptable ∧ b = true then some (s.goto p (.wakeDo c b)) else s.acquire p .ptable (.wakeDo c b)
  | .wakeDo c b =>
    let s := s.wakeup c
    if c = none ∧ b = true then some (s.set p { s.proc p with owes := false, woke := true, pc := .wakeRel b })
    else some (s.goto p (.wakeRel b))
  | .wakeRel b =>
    if lk = .ptable ∧ b = true then some (s.goto p .inside)
    else some (s.release p .ptable (if b then .inside else .out))
  | .kill q => s.acquire p .ptable (.killDo q)
  | .killDo q => some ((s.unsleep q).goto p .killRel)
  | .killRel => some (s.release p .ptable .out)
  | .rest r => s.acquire p .ptable (.restSet r)
  | .restSet r => some (s.sched p r.state .restBack)
  | .restBack => some (s.release p .ptable .out)

end

inductive Act (P C D I : Type) where
  | fork (p : P)
  | step (p : P)
  /-- from outside a section of `lk` -/
  | enter (p : P)
  | kill (p q : P)
  | rest (p : P) (r : Rest C)
  /-- in a section or not -/
  | wakeup (p : P) (c : Option C)
  /-- in a section: new data that may make a condition true; `sleep` with `lk`, on the channel by a process whose
  condition is false; the release of `lk`; and `exit`, when `lk` is `ptable.lock` -/
  | change (p : P) (d : D)
  | sleep (p : P) (w : Wait C I)
  | leave (p : P)
  | exit (p : P)
  /-- new data that make no condition true, with `lk` or without -/
  | keep (d : D)
  /-- in `wait` of the parent -/
  | reap (p : P)
  /-- the scheduler of a processor: `acquire`, the switch to a process, `release` -/
  | scan
  | dispatch (p : P)
  | unscan

section

variable {P C D I : Type} [DecidableEq P] [DecidableEq C] (lk : Lock) (cond : I → D → Bool)

/-- A step of the system; `none` where it cannot be taken now. -/
def State.next (s : State P C D I) : Act P C D I → Option (State P C D I)
  | .fork p =>
    match (s.proc p).state with
    | .unused => some (s.set p { state := .runnable, pc := .restBack })
    | _ => none
  | .step p =>
    match (s.proc p).state with
    | .running => s.code lk p
    | _ => none
  | .enter p =>
    match (s.proc p).state, (s.proc p).pc with
    | .running, .out => some (s.goto p .enter)
    | _, _ => none
  | .kill p q =>
    match (s.proc p).state, (s.proc p).pc with
    | .running, .out => some (s.goto p (.kill q))
    | _, _ => none
  | .rest p r =>
    match (s.proc p).state, (s.proc p).pc with
    | .running, .out => some (s.goto p (.rest r))
    | _, _ => none
  | .wakeup p c =>
    match (s.proc p).state, (s.proc p).pc with
    | .running, .out => some (s.goto p (.wake c false))
    | .running, .inside => some (s.goto p (.wake c true))
    | _, _ => none
  | .change p d =>
    match (s.proc p).state, (s.proc p).pc with
    | .running, .inside => some { s.set p { s.proc p with owes := !(s.proc p).woke } with data := d }
    | _, _ => none
  | .sleep p w =>
    match (s.proc p).state, (s.proc p).pc with
    | .running, .inside =>
      match w with
      | .here i =>
        if (s.proc p).owes = false ∧ cond i s.data = false then some ((s.endSection p).goto p (.sleep w)) else none
      | .on _ => if (s.proc p).owes = false then some ((s.endSection p).goto p (.sleep w)) else none
    | _, _ => none
  | .leave p =>
    match (s.proc p).state, (s.proc p).pc with
    | .running, .inside => if (s.proc p).owes = false then some ((s.endSection p).release p lk .out) else none
    | _, _ => none
  | .exit p =>
    match (s.proc p).state, (s.proc p).pc with
    | .running, .inside =>
      if lk = .ptable ∧ (s.proc p).owes = false then some ((s.endSection p).goto p (.restSet .exit)) else none
    | _, _ => none
  | .keep d => some { s with data := d }
  | .reap p =>
    match (s.proc p).state with
    | .zombie => some (s.set p {})
    | _ => none
  | .scan =>
    match s.lock .ptable with
    | none => some (s.setLock .ptable (some .sched))
    | some _ => none
  | .dispatch p =>
    match s.lock .ptable, (s.proc p).state with
    | some .sched, .runnable =>
      some ((s.setLock .ptable (some (.proc p))).set p { s.proc p with state := .running })
    | _, _ => none
  | .unscan =>
    match s.lock .ptable with
    | some .sched => some (s.setLock .ptable none)
    | _ => none

/-- The data that `keep` stores make no condition true that is false. -/
def Act.fits (s : State P C D I) : Act P C D I → Prop
  | .keep d => ∀ i, cond i s.data = false → cond i d = false
  | _ => True

/-- The locks free, no process yet, any data. -/
def system : Trace.System (State P C D I) (Act P C D I) where
  init s := ∃ d, s = { data := d }
  step s a s' := a.fits cond s ∧ s.next lk cond a = some s'

end

end Xv6.Sleep

import Xv6.Lib.Run
import Xv6.Spec.Param
import Mathlib.Logic.Function.Basic
import Mathlib.Data.Fintype.Basic

/-! The process table of `proc.c` under any number of processors `K`: `scheduler`, `sched`, `yield`, `sleep`, `wakeup`,
`fork`, `exit`, `wait` and `kill`. Each processor takes steps of the code whose stack it runs on. Between
`acquire` and `release` of `ptable.lock` a step is what the holder does up to its next `swtch` or
`release`; what `fork` writes without the lock is in steps of its own. -/

namespace Xv6.Sched

abbrev Slot := Fin NPROC

/-- The slot that `userinit` gets. -/
def initproc : Slot := ⟨0, NPROC_pos⟩

inductive PState where
  | unused
  | embryo
  | sleeping
  | runnable
  | running
  | zombie
deriving DecidableEq

/-- What a process sleeps on: a process, in `wait`, or any other address. -/
inductive Chan where
  | proc (p : Slot)
  | addr (a : BitVec 32)
deriving DecidableEq

/-- Where a process is, on its kernel stack. An interrupt puts `yield` or `wakeup` on top of `k`. -/
inductive Pc where
  /-- user code, or kernel code that needs no `ptable.lock` -/
  | out
  | forkret
  /-- `acquire(&ptable.lock)`, the new state and `sched`, `release(&ptable.lock)` -/
  | yield (k : Pc)
  | yieldSet (k : Pc)
  | yieldBack (k : Pc)
  | wakeup (chan : Chan) (k : Pc)
  | wakeupDo (chan : Chan) (k : Pc)
  | wakeupRel (k : Pc)
  /-- `sleep` with a lock of its own -/
  | sleep (chan : Chan)
  | sleepSet (chan : Chan)
  | sleepBack
  | kill (pid : BitVec 32)
  | killDo (pid : BitVec 32)
  | killRel
  | exit
  | exitDo
  | exited
  | wait
  | waitScan
  | waitBack
  | waitRel
  /-- `allocproc`: `acquire(&ptable.lock)`, the search, the release, `kalloc` -/
  | fork
  | forkFind
  | forkRel (np : Option Slot)
  | forkStack (np : Slot)
  | forkCow (np : Slot)
  | forkParent (np : Slot)
  | forkRun (np : Slot)
  | forkSet (np : Slot)
  | forkDone
deriving DecidableEq

/-- Where a processor is in `scheduler`, or in an interrupt that came there. -/
inductive SPc where
  | idle
  | scan (i : ℕ)
  | switch (p : Slot)
  | back (p : Slot)
  | wakeup (chan : Chan)
  | wakeupDo (chan : Chan)
  | wakeupRel
deriving DecidableEq

structure Proc where
  state : PState := .unused
  pid : BitVec 32 := 0
  parent : Option Slot := none
  kstack : Option ℕ := none
  chan : Option Chan := none
  killed : Bool := false
  pc : Pc := .out

structure Cpu where
  proc : Option Slot := none
  /-- the process whose kernel stack it runs on; `none` for the stack of `scheduler` -/
  on : Option Slot := none
  pc : SPc := .idle

structure State (K : Type) where
  lock : Option K := none
  cpu : K → Cpu := fun _ => {}
  proc : Slot → Proc := fun _ => {}
  nextpid : BitVec 32 := 1

/-- What a step tells: the slot that `allocproc` takes, the slot that a `fork` that fails gives back, the slot that
`kill` marks, a fault, an exit, and the child, its pid and the kernel stack that `wait` frees. -/
inductive Event where
  | alloc (p : Slot) (pid : BitVec 32)
  | fail (p : Slot)
  | kill (pid : BitVec 32) (p : Option Slot)
  | fault (p : Slot)
  | exit (p : Slot) (pid : BitVec 32)
  | wait (p child : Slot) (pid : BitVec 32) (kstack : Option ℕ)
deriving DecidableEq

section

variable {K : Type} [DecidableEq K]

def State.set (s : State K) (p : Slot) (x : Proc) : State K := { s with proc := Function.update s.proc p x }

def State.setCpu (s : State K) (c : K) (x : Cpu) : State K := { s with cpu := Function.update s.cpu c x }

def State.goto (s : State K) (p : Slot) (pc : Pc) : State K := s.set p { s.proc p with pc := pc }

def State.setState (s : State K) (p : Slot) (st : PState) : State K := s.set p { s.proc p with state := st }

def State.sgoto (s : State K) (c : K) (pc : SPc) : State K := s.setCpu c { s.cpu c with pc := pc }

/-- `acquire(&ptable.lock)`, which spins while another processor has it -/
def State.acquire (s : State K) (c : K) : Option (State K) :=
  match s.lock with
  | none => some { s with lock := some c }
  | some _ => none

def State.release (s : State K) : State K := { s with lock := none }

/-- `sched`: the process goes on at `pc` when it runs again, the processor in `scheduler`. -/
def State.sched (s : State K) (c : K) (p : Slot) (pc : Pc) : State K :=
  (s.goto p pc).setCpu c { s.cpu c with on := none }

/-- `wakeup1` -/
def State.wakeup1 (s : State K) (chan : Option Chan) : State K :=
  { s with proc := fun p =>
      if (s.proc p).state = .sleeping ∧ (s.proc p).chan = chan then { s.proc p with state := .runnable } else s.proc p }

/-- One round of the loop of `exit`. -/
def State.abandon (cur : Slot) (s : State K) (p : Slot) : State K :=
  if (s.proc p).parent = some cur then
    let s := s.set p { s.proc p with parent := some initproc }
    if (s.proc p).state = .zombie then s.wakeup1 (some (.proc initproc)) else s
  else s

/-- What `exit` does with `ptable.lock`, before `sched`. -/
def State.exit (s : State K) (cur : Slot) : State K :=
  let s := s.wakeup1 ((s.proc cur).parent.map .proc)
  let s := (List.finRange NPROC).foldl (State.abandon cur) s
  s.setState cur .zombie

/-- `wait` frees a child's slot. -/
def State.reap (s : State K) (p : Slot) : State K :=
  s.set p { s.proc p with kstack := none, pid := 0, parent := none, killed := false, state := .unused }

/-- `kill` marks a process. -/
def State.mark (s : State K) (p : Slot) : State K :=
  s.set p { s.proc p with
    killed := true
    state := if (s.proc p).state = .sleeping then .runnable else (s.proc p).state }

/-- The slot that `kill(pid)` finds. -/
def State.named (s : State K) (pid : BitVec 32) : Option Slot :=
  (List.finRange NPROC).find? fun p => (s.proc p).pid = pid

/-- The child that a round of `wait` finds. -/
def State.zombieChild (s : State K) (cur : Slot) : Option Slot :=
  (List.finRange NPROC).find? fun p => (s.proc p).parent = some cur ∧ (s.proc p).state = .zombie

def State.havekids (s : State K) (cur : Slot) : Bool :=
  (List.finRange NPROC).any fun p => (s.proc p).parent = some cur

def State.firstUnused (s : State K) : Option Slot :=
  (List.finRange NPROC).find? fun p => (s.proc p).state = .unused

/-- A step of the code on the kernel stack of `p`; `cur` is `myproc()`. -/
def State.code (s : State K) (c : K) (p cur : Slot) : Pc → Option (State K × Option Event)
  | .out | .forkStack _ | .forkCow _ | .exited => none
  | .forkret => some (s.release.goto p .out, none)
  | .yield k => (s.acquire c).map fun s => (s.goto p (.yieldSet k), none)
  | .yieldSet k => some ((s.setState cur .runnable).sched c p (.yieldBack k), none)
  | .yieldBack k => some (s.release.goto p k, none)
  | .wakeup ch k => (s.acquire c).map fun s => (s.goto p (.wakeupDo ch k), none)
  | .wakeupDo ch k => some ((s.wakeup1 (some ch)).goto p (.wakeupRel k), none)
  | .wakeupRel k => some (s.release.goto p k, none)
  | .sleep ch => (s.acquire c).map fun s => (s.goto p (.sleepSet ch), none)
  | .sleepSet ch => some ((s.set cur { s.proc cur with chan := some ch, state := .sleeping }).sched c p .sleepBack, none)
  | .sleepBack => some ((s.set cur { s.proc cur with chan := none }).release.goto p .out, none)
  | .kill pid => (s.acquire c).map fun s => (s.goto p (.killDo pid), none)
  | .killDo pid =>
    match s.named pid with
    | some q => some ((s.mark q).goto p .killRel, some (.kill pid (some q)))
    | none => some (s.goto p .killRel, some (.kill pid none))
  | .killRel => some (s.release.goto p .out, none)
  | .exit => (s.acquire c).map fun s => (s.goto p .exitDo, none)
  | .exitDo => some ((s.exit cur).sched c p .exited, some (.exit cur (s.proc cur).pid))
  | .wait => (s.acquire c).map fun s => (s.goto p .waitScan, none)
  | .waitScan =>
    match s.zombieChild cur with
    | some q => some ((s.reap q).goto p .waitRel, some (.wait cur q (s.proc q).pid (s.proc q).kstack))
    | none =>
      if s.havekids cur = false ∨ (s.proc cur).killed = true then some (s.goto p .waitRel, none)
      else some ((s.set cur { s.proc cur with chan := some (.proc cur), state := .sleeping }).sched c p .waitBack, none)
  | .waitBack => some ((s.set cur { s.proc cur with chan := none }).goto p .waitScan, none)
  | .waitRel => some (s.release.goto p .out, none)
  | .fork => (s.acquire c).map fun s => (s.goto p .forkFind, none)
  | .forkFind =>
    match s.firstUnused with
    | some np =>
      let s' := { s.set np { s.proc np with state := .embryo, pid := s.nextpid } with nextpid := s.nextpid + 1 }
      some (s'.goto p (.forkRel (some np)), some (.alloc np s.nextpid))
    | none => some (s.goto p (.forkRel none), none)
  | .forkRel none => some (s.release.goto p .out, none)
  | .forkRel (some np) => some (s.release.goto p (.forkStack np), none)
  | .forkParent np => some ((s.set np { s.proc np with parent := some cur }).goto p (.forkRun np), none)
  | .forkRun np => (s.acquire c).map fun s => (s.goto p (.forkSet np), none)
  | .forkSet np => some ((s.setState np .runnable).goto p .forkDone, none)
  | .forkDone => some (s.release.goto p .out, none)

/-- A step of `scheduler`, or of an interrupt that came there. -/
def State.scheduler (s : State K) (c : K) : Option (State K) :=
  match (s.cpu c).pc with
  | .idle => (s.acquire c).map (·.sgoto c (.scan 0))
  | .scan i =>
    if h : i < NPROC then
      if (s.proc ⟨i, h⟩).state = .runnable then
        some ((s.setState ⟨i, h⟩ .running).setCpu c { s.cpu c with proc := some ⟨i, h⟩, pc := .switch ⟨i, h⟩ })
      else some (s.sgoto c (.scan (i + 1)))
    else some (s.release.sgoto c .idle)
  | .switch p => some (s.setCpu c { s.cpu c with on := some p, pc := .back p })
  | .back p => some (s.setCpu c { s.cpu c with proc := none, pc := .scan (p + 1) })
  | .wakeup ch => (s.acquire c).map (·.sgoto c (.wakeupDo ch))
  | .wakeupDo ch => some ((s.wakeup1 (some ch)).sgoto c .wakeupRel)
  | .wakeupRel => some (s.release.sgoto c .idle)

end

/-- No lock is held there, so interrupts are on. -/
def Pc.intena : Pc → Bool
  | .out | .yield _ | .wakeup _ _ | .sleep _ | .kill _ | .exit | .wait | .fork | .forkStack _ | .forkCow _
  | .forkParent _ | .forkRun _ => true
  | _ => false

/-- What a process does next on its own. -/
inductive Call where
  | wakeup (chan : Chan)
  | sleep (a : BitVec 32)
  | kill (pid : BitVec 32)
  | exit
  | wait
  | fork
  /-- `trap` or `pagefault` sets `killed`. -/
  | fault

inductive Act (K : Type) where
  | step (c : K)
  /-- the page that `kalloc` gives `allocproc` -/
  | kalloc (c : K) (page : Option ℕ)
  | cowuvm (c : K) (ok : Bool)
  | call (c : K) (r : Call)
  /-- interrupts: the timer, and a device that wakes sleepers -/
  | tick (c : K)
  | device (c : K) (chan : Chan)

section

variable {K : Type} [DecidableEq K]

/-- A system call or a fault of a process that runs no code of `proc.c`; `init` does not exit. -/
def State.call (s : State K) (p cur : Slot) : Call → Option (State K × Option Event)
  | .wakeup ch => some (s.goto p (.wakeup ch .out), none)
  | .sleep a => some (s.goto p (.sleep (.addr a)), none)
  | .kill pid => some (s.goto p (.kill pid), none)
  | .exit => if cur = initproc then none else some (s.goto p .exit, none)
  | .wait => some (s.goto p .wait, none)
  | .fork => some (s.goto p .fork, none)
  | .fault => some (s.set cur { s.proc cur with killed := true }, some (.fault cur))

/-- A step of the system; `none` where it cannot be taken now. -/
def State.next (s : State K) : Act K → Option (State K × Option Event)
  | .step c =>
    match (s.cpu c).on, (s.cpu c).proc with
    | none, _ => (s.scheduler c).map (·, none)
    | some p, some cur => s.code c p cur (s.proc p).pc
    | some _, none => none
  | .kalloc c page =>
    match (s.cpu c).on with
    | none => none
    | some p =>
      match (s.proc p).pc, page with
      | .forkStack np, some k =>
        -- `kalloc` gives no page that is in use
        if ∀ q, (s.proc q).kstack ≠ some k then
          some ((s.set np { s.proc np with kstack := some k, pc := .forkret }).goto p (.forkCow np), none)
        else none
      | .forkStack np, none =>
        some ((s.set np { s.proc np with kstack := none, state := .unused }).goto p .out, some (.fail np))
      | _, _ => none
  | .cowuvm c ok =>
    match (s.cpu c).on with
    | none => none
    | some p =>
      match (s.proc p).pc, ok with
      | .forkCow np, true => some (s.goto p (.forkParent np), none)
      | .forkCow np, false =>
        some ((s.set np { s.proc np with kstack := none, state := .unused }).goto p .out, some (.fail np))
      | _, _ => none
  | .call c r =>
    match (s.cpu c).on, (s.cpu c).proc with
    | some p, some cur => if (s.proc p).pc = .out then s.call p cur r else none
    | _, _ => none
  | .tick c =>
    match (s.cpu c).on with
    | none => none
    | some p => if (s.proc p).pc.intena = true then some (s.goto p (.yield (s.proc p).pc), none) else none
  | .device c ch =>
    match (s.cpu c).on with
    | none => if (s.cpu c).pc = .idle then some (s.sgoto c (.wakeup ch), none) else none
    | some p => if (s.proc p).pc.intena = true then some (s.goto p (.wakeup ch (s.proc p).pc), none) else none

/-- What `userinit` leaves: the first process, with a kernel stack. -/
def userinit (K : Type) (kstack : ℕ) : State K where
  proc := Function.update (fun _ => {}) initproc { state := .runnable, pid := 1, kstack := some kstack, pc := .forkret }
  nextpid := 2

variable (K) in
/-- A label is the step taken, with what it tells. -/
def system : Trace.System (State K) (Act K × Option Event) where
  init s := ∃ kstack, s = userinit K kstack
  step s a s' := s.next a.1 = some (s', a.2)

end

end Xv6.Sched

import Xv6.Lib.Run
import Xv6.Spec.Fs
import Mathlib.Data.Finset.Dedup

/-! `log.c` on top of the buffer cache of `bio.c`. A block is 128 words. A step is one call that
holds `log.lock`, one disk write, or a crash; what happens between two of them only reads the disk
and changes memory that a crash loses. -/

namespace Xv6

open Function

abbrev Block := ℕ → ℕ

structure Buf where
  data : Block
  dirty : Bool

/-- `struct log`; `lh` is `lh.block[0]` to `lh.block[lh.n - 1]`. -/
structure Log where
  start : ℕ
  size : ℕ
  outstanding : ℕ := 0
  committing : Bool := false
  lh : List ℕ := []

/-- A file-system operation: not begun, between `begin_op` and `end_op`, inside `log_write` for a
block after the tests on the log's size, or past its `end_op`. -/
inductive OpState where
  | new
  | running
  | checked (b : ℕ)
  | done
deriving DecidableEq

/-- Where the kernel is in `recover_from_log` or in `commit`. -/
inductive Phase where
  /-- before `read_head` -/
  | boot
  | run
  | writeLog (tail : ℕ)
  | writeHead
  | install (recovery : Bool) (tail : ℕ)
  /-- before the `write_head` that clears the log -/
  | clear (recovery : Bool)
  /-- after `commit`, before `end_op` lets others in -/
  | wake
deriving DecidableEq

structure Machine where
  disk : ℕ → Block
  cache : ℕ → Option Buf := fun _ => none
  log : Log
  phase : Phase := .boot
  ops : ℕ → OpState := fun _ => .new

/-! The buffer cache. -/

def Machine.buf (m : Machine) (b : ℕ) : Buf := (m.cache b).getD ⟨m.disk b, false⟩

/-- `bread`: the buffer of block `b` is in the cache. -/
def Machine.bread (m : Machine) (b : ℕ) : Machine :=
  { m with cache := update m.cache b (some (m.buf b)) }

/-- `bwrite` of a buffer with contents `data` -/
def Machine.bwrite (m : Machine) (b : ℕ) (data : Block) : Machine :=
  { m with
    disk := update m.disk b data
    cache := update m.cache b (some ⟨data, false⟩) }

/-! The log header, on disk. -/

def head (hb : Block) : List ℕ := (List.range (hb 0)).map fun i => hb (i + 1)

def putHead (hb : Block) (l : List ℕ) : Block := fun k =>
  if k = 0 then l.length else if k ≤ l.length then l.getD (k - 1) 0 else hb k

def Machine.readHead (m : Machine) : Machine :=
  let m := m.bread m.log.start
  { m with log := { m.log with lh := head (m.buf m.log.start).data } }

def Machine.writeHead (m : Machine) : Machine :=
  m.bwrite m.log.start (putHead (m.buf m.log.start).data m.log.lh)

/-- One round of the loop of `write_log` -/
def Machine.logBlock (m : Machine) (tail : ℕ) : Machine :=
  let m := (m.bread (m.log.start + tail + 1)).bread (m.log.lh.getD tail 0)
  m.bwrite (m.log.start + tail + 1) (m.buf (m.log.lh.getD tail 0)).data

/-- One round of the loop of `install_trans` -/
def Machine.installBlock (m : Machine) (tail : ℕ) : Machine :=
  let m := (m.bread (m.log.start + tail + 1)).bread (m.log.lh.getD tail 0)
  m.bwrite (m.log.lh.getD tail 0) (m.buf (m.log.start + tail + 1)).data

/-! The calls that file-system operations make. -/

/-- `begin_op`, if it does not sleep -/
def beginOp (l : Log) : Option Log :=
  if l.committing then none
  else if l.lh.length + (l.outstanding + 1) * MAXOPBLOCKS > LOGSIZE then none
  else some { l with outstanding := l.outstanding + 1 }

/-- `end_op`, up to the point where it commits if it has to -/
def endOp (l : Log) : Except String Log :=
  let l := { l with outstanding := l.outstanding - 1 }
  if l.committing then .error "log.committing"
  else if l.outstanding = 0 then .ok { l with committing := true }
  else .ok l

/-- The tests of `log_write`, made before it takes the lock -/
def logCheck (l : Log) : Except String Unit :=
  if l.lh.length ≥ LOGSIZE ∨ l.lh.length ≥ l.size - 1 then .error "too big a transaction"
  else if l.outstanding < 1 then .error "log_write outside of trans"
  else .ok ()

/-- The slot for block `b`: the one it has, or a new one at the end. -/
def absorb (b : ℕ) : List ℕ → List ℕ
  | [] => [b]
  | a :: l => if a = b then b :: l else a :: absorb b l

/-- `log_write` under the lock, for a buffer that now holds `data` -/
def Machine.logWrite (m : Machine) (b : ℕ) (data : Block) : Machine :=
  { m with
    log := { m.log with lh := absorb b m.log.lh }
    cache := update m.cache b (some ⟨data, true⟩) }

inductive LogAct where
  | beginOp (o : ℕ)
  | check (o b : ℕ)
  | write (o b : ℕ) (data : Block)
  | endOp (o : ℕ)
  | load (b : ℕ)
  | evict (b : ℕ)
  | logBlock
  | commitHead
  | install
  | clearHead
  | wake
  | readHead
  | crash

def Phase.booted : Phase → Bool
  | .boot => false
  | .install recovery _ => !recovery
  | .clear recovery => !recovery
  | _ => true

/-- The home locations: the blocks outside the log. -/
def Log.home (l : Log) (b : ℕ) : Prop := b < l.start ∨ l.start + l.size ≤ b

instance (l : Log) (b : ℕ) : Decidable (l.home b) := inferInstanceAs (Decidable (_ ∨ _))

def Machine.setOp (m : Machine) (o : ℕ) (x : OpState) : Machine :=
  { m with ops := update m.ops o x }

/-- The machine after power has come back: the disk, and nothing of memory. -/
def Machine.reboot (m : Machine) : Machine :=
  { disk := m.disk, log := { start := m.log.start, size := m.log.size }
    ops := fun o => if m.ops o = .new then .new else .done }

/-- One step; `none` where it cannot happen now (a caller sleeps, or the code is elsewhere), an
error where the kernel panics. -/
def Machine.step (m : Machine) : LogAct → Option (Except String Machine)
  | .beginOp o =>
    if m.phase.booted ∧ m.ops o = .new then
      (Xv6.beginOp m.log).map fun l => .ok ({ m with log := l }.setOp o .running)
    else none
  | .check o b =>
    if m.ops o = .running ∧ m.log.home b then
      some ((logCheck m.log).map fun _ => m.setOp o (.checked b))
    else none
  | .write o b data =>
    if m.ops o = .checked b then some (.ok ((m.logWrite b data).setOp o .running)) else none
  | .endOp o =>
    if m.ops o = .running then
      some ((Xv6.endOp m.log).map fun l =>
        let m := { m with log := l }.setOp o .done
        if l.committing then
          { m with phase := if l.lh = [] then .wake else .writeLog 0 }
        else m)
    else none
  | .load b => some (.ok (m.bread b))
  | .evict b =>
    if (m.buf b).dirty then none
    else some (.ok { m with cache := update m.cache b none })
  | .logBlock =>
    match m.phase with
    | .writeLog tail =>
      let m := m.logBlock tail
      some (.ok { m with phase := if tail + 1 < m.log.lh.length then .writeLog (tail + 1) else .writeHead })
    | _ => none
  | .commitHead =>
    if m.phase = .writeHead then some (.ok { m.writeHead with phase := .install false 0 }) else none
  | .install =>
    match m.phase with
    | .install r tail =>
      if tail < m.log.lh.length then
        some (.ok { m.installBlock tail with phase := .install r (tail + 1) })
      else some (.ok { m with phase := .clear r })
    | _ => none
  | .clearHead =>
    match m.phase with
    | .clear r =>
      let m := { m with log := { m.log with lh := [] } }
      some (.ok { m.writeHead with phase := if r then .run else .wake })
    | _ => none
  | .wake =>
    if m.phase = .wake then
      some (.ok { m with phase := .run, log := { m.log with committing := false } })
    else none
  | .readHead =>
    if m.phase = .boot then some (.ok { m.readHead with phase := .install true 0 }) else none
  | .crash => some (.ok m.reboot)

/-- The state after a step that returns. -/
def Machine.next (m : Machine) (a : LogAct) : Option Machine :=
  match m.step a with
  | some (.ok m') => some m'
  | _ => none

/-- The machine at power-on, with a disk whose log is empty, as `mkfs` leaves it. -/
def logSystem (start size : ℕ) (disk : ℕ → Block) : Trace.System Machine LogAct where
  init m := m = { disk := disk, log := { start := start, size := size } } ∧ disk start 0 = 0
  step m a m' := m.step a = some (.ok m')

/-! What the log is for. An operation's writes wait until a commit, which makes all that wait
durable at once; a crash loses them. -/

structure Write where
  op : ℕ
  block : ℕ
  data : Block

structure Ledger where
  committed : List Write := []
  pending : List Write := []

def Ledger.step (g : Ledger) : LogAct → Ledger
  | .write o b data => { g with pending := g.pending ++ [⟨o, b, data⟩] }
  | .commitHead => ⟨g.committed ++ g.pending, []⟩
  | .crash => { g with pending := [] }
  | _ => g

def ledger (as : List LogAct) : Ledger := as.foldl Ledger.step {}

/-- The disk after a list of writes. -/
def applyWrites (disk : ℕ → Block) (ws : List Write) : ℕ → Block :=
  ws.foldl (fun d w => update d w.block w.data) disk

/-- The writes operation `o` has made. -/
def writesOf (o : ℕ) (as : List LogAct) : List Write :=
  as.filterMap fun
    | .write o' b data => if o' = o then some ⟨o', b, data⟩ else none
    | _ => none

/-- The blocks that operation `o` has called `log_write` on. -/
def callsOf (o : ℕ) (as : List LogAct) : List ℕ :=
  as.filterMap fun
    | .check o' b => if o' = o then some b else none
    | _ => none

/-- The blocks that the current transaction has logged. -/
def logged (as : List LogAct) : Finset ℕ := ((ledger as).pending.map (·.block)).toFinset

/-! Code of `fs.c` in an operation. -/

/-- Calls of `log_write`, for a list of blocks. -/
def logAll : Log → List ℕ → Except String Log
  | l, [] => .ok l
  | l, b :: bs => do
    logCheck l
    logAll { l with lh := absorb b l.lh } bs

/-- The blocks of the calls of `log_write` that the code makes. -/
def logCalls {α : Type} (x : F α) (s : Fs) : List ℕ := (x { s with log := [] }).state.log

/-- Code between `begin_op` and `end_op`: the first call of `log_write` that finds the log full stops the kernel. -/
def underLog {α : Type} (x : F α) : Prog.M (Fs × Log) α := fun t =>
  match logAll t.2 (logCalls x t.1) with
  | .ok l => (x { t.1 with log := [] }).map fun s => ({ s with log := t.1.log }, l)
  | .error m => .panic m t

end Xv6

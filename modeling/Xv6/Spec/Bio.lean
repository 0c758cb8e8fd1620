import Xv6.Lib.Count
import Xv6.Lib.Ring
import Xv6.Lib.Run
import Xv6.Spec.Fs
import Mathlib.Data.Fintype.Basic
import Mathlib.Data.List.FinRange

/-! The buffer cache of `bio.c` over the memory disk of `memide.c`, used by many processes at once.
A step is one section under `bcache.lock`, one change of a buffer's sleep lock, or something the
holder of that lock does to the buffer; `end_op` commits with steps of the same kinds. A buffer's
user calls `log_write` or `bwrite` after its last change and before `brelse`. -/

namespace Xv6.Bio

def NBUF : ℕ := MAXOPBLOCKS * 3

structure Buf where
  valid : Bool := false
  dirty : Bool := false
  dev : ℕ := 0
  blockno : ℕ := 0
  /-- the process that has the sleep lock -/
  lock : Option (Fin NPROC) := none
  refcnt : ℕ := 0
  data : Sector := fun _ => 0

/-- Where a process is: outside `bio.c`; in `bread(dev, b)`, before `acquiresleep` and after it; or in
`brelse`, after `releasesleep`. -/
inductive Stage where
  | out
  | acquiring (i : Fin NBUF) (dev b : ℕ)
  | locked (i : Fin NBUF) (dev b : ℕ)
  | dropping (i : Fin NBUF)
deriving DecidableEq

structure State where
  links : Ring.Links (Fin NBUF)
  buf : Fin NBUF → Buf := fun _ => {}
  disk : ℕ → Sector
  disksize : ℕ
  stage : Fin NPROC → Stage := fun _ => .out
  /-- the buffers changed since the last `log_write` or `bwrite` of them -/
  changed : Fin NBUF → Bool := fun _ => false

def State.setBuf (s : State) (i : Fin NBUF) (b : Buf) : State :=
  { s with buf := Function.update s.buf i b }

def State.goto (s : State) (p : Fin NPROC) (x : Stage) : State :=
  { s with stage := Function.update s.stage p x }

def State.mark (s : State) (i : Fin NBUF) (c : Bool) : State :=
  { s with changed := Function.update s.changed i c }

def State.isBlock (s : State) (dev b : ℕ) (i : Fin NBUF) : Bool :=
  (s.buf i).dev == dev && (s.buf i).blockno == b

/-- `refcnt == 0 && (flags & B_DIRTY) == 0` -/
def State.unused (s : State) (i : Fin NBUF) : Bool := (s.buf i).refcnt == 0 && !(s.buf i).dirty

def State.cached (s : State) (dev b : ℕ) : Option (Fin NBUF) :=
  Ring.find s.links.next (s.isBlock dev b) NBUF (s.links.next none)

def State.recyclable (s : State) : Option (Fin NBUF) :=
  Ring.find s.links.prev s.unused NBUF (s.links.prev none)

/-- `bget` up to the release of `bcache.lock`; `none` is the panic "bget: no buffers". -/
def State.bget (s : State) (p : Fin NPROC) (dev b : ℕ) : Option State :=
  match s.cached dev b with
  | some i =>
    some ((s.setBuf i { s.buf i with refcnt := (s.buf i).refcnt + 1 }).goto p (.acquiring i dev b))
  | none =>
    match s.recyclable with
    | some i =>
      let buf := { s.buf i with dev := dev, blockno := b, valid := false, dirty := false, refcnt := 1 }
      some ((s.setBuf i buf).goto p (.acquiring i dev b))
    | none => none

/-- `none` where it panics -/
def State.iderw (s : State) (i : Fin NBUF) : Option State :=
  let b := s.buf i
  if b.lock = none then none
  else if b.valid ∧ b.dirty = false then none
  else if b.dev ≠ 1 then none
  else if b.blockno ≥ s.disksize then none
  else if b.dirty then
    some { s.setBuf i { b with dirty := false, valid := true } with
      disk := Function.update s.disk b.blockno b.data }
  else some (s.setBuf i { b with data := s.disk b.blockno, valid := true })

/-- `bwrite`, by the holder of the lock -/
def State.bwrite (s : State) (i : Fin NBUF) : Option State :=
  (s.setBuf i { s.buf i with dirty := true }).iderw i

/-- The second half of `brelse`, under `bcache.lock`. -/
def State.unref (s : State) (i : Fin NBUF) : State :=
  let n := (s.buf i).refcnt - 1
  let s := s.setBuf i { s.buf i with refcnt := n }
  if n = 0 then { s with links := (s.links.unlink i).push i } else s

inductive Act where
  /-- `bread` starts -/
  | bget (p : Fin NPROC) (dev b : ℕ)
  /-- `acquiresleep` returns -/
  | lock (p : Fin NPROC)
  /-- `bread(dev, b)` returns buffer `i` with contents `data` -/
  | bread (p : Fin NPROC) (i : Fin NBUF) (dev b : ℕ) (data : Sector)
  /-- a store to the contents; `write_log` and `install_trans` store those of another buffer they have -/
  | modify (p : Fin NPROC) (i : Fin NBUF) (data : Sector)
  /-- `log_write` and `bwrite` of buffer `i`, which is that of block `b` and holds `data` -/
  | logWrite (p : Fin NPROC) (i : Fin NBUF) (b : ℕ) (data : Sector)
  | bwrite (p : Fin NPROC) (i : Fin NBUF) (b : ℕ) (data : Sector)
  /-- `brelse`: `releasesleep`, and the rest -/
  | brelse (p : Fin NPROC) (i : Fin NBUF)
  | unref (p : Fin NPROC)

/-- Process `p` has buffer `i` from `bread`. -/
def State.has (s : State) (p : Fin NPROC) (i : Fin NBUF) : Prop :=
  s.stage p = .out ∧ (s.buf i).lock = some p

/-- A step; the relation leaves out those that panic. -/
inductive Step : State → Act → State → Prop where
  | bget {s s' : State} {p : Fin NPROC} {dev b : ℕ} (hp : s.stage p = .out)
      (h : s.bget p dev b = some s') : Step s (.bget p dev b) s'
  | lock {s : State} {p : Fin NPROC} {i : Fin NBUF} {dev b : ℕ} (hp : s.stage p = .acquiring i dev b)
      (hl : (s.buf i).lock = none) :
      Step s (.lock p) ((s.setBuf i { s.buf i with lock := some p }).goto p (.locked i dev b))
  | hit {s : State} {p : Fin NPROC} {i : Fin NBUF} {dev b : ℕ} (hp : s.stage p = .locked i dev b)
      (hv : (s.buf i).valid = true) :
      Step s (.bread p i dev b (s.buf i).data) (s.goto p .out)
  | read {s s' : State} {p : Fin NPROC} {i : Fin NBUF} {dev b : ℕ} (hp : s.stage p = .locked i dev b)
      (hv : (s.buf i).valid = false) (h : s.iderw i = some s') :
      Step s (.bread p i dev b (s'.buf i).data) (s'.goto p .out)
  | modify {s : State} {p : Fin NPROC} {i : Fin NBUF} {data : Sector} (hp : s.has p i) :
      Step s (.modify p i data) ((s.setBuf i { s.buf i with data := data }).mark i true)
  | logWrite {s : State} {p : Fin NPROC} {i : Fin NBUF} (hp : s.has p i) :
      Step s (.logWrite p i (s.buf i).blockno (s.buf i).data)
        ((s.setBuf i { s.buf i with dirty := true }).mark i false)
  | bwrite {s s' : State} {p : Fin NPROC} {i : Fin NBUF} (hp : s.has p i) (h : s.bwrite i = some s') :
      Step s (.bwrite p i (s.buf i).blockno (s.buf i).data) (s'.mark i false)
  | brelse {s : State} {p : Fin NPROC} {i : Fin NBUF} (hp : s.has p i) (hc : s.changed i = false) :
      Step s (.brelse p i) ((s.setBuf i { s.buf i with lock := none }).goto p (.dropping i))
  | unref {s : State} {p : Fin NPROC} {i : Fin NBUF} (hp : s.stage p = .dropping i) :
      Step s (.unref p) ((s.unref i).goto p .out)

/-- The ring `binit` makes. -/
def binit : Ring.Links (Fin NBUF) := (List.finRange NBUF).foldl Ring.Links.push .empty

def system (disk : ℕ → Sector) (disksize : ℕ) : Trace.System State Act where
  init s := s = { links := binit, disk := disk, disksize := disksize }
  step := Step

/-- What was last passed to `log_write` or `bwrite` for block `b`. -/
def written (as : List Act) (b : ℕ) : Option Sector :=
  as.foldl (fun r a =>
    match a with
    | .logWrite _ _ b' data | .bwrite _ _ b' data => if b' = b then some data else r
    | _ => r) none

end Xv6.Bio

import Xv6.Spec.Log

/-! Calls of `filewrite` on one `struct file` of an inode, by any number of processes. A step is `begin_op`, the
section from `ilock` to `iunlock`, `end_op`, or the commit that `end_op` makes. -/

namespace Xv6.SharedFile

open Prog Trace

/-- Where a call of `filewrite` is, with the bytes `i` it has written. -/
inductive Pc where
  /-- at the head of the loop -/
  | loop (i : ℕ)
  /-- after `begin_op` -/
  | begun (i : ℕ)
  /-- after `iunlock`, `writei` having returned `r` -/
  | wrote (i : ℕ) (r : ℤ)
  /-- in the commit of `end_op` -/
  | committing (i : ℕ) (r : ℤ)
  | ret (v : ℤ)
  deriving DecidableEq

/-- The file system with the inode `f->ip`, `f->off`, the log and the calls. -/
structure State (ι : Type) where
  fs : Fs
  off : ℕ
  log : Log
  pc : ι → Pc
  /-- the kernel has panicked -/
  stop : Option String

inductive Act (ι : Type) where
  | beginOp (i : ι)
  | lock (i : ι)
  | endOp (i : ι)
  | commit (i : ι)
  | done (i : ι)

/-- `if((r = writei(f->ip, addr + i, f->off, n1)) > 0) f->off += r` -/
def critical (dev : Inode → ℕ → ℤ) (src : ℕ → UInt8) (n1 : ℕ) (fs : Fs) (off : ℕ) (log : Log) :
    Except String (ℤ × Fs × ℕ × Log) :=
  match underLog (writei dev src off n1) (fs, log) with
  | .ok r t => .ok (r, t.1, if 0 < r then u32 (off + r.toNat) else off, t.2)
  | .panic m _ => .error m
  | .fault _ => .error "fault"

/-- `return i == n ? n : -1` -/
def result (n i : ℕ) : ℤ := if i = n then n else -1

/-- The end of a round of the loop, for `n` bytes in all. -/
def after (n i : ℕ) (r : ℤ) : Except String Pc :=
  if r < 0 then .ok (.ret (result n i))
  else if r ≠ chunk n i then .error "short filewrite"
  else .ok (.loop (i + r.toNat))

section

variable {ι : Type} [DecidableEq ι]

def State.goto (s : State ι) (i : ι) (p : Pc) : State ι := { s with pc := Function.update s.pc i p }

/-- What an action does: nothing if it cannot be taken now, a panic, or a new state. Call `i` is to write `buf i`. -/
def State.next (dev : Inode → ℕ → ℤ) (buf : ι → List UInt8) (s : State ι) :
    Act ι → Option (Except String (State ι))
  | .beginOp i =>
    match s.pc i with
    | .loop k =>
      if k < (buf i).length then (beginOp s.log).map fun l => .ok ({ s with log := l }.goto i (.begun k)) else none
    | _ => none
  | .lock i =>
    match s.pc i with
    | .begun k =>
      some do
        let c ← critical dev (fun j => (buf i).getD (k + j) 0) (chunk (buf i).length k) s.fs s.off s.log
        .ok ({ s with fs := c.2.1, off := c.2.2.1, log := c.2.2.2 }.goto i (.wrote k c.1))
    | _ => none
  | .endOp i =>
    match s.pc i with
    | .wrote k r =>
      some do
        let l ← endOp s.log
        if l.committing then .ok ({ s with log := l }.goto i (.committing k r))
        else do
          let p ← after (buf i).length k r
          .ok ({ s with log := l }.goto i p)
    | _ => none
  | .commit i =>
    match s.pc i with
    | .committing k r =>
      some do
        let p ← after (buf i).length k r
        .ok ({ s with log := { s.log with lh := [], committing := false } }.goto i p)
    | _ => none
  | .done i =>
    match s.pc i with
    | .loop k =>
      if k < (buf i).length then none else some (.ok (s.goto i (.ret (result (buf i).length k))))
    | _ => none

/-- The steps: a panic stops the kernel. -/
def State.step (dev : Inode → ℕ → ℤ) (buf : ι → List UInt8) (s : State ι) (a : Act ι) : Option (State ι) :=
  if s.stop.isSome then none
  else
    match s.next dev buf a with
    | none => none
    | some (.ok s') => some s'
    | some (.error m) => some { s with stop := some m }

def system (dev : Inode → ℕ → ℤ) (buf : ι → List UInt8) (s₀ : State ι) : System (State ι) (Act ι) where
  init s := s = s₀
  step s a s' := s.step dev buf a = some s'

/-- The calls that have taken the inode's lock, in order. -/
def locks : List (Act ι) → List ι
  | [] => []
  | .lock i :: as => i :: locks as
  | _ :: as => locks as

end

end Xv6.SharedFile

import Xv6.Lib.Bytes
import Xv6.Lib.Prog
import Xv6.Spec.Param
import Mathlib.Logic.Function.Basic

/-! The kernel's memory state and the frame allocator of `kalloc.c`.

A null pointer is frame `0`, which the allocator never hands out. A page directory is named by
its frame `d`: `ptab d k` is the frame of its `k`-th page-table page (`0` when the directory
entry is not present) and `pte d v` the entry for virtual page `v` in it. -/

namespace Xv6

open Prog Bytes Function

/-- The flag bits of a page-table entry that the kernel tests or sets. -/
structure Flags where
  p : Bool := false
  w : Bool := false
  u : Bool := false
  cow : Bool := false
deriving DecidableEq

structure Pte extends Flags where
  ppn : ℕ := 0
deriving DecidableEq

inductive ProcState where
  | unused | embryo | sleeping | runnable | running | zombie
deriving DecidableEq

/-- `struct proc`, less the open files, the name, the sleep channel and the registers of the
trap frame other than `eip` and `esp`. -/
structure Proc where
  sz : ℕ := 0
  pgdir : ℕ := 0
  kstack : ℕ := 0
  state : ProcState := .unused
  pid : ℕ := 0
  parent : Option ℕ := none
  killed : Bool := false
  stacklastpg : ℕ := 0
  stacktop : ℕ := 0
  guardpg : ℕ := 0
  shmbreak : ℕ := 0
  shmtop : ℕ := 0
  shmnextpg : ℕ := 0
  eip : ℕ := 0
  esp : ℕ := 0

/-- The layout of `exec`: code and data, the stack with its guard page, the shared memory, the
heap, in this order and none over another. -/
structure Proc.Layout (p : Proc) : Prop where
  code : PGSIZE ≤ p.stacklastpg
  stack : p.stacklastpg ≤ p.guardpg
  guard : p.guardpg < p.stacktop
  shm : p.stacktop ≤ p.shmbreak
  brk : p.shmbreak ≤ p.shmnextpg
  next : p.shmnextpg ≤ p.shmtop
  heap : p.shmtop ≤ p.sz
  top : p.sz < KERNBASE
  stacklastpg_dvd : PGSIZE ∣ p.stacklastpg
  guardpg_dvd : PGSIZE ∣ p.guardpg
  stacktop_dvd : PGSIZE ∣ p.stacktop
  shmtop_dvd : PGSIZE ∣ p.shmtop
  shmnextpg_eq : p.shmnextpg = PGROUNDUP p.shmbreak

structure Kern where
  /-- `kmem.freelist`, the chain of `next` pointers from its head -/
  freelist : List ℕ
  /-- `kmem.runs[f].ref_count` -/
  refCount : ℕ → ℕ
  mem : ℕ → ℕ → UInt8
  /-- the frames in use as page directories -/
  dir : ℕ → Bool
  ptab : ℕ → ℕ → ℕ
  pte : ℕ → ℕ → Pte
  proc : ℕ → Proc
  nextpid : ℕ
  vdsoText : ℕ
  vdsoTicks : ℕ
  /-- the pages of the open pipes -/
  pipes : List ℕ
  /-- the stacks `startothers` gives to the other processors -/
  cpustacks : List ℕ
  /-- which of the coming calls of `kalloc` the environment lets fail -/
  fails : List Bool
  /-- how many calls of `kalloc` have returned 0 so far -/
  misses : ℕ

abbrev K := M Kern

/-- The entry that `walkpgdir` without `alloc` finds for page `v`, an absent page table counting
as zero entries. -/
def Kern.entry (s : Kern) (d v : ℕ) : Pte := if s.ptab d (v / NPTENTRIES) = 0 then {} else s.pte d v

def Kern.setPte (s : Kern) (d v : ℕ) (e : Pte) : Kern :=
  { s with pte := update s.pte d (update (s.pte d) v e) }

def Kern.setProc (s : Kern) (i : ℕ) (p : Proc) : Kern :=
  { s with proc := update s.proc i p }

def memset (f : ℕ) (c : UInt8) : K Unit :=
  modify fun s => { s with mem := update s.mem f (fun _ => c) }

/-- `memmove` of a whole page from frame `src` to frame `dst` -/
def copypage (dst src : ℕ) : K Unit :=
  modify fun s => { s with mem := update s.mem dst (s.mem src) }

/-- `memmove` of `bs` to byte `off` of a frame -/
def memwrite (f off : ℕ) (bs : List UInt8) : K Unit :=
  modify fun s => { s with mem := update s.mem f (overlay (s.mem f) off bs) }

def getProc (i : ℕ) : K Proc := do
  let s ← get
  return s.proc i

def setProc (i : ℕ) (p : Proc) : K Unit := modify fun s => s.setProc i p

/-- Take the head of the free list and set its count to 1; `none` when there is none, or when
this is a call the environment lets fail. -/
def kalloc : K (Option ℕ) := fun s =>
  let s' := { s with fails := s.fails.tail }
  if s.fails.headD false then .ok none { s' with misses := s.misses + 1 }
  else match s.freelist with
    | [] => .ok none { s' with misses := s.misses + 1 }
    | r :: rest =>
      .ok (some r) { s' with freelist := rest, refCount := update s.refCount r 1 }

def getRefCount (f : ℕ) : K ℕ := do
  let s ← get
  return s.refCount f

/-- The count is a number here and a `uint` in the source, which is the same up to `2 ^ 32 - 1` references
(`Kmem.Refines.inclRefCount`). -/
def inclRefCount (f : ℕ) : K Unit :=
  modify fun s => { s with refCount := update s.refCount f (s.refCount f + 1) }

/-- one less, as a `uint` -/
def decl (n : ℕ) : ℕ := if n = 0 then 2 ^ 32 - 1 else n - 1

def declRefCount (f : ℕ) : K Unit :=
  modify fun s => { s with refCount := update s.refCount f (decl (s.refCount f)) }

def Kern.push (s : Kern) (f : ℕ) : Kern :=
  { s with freelist := f :: s.freelist, refCount := update s.refCount f 0 }

section

variable (L : Linker)

def kfree (f : ℕ) : K Unit := do
  check (L.ok f) "kfree1"
  memset f 1
  let n ← getRefCount f
  check (n = 1) "kfree2 ref_count!=1"
  modify fun s => s.push f

/-- Give up one reference: free the page if it is the last, as `deallocuvm`, `freevm` and
`wait` do. -/
def release (f : ℕ) : K Unit := do
  let n ← getRefCount f
  if n = 1 then kfree L f else declRefCount f

end

end Xv6

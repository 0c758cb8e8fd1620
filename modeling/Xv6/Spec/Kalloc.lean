import Xv6.Spec.Param
import Xv6.Lib.Run
import Mathlib.Logic.Function.Basic
import Mathlib.Data.Finset.Basic

/-! `kalloc.c` as it is in memory: the free list is threaded through the array `kmem.runs`, and pages are virtual addresses.
A pointer to a `struct run` is its index in the array, or `none` for 0. The bodies are what runs under `kmem.lock`. -/

namespace Xv6

open Function

def V2P (a : ℕ) : ℕ := sub32 a KERNBASE
def P2V (a : ℕ) : ℕ := u32 (a + KERNBASE)

structure Kmem where
  useLock : Bool := false
  freelist : Option ℕ := none
  /-- `runs[i].ref_count` -/
  refCount : ℕ → ℕ := fun _ => 0
  /-- `runs[i].next` -/
  next : ℕ → Option ℕ := fun _ => none
  /-- the bytes of the pages -/
  mem : ℕ → ℕ → UInt8 := fun _ _ => 0

/-- An address for `end`: the first whole page after it is frame `kend`. -/
structure KernelEnd (L : Linker) where
  addr : ℕ
  lo : KERNBASE + (L.kend - 1) * PGSIZE < addr
  hi : addr ≤ KERNBASE + L.kend * PGSIZE

namespace Kmem

/-- `V2P(v) / PGSIZE` -/
def index (v : ℕ) : ℕ := V2P v / PGSIZE

/-- `P2V((r - kmem.runs) * PGSIZE)` -/
def page (r : ℕ) : ℕ := P2V (r * PGSIZE)

def zeroRefCountRun (s : Kmem) (r : ℕ) : Kmem := { s with refCount := update s.refCount r 0 }

def inclRefCountRun (s : Kmem) (r : ℕ) : Kmem :=
  { s with refCount := update s.refCount r (u32 (s.refCount r + 1)) }

def declRefCountRun (s : Kmem) (r : ℕ) : Kmem :=
  { s with refCount := update s.refCount r (sub32 (s.refCount r) 1) }

def inclRefCount (v : ℕ) (s : Kmem) : Kmem := s.inclRefCountRun (index v)

def declRefCount (v : ℕ) (s : Kmem) : Kmem := s.declRefCountRun (index v)

/-- `memset(v, 1, PGSIZE)` -/
def junk (s : Kmem) (v : ℕ) : Kmem := { s with mem := update s.mem (index v) fun _ => 1 }

/-- Put a run at the head of the free list and set its count to 0. -/
def push (s : Kmem) (r : ℕ) : Kmem :=
  zeroRefCountRun { s with next := update s.next r s.freelist, freelist := some r } r

/-- The address is returned, 0 if there is no page. -/
def kalloc (s : Kmem) : ℕ × Kmem :=
  match s.freelist with
  | none => (0, s)
  | some r => (page r, (zeroRefCountRun { s with freelist := s.next r } r).inclRefCountRun r)

section

variable {L : Linker} (E : KernelEnd L)

/-- the test with which `kfree` and `kfree2` begin -/
def bad (v : ℕ) : Prop := v % PGSIZE ≠ 0 ∨ v < E.addr ∨ V2P v ≥ PHYSTOP

instance (v : ℕ) : Decidable (bad E v) := inferInstanceAs (Decidable (_ ∨ _))

def kfree2 (v : ℕ) (s : Kmem) : Except String Kmem :=
  if bad E v then .error "kfree2" else .ok ((s.junk v).push (index v))

def kfree (v : ℕ) (s : Kmem) : Except String Kmem :=
  if bad E v then .error "kfree1"
  else
    let s := s.junk v
    if s.refCount (index v) = 1 then .ok (s.push (index v)) else .error "kfree2 ref_count!=1"

/-- the loop of `freerange` from `p` on -/
def freeFrom (vend p : ℕ) (s : Kmem) : Except String Kmem :=
  if p + PGSIZE ≤ vend then
    match kfree2 E p s with
    | .ok s => freeFrom vend (p + PGSIZE) s
    | .error e => .error e
  else .ok s
  termination_by vend - p
  decreasing_by unfold PGSIZE at *; omega

def freerange (vstart vend : ℕ) (s : Kmem) : Except String Kmem := freeFrom E vend (PGROUNDUP vstart) s

def kinit1 (vstart vend : ℕ) (s : Kmem) : Except String Kmem := freerange E vstart vend { s with useLock := false }

def kinit2 (vstart vend : ℕ) (s : Kmem) : Except String Kmem :=
  (freerange E vstart vend s).map fun s => { s with useLock := true }

end

end Kmem

/-- how far `main` is -/
inductive BootPhase where
  | start | kinit1 | kinit2
  deriving DecidableEq, Repr

inductive KmemOp where
  | kinit1 | kinit2
  | kalloc (v : ℕ)
  | kfree (v : ℕ)
  | kfree2 (v : ℕ)
  | inclRefCount (v : ℕ)
  | declRefCount (v : ℕ)
  deriving DecidableEq, Repr

/-- The allocator, with the pages that are handed out and not freed since. -/
structure Alloc where
  kmem : Kmem
  phase : BootPhase
  out : Finset ℕ

/-- One call. `main` calls `kinit1(end, P2V(4*1024*1024))` and later `kinit2(P2V(4*1024*1024), P2V(PHYSTOP))`; `kfree`
and `kfree2` are for pages that are handed out. A call that panics is the end of the run. -/
inductive Alloc.Step {L : Linker} (E : KernelEnd L) : Alloc → KmemOp → Alloc → Prop where
  | kinit1 {s : Alloc} {k : Kmem} (h : s.phase = .start) (hk : Kmem.kinit1 E E.addr (P2V PTSIZE) s.kmem = .ok k) :
    Step E s .kinit1 { s with kmem := k, phase := .kinit1 }
  | kinit2 {s : Alloc} {k : Kmem} (h : s.phase = .kinit1) (hk : Kmem.kinit2 E (P2V PTSIZE) (P2V PHYSTOP) s.kmem = .ok k) :
    Step E s .kinit2 { s with kmem := k, phase := .kinit2 }
  | kalloc {s : Alloc} : Step E s (.kalloc (Kmem.kalloc s.kmem).1)
      { s with kmem := (Kmem.kalloc s.kmem).2,
               out := if (Kmem.kalloc s.kmem).1 = 0 then s.out else insert (Kmem.kalloc s.kmem).1 s.out }
  | kfree {s : Alloc} {v : ℕ} {k : Kmem} (h : v ∈ s.out) (hk : Kmem.kfree E v s.kmem = .ok k) :
    Step E s (.kfree v) { s with kmem := k, out := s.out.erase v }
  | kfree2 {s : Alloc} {v : ℕ} {k : Kmem} (h : v ∈ s.out) (hk : Kmem.kfree2 E v s.kmem = .ok k) :
    Step E s (.kfree2 v) { s with kmem := k, out := s.out.erase v }
  | inclRefCount {s : Alloc} {v : ℕ} : Step E s (.inclRefCount v) { s with kmem := s.kmem.inclRefCount v }
  | declRefCount {s : Alloc} {v : ℕ} : Step E s (.declRefCount v) { s with kmem := s.kmem.declRefCount v }

def Alloc.system {L : Linker} (E : KernelEnd L) : Trace.System Alloc KmemOp where
  init s := s.kmem.freelist = none ∧ s.phase = .start ∧ s.out = ∅
  step := Alloc.Step E

end Xv6

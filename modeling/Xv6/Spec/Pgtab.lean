import Xv6.Spec.Param
import Mathlib.Logic.Function.Basic

/-! `walkpgdir` and `mappages` of `vm.c` on page tables as they are in memory: a directory and its page tables are frames of
1024 words. Of the allocator only the free list is kept. -/

namespace Xv6.Pgtab

abbrev Word := BitVec 32

def PTE_P : Word := 0x001
def PTE_W : Word := 0x002
def PTE_U : Word := 0x004
def PTE_COW : Word := 0x800

def PTX (va : ℕ) : ℕ := va / PGSIZE % NPTENTRIES

/-- `PTE_ADDR`, as a frame -/
def frame (e : Word) : ℕ := e.toNat / PGSIZE

/-- The entry has `PTE_P` set. -/
def present (e : Word) : Prop := e &&& PTE_P ≠ 0

instance (e : Word) : Decidable (present e) := inferInstanceAs (Decidable (_ ≠ _))

structure Pmem where
  /-- the `i`-th word of a frame -/
  words : ℕ → ℕ → Word
  freelist : List ℕ

/-- Store a word. -/
def Pmem.set (m : Pmem) (f i : ℕ) (w : Word) : Pmem :=
  { m with words := Function.update m.words f (Function.update (m.words f) i w) }

/-- A page for a page table, cleared, and the directory entry that refers to it. -/
def Pmem.newTab (m : Pmem) (d k f : ℕ) (rest : List ℕ) : Pmem :=
  Pmem.set { words := Function.update m.words f fun _ => 0, freelist := rest } d k
    (BitVec.ofNat 32 (f * PGSIZE) ||| PTE_P ||| PTE_W ||| PTE_U)

/-- A pointer to an entry is its frame and its index. -/
def walkpgdir (d va : ℕ) (alloc : Bool) (m : Pmem) : Option (ℕ × ℕ) × Pmem :=
  let pde := m.words d (PDX va)
  if present pde then (some (frame pde, PTX va), m)
  else if alloc = false then (none, m)
  else
    match m.freelist with
    | [] => (none, m)
    | f :: rest => (some (f, PTX va), m.newTab d (PDX va) f rest)

inductive Ret where
  /-- the value returned: 0 or -1 -/
  | ret (ok : Bool)
  | panic (msg : String)
  deriving DecidableEq, Repr

/-- The loop of `mappages`, which only its body leaves; `none` if `fuel` rounds are not enough. -/
def mapLoop (d last : ℕ) (perm : Word) : ℕ → ℕ → Word → Pmem → Option (Ret × Pmem)
  | 0, _, _, _ => none
  | fuel + 1, a, pa, m =>
    match walkpgdir d a true m with
    | (none, m) => some (.ret false, m)
    | (some (t, i), m) =>
      if present (m.words t i) then some (.panic "remap", m)
      else
        let m := m.set t i (pa ||| perm ||| PTE_P)
        if a = last then some (.ret true, m)
        else mapLoop d last perm fuel (u32 (a + PGSIZE)) (pa + BitVec.ofNat 32 PGSIZE) m

def mappages (fuel d va size : ℕ) (pa perm : Word) (m : Pmem) : Option (Ret × Pmem) :=
  mapLoop d (PGROUNDDOWN (sub32 (u32 (va + size)) 1)) perm fuel (PGROUNDDOWN va) pa m

/-- The entry that `walkpgdir` without `alloc` finds for page `v`; without a page table it counts as zero. -/
def lookup (m : Pmem) (d v : ℕ) : Word :=
  match (walkpgdir d (v * PGSIZE) false m).1 with
  | none => 0
  | some (t, i) => m.words t i

end Xv6.Pgtab

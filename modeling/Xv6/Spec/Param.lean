import Mathlib.Algebra.Ring.Int.Defs
import Mathlib.Algebra.Ring.Nat

/-! Constants of `param.h`, `memlayout.h`, `mmu.h` and `vdso.h`. Physical memory is counted in
page frames: frame `f` is the page at physical address `f * PGSIZE`. -/

namespace Xv6

def PGSIZE : ℕ := 4096
/-- bytes mapped by one page-directory entry, `1 << PDXSHIFT` -/
def PTSIZE : ℕ := 4194304
def NPDENTRIES : ℕ := 1024
def NPTENTRIES : ℕ := 1024

def EXTMEM : ℕ := 0x100000
def PHYSTOP : ℕ := 0xE000000
def DEVSPACE : ℕ := 0xFE000000
def MAX_STACK : ℕ := 0x100000
def MAX_SHM : ℕ := 0x1000000
def VDSOTEXT : ℕ := 0x7FFFD000
def KERNBASE : ℕ := 0x80000000

def VDSO_GETTICKS : ℕ := 1
def VDSO_GETPID : ℕ := 2

def NPROC : ℕ := 64
theorem NPROC_pos : 0 < NPROC := by decide
def ROOTDEV : ℕ := 1
def MAXARG : ℕ := 32
def ELF_MAGIC : ℕ := 0x464C457F
def ELF_PROG_LOAD : ℕ := 1
def MAXOPBLOCKS : ℕ := 10
def LOGSIZE : ℕ := MAXOPBLOCKS * 3
def FSSIZE : ℕ := 1000

/-- `MAXPAGES` of `kalloc.c`: the page frames below `PHYSTOP`. -/
def MAXPAGES : ℕ := PHYSTOP / PGSIZE

/-- the pages below `KERNBASE` -/
def NUPG : ℕ := KERNBASE / PGSIZE

def PGROUNDUP (a : ℕ) : ℕ := (a + PGSIZE - 1) / PGSIZE * PGSIZE
def PGROUNDDOWN (a : ℕ) : ℕ := a / PGSIZE * PGSIZE
def PDX (va : ℕ) : ℕ := va / PTSIZE % NPDENTRIES

/-- `uint` arithmetic -/
def u32 (a : ℕ) : ℕ := a % 2 ^ 32
def sub32 (a b : ℕ) : ℕ := (a + 2 ^ 32 - b) % 2 ^ 32
/-- a `uint` plus an `int` -/
def add32 (a : ℕ) (n : ℤ) : ℕ := (((a : ℤ) + n) % 2 ^ 32).toNat

/-- a `uint` read as an `int` -/
def toInt (a : ℕ) : ℤ := if a < 2 ^ 31 then a else (a : ℤ) - 2 ^ 32

/-- The symbols the linker script leaves to the build, as frame numbers: `data` is the page
`kernel.ld` aligns the data section to, `kend` the first whole page after `end`. The boot page
table maps the first four megabytes, and `main` hands `kinit1` the pages from `end` up to there. -/
structure Linker where
  data : ℕ
  kend : ℕ
  /-- the images linked into the kernel -/
  initcode : List UInt8
  vdso : List UInt8
  data_gt : EXTMEM / PGSIZE < data
  data_lt : data < kend
  kend_le : kend ≤ PTSIZE / PGSIZE

theorem Linker.data_300 : EXTMEM / PGSIZE < 300 := by decide
theorem Linker.data_512 : 300 < 512 := by decide
theorem Linker.kend_512 : 512 ≤ PTSIZE / PGSIZE := by decide

/-- The frames `kfree` accepts: from `V2P(end)` up to `PHYSTOP`. -/
def Linker.ok (L : Linker) (f : ℕ) : Prop := L.kend ≤ f ∧ f < MAXPAGES

instance (L : Linker) (f : ℕ) : Decidable (L.ok f) := inferInstanceAs (Decidable (_ ∧ _))

end Xv6

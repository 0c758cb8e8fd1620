import Xv6.Spec.Kern
import Xv6.Lib.Bytes

/-! `syscall.c`: how the kernel takes arguments from user memory. `mem` is that memory as the
kernel reads it; `init` says whether the caller is `initproc`, which `cmpinit` exempts from the
checks on the stack and shm areas. `none` is -1. -/

namespace Xv6

open Bytes

section

variable (init : Bool) (p : Proc) (mem : ℕ → UInt8)

/-- The test on the start of an argument: not in the reserved stack area or the guard page. -/
def inStack (addr : ℕ) : Prop := p.stacklastpg ≤ addr ∧ addr < u32 (p.guardpg + PGSIZE)

/-- The test on an argument that ends at `last`: not in shared memory that is not allocated. -/
def inShm (addr last : ℕ) : Prop := last ≥ p.shmbreak ∧ addr < p.shmtop

instance (addr : ℕ) : Decidable (inStack p addr) := inferInstanceAs (Decidable (_ ∧ _))
instance (addr last : ℕ) : Decidable (inShm p addr last) := inferInstanceAs (Decidable (_ ∧ _))

def fetchint (addr : ℕ) : Option ℕ :=
  if addr ≥ p.sz ∨ u32 (addr + 4) > p.sz ∨ addr = 0 then none
  else if init = false ∧ (inStack p addr ∨ inShm p addr (u32 (addr + 4))) then none
  else some (unle ((List.range 4).map fun k => mem (addr + k)))

/-- The scan of `fetchstr` over the `n` bytes from `s` on, for the first NUL: how far it is. -/
def strlenTo (mem : ℕ → UInt8) : ℕ → ℕ → Option ℕ
  | 0, _ => none
  | n + 1, s => if mem s = 0 then some 0 else (strlenTo mem n (s + 1)).map (· + 1)

/-- The length of the string at `addr`. -/
def fetchstr (addr : ℕ) : Option ℕ :=
  if addr ≥ p.sz ∨ addr = 0 then none
  else if init = false ∧ (inStack p addr ∨ inShm p addr addr) then none
  else strlenTo mem (p.sz - addr) addr

def argint (n : ℕ) : Option ℕ := fetchint init p mem (u32 (p.esp + 4 + 4 * n))

/-- The address of a block of `size` bytes. -/
def argptr (n : ℕ) (size : ℤ) : Option ℕ :=
  match argint init p mem n with
  | none => none
  | some i =>
    if size < 0 ∨ i ≥ p.sz ∨ add32 i size > p.sz ∨ i = 0 then none
    else if init = false ∧ (inStack p i ∨ inShm p i (add32 i size)) then none
    else some i

end

end Xv6

import Xv6.Spec.Param
import Mathlib.Logic.Function.Basic

/-! `memmove` of `string.c`, for the kernel, and of `ulib.c`, for user programs. Memory is a byte for each
32-bit address, and pointers wrap. -/

namespace Xv6

abbrev Memory := ℕ → UInt8

/-- `while(n-- > 0) *d++ = *s++;` -/
def copyUp : ℕ → ℕ → ℕ → Memory → Memory
  | 0, _, _, m => m
  | n + 1, d, s, m => copyUp n (u32 (d + 1)) (u32 (s + 1)) (Function.update m d (m s))

/-- `while(n-- > 0) *--d = *--s;` -/
def copyDown : ℕ → ℕ → ℕ → Memory → Memory
  | 0, _, _, m => m
  | n + 1, d, s, m => copyDown n (sub32 d 1) (sub32 s 1) (Function.update m (sub32 d 1) (m (sub32 s 1)))

/-- `memmove` of `string.c` -/
def Kernel.memmove (dst src n : ℕ) (m : Memory) : Memory :=
  if src < dst ∧ u32 (src + n) > dst then copyDown n (u32 (dst + n)) (u32 (src + n)) m else copyUp n dst src m

/-- `memmove` of `ulib.c`, which reads `n` as an `int` -/
def Ulib.memmove (dst src n : ℕ) (m : Memory) : Memory := copyUp (toInt n).toNat dst src m

end Xv6

import Xv6.Spec.Vm

/-! The loop of `deallocuvm` with its `uint` counter as the source writes it, and the loop it is an optimisation of, which
visits every page. -/

namespace Xv6

open Prog

def PDXSHIFT : ℕ := 22
def PTXSHIFT : ℕ := 12

/-- the virtual address with these indexes and offset -/
def PGADDR (d t o : ℕ) : ℕ := u32 (d <<< PDXSHIFT ||| t <<< PTXSHIFT ||| o)

/-- `for (; a < hi; a += PGSIZE)`, with a body that may set `a`; `false` if `fuel` rounds are not enough. -/
def pageLoop (body : ℕ → K ℕ) (hi : ℕ) : ℕ → ℕ → K Bool
  | 0, _ => return false
  | fuel + 1, a =>
    if a < hi then do
      let a' ← body a
      pageLoop body hi fuel (u32 (a' + PGSIZE))
    else return true

section

variable (L : Linker)

/-- The body of the loop: without a page table, `a` becomes the last page before the next region. -/
def deallocBody (d : ℕ) (guard : Option ℕ) (a : ℕ) : K ℕ := do
  match ← walkpgdir d a false with
  | none =>
    if guard = some a then fault
    else return sub32 (PGADDR (PDX a + 1) 0 0) PGSIZE
  | some q => do
    deallocEntry L guard a q
    return a

/-- `deallocuvm` with at most `fuel` rounds; `none` if they are not enough. -/
def deallocuvmIn (fuel d oldsz newsz : ℕ) (guard : Option ℕ) : K (Option ℕ) := do
  if newsz ≥ oldsz then return some oldsz
  else do
    let ended ← pageLoop (deallocBody L d guard) oldsz fuel (PGROUNDUP newsz)
    return if ended then some newsz else none

/-- Visit one page: nothing is done without a page table. -/
def visitPage (d a : ℕ) : K Unit := do
  match ← walkpgdir d a false with
  | none => return ()
  | some q => deallocEntry L none a q

/-- The `n` pages from `a` on, one by one. -/
def visitPages (d : ℕ) : ℕ → ℕ → K Unit
  | 0, _ => return ()
  | n + 1, a => do
    visitPage L d a
    visitPages d n (a + PGSIZE)

/-- the number of pages that start in `[a, hi)`, for a page-aligned `a` -/
def pagesIn (a hi : ℕ) : ℕ := (hi - a + (PGSIZE - 1)) / PGSIZE

/-- The plain loop: every page of `[PGROUNDUP newsz, oldsz)` is visited. -/
def plainDealloc (d oldsz newsz : ℕ) : K (Option ℕ) := do
  visitPages L d (pagesIn (PGROUNDUP newsz) oldsz) (PGROUNDUP newsz)
  return some newsz

end

end Xv6

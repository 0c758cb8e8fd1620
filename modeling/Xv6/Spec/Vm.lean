import Xv6.Spec.Kern
import Xv6.Lib.Bytes

/-! `vm.c`: page tables. The last argument of `allocuvm`, `deallocuvm` and `freevm` is a process
of which only `guardpg` is read, so it is `some guardpg`, or `none` for the null pointer. A
pointer to an entry is the pair of its directory and its page number. -/

namespace Xv6

open Prog Bytes Function

/-- A page-table page for the `k`-th directory entry, cleared. -/
def Kern.newTab (s : Kern) (d k r : ℕ) : Kern :=
  { s with
    ptab := update s.ptab d (update (s.ptab d) k r)
    pte := update s.pte d (fun v => if v / NPTENTRIES = k then {} else s.pte d v) }

def Kern.newDir (s : Kern) (d : ℕ) : Kern :=
  { s with
    dir := update s.dir d true
    ptab := update s.ptab d (fun _ => 0) }

def walkpgdir (d va : ℕ) (alloc : Bool) : K (Option (ℕ × ℕ)) := do
  let s ← get
  if s.ptab d (PDX va) ≠ 0 then return some (d, va / PGSIZE)
  else if alloc = false then return none
  else
    match ← kalloc with
    | none => return none
    | some pgtab => do
      memset pgtab 0
      modify fun s => s.newTab d (PDX va) pgtab
      return some (d, va / PGSIZE)

def loadPte (q : ℕ × ℕ) : K Pte := do
  let s ← get
  return s.pte q.1 q.2

def storePte (q : ℕ × ℕ) (e : Pte) : K Unit := modify fun s => s.setPte q.1 q.2 e

/-- The rounds of the loop of `mappages` from address `a` on, with the frame for `a`. -/
def mapLoop (d : ℕ) (perm : Flags) : ℕ → ℕ → ℕ → K Bool
  | 0, _, _ => return true
  | n + 1, a, ppn => do
    match ← walkpgdir d a true with
    | none => return false
    | some q => do
      let e ← loadPte q
      check (e.p = false) "remap"
      storePte q { perm with p := true, ppn := ppn }
      mapLoop d perm n (u32 (a + PGSIZE)) (ppn + 1)

/-- `mappages`, with the page-aligned physical address given as its frame; `false` is -1. The
loop runs until the counter equals the last page, also when that is the top of the address space. -/
def mappages (d va size ppn : ℕ) (perm : Flags) : K Bool :=
  let a := PGROUNDDOWN va
  let last := PGROUNDDOWN (u32 (va + size - 1))
  mapLoop d perm (sub32 last a / PGSIZE + 1) a ppn

section

variable (L : Linker)

def markGuard (guard : Option ℕ) (a : ℕ) (q : ℕ × ℕ) : K Unit := do
  if guard = some a then do
    let e ← loadPte q
    storePte q { e with p := true }
  else return ()

/-- What `deallocuvm` does with the entry of `a`. -/
def deallocEntry (guard : Option ℕ) (a : ℕ) (q : ℕ × ℕ) : K Unit := do
  markGuard guard a q
  let e ← loadPte q
  if e.p then do
    check (e.ppn ≠ 0) "kfree"
    release L e.ppn
    storePte q {}
  else return ()

/-- One round of the loop of `deallocuvm`; the result is where the next one is. -/
def deallocPage (d : ℕ) (guard : Option ℕ) (a : ℕ) : K ℕ := do
  match ← walkpgdir d a false with
  | none =>
    -- the guard page's entry is written through the null pointer
    if guard = some a then fault
    else return (PDX a + 1) * PTSIZE
  | some q => do
    deallocEntry L guard a q
    return a + PGSIZE

def deallocuvm (d oldsz newsz : ℕ) (guard : Option ℕ) : K ℕ := do
  if newsz ≥ oldsz then return oldsz
  else do
    let _ ← loop (PGROUNDUP newsz) oldsz fun a => do
      let a' ← deallocPage L d guard a
      return some a'
    return newsz

/-- One round of the loop of `allocuvm`; `false` after the clean-up of a failure. -/
def allocPage (d oldsz newsz : ℕ) (guard : Option ℕ) (a : ℕ) : K Bool := do
  match ← kalloc with
  | none => do
    let _ ← deallocuvm L d newsz oldsz guard
    return false
  | some mem => do
    memset mem 0
    if ← mappages d a PGSIZE mem { w := true, u := true } then return true
    else do
      let _ ← deallocuvm L d newsz oldsz guard
      kfree L mem
      return false

/-- Grow from `oldsz` to `newsz`; the new size, or 0 on error. -/
def allocuvm (d oldsz newsz : ℕ) (guard : Option ℕ) : K ℕ := do
  if newsz ≥ KERNBASE then return 0
  else if newsz < oldsz then return oldsz
  else do
    let done ← loop (PGROUNDUP oldsz) newsz fun a => do
      let ok ← allocPage L d oldsz newsz guard a
      return if ok then some (a + PGSIZE) else none
    return if done then newsz else 0

/-- Free the page-table page of directory entry `k`. -/
def freeTab (d k : ℕ) : K Unit := do
  let s ← get
  if s.ptab d k ≠ 0 then do
    release L (s.ptab d k)
    modify fun s => { s with ptab := update s.ptab d (update (s.ptab d) k 0) }
  else return ()

def freevm (d : ℕ) (guard : Option ℕ) : K Unit := do
  check (d ≠ 0) "freevm: no pgdir"
  let _ ← deallocuvm L d KERNBASE 0 guard
  let _ ← loop 0 NPDENTRIES fun k => do
    freeTab L d k
    return some (k + 1)
  kfree L d
  modify fun s => { s with dir := update s.dir d false }

/-- `struct kmap`, with physical addresses -/
structure Kmap where
  virt : ℕ
  physStart : ℕ
  physEnd : ℕ
  perm : Flags

def kmap : List Kmap :=
  [⟨KERNBASE, 0, EXTMEM, { w := true }⟩,
   ⟨KERNBASE + EXTMEM, EXTMEM, L.data * PGSIZE, {}⟩,
   ⟨KERNBASE + L.data * PGSIZE, L.data * PGSIZE, PHYSTOP, { w := true }⟩,
   ⟨DEVSPACE, DEVSPACE, 0, { w := true }⟩]

def kmapLoop (d : ℕ) : List Kmap → K Bool
  | [] => return true
  | k :: ks => do
    if ← mappages d k.virt (sub32 k.physEnd k.physStart) (k.physStart / PGSIZE) k.perm then
      kmapLoop d ks
    else return false

/-- The kernel part of a page table. -/
def setupkvm : K (Option ℕ) := do
  match ← kalloc with
  | none => return none
  | some d => do
    memset d 0
    modify fun s => s.newDir d
    check (KERNBASE + PHYSTOP ≤ DEVSPACE) "PHYSTOP too high"
    if ← kmapLoop d (kmap L) then return some d
    else do
      freevm L d none
      return none

/-- Read an entry, change it, write it back: the body of `clearpteu`, `clearptep`, `markpteup`. -/
def changePte (d va : ℕ) (f : Pte → Pte) (m : String) : K Unit := do
  match ← walkpgdir d va false with
  | none => Prog.panic m
  | some q => do
    let e ← loadPte q
    storePte q (f e)

def clearpteu (d va : ℕ) : K Unit := changePte d va (fun e => { e with u := false }) "clearpteu"
def clearptep (d va : ℕ) : K Unit := changePte d va (fun e => { e with p := false }) "clearptep"
def markpteup (d va : ℕ) : K Unit :=
  changePte d va (fun e => { e with p := true, u := true }) "markpteup"

/-- Map the page of entry `e` at `va` too and count the new reference, as `cowuvm` does for
every page it shares. -/
def mapshare (d va : ℕ) (e : Pte) : K Bool := do
  if ← mappages d va PGSIZE e.ppn e.toFlags then do
    inclRefCount e.ppn
    return true
  else return false

end

/-- `uva2ka`: the frame of a user page, or `none`; the entry is read without a null check. -/
def uva2ka (d va : ℕ) : K (Option ℕ) := do
  match ← walkpgdir d va false with
  | none => fault
  | some q => do
    let e ← loadPte q
    return if e.p ∧ e.u then some e.ppn else none

/-- The rounds of the loop of `copyout`, at most one for each byte. -/
def copyoutLoop (d : ℕ) : ℕ → ℕ → List UInt8 → K Bool
  | _, _, [] => return true
  | 0, _, _ => return true
  | n + 1, va, buf => do
    let va0 := PGROUNDDOWN va
    match ← uva2ka d va0 with
    | none => return false
    | some pa0 => do
      let m := min (PGSIZE - (va - va0)) buf.length
      memwrite pa0 (va - va0) (buf.take m)
      copyoutLoop d n (u32 (va0 + PGSIZE)) (buf.drop m)

def copyout (d va : ℕ) (buf : List UInt8) : K Bool := copyoutLoop d buf.length va buf

/-- What `readi` gives for an offset and a byte count: the bytes it copied. -/
abbrev Readi := ℕ → ℕ → List UInt8

def loaduvm (d addr : ℕ) (ip : Readi) (offset sz : ℕ) : K Bool := do
  check (addr % PGSIZE = 0) "loaduvm: addr must be page aligned"
  loop 0 sz fun i => do
    match ← walkpgdir d (u32 (addr + i)) false with
    | none => Prog.panic "loaduvm: address should exist"
    | some q => do
      let e ← loadPte q
      let n := if sz - i < PGSIZE then sz - i else PGSIZE
      let bs := (ip (u32 (offset + i)) n).take n
      memwrite e.ppn 0 bs
      return if bs.length = n then some (i + PGSIZE) else none

section

variable (L : Linker)

/-- The page at `*page`, allocated on first use: `vdso_text_page` and `vdso_ticks_page`. -/
def vdsoPage (cur : Kern → ℕ) (set : Kern → ℕ → Kern) (fill : ℕ → K Unit) : K (Option ℕ) := do
  let s ← get
  if cur s ≠ 0 then return some (cur s)
  else
    match ← kalloc with
    | none => return none
    | some r => do
      fill r
      modify fun s => set s r
      return some r

def vdsoTextPage : K (Option ℕ) :=
  vdsoPage (·.vdsoText) (fun s r => { s with vdsoText := r }) (fun r => memwrite r 0 L.vdso)

def vdsoTicksPage : K (Option ℕ) :=
  vdsoPage (·.vdsoTicks) (fun s r => { s with vdsoTicks := r }) (fun r => memset r 0)

/-- Step 1 of `allocvdso`: the code page, shared by all processes. -/
def mapVdsoText (d : ℕ) : K Bool := do
  match ← vdsoTextPage L with
  | none => return false
  | some r => do
    check (L.vdso.length ≤ PGSIZE) "vdso text larger than a page"
    mapshare d VDSOTEXT { u := true, ppn := r }

/-- Step 2: the page with the process's own pid. -/
def mapVdsoPid (d pid : ℕ) : K Bool := do
  match ← kalloc with
  | none => return false
  | some r => do
    memset r 0
    memwrite r 0 (le 4 pid)
    mappages d (VDSOTEXT + VDSO_GETPID * PGSIZE) PGSIZE r { u := true }

/-- Step 3: the tick counter, shared by all processes. -/
def mapVdsoTicks (d : ℕ) : K Bool := do
  match ← vdsoTicksPage with
  | none => return false
  | some r => mapshare d (VDSOTEXT + VDSO_GETTICKS * PGSIZE) { u := true, ppn := r }

def allocvdso (d pid : ℕ) : K Bool := do
  if ← mapVdsoText L d then
    if ← mapVdsoPid d pid then mapVdsoTicks d
    else return false
  else return false

/-! `pagefault`, for the process in slot `i` and the faulting address `cr2`. -/

def kill (i : ℕ) : K Unit := do
  let p ← getProc i
  setProc i { p with killed := true }

/-- The copy-on-write branch. A failed `kalloc` makes `memmove` write to address 0. -/
def cowFault (q : ℕ × ℕ) (e : Pte) : K Unit := do
  let n ← getRefCount e.ppn
  if n > 1 then
    match ← kalloc with
    | none => fault
    | some newpg => do
      copypage newpg e.ppn
      storePte q { p := true, w := true, u := true, cow := false, ppn := newpg }
      declRefCount e.ppn
  else if n = 1 then storePte q { e with w := true, cow := false }
  else Prog.panic "something went really wrong"

/-- The pages between the new guard page and the old one. -/
def growPages (d : ℕ) (guard : Option ℕ) (lo hi : ℕ) : K Unit := do
  let _ ← loop lo hi fun a => do
    let addpage ← allocuvm L d a (a + PGSIZE) guard
    check (addpage ≠ 0) "addpage failed"
    markpteup d a
    return some (a + PGSIZE)

/-- The stack-growth branch, for a guard page at `newguardpg`. -/
def growStack (i newguardpg : ℕ) : K Unit := do
  let p ← getProc i
  let addguard ← allocuvm L p.pgdir newguardpg (newguardpg + PGSIZE) (some p.guardpg)
  check (addguard ≠ 0) "addguard failed"
  clearpteu p.pgdir newguardpg
  clearptep p.pgdir newguardpg
  markpteup p.pgdir p.guardpg
  growPages L p.pgdir (some p.guardpg) addguard p.guardpg
  setProc i { p with guardpg := newguardpg }

def pagefault (i cr2 : ℕ) (write : Bool) : K Unit := do
  if cr2 = 0 then kill i
  else do
    let p ← getProc i
    match ← walkpgdir p.pgdir (PGROUNDDOWN cr2) false with
    -- the message shows the bits of `*pte`, and `pte` is null
    | none => fault
    | some q =>
      if write = false then kill i
      else do
        let e ← loadPte q
        if e.cow then cowFault q e
        else if e.p = false then
          if p.stacklastpg ≤ cr2 ∧ cr2 < p.stacktop then
            let newguardpg := sub32 (PGROUNDDOWN cr2) PGSIZE
            if newguardpg < p.stacklastpg then kill i
            else growStack L i newguardpg
          else kill i
        else kill i

end

end Xv6

import Xv6.Spec.Vm

/-! `proc.c`, `exec.c` and the memory system calls of `sysproc.c`. A process is named by its slot
in `ptable.proc`; `initproc` is the first one allocated, slot 0. -/

namespace Xv6

open Prog Bytes

section

variable (L : Linker)

/-- `growproc(n)` for the process in slot `i`; `false` is -1. -/
def growproc (i : ℕ) (n : ℤ) : K Bool := do
  let p ← getProc i
  if n > 0 then do
    let sz ← allocuvm L p.pgdir p.sz (add32 p.sz n) (some p.guardpg)
    if sz = 0 then return false
    else do
      setProc i { p with sz := sz }
      return true
  else if n < 0 then do
    let sz ← deallocuvm L p.pgdir p.sz (add32 p.sz n) (some p.guardpg)
    if sz = 0 then return false
    else do
      setProc i { p with sz := sz }
      return true
  else return true

/-- `sys_sbrk`: the old size, or -1. -/
def sbrk (i : ℕ) (n : ℤ) : K ℤ := do
  let p ← getProc i
  if ← growproc L i n then return p.sz
  else return -1

/-! `exec`. -/

structure Elfhdr where
  magic : ℕ
  entry : ℕ
  phoff : ℕ
  phnum : ℕ

structure Proghdr where
  type : ℕ
  off : ℕ
  vaddr : ℕ
  filesz : ℕ
  memsz : ℕ

/-- the `uint` at byte `off` -/
def word (bs : List UInt8) (off : ℕ) : ℕ := unle ((bs.drop off).take 4)

def elfhdr (bs : List UInt8) : Elfhdr :=
  { magic := word bs 0, entry := word bs 24, phoff := word bs 28
    phnum := unle ((bs.drop 44).take 2) }

def proghdr (bs : List UInt8) : Proghdr :=
  { type := word bs 0, off := word bs 4, vaddr := word bs 8, filesz := word bs 16
    memsz := word bs 20 }

def sizeofElfhdr : ℕ := 52
def sizeofProghdr : ℕ := 32

/-- One program segment: the new size, or `none` for `goto bad`. -/
def loadSegment (d : ℕ) (ip : Readi) (ph : Proghdr) (sz : ℕ) : K (Option ℕ) := do
  if ph.memsz < ph.filesz then return none
  else if u32 (ph.vaddr + ph.memsz) < ph.vaddr then return none
  else do
    let sz ← allocuvm L d sz (u32 (ph.vaddr + ph.memsz)) none
    if sz = 0 then return none
    else if ph.vaddr % PGSIZE ≠ 0 then return none
    else if ← loaduvm d ph.vaddr ip ph.off ph.filesz then return some sz
    else return none

/-- The loop over the program headers, `n` of them left, the next one at `off`. -/
def loadSegments (d : ℕ) (ip : Readi) : ℕ → ℕ → ℕ → K (Option ℕ)
  | 0, _, sz => return some sz
  | n + 1, off, sz => do
    let bs := (ip off sizeofProghdr).take sizeofProghdr
    if bs.length ≠ sizeofProghdr then return none
    else if (proghdr bs).type ≠ ELF_PROG_LOAD then
      loadSegments d ip n (u32 (off + sizeofProghdr)) sz
    else
      match ← loadSegment L d ip (proghdr bs) sz with
      | none => return none
      | some sz => loadSegments d ip n (u32 (off + sizeofProghdr)) sz

/-- Push the argument strings; the stack pointer and the pointers pushed so far. -/
def pushArgs (d : ℕ) : List (List UInt8) → ℕ → List ℕ → K (Option (ℕ × List ℕ))
  | [], sp, ptrs => return some (sp, ptrs)
  | arg :: argv, sp, ptrs =>
    if ptrs.length ≥ MAXARG then return none
    else do
      let sp := sub32 sp (arg.length + 1) / 4 * 4
      if ← copyout d sp (arg ++ [0]) then pushArgs d argv sp (ptrs ++ [sp])
      else return none

/-- What `exec` commits to the process. -/
structure Image where
  stacklastpg : ℕ
  guardpg : ℕ
  stacktop : ℕ
  sz : ℕ
  sp : ℕ

/-- Strings, then the words of `ustack`, under `stacktop`: the stack pointer, or `none` for
`goto bad`. -/
def pushStack (d stacktop : ℕ) (argv : List (List UInt8)) : K (Option ℕ) := do
  match ← pushArgs d argv stacktop [] with
  | none => return none
  | some (sp, ptrs) => do
    let argc := ptrs.length
    let ustack := [0xffffffff, argc, sub32 sp ((argc + 1) * 4)] ++ ptrs ++ [0]
    let sp := sub32 sp ((3 + argc + 1) * 4)
    if ← copyout d sp (ustack.flatMap (le 4)) then return some sp
    else return none

/-- The new image, up to the point where `exec` can no longer fail; `none` is `goto bad`. -/
def loadImage (d : ℕ) (ip : Readi) (elf : Elfhdr) (argv : List (List UInt8)) :
    K (Option Image) := do
  let sz ← allocuvm L d 0 PGSIZE none
  if sz = 0 then return none
  else do
    clearptep d 0
    match ← loadSegments L d ip elf.phnum elf.phoff sz with
    | none => return none
    | some sz => do
      let stacklastpg := PGROUNDUP sz
      let guardpg := stacklastpg + MAX_STACK + PGSIZE
      let stacktop := guardpg + 2 * PGSIZE
      let sz ← allocuvm L d guardpg (guardpg + 2 * PGSIZE) none
      check (sz ≠ 0) "panic stackptr failed"
      clearpteu d guardpg
      clearptep d guardpg
      match ← pushStack d sz argv with
      | none => return none
      | some sp => return some ⟨stacklastpg, guardpg, stacktop, sz, sp⟩

/-- `curproc` after the commit. -/
def committed (p : Proc) (d entry : ℕ) (im : Image) : Proc :=
  { p with
    pgdir := d, sz := PGROUNDUP (im.sz + MAX_SHM), eip := entry, esp := im.sp
    guardpg := im.guardpg, stacklastpg := im.stacklastpg, stacktop := im.stacktop
    shmbreak := im.stacktop, shmnextpg := im.stacktop
    shmtop := PGROUNDUP (im.sz + MAX_SHM) }

/-- `exec` of the file that `namei` found, if any. -/
def exec (i : ℕ) (file : Option Readi) (argv : List (List UInt8)) : K ℤ := do
  match file with
  | none => return -1
  | some ip =>
    let bs := (ip 0 sizeofElfhdr).take sizeofElfhdr
    if bs.length ≠ sizeofElfhdr then return -1
    else if (elfhdr bs).magic ≠ ELF_MAGIC then return -1
    else
      match ← setupkvm L with
      | none => return -1
      | some d => do
        match ← loadImage L d ip (elfhdr bs) argv with
        | none => do
          freevm L d none
          return -1
        | some im => do
          let p ← getProc i
          let _ ← allocvdso L d p.pid
          setProc i (committed p d (elfhdr bs).entry im)
          freevm L p.pgdir (some p.guardpg)
          return 0

/-- Memory when `main` starts. -/
def reset : Kern :=
  { freelist := [], refCount := fun _ => 0, mem := fun _ _ => 0, dir := fun _ => false
    ptab := fun _ _ => 0, pte := fun _ _ => {}, proc := fun _ => {}, nextpid := 1
    vdsoText := 0, vdsoTicks := 0, pipes := [], cpustacks := [], fails := [], misses := 0 }

/-- Whether the processor lets user code access `va`. -/
def Kern.allows (s : Kern) (d va : ℕ) (write : Bool) : Bool :=
  let e := s.entry d (va / PGSIZE)
  e.p && e.u && (!write || e.w)

end

end Xv6

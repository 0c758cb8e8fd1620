import Xv6.Spec.Fs

/-! Inodes in memory, directories and path names: the rest of `fs.c`. The kernel's state has the
blocks as the buffer cache shows them, the inode cache, the file table of `file.c` and what processes
point to; a pointer to an inode is its index in the cache. System calls run one after another here,
so a sleep lock that is held is held by the caller itself, and waiting for it never ends (`fault`). -/

namespace Xv6

open Prog Bytes

def T_DIR : ℕ := 1
def T_FILE : ℕ := 2
def ROOTINO : ℕ := 1
def NINODE : ℕ := 50
def NFILE : ℕ := 100
def NOFILE : ℕ := 16
def DIRSIZ : ℕ := 14
/-- `sizeof(struct dirent)` -/
def sizeofDirent : ℕ := 16

/-! Blocks and contents of the locked inode. -/

/-- `data[bi/8] &= ~(1 << (bi % 8))` -/
def clearBit (data : Sector) (bi : ℕ) : Sector :=
  Function.update data (bi / 8) (data (bi / 8) &&& ~~~(UInt8.ofNat (1 <<< (bi % 8))))

def bfree (b : ℕ) : F Unit := do
  let s ← get
  let data ← bread (BBLOCK s.sb b)
  check (bitSet data (b % BPB) = true) "freeing free block"
  logWrite (BBLOCK s.sb b) (clearBit data (b % BPB))

/-- One round of the first loop of `itrunc`. -/
def truncDirect (i : ℕ) : F Unit := do
  let s ← get
  if s.ip.addrs i ≠ 0 then do
    bfree (s.ip.addrs i)
    setAddr i 0
  else return ()

/-- One round of its second loop, over the indirect block as it was read. -/
def truncIndirect (a : Sector) (j : ℕ) : F Unit :=
  if getWord a j ≠ 0 then bfree (getWord a j) else return ()

def each (n : ℕ) (body : ℕ → F Unit) : F Bool :=
  loop 0 n fun i => do
    body i
    return some (i + 1)

/-- The indirect block of `itrunc`, and the blocks it names. -/
def truncRest : F Unit := do
  let s ← get
  if s.ip.addrs NDIRECT ≠ 0 then do
    let a ← bread (s.ip.addrs NDIRECT)
    let _ ← each NINDIRECT (truncIndirect a)
    bfree (s.ip.addrs NDIRECT)
    setAddr NDIRECT 0
  else return ()

def itrunc : F Unit := do
  let _ ← each NDIRECT truncDirect
  truncRest
  modify fun s => { s with ip := { s.ip with size := 0 } }
  iupdate

/-- The rounds of the loop of `readi`, after `tot` of `n` bytes. -/
def readLoop (off n : ℕ) : ℕ → ℕ → F (List UInt8)
  | 0, _ => return []
  | fuel + 1, tot =>
    if tot < n then do
      let addr ← bmap ((off + tot) / BSIZE)
      let data ← bread addr
      let m := min (n - tot) (BSIZE - (off + tot) % BSIZE)
      let rest ← readLoop off n fuel (tot + m)
      return (List.range m).map (fun k => data ((off + tot) % BSIZE + k)) ++ rest
    else return []

/-- `readi`: what it returns and the bytes it copies; `dev` is what the device of a device file
returns for a count, or -1 without one. -/
def readi (dev : Inode → ℕ → ℤ) (off n : ℕ) : F (ℤ × List UInt8) := do
  let s ← get
  if s.ip.type = T_DEV then return (dev s.ip n, [])
  else if off > s.ip.size ∨ u32 (off + n) < off then return (-1, [])
  else do
    let n := if u32 (off + n) > s.ip.size then s.ip.size - off else n
    let bytes ← readLoop off n n 0
    return ((n : ℤ), bytes)

namespace Sys

/-! The kernel's state. -/

/-- `struct inode` -/
structure Slot where
  dev : ℕ := 0
  ref : ℕ := 0
  locked : Bool := false
  valid : Bool := false
  ip : Inode := ⟨0, 0, 0, 0, 0, 0, fun _ => 0⟩

inductive FType where
  | none
  | pipe
  | inode
deriving DecidableEq

structure File where
  type : FType := .none
  ref : ℕ := 0
  readable : Bool := false
  writable : Bool := false
  pipe : ℕ := 0
  ip : ℕ := 0
  off : ℕ := 0

/-- What a process points to; a slot of the process table is free or has a process. -/
structure FProc where
  live : Bool := false
  cwd : ℕ := 0
  ofile : ℕ → Option ℕ := fun _ => none

/-- The ends of a pipe that are open. -/
structure Pipe where
  readopen : Bool
  writeopen : Bool
deriving DecidableEq

structure Fsys where
  sb : Superblock
  block : ℕ → Sector
  icache : ℕ → Slot := fun _ => {}
  file : ℕ → File := fun _ => {}
  proc : ℕ → FProc := fun _ => {}
  /-- the pages that hold a pipe -/
  pipe : ℕ → Option Pipe := fun _ => none
  outstanding : ℕ := 0

abbrev K := M Fsys

def Fsys.setSlot (k : Fsys) (i : ℕ) (x : Slot) : Fsys := { k with icache := Function.update k.icache i x }

/-- The file system as code sees it that has inode `i` locked. -/
def Fsys.at (k : Fsys) (i : ℕ) : Fs := { sb := k.sb, block := k.block, ip := (k.icache i).ip }

def Fsys.put (k : Fsys) (i : ℕ) (s : Fs) : Fsys :=
  { k.setSlot i { k.icache i with ip := s.ip } with block := s.block }

/-- Run code on the inode `i`. -/
def onInode {α : Type} (i : ℕ) (x : F α) : K α := fun k =>
  match x (k.at i) with
  | .ok a s => .ok a (k.put i s)
  | .fault s => .fault (k.put i s)
  | .panic m s => .panic m (k.put i s)

/-- The `struct dinode` with number `n`. -/
def getInode (sb : Superblock) (block : ℕ → Sector) (n : ℕ) : Inode :=
  let data := block (IBLOCK sb n)
  let at16 := n % IPB * (sizeofDinode / 2)
  let at32 := n % IPB * (sizeofDinode / 4)
  let short i := unle ((List.range 2).map fun k => data (2 * (at16 + i) + k))
  { inum := n
    type := short 0
    major := short 1
    minor := short 2
    nlink := short 3
    size := getWord data (at32 + 2)
    addrs := fun k => if k ≤ NDIRECT then getWord data (at32 + 3 + k) else 0 }

/-! The inode cache. -/

def setSlot (i : ℕ) (f : Slot → Slot) : K Unit := modify fun k => k.setSlot i (f (k.icache i))

def iget (dev inum : ℕ) : K ℕ := do
  let k ← get
  match (List.range NINODE).find? fun i =>
      (k.icache i).ref > 0 ∧ (k.icache i).dev = dev ∧ (k.icache i).ip.inum = inum with
  | some i => do
    setSlot i fun x => { x with ref := x.ref + 1 }
    return i
  | none =>
    match (List.range NINODE).find? fun i => (k.icache i).ref = 0 with
    | none => Prog.panic "iget: no inodes"
    | some i => do
      setSlot i fun x => { x with dev := dev, ref := 1, valid := false, ip := { x.ip with inum := inum } }
      return i

def idup (i : ℕ) : K ℕ := do
  setSlot i fun x => { x with ref := x.ref + 1 }
  return i

/-- `acquiresleep` of the inode's lock -/
def acquire (i : ℕ) : K Unit := do
  let k ← get
  if (k.icache i).locked then fault else setSlot i fun x => { x with locked := true }

def ilock (i : ℕ) : K Unit := do
  let k ← get
  check ((k.icache i).ref ≥ 1) "ilock"
  acquire i
  if (k.icache i).valid = false then do
    let ip := getInode k.sb k.block (k.icache i).ip.inum
    setSlot i fun x => { x with ip := ip, valid := true }
    check (ip.type ≠ 0) "ilock: no type"
  else return ()

def iunlock (i : ℕ) : K Unit := do
  let k ← get
  check ((k.icache i).locked = true ∧ (k.icache i).ref ≥ 1) "iunlock"
  setSlot i fun x => { x with locked := false }

/-- Change fields of the inode in memory, and `iupdate` it. -/
def setInode (i : ℕ) (f : Inode → Inode) : K Unit := do
  setSlot i fun x => { x with ip := f x.ip }
  onInode i iupdate

/-- What `iput` does with the last reference to an inode without links. -/
def ifree (i : ℕ) : K Unit := do
  onInode i itrunc
  setInode i fun ip => { ip with type := 0 }
  setSlot i fun x => { x with valid := false }

def iput (i : ℕ) : K Unit := do
  acquire i
  let k ← get
  let last : Bool := (k.icache i).valid && (k.icache i).ip.nlink = 0 && (k.icache i).ref = 1
  if last then ifree i else pure ()
  setSlot i fun x => { x with locked := false, ref := x.ref - 1 }

def iunlockput (i : ℕ) : K Unit := do
  iunlock i
  iput i

/-- The inode that `ialloc` writes. -/
def newInode (n type : ℕ) : Inode := ⟨n, type, 0, 0, 0, 0, fun _ => 0⟩

def ialloc (dev type : ℕ) : K ℕ := do
  let k ← get
  match (List.range k.sb.ninodes).find? fun n => n ≥ 1 ∧ (getInode k.sb k.block n).type = 0 with
  | none => Prog.panic "ialloc: no inodes"
  | some n => do
    let b := IBLOCK k.sb n
    let data := overlay (k.block b) (n % IPB * sizeofDinode) (dinode (newInode n type))
    modify fun k => { k with block := Function.update k.block b data }
    iget dev n

/-! Directories. A name is its bytes without the NUL, cut at `DIRSIZ`. -/

/-- What `strncmp(p, q, n)` compares, with a NUL after each string. -/
def strncmp : ℕ → List UInt8 → List UInt8 → ℤ
  | 0, _, _ => 0
  | n + 1, p, q =>
    if p.headD 0 ≠ 0 ∧ p.headD 0 = q.headD 0 then strncmp n p.tail q.tail
    else (p.headD 0).toNat - (q.headD 0).toNat

def namecmp (s t : List UInt8) : ℤ := strncmp DIRSIZ s t

/-- `strncpy(buf, s, n)`: the string, and zeros up to `n` bytes. -/
def strncpy (s : List UInt8) (n : ℕ) : List UInt8 := s.take n ++ List.replicate (n - s.length) 0

structure Dirent where
  inum : ℕ
  name : List UInt8

def Dirent.bytes (de : Dirent) : List UInt8 := le 2 de.inum ++ de.name

def Dirent.ofBytes (bs : List UInt8) : Dirent := ⟨unle (bs.take 2), bs.drop 2⟩

/-- No device is a directory. -/
def noDev : Inode → ℕ → ℤ := fun _ _ => -1

/-- `readi` of the entry at `off`, or the panic `msg`. -/
def readDirent (dp off : ℕ) (msg : String) : K Dirent := do
  let (r, bs) ← onInode dp (readi noDev off sizeofDirent)
  check (r = sizeofDirent) msg
  return .ofBytes bs

/-- The rounds of the loop of `dirlookup`: the inode, and the offset of the entry. -/
def dirlookupLoop (dp : ℕ) (name : List UInt8) : ℕ → ℕ → K (Option (ℕ × ℕ))
  | 0, _ => return none
  | fuel + 1, off => do
    let k ← get
    if off < (k.icache dp).ip.size then do
      let de ← readDirent dp off "dirlookup read"
      if de.inum ≠ 0 ∧ namecmp name de.name = 0 then do
        let ip ← iget (k.icache dp).dev de.inum
        return some (ip, off)
      else dirlookupLoop dp name fuel (off + sizeofDirent)
    else return none

def dirlookup (dp : ℕ) (name : List UInt8) : K (Option (ℕ × ℕ)) := do
  let k ← get
  check ((k.icache dp).ip.type = T_DIR) "dirlookup not DIR"
  dirlookupLoop dp name (k.icache dp).ip.size 0

/-- The loop of `dirlink`: the offset of an empty entry, or the end. -/
def emptyLoop (dp : ℕ) : ℕ → ℕ → K ℕ
  | 0, off => return off
  | fuel + 1, off => do
    let k ← get
    if off < (k.icache dp).ip.size then do
      let de ← readDirent dp off "dirlink read"
      if de.inum = 0 then return off else emptyLoop dp fuel (off + sizeofDirent)
    else return off

/-- `writei` of an entry, or the panic `msg`. -/
def writeDirent (dp off : ℕ) (de : Dirent) (msg : String) : K Unit := do
  let r ← onInode dp (writei noDev (fun k => de.bytes.getD k 0) off sizeofDirent)
  check (r = sizeofDirent) msg

def dirlink (dp : ℕ) (name : List UInt8) (inum : ℕ) : K ℤ := do
  match ← dirlookup dp name with
  | some (ip, _) => do
    iput ip
    return -1
  | none => do
    let k ← get
    let off ← emptyLoop dp (k.icache dp).ip.size 0
    writeDirent dp off ⟨inum, strncpy name DIRSIZ⟩ "dirlink"
    return 0

/-! Paths. -/

def slash : UInt8 := 47

/-- The next path element and the path after it. -/
def skipelem (path : List UInt8) : Option (List UInt8 × List UInt8) :=
  match path.dropWhile (· = slash) with
  | [] => none
  | c :: p =>
    some (((c :: p).takeWhile (· ≠ slash)).take DIRSIZ, ((c :: p).dropWhile (· ≠ slash)).dropWhile (· = slash))

/-- The loop of `namex` from the inode `ip` on: the inode, and the last element for the parent. -/
def namexLoop (nameiparent : Bool) : ℕ → ℕ → List UInt8 → K (Option (ℕ × List UInt8))
  | 0, ip, _ => return some (ip, [])
  | fuel + 1, ip, path =>
    match skipelem path with
    | none =>
      if nameiparent then do
        iput ip
        return none
      else return some (ip, [])
    | some (name, path) => do
      ilock ip
      let k ← get
      if (k.icache ip).ip.type ≠ T_DIR then do
        iunlockput ip
        return none
      else if nameiparent ∧ path = [] then do
        iunlock ip
        return some (ip, name)
      else
        match ← dirlookup ip name with
        | none => do
          iunlockput ip
          return none
        | some (next, _) => do
          iunlockput ip
          namexLoop nameiparent fuel next path

/-- `namex` for process `p` -/
def namex (p : ℕ) (path : List UInt8) (nameiparent : Bool) : K (Option (ℕ × List UInt8)) := do
  let k ← get
  let ip ← if path.head? = some slash then iget ROOTDEV ROOTINO else idup (k.proc p).cwd
  namexLoop nameiparent (path.length + 1) ip path

def namei (p : ℕ) (path : List UInt8) : K (Option ℕ) := do
  let r ← namex p path false
  return r.map (·.1)

def nameiparent (p : ℕ) (path : List UInt8) : K (Option (ℕ × List UInt8)) := namex p path true

end Sys

end Xv6

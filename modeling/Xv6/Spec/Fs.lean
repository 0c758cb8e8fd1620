import Xv6.Lib.Bytes
import Xv6.Lib.Prog
import Xv6.Spec.Param
import Mathlib.Logic.Function.Basic

/-! The write path of the file system: `balloc`, `bmap`, `iupdate` and `writei` of `fs.c`, and
`filewrite` of `file.c`. A block is its bytes as the buffer cache has them; a call of `log_write`
puts the block's number on the list of the current transaction. -/

namespace Xv6

open Prog Bytes

def BSIZE : ℕ := 512
def NDIRECT : ℕ := 12
def NINDIRECT : ℕ := BSIZE / 4
def MAXFILE : ℕ := NDIRECT + NINDIRECT
/-- `sizeof(struct dinode)` -/
def sizeofDinode : ℕ := 64
def IPB : ℕ := BSIZE / sizeofDinode
def BPB : ℕ := BSIZE * 8
def T_DEV : ℕ := 3

/-- The superblock's fields that writing reads. -/
structure Superblock where
  size : ℕ
  ninodes : ℕ
  inodestart : ℕ
  bmapstart : ℕ

/-- The superblock `mkfs` writes: boot block, superblock, log, 26 blocks of inodes, one of bitmap. -/
def mkfsSb : Superblock :=
  { size := FSSIZE, ninodes := 200, inodestart := 2 + LOGSIZE, bmapstart := 2 + LOGSIZE + 26 }

/-- `nmeta` of `mkfs`: the blocks before the data blocks. -/
def nmeta : ℕ := 2 + LOGSIZE + 26 + 1

/-- A block's contents. -/
abbrev Sector := ℕ → UInt8

structure Inode where
  inum : ℕ
  type : ℕ
  major : ℕ
  minor : ℕ
  nlink : ℕ
  size : ℕ
  addrs : ℕ → ℕ

/-- The file system, with the locked inode `ip` and the blocks logged since `begin_op`. -/
structure Fs where
  sb : Superblock
  block : ℕ → Sector
  ip : Inode
  log : List ℕ := []

abbrev F := M Fs

def IBLOCK (sb : Superblock) (i : ℕ) : ℕ := i / IPB + sb.inodestart
def BBLOCK (sb : Superblock) (b : ℕ) : ℕ := b / BPB + sb.bmapstart

/-- `log_write` of the buffer for block `b`, which the caller has changed to `data`; its tests on the log are in `underLog`. -/
def logWrite (b : ℕ) (data : Sector) : F Unit :=
  modify fun s => { s with block := Function.update s.block b data, log := s.log ++ [b] }

def bread (b : ℕ) : F Sector := do
  let s ← get
  return s.block b

def bzero (b : ℕ) : F Unit := logWrite b fun _ => 0

/-- `data[bi/8] & (1 << (bi % 8))` is not zero. -/
def bitSet (data : Sector) (bi : ℕ) : Bool := (data (bi / 8)).toNat.testBit (bi % 8)

/-- `data[bi/8] |= 1 << (bi % 8)` -/
def setBit (data : Sector) (bi : ℕ) : Sector :=
  Function.update data (bi / 8) (UInt8.ofNat ((data (bi / 8)).toNat ||| 1 <<< (bi % 8)))

/-- The first free bit at `bi` or after it among the `n` next ones, of those below `sz`. -/
def freeBit (data : Sector) (sz b : ℕ) : ℕ → ℕ → Option ℕ
  | 0, _ => none
  | n + 1, bi =>
    if b + bi < sz then
      if bitSet data bi then freeBit data sz b n (bi + 1) else some bi
    else none

/-- The rounds of the outer loop of `balloc`, one for each block of the bitmap. -/
def ballocLoop : ℕ → ℕ → F ℕ
  | 0, _ => Prog.panic "balloc: out of blocks"
  | n + 1, b => do
    let s ← get
    if b < s.sb.size then do
      let data ← bread (BBLOCK s.sb b)
      match freeBit data s.sb.size b BPB 0 with
      | some bi => do
        logWrite (BBLOCK s.sb b) (setBit data bi)
        bzero (b + bi)
        return b + bi
      | none => ballocLoop n (b + BPB)
    else Prog.panic "balloc: out of blocks"

/-- A zeroed disk block. -/
def balloc : F ℕ := do
  let s ← get
  ballocLoop (s.sb.size / BPB + 1) 0

/-- the `i`-th `uint` of a block -/
def getWord (data : Sector) (i : ℕ) : ℕ := unle ((List.range 4).map fun k => data (4 * i + k))

def putWord (data : Sector) (i v : ℕ) : Sector := overlay data (4 * i) (le 4 v)

def setAddr (bn addr : ℕ) : F Unit :=
  modify fun s => { s with ip := { s.ip with addrs := Function.update s.ip.addrs bn addr } }

/-- `ip->addrs[k]`, allocated if there is none. -/
def bmapDirect (k : ℕ) : F ℕ := do
  let s ← get
  if s.ip.addrs k = 0 then do
    let addr ← balloc
    setAddr k addr
    return addr
  else return s.ip.addrs k

/-- `a[k]` of the indirect block `ind`, allocated if there is none. -/
def bmapIndirect (ind k : ℕ) : F ℕ := do
  let a ← bread ind
  if getWord a k = 0 then do
    let addr ← balloc
    logWrite ind (putWord a k addr)
    return addr
  else return getWord a k

/-- The disk block of the `bn`-th block of the inode, allocated if there is none. -/
def bmap (bn : ℕ) : F ℕ := do
  if bn < NDIRECT then bmapDirect bn
  else if bn - NDIRECT < NINDIRECT then do
    let ind ← bmapDirect NDIRECT
    bmapIndirect ind (bn - NDIRECT)
  else Prog.panic "bmap: out of range"

/-- `struct dinode` -/
def dinode (ip : Inode) : List UInt8 :=
  le 2 ip.type ++ le 2 ip.major ++ le 2 ip.minor ++ le 2 ip.nlink ++ le 4 ip.size ++
    (List.range (NDIRECT + 1)).flatMap fun k => le 4 (ip.addrs k)

def iupdate : F Unit := do
  let s ← get
  let data ← bread (IBLOCK s.sb s.ip.inum)
  logWrite (IBLOCK s.sb s.ip.inum) (overlay data (s.ip.inum % IPB * sizeofDinode) (dinode s.ip))

/-- One round of the loop of `writei`, after `tot` of the `n` bytes of `src`, which go to `off`. -/
def writeBlock (src : ℕ → UInt8) (off n tot : ℕ) : F ℕ := do
  let addr ← bmap ((off + tot) / BSIZE)
  let data ← bread addr
  let m := min (n - tot) (BSIZE - (off + tot) % BSIZE)
  logWrite addr (overlay data ((off + tot) % BSIZE) ((List.range m).map fun k => src (tot + k)))
  return tot + m

/-- `writei`; `dev` is what the device of a device file returns for a count, or -1 without one. -/
def writei (dev : Inode → ℕ → ℤ) (src : ℕ → UInt8) (off n : ℕ) : F ℤ := do
  let s ← get
  if s.ip.type = T_DEV then return dev s.ip n
  else if off > s.ip.size ∨ u32 (off + n) < off then return -1
  else if u32 (off + n) > MAXFILE * BSIZE then return -1
  else do
    let _ ← loop 0 n fun tot => do
      let tot ← writeBlock src off n tot
      return some tot
    let s ← get
    if n > 0 ∧ off + n > s.ip.size then do
      modify fun s => { s with ip := { s.ip with size := off + n } }
      iupdate
      return n
    else return n

/-- The most bytes `filewrite` gives to one transaction. -/
def filewriteMax : ℕ := (LOGSIZE - 1 - 1 - 2) / 2 * 512

/-- How many of the bytes from `i` up to `n` go into the next transaction. -/
def chunk (n i : ℕ) : ℕ := if n - i > filewriteMax then filewriteMax else n - i

/-- One transaction of `filewrite`, from `begin_op` to `end_op`. -/
def writeSection (dev : Inode → ℕ → ℤ) (src : ℕ → UInt8) (off n1 : ℕ) : F ℤ := do
  modify fun s => { s with log := [] }
  writei dev src off n1

/-- The rounds of the loop of `filewrite`, with `i` of the `n` bytes written and `off` the file's
offset: `none` when a `writei` fails. -/
def filewriteLoop (dev : Inode → ℕ → ℤ) (src : ℕ → UInt8) (n : ℕ) : ℕ → ℕ → ℕ → F (Option ℕ)
  | 0, _, off => return some off
  | fuel + 1, i, off =>
    if i < n then do
      let r ← writeSection dev (fun k => src (i + k)) off (chunk n i)
      if r < 0 then return none
      else do
        check (r = chunk n i) "short filewrite"
        filewriteLoop dev src n fuel (i + chunk n i) (off + chunk n i)
    else return some off

/-- `filewrite` of `n` bytes to a file of type `FD_INODE` at offset `off`. -/
def filewrite (dev : Inode → ℕ → ℤ) (writable : Bool) (src : ℕ → UInt8) (off n : ℕ) : F ℤ := do
  if writable = false then return -1
  else
    match ← filewriteLoop dev src n n 0 off with
    | none => return -1
    | some _ => return n

end Xv6

import Xv6.Spec.Inode
import Xv6.Lib.Run

/-! `file.c`, the tables of `pipe.c`, and the system calls of `sysfile.c`, with what `fork`, `exit` and
`exec` do to files. A call returns what user code gets. An argument that could not be fetched is
`none`; what depends on memory (a page for a pipe, room for a new process, how far `exec` gets) is
an argument too. -/

namespace Xv6.Sys

open Prog Function

def O_RDONLY : ℕ := 0x000
def O_WRONLY : ℕ := 0x001
def O_RDWR : ℕ := 0x002
def O_CREATE : ℕ := 0x200

/-- `omode & flag` is not zero -/
def hasFlag (omode flag : ℕ) : Bool := decide (omode &&& flag ≠ 0)

/-- What `read` and `write` of a device file return for a count, and of a pipe, whose contents are no
part of the state. -/
structure Devsw where
  read : Inode → ℕ → ℤ
  write : Inode → ℕ → ℤ
  piperead : ℕ → ℕ → ℤ
  pipewrite : ℕ → ℕ → ℤ

/-- The log has room: a call that runs alone does not wait. -/
def beginOp : K Unit := modify fun k => { k with outstanding := k.outstanding + 1 }

def endOp : K Unit := modify fun k => { k with outstanding := k.outstanding - 1 }

/-! The file table. -/

def Fsys.setFile (k : Fsys) (f : ℕ) (x : File) : Fsys := { k with file := update k.file f x }

def setFile (f : ℕ) (g : File → File) : K Unit := modify fun k => k.setFile f (g (k.file f))

def Fsys.setFd (k : Fsys) (p fd : ℕ) (f : Option ℕ) : Fsys :=
  { k with proc := update k.proc p { k.proc p with ofile := update (k.proc p).ofile fd f } }

def setFd (p fd : ℕ) (f : Option ℕ) : K Unit := modify fun k => k.setFd p fd f

def filealloc : K (Option ℕ) := do
  let k ← get
  match (List.range NFILE).find? fun f => (k.file f).ref = 0 with
  | some f => do
    setFile f fun x => { x with ref := 1 }
    return some f
  | none => return none

def filedup (f : ℕ) : K Unit := do
  let k ← get
  check ((k.file f).ref ≥ 1) "filedup"
  setFile f fun x => { x with ref := x.ref + 1 }

/-- `pipeclose`; the page is freed with the second end. -/
def pipeclose (q : ℕ) (writable : Bool) : K Unit := modify fun k =>
  match k.pipe q with
  | none => k
  | some x =>
    let x : Pipe := if writable then { x with writeopen := false } else { x with readopen := false }
    let x := if x.readopen = false ∧ x.writeopen = false then none else some x
    { k with pipe := update k.pipe q x }

def fileclose (f : ℕ) : K Unit := do
  let k ← get
  check ((k.file f).ref ≥ 1) "fileclose"
  setFile f fun x => { x with ref := x.ref - 1 }
  if (k.file f).ref - 1 > 0 then return ()
  else do
    setFile f fun x => { x with ref := 0, type := .none }
    match (k.file f).type with
    | .pipe => pipeclose (k.file f).pipe (k.file f).writable
    | .inode => do
      beginOp
      iput (k.file f).ip
      endOp
    | .none => return ()

/-- `pipealloc`; `page` is the page that `kalloc` returns. -/
def pipealloc (page : Option ℕ) : K (Option (ℕ × ℕ)) := do
  match ← filealloc with
  | none => return none
  | some f0 => do
    match ← filealloc with
    | none => do
      fileclose f0
      return none
    | some f1 => do
      match page with
      | none => do
        fileclose f0
        fileclose f1
        return none
      | some q => do
        modify fun k => { k with pipe := update k.pipe q (some ⟨true, true⟩) }
        setFile f0 fun x => { x with type := .pipe, readable := true, writable := false, pipe := q }
        setFile f1 fun x => { x with type := .pipe, readable := false, writable := true, pipe := q }
        return some (f0, f1)

def fdalloc (p f : ℕ) : K (Option ℕ) := do
  let k ← get
  match (List.range NOFILE).find? fun fd => (k.proc p).ofile fd = none with
  | some fd => do
    setFd p fd (some f)
    return some fd
  | none => return none

/-! System calls. -/

def argfd (p fd : ℕ) : K (Option ℕ) := do
  let k ← get
  return if fd < NOFILE then (k.proc p).ofile fd else none

def sysDup (p fd : ℕ) : K ℤ := do
  match ← argfd p fd with
  | none => return -1
  | some f => do
    match ← fdalloc p f with
    | none => return -1
    | some fd => do
      filedup f
      return fd

def sysClose (p fd : ℕ) : K ℤ := do
  match ← argfd p fd with
  | none => return -1
  | some f => do
    setFd p fd none
    fileclose f
    return 0

def fileread (D : Devsw) (f n : ℕ) : K ℤ := do
  let k ← get
  if (k.file f).readable = false then return -1
  else
    match (k.file f).type with
    | .pipe => return D.piperead (k.file f).pipe n
    | .inode => do
      ilock (k.file f).ip
      let (r, _) ← onInode (k.file f).ip (readi D.read (k.file f).off n)
      setFile f fun x => { x with off := if r > 0 then u32 (x.off + r.toNat) else x.off }
      iunlock (k.file f).ip
      return r
    | .none => Prog.panic "fileread"

/-- `sys_read`; `n` is the count, once the buffer is checked -/
def sysRead (D : Devsw) (p fd : ℕ) (n : Option ℕ) : K ℤ := do
  match ← argfd p fd, n with
  | some f, some n => fileread D f n
  | _, _ => return -1

/-- One round of the loop of `filewrite`: what `writei` returns for `n1` bytes. -/
def fileWriteChunk (D : Devsw) (f : ℕ) (src : ℕ → UInt8) (n1 : ℕ) : K ℤ := do
  beginOp
  let k ← get
  ilock (k.file f).ip
  let r ← onInode (k.file f).ip (writei D.write src (k.file f).off n1)
  setFile f fun x => { x with off := if r > 0 then u32 (x.off + r.toNat) else x.off }
  iunlock (k.file f).ip
  endOp
  return r

/-- The loop of `filewrite`, with `i` of the `n` bytes written. -/
def fileWriteLoop (D : Devsw) (f : ℕ) (src : ℕ → UInt8) (n : ℕ) : ℕ → ℕ → K ℤ
  | 0, _ => return n
  | fuel + 1, i =>
    if i < n then do
      let r ← fileWriteChunk D f (fun j => src (i + j)) (chunk n i)
      if r < 0 then return -1
      else do
        check (r = chunk n i) "short filewrite"
        fileWriteLoop D f src n fuel (i + chunk n i)
    else return n

def sysWrite (D : Devsw) (p fd : ℕ) (src : ℕ → UInt8) (n : Option ℕ) : K ℤ := do
  match ← argfd p fd, n with
  | some f, some n => do
    let k ← get
    if (k.file f).writable = false then return -1
    else
      match (k.file f).type with
      | .pipe => return D.pipewrite (k.file f).pipe n
      | .inode => fileWriteLoop D f src n n 0
      | .none => Prog.panic "filewrite"
  | _, _ => return -1

/-- 16-bit arithmetic on link counts -/
def incLink (ip : Inode) : Inode := { ip with nlink := (ip.nlink + 1) % 65536 }
def decLink (ip : Inode) : Inode := { ip with nlink := (ip.nlink + 65535) % 65536 }

/-- The value of a `short`. -/
def short (n : ℕ) : ℤ := if n % 65536 < 32768 then (n % 65536 : ℕ) else (n % 65536 : ℕ) - 65536

/-- The label `bad` of `sys_link` -/
def linkBad (ip : ℕ) : K ℤ := do
  ilock ip
  setInode ip decLink
  iunlockput ip
  endOp
  return -1

/-- `sys_link` from where the directory for the new name is found. -/
def linkEntry (ip dp : ℕ) (name : List UInt8) : K ℤ := do
  ilock dp
  let k ← get
  if (k.icache dp).dev ≠ (k.icache ip).dev then do
    iunlockput dp
    linkBad ip
  else do
    let r ← dirlink dp name (k.icache ip).ip.inum
    if r < 0 then do
      iunlockput dp
      linkBad ip
    else do
      iunlockput dp
      iput ip
      endOp
      return 0

def sysLink (p : ℕ) (old new : Option (List UInt8)) : K ℤ := do
  match old, new with
  | some old, some new => do
    beginOp
    match ← namei p old with
    | none => do
      endOp
      return -1
    | some ip => do
      ilock ip
      let k ← get
      if (k.icache ip).ip.type = T_DIR then do
        iunlockput ip
        endOp
        return -1
      else do
        setInode ip incLink
        iunlock ip
        match ← nameiparent p new with
        | none => linkBad ip
        | some (dp, name) => linkEntry ip dp name
  | _, _ => return -1

/-- The loop of `isdirempty` -/
def isdiremptyLoop (dp : ℕ) : ℕ → ℕ → K Bool
  | 0, _ => return true
  | fuel + 1, off => do
    let k ← get
    if off < (k.icache dp).ip.size then do
      let de ← readDirent dp off "isdirempty: readi"
      if de.inum ≠ 0 then return false else isdiremptyLoop dp fuel (off + sizeofDirent)
    else return true

def isdirempty (dp : ℕ) : K Bool := do
  let k ← get
  isdiremptyLoop dp (k.icache dp).ip.size (2 * sizeofDirent)

def dot : List UInt8 := [46]
def dotdot : List UInt8 := [46, 46]

/-- The label `bad` of `sys_unlink` -/
def unlinkBad (dp : ℕ) : K ℤ := do
  iunlockput dp
  endOp
  return -1

/-- `ip->type == T_DIR && !isdirempty(ip)` -/
def fullDir (ip : ℕ) : K Bool := do
  let k ← get
  if (k.icache ip).ip.type = T_DIR then do
    let e ← isdirempty ip
    return !e
  else return false

/-- `sys_unlink` from where the entry at `off` and its inode are found. -/
def unlinkEntry (dp ip off : ℕ) : K ℤ := do
  ilock ip
  let k ← get
  check (¬ short (k.icache ip).ip.nlink < 1) "unlink: nlink < 1"
  if ← fullDir ip then do
    iunlockput ip
    unlinkBad dp
  else do
    writeDirent dp off ⟨0, List.replicate DIRSIZ 0⟩ "unlink: writei"
    if (k.icache ip).ip.type = T_DIR then setInode dp decLink else pure ()
    iunlockput dp
    setInode ip decLink
    iunlockput ip
    endOp
    return 0

def sysUnlink (p : ℕ) (path : Option (List UInt8)) : K ℤ := do
  match path with
  | none => return -1
  | some path => do
    beginOp
    match ← nameiparent p path with
    | none => do
      endOp
      return -1
    | some (dp, name) => do
      ilock dp
      if namecmp name dot = 0 ∨ namecmp name dotdot = 0 then unlinkBad dp
      else do
        match ← dirlookup dp name with
        | none => unlinkBad dp
        | some (ip, off) => unlinkEntry dp ip off

/-- The entries `.` and `..` of a new directory -/
def createDots (dp ip : ℕ) : K Unit := do
  setInode dp incLink
  let k ← get
  let r ← dirlink ip dot (k.icache ip).ip.inum
  check (¬ r < 0) "create dots"
  let r ← dirlink ip dotdot (k.icache dp).ip.inum
  check (¬ r < 0) "create dots"

/-- The part of `create` that makes a new inode. -/
def createNew (dp : ℕ) (name : List UInt8) (type major minor : ℕ) : K (Option ℕ) := do
  let k ← get
  let ip ← ialloc (k.icache dp).dev type
  ilock ip
  setInode ip fun x => { x with major := major, minor := minor, nlink := 1 }
  if type = T_DIR then createDots dp ip else pure ()
  let k ← get
  let r ← dirlink dp name (k.icache ip).ip.inum
  check (¬ r < 0) "create: dirlink"
  iunlockput dp
  return some ip

def create (p : ℕ) (path : List UInt8) (type major minor : ℕ) : K (Option ℕ) := do
  match ← nameiparent p path with
  | none => return none
  | some (dp, name) => do
    ilock dp
    match ← dirlookup dp name with
    | some (ip, _) => do
      iunlockput dp
      ilock ip
      let k ← get
      if type = T_FILE ∧ (k.icache ip).ip.type = T_FILE then return some ip
      else do
        iunlockput ip
        return none
    | none => createNew dp name type major minor

/-- The inode that `sys_open` opens, locked. -/
def openInode (p : ℕ) (path : List UInt8) (omode : ℕ) : K (Option ℕ) := do
  if hasFlag omode O_CREATE then create p path T_FILE 0 0
  else
    match ← namei p path with
    | none => return none
    | some ip => do
      ilock ip
      let k ← get
      if (k.icache ip).ip.type = T_DIR ∧ omode ≠ O_RDONLY then do
        iunlockput ip
        return none
      else return some ip

/-- The error path of `sys_open` after the inode is found. -/
def openBad (ip : ℕ) : K ℤ := do
  iunlockput ip
  endOp
  return -1

def sysOpen (p : ℕ) (path : Option (List UInt8)) (omode : ℕ) : K ℤ := do
  match path with
  | none => return -1
  | some path => do
    beginOp
    match ← openInode p path omode with
    | none => do
      endOp
      return -1
    | some ip => do
      match ← filealloc with
      | none => openBad ip
      | some f => do
        match ← fdalloc p f with
        | none => do
          fileclose f
          openBad ip
        | some fd => do
          iunlock ip
          endOp
          setFile f fun x => { x with
            type := .inode
            ip := ip
            off := 0
            readable := !hasFlag omode O_WRONLY
            writable := hasFlag omode O_WRONLY || hasFlag omode O_RDWR }
          return fd

/-- `sys_mkdir`, and `sys_mknod` with the device's numbers as `short`s -/
def sysCreate (p : ℕ) (path : Option (List UInt8)) (type major minor : ℕ) : K ℤ := do
  beginOp
  match path with
  | none => do
    endOp
    return -1
  | some path => do
    match ← create p path type major minor with
    | none => do
      endOp
      return -1
    | some ip => do
      iunlockput ip
      endOp
      return 0

def sysMkdir (p : ℕ) (path : Option (List UInt8)) : K ℤ := sysCreate p path T_DIR 0 0

def sysMknod (p : ℕ) (path : Option (List UInt8)) (major minor : ℕ) : K ℤ :=
  sysCreate p path T_DEV (major % 65536) (minor % 65536)

def sysChdir (p : ℕ) (path : Option (List UInt8)) : K ℤ := do
  beginOp
  match path with
  | none => do
    endOp
    return -1
  | some path => do
    match ← namei p path with
    | none => do
      endOp
      return -1
    | some ip => do
      ilock ip
      let k ← get
      if (k.icache ip).ip.type ≠ T_DIR then do
        iunlockput ip
        endOp
        return -1
      else do
        iunlock ip
        iput (k.proc p).cwd
        endOp
        modify fun k => { k with proc := update k.proc p { k.proc p with cwd := ip } }
        return 0

/-- The reads that `exec` makes of the file, at the offsets and lengths that its headers ask for. -/
def execReads (D : Devsw) (ip : ℕ) : List (ℕ × ℕ) → K Unit
  | [] => return ()
  | (off, n) :: l => do
    let _ ← onInode ip (readi D.read off n)
    execReads D ip l

/-- `exec` of a file: `reads` is what it reads before it is done with the file, because all is loaded
or because it fails, and `r` what it returns. -/
def sysExec (D : Devsw) (p : ℕ) (path : Option (List UInt8)) (reads : List (ℕ × ℕ)) (r : ℤ) : K ℤ := do
  match path with
  | none => return -1
  | some path => do
    beginOp
    match ← namei p path with
    | none => do
      endOp
      return -1
    | some ip => do
      ilock ip
      execReads D ip reads
      iunlockput ip
      endOp
      return r

def sysPipe (p : ℕ) (page : Option ℕ) : K ℤ := do
  match ← pipealloc page with
  | none => return -1
  | some (rf, wf) => do
    match ← fdalloc p rf with
    | none => do
      fileclose rf
      fileclose wf
      return -1
    | some fd0 => do
      match ← fdalloc p wf with
      | none => do
        setFd p fd0 none
        fileclose rf
        fileclose wf
        return -1
      | some _ => return 0

/-- One round of the loop of `fork` over the open files. -/
def forkFd (p c fd : ℕ) : K Unit := do
  let k ← get
  match (k.proc p).ofile fd with
  | none => return ()
  | some f => do
    filedup f
    setFd c fd (some f)

/-- `fork` into the free slot `c`, once there is memory for the new process -/
def fork (p c : ℕ) : K ℤ := do
  let _ ← loop 0 NOFILE fun fd => do
    forkFd p c fd
    return some (fd + 1)
  let k ← get
  let cwd ← idup (k.proc p).cwd
  modify fun k => { k with proc := update k.proc c { k.proc c with cwd := cwd, live := true } }
  return c

/-- One round of the loop of `exit` over the open files. -/
def exitFd (p fd : ℕ) : K Unit := do
  let k ← get
  match (k.proc p).ofile fd with
  | none => return ()
  | some f => do
    fileclose f
    setFd p fd none

def exit (p : ℕ) : K ℤ := do
  let _ ← loop 0 NOFILE fun fd => do
    exitFd p fd
    return some (fd + 1)
  beginOp
  let k ← get
  iput (k.proc p).cwd
  endOp
  modify fun k => { k with proc := update k.proc p { k.proc p with cwd := 0, live := false } }
  return 0

/-! Runs: the calls of all processes, one after another. -/

inductive Call where
  | open (path : Option (List UInt8)) (omode : ℕ)
  | read (fd : ℕ) (n : Option ℕ)
  | write (fd : ℕ) (src : ℕ → UInt8) (n : Option ℕ)
  | close (fd : ℕ)
  | dup (fd : ℕ)
  | pipe (page : Option ℕ)
  | link (old new : Option (List UInt8))
  | unlink (path : Option (List UInt8))
  | mkdir (path : Option (List UInt8))
  | mknod (path : Option (List UInt8)) (major minor : ℕ)
  | chdir (path : Option (List UInt8))
  | exec (path : Option (List UInt8)) (reads : List (ℕ × ℕ)) (r : ℤ)
  /-- `none`: no free slot, or no memory -/
  | fork (child : Option ℕ)
  | exit

def Call.run (D : Devsw) (p : ℕ) : Call → K ℤ
  | .open path omode => sysOpen p path omode
  | .read fd n => sysRead D p fd n
  | .write fd src n => sysWrite D p fd src n
  | .close fd => sysClose p fd
  | .dup fd => sysDup p fd
  | .pipe page => sysPipe p page
  | .link old new => sysLink p old new
  | .unlink path => sysUnlink p path
  | .mkdir path => sysMkdir p path
  | .mknod path major minor => sysMknod p path major minor
  | .chdir path => sysChdir p path
  | .exec path reads r => sysExec D p path reads r
  | .fork (some c) => Sys.fork p c
  | .fork none => return -1
  | .exit => Sys.exit p

/-- What the rest of the kernel guarantees of a call: a new process gets a free slot, `kalloc` a page
that is not in use, and counts have 32 bits. -/
def Call.can (k : Fsys) : Call → Prop
  | .fork (some c) => c < NPROC ∧ (k.proc c).live = false
  | .pipe (some q) => k.pipe q = none
  | .read _ (some n) => n < 2 ^ 32
  | .exec _ reads _ => ∀ q ∈ reads, q.2 < 2 ^ 32
  | _ => True

/-- The kernel when the first process runs: it is in the root directory, which is in slot 0 of the inode cache. -/
def boot (sb : Superblock) (block : ℕ → Sector) : Fsys :=
  { sb := sb
    block := block
    icache := update (fun _ => {}) 0
      { dev := ROOTDEV, ref := 1, ip := ⟨ROOTINO, 0, 0, 0, 0, 0, fun _ => 0⟩ }
    proc := update (fun _ => {}) 0 { live := true, cwd := 0 } }

/-- A step: a process that lives makes a call, and the call returns. -/
def system (D : Devsw) (init : Fsys → Prop) : Trace.System Fsys (ℕ × Call) where
  init := init
  step k a k' := (k.proc a.1).live = true ∧ a.2.can k ∧ ∃ r, a.2.run D a.1 k = .ok r k'

end Xv6.Sys

import Xv6.Spec.Sysfile
import Mathlib.Data.Finset.Card

/-! What the file system is for: numbered nodes with bytes in them, and directories that name nodes.
Nothing here is about blocks, the inode cache or locks. -/

namespace Xv6.Sys

open Bytes

structure Node where
  type : ℕ
  major : ℕ
  minor : ℕ
  nlink : ℕ
  size : ℕ
  data : ℕ → UInt8

/-- A node without links and contents. -/
def Node.fresh (type : ℕ) : Node := ⟨type, 0, 0, 0, 0, fun _ => 0⟩

def Node.free : Node := .fresh 0

/-- What a read of `n` bytes at `off` returns and copies. -/
def Node.read (x : Node) (off n : ℕ) : ℤ × List UInt8 :=
  if off > x.size ∨ u32 (off + n) < off then (-1, [])
  else
    let n := if u32 (off + n) > x.size then x.size - off else n
    (n, (List.range n).map fun j => x.data (off + j))

/-- The node with `n` bytes written at `off`. -/
def Node.write (x : Node) (src : ℕ → UInt8) (off n : ℕ) : Node :=
  { x with
    size := max x.size (off + n)
    data := fun y => if off ≤ y ∧ y < off + n then src (y - off) else x.data y }

def firstFree (ninodes : ℕ) (node : ℕ → Node) : Option ℕ :=
  (List.range ninodes).find? fun n => n ≥ 1 ∧ (node n).type = 0

/-! Directories. -/

/-- The `j`-th entry. -/
def Node.ent (x : Node) (j : ℕ) : Dirent :=
  .ofBytes ((List.range sizeofDirent).map fun i => x.data (sizeofDirent * j + i))

/-- The node with its `j`-th entry written. -/
def Node.setEnt (x : Node) (j : ℕ) (de : Dirent) : Node :=
  x.write (fun i => de.bytes.getD i 0) (sizeofDirent * j) sizeofDirent

/-- The first entry from the `j`-th on that has the property. -/
def Node.first (x : Node) (P : Dirent → Bool) : ℕ → ℕ → Option ℕ
  | 0, _ => none
  | fuel + 1, j =>
    if sizeofDirent * j < x.size then if P (x.ent j) then some j else x.first P fuel (j + 1) else none

/-- The entry in use with the name. -/
def Node.find (x : Node) (name : List UInt8) : Option ℕ :=
  x.first (fun de => de.inum ≠ 0 ∧ namecmp name de.name = 0) x.size 0

/-- Where the next entry goes. -/
def Node.gap (x : Node) : ℕ := (x.first (fun de => de.inum = 0) x.size 0).getD (x.size / sizeofDirent)

/-- Nothing but the first two entries -/
def Node.isEmpty (x : Node) : Bool := (x.first (fun de => de.inum ≠ 0) x.size 2).isNone

/-! Paths. The inode cache has `NINODE` slots, so a lookup depends on what is in it. -/

/-- The cache is full with the inodes of `cached`, and `n` is not one of them. -/
def noFit (cached : Finset ℕ) (n : ℕ) : Prop := n ∉ cached ∧ NINODE ≤ cached.card

instance (cached : Finset ℕ) (n : ℕ) : Decidable (noFit cached n) := inferInstanceAs (Decidable (_ ∧ _))

/-- Where a path leads from node `n`, and the last element for the parent; an error when the way goes
through a node that is free, or the cache is full. -/
def walk (node : ℕ → Node) (cached : Finset ℕ) (nameiparent : Bool) :
    ℕ → ℕ → List UInt8 → Except String (Option (ℕ × List UInt8))
  | 0, n, _ => .ok (some (n, []))
  | fuel + 1, n, path =>
    match skipelem path with
    | none => .ok (if nameiparent then none else some (n, []))
    | some (name, path) =>
      if (node n).type = 0 then .error "ilock: no type"
      else if (node n).type ≠ T_DIR then .ok none
      else if nameiparent ∧ path = [] then .ok (some (n, name))
      else
        match (node n).find name with
        | none => .ok none
        | some j =>
          if noFit (insert n cached) ((node n).ent j).inum then .error "iget: no inodes"
          else walk node cached nameiparent fuel ((node n).ent j).inum path

/-- Where a path leads for a process whose current directory is `cwd`. -/
def resolve (node : ℕ → Node) (cached : Finset ℕ) (cwd : ℕ) (path : List UInt8) (nameiparent : Bool) :
    Except String (Option (ℕ × List UInt8)) :=
  let n := if path.head? = some slash then ROOTINO else cwd
  if noFit cached n then .error "iget: no inodes" else walk node cached nameiparent (path.length + 1) n path

/-! Link counts. -/

def Node.incLink (x : Node) : Node := { x with nlink := (x.nlink + 1) % 65536 }

def Node.decLink (x : Node) : Node := { x with nlink := (x.nlink + 65535) % 65536 }

/-- The nodes once nobody but `held` refers to `n`. -/
def release (node : ℕ → Node) (held : Finset ℕ) (n : ℕ) : ℕ → Node :=
  if (node n).type ≠ 0 ∧ (node n).nlink = 0 ∧ n ∉ held then Function.update node n .free else node

end Xv6.Sys

import Xv6.Spec.Node

/-! The calls on names over the nodes alone: what they return and leave behind, and where they stop. -/

namespace Xv6.Sys

open Function

/-- What a call on names sees. -/
structure Space where
  ninodes : ℕ
  node : ℕ → Node
  /-- the inodes that files and processes refer to -/
  held : Finset ℕ
  /-- the current directory of the caller -/
  cwd : ℕ

/-- How a call ends. -/
inductive Out (α : Type) where
  | ret (a : α) (node : ℕ → Node)
  /-- it waits for a lock that it holds -/
  | stuck
  | panic (msg : String)

def Out.map {α β : Type} (f : α → β) : Out α → Out β
  | .ret a node => .ret (f a) node
  | .stuck => .stuck
  | .panic m => .panic m

variable (s : Space)

/-- No room in directory `x` for an entry. -/
def Node.full (x : Node) : Prop := sizeofDirent * x.gap + sizeofDirent > MAXFILE * BSIZE

instance (x : Node) : Decidable x.full := inferInstanceAs (Decidable (_ < _))

/-- Directory `x` with an entry for node `n`. -/
def Node.enter (x : Node) (n : ℕ) (name : List UInt8) : Node := x.setEnt x.gap ⟨n, strncpy name DIRSIZ⟩

def Space.link (old new : List UInt8) : Out ℤ :=
  match resolve s.node s.held s.cwd old false with
  | .error m => .panic m
  | .ok none => .ret (-1) s.node
  | .ok (some (n, _)) =>
    if (s.node n).type = 0 then .panic "ilock: no type"
    else if (s.node n).type = T_DIR then .ret (-1) s.node
    else
      match resolve s.node (insert n s.held) s.cwd new true with
      | .error m => .panic m
      | .ok none => .ret (-1) s.node
      | .ok (some (d, name)) =>
        match (s.node d).find name with
        | some j =>
          if noFit (insert d (insert n s.held)) ((s.node d).ent j).inum then .panic "iget: no inodes"
          else if ((s.node d).ent j).inum = d then .stuck
          else .ret (-1) s.node
        | none =>
          if (s.node d).full then .panic "dirlink"
          else
            let node := update s.node n (s.node n).incLink
            .ret 0 (release (update node d ((s.node d).enter n name)) s.held n)

/-- The nodes after the entry `j` of directory `d`, for node `m`, is removed. -/
def Space.removed (d j m : ℕ) : ℕ → Node :=
  let parent := (s.node d).setEnt j ⟨0, List.replicate DIRSIZ 0⟩
  let parent := if (s.node m).type = T_DIR then parent.decLink else parent
  let node := release (update s.node d parent) s.held d
  release (update node m (node m).decLink) s.held m

def Space.unlink (path : List UInt8) : Out ℤ :=
  match resolve s.node s.held s.cwd path true with
  | .error m => .panic m
  | .ok none => .ret (-1) s.node
  | .ok (some (d, name)) =>
    if namecmp name dot = 0 ∨ namecmp name dotdot = 0 then .ret (-1) s.node
    else
      match (s.node d).find name with
      | none => .ret (-1) s.node
      | some j =>
        let m := ((s.node d).ent j).inum
        if noFit (insert d s.held) m then .panic "iget: no inodes"
        else if m = d then .stuck
        else if (s.node m).type = 0 then .panic "ilock: no type"
        else if short (s.node m).nlink < 1 then .panic "unlink: nlink < 1"
        else if (s.node m).type = T_DIR ∧ (s.node m).isEmpty = false then .ret (-1) s.node
        else .ret 0 (s.removed d j m)

/-- The nodes after node `n` is made and named in directory `d`. -/
def Space.made (d n : ℕ) (name : List UInt8) (type major minor : ℕ) : ℕ → Node :=
  let child : Node := { Node.fresh type with major := major, minor := minor, nlink := 1 }
  let node :=
    if type = T_DIR then
      update (update s.node n ((child.enter n dot).enter d dotdot)) d (s.node d).incLink
    else update s.node n child
  release (update node d ((node d).enter n name)) s.held d

/-- `create` returns the node, and whether it is new. -/
def Space.create (path : List UInt8) (type major minor : ℕ) : Out (Option (ℕ × Bool)) :=
  match resolve s.node s.held s.cwd path true with
  | .error m => .panic m
  | .ok none => .ret none s.node
  | .ok (some (d, name)) =>
    match (s.node d).find name with
    | some j =>
      let m := ((s.node d).ent j).inum
      if noFit (insert d s.held) m then .panic "iget: no inodes"
      else if (s.node m).type = 0 then .panic "ilock: no type"
      else if type = T_FILE ∧ (s.node m).type = T_FILE then .ret (some (m, false)) s.node
      else .ret none s.node
    | none =>
      match firstFree s.ninodes s.node with
      | none => .panic "ialloc: no inodes"
      | some n =>
        if NINODE ≤ (insert d s.held).card then .panic "iget: no inodes"
        else if (s.node d).full then .panic "dirlink"
        else .ret (some (n, true)) (s.made d n name type major minor)

/-- `mkdir` and `mknod` -/
def Space.make (path : List UInt8) (type major minor : ℕ) : Out ℤ :=
  (s.create path type major minor).map fun r => if r.isSome then 0 else -1

/-- The node that `open` opens. -/
def Space.open (path : List UInt8) (omode : ℕ) : Out (Option ℕ) :=
  if hasFlag omode O_CREATE then (s.create path T_FILE 0 0).map fun r => r.map (·.1)
  else
    match resolve s.node s.held s.cwd path false with
    | .error m => .panic m
    | .ok none => .ret none s.node
    | .ok (some (n, _)) =>
      if (s.node n).type = 0 then .panic "ilock: no type"
      else if (s.node n).type = T_DIR ∧ omode ≠ O_RDONLY then .ret none s.node
      else .ret (some n) s.node

end Xv6.Sys

import Xv6.Lib.Count
import Xv6.Proofs.Create
import Mathlib.Data.Bool.Basic

/-! The file table. What its reference counts count: slots of processes, and references that a call has
taken. A file refers to an inode or is one end of a pipe; the inode's users and the ends that are
open are counted over the table. -/

namespace Xv6.Sys

open Prog Count Function

def File.onNode (i : ℕ) (x : File) : Bool := x.type = .inode ∧ x.ip = i

def File.onPipe (q : ℕ) (w : Bool) (x : File) : Bool := x.type = .pipe ∧ x.pipe = q ∧ x.writable = w

def FProc.inDir (i : ℕ) (x : FProc) : Bool := x.live = true ∧ x.cwd = i

/-- The files on slot `i` of the inode cache. -/
def fileRefs (file : ℕ → File) (i : ℕ) : ℕ := tally (Finset.range NFILE) (File.onNode i) file

/-- The files that are the end `w` of pipe `q`. -/
def pipeRefs (file : ℕ → File) (q : ℕ) (w : Bool) : ℕ := tally (Finset.range NFILE) (File.onPipe q w) file

/-- The processes in directory `i`. -/
def cwdRefs (proc : ℕ → FProc) (i : ℕ) : ℕ := tally (Finset.range NPROC) (FProc.inDir i) proc

/-- The slots of processes for open files: a process and a descriptor. -/
@[irreducible] def fdSlots : Finset (ℕ × ℕ) := Finset.range NPROC ×ˢ Finset.range NOFILE

theorem mem_fdSlots {p fd : ℕ} : (p, fd) ∈ fdSlots ↔ p < NPROC ∧ fd < NOFILE := by
  unfold fdSlots
  simp

/-- Those that point to file `f`. -/
def fdRefs (proc : ℕ → FProc) (f : ℕ) : ℕ := refs fdSlots (fun q => (proc q.1).ofile q.2) (some f)

def pipeOpen (pipe : ℕ → Option Pipe) (q : ℕ) (w : Bool) : Bool :=
  match pipe q with
  | none => false
  | some x => if w then x.writeopen else x.readopen

/-- The account of the tables. `P` is the process table as it counts: `exit` and `chdir` drop a
reference before they clear its place. `X` are the files that the call refers to itself. -/
structure Tab (v : View) (P : ℕ → FProc) (X : Multiset ℕ) : Prop where
  ref : ∀ f, (v.file f).ref = fdRefs P f + X.count f
  lt : ∀ f, 0 < (v.file f).ref → f < NFILE
  idle : ∀ f, (v.file f).ref = 0 → (v.file f).type = .none
  user : ∀ i, v.user i = fileRefs v.file i + cwdRefs P i
  ends : ∀ q w, pipeRefs v.file q w = (pipeOpen v.pipe q w).toNat
  page : ∀ q x, v.pipe q = some x → x.readopen = true ∨ x.writeopen = true
  dirs : ∀ f, (v.file f).type = .inode → (v.file f).writable = true → (v.node (v.num (v.file f).ip)).type ≠ T_DIR

section Tables

variable {v : View} {P : ℕ → FProc} {X X' : Multiset ℕ} {k : Fsys} {f g i p fd q : ℕ} {w : Bool} {x : File}
  {y : Option ℕ}

/-- The nodes change, but not the type of one in use. -/
theorem Tab.nodes {w : ℕ → Node} {r : ℕ} (h : Tab v P X)
    (hn : ∀ i, 0 < v.user i → (w (v.num i)).type = (v.node (v.num i)).type) :
    Tab { v with node := w, room := r } P X := by
  refine ⟨h.ref, h.lt, h.idle, h.user, h.ends, h.page, fun f hf hw => ?_⟩
  have hlt : f < NFILE := h.lt f (Nat.pos_of_ne_zero fun h0 => by rw [h.idle f h0] at hf; cases hf)
  have hpos : 0 < fileRefs v.file (v.file f).ip :=
    tally_pos (Finset.mem_range.2 hlt) (by simpa [File.onNode] using hf)
  change (w (v.num (v.file f).ip)).type ≠ T_DIR
  rw [hn _ (by rw [h.user]; omega)]
  exact h.dirs f hf hw

/-- Row `f` of the table becomes `x`. -/
theorem Tab.setFile {v' : View} (h : Tab v P X) (hf : f < NFILE)
    (hfile : v'.file = update v.file f x) (hX : ∀ g, g ≠ f → X'.count g = X.count g)
    (href : x.ref = fdRefs P f + X'.count f) (hidle : x.ref = 0 → x.type = .none)
    (huser : ∀ i, v'.user i + (if (v.file f).onNode i then 1 else 0) = v.user i + (if x.onNode i then 1 else 0))
    (hends : ∀ q w, (pipeOpen v'.pipe q w).toNat + (if (v.file f).onPipe q w then 1 else 0) =
      (pipeOpen v.pipe q w).toNat + (if x.onPipe q w then 1 else 0))
    (hpage : ∀ q y, v'.pipe q = some y → y.readopen = true ∨ y.writeopen = true)
    (hdirs : ∀ g, g ≠ f → (v.file g).type = .inode → (v'.node (v'.num (v.file g).ip)).type =
      (v.node (v.num (v.file g).ip)).type)
    (hself : x.type = .inode → x.writable = true → (v'.node (v'.num x.ip)).type ≠ T_DIR) : Tab v' P X' := by
  have hrow : v'.file f = x := by rw [hfile, update_self]
  have hother : ∀ g, g ≠ f → v'.file g = v.file g := fun g hg => by rw [hfile, update_of_ne hg]
  refine ⟨fun g => ?_, fun g hg => ?_, fun g hg => ?_, fun i => ?_, fun q w => ?_, hpage, fun g hg hw => ?_⟩
  · by_cases hgf : g = f
    · rw [hgf, hrow]
      exact href
    · rw [hother g hgf, hX g hgf]
      exact h.ref g
  · by_cases hgf : g = f
    · rw [hgf]
      exact hf
    · rw [hother g hgf] at hg
      exact h.lt g hg
  · by_cases hgf : g = f
    · rw [hgf, hrow] at hg ⊢
      exact hidle hg
    · rw [hother g hgf] at hg ⊢
      exact h.idle g hg
  · have h1 := huser i
    have h2 := h.user i
    have h3 := tally_update (t := v.file) (p := File.onNode i) (r := x) (Finset.mem_range.2 hf)
    rw [← hfile] at h3
    unfold fileRefs at h2 ⊢
    omega
  · have h1 := hends q w
    have h2 := h.ends q w
    have h3 := tally_update (t := v.file) (p := File.onPipe q w) (r := x) (Finset.mem_range.2 hf)
    rw [← hfile] at h3
    unfold pipeRefs at h2 ⊢
    omega
  · by_cases hgf : g = f
    · rw [hgf, hrow] at hg hw ⊢
      exact hself hg hw
    · rw [hother g hgf] at hg hw ⊢
      rw [hdirs g hgf hg]
      exact h.dirs g hg hw

/-- Only the reference count of row `f` changes, or what is not counted. -/
theorem Tab.setRef (h : Tab v P X) (hf : f < NFILE)
    (hX : ∀ g, g ≠ f → X'.count g = X.count g) (href : x.ref = fdRefs P f + X'.count f)
    (hidle : x.ref = 0 → x.type = .none) (ht : x.type = (v.file f).type) (hp : x.pipe = (v.file f).pipe)
    (hw : x.writable = (v.file f).writable) (hi : x.ip = (v.file f).ip) :
    Tab { v with file := update v.file f x } P X' := by
  have hnode : ∀ i, x.onNode i = (v.file f).onNode i := fun i => by rw [File.onNode, File.onNode, ht, hi]
  have hpipe : ∀ q w, x.onPipe q w = (v.file f).onPipe q w := fun q w => by rw [File.onPipe, File.onPipe, ht, hp, hw]
  refine h.setFile hf rfl hX href hidle (fun i => ?_) (fun q w => ?_) h.page (fun g _ _ => rfl) (fun h1 h2 => ?_)
  · rw [hnode]
  · rw [hpipe]
  · rw [ht] at h1
    rw [hw] at h2
    rw [hi]
    exact h.dirs f h1 h2

/-- A slot of a process is set. -/
theorem fdRefs_set {P' : ℕ → FProc} (hp : p < NPROC) (hfd : fd < NOFILE)
    (hP : ∀ q, (P' q).ofile = if q = p then update (P p).ofile fd y else (P q).ofile) :
    fdRefs P' f + (if (P p).ofile fd = some f then 1 else 0) = fdRefs P f + (if y = some f then 1 else 0) := by
  have h := refs_set (E := fun q : ℕ × ℕ => (P q.1).ofile q.2) (D := fun q : ℕ × ℕ => (P' q.1).ofile q.2) (x := some f)
    (mem_fdSlots.2 ⟨hp, hfd⟩) (fun b _ hb => ?_)
  · have hself : (P' p).ofile fd = y := by rw [hP, if_pos rfl, update_self]
    simp only [hself] at h
    exact h
  · obtain ⟨q, l⟩ := b
    simp only [hP]
    split_ifs with hq
    · subst hq
      refine update_of_ne (fun hl => hb ?_) ..
      rw [hl]
    · rfl

/-- The process table with slot `fd` of process `p` set. -/
def setOfile (P : ℕ → FProc) (p fd : ℕ) (y : Option ℕ) : ℕ → FProc :=
  update P p { P p with ofile := update (P p).ofile fd y }

theorem setOfile_ofile (q : ℕ) :
    (setOfile P p fd y q).ofile = if q = p then update (P p).ofile fd y else (P q).ofile := by
  unfold setOfile
  split_ifs with hq
  · rw [hq, update_self]
  · rw [update_of_ne hq]

/-- A process does not leave its directory with its files. -/
theorem cwdRefs_setOfile : cwdRefs (setOfile P p fd y) i = cwdRefs P i := tally_same rfl

theorem Tab.install (h : Tab v P (f ::ₘ X)) (hp : p < NPROC) (hfd : fd < NOFILE) (hfree : (P p).ofile fd = none) :
    Tab v (setOfile P p fd (some f)) X := by
  refine ⟨fun g => ?_, h.lt, h.idle, fun i => ?_, h.ends, h.page, h.dirs⟩
  · have h1 := fdRefs_set (f := g) hp hfd (setOfile_ofile (P := P) (y := some f))
    have h2 := h.ref g
    rw [hfree, if_neg (by simp)] at h1
    by_cases hg : g = f
    · subst hg
      rw [Multiset.count_cons_self] at h2
      rw [if_pos rfl] at h1
      omega
    · rw [Multiset.count_cons_of_ne hg] at h2
      rw [if_neg (by simpa using Ne.symm hg)] at h1
      omega
  · rw [cwdRefs_setOfile]
    exact h.user i

theorem Tab.uninstall (h : Tab v P X) (hp : p < NPROC) (hfd : fd < NOFILE) (hslot : (P p).ofile fd = some f) :
    Tab v (setOfile P p fd none) (f ::ₘ X) := by
  refine ⟨fun g => ?_, h.lt, h.idle, fun i => ?_, h.ends, h.page, h.dirs⟩
  · have h1 := fdRefs_set (f := g) hp hfd (setOfile_ofile (P := P) (y := none))
    have h2 := h.ref g
    rw [hslot, if_neg (show ¬ (none : Option ℕ) = some g by simp)] at h1
    by_cases hg : g = f
    · subst hg
      rw [Multiset.count_cons_self]
      rw [if_pos rfl] at h1
      omega
    · rw [Multiset.count_cons_of_ne hg]
      rw [if_neg (by simpa using Ne.symm hg)] at h1
      omega
  · rw [cwdRefs_setOfile]
    exact h.user i

/-- A free file is taken. -/
theorem Tab.alloc (h : Tab v P X) (hf : f < NFILE) (h0 : (v.file f).ref = 0) :
    Tab { v with file := update v.file f { v.file f with ref := 1 } } P (f ::ₘ X) := by
  have href := h.ref f
  refine h.setRef hf (fun g hg => Multiset.count_cons_of_ne hg _) ?_ (fun hc => absurd hc Nat.one_ne_zero) rfl rfl rfl rfl
  rw [Multiset.count_cons_self]
  change 1 = _
  omega

theorem Tab.dup (h : Tab v P X) (hf : 0 < (v.file f).ref) :
    Tab { v with file := update v.file f { v.file f with ref := (v.file f).ref + 1 } } P (f ::ₘ X) := by
  have href := h.ref f
  refine h.setRef (h.lt f hf) (fun g hg => Multiset.count_cons_of_ne hg _) ?_ (fun hc => absurd hc (Nat.succ_ne_zero _))
    rfl rfl rfl rfl
  rw [Multiset.count_cons_self]
  change (v.file f).ref + 1 = _
  omega

/-- A reference goes, and it is not the last. -/
theorem Tab.undup (h : Tab v P (f ::ₘ X)) (h0 : (v.file f).ref - 1 ≠ 0) :
    Tab { v with file := update v.file f { v.file f with ref := (v.file f).ref - 1 } } P X := by
  have href := h.ref f
  rw [Multiset.count_cons_self] at href
  refine h.setRef (h.lt f (by omega)) (fun g hg => (Multiset.count_cons_of_ne hg _).symm) ?_ (fun hc => absurd hc h0)
    rfl rfl rfl rfl
  change (v.file f).ref - 1 = _
  omega

end Tables

section Rules

variable {v : View} {P : ℕ → FProc} {X : Multiset ℕ} {k : Fsys} {f i p fd n q' q : ℕ} {F : Fsys → Prop}
  {N : String → Fsys → Prop} {Q : Unit → Fsys → Prop} {node : ℕ → Node} {held : Finset ℕ} {pipe : ℕ → Option Pipe}
  {x : Pipe} {w : Bool}

theorem sat_setFile {g : File → File} (h : St v k)
    (hQ : ∀ k', St { v with file := update v.file f (g (v.file f)) } k' → Q () k') :
    Sat (setFile f g) k Q F N := by
  refine hQ _ { h with file := ?_ }
  change update k.file f (g (k.file f)) = _
  rw [h.file]

theorem sat_setFd {y : Option ℕ} (h : St v k)
    (hQ : ∀ k', St { v with proc := setOfile v.proc p fd y } k' → Q () k') : Sat (setFd p fd y) k Q F N := by
  refine hQ _ { h with proc := ?_ }
  change update k.proc p { k.proc p with ofile := update (k.proc p).ofile fd y } = _
  rw [h.proc]
  rfl

theorem sat_filealloc {Q : Option ℕ → Fsys → Prop} (h : St v k) (ht : Tab v P X)
    (hnone : (∀ f < NFILE, (v.file f).ref ≠ 0) → Q none k)
    (hsome : ∀ f, f < NFILE → (v.file f).ref = 0 → ∀ k',
      St { v with file := update v.file f { v.file f with ref := 1 } } k' →
      Tab { v with file := update v.file f { v.file f with ref := 1 } } P (f ::ₘ X) → Q (some f) k') :
    Sat filealloc k Q F N := by
  unfold filealloc
  rw [sat_bind_eq, sat_get_eq, h.file]
  cases hf : (List.range NFILE).find? fun f => decide ((v.file f).ref = 0) with
  | none =>
    refine hnone fun f hlt h0 => ?_
    have := List.find?_eq_none.1 hf f (List.mem_range.2 hlt)
    simp [h0] at this
  | some f =>
    have h0 : (v.file f).ref = 0 := by simpa using List.find?_some hf
    have hlt : f < NFILE := List.mem_range.1 (List.mem_of_find?_eq_some hf)
    simp only [sat_bind_eq, sat_pure_eq]
    exact sat_setFile h fun k' h' => hsome f hlt h0 k' h' (ht.alloc hlt h0)

theorem sat_fdalloc {Q : Option ℕ → Fsys → Prop} (h : St v k)
    (hnone : (∀ fd < NOFILE, (v.proc p).ofile fd ≠ none) → Q none k)
    (hsome : ∀ fd, fd < NOFILE → (v.proc p).ofile fd = none → ∀ k',
      St { v with proc := setOfile v.proc p fd (some f) } k' → Q (some fd) k') : Sat (fdalloc p f) k Q F N := by
  unfold fdalloc
  rw [sat_bind_eq, sat_get_eq, h.proc]
  cases hf : (List.range NOFILE).find? fun fd => decide ((v.proc p).ofile fd = none) with
  | none =>
    refine hnone fun fd hlt h0 => ?_
    have := List.find?_eq_none.1 hf fd (List.mem_range.2 hlt)
    simp [h0] at this
  | some fd =>
    have h0 : (v.proc p).ofile fd = none := by simpa using List.find?_some hf
    have hlt : fd < NOFILE := List.mem_range.1 (List.mem_of_find?_eq_some hf)
    simp only [sat_bind_eq, sat_pure_eq]
    exact sat_setFd h fun k' h' => hsome fd hlt h0 k' h'

theorem sat_filedup (h : St v k) (h0 : 0 < (v.file f).ref)
    (hQ : ∀ k', St { v with file := update v.file f { v.file f with ref := (v.file f).ref + 1 } } k' →
      Q () k') : Sat (filedup f) k Q F N := by
  unfold filedup
  rw [sat_bind_eq, sat_get_eq, sat_bind_eq, h.file]
  exact sat_check (fun _ => sat_setFile h hQ) (fun hc => absurd h0 hc)

/-! `fileclose` -/

/-- Nodes without links go, one after another. -/
def Frees : (ℕ → Node) → (ℕ → Node) → Prop :=
  Relation.ReflTransGen fun a b => ∃ n, (a n).type ≠ 0 ∧ (a n).nlink = 0 ∧ b = update a n .free

theorem release_frees : Frees node (release node held n) := by
  unfold release
  split_ifs with h
  · exact .single ⟨n, h.1, h.2.1, rfl⟩
  · exact .refl

theorem release_held {m : ℕ} (h : m ∈ held) : release node held n m = node m := by
  unfold release
  split_ifs with hc
  · refine update_of_ne ?_ ..
    rintro rfl
    exact hc.2.2 h
  · rfl

/-- What is left of a view when files are closed. -/
structure Dropped (v v' : View) : Prop where
  sb : v'.sb = v.sb
  proc : v'.proc = v.proc
  outstanding : v'.outstanding = v.outstanding
  room : v'.room = v.room
  node : Frees v.node v'.node

theorem Dropped.refl : Dropped v v := ⟨rfl, rfl, rfl, rfl, .refl⟩

theorem Dropped.trans {v₁ v₂ v₃ : View} (h : Dropped v₁ v₂) (h' : Dropped v₂ v₃) : Dropped v₁ v₃ :=
  ⟨h'.sb.trans h.sb, h'.proc.trans h.proc, h'.outstanding.trans h.outstanding, h'.room.trans h.room, h.node.trans h'.node⟩

/-- The pipe table with the end `w` of pipe `q` closed. -/
def closeEnd (pipe : ℕ → Option Pipe) (q : ℕ) (w : Bool) (x : Pipe) : ℕ → Option Pipe :=
  let x : Pipe := if w then { x with writeopen := false } else { x with readopen := false }
  update pipe q (if x.readopen = false ∧ x.writeopen = false then none else some x)

theorem pipeOpen_closeEnd {w' : Bool} (h : pipe q = some x) :
    pipeOpen (closeEnd pipe q w x) q' w' = if q' = q ∧ w' = w then false else pipeOpen pipe q' w' := by
  unfold pipeOpen closeEnd
  by_cases hq : q' = q
  · subst hq
    obtain ⟨r, o⟩ := x
    rw [update_self, h]
    cases w <;> cases w' <;> cases r <;> cases o <;> simp
  · rw [update_of_ne hq, if_neg (fun hc => hq hc.1)]

theorem closeEnd_page {y : Pipe}
    (h : ∀ q x, pipe q = some x → x.readopen = true ∨ x.writeopen = true) (hy : closeEnd pipe q w x q' = some y) :
    y.readopen = true ∨ y.writeopen = true := by
  unfold closeEnd at hy
  by_cases hq : q' = q
  · subst hq
    obtain ⟨r, o⟩ := x
    rw [update_self] at hy
    cases w <;> cases r <;> cases o <;> simp at hy <;> simp [← hy]
  · rw [update_of_ne hq] at hy
    exact h q' y hy

theorem sat_pipeclose (h : St v k) (hx : v.pipe q = some x)
    (hQ : ∀ k', St { v with pipe := closeEnd v.pipe q w x } k' → Q () k') : Sat (pipeclose q w) k Q F N := by
  unfold pipeclose
  rw [sat_modify_eq]
  simp only [h.pipe, hx]
  exact hQ _ { h with pipe := rfl }

/-- The last reference to file `f` is gone. -/
theorem Tab.closed {v' : View} (h : Tab v P (f ::ₘ X)) (h1 : (v.file f).ref = 1)
    (hfile : v'.file = update v.file f { v.file f with ref := 0, type := .none })
    (huser : ∀ i, v'.user i + (if (v.file f).onNode i then 1 else 0) = v.user i)
    (hends : ∀ q w, (pipeOpen v'.pipe q w).toNat + (if (v.file f).onPipe q w then 1 else 0) = (pipeOpen v.pipe q w).toNat)
    (hpage : ∀ q y, v'.pipe q = some y → y.readopen = true ∨ y.writeopen = true)
    (hdirs : ∀ g, g ≠ f → (v.file g).type = .inode → (v'.node (v'.num (v.file g).ip)).type =
      (v.node (v.num (v.file g).ip)).type) : Tab v' P X := by
  have href := h.ref f
  rw [Multiset.count_cons_self] at href
  refine h.setFile (h.lt f (by omega)) hfile (fun g hg => (Multiset.count_cons_of_ne hg _).symm) ?_ (fun _ => rfl)
    (fun i => ?_) (fun q w => ?_) hpage hdirs (fun hc => by cases hc)
  · change 0 = _
    omega
  · rw [huser]
    simp [File.onNode]
  · rw [hends]
    simp [File.onPipe]

theorem Tab.user_pos (h : Tab v P X) (hf : (v.file f).type = .inode) : 0 < v.user (v.file f).ip := by
  have hlt : f < NFILE := h.lt f (Nat.pos_of_ne_zero fun h0 => by rw [h.idle f h0] at hf; cases hf)
  have hpos : 0 < fileRefs v.file (v.file f).ip :=
    tally_pos (Finset.mem_range.2 hlt) (by simpa [File.onNode] using hf)
  rw [h.user]
  omega

/-- Without file `f`, file `g` still uses its inode. -/
theorem Tab.other {g : ℕ} (h : Tab v P X) (hf : f < NFILE) (hg : g ≠ f) (hgt : (v.file g).type = .inode) :
    (if (v.file f).onNode (v.file g).ip then 1 else 0) < v.user (v.file g).ip := by
  have hlt : g < NFILE := h.lt g (Nat.pos_of_ne_zero fun h0 => by rw [h.idle g h0] at hgt; cases hgt)
  have h1 := tally_update (t := v.file) (p := File.onNode (v.file g).ip) (r := {}) (Finset.mem_range.2 hf)
  have h2 : 0 < tally (Finset.range NFILE) (File.onNode (v.file g).ip) (update v.file f {}) :=
    tally_pos (Finset.mem_range.2 hlt) (by rw [update_of_ne hg]; simp [File.onNode, hgt])
  have h3 : File.onNode (v.file g).ip {} = false := by simp [File.onNode]
  rw [h3, if_neg Bool.false_ne_true] at h1
  rw [h.user, fileRefs]
  omega

theorem sat_fileclose (h : St v k) (hr : v.Rest) (ht : Tab v P (f ::ₘ X))
    (hQ : ∀ v' k', St v' k' → v'.Rest → Tab v' P X → Dropped v v' → Q () k') : Sat (fileclose f) k Q F N := by
  have href := ht.ref f
  rw [Multiset.count_cons_self] at href
  unfold fileclose
  rw [sat_bind_eq, sat_get_eq, sat_bind_eq, h.file]
  refine sat_check (fun _ => ?_) (fun hc => absurd (by omega) hc)
  rw [sat_bind_eq]
  refine sat_setFile h fun k1 h1 => ?_
  by_cases hlast : (v.file f).ref - 1 > 0
  · rw [if_pos hlast]
    exact hQ _ k1 h1 ⟨hr.tmp, hr.locks, hr.loose⟩ (ht.undup (by omega)) ⟨rfl, rfl, rfl, rfl, .refl⟩
  have hone : (v.file f).ref = 1 := by omega
  rw [if_neg hlast, sat_bind_eq]
  refine sat_setFile h1 fun k2 h2 => ?_
  simp only [update_self, update_idem] at h2
  cases hty : (v.file f).type with
  | none =>
    refine hQ _ k2 h2 ⟨hr.tmp, hr.locks, hr.loose⟩ (ht.closed hone rfl (fun i => ?_) (fun q w => ?_) ht.page
      (fun _ _ _ => rfl)) ⟨rfl, rfl, rfl, rfl, .refl⟩
    · simp [File.onNode, hty]
    · simp [File.onPipe, hty]
  | pipe =>
    -- the file is an end of its pipe, so that end is open
    have hopen : pipeOpen v.pipe (v.file f).pipe (v.file f).writable = true := by
      have hpos : 0 < pipeRefs v.file (v.file f).pipe (v.file f).writable :=
        tally_pos (Finset.mem_range.2 (ht.lt f (by omega))) (by simp [File.onPipe, hty])
      rw [ht.ends] at hpos
      cases hc : pipeOpen v.pipe (v.file f).pipe (v.file f).writable with
      | true => rfl
      | false => simp [hc] at hpos
    obtain ⟨x, hx⟩ : ∃ x, v.pipe (v.file f).pipe = some x := by
      unfold pipeOpen at hopen
      cases hp : v.pipe (v.file f).pipe with
      | none => simp [hp] at hopen
      | some x => exact ⟨x, rfl⟩
    refine sat_pipeclose h2 hx fun k3 h3 => hQ _ k3 h3 ⟨hr.tmp, hr.locks, hr.loose⟩
      (ht.closed hone rfl (fun i => by simp [File.onNode, hty]) (fun q w => ?_) (fun q y => closeEnd_page ht.page)
        (fun _ _ _ => rfl)) ⟨rfl, rfl, rfl, rfl, .refl⟩
    have honPipe : (v.file f).onPipe q w = decide (q = (v.file f).pipe ∧ w = (v.file f).writable) := by
      simp [File.onPipe, hty, eq_comm]
    change (pipeOpen (closeEnd v.pipe _ _ x) q w).toNat + _ = _
    rw [pipeOpen_closeEnd hx, honPipe]
    by_cases hc : q = (v.file f).pipe ∧ w = (v.file f).writable
    · rw [if_pos hc, hc.1, hc.2, hopen]
      simp
    · rw [if_neg hc]
      simp [hc]
  | inode =>
    simp only [sat_bind_eq]
    refine sat_beginOp h2 fun k3 h3 => ?_
    have hu := ht.user_pos hty
    have h4 := h3.fromUser hu
    refine sat_iput_release h4 rfl (by rw [hr.tmp]; simp) (by rw [hr.locks]; simp) fun k4 h5 => ?_
    have hloose : (insert (v.num (v.file f).ip) v.loose).erase (v.num (v.file f).ip) = v.loose := by
      rw [hr.loose]
      simp
    simp only [hloose] at h5
    have huser : ∀ i, update v.user (v.file f).ip (v.user (v.file f).ip - 1) i +
        (if (v.file f).onNode i then 1 else 0) = v.user i := by
      intro i
      by_cases hi : i = (v.file f).ip
      · rw [hi, update_self]
        simp only [File.onNode, hty, and_self, decide_true, if_true]
        omega
      · rw [update_of_ne hi]
        simp [File.onNode, Ne.symm hi]
    refine sat_endOp (v := { v with
      file := update v.file f { v.file f with ref := 0, type := .none }
      user := update v.user (v.file f).ip (v.user (v.file f).ip - 1)
      node := release v.node (View.held { v with
        user := update v.user (v.file f).ip (v.user (v.file f).ip - 1) }) (v.num (v.file f).ip) }) h5
      fun k5 h6 => hQ _ k5 h6 ⟨hr.tmp, hr.locks, hr.loose⟩ (ht.closed hone rfl (fun i => ?_)
        (fun q w => by simp [File.onPipe, hty]) ht.page (fun g hg hgt => ?_)) ⟨rfl, rfl, rfl, rfl, release_frees⟩
    · exact huser i
    · -- another file on the same slot still counts
      have hpos : 0 < update v.user (v.file f).ip (v.user (v.file f).ip - 1) (v.file g).ip := by
        have h7 := huser (v.file g).ip
        have h8 := ht.other (ht.lt f (by omega)) hg hgt
        omega
      exact congrArg Node.type (release_held (h6.mem_held.2 ⟨_, hpos, rfl⟩))

end Rules

end Xv6.Sys

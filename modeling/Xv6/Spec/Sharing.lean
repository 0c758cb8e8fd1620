import Xv6.Spec.Vm
import Xv6.Lib.Run
import Xv6.Lib.Shares
import Mathlib.Data.Fintype.Prod
import Mathlib.Data.Fintype.Sum

/-! Processes on several processors that give up pages at the same time. Each runs `deallocuvm`, `freevm` or
`pagefault` of `vm.c` over its own page directory; a step of one processor is one call of `getRefCount`,
`declRefCount`, `kfree` or `kalloc`, with the work on the processor's own page table that follows it or leads to
the next one. -/

namespace Xv6.Sharing

open Prog Trace Shares Function

/-- What a process is in the middle of; `pagefault` is for a write. -/
inductive Call where
  | idle
  | deallocuvm (oldsz newsz : ℕ)
  | freevm
  | pagefault (cr2 : ℕ)

/-- A process, by its page directory and guard page, and its call. -/
structure Task where
  d : ℕ
  guard : Option ℕ
  call : Call

/-- Where a processor is. -/
inductive Pc where
  /-- at the head of the loop of `deallocuvm`, which `freevm` calls if `fv` -/
  | dealloc (a oldsz : ℕ) (fv : Bool)
  /-- in that loop, `getRefCount(f)` having returned `n` -/
  | freePage (a oldsz : ℕ) (fv : Bool) (f n : ℕ)
  /-- at the head of the loop of `freevm` -/
  | tabs (k : ℕ)
  | freeTab (k f n : ℕ)
  | freeDir
  /-- in `pagefault`, before `getRefCount` -/
  | cow (va : ℕ)
  /-- before `kalloc`, the count having been more than 1 -/
  | copy (va : ℕ) (e : Pte)
  /-- before the `declRefCount` of the page that was copied -/
  | drop (f : ℕ)
  | done

def Task.start (t : Task) : Pc :=
  match t.call with
  | .idle => .done
  | .deallocuvm oldsz newsz => if newsz ≥ oldsz then .done else .dealloc (PGROUNDUP newsz) oldsz false
  | .freevm => .dealloc 0 KERNBASE true
  | .pagefault cr2 => if cr2 = 0 then .done else .cow (PGROUNDDOWN cr2)

section

variable (L : Linker)

/-- `if(n == 1) kfree(f) else declRefCount(f)` -/
def giveUp (f n : ℕ) : K Unit := if n = 1 then kfree L f else declRefCount f

/-- One step of a process. The branches of `pagefault` for other pages than copy-on-write ones end it, and a null pointer
faults: the one of `deallocuvm` without a page table for the guard page, and that of a failed `kalloc`. -/
def Task.step (t : Task) : Pc → K Pc
  | .dealloc a oldsz fv =>
    if a < oldsz then do
      match ← walkpgdir t.d a false with
      | none => if t.guard = some a then fault else return .dealloc ((PDX a + 1) * PTSIZE) oldsz fv
      | some q => do
        markGuard t.guard a q
        let e ← loadPte q
        if e.p then do
          check (e.ppn ≠ 0) "kfree"
          let n ← getRefCount e.ppn
          return .freePage a oldsz fv e.ppn n
        else return .dealloc (a + PGSIZE) oldsz fv
    else return if fv then .tabs 0 else .done
  | .freePage a oldsz fv f n => do
    giveUp L f n
    storePte (t.d, a / PGSIZE) {}
    return .dealloc (a + PGSIZE) oldsz fv
  | .tabs k =>
    if k < NPDENTRIES then do
      let s ← get
      if s.ptab t.d k ≠ 0 then do
        let n ← getRefCount (s.ptab t.d k)
        return .freeTab k (s.ptab t.d k) n
      else return .tabs (k + 1)
    else return .freeDir
  | .freeTab k f n => do
    giveUp L f n
    modify fun s => { s with ptab := update s.ptab t.d (update (s.ptab t.d) k 0) }
    return .tabs (k + 1)
  | .freeDir => do
    kfree L t.d
    modify fun s => { s with dir := update s.dir t.d false }
    return .done
  | .cow va => do
    match ← walkpgdir t.d va false with
    | none => return .done
    | some q => do
      let e ← loadPte q
      if e.cow then do
        let n ← getRefCount e.ppn
        if n > 1 then return .copy va e
        else if n = 1 then do
          storePte q { e with w := true, cow := false }
          return .done
        else Prog.panic "something went really wrong"
      else return .done
  | .copy va e => do
    match ← kalloc with
    | none => fault
    | some newpg => do
      copypage newpg e.ppn
      storePte (t.d, va / PGSIZE) { p := true, w := true, u := true, cow := false, ppn := newpg }
      return .drop e.ppn
  | .drop f => do
    declRefCount f
    return .done
  | .done => return .done

end

structure State (ι : Type) where
  kern : Kern
  pc : ι → Pc
  /-- the panic that has stopped the kernel -/
  stop : Option String

section

variable {ι : Type} [DecidableEq ι]

/-- A step of processor `i`. A fault at address 0 is taken by `trap`, which kills the process: its call is over, the page
table stays as it is, and the others go on. -/
inductive Step (L : Linker) (t : ι → Task) : State ι → ι → State ι → Prop where
  | ok {s : State ι} {i : ι} {p : Pc} {k : Kern} (hs : s.stop = none)
      (h : (t i).step L (s.pc i) s.kern = .ok p k) :
      Step L t s i { s with kern := k, pc := update s.pc i p }
  | fault {s : State ι} {i : ι} {k : Kern} (hs : s.stop = none)
      (h : (t i).step L (s.pc i) s.kern = .fault k) :
      Step L t s i { s with kern := k, pc := update s.pc i .done }
  | panic {s : State ι} {i : ι} {m : String} {k : Kern} (hs : s.stop = none)
      (h : (t i).step L (s.pc i) s.kern = .panic m k) :
      Step L t s i { s with kern := k, stop := some m }

/-- Where a process can name a frame. -/
inductive Place where
  /-- the entry of a page below `KERNBASE` -/
  | page (v : Fin NUPG)
  /-- a page-table page -/
  | tab (k : Fin NPDENTRIES)
  /-- its page directory -/
  | dir
  /-- the frame that `pagefault` is about to give up -/
  | copied
deriving DecidableEq

instance : Fintype Place :=
  Fintype.ofEquiv (Fin NUPG ⊕ Fin NPDENTRIES ⊕ Bool)
    { toFun := fun
        | .inl v => .page v
        | .inr (.inl k) => .tab k
        | .inr (.inr false) => .dir
        | .inr (.inr true) => .copied
      invFun := fun
        | .page v => .inl v
        | .tab k => .inr (.inl k)
        | .dir => .inr (.inr false)
        | .copied => .inr (.inr true)
      left_inv := by rintro (_ | _ | _ | _) <;> rfl
      right_inv := by rintro (_ | _ | _ | _) <;> rfl }

/-- The entry `e` for page `v` maps its frame, or keeps it for the guard page. -/
def Task.maps (t : Task) (v : ℕ) (e : Pte) : Bool := e.p = true ∨ t.guard = some (v * PGSIZE)

/-- The frame that page `v` has, 0 for none. -/
def Task.pageName (t : Task) (v : ℕ) (e : Pte) : ℕ := if t.maps v e = true then e.ppn else 0

/-- The frame that `pagefault` is about to give up. -/
def Pc.copied : Pc → ℕ
  | .drop f => f
  | _ => 0

/-- The frame that is named at a place, 0 for none. -/
def Task.names (t : Task) (s : Kern) (p : Pc) : Place → ℕ
  | .page v => t.pageName v (s.entry t.d v)
  | .tab k => s.ptab t.d k
  | .dir => if s.dir t.d then t.d else 0
  | .copied => p.copied

/-- The frame named at a place of one of the processes. -/
def State.names (s : State ι) (t : ι → Task) (a : ι × Place) : ℕ := (t a.1).names s.kern (s.pc a.1) a.2

/-- The frame whose count the next step of a process reads. -/
def Task.reads (t : Task) (s : Kern) : Pc → Option ℕ
  | .dealloc a oldsz _ =>
    let e := s.entry t.d (a / PGSIZE)
    if a < oldsz ∧ t.maps (a / PGSIZE) e = true then some e.ppn else none
  | .tabs k => if k < NPDENTRIES ∧ s.ptab t.d k ≠ 0 then some (s.ptab t.d k) else none
  | .cow va =>
    let e := s.entry t.d (va / PGSIZE)
    if e.cow = true then some e.ppn else none
  | _ => none

/-- The frame whose count was read and that the process has yet to act on. -/
def Pc.between : Pc → Option ℕ
  | .freePage _ _ _ f _ => some f
  | .freeTab _ f _ => some f
  | .copy _ e => some e.ppn
  | .drop f => some f
  | _ => none

/-- Where the processes start: on page directories of their own, with the counts of the frames that they name being
the number of places that name them and of the references `ext` that the kernel itself has. -/
structure Init [Fintype ι] (t : ι → Task) (ext : ℕ → ℕ) (s : State ι) : Prop where
  pc : ∀ i, s.pc i = (t i).start
  stop : s.stop = none
  inj : ∀ i j, (t i).d = (t j).d → i = j
  dir : ∀ i, (t i).d ≠ 0 ∧ s.kern.dir (t i).d = true ∧ s.kern.refCount (t i).d = 1
  count : ∀ a f, f ≠ 0 → s.names t a = f → s.kern.refCount f = held (s.names t) f + ext f
  nodup : s.kern.freelist.Nodup
  free : ∀ f ∈ s.kern.freelist, f ≠ 0 ∧ s.kern.refCount f = 0 ∧ (∀ a, s.names t a ≠ f) ∧ ext f = 0
  size : ∀ i oldsz newsz, (t i).call = .deallocuvm oldsz newsz → oldsz ≤ KERNBASE
  /-- a copy-on-write page that is written is present or the guard page -/
  cow : ∀ i cr2, (t i).call = .pagefault cr2 → cr2 < KERNBASE ∧
    ((s.kern.entry (t i).d (cr2 / PGSIZE)).cow = true →
      (t i).maps (cr2 / PGSIZE) (s.kern.entry (t i).d (cr2 / PGSIZE)) = true)

/-- The interleavings of the calls from a state, with the processors that take the steps. -/
def system (L : Linker) (t : ι → Task) (s₀ : State ι) : System (State ι) ι where
  init s := s = s₀
  step := Step L t

/-- All calls have returned. -/
def State.Final (s : State ι) : Prop := s.stop = none ∧ ∀ i, s.pc i = .done

/-- The step of `i` reads no count that another processor has read and has yet to act on. -/
def Alone (t : ι → Task) (s : State ι) (i : ι) : Prop :=
  ∀ f, (t i).reads s.kern (s.pc i) = some f → ∀ j, j ≠ i → (s.pc j).between ≠ some f

end

end Xv6.Sharing

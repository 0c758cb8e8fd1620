import Xv6.Lib.Linked
import Xv6.Lib.Run
import Xv6.Spec.Param

/-! The user heap of `umalloc.c`. Addresses and sizes are numbers: all blocks lie below `KERNBASE`. -/

namespace Xv6.Umalloc

open Trace Linked

/-- `sizeof(Header)` -/
def UNIT : ℕ := 8

/-- The fields of the header at each address, `freep`, and what `sbrk` has given: the end of the last region,
and the regions with their sizes in units. -/
structure Heap where
  ptr : ℕ → ℕ
  size : ℕ → ℕ
  freep : ℕ
  top : ℕ
  regions : List (ℕ × ℕ)

def Heap.setPtr (m : Heap) (p v : ℕ) : Heap := { m with ptr := Function.update m.ptr p v }
def Heap.setSize (m : Heap) (p v : ℕ) : Heap := { m with size := Function.update m.size p v }

/-- Where the loop of `free` stops: its condition fails, or the `break`. -/
def Heap.stop (m : Heap) (bp p : ℕ) : Bool :=
  (p < bp && bp < m.ptr p) || (m.ptr p ≤ p && (p < bp || bp < m.ptr p))

/-- `bp` joins the block after it, or is linked to it. -/
def Heap.joinNext (m : Heap) (bp p : ℕ) : Heap :=
  if bp + UNIT * m.size bp = m.ptr p then
    (m.setSize bp (m.size bp + m.size (m.ptr p))).setPtr bp (m.ptr (m.ptr p))
  else m.setPtr bp (m.ptr p)

/-- The block `p` joins `bp`, or is linked to it. -/
def Heap.joinPrev (m : Heap) (bp p : ℕ) : Heap :=
  if p + UNIT * m.size p = bp then (m.setSize p (m.size p + m.size bp)).setPtr p (m.ptr bp)
  else m.setPtr p bp

/-- `free`, with at most `fuel` rounds of its loop. -/
def Heap.free (fuel : ℕ) (m : Heap) (ap : ℕ) : Option Heap := do
  let bp := ap - UNIT
  let p ← search m.ptr (m.stop bp) fuel m.freep
  some { (m.joinNext bp p).joinPrev bp p with freep := p }

/-- `sbrk` from the break it has reached, asked for a number of bytes: the region it gives. -/
abbrev Sbrk := ℕ → ℕ → Option ℕ

/-- `morecore`; its value is `freep`, or 0. -/
def Heap.morecore (sbrk : Sbrk) (fuel : ℕ) (m : Heap) (nu : ℕ) : Option (Heap × ℕ) :=
  let nu := if nu < 4096 then 4096 else nu
  match sbrk m.top (nu * UNIT) with
  | none => some (m, 0)
  | some hp => do
    let m := { m with top := hp + nu * UNIT, regions := (hp, nu) :: m.regions }
    let m ← (m.setSize hp nu).free fuel (hp + UNIT)
    some (m, m.freep)

/-- A fitting block `p` after `prevp`: taken whole, or its tail. -/
def Heap.carve (m : Heap) (nunits prevp p : ℕ) : Heap × ℕ :=
  if m.size p = nunits then ({ m.setPtr prevp (m.ptr p) with freep := prevp }, p + UNIT)
  else
    let left := m.size p - nunits
    let q := p + UNIT * left
    ({ (m.setSize p left).setSize q nunits with freep := prevp }, q + UNIT)

/-- The loop of `malloc`. -/
def mallocLoop (sbrk : Sbrk) (nunits : ℕ) : ℕ → Heap → ℕ → ℕ → Option (Heap × ℕ)
  | 0, _, _, _ => none
  | fuel + 1, m, prevp, p =>
    if nunits ≤ m.size p then some (m.carve nunits prevp p)
    else if p = m.freep then do
      let (m, p) ← m.morecore sbrk fuel nunits
      if p = 0 then some (m, 0) else mallocLoop sbrk nunits fuel m p (m.ptr p)
    else mallocLoop sbrk nunits fuel m p (m.ptr p)

def units (nbytes : ℕ) : ℕ := u32 (nbytes + UNIT - 1) / UNIT + 1

/-- `malloc`, where `base` is the address of the static header. -/
def Heap.malloc (base : ℕ) (sbrk : Sbrk) (fuel : ℕ) (m : Heap) (nbytes : ℕ) : Option (Heap × ℕ) :=
  let m := if m.freep = 0 then { (m.setPtr base base).setSize base 0 with freep := base } else m
  mallocLoop sbrk (units nbytes) fuel m m.freep (m.ptr m.freep)

/-! ### Programs that use the heap -/

/-- The heap, and the blocks handed out and not freed since: the address of the header and the units. -/
structure State where
  heap : Heap
  live : List (ℕ × ℕ)

inductive Act where
  | malloc (nbytes : ℕ) (sbrk : Sbrk)
  | free (b : ℕ × ℕ)
  /-- the program writes to the blocks it has -/
  | store

/-- `sbrk` fails, or gives a region above all earlier ones, in user space. -/
def Sbrk.Fresh (sbrk : Sbrk) : Prop := ∀ top n p, sbrk top n = some p → top ≤ p ∧ p + n < KERNBASE

/-- The request does not overflow. -/
def Small (nbytes : ℕ) : Prop := UNIT * ((nbytes + UNIT - 1) / UNIT + 1) < 2 ^ 31

/-- A header at `h` shares a byte with what the program may write in the block `b`. -/
def Overlaps (h : ℕ) (b : ℕ × ℕ) : Prop := h < b.1 + UNIT * b.2 ∧ b.1 + UNIT < h + UNIT

inductive Step (base : ℕ) : State → Act → State → Prop where
  | malloc {s : State} {nbytes fuel r : ℕ} {sbrk : Sbrk} {m : Heap} (hs : sbrk.Fresh) (hn : Small nbytes)
      (h : s.heap.malloc base sbrk fuel nbytes = some (m, r)) :
      Step base s (.malloc nbytes sbrk)
        ⟨m, if r = 0 then s.live else (r - UNIT, m.size (r - UNIT)) :: s.live⟩
  | free {s : State} {fuel : ℕ} {b : ℕ × ℕ} {m : Heap} (hb : b ∈ s.live)
      (h : s.heap.free fuel (b.1 + UNIT) = some m) : Step base s (.free b) ⟨m, s.live.erase b⟩
  | store {s : State} {ptr size : ℕ → ℕ}
      (h : ∀ a, (∀ b ∈ s.live, ¬ Overlaps a b) → ptr a = s.heap.ptr a ∧ size a = s.heap.size a) :
      Step base s .store ⟨{ s.heap with ptr := ptr, size := size }, s.live⟩

/-- A program whose static data, with `base`, end below the heap. -/
def system (base : ℕ) : System State Act where
  init s := s.live = [] ∧ s.heap.freep = 0 ∧ s.heap.regions = [] ∧ 0 < base ∧ base + UNIT ≤ s.heap.top
  step := Step base

/-- The free list from `freep`, as the list of its headers. -/
def Heap.FreeList (m : Heap) (l : List ℕ) : Prop := l.head? = some m.freep ∧ Links m.ptr l m.freep

/-- `b` begins above the end of `a`, with a gap. -/
def Heap.Below (m : Heap) (a b : ℕ) : Prop := a + UNIT * m.size a < b

/-! ### Requests of any size

The size of the process is `top` here, `nu * sizeof(Header)` a `uint` that `sbrk` reads as an `int`, and the kernel may
lack the pages. -/

/-- `sbrk(n)` in a process of size `sz`, where `ok` says whether there are pages to grow by: the value returned, none
for -1, and the new size. -/
def sbrk (ok : Bool) (sz : ℕ) (n : ℤ) : Option ℕ × ℕ :=
  let newsz := add32 sz n
  if n = 0 then (some sz, sz)
  else
    let r :=
      if n > 0 then if newsz ≥ KERNBASE then 0 else if newsz < sz then sz else if ok then newsz else 0
      else if newsz ≥ sz then sz else newsz
    if r = 0 then (none, sz) else (some sz, r)

/-- Which requests for more memory the kernel can meet. -/
abbrev Pages := ℕ → ℤ → Bool

/-- `morecore`; none also where the new header is not in the process's memory, and the process is killed. -/
def Heap.morecoreInt (ok : Pages) (fuel : ℕ) (m : Heap) (nu : ℕ) : Option (Heap × ℕ) :=
  let nu := if nu < 4096 then 4096 else nu
  let n := toInt (u32 (nu * UNIT))
  match sbrk (ok m.top n) m.top n with
  | (none, sz) => some ({ m with top := sz }, 0)
  | (some hp, sz) =>
    if hp + UNIT ≤ PGROUNDUP sz then do
      let m := { m with top := sz, regions := (hp, nu) :: m.regions }
      let m ← (m.setSize hp nu).free fuel (hp + UNIT)
      some (m, m.freep)
    else none

/-- The loop of `malloc`. -/
def mallocIntLoop (ok : Pages) (nunits : ℕ) : ℕ → Heap → ℕ → ℕ → Option (Heap × ℕ)
  | 0, _, _, _ => none
  | fuel + 1, m, prevp, p =>
    if nunits ≤ m.size p then some (m.carve nunits prevp p)
    else if p = m.freep then do
      let (m, p) ← m.morecoreInt ok fuel nunits
      if p = 0 then some (m, 0) else mallocIntLoop ok nunits fuel m p (m.ptr p)
    else mallocIntLoop ok nunits fuel m p (m.ptr p)

/-- `malloc` of any number of bytes. -/
def Heap.mallocInt (base : ℕ) (ok : Pages) (fuel : ℕ) (m : Heap) (nbytes : ℕ) : Option (Heap × ℕ) :=
  let m := if m.freep = 0 then { (m.setPtr base base).setSize base 0 with freep := base } else m
  mallocIntLoop ok (units nbytes) fuel m m.freep (m.ptr m.freep)

inductive Req where
  | malloc (nbytes : ℕ) (ok : Pages)
  | free (b : ℕ × ℕ)
  | store

inductive StepInt (base : ℕ) : State → Req → State → Prop where
  | malloc {s : State} {nbytes fuel r : ℕ} {ok : Pages} {m : Heap} (hn : nbytes < 2 ^ 32)
      (h : s.heap.mallocInt base ok fuel nbytes = some (m, r)) :
      StepInt base s (.malloc nbytes ok) ⟨m, if r = 0 then s.live else (r - UNIT, m.size (r - UNIT)) :: s.live⟩
  | free {s : State} {fuel : ℕ} {b : ℕ × ℕ} {m : Heap} (hb : b ∈ s.live)
      (h : s.heap.free fuel (b.1 + UNIT) = some m) : StepInt base s (.free b) ⟨m, s.live.erase b⟩
  | store {s : State} {ptr size : ℕ → ℕ}
      (h : ∀ a, (∀ b ∈ s.live, ¬ Overlaps a b) → ptr a = s.heap.ptr a ∧ size a = s.heap.size a) :
      StepInt base s .store ⟨{ s.heap with ptr := ptr, size := size }, s.live⟩

def systemInt (base : ℕ) : System State Req where
  init s := (system base).init s ∧ s.heap.top < KERNBASE
  step := StepInt base

/-- The request does not overflow, in units or as an `int`. -/
def Req.fits : Req → Prop
  | .malloc nbytes _ => Small nbytes
  | _ => True

end Xv6.Umalloc

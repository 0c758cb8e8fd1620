import Xv6.Lib.Count
import Xv6.Sanity.Entry

/-! What each page frame is used for, and what its reference count counts.

A ghost value beside the kernel state gives every frame a class, and counts the references that
no entry carries any more because the entry was lost with its page table or written over. -/

namespace Xv6

open Prog Count

/-- What the kernel itself can hold a frame for. -/
inductive Owner where
  | free | dir | tab (d k : ℕ) | kstack (i : ℕ) | pipe | cpu | vdso
deriving DecidableEq

inductive Cls where
  /-- not yet handed to the allocator, or outside its range -/
  | raw
  /-- returned by `kalloc` to code that has not put it anywhere yet -/
  | held
  /-- allocated and forgotten -/
  | lost
  | own (o : Owner)
  /-- a user page of one process, or shared copy-on-write -/
  | priv
  /-- a user page of a shared memory area -/
  | shm
deriving DecidableEq

/-- The classes that user entries of page tables name. -/
def Cls.user (c : Cls) : Prop := c = .priv ∨ c = .shm ∨ c = .own .vdso

/-- The references to a frame of the class that are not from user entries. -/
def Cls.weight : Cls → ℕ
  | .raw | .own .free | .priv | .shm => 0
  | .held | .lost | .own _ => 1

structure Ghost where
  cls : ℕ → Cls
  lost : ℕ → ℕ

def Ghost.set (g : Ghost) (f : ℕ) (c : Cls) : Ghost := { g with cls := Function.update g.cls f c }

/-- The entry for a reference to `f` is written over. -/
def Ghost.lose (g : Ghost) (f : ℕ) : Ghost :=
  if f = 0 then g else { g with lost := Function.update g.lost f (g.lost f + 1) }

def Kern.holds (s : Kern) : Owner → ℕ → Prop
  | .free, f => f ∈ s.freelist
  | .dir, f => s.dir f = true
  | .tab d k, f => s.ptab d k = f ∧ f ≠ 0
  | .kstack i, f => (s.proc i).kstack = f ∧ f ≠ 0
  | .pipe, f => f ∈ s.pipes
  | .cpu, f => f ∈ s.cpustacks
  | .vdso, f => (s.vdsoText = f ∨ s.vdsoTicks = f) ∧ f ≠ 0

/-- The user entries: a page directory and a page below `KERNBASE`. -/
@[irreducible] def slots : Finset (ℕ × ℕ) := Finset.range MAXPAGES ×ˢ Finset.range NUPG

/-- How many user entries name frame `f`, present or not. -/
def Kern.uref (s : Kern) (f : ℕ) : ℕ := refs slots (fun q => (s.entry q.1 q.2).ppn) f

/-- The user entries of the `k`-th page table of `d`. -/
def tabSlots (d k : ℕ) : Finset (ℕ × ℕ) := slots.filter fun q => q.1 = d ∧ q.2 / NPTENTRIES = k

/-- The entries of the `k`-th page table of `d` go with it. -/
def Ghost.loseTab (g : Ghost) (s : Kern) (d k : ℕ) : Ghost :=
  let n f := refs (tabSlots d k) (fun q => (s.entry q.1 q.2).ppn) f
  { g with lost := fun f => if f = 0 then g.lost f else g.lost f + n f }

/-- The account of the frames. -/
structure Inv (L : Linker) (s : Kern) (g : Ghost) : Prop where
  holds : ∀ o f, s.holds o f ↔ g.cls f = .own o
  raw : ∀ f, ¬ L.ok f → g.cls f = .raw
  nodup : s.freelist.Nodup ∧ s.pipes.Nodup
  tab : ∀ d k, s.ptab d k ≠ 0 → s.dir d = true ∧ k < NPDENTRIES
  named : ∀ d v, v < NUPG → (s.entry d v).ppn = 0 ∨ (g.cls (s.entry d v).ppn).user
  lost : ∀ f, g.lost f ≠ 0 → (g.cls f).user
  count : ∀ f, L.ok f → s.refCount f = s.uref f + g.lost f + (g.cls f).weight
  pos : ∀ f, g.cls f = .priv ∨ g.cls f = .shm → 0 < s.uref f + g.lost f

section Account

variable {L : Linker} {s s' : Kern} {g : Ghost} {d v k f r : ℕ} {e : Pte}

theorem Linker.ok_ne_zero (h : L.ok f) : f ≠ 0 := by
  have := L.data_lt
  have := h.1
  omega

theorem Linker.ok_zero : ¬ L.ok 0 := fun h => L.ok_ne_zero h rfl

theorem Inv.ok_of_ne_raw (h : Inv L s g) (hf : g.cls f ≠ .raw) : L.ok f := by
  by_contra hn
  exact hf (h.raw f hn)

theorem Cls.user_ne_raw {c : Cls} (h : c.user) : c ≠ .raw := by
  rcases h with rfl | rfl | rfl <;> simp

theorem Inv.ok_of_user (h : Inv L s g) (hf : (g.cls f).user) : L.ok f :=
  h.ok_of_ne_raw (Cls.user_ne_raw hf)

theorem Inv.zero_raw (h : Inv L s g) : g.cls 0 = .raw := h.raw 0 L.ok_zero

theorem Inv.not_user_zero (h : Inv L s g) : ¬ (g.cls 0).user := by
  rw [h.zero_raw]
  simp [Cls.user]

theorem Inv.dir_lt (h : Inv L s g) (hd : s.dir d = true) : d < MAXPAGES := by
  have hc : g.cls d = .own .dir := (h.holds .dir d).1 hd
  have hok : L.ok d := h.ok_of_ne_raw (by rw [hc]; simp)
  exact hok.2

theorem Inv.tab_lt (h : Inv L s g) (ht : s.ptab d k ≠ 0) : d < MAXPAGES := h.dir_lt (h.tab d k ht).1

theorem mem_slots : (d, v) ∈ slots ↔ d < MAXPAGES ∧ v < NUPG := by
  unfold slots
  simp

/-- Only directories in use have entries. -/
theorem Inv.mem_slots_of_ppn (h : Inv L s g) (hv : v < NUPG) (hp : (s.entry d v).ppn ≠ 0) :
    (d, v) ∈ slots := by
  refine mem_slots.2 ⟨h.tab_lt (d := d) (k := v / NPTENTRIES) ?_, hv⟩
  intro h0
  rw [entry_of_no_tab h0] at hp
  exact hp rfl

theorem Inv.uref_eq_zero (h : Inv L s g) (hf : ¬ (g.cls f).user) (h0 : f ≠ 0) : s.uref f = 0 := by
  refine refs_eq_zero.2 ?_
  rintro ⟨d, v⟩ hq he
  rcases h.named d v (mem_slots.1 hq).2 with hz | hu
  · exact h0 (he.symm.trans hz)
  · exact hf (he ▸ hu)

theorem Inv.lost_eq_zero (h : Inv L s g) (hf : ¬ (g.cls f).user) : g.lost f = 0 := by
  by_contra hn
  exact hf (h.lost f hn)

theorem Inv.refCount_of_not_user (h : Inv L s g) (hf : ¬ (g.cls f).user) (hok : L.ok f) :
    s.refCount f = (g.cls f).weight := by
  rw [h.count f hok, h.uref_eq_zero hf (L.ok_ne_zero hok), h.lost_eq_zero hf]
  omega

/-- A named frame is in the range of the allocator. -/
theorem Inv.ok_ppn (h : Inv L s g) (hv : v < NUPG) (hp : (s.entry d v).ppn ≠ 0) :
    L.ok (s.entry d v).ppn :=
  h.ok_of_user ((h.named d v hv).resolve_left hp)

theorem Inv.uref_pos (h : Inv L s g) (hv : v < NUPG) (hp : (s.entry d v).ppn ≠ 0) :
    0 < s.uref (s.entry d v).ppn :=
  refs_pos (h.mem_slots_of_ppn hv hp) rfl

theorem Inv.refCount_pos (h : Inv L s g) (hv : v < NUPG) (hp : (s.entry d v).ppn ≠ 0) :
    0 < s.refCount (s.entry d v).ppn := by
  have h1 := h.count _ (h.ok_ppn hv hp)
  have h2 := h.uref_pos hv hp
  omega

/-- A frame with one reference is named by one entry. -/
theorem Inv.unique (h : Inv L s g) {d' v' : ℕ} (hv : v < NUPG) (hv' : v' < NUPG)
    (hp : (s.entry d v).ppn ≠ 0) (h1 : s.refCount (s.entry d v).ppn = 1)
    (he : (s.entry d' v').ppn = (s.entry d v).ppn) : d' = d ∧ v' = v := by
  have hc := h.count _ (h.ok_ppn hv hp)
  have hu := refs_unique (E := fun q : ℕ × ℕ => (s.entry q.1 q.2).ppn) (S := slots)
    (a := (d', v')) (b := (d, v)) (x := (s.entry d v).ppn) (by change s.uref _ ≤ 1; omega)
    (h.mem_slots_of_ppn hv' (by rw [he]; exact hp)) (h.mem_slots_of_ppn hv hp) he rfl
  exact Prod.mk.inj hu

theorem uref_congr (he : ∀ d v, v < NUPG → (s'.entry d v).ppn = (s.entry d v).ppn) :
    s'.uref f = s.uref f := by
  refine refs_congr ?_
  rintro ⟨d, v⟩ hq
  rw [he d v (mem_slots.1 hq).2]

theorem uref_upd (hd : d < MAXPAGES) (hv : v < NUPG) (he : s'.entry = upd s.entry d v e) :
    s'.uref f + (if (s.entry d v).ppn = f then 1 else 0) =
      s.uref f + (if e.ppn = f then 1 else 0) := by
  have h := refs_set (E := fun q : ℕ × ℕ => (s.entry q.1 q.2).ppn)
    (D := fun q : ℕ × ℕ => (s'.entry q.1 q.2).ppn) (x := f) (mem_slots.2 ⟨hd, hv⟩) ?_
  · have hv' : (s'.entry d v).ppn = e.ppn := by rw [he, upd_same]
    rw [← hv']
    exact h
  · rintro ⟨d', v'⟩ - hne
    rw [he, upd_ne]
    rintro ⟨rfl, rfl⟩
    exact hne rfl

/-- An entry is emptied. -/
theorem uref_upd_empty (hd : d < MAXPAGES) (hv : v < NUPG) (he : s'.entry = upd s.entry d v {})
    (hf : f ≠ 0) : s'.uref f + (if (s.entry d v).ppn = f then 1 else 0) = s.uref f := by
  have h := uref_upd (f := f) hd hv he
  have hne : ¬ ({} : Pte).ppn = f := fun h => hf h.symm
  rw [if_neg hne, Nat.add_zero] at h
  exact h

end Account

end Xv6

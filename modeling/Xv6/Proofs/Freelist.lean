import Xv6.Spec.Kalloc
import Xv6.Spec.Kern
import Xv6.Lib.Linked

/-! The free list of `kalloc.c` over whole runs: it is a chain without repetition of exactly the allocatable frames that are not
handed out. The list of `Kern` is the one that this chain spells. -/

namespace Xv6

open Linked Function List

namespace Kmem

variable {L : Linker} {E : KernelEnd L} {s : Kmem} {l : List ℕ} {r v : ℕ}

theorem page_eq (h : r ≤ MAXPAGES) : page r = KERNBASE + r * PGSIZE := by
  have : r * PGSIZE + KERNBASE < 2 ^ 32 := by
    unfold MAXPAGES PHYSTOP PGSIZE KERNBASE at *
    omega
  rw [page, P2V, u32, Nat.mod_eq_of_lt this, Nat.add_comm]

theorem V2P_page (h : r ≤ MAXPAGES) : V2P (page r) = r * PGSIZE := by
  rw [page_eq h]
  unfold V2P sub32 MAXPAGES PHYSTOP PGSIZE KERNBASE at *
  omega

/-- The index of a page and the address of a run are inverse to each other. -/
theorem index_page (h : r ≤ MAXPAGES) : index (page r) = r := by
  rw [index, V2P_page h]
  exact Nat.mul_div_cancel _ (by decide)

theorem page_inj {r' : ℕ} (h : r ≤ MAXPAGES) (h' : r' ≤ MAXPAGES) (he : page r = page r') : r = r' := by
  rw [← index_page h, he, index_page h']

/-- A whole frame from `end` on and below `PHYSTOP` passes the test. -/
theorem not_bad_page (hlo : L.kend ≤ r) (hhi : r < MAXPAGES) : ¬ bad E (page r) := by
  have hE := E.hi
  rw [bad, V2P_page hhi.le, page_eq hhi.le]
  unfold MAXPAGES PHYSTOP PGSIZE KERNBASE at *
  omega

/-- The free list, head first. -/
structure Free (s : Kmem) (l : List ℕ) : Prop where
  head : s.freelist = l.head?
  links : Links (fun o => o.bind s.next) (l.map some) none
  nodup : l.Nodup
  zero : ∀ r ∈ l, s.refCount r = 0

theorem headD_map_some (l : List ℕ) : (l.map some).headD none = l.head? := by
  cases l <;> rfl

theorem Free.push (h : Free s l) (hr : r ∉ l) : Free (s.push r) (r :: l) where
  head := rfl
  links := by
    constructor
    · rw [headD_map_some, ← h.head]
      exact update_self r s.freelist s.next
    · apply h.links.congr
      intro o ho
      obtain ⟨q, hq, rfl⟩ := mem_map.1 ho
      exact update_of_ne (ne_of_mem_of_not_mem hq hr) _ _
  nodup := nodup_cons.2 ⟨hr, h.nodup⟩
  zero := by
    intro q hq
    by_cases he : q = r
    · rw [he]
      exact update_self _ _ _
    · rw [mem_cons] at hq
      exact (update_of_ne he _ _).trans (h.zero q (hq.resolve_left he))

/-- The counts of the other frames do not matter to the free list. -/
theorem Free.setCount (h : Free s l) (hr : r ∉ l) (n : ℕ) :
    Free { s with refCount := update s.refCount r n } l where
  head := h.head
  links := h.links
  nodup := h.nodup
  zero q hq := (update_of_ne (ne_of_mem_of_not_mem hq hr) _ _).trans (h.zero q hq)

theorem Free.mem (h : Free s l) (m : ℕ → ℕ → UInt8) : Free { s with mem := m } l := ⟨h.head, h.links, h.nodup, h.zero⟩

theorem Free.lock (h : Free s l) (b : Bool) : Free { s with useLock := b } l := ⟨h.head, h.links, h.nodup, h.zero⟩

theorem Free.kalloc_nil (h : Free s []) : kalloc s = (0, s) := by
  rw [kalloc, h.head]
  rfl

theorem Free.kalloc_cons (h : Free s (r :: l)) :
    (kalloc s).1 = page r ∧ Free (kalloc s).2 l ∧ (kalloc s).2.refCount = update s.refCount r 1 ∧
      (kalloc s).2.mem = s.mem := by
  have hk : kalloc s = (page r, (zeroRefCountRun { s with freelist := s.next r } r).inclRefCountRun r) := by
    rw [kalloc, h.head]
    rfl
  have hcount : (kalloc s).2.refCount = update s.refCount r 1 := by
    rw [hk]
    simp only [inclRefCountRun, zeroRefCountRun, update_self, update_idem]
    rfl
  obtain ⟨hnot, hnodup⟩ := nodup_cons.1 h.nodup
  refine ⟨by rw [hk], ⟨?_, ?_, hnodup, ?_⟩, hcount, by rw [hk]; rfl⟩
  · rw [hk, ← headD_map_some]
    exact h.links.1
  · rw [hk]
    exact h.links.2
  · intro q hq
    rw [hcount, update_of_ne (ne_of_mem_of_not_mem hq hnot)]
    exact h.zero q (mem_cons_of_mem _ hq)

theorem Free.kfree2 (h : Free s l) (hlo : L.kend ≤ r) (hhi : r < MAXPAGES) (hr : r ∉ l) :
    ∃ s', kfree2 E (page r) s = .ok s' ∧ Free s' (r :: l) := by
  refine ⟨_, if_neg (not_bad_page hlo hhi), ?_⟩
  rw [index_page hhi.le]
  exact (h.mem _).push hr

/-- The loop of `freerange` puts the frames of its range on the list. -/
theorem Free.freeFrom {a b : ℕ} (h : Free s l) (hlo : L.kend ≤ a) (hhi : b ≤ MAXPAGES) (hout : ∀ r ∈ l, r < a ∨ b ≤ r) :
    ∃ s' l', freeFrom E (KERNBASE + b * PGSIZE) (KERNBASE + a * PGSIZE) s = .ok s' ∧ Free s' l' ∧
      ∀ r, r ∈ l' ↔ r ∈ l ∨ a ≤ r ∧ r < b := by
  induction hn : b - a generalizing a s l with
  | zero =>
    refine ⟨s, l, ?_, h, fun r => ⟨.inl, fun hr => hr.resolve_right (by omega)⟩⟩
    rw [Kmem.freeFrom, if_neg]
    unfold PGSIZE
    omega
  | succ n ih =>
    have hab : a < b := by omega
    have hpage : KERNBASE + a * PGSIZE = page a := (page_eq (hab.le.trans hhi)).symm
    have hcond : KERNBASE + a * PGSIZE + PGSIZE ≤ KERNBASE + b * PGSIZE := by
      unfold PGSIZE
      omega
    have hnext : KERNBASE + a * PGSIZE + PGSIZE = KERNBASE + (a + 1) * PGSIZE := by
      unfold PGSIZE
      omega
    have hnot : a ∉ l := by
      intro hr
      have := hout a hr
      omega
    obtain ⟨s₁, hs₁, h₁⟩ := h.kfree2 (E := E) hlo (hab.trans_le hhi) hnot
    have hout₁ : ∀ r ∈ a :: l, r < a + 1 ∨ b ≤ r := by
      intro r hr
      rw [mem_cons] at hr
      cases hr with
      | inl hr => exact .inl (by omega)
      | inr hr => exact (hout r hr).imp_left Nat.lt_succ_of_lt
    obtain ⟨s', l', hs', h', hmem⟩ := ih h₁ (hlo.trans (Nat.le_succ a)) hout₁ (by omega)
    refine ⟨s', l', ?_, h', fun r => ?_⟩
    · rw [Kmem.freeFrom, if_pos hcond, hnext, hpage, hs₁]
      exact hs'
    · rw [hmem, mem_cons]
      constructor
      · rintro ((rfl | hr) | hr)
        · exact .inr ⟨le_rfl, hab⟩
        · exact .inl hr
        · exact .inr ⟨by omega, hr.2⟩
      · rintro (hr | hr)
        · exact .inl (.inr hr)
        · by_cases he : r = a
          · exact .inl (.inl he)
          · exact .inr ⟨by omega, hr.2⟩

end Kmem

open Kmem

/-- the frame up to which `main` has freed memory -/
def BootPhase.limit : BootPhase → ℕ
  | .start => 0
  | .kinit1 => PTSIZE / PGSIZE
  | .kinit2 => MAXPAGES

/-- The frames that are there to be allocated: from `end` on, as far as memory is freed at boot. -/
def Allocatable (L : Linker) (ph : BootPhase) (r : ℕ) : Prop := L.kend ≤ r ∧ r < ph.limit

variable {L : Linker} {E : KernelEnd L} {s s' : Alloc} {op : KmemOp} {r v : ℕ} {k : Kmem} {t : Kern} {l : List ℕ}

theorem BootPhase.limit_le (ph : BootPhase) : ph.limit ≤ MAXPAGES := by
  cases ph <;> decide

theorem Allocatable.lt {ph : BootPhase} (h : Allocatable L ph r) : r < MAXPAGES := h.2.trans_le ph.limit_le

theorem PGROUNDUP_end : PGROUNDUP E.addr = KERNBASE + L.kend * PGSIZE := by
  have hlo := E.lo
  have hhi := E.hi
  have hpos := L.data_lt
  unfold PGROUNDUP PGSIZE KERNBASE at *
  omega

/-- The free list holds the allocatable frames that are not handed out, and only those are handed out. -/
structure Alloc.Inv (L : Linker) (s : Alloc) (l : List ℕ) : Prop where
  free : Free s.kmem l
  mem : ∀ r, r ∈ l ↔ Allocatable L s.phase r ∧ page r ∉ s.out
  out : ∀ v ∈ s.out, ∃ r, Allocatable L s.phase r ∧ v = page r

/-- `inclRefCount` and `declRefCount` are for pages that are handed out. -/
def OnlyOut (s : Alloc) (op : KmemOp) : Prop := ∀ v, op = .inclRefCount v ∨ op = .declRefCount v → v ∈ s.out

theorem Alloc.Inv.index_not_mem (h : Alloc.Inv L s l) (hv : v ∈ s.out) :
    ∃ r, Allocatable L s.phase r ∧ v = page r ∧ index v = r ∧ r ∉ l := by
  obtain ⟨r, hr, he⟩ := h.out v hv
  refine ⟨r, hr, he, ?_, fun hl => ((h.mem r).1 hl).2 ?_⟩
  · rw [he, index_page hr.lt.le]
  · rw [← he]
    exact hv

/-- A call of `freerange` at boot: the limit of what is allocatable goes up. -/
theorem Alloc.Inv.boot {l : List ℕ} {a b : ℕ} {k : Kmem} {ph : BootPhase} (h : Alloc.Inv L s l)
    (hk : freeFrom E (KERNBASE + b * PGSIZE) (KERNBASE + a * PGSIZE) s.kmem = .ok k) (hlo : L.kend ≤ a)
    (hold : ∀ r, Allocatable L s.phase r ↔ L.kend ≤ r ∧ r < a) (hb : ph.limit = b) (hab : a ≤ b) :
    ∃ l', Alloc.Inv L { s with kmem := k, phase := ph } l' := by
  have hb' : b ≤ MAXPAGES := hb ▸ ph.limit_le
  have hbelow : ∀ r ∈ l, r < a ∨ b ≤ r := fun r hr => .inl ((hold r).1 ((h.mem r).1 hr).1).2
  obtain ⟨k', l', hk', hfree, hmem⟩ := h.free.freeFrom (E := E) hlo hb' hbelow
  obtain rfl : k' = k := by
    rw [hk] at hk'
    exact (Except.ok.inj hk').symm
  have hnew : ∀ r, Allocatable L ph r ↔ Allocatable L s.phase r ∨ a ≤ r ∧ r < b := by
    intro r
    rw [hold, Allocatable, hb]
    omega
  refine ⟨l', hfree, fun r => ?_, fun v hv => ?_⟩
  · rw [hmem, h.mem, hnew]
    constructor
    · rintro (hr | hr)
      · exact ⟨.inl hr.1, hr.2⟩
      · refine ⟨.inr hr, fun hv => ?_⟩
        -- a page handed out is below the part freed now
        obtain ⟨q, hq, he⟩ := h.out _ hv
        have := page_inj (hr.2.le.trans hb') hq.lt.le he
        have := (hold q).1 hq
        omega
    · rintro ⟨hr | hr, hv⟩
      · exact .inl ⟨hr, hv⟩
      · exact .inr hr
  · obtain ⟨r, hr, hv⟩ := h.out v hv
    exact ⟨r, (hnew r).2 (.inl hr), hv⟩

theorem Alloc.Inv.freed (h : Alloc.Inv L s l) (hv : v ∈ s.out)
    (hk : k = (s.kmem.junk v).push (index v)) : ∃ l', Alloc.Inv L { s with kmem := k, out := s.out.erase v } l' := by
  obtain ⟨r, hr, he, hindex, hnot⟩ := h.index_not_mem hv
  rw [hindex] at hk
  rw [hk]
  refine ⟨r :: l, (h.free.mem _).push hnot, fun q => ?_, fun w hw => h.out w (Finset.mem_of_mem_erase hw)⟩
  rw [mem_cons, h.mem, Finset.mem_erase, not_and_or, not_not]
  constructor
  · rintro (rfl | hq)
    · exact ⟨hr, .inl he.symm⟩
    · exact ⟨hq.1, .inr hq.2⟩
  · rintro ⟨hq, hpage | hq'⟩
    · exact .inl (page_inj hq.lt.le hr.lt.le (hpage.trans he))
    · exact .inr ⟨hq, hq'⟩

theorem Alloc.Inv.counted {n : ℕ} (h : Alloc.Inv L s l) (hv : v ∈ s.out) :
    Alloc.Inv L { s with kmem := { s.kmem with refCount := update s.kmem.refCount (index v) n } } l := by
  obtain ⟨r, -, -, hindex, hnot⟩ := h.index_not_mem hv
  rw [hindex]
  exact ⟨h.free.setCount hnot n, h.mem, h.out⟩

theorem page_pos (h : r ≤ MAXPAGES) : page r ≠ 0 := by
  rw [page_eq h]
  unfold KERNBASE
  omega

/-- What `kalloc` does: it hands out a frame of the list, with the count 1, unless the list is empty. -/
theorem Alloc.Inv.kalloc (h : Alloc.Inv L s l) : (l = [] ∧ Kmem.kalloc s.kmem = (0, s.kmem)) ∨
      ∃ r l', l = r :: l' ∧ Allocatable L s.phase r ∧ page r ∉ s.out ∧ (Kmem.kalloc s.kmem).1 = page r ∧
        (Kmem.kalloc s.kmem).2.refCount r = 1 ∧
        Alloc.Inv L { s with kmem := (Kmem.kalloc s.kmem).2, out := insert (page r) s.out } l' := by
  cases l with
  | nil => exact .inl ⟨rfl, h.free.kalloc_nil⟩
  | cons r l =>
    obtain ⟨hr, hout⟩ := (h.mem r).1 mem_cons_self
    obtain ⟨hpage, hfree, hcount, -⟩ := h.free.kalloc_cons
    have hnot : r ∉ l := (nodup_cons.1 h.free.nodup).1
    refine .inr ⟨r, l, rfl, hr, hout, hpage, ?_, hfree, fun q => ?_, fun v hv => ?_⟩
    · rw [hcount, update_self]
    · rw [Finset.mem_insert, not_or]
      constructor
      · intro hq
        obtain ⟨hq₁, hq₂⟩ := (h.mem q).1 (mem_cons_of_mem _ hq)
        refine ⟨hq₁, fun he => hnot ?_, hq₂⟩
        rw [← page_inj hq₁.lt.le hr.lt.le he]
        exact hq
      · rintro ⟨hq₁, hne, hq₂⟩
        have hq := (h.mem q).2 ⟨hq₁, hq₂⟩
        rw [mem_cons] at hq
        refine hq.resolve_left fun he => hne ?_
        rw [he]
    · rw [Finset.mem_insert] at hv
      cases hv with
      | inl hv => exact ⟨r, hr, hv⟩
      | inr hv => exact h.out v hv

theorem P2V_limit {b : ℕ} (h : b ≤ MAXPAGES) : P2V (b * PGSIZE) = KERNBASE + b * PGSIZE := page_eq h

theorem Alloc.Inv.step (h : Alloc.Inv L s l) (hop : OnlyOut s op) (hs : Alloc.Step E s op s') :
    ∃ l', Alloc.Inv L s' l' := by
  have hkend : L.kend ≤ PTSIZE / PGSIZE := L.kend_le
  cases hs with
  | @kinit1 k hph hk =>
    -- nothing is allocatable before
    have h' : Alloc.Inv L { s with kmem := { s.kmem with useLock := false } } l := ⟨h.free.lock false, h.mem, h.out⟩
    refine h'.boot (E := E) (a := L.kend) (b := PTSIZE / PGSIZE) ?_ le_rfl ?_ rfl hkend
    · rw [Kmem.kinit1, Kmem.freerange, PGROUNDUP_end] at hk
      rw [← P2V_limit (by decide)]
      exact hk
    · intro r
      simp only [Allocatable, hph, BootPhase.limit]
      omega
  | @kinit2 k hph hk =>
    rw [Kmem.kinit2, Kmem.freerange] at hk
    have hstart : PGROUNDUP (P2V PTSIZE) = KERNBASE + PTSIZE / PGSIZE * PGSIZE := by decide
    have hend : P2V PHYSTOP = KERNBASE + MAXPAGES * PGSIZE := by decide
    rw [hstart, hend] at hk
    cases hk' : freeFrom E (KERNBASE + MAXPAGES * PGSIZE) (KERNBASE + PTSIZE / PGSIZE * PGSIZE) s.kmem with
    | error e =>
      rw [hk'] at hk
      exact absurd hk (by simp [Except.map])
    | ok k' =>
      rw [hk'] at hk
      obtain rfl := Except.ok.inj hk
      obtain ⟨l', hl'⟩ := @Alloc.Inv.boot L E s l _ _ k' .kinit2 h hk' hkend
        (fun r => by simp only [Allocatable, hph, BootPhase.limit]) rfl (by decide)
      exact ⟨l', hl'.free.lock true, hl'.mem, hl'.out⟩
  | kalloc =>
    rcases h.kalloc with ⟨-, hk⟩ | ⟨r, l', -, hr, -, hpage, -, hinv⟩
    · rw [hk, if_pos rfl]
      exact ⟨l, h⟩
    · rw [hpage, if_neg (page_pos hr.lt.le)]
      exact ⟨l', hinv⟩
  | @kfree v k hv hk =>
    unfold Kmem.kfree at hk
    dsimp only at hk
    split_ifs at hk
    exact h.freed hv (Except.ok.inj hk).symm
  | @kfree2 v k hv hk =>
    unfold Kmem.kfree2 at hk
    split_ifs at hk
    exact h.freed hv (Except.ok.inj hk).symm
  | @inclRefCount v => exact ⟨l, h.counted (hop v (.inl rfl))⟩
  | @declRefCount v => exact ⟨l, h.counted (hop v (.inr rfl))⟩

theorem Alloc.run_inv {ops : List KmemOp} (h : Trace.Run ((Alloc.system E).restrict OnlyOut) ops s) :
    ∃ l, Alloc.Inv L s l := by
  refine h.invariant (I := fun _ s => ∃ l, Alloc.Inv L s l) ?_ ?_
  · rintro s ⟨hfree, hph, hout⟩
    refine ⟨[], ⟨hfree, trivial, nodup_nil, by simp⟩, fun r => ?_, ?_⟩
    · simp only [Allocatable, hph, BootPhase.limit, not_mem_nil, false_iff]
      omega
    · rw [hout]
      simp
  · rintro ops s op s' - ⟨l, hl⟩ ⟨hop, hstep⟩
    exact hl.step hop hstep

/-! The list of frames that `Kern` keeps is the one the chain spells, and the calls agree. -/

/-- The same free list, counts and pages. -/
structure Kmem.Refines (k : Kmem) (t : Kern) : Prop where
  free : Free k t.freelist
  count : k.refCount = t.refCount
  mem : k.mem = t.mem

theorem Kmem.bad_page_iff (h : r < MAXPAGES) : bad E (page r) ↔ ¬ L.ok r := by
  constructor
  · intro hbad hok
    exact not_bad_page hok.1 hok.2 hbad
  · intro hok
    have hlt : r ≤ L.kend - 1 := by
      rw [Linker.ok] at hok
      omega
    refine .inr (.inl ?_)
    rw [page_eq h.le]
    exact (Nat.add_le_add_left (Nat.mul_le_mul_right _ hlt) _).trans_lt E.lo

theorem Kmem.Refines.kalloc (h : k.Refines t) (hf : t.fails = []) :
    ∃ o t', Xv6.kalloc t = .ok o t' ∧ (Kmem.kalloc k).1 = o.elim 0 page ∧ (Kmem.kalloc k).2.Refines t' := by
  have hfree := h.free
  unfold Xv6.kalloc
  rw [hf]
  cases hl : t.freelist with
  | nil =>
    rw [hl] at hfree
    refine ⟨none, _, rfl, ?_, ?_⟩
    · rw [hfree.kalloc_nil, Option.elim_none]
    · rw [hfree.kalloc_nil]
      exact ⟨hfree, h.count, h.mem⟩
  | cons r l =>
    rw [hl] at hfree
    obtain ⟨hpage, hfree', hcount, hmem⟩ := hfree.kalloc_cons
    refine ⟨some r, _, rfl, ?_, hfree', ?_, hmem.trans h.mem⟩
    · rw [hpage, Option.elim_some]
    · rw [hcount, h.count]

theorem Kmem.Refines.freed (h : k.Refines t) (hr : r < MAXPAGES) (hnot : r ∉ t.freelist) :
    ((k.junk (page r)).push (index (page r))).Refines
      (Kern.push { t with mem := update t.mem r fun _ => 1 } r) := by
  rw [Kmem.index_page hr.le]
  refine ⟨(h.free.mem _).push hnot, ?_, ?_⟩
  · simp only [push, zeroRefCountRun, junk, Kern.push, h.count]
  · simp only [push, zeroRefCountRun, junk, Kern.push, h.mem, Kmem.index_page hr.le]

theorem kfree_junked (hok : L.ok r) : Xv6.kfree L r t =
    (Prog.check (t.refCount r = 1) "kfree2 ref_count!=1" >>= fun _ => Prog.modify fun s => s.push r)
      { t with mem := update t.mem r fun _ => 1 } := by
  have hcheck : (Prog.check (L.ok r) "kfree1" : K Unit) = pure () := if_pos hok
  rw [Xv6.kfree, hcheck, Prog.M.pure_bind, Prog.bind_ok (x := memset r 1) rfl, Prog.bind_ok (x := Xv6.getRefCount r) rfl]

/-- `kfree` also looks at the count, so a page on the free list is never freed again. -/
theorem Kmem.Refines.kfree (h : k.Refines t) (hr : r < MAXPAGES) :
    (∃ k' t', Kmem.kfree E (page r) k = .ok k' ∧ Xv6.kfree L r t = .ok () t' ∧ k'.Refines t') ∨
      ∃ e t', Kmem.kfree E (page r) k = .error e ∧ Xv6.kfree L r t = .panic e t' := by
  by_cases hok : L.ok r
  · have hgood : ¬ bad E (page r) := fun hbad => (bad_page_iff hr).1 hbad hok
    have hcount : (k.junk (page r)).refCount (index (page r)) = t.refCount r := by
      rw [Kmem.index_page hr.le, ← h.count]
      rfl
    by_cases hone : t.refCount r = 1
    · have hnot : r ∉ t.freelist := by
        intro hmem
        have hzero := h.free.zero r hmem
        rw [h.count, hone] at hzero
        exact absurd hzero (by decide)
      refine .inl ⟨_, _, ?_, ?_, h.freed hr hnot⟩
      · rw [Kmem.kfree, if_neg hgood]
        dsimp only
        rw [hcount, if_pos hone]
      · have hcheck : (Prog.check (t.refCount r = 1) "kfree2 ref_count!=1" : K Unit) = pure () := if_pos hone
        rw [kfree_junked hok, hcheck, Prog.M.pure_bind]
        rfl
    · refine .inr ⟨"kfree2 ref_count!=1", { t with mem := update t.mem r fun _ => 1 }, ?_, ?_⟩
      · rw [Kmem.kfree, if_neg hgood]
        dsimp only
        rw [hcount, if_neg hone]
      · have hcheck : (Prog.check (t.refCount r = 1) "kfree2 ref_count!=1" : K Unit) = Prog.panic "kfree2 ref_count!=1" :=
          if_neg hone
        rw [kfree_junked hok, hcheck]
        rfl
  · have hcheck : (Prog.check (L.ok r) "kfree1" : K Unit) = Prog.panic "kfree1" := if_neg hok
    refine .inr ⟨_, t, if_pos ((bad_page_iff hr).2 hok), ?_⟩
    rw [Xv6.kfree, hcheck]
    rfl

theorem Kmem.Refines.setCount {n : ℕ} (h : k.Refines t) (hnot : r ∉ t.freelist) :
    Kmem.Refines { k with refCount := update t.refCount r n } { t with refCount := update t.refCount r n } :=
  ⟨h.count ▸ h.free.setCount hnot n, rfl, h.mem⟩

/-- A count of the list model that fits in a `uint` goes up and down as in the source. -/
theorem Kmem.Refines.inclRefCount (h : k.Refines t) (hr : r < MAXPAGES) (hnot : r ∉ t.freelist)
    (hlt : t.refCount r + 1 < 2 ^ 32) :
    ∃ t', Xv6.inclRefCount r t = .ok () t' ∧ (Kmem.inclRefCount (page r) k).Refines t' := by
  refine ⟨_, rfl, ?_⟩
  rw [Kmem.inclRefCount, inclRefCountRun, Kmem.index_page hr.le, h.count, u32, Nat.mod_eq_of_lt hlt]
  exact h.setCount hnot

theorem Kmem.Refines.declRefCount (h : k.Refines t) (hr : r < MAXPAGES) (hnot : r ∉ t.freelist)
    (hlt : t.refCount r < 2 ^ 32) :
    ∃ t', Xv6.declRefCount r t = .ok () t' ∧ (Kmem.declRefCount (page r) k).Refines t' := by
  have hdecl : sub32 (t.refCount r) 1 = decl (t.refCount r) := by
    unfold sub32 decl
    split_ifs <;> omega
  refine ⟨_, rfl, ?_⟩
  rw [Kmem.declRefCount, declRefCountRun, Kmem.index_page hr.le, h.count, hdecl]
  exact h.setCount hnot

/-- The calls on the chain do what the calls on the list do, down to the panics, while the counts fit in a `uint`. -/
theorem kmem_refines (h : k.Refines t) :
    (t.fails = [] → ∃ o t', Xv6.kalloc t = .ok o t' ∧ (Kmem.kalloc k).1 = o.elim 0 page ∧ (Kmem.kalloc k).2.Refines t') ∧
    ∀ r < MAXPAGES, ((∃ k' t', Kmem.kfree E (page r) k = .ok k' ∧ Xv6.kfree L r t = .ok () t' ∧ k'.Refines t') ∨
      ∃ e t', Kmem.kfree E (page r) k = .error e ∧ Xv6.kfree L r t = .panic e t') ∧ (r ∉ t.freelist →
      (t.refCount r + 1 < 2 ^ 32 → ∃ t', Xv6.inclRefCount r t = .ok () t' ∧ (Kmem.inclRefCount (page r) k).Refines t') ∧
      (t.refCount r < 2 ^ 32 → ∃ t', Xv6.declRefCount r t = .ok () t' ∧ (Kmem.declRefCount (page r) k).Refines t')) :=
  ⟨h.kalloc, fun _ hr => ⟨h.kfree hr, fun hnot => ⟨h.inclRefCount hr hnot, h.declRefCount hr hnot⟩⟩⟩

/-- The free list is a chain without repetition of exactly the allocatable frames not handed out, with counts 0, and the index
of a page and the address of a run are inverse to each other. -/
structure FreelistOk (L : Linker) (s : Alloc) : Prop where
  list : ∃ l : List ℕ, s.kmem.freelist = l.head? ∧ Links (fun o => o.bind s.kmem.next) (l.map some) none ∧ l.Nodup ∧
    (∀ r, r ∈ l ↔ Allocatable L s.phase r ∧ page r ∉ s.out) ∧ ∀ r ∈ l, s.kmem.refCount r = 0
  index_page : ∀ r, Allocatable L s.phase r → index (page r) = r
  page_index : ∀ v ∈ s.out, page (index v) = v

theorem Alloc.Inv.ok {l : List ℕ} (h : Alloc.Inv L s l) : FreelistOk L s where
  list := ⟨l, h.free.head, h.free.links, h.free.nodup, h.mem, h.free.zero⟩
  index_page _ hr := Kmem.index_page hr.lt.le
  page_index v hv := by
    obtain ⟨r, hr, he⟩ := h.out v hv
    rw [he, Kmem.index_page hr.lt.le]

/-- Along every run that counts references of handed-out pages only. -/
theorem freelist_invariant {ops : List KmemOp} (h : Trace.Run ((Alloc.system E).restrict OnlyOut) ops s) :
    FreelistOk L s ∧ ∀ v s', Alloc.Step E s (.kalloc v) s' →
      (v = 0 → ∀ r, Allocatable L s.phase r → page r ∈ s.out) ∧
      (v ≠ 0 → v % PGSIZE = 0 ∧ E.addr ≤ v ∧ v < P2V PHYSTOP ∧ v ∉ s.out ∧ s'.kmem.refCount (index v) = 1) := by
  obtain ⟨l, hl⟩ := Alloc.run_inv h
  refine ⟨hl.ok, fun v s' hs => ?_⟩
  cases hs
  rcases hl.kalloc with ⟨rfl, hk⟩ | ⟨r, l', -, hr, hout, hpage, hcount, -⟩
  · rw [hk]
    refine ⟨fun _ r hr => ?_, fun hv => absurd rfl hv⟩
    by_contra hnot
    exact not_mem_nil ((hl.mem r).2 ⟨hr, hnot⟩)
  · rw [hpage]
    refine ⟨fun hv => absurd hv (page_pos hr.lt.le), fun _ => ⟨?_, ?_, ?_, hout, ?_⟩⟩
    · rw [page_eq hr.lt.le, Nat.add_mul_mod_self_right]
      decide
    · rw [page_eq hr.lt.le]
      exact E.hi.trans (Nat.add_le_add_left (Nat.mul_le_mul_right _ hr.1) _)
    · have hend : P2V PHYSTOP = KERNBASE + MAXPAGES * PGSIZE := by decide
      rw [page_eq hr.lt.le, hend]
      exact Nat.add_lt_add_left (Nat.mul_lt_mul_of_pos_right hr.lt (by decide)) _
    · rw [Kmem.index_page hr.lt.le]
      exact hcount

/-- The first call of `main`, which never panics. -/
theorem Kmem.kinit1_ok (h : k.freelist = none) :
    ∃ k' l, Kmem.kinit1 E E.addr (P2V PTSIZE) k = .ok k' ∧ Free k' l ∧ ∀ r, r ∈ l ↔ L.kend ≤ r ∧ r < PTSIZE / PGSIZE := by
  have hfree : Free { k with useLock := false } [] := ⟨h, trivial, nodup_nil, by simp⟩
  obtain ⟨k', l, hk', hl, hmem⟩ := hfree.freeFrom (E := E) (a := L.kend) (b := PTSIZE / PGSIZE) le_rfl (by decide) (by simp)
  refine ⟨k', l, ?_, hl, fun r => by simp [hmem]⟩
  rw [Kmem.kinit1, Kmem.freerange, PGROUNDUP_end]
  rw [← P2V_limit (by decide)] at hk'
  exact hk'

/-- A kernel that ends one page before four megabytes. -/
def bigLinker : Linker := ⟨300, 1023, [], [], Linker.data_300, by decide, by decide⟩

def bigEnd : KernelEnd bigLinker := ⟨KERNBASE + 1023 * PGSIZE, by decide, by decide⟩

theorem kinit1_run : ∃ k l, Trace.Run ((Alloc.system bigEnd).restrict OnlyOut) [.kinit1] ⟨k, .kinit1, ∅⟩ ∧ Free k l ∧
    ∀ r, r ∈ l ↔ r = 1023 := by
  obtain ⟨k, l, hk, hfree, hmem⟩ := Kmem.kinit1_ok (E := bigEnd) (k := {}) rfl
  have hstart : Trace.Run ((Alloc.system bigEnd).restrict OnlyOut) [] ⟨{}, .start, ∅⟩ := .start ⟨rfl, rfl, rfl⟩
  refine ⟨k, l, hstart.snoc ⟨by simp [OnlyOut], .kinit1 rfl hk⟩, hfree, fun r => ?_⟩
  have hb : bigLinker.kend = 1023 := rfl
  rw [hmem, hb]
  unfold PTSIZE PGSIZE
  omega

/-- The page is handed out, so the next `kalloc` returns 0; `kfree` takes it back. -/
theorem freelist_invariant_reuse : ∃ k, FreelistOk bigLinker ⟨k, .kinit1, ∅⟩ ∧ k.freelist = some 1023 ∧
    Trace.Run ((Alloc.system bigEnd).restrict OnlyOut) [.kinit1, .kalloc (page 1023), .kalloc 0, .kfree (page 1023)]
      ⟨k, .kinit1, ∅⟩ := by
  obtain ⟨k, l, hrun, hfree, hmem⟩ := kinit1_run
  obtain rfl : l = [1023] := perm_singleton.1 (perm_of_nodup_nodup_toFinset_eq hfree.nodup (by simp) (by ext; simp [hmem]))
  have hpos : page 1023 ≠ 0 := page_pos (by decide)
  obtain ⟨hpage, hfree₁, hcount, -⟩ := hfree.kalloc_cons
  have h₁ := hrun.snoc ⟨by simp [OnlyOut], Alloc.Step.kalloc⟩
  simp only [hpage, if_neg hpos] at h₁
  have h₂ := h₁.snoc ⟨by simp [OnlyOut], Alloc.Step.kalloc⟩
  simp only [hfree₁.kalloc_nil, if_true] at h₂
  have hk : Kmem.kfree bigEnd (page 1023) (Kmem.kalloc k).2 =
      .ok (((Kmem.kalloc k).2.junk (page 1023)).push (index (page 1023))) := by
    have hone : ((Kmem.kalloc k).2.junk (page 1023)).refCount (index (page 1023)) = 1 := by
      rw [Kmem.index_page (by decide)]
      exact (congrFun hcount 1023).trans (update_self _ _ _)
    have hgood : ¬ bad bigEnd (page 1023) := not_bad_page (r := 1023) le_rfl (by decide)
    rw [Kmem.kfree, if_neg hgood]
    exact if_pos hone
  have h₃ := h₂.snoc ⟨by simp [OnlyOut], .kfree (Finset.mem_insert_self _ _) hk⟩
  rw [Finset.erase_insert (Finset.notMem_empty _)] at h₃
  exact ⟨_, (freelist_invariant h₃).1, congrArg some (Kmem.index_page (by decide)), h₃⟩

theorem kmem_refines_boot : ∃ k t, Kmem.Refines k t ∧ 1023 ∈ t.freelist ∧
    ∃ o t', Xv6.kalloc t = .ok o t' ∧ (Kmem.kalloc k).2.Refines t' := by
  obtain ⟨k, l, -, hfree, hmem⟩ := kinit1_run
  let t : Kern := ⟨l, k.refCount, k.mem, fun _ => false, fun _ _ => 0, fun _ _ => {}, fun _ => {}, 1, 0, 0, [], [], [], 0⟩
  have h : k.Refines t := ⟨hfree, rfl, rfl⟩
  obtain ⟨o, t', h1, -, h2⟩ := (kmem_refines (E := bigEnd) h).1 rfl
  exact ⟨k, t, h, (hmem 1023).2 rfl, o, t', h1, h2⟩

/-- A reference counted to a page on the free list. -/
theorem free_page_counted : ∃ ops s, Trace.Run (Alloc.system bigEnd) ops s ∧ ¬ FreelistOk bigLinker s := by
  obtain ⟨k, l, hrun, hfree, hmem⟩ := kinit1_run
  refine ⟨_, _, hrun.of_restrict.snoc (.inclRefCount (v := page 1023)), fun hok => ?_⟩
  obtain ⟨l', -, -, -, hmem', hzero⟩ := hok.list
  have hlimit : 1023 < BootPhase.kinit1.limit := by decide
  have hin : 1023 ∈ l' := (hmem' 1023).2 ⟨⟨le_rfl, hlimit⟩, Finset.notMem_empty _⟩
  have hcount : (Kmem.inclRefCount (page 1023) k).refCount 1023 = 0 := hzero 1023 hin
  rw [Kmem.inclRefCount, Kmem.index_page (by decide)] at hcount
  simp only [inclRefCountRun, Function.update_self, hfree.zero 1023 ((hmem 1023).2 rfl)] at hcount
  exact absurd hcount (by decide)

end Xv6

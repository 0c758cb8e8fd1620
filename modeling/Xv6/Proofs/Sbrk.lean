import Xv6.Proofs.VdsoTrace

/-! What `sbrk(n)` that does not return -1 has done to the address space. -/

namespace Xv6

open Prog Count Relation
open Finset (mem_filter)

/-- The pages from `PGROUNDUP(lo)` up to `hi`. -/
def pagesFrom (lo hi v : ℕ) : Prop := PGROUNDUP lo ≤ v * PGSIZE ∧ v * PGSIZE < hi

/-- A page of `d` is new: it was not mapped, and now it is a free frame that was zeroed. -/
structure NewPage (d v : ℕ) (s s' : Kern) : Prop where
  absent : (s.entry d v).p = false
  entry : s'.entry d v = { p := true, w := true, u := true, ppn := (s'.entry d v).ppn }
  fresh : (s'.entry d v).ppn ∈ s.freelist
  zero : s'.mem (s'.entry d v).ppn = fun _ => 0

/-- How many entries of `d` that `deallocuvm` empties from `hi` down to `lo` name frame `f`. -/
def dropped (s : Kern) (d lo hi : ℕ) (guard : Option ℕ) (f : ℕ) : ℕ :=
  ((Finset.range NUPG).filter fun v => emptied s d (PGROUNDUP lo) hi guard v ∧ (s.entry d v).ppn = f).card

/-- Process `i` has grown by `n` bytes, or shrunk if `n` is negative. -/
structure Resized (L : Linker) (i : ℕ) (n : ℤ) (s s' : Kern) : Prop where
  size : ((s'.proc i).sz : ℤ) = (s.proc i).sz + n
  top : (s'.proc i).sz < KERNBASE
  proc : s'.proc = Function.update s.proc i { s.proc i with sz := (s'.proc i).sz }
  mapped : ∀ v, pagesFrom (s.proc i).sz (s'.proc i).sz v → NewPage (s.proc i).pgdir v s s'
  distinct : ∀ v v', pagesFrom (s.proc i).sz (s'.proc i).sz v → pagesFrom (s.proc i).sz (s'.proc i).sz v' →
    (s'.entry (s.proc i).pgdir v').ppn = (s'.entry (s.proc i).pgdir v).ppn → v' = v
  unmapped : ∀ v, pagesFrom (s'.proc i).sz (s.proc i).sz v → (s'.entry (s.proc i).pgdir v).p = false
  refs : n < 0 → ∀ f, L.ok f → s'.refCount f +
    dropped s (s.proc i).pgdir (s'.proc i).sz (s.proc i).sz (some (s.proc i).guardpg) f = s.refCount f
  other : ∀ d v, ¬ (d = (s.proc i).pgdir ∧ (pagesFrom (s.proc i).sz (s'.proc i).sz v ∨
    pagesFrom (s'.proc i).sz (s.proc i).sz v)) → s'.entry d v = s.entry d v
  mem : ∀ f, f ∉ s.freelist → f ∉ s'.freelist → s'.mem f = s.mem f

section

variable {L : Linker} {P : Perm} {s s' t : Kern} {g g' : Ghost} {d i sz lo hi f : ℕ} {n : ℤ} {guard : Option ℕ}

attribute [local irreducible] loop PGSIZE

/-- No page lies between a size and a smaller one. -/
theorem not_pagesFrom {v : ℕ} (h : hi ≤ lo) : ¬ pagesFrom lo hi v := by
  rintro ⟨h1, h2⟩
  have := le_PGROUNDUP lo
  omega

theorem Resized.refl (hsz : (s.proc i).sz < KERNBASE) : Resized L i 0 s s where
  size := by simp
  top := hsz
  proc := by rw [Function.update_eq_self]
  mapped v h := absurd h (not_pagesFrom le_rfl)
  distinct v _ h := absurd h (not_pagesFrom le_rfl)
  unmapped v h := absurd h (not_pagesFrom le_rfl)
  refs h := absurd h (lt_irrefl _)
  other _ _ _ := rfl
  mem _ _ _ := rfl

theorem Inv.mem_freelist (hI : Inv L s g) : f ∈ s.freelist ↔ g.cls f = .own .free := hI.holds .free f

/-- The entries that `deallocuvm` emptied no longer name their frames. -/
theorem uref_dropped (hI : Inv L s g) (hd : s.dir d = true) (hf : f ≠ 0)
    (he : ∀ d' v, t.entry d' v = if d' = d ∧ emptied s d (PGROUNDUP lo) hi guard v then {} else s.entry d' v) :
    t.uref f + dropped s d lo hi guard f = s.uref f := by
  classical
  let T : Finset (ℕ × ℕ) := slots.filter fun q => q.1 = d ∧ emptied s d (PGROUNDUP lo) hi guard q.2
  have hT : refs T (fun q => (s.entry q.1 q.2).ppn) f = dropped s d lo hi guard f := by
    symm
    unfold dropped refs
    refine Finset.card_bij (fun v _ => (d, v)) ?_ ?_ ?_
    · intro v hv
      obtain ⟨hv, hem, hp⟩ := mem_filter.1 hv
      refine mem_filter.2 ⟨mem_filter.2 ⟨mem_slots.2 ⟨hI.dir_lt hd, Finset.mem_range.1 hv⟩, rfl, hem⟩, hp⟩
    · intro v _ v' _ h
      exact (Prod.mk.inj h).2
    · rintro ⟨d', v⟩ hq
      obtain ⟨hq, hp⟩ := mem_filter.1 hq
      obtain ⟨hs, rfl, hem⟩ := mem_filter.1 hq
      exact ⟨v, mem_filter.2 ⟨Finset.mem_range.2 (mem_slots.1 hs).2, hem, hp⟩, rfl⟩
  rw [← hT]
  refine refs_clear (Finset.filter_subset _ _) ?_ ?_
  · rintro ⟨d', v⟩ hq
    obtain ⟨-, hq⟩ := mem_filter.1 hq
    rw [he, if_pos hq]
    exact hf.symm
  · rintro ⟨d', v⟩ hq hout
    have hne : ¬ (d' = d ∧ emptied s d (PGROUNDUP lo) hi guard v) := fun h => hout (mem_filter.2 ⟨hq, h⟩)
    rw [he, if_neg hne]

/-- `allocuvm` has given process `i` the pages up to `sz`. -/
theorem Resized.grow (hI : Inv L s g) (hn : 0 < n) (hsz : (sz : ℤ) = (s.proc i).sz + n) (htop : sz < KERNBASE)
    (hg : Grows (s.proc i).pgdir t.entry (fun _ => False) s t g g')
    (hout : ∀ d v, ¬ (d = (s.proc i).pgdir ∧ PGROUNDUP (s.proc i).sz ≤ v * PGSIZE ∧ v * PGSIZE < sz) → t.entry d v = s.entry d v)
    (hin : ∀ v, PGROUNDUP (s.proc i).sz ≤ v * PGSIZE → v * PGSIZE < sz →
      Fresh P t g g' (s.proc i).pgdir v ∧ (s.entry (s.proc i).pgdir v).p = false ∧
        ∀ v', PGROUNDUP (s.proc i).sz ≤ v' * PGSIZE → v' < v →
          (t.entry (s.proc i).pgdir v').ppn ≠ (t.entry (s.proc i).pgdir v).ppn) :
    Resized L i n s (t.setProc i { s.proc i with sz := sz }) := by
  have hnew : ((t.setProc i { s.proc i with sz := sz }).proc i).sz = sz := by
    simp [Kern.setProc]
  have hle : (s.proc i).sz ≤ sz := by omega
  refine ⟨?_, ?_, ?_, fun v hv => ?_, fun v v' hv hv' he => ?_, fun v hv => ?_, fun h => ?_, fun d v h => ?_, fun f h _ => ?_⟩
  · rw [hnew, hsz]
  · rw [hnew]
    exact htop
  · rw [hnew, ← hg.proc]
    rfl
  · rw [hnew] at hv
    obtain ⟨hf, hp, -⟩ := hin v hv.1 hv.2
    exact ⟨hp, hf.entry, hI.mem_freelist.2 hf.free, hf.mem⟩
  · rw [hnew] at hv hv'
    rcases lt_trichotomy v' v with h | h | h
    · exact absurd he ((hin v hv.1 hv.2).2.2 v' hv'.1 h)
    · exact h
    · exact absurd he.symm ((hin v' hv'.1 hv'.2).2.2 v hv.1 h)
  · rw [hnew] at hv
    exact absurd hv (not_pagesFrom hle)
  · omega
  · refine hout d v fun hd => h ⟨hd.1, .inl ?_⟩
    rw [hnew]
    exact hd.2
  · exact hg.mem f fun hc => h (hI.mem_freelist.2 hc)

/-- `deallocuvm` has taken from process `i` the pages down to `sz`. -/
theorem Resized.shrink (hI : Inv L s g) (hI' : Inv L t g') (hd : s.dir (s.proc i).pgdir = true) (hn : n < 0)
    (hsz : (sz : ℤ) = (s.proc i).sz + n) (htop : (s.proc i).sz < KERNBASE) (hsh : Shrinks s t g g')
    (he : ∀ d v, t.entry d v = if d = (s.proc i).pgdir ∧
      emptied s (s.proc i).pgdir (PGROUNDUP sz) (s.proc i).sz (some (s.proc i).guardpg) v then {} else s.entry d v) :
    Resized L i n s (t.setProc i { s.proc i with sz := sz }) := by
  have hnew : ((t.setProc i { s.proc i with sz := sz }).proc i).sz = sz := by
    simp [Kern.setProc]
  have hle : sz ≤ (s.proc i).sz := by omega
  refine ⟨?_, ?_, ?_, fun v hv => ?_, fun v v' hv => ?_, fun v hv => ?_, fun _ f hf => ?_, fun d v h => ?_, fun f _ h => ?_⟩
  · rw [hnew, hsz]
  · rw [hnew]
    exact hle.trans_lt htop
  · rw [hnew, ← hsh.proc]
    rfl
  · rw [hnew] at hv
    exact absurd hv (not_pagesFrom hle)
  · rw [hnew] at hv
    exact absurd hv (not_pagesFrom hle)
  · rw [hnew] at hv
    change (t.entry _ v).p = false
    rw [he]
    split_ifs with hem
    · rfl
    · -- a page that stays was not there
      by_contra hp
      exact hem ⟨rfl, hv.1, hv.2, .inl (by simpa using hp)⟩
  · rw [hnew]
    change t.refCount f + _ = _
    have hu := uref_dropped hI hd (L.ok_ne_zero hf) he
    rw [hI'.count f hf, hI.count f hf, hsh.lost, hsh.weight]
    omega
  · change t.entry d v = _
    rw [he, if_neg]
    rintro ⟨rfl, hem⟩
    refine h ⟨rfl, .inr ?_⟩
    rw [hnew]
    exact ⟨hem.1, hem.2.1⟩
  · exact (hsh.cls f fun hc => h (hI'.mem_freelist.2 hc)).2

/-- Every entry may change. -/
def Perm.any : Perm := ⟨fun _ _ => True, fun _ _ => True, fun _ _ => True, fun _ _ => false⟩

theorem sat_deallocuvm_zero {oldsz : ℕ} (h : 0 < oldsz) :
    Sat (deallocuvm L d oldsz 0 guard) s (fun r _ => r = 0) (fun _ => True) (fun _ _ => True) := by
  unfold deallocuvm
  rw [if_neg (by omega)]
  refine sat_bind (Q := fun _ _ => True) ?_ fun _ _ _ => rfl
  unfold Sat
  split <;> trivial

theorem sat_getProc {α : Type} {f : Proc → K α} {Q : α → Kern → Prop} {F : Kern → Prop} {N : String → Kern → Prop}
    (h : Sat (f (s.proc i)) s Q F N) : Sat (getProc i >>= f) s Q F N := h

theorem sat_growproc (hI : Inv L s g) (hd : s.dir (s.proc i).pgdir = true) (hpos : 0 < (s.proc i).sz)
    (htop : (s.proc i).sz < KERNBASE) (hn : n < 2 ^ 31) (h0 : 0 ≤ (s.proc i).sz + n) :
    Sat (growproc L i n) s (fun b s' => b = true → Resized L i n s s') (fun _ => True) (fun _ _ => True) := by
  -- the size is not reduced, as `n` does not lead below 0
  have hadd : ((add32 (s.proc i).sz n : ℕ) : ℤ) = (s.proc i).sz + n := by
    simp only [add32, KERNBASE] at *
    omega
  unfold growproc
  refine sat_getProc ?_
  rcases lt_trichotomy 0 n with hlt | rfl | hlt
  · rw [if_pos hlt]
    by_cases hhigh : add32 (s.proc i).sz n ≥ KERNBASE
    · rw [allocuvm_high hhigh]
      exact fun h => absurd h (by decide)
    have hall : Tr (Ev L Perm.any) (allocuvm L _ _ _ (some (s.proc i).guardpg)) s g _ (fun _ => True) (fun _ => True) := tr_allocuvm
      hI hd (not_le.1 hhigh) (by omega) ⟨fun _ _ _ => trivial, fun _ => hpos.ne', fun _ _ _ _ _ _ => trivial,
      fun _ _ _ => trivial⟩ (fun _ _ _ _ _ _ _ _ => trivial)
    refine sat_bind (sat_mono hall (fun _ _ h => h) (fun _ _ => trivial) fun _ _ _ => trivial) ?_
    rintro sz t ⟨g', -, ⟨rfl, hg, hout, hin, -, -⟩ | ⟨rfl, -⟩⟩
    · rw [if_neg (by omega)]
      intro _
      exact .grow hI hlt hadd (not_le.1 hhigh) hg hout fun v h1 h2 => ⟨(hin v h1 h2).1, (hin v h1 h2).2.1, (hin v h1 h2).2.2.2⟩
    · exact fun h => absurd h (by decide)
  · exact fun _ => .refl htop
  · rw [if_neg (by omega), if_pos hlt]
    by_cases hz : add32 (s.proc i).sz n = 0
    · -- the pages go all the same, but the result 0 is taken for an error
      rw [hz]
      refine sat_bind (sat_deallocuvm_zero hpos) ?_
      rintro _ t rfl
      exact fun h => absurd h (by decide)
    have hde : Tr (Ev L Perm.any) (deallocuvm L (s.proc i).pgdir (s.proc i).sz (add32 (s.proc i).sz n) (some (s.proc i).guardpg)) s g _
        (fun _ => True) (fun _ => True) := tr_deallocuvm hI htop.le (fun _ _ _ => trivial) (fun _ h => absurd h hz)
      (fun _ _ _ _ _ _ => trivial) (fun _ _ _ _ => trivial)
    refine sat_bind (sat_mono hde (fun _ _ h => h) (fun _ _ => trivial) fun _ _ _ => trivial) ?_
    rintro sz t ⟨g', hev, hsz, hsh, he⟩
    rw [if_neg (by omega)] at hsz
    subst hsz
    rw [if_neg hz]
    intro _
    exact .shrink hI (Evs.inv hev hI) hd hlt hadd htop hsh he

/-- A request for more than the process has leaves it as it is, and returns the size. -/
theorem sbrk_below_zero (hpos : 0 < (s.proc i).sz) (htop : (s.proc i).sz < KERNBASE) (hn : -2 ^ 31 ≤ n)
    (h0 : (s.proc i).sz + n < 0) : sbrk L i n s = .ok ((s.proc i).sz : ℤ) s := by
  have hwrap : add32 (s.proc i).sz n ≥ (s.proc i).sz := by
    simp only [add32, KERNBASE] at *
    omega
  have hgrow : growproc L i n s = .ok true s := by
    refine eval_of_sat ?_
    unfold growproc
    refine sat_getProc ?_
    rw [if_neg (by omega), if_pos (by omega), deallocuvm_none hwrap]
    change Sat (if (s.proc i).sz = 0 then _ else _) _ _ _ _
    rw [if_neg hpos.ne']
    exact ⟨rfl, setProc_self⟩
  refine eval_of_sat ?_
  unfold sbrk
  refine sat_getProc ?_
  rw [sat_eval hgrow]
  exact ⟨rfl, rfl⟩

end

/-- `sbrk` does what was asked unless it is asked for more than the process has. -/
theorem sbrk_resizes_iff {L : Linker} {s : Kern} {g : Ghost} {i : ℕ} {n : ℤ} (hI : Inv L s g)
    (hd : s.dir (s.proc i).pgdir = true) (hpos : 0 < (s.proc i).sz) (htop : (s.proc i).sz < KERNBASE)
    (hn : -2 ^ 31 ≤ n ∧ n < 2 ^ 31) :
    (∀ r s', sbrk L i n s = .ok r s' → r ≠ -1 → r = (s.proc i).sz ∧ Resized L i n s s') ↔ 0 ≤ (s.proc i).sz + n := by
  constructor
  · intro h
    by_contra h0
    obtain ⟨-, hre⟩ := h _ _ (sbrk_below_zero hpos htop hn.1 (not_le.1 h0)) (by omega)
    have := hre.size
    omega
  · intro h0 r s' hrun hr
    have hsat : Sat (sbrk L i n) s (fun r s' => r ≠ -1 → r = (s.proc i).sz ∧ Resized L i n s s') (fun _ => True)
        (fun _ _ => True) := by
      unfold sbrk
      refine sat_getProc ?_
      refine sat_bind (sat_growproc hI hd hpos htop hn.2 h0) ?_
      intro b s' hb
      cases b with
      | false => exact fun h => absurd rfl h
      | true => exact fun _ => ⟨rfl, hb rfl⟩
    exact sat_ok hsat hrun hr

def smallLinker : Linker := ⟨300, 512, [], [], Linker.data_300, Linker.data_512, Linker.kend_512⟩

/-- One process of one page, whose table is not there yet, and two free frames. -/
def smallKern : Kern :=
  { freelist := [513, 514], refCount := fun f => if f = 513 ∨ f = 514 then 0 else 1, mem := fun _ _ => 7
    dir := fun d => d = 512, ptab := fun _ _ => 0, pte := fun _ _ => {}
    proc := fun i => if i = 0 then { sz := 4096, pgdir := 512, state := .running } else {}
    nextpid := 2, vdsoText := 0, vdsoTicks := 0, pipes := [], cpustacks := [], fails := [], misses := 0 }

def smallGhost : Ghost :=
  { cls := fun f => if f = 512 then .own .dir else if f = 513 ∨ f = 514 then .own .free
      else if smallLinker.ok f then .lost else .raw
    lost := fun _ => 0 }

theorem smallKern_inv : Inv smallLinker smallKern smallGhost := by
  have hcls : ∀ f, smallGhost.cls f = if f = 512 then .own .dir else if f = 513 ∨ f = 514 then .own .free
      else if smallLinker.ok f then .lost else .raw := fun _ => rfl
  have hproc : ∀ i, (smallKern.proc i).kstack = 0 := by
    intro i
    simp only [smallKern]
    split_ifs <;> rfl
  refine ⟨fun o f => ?_, fun f hf => ?_, by decide, fun d k h => absurd rfl h, fun d v _ => .inl rfl,
    fun f h => absurd rfl h, fun f hf => ?_, fun f h => ?_⟩
  · rw [hcls]
    cases o with
    | kstack i => simp only [Kern.holds, hproc]; split_ifs <;> simp_all
    | _ => simp only [Kern.holds, smallKern]; split_ifs <;> simp_all
  · have h512 : f ≠ 512 := fun h => hf (h ▸ by decide)
    have h513 : ¬ (f = 513 ∨ f = 514) := by rintro (rfl | rfl) <;> exact hf (by decide)
    rw [hcls, if_neg h512, if_neg h513, if_neg hf]
  · have hu : smallKern.uref f = 0 := refs_eq_zero.2 fun q _ h => smallLinker.ok_ne_zero hf h.symm
    rw [hu, hcls]
    simp only [smallKern, smallGhost, hf, if_true]
    split_ifs with h1 h2 h3 <;> first | rfl | omega
  · rw [hcls] at h
    split_ifs at h <;> simp at h

set_option maxRecDepth 20000 in
/-- Growing it by a page takes both frames, one for the page table. -/
theorem sbrk_resizes_iff_small : 0 ≤ ((smallKern.proc 0).sz : ℤ) + 4096 ∧
    ∃ s', sbrk smallLinker 0 4096 smallKern = .ok 4096 s' ∧ Resized smallLinker 0 4096 smallKern s' := by
  have h := (sbrk_resizes_iff (i := 0) (n := 4096) smallKern_inv rfl (by decide) (by decide) (by decide)).2 (by decide)
  refine ⟨by decide, _, rfl, ?_⟩
  exact (h 4096 _ rfl (by decide)).2

/-- Asked for more than it has, it is told that it has shrunk. -/
theorem sbrk_does_not_shrink : ∃ r s', sbrk smallLinker 0 (-8192) smallKern = .ok r s' ∧ r ≠ -1 ∧
    ¬ (r = (smallKern.proc 0).sz ∧ Resized smallLinker 0 (-8192) smallKern s') := by
  refine ⟨4096, smallKern, sbrk_below_zero (by decide) (by decide) (by decide) (by decide), by decide, ?_⟩
  rintro ⟨-, h⟩
  exact absurd h.size (by decide)

end Xv6

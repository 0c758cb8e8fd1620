import Xv6.Spec.Dealloc
import Xv6.Proofs.CopyOnWrite

/-! `deallocuvm` jumps over the regions without a page table. The jump does what visiting their pages one by one
does, which is nothing, and it lands on a page that the plain loop comes to. -/

namespace Xv6

open Prog Nat

variable {L : Linker} {s : Kern} {d a n hi a' fuel : ℕ} {guard : Option ℕ}

/-- the start of the region after the one of `a` -/
def nextRegion (a : ℕ) : ℕ := (a / PTSIZE + 1) * PTSIZE

theorem walkpgdir_none (h : s.ptab d (PDX a) = 0) : walkpgdir d a false s = .ok none s := by
  simp only [walkpgdir, bind, M.bind, Prog.get, ne_eq, h, not_true_eq_false, if_false, if_true]
  rfl

theorem walkpgdir_some (h : s.ptab d (PDX a) ≠ 0) (alloc : Bool) : walkpgdir d a alloc s = .ok (some (d, a / PGSIZE)) s := by
  simp only [walkpgdir, bind, M.bind, Prog.get, if_pos h]
  rfl

theorem walkpgdir_full {s' : Kern} (h : s.ptab d (PDX a) = 0) (hk : kalloc s = .ok none s') :
    walkpgdir d a true s = .ok none s' := by
  simp only [walkpgdir, bind, M.bind, Prog.get, ne_eq, h, not_true_eq_false, if_false, Bool.true_eq_false, hk]
  rfl

theorem walkpgdir_new {s' : Kern} {r : ℕ} (h : s.ptab d (PDX a) = 0) (hk : kalloc s = .ok (some r) s') :
    walkpgdir d a true s =
      .ok (some (d, a / PGSIZE)) (Kern.newTab { s' with mem := Function.update s'.mem r fun _ => 0 } d (PDX a) r) := by
  simp only [walkpgdir, bind, M.bind, Prog.get, ne_eq, h, not_true_eq_false, if_false, Bool.true_eq_false, hk]
  rfl

theorem visitPage_none (h : s.ptab d (PDX a) = 0) : visitPage L d a s = .ok () s := by
  rw [visitPage, bind_ok (walkpgdir_none h)]
  rfl

theorem visitPage_some (h : s.ptab d (PDX a) ≠ 0) : visitPage L d a s = deallocEntry L none a (d, a / PGSIZE) s := by
  rw [visitPage, bind_ok (walkpgdir_some h false)]

theorem visitPages_add (m : ℕ) : visitPages L d (n + m) a s =
    (visitPages L d n a >>= fun _ => visitPages L d m (a + n * PGSIZE)) s := by
  induction n generalizing a s with
  | zero => simp only [zero_add, zero_mul, add_zero]; rfl
  | succ n ih =>
    rw [add_right_comm]
    have hnext : a + (n + 1) * PGSIZE = a + PGSIZE + n * PGSIZE := by ring
    rw [hnext, visitPages, visitPages, M.assoc]
    exact bind_congr_right fun _ _ => ih

/-- Pages of a region without a page table. -/
theorem visitPages_none (h : s.ptab d (PDX a) = 0) (hin : a + n * PGSIZE ≤ nextRegion a) : visitPages L d n a s = .ok () s := by
  induction n generalizing a with
  | zero => rfl
  | succ n ih =>
    rw [visitPages, bind_ok (visitPage_none h)]
    cases n with
    | zero => rfl
    | succ n =>
      -- there is another page, so the next one is still in the region
      have hsame : (a + PGSIZE) / PTSIZE = a / PTSIZE := by
        unfold nextRegion PTSIZE PGSIZE at *
        omega
      apply ih
      · rw [PDX, hsame]
        exact h
      · rw [nextRegion, hsame]
        have hsum : a + PGSIZE + (n + 1) * PGSIZE = a + (n + 1 + 1) * PGSIZE := by ring
        rw [hsum]
        exact hin

theorem sub32_PGADDR (h : a < KERNBASE) : u32 (sub32 (PGADDR (PDX a + 1) 0 0) PGSIZE + PGSIZE) = nextRegion a := by
  have hshift : PGADDR (PDX a + 1) 0 0 = u32 ((PDX a + 1) * 2 ^ 22) := by
    simp only [PGADDR, shiftLeft_eq, zero_mul, or_zero, PDXSHIFT]
  rw [hshift]
  unfold u32 sub32 PDX nextRegion PGSIZE PTSIZE NPDENTRIES KERNBASE at *
  omega

theorem deallocBody_none (h : s.ptab d (PDX a) = 0) :
    deallocBody L d none a s = .ok (sub32 (PGADDR (PDX a + 1) 0 0) PGSIZE) s := by
  rw [deallocBody, bind_ok (walkpgdir_none h)]
  rfl

theorem deallocBody_some (h : s.ptab d (PDX a) ≠ 0) (f : ℕ → K Bool) :
    (deallocBody L d none a >>= f) s = (visitPage L d a >>= fun _ => f a) s := by
  rw [deallocBody, M.assoc, bind_ok (walkpgdir_some h false), M.assoc, bind_congr_left (visitPage_some h)]
  rfl

/-- The jump leaves as many pages to visit as are not in the region. -/
theorem pagesIn_nextRegion (halign : a % PGSIZE = 0) :
    ∃ m, pagesIn a hi = m + pagesIn (nextRegion a) hi ∧ a + m * PGSIZE ≤ nextRegion a ∧
      (pagesIn (nextRegion a) hi ≠ 0 → a + m * PGSIZE = nextRegion a) := by
  refine ⟨pagesIn a hi - pagesIn (nextRegion a) hi, ?_⟩
  unfold pagesIn nextRegion PGSIZE PTSIZE at *
  omega

theorem pagesIn_succ (hlt : a < hi) : pagesIn a hi = pagesIn (a + PGSIZE) hi + 1 := by
  unfold pagesIn PGSIZE at *
  omega

theorem pagesIn_of_le (h : hi ≤ a) : pagesIn a hi = 0 := by
  unfold pagesIn PGSIZE
  omega

theorem u32_next (h : a < KERNBASE) : u32 (a + PGSIZE) = a + PGSIZE := by
  unfold u32 PGSIZE KERNBASE at *
  omega

theorem pagesIn_next (halign : a % PGSIZE = 0) (hlt : a < hi) (h : a' = a + PGSIZE ∨ a' = nextRegion a) :
    a' % PGSIZE = 0 ∧ pagesIn a' hi < pagesIn a hi ∧ a < a' := by
  unfold pagesIn nextRegion PGSIZE PTSIZE at *
  omega

/-- A region without a page table: the round jumps to the next one, and visiting its pages does nothing. -/
theorem pageLoop_jump (halign : a % PGSIZE = 0) (ha : a < KERNBASE) (htab : s.ptab d (PDX a) = 0) (fuel : ℕ) :
    (deallocBody L d none a >>= fun a' => pageLoop (deallocBody L d none) hi fuel (u32 (a' + PGSIZE))) s =
        pageLoop (deallocBody L d none) hi fuel (nextRegion a) s ∧
      visitPages L d (pagesIn a hi) a s = visitPages L d (pagesIn (nextRegion a) hi) (nextRegion a) s := by
  constructor
  · rw [bind_ok (deallocBody_none htab), sub32_PGADDR ha]
  · obtain ⟨m, hm, hin, hland⟩ := @pagesIn_nextRegion a hi halign
    rw [hm, visitPages_add, bind_ok (visitPages_none htab hin)]
    by_cases h0 : pagesIn (nextRegion a) hi = 0
    · rw [h0, visitPages, visitPages]
    · rw [hland h0]

/-- From any page on, the loop of `deallocuvm` is the plain one. -/
theorem pageLoop_eq (halign : a % PGSIZE = 0) (hhi : hi ≤ KERNBASE) (hfuel : pagesIn a hi < fuel) :
    pageLoop (deallocBody L d none) hi fuel a s = (visitPages L d (pagesIn a hi) a >>= fun _ => pure true) s := by
  induction fuel generalizing a s with
  | zero => exact absurd hfuel (not_lt_zero _)
  | succ fuel ih =>
    by_cases hlt : a < hi
    · rw [pageLoop, if_pos hlt]
      by_cases htab : s.ptab d (PDX a) = 0
      · obtain ⟨hal, hpages, -⟩ := pagesIn_next halign hlt (.inr rfl)
        obtain ⟨hjump, hnothing⟩ := @pageLoop_jump L s d a hi halign (hlt.trans_le hhi) htab fuel
        rw [hjump, ih hal (hpages.trans_le (le_of_lt_succ hfuel))]
        exact bind_congr_left hnothing.symm
      · obtain ⟨hal, hpages, -⟩ := pagesIn_next halign hlt (.inl rfl)
        rw [deallocBody_some htab, u32_next (hlt.trans_le hhi), pagesIn_succ hlt, visitPages, M.assoc]
        exact bind_congr_right fun _ _ => ih hal (hpages.trans_le (le_of_lt_succ hfuel))
    · rw [pageLoop, if_neg hlt, pagesIn_of_le (not_lt.1 hlt), visitPages]
      rfl

/-- The counter does not wrap, so the loop is that of `deallocuvm`. -/
theorem pageLoop_forTo (halign : a % PGSIZE = 0) (hhi : hi ≤ KERNBASE) (hfuel : pagesIn a hi < fuel) {rounds : ℕ}
    (hrounds : hi - a ≤ rounds) : pageLoop (deallocBody L d guard) hi fuel a s =
      forTo (fun a => do let a' ← deallocPage L d guard a; return some a') hi rounds a s := by
  induction fuel generalizing a s rounds with
  | zero => exact absurd hfuel (not_lt_zero _)
  | succ fuel ih =>
    by_cases hlt : a < hi
    · obtain ⟨rounds, rfl⟩ := Nat.exists_eq_add_of_lt (show 0 < rounds by omega)
      rw [Nat.zero_add, pageLoop, forTo, if_pos hlt, if_pos hlt, M.assoc, deallocBody, deallocPage, M.assoc, M.assoc]
      have ha := hlt.trans_le hhi
      by_cases htab : s.ptab d (PDX a) = 0
      · rw [bind_ok (walkpgdir_none htab), bind_ok (walkpgdir_none htab)]
        by_cases hg : guard = some a
        · simp only [if_pos hg]
          rfl
        · obtain ⟨hal, hpages, hup⟩ := pagesIn_next halign hlt (.inr rfl)
          have hnext : (PDX a + 1) * PTSIZE = nextRegion a := by
            unfold nextRegion PDX NPDENTRIES PTSIZE KERNBASE at *
            omega
          simp only [if_neg hg, M.pure_bind, sub32_PGADDR ha, hnext]
          exact ih hal (by omega) (by omega)
      · rw [bind_ok (walkpgdir_some htab false), bind_ok (walkpgdir_some htab false)]
        obtain ⟨hal, hpages, hup⟩ := pagesIn_next halign hlt (.inl rfl)
        simp only [M.assoc, M.pure_bind, u32_next ha]
        exact bind_congr_right fun _ _ => ih hal (by omega) (by omega)
    · rw [pageLoop, if_neg hlt]
      cases rounds with
      | zero => rfl
      | succ rounds => rw [forTo, if_neg hlt]

/-- A loop that is never left early runs to its end. -/
theorem forTo_some {f : ℕ → K ℕ} {β : Type} (k : Bool → K β) (rounds : ℕ) :
    (forTo (fun a => do let a' ← f a; return some a') hi rounds a >>= k) s =
      (forTo (fun a => do let a' ← f a; return some a') hi rounds a >>= fun _ => k true) s := by
  induction rounds generalizing a s with
  | zero => rfl
  | succ rounds ih =>
    rw [forTo]
    split_ifs
    · rw [M.assoc, M.assoc, M.assoc, M.assoc]
      exact bind_congr_right fun _ _ => ih
    · rfl

theorem deallocuvmIn_eq {oldsz newsz : ℕ} (hle : oldsz ≤ KERNBASE) (hfuel : pagesIn (PGROUNDUP newsz) oldsz < fuel) :
    deallocuvmIn L fuel d oldsz newsz guard s = (deallocuvm L d oldsz newsz guard >>= fun sz => pure (some sz)) s := by
  have halign : PGROUNDUP newsz % PGSIZE = 0 := mul_mod_left _ _
  unfold deallocuvmIn deallocuvm
  split_ifs
  · rfl
  · rw [bind_congr_left (pageLoop_forTo halign hle hfuel le_rfl), forTo_some, M.assoc]
    rfl

/-- The call that skips the empty regions ends, and its whole outcome is that of the plain loop. The `deallocuvm` of the
rest of the model is that call. -/
theorem deallocuvm_skips_nothing {L : Linker} {d oldsz newsz : ℕ} (hlt : newsz < oldsz) (hle : oldsz ≤ KERNBASE)
    {fuel : ℕ} (hfuel : pagesIn (PGROUNDUP newsz) oldsz < fuel) (s : Kern) :
    deallocuvmIn L fuel d oldsz newsz none s = plainDealloc L d oldsz newsz s ∧
      (deallocuvm L d oldsz newsz none >>= fun sz => pure (some sz)) s = plainDealloc L d oldsz newsz s := by
  have hplain : deallocuvmIn L fuel d oldsz newsz none s = plainDealloc L d oldsz newsz s := by
    have halign : PGROUNDUP newsz % PGSIZE = 0 := mul_mod_left _ _
    rw [deallocuvmIn, if_neg (not_le.2 hlt), bind_congr_left (pageLoop_eq halign hle hfuel), M.assoc, plainDealloc]
    rfl
  exact ⟨hplain, (deallocuvmIn_eq hle hfuel).symm.trans hplain⟩

/-- Three regions less one page, of which the first has a page table with the page that the parent shares. -/
theorem deallocuvm_skips_nothing_forked :
    Sat (deallocuvmIn smallLinker 3072 512 (3 * PTSIZE) PGSIZE none) forkedKern
      (fun r s' => r = some PGSIZE ∧ s'.refCount 514 = 1) (fun _ => False) (fun _ _ => False) ∧
    deallocuvmIn smallLinker 3072 512 (3 * PTSIZE) PGSIZE none forkedKern =
      plainDealloc smallLinker 512 (3 * PTSIZE) PGSIZE forkedKern :=
  ⟨by decide +kernel, (deallocuvm_skips_nothing (by decide) (by decide) (by decide) forkedKern).1⟩

end Xv6

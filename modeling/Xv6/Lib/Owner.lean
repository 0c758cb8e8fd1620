import Mathlib.Data.Finset.Card
import Mathlib.Data.Finset.Range
import Mathlib.Logic.Function.Basic

/-! Units handed out to places. A bitmap says which units of a range are in use; each place has a
unit or none (0). The account is exact when no two places have the same unit and the units in use are
those that places have. -/

namespace Owner

open Function Finset

variable {ι : Type*} {lo hi b : ℕ} {bit bit' : ℕ → Bool} {own own' : ι → ℕ} {i : ι}

structure Exact (lo hi : ℕ) (bit : ℕ → Bool) (own : ι → ℕ) : Prop where
  pos : 0 < lo
  range : ∀ i, own i ≠ 0 → lo ≤ own i ∧ own i < hi ∧ bit (own i) = true
  inj : ∀ i j, own i = own j → own i ≠ 0 → i = j
  owned : ∀ b, lo ≤ b → b < hi → bit b = true → ∃ i, own i = b

/-- How many units are not in use. -/
def room (hi : ℕ) (bit : ℕ → Bool) : ℕ := ((range hi).filter fun b => bit b = false).card

theorem Exact.congr (h : Exact lo hi bit own) (hb : ∀ b, lo ≤ b → b < hi → bit' b = bit b)
    (ho : ∀ i, own' i = own i) : Exact lo hi bit' own' where
  pos := h.pos
  range i h0 := by
    rw [ho] at h0 ⊢
    obtain ⟨h1, h2, h3⟩ := h.range i h0
    exact ⟨h1, h2, (hb _ h1 h2).trans h3⟩
  inj i j he h0 := by
    rw [ho] at he h0
    rw [ho] at he
    exact h.inj i j he h0
  owned b h1 h2 h3 := by
    rw [hb b h1 h2] at h3
    obtain ⟨i, hi⟩ := h.owned b h1 h2 h3
    exact ⟨i, (ho i).trans hi⟩

theorem Exact.ne_free (h : Exact lo hi bit own) (hb : bit b = false) (h0 : own i ≠ 0) : own i ≠ b := by
  rintro rfl
  rw [(h.range i h0).2.2] at hb
  cases hb

/-- The units from `lo` on are handed out in order, `f` counting the places that have one. -/
theorem Exact.of_count {c : ℕ} {f : ι → Option ℕ} (hlo : 0 < lo) (hc : lo + c ≤ hi)
    (hbit : ∀ b < hi, bit b = decide (b < lo + c)) (hown : ∀ i, own i = (f i).elim 0 (lo + ·))
    (hf : ∀ i k, f i = some k → k < c) (hinj : ∀ i j k, f i = some k → f j = some k → i = j)
    (hall : ∀ k < c, ∃ i, f i = some k) : Exact lo hi bit own where
  pos := hlo
  range i h0 := by
    rw [hown] at h0 ⊢
    cases hk : f i with
    | none => simp [hk] at h0
    | some k =>
      have hlt := hf i k hk
      rw [Option.elim_some, hbit _ (by omega), decide_eq_true (by omega)]
      exact ⟨by omega, by omega, rfl⟩
  inj i j he h0 := by
    rw [hown] at h0
    rw [hown, hown] at he
    cases hk : f i with
    | none => simp [hk] at h0
    | some k =>
      cases hj : f j with
      | none => simp only [hk, hj, Option.elim_some, Option.elim_none] at he; omega
      | some k' =>
        obtain rfl : k = k' := by simpa [hk, hj] using he
        exact hinj i j k hk hj
  owned b h1 h2 h3 := by
    rw [hbit b h2, decide_eq_true_eq] at h3
    obtain ⟨i, hi⟩ := hall (b - lo) (by omega)
    refine ⟨i, ?_⟩
    rw [hown, hi, Option.elim_some]
    omega

variable [DecidableEq ι]

/-- A free unit goes to a place that has none. -/
theorem Exact.take (h : Exact lo hi bit own) (hb : bit b = false) (hlo : lo ≤ b) (hhi : b < hi) (h0 : own i = 0) :
    Exact lo hi (update bit b true) (update own i b) where
  pos := h.pos
  range j hj := by
    by_cases hji : j = i
    · subst hji
      simp [hlo, hhi]
    · rw [update_of_ne hji] at hj ⊢
      obtain ⟨h1, h2, h3⟩ := h.range j hj
      exact ⟨h1, h2, by rw [update_of_ne (h.ne_free hb hj), h3]⟩
  inj j j' he hj := by
    by_cases hji : j = i <;> by_cases hji' : j' = i
    · rw [hji, hji']
    · subst hji
      simp only [update_self, update_of_ne hji'] at he hj
      exact absurd he.symm (h.ne_free hb (he ▸ hj))
    · subst hji'
      simp only [update_self, update_of_ne hji] at he hj
      exact absurd he (h.ne_free hb hj)
    · simp only [update_of_ne hji, update_of_ne hji'] at he hj
      exact h.inj j j' he hj
  owned c h1 h2 hc := by
    by_cases hcb : c = b
    · exact ⟨i, by rw [update_self, hcb]⟩
    · rw [update_of_ne hcb] at hc
      obtain ⟨j, hj⟩ := h.owned c h1 h2 hc
      refine ⟨j, ?_⟩
      by_cases hji : j = i
      · -- the place had no unit, so it was not the one with `c`
        have := h.pos
        rw [hji, h0] at hj
        omega
      · rw [update_of_ne hji, hj]

/-- A place gives up its unit. -/
theorem Exact.drop (h : Exact lo hi bit own) (h0 : own i ≠ 0) :
    Exact lo hi (update bit (own i) false) (update own i 0) where
  pos := h.pos
  range j hj := by
    have hji : j ≠ i := by
      rintro rfl
      simp at hj
    rw [update_of_ne hji] at hj ⊢
    have hne : own j ≠ own i := fun he => hji (h.inj j i he hj)
    rw [update_of_ne hne]
    exact h.range j hj
  inj j j' he hj := by
    have hji : j ≠ i := by
      rintro rfl
      simp at hj
    rw [update_of_ne hji] at he hj
    have hji' : j' ≠ i := by
      rintro rfl
      rw [update_self] at he
      exact hj he
    rw [update_of_ne hji'] at he
    exact h.inj j j' he hj
  owned c h1 h2 hc := by
    have hci : c ≠ own i := by
      rintro rfl
      simp at hc
    rw [update_of_ne hci] at hc
    obtain ⟨j, rfl⟩ := h.owned c h1 h2 hc
    refine ⟨j, update_of_ne ?_ _ _⟩
    rintro rfl
    exact hci rfl

theorem room_take (hb : bit b = false) (hhi : b < hi) : room hi bit = room hi (update bit b true) + 1 := by
  have hmem : b ∈ (range hi).filter fun b => bit b = false := by simp [hhi, hb]
  rw [room, ← card_erase_add_one hmem, room]
  congr 2
  ext c
  by_cases hcb : c = b
  · simp [hcb]
  · simp [hcb]

theorem room_congr (h : ∀ b, b < hi → bit' b = bit b) : room hi bit' = room hi bit := by
  refine congrArg card (filter_congr fun b hb => ?_)
  rw [h b (mem_range.1 hb)]

theorem room_eq_zero (h : ∀ b, b < hi → bit b = true) : room hi bit = 0 := by
  refine card_eq_zero.2 (filter_eq_empty_iff.2 ?_)
  intro b hb
  rw [h b (mem_range.1 hb)]
  simp

theorem room_drop (b : ℕ) : room hi bit ≤ room hi (update bit b false) := by
  refine card_le_card fun c hc => ?_
  simp only [mem_filter, mem_range] at hc ⊢
  refine ⟨hc.1, ?_⟩
  by_cases hcb : c = b
  · simp [hcb]
  · rw [update_of_ne hcb, hc.2]

end Owner

import Mathlib.Logic.Function.Basic
import Mathlib.Order.Basic
import Mathlib.Tactic.Common

/-! Tables of slots as finite maps. A slot is free, or it has a key and a value; the first `n` slots of
`T` count. While no key is in two slots, the table is a map, and entries go into any free slot. -/

namespace Slots

open Function

variable {κ α : Type} {T : ℕ → Option (κ × α)} {n m i j : ℕ} {k l : κ} {a b : α}

/-- The table binds the key to the value. -/
def Binds (T : ℕ → Option (κ × α)) (n : ℕ) (k : κ) (a : α) : Prop := ∃ j < n, T j = some (k, a)

/-- No key is in two slots. -/
def Distinct (T : ℕ → Option (κ × α)) (n : ℕ) : Prop :=
  ∀ i < n, ∀ j < n, ∀ k a b, T i = some (k, a) → T j = some (k, b) → i = j

/-- An entry goes into a free slot, or behind the last one. -/
structure Free (T : ℕ → Option (κ × α)) (n j m : ℕ) : Prop where
  free : j < n → T j = none
  le : j ≤ n
  size : m = max n (j + 1)

theorem Free.lt (h : Free T n j m) (hi : i < m) (hne : i ≠ j) : i < n := by
  have h1 := h.le
  have h2 := h.size
  omega

theorem binds_put (hf : Free T n j m) (hk : ∀ a, ¬ Binds T n k a) :
    Binds (update T j (some (k, a))) m l b ↔ l = k ∧ b = a ∨ l ≠ k ∧ Binds T n l b := by
  constructor
  · rintro ⟨i, hi, he⟩
    by_cases hij : i = j
    · rw [hij, update_self] at he
      obtain ⟨h1, h2⟩ := Prod.mk.inj (Option.some.inj he)
      exact .inl ⟨h1.symm, h2.symm⟩
    · rw [update_of_ne hij] at he
      have hb : Binds T n l b := ⟨i, hf.lt hi hij, he⟩
      refine .inr ⟨fun hlk => hk b ?_, hb⟩
      rw [← hlk]
      exact hb
  · rintro (⟨rfl, rfl⟩ | ⟨-, i, hi, he⟩)
    · have hsize := hf.size
      exact ⟨j, by omega, update_self ..⟩
    · have hij : i ≠ j := by
        rintro rfl
        rw [hf.free hi] at he
        cases he
      have hsize := hf.size
      exact ⟨i, by omega, (update_of_ne hij ..).trans he⟩

theorem Distinct.put (h : Distinct T n) (hf : Free T n j m) (hk : ∀ a, ¬ Binds T n k a) :
    Distinct (update T j (some (k, a))) m := by
  -- a slot other than `j` does not have the new key
  have hother : ∀ i < m, i ≠ j → ∀ b, update T j (some (k, a)) i ≠ some (k, b) := by
    intro i hi hij b he
    rw [update_of_ne hij] at he
    exact hk b ⟨i, hf.lt hi hij, he⟩
  intro i hi i' hi' l b c hb hc
  by_cases hij : i = j <;> by_cases hij' : i' = j
  · rw [hij, hij']
  · rw [hij, update_self] at hb
    obtain ⟨rfl, -⟩ := Prod.mk.inj (Option.some.inj hb)
    exact absurd hc (hother i' hi' hij' c)
  · rw [hij', update_self] at hc
    obtain ⟨rfl, -⟩ := Prod.mk.inj (Option.some.inj hc)
    exact absurd hb (hother i hi hij b)
  · rw [update_of_ne hij] at hb
    rw [update_of_ne hij'] at hc
    exact h i (hf.lt hi hij) i' (hf.lt hi' hij') l b c hb hc

theorem binds_clear (h : Distinct T n) (hj : j < n) (he : T j = some (k, a)) :
    Binds (update T j none) n l b ↔ l ≠ k ∧ Binds T n l b := by
  constructor
  · rintro ⟨i, hi, hb⟩
    have hij : i ≠ j := by
      rintro rfl
      rw [update_self] at hb
      cases hb
    rw [update_of_ne hij] at hb
    refine ⟨?_, i, hi, hb⟩
    rintro rfl
    exact hij (h i hi j hj l b a hb he)
  · rintro ⟨hlk, i, hi, hb⟩
    have hij : i ≠ j := by
      rintro rfl
      rw [he] at hb
      exact hlk (Prod.mk.inj (Option.some.inj hb)).1.symm
    exact ⟨i, hi, (update_of_ne hij ..).trans hb⟩

theorem Distinct.clear (h : Distinct T n) : Distinct (update T j none) n := by
  intro i hi i' hi' l b c hb hc
  have hne : ∀ {x y}, update T j none x = some y → T x = some y := by
    intro x y hxy
    by_cases hx : x = j
    · rw [hx, update_self] at hxy
      cases hxy
    · rwa [update_of_ne hx] at hxy
  exact h i hi i' hi' l b c (hne hb) (hne hc)

end Slots

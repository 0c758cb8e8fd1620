import Mathlib.Data.Finset.Card
import Mathlib.Data.Finset.Prod

/-! Reference counts. The slots of a finite set `S` each name an object, `E : ι → α`, and `refs S E x`
is how many of them name `x`. -/

namespace Count

open Finset (card_pos mem_filter)
open Function (update update_of_ne update_self)

variable {ι α : Type} [DecidableEq α] {S : Finset ι} {E D : ι → α} {a b : ι} {x : α}

def refs (S : Finset ι) (E : ι → α) (x : α) : ℕ := (S.filter fun a => E a = x).card

theorem refs_congr (h : ∀ a ∈ S, D a = x ↔ E a = x) : refs S D x = refs S E x := by
  unfold refs
  congr 1
  exact Finset.filter_congr h

theorem refs_eq_zero : refs S E x = 0 ↔ ∀ a ∈ S, E a ≠ x := by
  unfold refs
  rw [Finset.card_eq_zero, Finset.filter_eq_empty_iff]

theorem refs_pos (ha : a ∈ S) (h : E a = x) : 0 < refs S E x :=
  card_pos.2 ⟨a, mem_filter.2 ⟨ha, h⟩⟩

theorem exists_of_refs_pos (h : 0 < refs S E x) : ∃ a ∈ S, E a = x := by
  obtain ⟨a, ha⟩ := card_pos.1 h
  exact ⟨a, (mem_filter.1 ha).1, (mem_filter.1 ha).2⟩

/-- A count of one leaves room for one slot. -/
theorem refs_unique (h : refs S E x ≤ 1) (ha : a ∈ S) (hb : b ∈ S) (hax : E a = x) (hbx : E b = x) :
    a = b :=
  Finset.card_le_one.1 h a (mem_filter.2 ⟨ha, hax⟩) b (mem_filter.2 ⟨hb, hbx⟩)

variable [DecidableEq ι]

/-- The slots of `T` are cleared of `x`, the others stay. -/
theorem refs_clear {T : Finset ι} (hT : T ⊆ S) (hin : ∀ a ∈ T, D a ≠ x)
    (hout : ∀ a ∈ S, a ∉ T → D a = E a) : refs S D x + refs T E x = refs S E x := by
  unfold refs
  rw [← Finset.card_union_of_disjoint]
  · congr 1
    ext a
    simp only [Finset.mem_union, mem_filter]
    by_cases ha : a ∈ T
    · simp [ha, hT ha, hin a ha]
    · constructor
      · rintro (⟨hS, h⟩ | ⟨h, -⟩)
        · exact ⟨hS, hout a hS ha ▸ h⟩
        · exact absurd h ha
      · rintro ⟨hS, h⟩
        exact .inl ⟨hS, (hout a hS ha).trans h⟩
  · rw [Finset.disjoint_left]
    intro a h h'
    exact hin a (mem_filter.1 h').1 (mem_filter.1 h).2

/-- One slot is redirected. -/
theorem refs_set (ha : a ∈ S) (hout : ∀ b ∈ S, b ≠ a → D b = E b) :
    refs S D x + (if E a = x then 1 else 0) = refs S E x + (if D a = x then 1 else 0) := by
  have hsplit : ∀ E : ι → α, refs S E x = refs (S.erase a) E x + (if E a = x then 1 else 0) := by
    intro E
    unfold refs
    conv_lhs => rw [← Finset.insert_erase ha]
    rw [Finset.filter_insert]
    split_ifs with h
    · rw [Finset.card_insert_of_notMem]
      simp
    · rfl
  have hrest : refs (S.erase a) D x = refs (S.erase a) E x := by
    refine refs_congr fun b hb => ?_
    rw [hout b (Finset.mem_of_mem_erase hb) (Finset.ne_of_mem_erase hb)]
  rw [hsplit D, hsplit E, hrest]
  omega

section Tally

variable {τ : Type} {t : ι → τ} {p : τ → Bool} {r : τ}

omit [DecidableEq ι] in
/-- How many rows of a table have a property. -/
def tally (S : Finset ι) (p : τ → Bool) (t : ι → τ) : ℕ := refs S (fun a => p (t a)) true

omit [DecidableEq ι] in
theorem tally_pos (ha : a ∈ S) (h : p (t a) = true) : 0 < tally S p t := refs_pos ha h

theorem tally_update (ha : a ∈ S) :
    tally S p (update t a r) + (if p (t a) then 1 else 0) = tally S p t + (if p r then 1 else 0) := by
  have h := refs_set (E := fun b => p (t b)) (D := fun b => p (update t a r b)) (x := true) ha
    fun b _ hb => by rw [update_of_ne hb]
  simp only [update_self] at h
  exact h

/-- A row changes in what is not counted. -/
theorem tally_same (h : p r = p (t a)) : tally S p (update t a r) = tally S p t := by
  refine refs_congr fun b _ => ?_
  by_cases hb : b = a
  · subst hb
    rw [update_self, h]
  · rw [update_of_ne hb]

end Tally

end Count

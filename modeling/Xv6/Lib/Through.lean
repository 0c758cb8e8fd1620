import Mathlib.Logic.Function.Basic
import Mathlib.Data.Nat.Notation

/-! Writing through a map of addresses: the bytes of a list go one after another to the places that
`ph` gives for the addresses from `a` on. Two addresses may have one place; the later byte stays. -/

namespace Through

open Function

variable {α β : Type} [DecidableEq α] {ph : ℕ → α} {m : α → β} {a i : ℕ} {x : α} {b : β} {bs cs : List β}

def write (ph : ℕ → α) : ℕ → List β → (α → β) → α → β
  | _, [], m => m
  | a, b :: bs, m => write ph (a + 1) bs (update m (ph a) b)

/-- Addresses with one place get equal bytes. -/
def Agrees (ph : ℕ → α) (a : ℕ) (bs : List β) : Prop :=
  ∀ i j, i < bs.length → j < bs.length → ph (a + i) = ph (a + j) → bs[i]? = bs[j]?

theorem write_append : write ph a (bs ++ cs) m = write ph (a + bs.length) cs (write ph a bs m) := by
  induction bs generalizing a m with
  | nil => rfl
  | cons b bs ih =>
    rw [List.cons_append, write, write, ih, List.length_cons]
    congr 1
    omega

/-- Places that no address has keep what they had. -/
theorem write_out (h : ∀ i < bs.length, ph (a + i) ≠ x) : write ph a bs m x = m x := by
  induction bs generalizing a m with
  | nil => rfl
  | cons b bs ih =>
    have hx : x ≠ ph a := fun he => h 0 (Nat.zero_lt_succ _) he.symm
    rw [write, ih, update_of_ne hx]
    intro i hi he
    refine h (i + 1) (Nat.succ_lt_succ hi) ?_
    rw [← he]
    congr 1
    omega

omit [DecidableEq α] in
theorem Agrees.tail (h : Agrees ph a (b :: bs)) : Agrees ph (a + 1) bs := by
  intro i j hi hj he
  have he' : ph (a + (i + 1)) = ph (a + (j + 1)) := by
    rw [← Nat.add_assoc, Nat.add_right_comm, he, Nat.add_right_comm, Nat.add_assoc]
  exact h (i + 1) (j + 1) (Nat.succ_lt_succ hi) (Nat.succ_lt_succ hj) he'

/-- The bytes are read back at their addresses. -/
theorem write_in (h : Agrees ph a bs) (hi : i < bs.length) : bs[i]? = some (write ph a bs m (ph (a + i))) := by
  induction bs generalizing a m i with
  | nil => exact absurd hi (Nat.not_lt_zero i)
  | cons b bs ih =>
    rw [write]
    cases i with
    | succ i =>
      have hi : i < bs.length := Nat.lt_of_succ_lt_succ hi
      have ha : a + (i + 1) = a + 1 + i := by omega
      rw [ha]
      exact ih h.tail hi
    | zero =>
      change (b :: bs)[0]? = some (write ph (a + 1) bs (update m (ph a) b) (ph a))
      -- the first byte stays, unless a later one with its place is written, which is the same byte
      by_cases hlater : ∃ j < bs.length, ph (a + 1 + j) = ph a
      · obtain ⟨j, hj, he⟩ := hlater
        have ha : a + (j + 1) = a + 1 + j := by omega
        have hsame : (b :: bs)[0]? = (b :: bs)[j + 1]? :=
          h 0 (j + 1) (Nat.zero_lt_succ _) (Nat.succ_lt_succ hj) (by rw [ha, he, Nat.add_zero])
        have hlast := @ih (update m (ph a) b) (a + 1) j h.tail hj
        rw [he] at hlast
        exact hsame.trans hlast
      · rw [write_out fun j hj he => hlater ⟨j, hj, he⟩, update_self]
        rfl

omit [DecidableEq α] in
/-- Only what agrees can be read back. -/
theorem agrees_of_read (h : ∀ i < bs.length, bs[i]? = some (m (ph (a + i)))) : Agrees ph a bs := by
  intro i j hi hj he
  rw [h i hi, h j hj, he]

end Through

import Mathlib.Algebra.Ring.Nat
import Mathlib.Data.List.Basic
import Mathlib.Tactic.SplitIfs

/-! A text read in pieces and cut into lines: the lines that a separator ends, and what is left after the last separator. -/

namespace Lines

open List

variable {α : Type} [DecidableEq α]

/-- The lines of a text, without their separators, and the unfinished last one. -/
def cut (nl : α) : List α → List (List α) × List α
  | [] => ([], [])
  | x :: t =>
    if x = nl then ([] :: (cut nl t).1, (cut nl t).2)
    else
      match (cut nl t).1 with
      | [] => ([], x :: (cut nl t).2)
      | l :: ls => ((x :: l) :: ls, (cut nl t).2)

variable {nl : α} {t u l : List α}

theorem cut_of_not_mem (h : nl ∉ t) : cut nl t = ([], t) := by
  induction t with
  | nil => rfl
  | cons x t ih =>
    rw [mem_cons, not_or] at h
    rw [cut, if_neg (Ne.symm h.1), ih h.2]

theorem cut_line (h : nl ∉ l) : cut nl (l ++ nl :: t) = (l :: (cut nl t).1, (cut nl t).2) := by
  induction l with
  | nil => rw [nil_append, cut, if_pos rfl]
  | cons x l ih =>
    rw [mem_cons, not_or] at h
    rw [cons_append, cut, if_neg (Ne.symm h.1), ih h.2]

/-- A text has a first line or is unfinished. -/
theorem first_line (nl : α) (t : List α) : nl ∉ t ∨ ∃ l t', t = l ++ nl :: t' ∧ nl ∉ l := by
  by_cases h : nl ∈ t
  · obtain ⟨l, t', rfl, hl⟩ := eq_append_cons_of_mem h
    exact .inr ⟨l, t', rfl, hl⟩
  · exact .inl h

theorem cut_rest_not_mem : nl ∉ (cut nl t).2 := by
  induction t with
  | nil => exact not_mem_nil
  | cons x t ih =>
    rw [cut]
    split_ifs with h
    · exact ih
    · cases hl : (cut nl t).1 with
      | nil =>
        rw [mem_cons, not_or]
        exact ⟨Ne.symm h, ih⟩
      | cons l ls => exact ih

/-- The text so far can be cut before the rest of it is there. -/
theorem cut_append (u t : List α) :
    cut nl (u ++ t) = ((cut nl u).1 ++ (cut nl ((cut nl u).2 ++ t)).1, (cut nl ((cut nl u).2 ++ t)).2) := by
  cases first_line nl u with
  | inl h => rw [cut_of_not_mem h, nil_append]
  | inr h =>
    obtain ⟨l, u', rfl, hl⟩ := h
    rw [append_assoc, cons_append, cut_line hl, cut_line hl, cut_append u' t]
    rfl
  termination_by u.length

/-- the number of characters of the lines -/
def total (ls : List (List α)) : ℕ := (ls.map length).sum

omit [DecidableEq α] in
theorem total_append (ls ls' : List (List α)) : total (ls ++ ls') = total ls + total ls' := by
  rw [total, total, total, map_append, sum_append]

/-- What stands before the first line is part of it. -/
theorem total_cut_append (hu : nl ∉ u) (ht : nl ∈ t) : total (cut nl (u ++ t)).1 = u.length + total (cut nl t).1 := by
  obtain ⟨l, t', rfl, hl⟩ := eq_append_cons_of_mem ht
  have hul : nl ∉ u ++ l := by
    rw [mem_append, not_or]
    exact ⟨hu, hl⟩
  rw [← append_assoc, cut_line hul, cut_line hl]
  simp only [total, map_cons, sum_cons, length_append, Nat.add_assoc]

end Lines

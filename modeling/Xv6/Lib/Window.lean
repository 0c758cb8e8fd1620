import Mathlib.Data.List.Basic
import Mathlib.Logic.Function.Basic
import Mathlib.Data.Nat.ModEq

/-! A ring buffer of `N` cells between two counters that wrap modulo `M`, read as a window on the
stream of all items that were ever put in. -/

namespace Window

open List (length_append length_singleton length_cons)
open Function (update update_of_ne update_self)

variable {α : Type} {N M a b c : ℕ} {buf : ℕ → α} {r w R i : ℕ} {x : α} {sent : List α}

/-- The items of the stream `sent` from the `R`-th on are in the ring: `r` and `w` are the wrapped
numbers of items taken and put. -/
structure Holds (N M : ℕ) (buf : ℕ → α) (r w : ℕ) (sent : List α) (R : ℕ) : Prop where
  le : R ≤ sent.length
  room : sent.length ≤ R + N
  r_eq : r = R % M
  w_eq : w = sent.length % M
  cell : ∀ i, R ≤ i → i < sent.length → sent[i]? = some (buf (i % N))

/-- The sizes that make the wrapped counters tell full from empty. -/
structure Sizes (N M : ℕ) : Prop where
  pos : 0 < N
  dvd : N ∣ M
  lt : N < M

theorem Holds.empty : Holds N M buf 0 0 [] 0 :=
  ⟨le_rfl, Nat.zero_le _, (Nat.zero_mod M).symm, (Nat.zero_mod M).symm, fun i _ h => by simp at h⟩

/-- Two numbers less than `M` apart that agree modulo `M` are equal. -/
theorem eq_of_mod_eq (hab : a ≤ b) (hlt : b < a + M) (h : a % M = b % M) : a = b := by
  obtain ⟨k, hk⟩ := (Nat.modEq_iff_dvd' hab).1 h
  rcases Nat.eq_zero_or_pos k with rfl | hpos
  · omega
  · have : M ≤ M * k := Nat.le_mul_of_pos_right M hpos
    omega

/-- The difference of two wrapped counters. -/
theorem diff_mod (hab : a ≤ b) (hlt : b < a + M) : (b % M + M - a % M) % M = b - a := by
  have hM : 0 < M := by omega
  have hr : a % M < M := Nat.mod_lt _ hM
  obtain ⟨n, rfl⟩ := Nat.exists_eq_add_of_le hab
  have hn : n < M := by omega
  rw [Nat.add_sub_cancel_left, Nat.add_mod, Nat.mod_eq_of_lt hn]
  rcases Nat.lt_or_ge (a % M + n) M with hc | hc
  · rw [Nat.mod_eq_of_lt hc]
    have : a % M + n + M - a % M = n + M := by omega
    rw [this, Nat.add_mod_right, Nat.mod_eq_of_lt hn]
  · have hlow : a % M + n - M < M := by omega
    rw [Nat.mod_eq_sub_mod hc, Nat.mod_eq_of_lt hlow]
    have : a % M + n - M + M - a % M = n := by omega
    rw [this, Nat.mod_eq_of_lt hn]

section

variable (hs : Sizes N M) (h : Holds N M buf r w sent R)
include hs h

theorem Holds.empty_iff : r = w ↔ R = sent.length := by
  have hlt := hs.lt
  have hle := h.le
  have hroom := h.room
  rw [h.r_eq, h.w_eq]
  constructor
  · intro he
    exact eq_of_mod_eq hle (by omega) he
  · intro he
    rw [he]

theorem Holds.full_iff : w = (r + N) % M ↔ sent.length = R + N := by
  have hlt := hs.lt
  have hle := h.le
  have hroom := h.room
  rw [h.r_eq, h.w_eq, Nat.mod_add_mod]
  constructor
  · intro he
    exact eq_of_mod_eq hroom (by omega) he
  · intro he
    rw [he]

/-- The number of items in the ring, from the counters. -/
theorem Holds.count : (w + M - r) % M = sent.length - R := by
  have hlt := hs.lt
  have hroom := h.room
  rw [h.r_eq, h.w_eq]
  exact diff_mod h.le (by omega)

theorem Holds.push (hroom : sent.length < R + N) :
    Holds N M (update buf (w % N) x) r ((w + 1) % M) (sent ++ [x]) R := by
  have hle := h.le
  have hw : w % N = sent.length % N := by rw [h.w_eq, Nat.mod_mod_of_dvd _ hs.dvd]
  refine ⟨?_, ?_, h.r_eq, ?_, fun i h1 h2 => ?_⟩
  · rw [length_append]
    omega
  · rw [length_append, length_singleton]
    omega
  · rw [h.w_eq, length_append, length_singleton, Nat.mod_add_mod]
  · rw [length_append, length_singleton] at h2
    by_cases hi : i < sent.length
    · -- another cell: fewer than `N` items lie between
      have hne : i % N ≠ w % N := by
        rw [hw]
        intro he
        have := eq_of_mod_eq (M := N) (Nat.le_of_lt hi) (by omega) he
        omega
      rw [List.getElem?_append_left hi, update_of_ne hne]
      exact h.cell i h1 hi
    · obtain rfl : i = sent.length := by omega
      rw [List.getElem?_append_right le_rfl, Nat.sub_self, ← hw, update_self]
      rfl

theorem Holds.front (hne : R < sent.length) : sent[R]? = some (buf (r % N)) := by
  rw [h.r_eq, Nat.mod_mod_of_dvd _ hs.dvd]
  exact h.cell R le_rfl hne

omit hs in
theorem Holds.pop (hne : R < sent.length) : Holds N M buf ((r + 1) % M) w sent (R + 1) := by
  have hroom := h.room
  refine ⟨hne, by omega, ?_, h.w_eq, fun i h1 h2 => h.cell i (by omega) h2⟩
  rw [h.r_eq, Nat.mod_add_mod]

omit h in
theorem pred_mod (ha : 0 < a) : (a % M + M - 1) % M = (a - 1) % M := by
  have hM : 0 < M := hs.pos.trans hs.lt
  obtain ⟨b, rfl⟩ := Nat.exists_eq_add_of_lt ha
  have hb : (0 + b + 1) % M + M - 1 = (0 + b + 1) % M + (M - 1) := by omega
  rw [hb, Nat.mod_add_mod]
  have : 0 + b + 1 + (M - 1) = b + M := by omega
  rw [this, Nat.add_mod_right]
  congr 1
  omega

/-- The newest item. -/
theorem Holds.back (hne : R < sent.length) :
    sent[sent.length - 1]? = some (buf ((w + M - 1) % M % N)) := by
  rw [h.w_eq, pred_mod hs (by omega), Nat.mod_mod_of_dvd _ hs.dvd]
  exact h.cell _ (by omega) (by omega)

/-- The newest item is taken back. -/
theorem Holds.unpush (hne : R < sent.length) : Holds N M buf r ((w + M - 1) % M) sent.dropLast R := by
  have hroom := h.room
  refine ⟨?_, ?_, h.r_eq, ?_, fun i h1 h2 => ?_⟩
  · rw [List.length_dropLast]
    omega
  · rw [List.length_dropLast]
    omega
  · rw [h.w_eq, pred_mod hs (by omega), List.length_dropLast]
  · rw [List.length_dropLast] at h2
    rw [List.getElem?_dropLast, if_pos h2]
    exact h.cell i h1 (by omega)

/-- A counter of an item between the two is the read counter or the write counter only at its own place. -/
theorem Holds.at_w (hR : R ≤ c) (hc : c ≤ sent.length) : w = c % M ↔ sent.length = c := by
  have hlt := hs.lt
  have hroom := h.room
  rw [h.w_eq]
  constructor
  · intro he
    exact (eq_of_mod_eq hc (by omega) he.symm).symm
  · intro he
    rw [he]

theorem Holds.at_r (hR : R ≤ c) (hc : c ≤ sent.length) : r = c % M ↔ R = c := by
  have hlt := hs.lt
  have hroom := h.room
  rw [h.r_eq]
  constructor
  · intro he
    exact eq_of_mod_eq hR (by omega) he
  · intro he
    rw [he]

end

/-! A ring of `N` cells between two indices, which keeps one cell free so that the indices tell full from empty. -/

/-- The cells from `r` up to `w` hold `items`. -/
structure Ring (N : ℕ) (buf : ℕ → α) (r w : ℕ) (items : List α) : Prop where
  lt : r < N
  room : items.length < N
  w_eq : w = (r + items.length) % N
  cell : ∀ i, items[i]? = if i < items.length then some (buf ((r + i) % N)) else none

section

variable {items : List α}

theorem Ring.empty (h : 0 < N) : Ring N buf 0 0 ([] : List α) :=
  ⟨h, h, (Nat.zero_mod N).symm, fun _ => rfl⟩

theorem Ring.empty_iff (h : Ring N buf r w items) : w = r ↔ items = [] := by
  have hlt := h.lt
  have hroom := h.room
  rw [h.w_eq, ← List.length_eq_zero_iff]
  constructor
  · intro he
    have := eq_of_mod_eq (M := N) (Nat.le_add_right r items.length) (by omega) (by rw [he, Nat.mod_eq_of_lt hlt])
    omega
  · intro he
    rw [he, Nat.add_zero, Nat.mod_eq_of_lt hlt]

theorem Ring.full_iff (h : Ring N buf r w items) : (w + 1) % N = r ↔ items.length + 1 = N := by
  have hlt := h.lt
  have hroom := h.room
  rw [h.w_eq, Nat.mod_add_mod]
  constructor
  · intro he
    have := eq_of_mod_eq (M := N) (a := r + items.length + 1) (b := r + N) (by omega) (by omega)
      (by rw [he, Nat.add_mod_right, Nat.mod_eq_of_lt hlt])
    omega
  · intro he
    rw [Nat.add_assoc, he, Nat.add_mod_right, Nat.mod_eq_of_lt hlt]

theorem Ring.push (h : Ring N buf r w items) (hroom : items.length + 1 < N) :
    Ring N (update buf w x) r ((w + 1) % N) (items ++ [x]) := by
  have hlt := h.lt
  refine ⟨hlt, by simpa using hroom, ?_, fun i => ?_⟩
  · rw [h.w_eq, Nat.mod_add_mod, length_append, length_singleton, Nat.add_assoc]
  · rw [length_append, length_singleton]
    rcases Nat.lt_trichotomy i items.length with hi | rfl | hi
    · -- another cell: fewer than `N` items lie between
      have hne : (r + i) % N ≠ w := by
        rw [h.w_eq]
        intro he
        have := eq_of_mod_eq (M := N) (a := r + i) (b := r + items.length) (by omega) (by omega) he
        omega
      rw [List.getElem?_append_left hi, h.cell, if_pos hi, if_pos (by omega), update_of_ne hne]
    · rw [List.getElem?_append_right le_rfl, Nat.sub_self, if_pos (Nat.lt_succ_self _), ← h.w_eq, update_self]
      rfl
    · rw [if_neg (by omega)]
      apply List.getElem?_eq_none
      rw [length_append, length_singleton]
      exact hi

theorem Ring.front (h : Ring N buf r w (x :: items)) : buf r = x := by
  have hcell := h.cell 0
  rw [length_cons, if_pos (Nat.succ_pos _), Nat.add_zero, Nat.mod_eq_of_lt h.lt] at hcell
  exact (Option.some.inj hcell).symm

theorem Ring.pop (h : Ring N buf r w (x :: items)) : Ring N buf ((r + 1) % N) w items := by
  have hlt := h.lt
  have hroom := h.room
  rw [length_cons] at hroom
  refine ⟨Nat.mod_lt _ (by omega), by omega, ?_, fun i => ?_⟩
  · rw [h.w_eq, length_cons, Nat.mod_add_mod, Nat.add_assoc, Nat.add_comm 1]
  · have hcell := h.cell (i + 1)
    rw [List.getElem?_cons_succ, length_cons] at hcell
    rw [hcell, Nat.mod_add_mod, Nat.add_assoc, Nat.add_comm 1]
    simp only [Nat.add_lt_add_iff_right]

/-- The items, read off the cells. -/
theorem Ring.items_eq (h : Ring N buf r w items) :
    ((List.range ((w + N - r) % N)).map fun i => buf ((r + i) % N)) = items := by
  have hlt := h.lt
  have hroom := h.room
  have hcount : (w + N - r) % N = items.length := by
    have hdiff := diff_mod (M := N) (Nat.le_add_right r items.length) (by omega)
    rw [Nat.mod_eq_of_lt hlt, ← h.w_eq, Nat.add_sub_cancel_left] at hdiff
    exact hdiff
  rw [hcount]
  apply List.ext_getElem?
  intro i
  rw [h.cell, List.getElem?_map]
  by_cases hi : i < items.length
  · rw [if_pos hi, List.getElem?_range hi]
    rfl
  · rw [if_neg hi, List.getElem?_eq_none (by simpa using hi)]
    rfl

end

end Window

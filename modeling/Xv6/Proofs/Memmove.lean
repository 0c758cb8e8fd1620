import Xv6.Spec.Memmove
import Mathlib.Tactic.SplitIfs

/-! The two `memmove`s: both move any range onto any other, but for the one of `ulib.c` onto one that it overlaps from
below. -/

namespace Xv6

open Function

variable {m : Memory} {d s n i a : ℕ}

/-- The range at `d` is what the one at `s` was, and the rest is as it was. -/
structure MovedRange (d s n : ℕ) (m m' : Memory) : Prop where
  copied : ∀ i < n, m' (d + i) = m (s + i)
  other : ∀ a, ¬ (d ≤ a ∧ a < d + n) → m' a = m a

/-- Upwards, the last byte is copied last. -/
theorem copyUp_last (hd : d + (n + 1) ≤ 2 ^ 32) (hs : s + (n + 1) ≤ 2 ^ 32) :
    copyUp (n + 1) d s m = update (copyUp n d s m) (d + n) (copyUp n d s m (s + n)) := by
  induction n generalizing d s m with
  | zero => rfl
  | succ n ih =>
    have hd' : u32 (d + 1) = d + 1 := Nat.mod_eq_of_lt (by omega)
    have hs' : u32 (s + 1) = s + 1 := Nat.mod_eq_of_lt (by omega)
    have hfirst : ∀ k, copyUp (k + 1) d s m = copyUp k (d + 1) (s + 1) (update m d (m s)) := by
      intro k
      rw [copyUp, hd', hs']
    rw [hfirst, hfirst, ih (by omega) (by omega), Nat.add_right_comm d, Nat.add_right_comm s]
    rfl

theorem copyUp_other (hd : d + n ≤ 2 ^ 32) (hs : s + n ≤ 2 ^ 32) (h : ¬ (d ≤ a ∧ a < d + n)) : copyUp n d s m a = m a := by
  induction n with
  | zero => rfl
  | succ n ih =>
    rw [copyUp_last hd hs, update_of_ne (by omega)]
    exact ih (by omega) (by omega) (by omega)

/-- Upwards from above, each byte is read before it is written. -/
theorem copyUp_down (hd : d + n ≤ 2 ^ 32) (hs : s + n ≤ 2 ^ 32) (hle : d ≤ s) (hi : i < n) :
    copyUp n d s m (d + i) = m (s + i) := by
  induction n with
  | zero => omega
  | succ n ih =>
    rw [copyUp_last hd hs]
    by_cases h : i = n
    · rw [h, update_self]
      exact copyUp_other (by omega) (by omega) (by omega)
    · rw [update_of_ne (by omega)]
      exact ih (by omega) (by omega) (by omega)

/-- Upwards from below, the bytes before `d` are repeated. -/
theorem copyUp_up (hd : d + n ≤ 2 ^ 32) (hs : s + n ≤ 2 ^ 32) (hlt : s < d) (hi : i < n) :
    copyUp n d s m (d + i) = m (s + i % (d - s)) := by
  induction n generalizing i with
  | zero => omega
  | succ n ih =>
    rw [copyUp_last hd hs]
    by_cases h : i = n
    · subst h
      rw [update_self]
      by_cases hback : d - s ≤ i
      · -- the byte read is one that was written `d - s` bytes ago
        obtain ⟨j, rfl⟩ := Nat.exists_eq_add_of_le hback
        have hread : s + (d - s + j) = d + j := by omega
        rw [hread, ih (by omega) (by omega) (by omega), Nat.add_mod_left]
      · rw [copyUp_other (by omega) (by omega) (by omega), Nat.mod_eq_of_lt (by omega)]
    · rw [update_of_ne (by omega)]
      exact ih (by omega) (by omega) (by omega)

theorem copyDown_succ (hd : d + (n + 1) ≤ 2 ^ 32) (hs : s + (n + 1) ≤ 2 ^ 32) :
    copyDown (n + 1) (u32 (d + (n + 1))) (u32 (s + (n + 1))) m =
      copyDown n (u32 (d + n)) (u32 (s + n)) (update m (d + n) (m (s + n))) := by
  have hsub : ∀ a, a + (n + 1) ≤ 2 ^ 32 → sub32 (u32 (a + (n + 1))) 1 = a + n ∧ u32 (a + n) = a + n := by
    intro a ha
    unfold sub32 u32
    omega
  rw [copyDown, (hsub d hd).1, (hsub s hs).1, (hsub d hd).2, (hsub s hs).2]

/-- Downwards onto higher addresses, each byte is read before it is written. -/
theorem copyDown_moved (hd : d + n ≤ 2 ^ 32) (hs : s + n ≤ 2 ^ 32) (hlt : s < d) :
    MovedRange d s n m (copyDown n (u32 (d + n)) (u32 (s + n)) m) := by
  induction n generalizing m with
  | zero => exact ⟨fun i hi => absurd hi (Nat.not_lt_zero i), fun _ _ => rfl⟩
  | succ n ih =>
    rw [copyDown_succ hd hs]
    obtain ⟨h1, h2⟩ := ih (m := update m (d + n) (m (s + n))) (by omega) (by omega)
    refine ⟨fun i hi => ?_, fun a ha => ?_⟩
    · by_cases h : i = n
      · rw [h, h2 _ (by omega), update_self]
      · rw [h1 i (by omega), update_of_ne (by omega)]
    · rw [h2 a (by omega), update_of_ne (by omega)]

theorem copyUp_moved (hd : d + n ≤ 2 ^ 32) (hs : s + n ≤ 2 ^ 32) (h : ¬ (s < d ∧ d < s + n)) :
    MovedRange d s n m (copyUp n d s m) := by
  refine ⟨fun i hi => ?_, fun a ha => copyUp_other hd hs ha⟩
  rcases Nat.lt_or_ge s d with hlt | hle
  · rw [copyUp_up hd hs hlt hi, Nat.mod_eq_of_lt (by omega)]
  · exact copyUp_down hd hs hle hi

theorem Kernel.memmove_moved (hd : d + n ≤ 2 ^ 32) (hs : s + n ≤ 2 ^ 32) : MovedRange d s n m (Kernel.memmove d s n m) := by
  unfold Kernel.memmove
  split_ifs with h
  · exact copyDown_moved hd hs h.1
  · refine copyUp_moved hd hs fun hin => h ⟨hin.1, ?_⟩
    -- the range at `d` ends higher, so the one at `s` ends before the top of memory
    have : u32 (s + n) = s + n := Nat.mod_eq_of_lt (by omega)
    omega

theorem Ulib.memmove_up (hn : n < 2 ^ 31) : Ulib.memmove d s n m = copyUp n d s m := by
  rw [Ulib.memmove, toInt, if_pos hn, Int.toNat_natCast]

/-- The copy upwards onto an overlapping range from below is right only for bytes that repeat. -/
theorem Ulib.memmove_moved_iff (hd : d + n ≤ 2 ^ 32) (hs : s + n ≤ 2 ^ 32) (hn : n < 2 ^ 31) :
    MovedRange d s n m (Ulib.memmove d s n m) ↔ (s < d → d < s + n → ∀ i < n, m (s + i) = m (s + i % (d - s))) := by
  rw [Ulib.memmove_up hn]
  constructor
  · intro h hlt _ i hi
    rw [← h.copied i hi, copyUp_up hd hs hlt hi]
  · intro h
    by_cases hin : s < d ∧ d < s + n
    · refine ⟨fun i hi => ?_, fun a ha => copyUp_other hd hs ha⟩
      rw [copyUp_up hd hs hin.1 hi, h hin.1 hin.2 i hi]
    · exact copyUp_moved hd hs hin

/-- Both implementations move a range whose length is an `int`, unless its destination starts inside it and its bytes do
not repeat at that distance. -/
theorem memmove_agree_iff {m : Memory} {dst src n : ℕ} (hd : dst + n ≤ 2 ^ 32) (hs : src + n ≤ 2 ^ 32)
    (hn : n < 2 ^ 31) :
    (MovedRange dst src n m (Kernel.memmove dst src n m) ∧ MovedRange dst src n m (Ulib.memmove dst src n m)) ↔
      (src < dst → dst < src + n → ∀ i < n, m (src + i) = m (src + i % (dst - src))) := by
  rw [Ulib.memmove_moved_iff hd hs hn]
  exact ⟨fun h => h.2, fun h => ⟨Kernel.memmove_moved hd hs, h⟩⟩

/-- Onto lower addresses, as `grep` uses it. -/
theorem memmove_agree_iff_down :
    MovedRange 100 103 5 (fun a => UInt8.ofNat a) (Kernel.memmove 100 103 5 fun a => UInt8.ofNat a) ∧
    MovedRange 100 103 5 (fun a => UInt8.ofNat a) (Ulib.memmove 100 103 5 fun a => UInt8.ofNat a) :=
  (memmove_agree_iff (by decide) (by decide) (by decide)).2 fun h => absurd h (by decide)

/-- Two bytes moved up by one: the second is lost. -/
theorem ulib_memmove_overwrites : ¬ MovedRange 101 100 2 (fun a => UInt8.ofNat a) (Ulib.memmove 101 100 2 fun a => UInt8.ofNat a) := by
  intro h
  have := h.copied 1 (by decide)
  exact absurd this (by decide)

end Xv6

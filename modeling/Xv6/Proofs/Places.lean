import Xv6.Lib.Through
import Xv6.Spec.Kern
import Mathlib.Data.List.GetD

/-! The bytes of an address space: where the page table puts an address, and what memory holds there. -/

namespace Xv6

open Prog Bytes List Nat

variable {s : Kern} {d va a i m n c f o hi x w k : ℕ} {bs cs : List UInt8} {ws : List ℕ}

/-- The frame and the offset of a user address. -/
def Kern.place (s : Kern) (d a : ℕ) : ℕ × ℕ := ((s.entry d (a / PGSIZE)).ppn, a % PGSIZE)

/-- User code can use the page of the address. -/
def Kern.usable (s : Kern) (d a : ℕ) : Bool := (s.entry d (a / PGSIZE)).p && (s.entry d (a / PGSIZE)).u

/-- How many bytes from `va` on lie in usable pages, of `n`. -/
def Kern.reach (s : Kern) (d : ℕ) : ℕ → ℕ → ℕ
  | _, 0 => 0
  | va, n + 1 => if s.usable d va then s.reach d (va + 1) n + 1 else 0

/-- Memory with the bytes written at `va`. -/
def Kern.copied (s : Kern) (d va : ℕ) (bs : List UInt8) : Kern :=
  { s with mem := fun f o => Through.write (s.place d) va bs (fun q => s.mem q.1 q.2) (f, o) }

theorem reach_le : s.reach d va n ≤ n := by
  induction n generalizing va with
  | zero => exact le_rfl
  | succ n ih =>
    rw [Kern.reach]
    split_ifs
    · exact succ_le_succ ih
    · exact zero_le _

theorem usable_of_reach (h : i < s.reach d va n) : s.usable d (va + i) = true := by
  induction n generalizing va i with
  | zero => exact absurd h (not_lt_zero i)
  | succ n ih =>
    rw [Kern.reach] at h
    split_ifs at h with hu
    · cases i with
      | zero => exact hu
      | succ i =>
        have := ih (lt_of_succ_lt_succ h)
        rwa [add_assoc, add_comm 1] at this
    · exact absurd h (not_lt_zero i)

theorem not_usable_reach (h : s.reach d va n < n) : s.usable d (va + s.reach d va n) = false := by
  induction n generalizing va with
  | zero => exact absurd h (not_lt_zero _)
  | succ n ih =>
    rw [Kern.reach] at h ⊢
    split_ifs at h ⊢ with hu
    · have := ih (lt_of_succ_lt_succ h)
      rwa [add_assoc, add_comm 1] at this
    · simpa using hu

theorem reach_eq_iff : s.reach d va n = n ↔ ∀ i < n, s.usable d (va + i) = true := by
  constructor
  · intro h i hi
    exact usable_of_reach (h.symm ▸ hi)
  · intro h
    by_contra hne
    have hlt : s.reach d va n < n := lt_of_le_of_ne reach_le hne
    have hno := not_usable_reach hlt
    rw [h _ hlt] at hno
    cases hno

/-- Usable bytes, and the rest. -/
theorem reach_add (h : ∀ i < m, s.usable d (va + i) = true) : s.reach d va (m + n) = m + s.reach d (va + m) n := by
  induction m generalizing va with
  | zero => rw [zero_add, zero_add, add_zero]
  | succ m ih =>
    have h0 := h 0 (zero_lt_succ m)
    have hrest : ∀ i < m, s.usable d (va + 1 + i) = true := by
      intro i hi
      have := h (i + 1) (succ_lt_succ hi)
      rwa [show va + (i + 1) = va + 1 + i by omega] at this
    rw [add_zero] at h0
    rw [succ_add_eq_add_succ, add_succ, Kern.reach, if_pos h0, ih hrest, show va + 1 + m = va + (m + 1) by omega]
    omega

theorem copied_append : s.copied d va (bs ++ cs) = (s.copied d va bs).copied d (va + bs.length) cs := by
  unfold Kern.copied
  rw [Through.write_append]
  rfl

theorem copied_reach : (s.copied d va bs).reach d a n = s.reach d a n := by
  induction n generalizing a with
  | zero => rfl
  | succ n ih =>
    rw [Kern.reach, Kern.reach, ih]
    rfl

/-- The addresses of one page. -/
theorem same_page {k : ℕ} (h : va % PGSIZE + k < PGSIZE) :
    (va + k) / PGSIZE = va / PGSIZE ∧ (va + k) % PGSIZE = va % PGSIZE + k := by
  simp only [PGSIZE] at *
  omega

/-- Bytes written within one page. -/
theorem copied_page {bs : List UInt8} (h : va % PGSIZE + bs.length ≤ PGSIZE) :
    let f := (s.entry d (va / PGSIZE)).ppn
    { s with mem := Function.update s.mem f (overlay (s.mem f) (va % PGSIZE) bs) } = s.copied d va bs := by
  dsimp only
  have hplace : ∀ i < bs.length, s.place d (va + i) = ((s.entry d (va / PGSIZE)).ppn, va % PGSIZE + i) := by
    intro i hi
    obtain ⟨h1, h2⟩ := @same_page va i (by omega)
    rw [Kern.place, h1, h2]
  have hagree : Through.Agrees (s.place d) va bs := by
    intro i j hi hj he
    rw [hplace i hi, hplace j hj, Prod.mk.injEq] at he
    rw [show i = j by omega]
  unfold Kern.copied
  congr 1
  funext f o
  by_cases hf : f = (s.entry d (va / PGSIZE)).ppn
  · subst hf
    rw [Function.update_self]
    by_cases ho : va % PGSIZE ≤ o ∧ o < va % PGSIZE + bs.length
    · obtain ⟨i, rfl⟩ := Nat.exists_eq_add_of_le ho.1
      have hi : i < bs.length := by omega
      have hin := Through.write_in (m := fun q : ℕ × ℕ => s.mem q.1 q.2) hagree hi
      rw [hplace i hi] at hin
      rw [overlay_in hi, getD_eq_getElem?_getD, hin]
      rfl
    · rw [overlay_out (by omega), Through.write_out]
      intro i hi he
      rw [hplace i hi, Prod.mk.injEq] at he
      omega
  · rw [Function.update_of_ne hf, Through.write_out]
    intro i hi he
    rw [hplace i hi, Prod.mk.injEq] at he
    exact hf he.1.symm

theorem PGROUNDDOWN_div (a : ℕ) : PGROUNDDOWN a / PGSIZE = a / PGSIZE := by
  simp only [PGROUNDDOWN, PGSIZE]
  omega

theorem sub_PGROUNDDOWN (a : ℕ) : a - PGROUNDDOWN a = a % PGSIZE := by
  simp only [PGROUNDDOWN, PGSIZE]
  omega

theorem PDX_PGROUNDDOWN (a : ℕ) : PDX (PGROUNDDOWN a) = PDX a := by
  have h : PGROUNDDOWN a / PTSIZE = a / PTSIZE := by
    simp only [PGROUNDDOWN, PGSIZE, PTSIZE]
    omega
  unfold PDX
  rw [h]

/-- A round of `copyout` that is not the last goes on at the next page. -/
theorem next_round {len : ℕ} (hlen : min (PGSIZE - (va - PGROUNDDOWN va)) len < len) :
    PGROUNDDOWN va + PGSIZE = va + min (PGSIZE - (va - PGROUNDDOWN va)) len := by
  simp only [PGROUNDDOWN, PGSIZE] at *
  omega

/-! ### What an address space holds -/

/-- The byte at an address. -/
def Kern.byteAt (s : Kern) (d a : ℕ) : UInt8 := s.mem (s.place d a).1 (s.place d a).2

/-- The pages below `hi` that have frames have them for themselves. -/
def Kern.Apart (s : Kern) (d hi : ℕ) : Prop :=
  ∀ v v', v * PGSIZE < hi → v' * PGSIZE < hi → (s.entry d v).ppn ≠ 0 → (s.entry d v').ppn = (s.entry d v).ppn → v' = v

/-- The bytes from `va` on lie in pages that have frames. -/
def Kern.Backed (s : Kern) (d va n : ℕ) : Prop := ∀ i < n, (s.entry d ((va + i) / PGSIZE)).ppn ≠ 0

theorem Kern.Apart.place (h : s.Apart d hi) {y : ℕ} (hx : x < hi) (hy : y < hi) (h0 : (s.entry d (x / PGSIZE)).ppn ≠ 0)
    (he : s.place d y = s.place d x) : y = x := by
  obtain ⟨h1, h2⟩ := Prod.mk.inj he
  have hv := h _ _ ((div_mul_le_self x PGSIZE).trans_lt hx) ((div_mul_le_self y PGSIZE).trans_lt hy) h0 h1
  rw [← div_add_mod x PGSIZE, ← div_add_mod y PGSIZE, hv, h2]

/-- Bytes that are written are read back, and no others change. -/
theorem byteAt_copied (h : s.Apart d hi) (hb : s.Backed d va bs.length) (hle : va + bs.length ≤ hi) (hx : x < hi) :
    (s.copied d va bs).byteAt d x = if va ≤ x ∧ x < va + bs.length then bs.getD (x - va) 0 else s.byteAt d x := by
  change Through.write (s.place d) va bs (fun q => s.mem q.1 q.2) (s.place d x) = _
  split_ifs with hin
  · obtain ⟨i, rfl⟩ := Nat.exists_eq_add_of_le hin.1
    have hi : i < bs.length := by omega
    have hagree : Through.Agrees (s.place d) va bs := by
      intro j k hj hk he
      have := h.place (by omega) (by omega) (hb k hk) he
      rw [show j = k by omega]
    have hread := Through.write_in (m := fun q : ℕ × ℕ => s.mem q.1 q.2) hagree hi
    rw [Nat.add_sub_cancel_left, getD_eq_getElem?_getD, hread]
    rfl
  · refine Through.write_out fun i hi he => hin ?_
    have := h.place (by omega) hx (hb i hi) he.symm
    omega

/-- The bytes `bs` are at address `a`. -/
def Kern.Has (s : Kern) (d a : ℕ) (bs : List UInt8) : Prop := ∀ j < bs.length, s.byteAt d (a + j) = bs.getD j 0

/-- The word at an address. -/
def Kern.wordAt (s : Kern) (d a : ℕ) : ℕ := unle ((range 4).map fun j => s.byteAt d (a + j))

theorem length_words (ws : List ℕ) : (ws.flatMap (le 4)).length = 4 * ws.length := by
  induction ws with
  | nil => rfl
  | cons w ws ih =>
    rw [flatMap_cons, length_append, ih, le_length, length_cons]
    omega

theorem getD_words {j : ℕ} (hk : ws[k]? = some w) (hj : j < 4) :
    (ws.flatMap (le 4)).getD (4 * k + j) 0 = (le 4 w).getD j 0 := by
  induction ws generalizing k with
  | nil => simp at hk
  | cons w' ws ih =>
    rw [flatMap_cons]
    cases k with
    | zero =>
      obtain rfl : w' = w := by simpa using hk
      rw [mul_zero, zero_add, getD_append _ _ _ _ (by rw [le_length]; exact hj)]
    | succ k =>
      have hlen : (le 4 w').length ≤ 4 * (k + 1) + j := by
        rw [le_length]
        omega
      rw [getD_append_right _ _ _ _ hlen, le_length, show 4 * (k + 1) + j - 4 = 4 * k + j by omega]
      exact ih (by simpa using hk)

/-- A word of a table of words. -/
theorem Kern.Has.wordAt (h : s.Has d a (ws.flatMap (le 4))) (hk : ws[k]? = some w) (hw : w < 2 ^ 32) :
    s.wordAt d (a + 4 * k) = w := by
  have hlt : k < ws.length := (List.getElem?_eq_some_iff.1 hk).1
  have hbytes : (List.range 4).map (fun j => s.byteAt d (a + 4 * k + j)) = le 4 w := by
    refine List.ext_getElem (by rw [List.length_map, List.length_range, le_length]) fun j hj hj' => ?_
    rw [le_length] at hj'
    have hb := h (4 * k + j) (by rw [length_words]; omega)
    rw [getD_words hk hj', getD_eq_getElem?_getD, getElem?_eq_getElem (by rw [le_length]; exact hj'),
      Option.getD_some, ← add_assoc] at hb
    rw [getElem_map, getElem_range, hb]
  rw [Kern.wordAt, hbytes, unle_le]
  exact mod_eq_of_lt (hw.trans_le (by norm_num))

theorem has_copied (h : s.Apart d hi) (hb : s.Backed d va bs.length) (hle : va + bs.length ≤ hi) :
    (s.copied d va bs).Has d va bs := by
  intro j hj
  rw [byteAt_copied h hb hle (by omega), if_pos (by omega), Nat.add_sub_cancel_left]

/-- What lies above the bytes that are written stays. -/
theorem Kern.Has.copied (hc : s.Has d a cs) (h : s.Apart d hi) (hb : s.Backed d va bs.length)
    (hle : va + bs.length ≤ a) (hlt : a + cs.length ≤ hi) : (s.copied d va bs).Has d a cs := by
  intro j hj
  rw [byteAt_copied h hb (by omega) (by omega), if_neg (by omega)]
  exact hc j hj

end Xv6

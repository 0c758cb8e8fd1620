import Mathlib.Data.List.Basic

/-! Singly linked lists and rings: the nodes are the elements of a type, the links a function on it. -/

namespace Linked

open List

variable {ι : Type} {f g : ι → ι} {a b c x y : ι} {l xs ys : List ι} {P : ι → Bool} {k : ℕ}

/-- Each node of `l` is linked to the next one, and the last one to `b`. -/
def Links (f : ι → ι) : List ι → ι → Prop
  | [], _ => True
  | x :: l, b => f x = l.headD b ∧ Links f l b

/-- The first node that meets `P` from `a` on, among the first `k`. -/
def search (f : ι → ι) (P : ι → Bool) : ℕ → ι → Option ι
  | 0, _ => none
  | k + 1, a => if P a = true then some a else search f P k (f a)

theorem headD_append (xs ys : List ι) (b : ι) : (xs ++ ys).headD b = xs.headD (ys.headD b) := by
  cases xs <;> rfl

theorem links_append : Links f (xs ++ ys) b ↔ Links f xs (ys.headD b) ∧ Links f ys b := by
  induction xs with
  | nil => simp [Links]
  | cons x xs ih => rw [cons_append, Links, Links, ih, headD_append, and_assoc]

theorem Links.congr (h : Links f l b) (hl : ∀ x ∈ l, g x = f x) : Links g l b := by
  induction l with
  | nil => trivial
  | cons x l ih =>
    exact ⟨(hl x (by simp)).trans h.1, ih h.2 fun y hy => hl y (mem_cons_of_mem _ hy)⟩

/-- A ring read from another of its nodes. -/
theorem Links.rotate (h : Links f (xs ++ y :: ys) c) (hc : (xs ++ y :: ys).head? = some c) :
    Links f (y :: ys ++ xs) y := by
  obtain ⟨h1, h2⟩ := links_append.1 h
  refine links_append.2 ⟨?_, h1⟩
  cases xs with
  | nil =>
    obtain rfl : y = c := by simpa using hc
    exact h2
  | cons x xs =>
    obtain rfl : x = c := by simpa using hc
    exact h2

theorem search_mono {j : ℕ} (h : search f P k a = some x) (hk : k ≤ j) : search f P j a = some x := by
  induction k generalizing a j with
  | zero => simp [search] at h
  | succ k ih =>
    obtain ⟨i, rfl⟩ := Nat.exists_eq_add_of_le hk
    rw [Nat.add_right_comm, search]
    rw [search] at h
    split_ifs at h ⊢ with hP
    · exact h
    · exact ih h (Nat.le_add_right k i)

/-- A search along a list ends on it or goes on at its end. -/
theorem Links.search_list (h : Links f l b) :
    (∃ x ∈ l, P x = true ∧ search f P (l.length + k) (l.headD b) = some x) ∨
      (∀ x ∈ l, P x = false) ∧ search f P (l.length + k) (l.headD b) = search f P k b := by
  induction l with
  | nil => exact .inr ⟨by simp, by simp⟩
  | cons x l ih =>
    obtain ⟨h1, h2⟩ := h
    have hk : (x :: l).length + k = l.length + k + 1 := by
      rw [length_cons]
      omega
    rw [hk, headD_cons]
    by_cases hP : P x = true
    · exact .inl ⟨x, by simp, hP, if_pos hP⟩
    · rw [search, if_neg hP, h1]
      rcases ih h2 with ⟨y, hy, hPy, he⟩ | ⟨hall, he⟩
      · exact .inl ⟨y, mem_cons_of_mem _ hy, hPy, he⟩
      · refine .inr ⟨fun y hy => ?_, he⟩
        rcases mem_cons.1 hy with rfl | hy
        · simpa using hP
        · exact hall y hy

/-- A search on a ring that has a node to find ends, whatever node it begins at. -/
theorem Links.search_ring (h : Links f l c) (hc : l.head? = some c) (ha : a ∈ l) (hP : ∃ x ∈ l, P x = true) :
    ∃ x ∈ l, P x = true ∧ search f P l.length a = some x := by
  obtain ⟨xs, ys, rfl⟩ := append_of_mem ha
  have hr := h.rotate hc
  obtain ⟨z, hz, hPz⟩ := hP
  have hmem : ∀ {w}, w ∈ a :: ys ++ xs ↔ w ∈ xs ++ a :: ys := by
    intro w
    rw [mem_append, mem_append, or_comm]
  have hlen : (xs ++ a :: ys).length = (a :: ys ++ xs).length + 0 := by
    simp
    omega
  rw [hlen]
  rcases hr.search_list (P := P) (k := 0) with ⟨x, hx, hPx, he⟩ | ⟨hall, -⟩
  · exact ⟨x, hmem.1 hx, hPx, he⟩
  · simp [hall z (hmem.2 hz)] at hPz

/-! Queues: a list of nodes behind a pointer, ended by a null pointer. -/

section

variable [DecidableEq ι] {next next' : ι → Option ι} {o : Option ι}

/-- The pointer `o` leads along `next` through `l` to the null pointer. -/
def Chain (next : ι → Option ι) : Option ι → List ι → Prop
  | o, [] => o = none
  | o, x :: l => o = some x ∧ Chain next (next x) l

/-- The last node from `x` on, among the first `k + 1`. -/
def last (next : ι → Option ι) : ℕ → ι → ι
  | 0, x => x
  | k + 1, x =>
    match next x with
    | none => x
    | some y => last next k y

omit [DecidableEq ι] in
theorem Chain.head (h : Chain next o l) : o = l.head? := by
  cases l with
  | nil => exact h
  | cons x l => exact h.1

omit [DecidableEq ι] in
theorem Chain.congr (h : Chain next o l) (hl : ∀ x ∈ l, next' x = next x) : Chain next' o l := by
  induction l generalizing o with
  | nil => exact h
  | cons x l ih =>
    refine ⟨h.1, ?_⟩
    rw [hl x mem_cons_self]
    exact ih h.2 fun y hy => hl y (mem_cons_of_mem _ hy)

/-- A node put behind the last one. -/
theorem Chain.append (h : Chain next (some x) l) (hn : l.Nodup) (hb : b ∉ l) (hnext : next b = none) (hk : l.length ≤ k + 1) :
    Chain (Function.update next (last next k x) (some b)) (some x) (l ++ [b]) ∧ last next k x ∈ l := by
  induction l generalizing x k with
  | nil => exact absurd h (by simp [Chain])
  | cons y l ih =>
    obtain ⟨hy, hrest⟩ := h
    obtain rfl := Option.some.inj hy
    obtain ⟨hnot, hn⟩ := nodup_cons.1 hn
    rw [mem_cons, not_or] at hb
    cases l with
    | nil =>
      have hlast : last next k x = x := by
        cases k with
        | zero => rfl
        | succ k => rw [last, show next x = none from hrest]
      rw [hlast]
      refine ⟨⟨rfl, Function.update_self _ _ _, ?_⟩, mem_cons_self⟩
      rw [Function.update_of_ne hb.1]
      exact hnext
    | cons z l =>
      cases k with
      | zero => simp at hk
      | succ k =>
        have hz : next x = some z := hrest.1
        have hlast : last next (k + 1) x = last next k z := by rw [last, hz]
        rw [hz] at hrest
        obtain ⟨hchain, hmem⟩ := ih hrest hn hb.2 (Nat.le_of_succ_le_succ hk)
        rw [hlast]
        refine ⟨⟨rfl, ?_⟩, mem_cons_of_mem _ hmem⟩
        rw [Function.update_of_ne (ne_of_mem_of_not_mem hmem hnot).symm, hz]
        exact hchain

end

end Linked

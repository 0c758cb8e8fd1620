import Mathlib.Algebra.BigOperators.Group.List.Basic
import Mathlib.Algebra.Ring.Nat
import Mathlib.Data.List.Pairwise
import Mathlib.Order.Nat

/-! Blocks of an address range, in units of `u` bytes: a block is its address and its number of units. -/

namespace Tiling

variable {u lo hi a j k : ℕ} {b c : ℕ × ℕ} {bs cs : List (ℕ × ℕ)}

/-- Two blocks share no byte. -/
def Apart (u : ℕ) (b c : ℕ × ℕ) : Prop := b.1 + u * b.2 ≤ c.1 ∨ c.1 + u * c.2 ≤ b.1

theorem Apart.symm (h : Apart u b c) : Apart u c b := Or.symm h

instance : Std.Symm (Apart u) := ⟨fun _ _ => Apart.symm⟩

/-- Blocks that are not empty, lie in the range and share no byte. -/
structure Tiles (u lo hi : ℕ) (bs : List (ℕ × ℕ)) : Prop where
  apart : bs.Pairwise (Apart u)
  pos : ∀ b ∈ bs, 0 < b.2
  lo_le : ∀ b ∈ bs, lo ≤ b.1
  le_hi : ∀ b ∈ bs, b.1 + u * b.2 ≤ hi

/-- The units in use. -/
def total (bs : List (ℕ × ℕ)) : ℕ := (bs.map (·.2)).sum

@[simp] theorem total_nil : total [] = 0 := rfl

@[simp] theorem total_cons : total (b :: bs) = b.2 + total bs := by
  simp [total]

@[simp] theorem total_append : total (bs ++ cs) = total bs + total cs := by
  simp [total]

theorem total_perm (h : bs.Perm cs) : total bs = total cs := (h.map _).sum_eq

theorem Tiles.perm (h : Tiles u lo hi bs) (hp : bs.Perm cs) : Tiles u lo hi cs :=
  ⟨h.apart.perm hp Apart.symm, fun b hb => h.pos b (hp.mem_iff.2 hb), fun b hb => h.lo_le b (hp.mem_iff.2 hb),
    fun b hb => h.le_hi b (hp.mem_iff.2 hb)⟩

theorem Tiles.nil : Tiles u lo hi [] := by
  constructor <;> simp

theorem tiles_cons : Tiles u lo hi (b :: bs) ↔
    (∀ c ∈ bs, Apart u b c) ∧ 0 < b.2 ∧ lo ≤ b.1 ∧ b.1 + u * b.2 ≤ hi ∧ Tiles u lo hi bs := by
  constructor
  · intro h
    obtain ⟨h1, h2⟩ := List.pairwise_cons.1 h.apart
    exact ⟨h1, h.pos b (by simp), h.lo_le b (by simp), h.le_hi b (by simp), h2,
      fun c hc => h.pos c (List.mem_cons_of_mem _ hc), fun c hc => h.lo_le c (List.mem_cons_of_mem _ hc),
      fun c hc => h.le_hi c (List.mem_cons_of_mem _ hc)⟩
  · intro h
    obtain ⟨h1, h2, h3, h4, h5⟩ := h
    exact ⟨List.pairwise_cons.2 ⟨h1, h5.apart⟩, List.forall_mem_cons.2 ⟨h2, h5.pos⟩,
      List.forall_mem_cons.2 ⟨h3, h5.lo_le⟩, List.forall_mem_cons.2 ⟨h4, h5.le_hi⟩⟩

/-- The range grows. -/
theorem Tiles.grow (h : Tiles u lo hi bs) {hi' : ℕ} (hle : hi ≤ hi') : Tiles u lo hi' bs :=
  ⟨h.apart, h.pos, h.lo_le, fun b hb => (h.le_hi b hb).trans hle⟩

/-- A block above the range. -/
theorem Tiles.above (h : Tiles u lo hi bs) (ha : hi ≤ a) (hlo : lo ≤ hi) (hk : 0 < k) :
    Tiles u lo (a + u * k) ((a, k) :: bs) := by
  refine tiles_cons.2 ⟨fun c hc => .inr ((h.le_hi c hc).trans ha), hk, hlo.trans ha, le_rfl, h.grow ?_⟩
  exact ha.trans (Nat.le_add_right _ _)

/-- A block and the one right after it are one block. -/
theorem Tiles.join (h : Tiles u lo hi ((a, k) :: (a + u * k, j) :: bs)) : Tiles u lo hi ((a, k + j) :: bs) := by
  obtain ⟨h1, h2, h3, -, h5⟩ := tiles_cons.1 h
  obtain ⟨g1, -, -, g4, g5⟩ := tiles_cons.1 h5
  have hend : a + u * (k + j) = a + u * k + u * j := by
    rw [Nat.mul_add, Nat.add_assoc]
  refine tiles_cons.2 ⟨fun c hc => ?_, Nat.add_pos_left h2 j, h3, hend ▸ g4, g5⟩
  unfold Apart
  rw [hend]
  rcases h1 c (List.mem_cons_of_mem _ hc) with hl | hl
  · rcases g1 c hc with hg | hg
    · exact .inl hg
    · -- `c` would lie before the second part and after the first
      have hpos := g5.pos c hc
      rcases Nat.eq_zero_or_pos u with rfl | hu
      · simp at hl hg ⊢
        omega
      · have : 0 < u * c.2 := Nat.mul_pos hu hpos
        dsimp only at hl hg
        omega
  · exact .inr hl

/-- A block is cut in two. -/
theorem Tiles.split (h : Tiles u lo hi ((a, k + j) :: bs)) (hk : 0 < k) (hj : 0 < j) :
    Tiles u lo hi ((a, k) :: (a + u * k, j) :: bs) := by
  obtain ⟨h1, -, h3, h4, h5⟩ := tiles_cons.1 h
  have hend : a + u * (k + j) = a + u * k + u * j := by
    rw [Nat.mul_add, Nat.add_assoc]
  dsimp only at h4
  rw [hend] at h4
  have hmid : ∀ c ∈ bs, Apart u (a, k) c ∧ Apart u (a + u * k, j) c := by
    intro c hc
    unfold Apart
    rcases h1 c hc with hl | hl
    · dsimp only at hl ⊢
      rw [hend] at hl
      exact ⟨.inl (by omega), .inl hl⟩
    · dsimp only at hl ⊢
      exact ⟨.inr hl, .inr (by omega)⟩
  refine tiles_cons.2 ⟨?_, hk, h3, by dsimp only; omega, tiles_cons.2 ⟨fun c hc => (hmid c hc).2, hj, ?_, h4, h5⟩⟩
  · intro c hc
    rcases List.mem_cons.1 hc with rfl | hc
    · exact .inl le_rfl
    · exact (hmid c hc).1
  · dsimp only at h3 ⊢
    omega

end Tiling

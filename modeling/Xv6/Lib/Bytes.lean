import Mathlib.Algebra.Ring.Nat

/-! Memory as bytes: integers, low byte first, and writes over a range. -/

namespace Bytes

/-- `n` as `k` bytes -/
def le : ℕ → ℕ → List UInt8
  | 0, _ => []
  | k + 1, n => UInt8.ofNat (n % 256) :: le k (n / 256)

def unle : List UInt8 → ℕ
  | [] => 0
  | b :: bs => b.toNat + 256 * unle bs

@[simp] theorem le_length (k n : ℕ) : (le k n).length = k := by
  induction k generalizing n with
  | zero => rfl
  | succ k ih => simp [le, ih]

theorem unle_le (k n : ℕ) : unle (le k n) = n % 256 ^ k := by
  induction k generalizing n with
  | zero => simp [le, unle, Nat.mod_one]
  | succ k ih =>
    have h : (UInt8.ofNat (n % 256)).toNat = n % 256 := by simp
    rw [le, unle, ih, h, Nat.pow_succ', Nat.mod_mul]

theorem unle_lt (bs : List UInt8) : unle bs < 256 ^ bs.length := by
  induction bs with
  | nil => simp [unle]
  | cons b bs ih =>
    have hb := b.toNat_lt
    simp only [unle, List.length_cons, Nat.pow_succ]
    omega

/-- Memory with `bs` written over it from byte `off` on. -/
def overlay (page : ℕ → UInt8) (off : ℕ) (bs : List UInt8) (k : ℕ) : UInt8 :=
  if off ≤ k ∧ k < off + bs.length then bs.getD (k - off) 0 else page k


theorem overlay_in {page : ℕ → UInt8} {off k : ℕ} {bs : List UInt8} (h : k < bs.length) :
    overlay page off bs (off + k) = bs.getD k 0 := by
  rw [overlay, if_pos ⟨by omega, by omega⟩]
  congr 1
  omega

theorem overlay_out {page : ℕ → UInt8} {off k : ℕ} {bs : List UInt8} (h : k < off ∨ off + bs.length ≤ k) :
    overlay page off bs k = page k := by
  rw [overlay, if_neg (by omega)]

end Bytes

import Xv6.Proofs.FileMap
import Xv6.Spec.Inode

/-! `struct dinode` on disk: what `iupdate` writes is what `ilock` reads. -/

namespace Xv6

open Prog Bytes List Nat

/-- The bytes `p` to `p + n` of what is written at `off`. -/
theorem map_overlay (page : ℕ → UInt8) (off : ℕ) {p n : ℕ} {bs : List UInt8} (h : p + n ≤ bs.length) :
    (range n).map (fun k => overlay page off bs (off + p + k)) = (bs.drop p).take n := by
  refine ext_getElem (by simp; omega) fun k h1 h2 => ?_
  have hk : k < n := by simpa using h1
  rw [getElem_map, getElem_range, add_assoc, overlay_in (by omega), getElem_take,
    getElem_drop, getD_eq_getElem?_getD, getElem?_eq_getElem (by omega), Option.getD_some]

theorem length_flatMap_range {f : ℕ → List UInt8} {w : ℕ} (hf : ∀ k, (f k).length = w) (n : ℕ) :
    ((range n).flatMap f).length = w * n := by
  induction n with
  | zero => rfl
  | succ n ih =>
    rw [range_succ, flatMap_append, length_append, ih]
    simp only [flatMap_cons, flatMap_nil, append_nil, hf]
    ring

/-- The `k`-th of pieces of equal length. -/
theorem take_drop_flatMap {f : ℕ → List UInt8} {w : ℕ} (hf : ∀ k, (f k).length = w) {n k : ℕ} (hk : k < n) :
    (((range n).flatMap f).drop (w * k)).take w = f k := by
  induction n with
  | zero => omega
  | succ n ih =>
    have hlen := length_flatMap_range hf n
    rw [range_succ, flatMap_append]
    simp only [flatMap_cons, flatMap_nil, append_nil]
    rcases Nat.lt_succ_iff_lt_or_eq.1 hk with hlt | rfl
    · have hle : w * k + w ≤ w * n := by
        calc w * k + w = w * (k + 1) := by ring
          _ ≤ w * n := Nat.mul_le_mul_left w hlt
      rw [drop_append_of_le_length (by omega),
        take_append_of_le_length (by rw [length_drop]; omega), ih hlt]
    · rw [drop_append, hlen, Nat.sub_self, drop_of_length_le (by omega), nil_append,
        drop_zero, take_of_length_le (by rw [hf])]

namespace Sys

/-- The fields of an inode are numbers that its `struct dinode` can hold. -/
structure Fits (ip : Inode) : Prop where
  type : ip.type < 65536
  major : ip.major < 65536
  minor : ip.minor < 65536
  nlink : ip.nlink < 65536
  size : ip.size < 2 ^ 32
  addrs : ∀ k, ip.addrs k < 2 ^ 32
  rest : ∀ k, NDIRECT < k → ip.addrs k = 0

variable {sb : Superblock} {block : ℕ → Sector} {ip : Inode} {n n' r i : ℕ} {page : ℕ → UInt8} {bs : List UInt8}

theorem dinode_length (ip : Inode) : (dinode ip).length = sizeofDinode := by
  rw [dinode, length_append, length_flatMap_range (fun _ => le_length 4 _)]
  simp [sizeofDinode, NDIRECT]

theorem dinode_short (ip : Inode) :
    ((dinode ip).drop 0).take 2 = le 2 ip.type ∧ ((dinode ip).drop 2).take 2 = le 2 ip.major ∧
      ((dinode ip).drop 4).take 2 = le 2 ip.minor ∧ ((dinode ip).drop 6).take 2 = le 2 ip.nlink ∧
      ((dinode ip).drop 8).take 4 = le 4 ip.size := by
  simp [dinode, le]

theorem dinode_addr (ip : Inode) {k : ℕ} (hk : k ≤ NDIRECT) :
    ((dinode ip).drop (12 + 4 * k)).take 4 = le 4 (ip.addrs k) := by
  have h := take_drop_flatMap (f := fun k => le 4 (ip.addrs k)) (w := 4) (fun _ => by simp)
    (n := NDIRECT + 1) (k := k) (by omega)
  have hlen : (le 2 ip.type ++ le 2 ip.major ++ le 2 ip.minor ++ le 2 ip.nlink ++ le 4 ip.size).length = 12 := by
    simp
  rw [← h, dinode, ← drop_drop, drop_append, hlen, drop_of_length_le hlen.le,
    nil_append, Nat.sub_self, drop_zero]

/-- The disk with `ip` written by `iupdate`. -/
def putInode (sb : Superblock) (block : ℕ → Sector) (ip : Inode) : ℕ → Sector :=
  Function.update block (IBLOCK sb ip.inum)
    (overlay (block (IBLOCK sb ip.inum)) (ip.inum % IPB * sizeofDinode) (dinode ip))

/-- Fields read at a multiple of their size. -/
theorem short_overlay (h : 2 * i + 2 ≤ bs.length) :
    unle ((range 2).map fun k => overlay page (r * 64) bs (2 * (r * 32 + i) + k)) =
      unle ((bs.drop (2 * i)).take 2) := by
  rw [← map_overlay page (r * 64) h]
  refine congrArg unle (map_congr_left fun k _ => ?_)
  congr 1
  omega

theorem word_overlay (h : 4 * i + 4 ≤ bs.length) :
    getWord (overlay page (r * 64) bs) (r * 16 + i) = unle ((bs.drop (4 * i)).take 4) := by
  rw [← map_overlay page (r * 64) h]
  refine congrArg unle (map_congr_left fun k _ => ?_)
  congr 1
  omega

/-- What `iupdate` writes is what is read. -/
theorem getInode_putInode (h : Fits ip) : getInode sb (putInode sb block ip) ip.inum = ip := by
  have hlen : (dinode ip).length = 64 := dinode_length ip
  obtain ⟨h0, h1, h2, h3, h4⟩ := dinode_short ip
  simp only [getInode, putInode, Function.update_self, sizeofDinode, reduceDiv]
  rw [short_overlay (by omega), short_overlay (by omega), short_overlay (by omega), short_overlay (by omega),
    word_overlay (by omega), h0, h1, h2, h3, h4]
  simp only [unle_le]
  have ha : (fun k => if k ≤ NDIRECT then
      getWord (overlay (block (IBLOCK sb ip.inum)) (ip.inum % IPB * 64) (dinode ip))
        (ip.inum % IPB * 16 + 3 + k) else 0) = ip.addrs := by
    funext k
    split_ifs with hk
    · rw [add_assoc, word_overlay (by simp only [NDIRECT] at hk; omega), mul_add, dinode_addr ip hk,
        unle_le]
      exact mod_eq_of_lt (h.addrs k)
    · exact (h.rest k (by omega)).symm
  rw [ha]
  cases ip
  simp only [Inode.mk.injEq, true_and, and_true]
  exact ⟨mod_eq_of_lt h.type, mod_eq_of_lt h.major, mod_eq_of_lt h.minor, mod_eq_of_lt h.nlink,
    mod_eq_of_lt h.size⟩

theorem getInode_congr {block' : ℕ → Sector} (h : ∀ j < sizeofDinode,
      block' (IBLOCK sb n) (n % IPB * sizeofDinode + j) = block (IBLOCK sb n) (n % IPB * sizeofDinode + j)) :
    getInode sb block' n = getInode sb block n := by
  have hb : ∀ i, i < sizeofDinode → ∀ x, x = n % IPB * sizeofDinode + i →
      block' (IBLOCK sb n) x = block (IBLOCK sb n) x := by
    rintro i hi x rfl
    exact h i hi
  have h64 : sizeofDinode = 64 := rfl
  rw [h64] at hb
  have hw : ∀ i < 16, getWord (block' (IBLOCK sb n)) (n % IPB * 16 + i) =
      getWord (block (IBLOCK sb n)) (n % IPB * 16 + i) := by
    intro i hi
    refine congrArg unle (map_congr_left fun k hk => ?_)
    have := mem_range.1 hk
    exact hb (4 * i + k) (by omega) _ (by omega)
  have hs : ∀ i < 4, (range 2).map (fun k => block' (IBLOCK sb n) (2 * (n % IPB * 32 + i) + k)) =
      (range 2).map (fun k => block (IBLOCK sb n) (2 * (n % IPB * 32 + i) + k)) := by
    intro i hi
    refine map_congr_left fun k hk => ?_
    have := mem_range.1 hk
    exact hb (2 * i + k) (by omega) _ (by omega)
  have ha : ∀ k, (if k ≤ NDIRECT then getWord (block' (IBLOCK sb n)) (n % IPB * 16 + 3 + k) else 0) =
      if k ≤ NDIRECT then getWord (block (IBLOCK sb n)) (n % IPB * 16 + 3 + k) else 0 := by
    intro k
    split_ifs with hk
    · rw [add_assoc, hw (3 + k) (by simp only [NDIRECT] at hk; omega)]
    · rfl
  simp only [getInode, h64, reduceDiv, hs 0 (by omega), hs 1 (by omega), hs 2 (by omega), hs 3 (by omega),
    hw 2 (by omega), ha]

/-- Writing one inode leaves the others alone. -/
theorem getInode_putInode_ne (h : n ≠ ip.inum) :
    getInode sb (putInode sb block ip) n = getInode sb block n := by
  refine getInode_congr fun j hj => ?_
  unfold putInode
  by_cases hb : IBLOCK sb n = IBLOCK sb ip.inum
  · rw [hb, Function.update_self]
    refine overlay_out ?_
    have hj : j < 64 := hj
    simp only [IBLOCK, show IPB = 8 from rfl] at hb
    simp only [dinode_length, show IPB = 8 from rfl, show sizeofDinode = 64 from rfl]
    omega
  · rw [Function.update_of_ne hb]

theorem unle_short (f : ℕ → UInt8) : unle ((range 2).map f) < 65536 := by
  simpa using unle_lt ((range 2).map f)

theorem getWord_lt (data : Sector) (i : ℕ) : getWord data i < 2 ^ 32 := by
  simpa [getWord] using unle_lt ((range 4).map fun k => data (4 * i + k))

theorem fits_getInode : Fits (getInode sb block n) := by
  constructor <;> simp only [getInode]
  case addrs =>
    intro k
    split_ifs
    · exact getWord_lt _ _
    · exact Nat.two_pow_pos 32
  case rest => exact fun k hk => if_neg (by omega)
  case size => exact getWord_lt _ _
  all_goals exact unle_short _

end Sys

end Xv6

import Xv6.Spec.Fs
import Mathlib.Data.Nat.Bitwise
import Mathlib.Tactic.IntervalCases

/-! Where a file's blocks are. The abstract picture of a file is which disk blocks are in use, the
disk block of each of its blocks (0 for none) and its indirect block; `balloc` and `bmap` are what
they do to that picture. -/

namespace Xv6

open Prog Bytes Function

theorem bitSet_setBit (data : Sector) (i j : ℕ) :
    bitSet (setBit data i) j = (decide (i = j) || bitSet data j) := by
  by_cases hb : i / 8 = j / 8
  · have hlt : (data (i / 8)).toNat ||| 2 ^ (i % 8) < 2 ^ 8 :=
      Nat.or_lt_two_pow (data (i / 8)).toNat_lt (Nat.pow_lt_pow_right (by omega) (by omega))
    have hij : (i % 8 = j % 8) ↔ i = j := by omega
    simp only [bitSet, setBit, ← hb, update_self, UInt8.toNat_ofNat', Nat.one_shiftLeft]
    rw [Nat.mod_eq_of_lt hlt, Nat.testBit_or, Nat.testBit_two_pow, Bool.or_comm]
    simp only [hij]
  · have hne : i ≠ j := by
      rintro rfl
      exact hb rfl
    simp [bitSet, setBit, update_of_ne (Ne.symm hb), hne]

theorem freeBit_eq_some {data : Sector} {sz b n bi r : ℕ} (h : freeBit data sz b n bi = some r) :
    b + r < sz ∧ bitSet data r = false := by
  induction n generalizing bi with
  | zero => simp [freeBit] at h
  | succ n ih =>
    unfold freeBit at h
    split_ifs at h with h1 h2
    · exact ih h
    · obtain rfl : bi = r := by simpa using h
      exact ⟨h1, by simpa using h2⟩

theorem getWord_zero (i : ℕ) : getWord (fun _ => 0) i = 0 := by
  simp [getWord, List.range_succ, unle]

theorem getWord_putWord (data : Sector) (i j v : ℕ) :
    getWord (putWord data i v) j = if i = j then v % 2 ^ 32 else getWord data j := by
  split_ifs with h
  · subst h
    have hmap : (List.range 4).map (fun k => putWord data i v (4 * i + k)) = le 4 v := by
      refine List.ext_getElem (by simp) fun k h1 h2 => ?_
      have hk : k < (le 4 v).length := h2
      rw [List.getElem_map, List.getElem_range, putWord, overlay_in hk, List.getD_eq_getElem?_getD,
        List.getElem?_eq_getElem hk, Option.getD_some]
    rw [getWord, hmap, unle_le]
    rfl
  · refine congrArg unle (List.map_congr_left fun k hk => ?_)
    have hk4 := List.mem_range.mp hk
    rw [putWord, overlay_out]
    simp only [le_length]
    omega

/-! The abstract picture. -/

/-- Blocks in use, the file's blocks and its indirect block; no block serves twice. -/
structure MapOk (used : ℕ → Bool) (addr : ℕ → ℕ) (ind : ℕ) : Prop where
  meta_used : ∀ b < nmeta, used b = true
  addr_ok : ∀ n < MAXFILE, addr n ≠ 0 → nmeta ≤ addr n ∧ addr n < FSSIZE ∧ used (addr n) = true
  inj : ∀ n < MAXFILE, ∀ n' < MAXFILE, addr n = addr n' → addr n ≠ 0 → n = n'
  ind_ok : ind ≠ 0 → nmeta ≤ ind ∧ ind < FSSIZE ∧ used ind = true
  ind_ne : ind ≠ 0 → ∀ n < MAXFILE, addr n ≠ ind

section

variable {used used' : ℕ → Bool} {addr addr' : ℕ → ℕ} {ind b n : ℕ}

theorem MapOk.free_ge (h : MapOk used addr ind) (hb : used b = false) : nmeta ≤ b := by
  by_contra hlt
  simp [h.meta_used b (by omega)] at hb

theorem MapOk.addr_ne_free (h : MapOk used addr ind) (hb : used b = false) (hn : n < MAXFILE)
    (h0 : addr n ≠ 0) : addr n ≠ b := by
  rintro rfl
  simp [(h.addr_ok n hn h0).2.2] at hb

theorem MapOk.congr (h : MapOk used addr ind) (hu : ∀ b < FSSIZE, used' b = used b)
    (ha : ∀ n < MAXFILE, addr' n = addr n) : MapOk used' addr' ind where
  meta_used b hb := by
    rw [hu b (by simp only [nmeta, LOGSIZE, MAXOPBLOCKS, FSSIZE] at *; omega)]
    exact h.meta_used b hb
  addr_ok n hn h0 := by
    rw [ha n hn] at h0 ⊢
    obtain ⟨h1, h2, h3⟩ := h.addr_ok n hn h0
    exact ⟨h1, h2, by rw [hu _ h2]; exact h3⟩
  inj n hn n' hn' heq h0 := by
    rw [ha n hn] at heq h0
    rw [ha n' hn'] at heq
    exact h.inj n hn n' hn' heq h0
  ind_ok h0 := by
    obtain ⟨h1, h2, h3⟩ := h.ind_ok h0
    exact ⟨h1, h2, by rw [hu _ h2]; exact h3⟩
  ind_ne h0 n hn := by
    rw [ha n hn]
    exact h.ind_ne h0 n hn

/-- A free block becomes a block of the file. -/
theorem MapOk.alloc (h : MapOk used addr ind) (hb : used b = false) (hlt : b < FSSIZE)
    (h0 : addr n = 0) : MapOk (update used b true) (update addr n b) ind := by
  have hge := h.free_ge hb
  have hused : ∀ c, used c = true → update used b true c = true := by
    intro c hc
    by_cases hcb : c = b <;> simp [hcb, hc]
  refine ⟨fun c hc => hused c (h.meta_used c hc), ?_, ?_, ?_, ?_⟩
  · intro k hk hk0
    by_cases hkn : k = n
    · subst hkn
      simp [hge, hlt]
    · rw [update_of_ne hkn] at hk0 ⊢
      obtain ⟨h1, h2, h3⟩ := h.addr_ok k hk hk0
      exact ⟨h1, h2, hused _ h3⟩
  · intro k hk k' hk' heq hk0
    by_cases hkn : k = n <;> by_cases hkn' : k' = n
    · rw [hkn, hkn']
    · subst hkn
      simp only [update_self, update_of_ne hkn'] at heq hk0
      exact absurd heq.symm (h.addr_ne_free hb hk' (heq ▸ hk0))
    · subst hkn'
      simp only [update_self, update_of_ne hkn] at heq hk0
      exact absurd heq (h.addr_ne_free hb hk hk0)
    · simp only [update_of_ne hkn, update_of_ne hkn'] at heq hk0
      exact h.inj k hk k' hk' heq hk0
  · intro hi
    obtain ⟨h1, h2, h3⟩ := h.ind_ok hi
    exact ⟨h1, h2, hused _ h3⟩
  · intro hi k hk
    by_cases hkn : k = n
    · subst hkn
      rw [update_self]
      rintro rfl
      simp [(h.ind_ok hi).2.2] at hb
    · rw [update_of_ne hkn]
      exact h.ind_ne hi k hk

/-- A free block becomes the indirect block. -/
theorem MapOk.allocInd (h : MapOk used addr ind) (hb : used b = false) (hlt : b < FSSIZE) :
    MapOk (update used b true) addr b := by
  have hused : ∀ c, used c = true → update used b true c = true := by
    intro c hc
    by_cases hcb : c = b <;> simp [hcb, hc]
  refine ⟨fun c hc => hused c (h.meta_used c hc), ?_, h.inj, fun _ => ⟨h.free_ge hb, hlt, by simp⟩, ?_⟩
  · intro k hk hk0
    obtain ⟨h1, h2, h3⟩ := h.addr_ok k hk hk0
    exact ⟨h1, h2, hused _ h3⟩
  · intro hb0 k hk
    by_cases hk0 : addr k = 0
    · rw [hk0]
      exact hb0.symm
    · exact h.addr_ne_free hb hk hk0

end

/-! The file system's own picture of the file. -/

/-- The block of the bitmap; `mkfs` makes one. -/
def bitmapBlock : ℕ := mkfsSb.bmapstart

def used (s : Fs) (b : ℕ) : Bool := bitSet (s.block bitmapBlock) b

def indOf (s : Fs) : ℕ := s.ip.addrs NDIRECT

/-- The disk block of the file's block `n`. -/
def addrOf (s : Fs) (n : ℕ) : ℕ :=
  if n < NDIRECT then s.ip.addrs n
  else if indOf s = 0 then 0
  else getWord (s.block (indOf s)) (n - NDIRECT)

/-- A file system made by `mkfs`, with a sound file in it. -/
structure FsOk (s : Fs) : Prop where
  sb : s.sb = mkfsSb
  inum : s.ip.inum < mkfsSb.ninodes
  map : MapOk (used s) (addrOf s) (indOf s)

section

variable {s s' : Fs} {b n : ℕ} {R : Fs → Prop} {N : String → Fs → Prop} {Q : Unit → Fs → Prop}

/-- The state after `balloc` has handed out block `b`. -/
def Fs.taken (s : Fs) (b : ℕ) : Fs :=
  { s with
    block := update (update s.block bitmapBlock (setBit (s.block bitmapBlock) b)) b
      (fun _ => 0)
    log := s.log ++ [bitmapBlock, b] }

theorem sat_balloc {Q : ℕ → Fs → Prop} (hsb : s.sb = mkfsSb)
    (hQ : ∀ b, b < FSSIZE → used s b = false → Q b (s.taken b))
    (hN : N "balloc: out of blocks" s) : Sat balloc s Q R N := by
  have hb : BBLOCK mkfsSb 0 = bitmapBlock := by decide
  have hpos : 0 < mkfsSb.size := by decide
  simp only [balloc, sat_bind_eq, sat_get_eq, hsb, ballocLoop, hpos, if_true, bread, sat_pure_eq, hb]
  split
  · rename_i bi hbi
    obtain ⟨hlt, hfree⟩ := freeBit_eq_some hbi
    simp only [Nat.zero_add] at hlt ⊢
    simpa [logWrite, bzero, Fs.taken] using hQ bi hlt hfree
  · exact hN

theorem nmeta_gt_bitmap : bitmapBlock < nmeta := by decide

theorem FsOk.free_ne_bitmap (h : FsOk s) (hb : used s b = false) : b ≠ bitmapBlock := by
  have := h.map.free_ge hb
  have := nmeta_gt_bitmap
  omega

theorem taken_block {c : ℕ} (hb : c ≠ b) (hm : c ≠ bitmapBlock) : (s.taken b).block c = s.block c := by
  simp [Fs.taken, hb, hm]

theorem used_taken (h : FsOk s) (hb : used s b = false) :
    used (s.taken b) = update (used s) b true := by
  have hne := (h.free_ne_bitmap hb).symm
  funext c
  by_cases hcb : c = b
  · simp [used, Fs.taken, update_of_ne hne, bitSet_setBit, hcb]
  · simp [used, Fs.taken, update_of_ne hne, bitSet_setBit, hcb, Ne.symm hcb]

/-- The indirect block keeps its contents when another block is handed out. -/
theorem FsOk.ind_block_taken (h : FsOk s) (hb : used s b = false) (hi : indOf s ≠ 0) :
    (s.taken b).block (indOf s) = s.block (indOf s) := by
  obtain ⟨hge, -, hu⟩ := h.map.ind_ok hi
  have := nmeta_gt_bitmap
  refine taken_block ?_ (by omega)
  rintro hib
  rw [hib, hb] at hu
  cases hu

/-- `ip->addrs[k] = b` -/
def Fs.withAddr (s : Fs) (k b : ℕ) : Fs :=
  { s with ip := { s.ip with addrs := update s.ip.addrs k b } }

/-- A direct block is allocated. -/
theorem FsOk.direct (h : FsOk s) (hn : n < NDIRECT) (h0 : addrOf s n = 0) (hb : used s b = false)
    (hlt : b < FSSIZE) : FsOk ((s.taken b).withAddr n b) ∧
      (∀ k, addrOf ((s.taken b).withAddr n b) k = update (addrOf s) n b k) ∧
      indOf ((s.taken b).withAddr n b) = indOf s := by
  have hind : indOf ((s.taken b).withAddr n b) = indOf s := by
    simp [indOf, Fs.withAddr, Fs.taken, update_of_ne (show NDIRECT ≠ n by omega)]
  have haddr : ∀ k, addrOf ((s.taken b).withAddr n b) k = update (addrOf s) n b k := by
    intro k
    by_cases hkn : k = n
    · subst hkn
      simp [addrOf, hn, Fs.withAddr]
    · rw [update_of_ne hkn]
      unfold addrOf
      rw [hind]
      split_ifs with h1 h2
      · simp [Fs.withAddr, Fs.taken, hkn]
      · rfl
      · rw [show ((s.taken b).withAddr n b).block = (s.taken b).block from rfl,
          h.ind_block_taken hb h2]
  refine ⟨⟨h.sb, h.inum, ?_⟩, haddr, hind⟩
  rw [hind]
  refine (h.map.alloc hb hlt h0).congr (fun c _ => ?_) (fun k _ => haddr k)
  exact congrFun (used_taken h hb) c

/-- The indirect block is allocated; it is zeroed, so the file's blocks are what they were. -/
theorem FsOk.indirect (h : FsOk s) (hi : indOf s = 0) (hb : used s b = false) (hlt : b < FSSIZE) :
    FsOk ((s.taken b).withAddr NDIRECT b) ∧
      (∀ k, addrOf ((s.taken b).withAddr NDIRECT b) k = addrOf s k) ∧
      indOf ((s.taken b).withAddr NDIRECT b) = b := by
  have hind : indOf ((s.taken b).withAddr NDIRECT b) = b := by simp [indOf, Fs.withAddr]
  have haddr : ∀ k, addrOf ((s.taken b).withAddr NDIRECT b) k = addrOf s k := by
    intro k
    unfold addrOf
    rw [hind, hi, if_pos rfl]
    split_ifs with h1 h2
    · simp [Fs.withAddr, Fs.taken, show k ≠ NDIRECT by omega]
    · rfl
    · rw [show ((s.taken b).withAddr NDIRECT b).block b = fun _ => 0 by simp [Fs.withAddr, Fs.taken]]
      exact getWord_zero _
  refine ⟨⟨h.sb, h.inum, ?_⟩, haddr, hind⟩
  rw [hind]
  refine (h.map.allocInd hb hlt).congr (fun c _ => ?_) (fun k _ => haddr k)
  exact congrFun (used_taken h hb) c

/-- Block `b` of the disk gets new contents and is logged. -/
def Fs.logged (s : Fs) (b : ℕ) (data : Sector) : Fs :=
  { s with block := update s.block b data, log := s.log ++ [b] }

theorem sat_setAddr {k : ℕ} : Sat (setAddr k b) s Q R N = Q () (s.withAddr k b) := rfl

theorem sat_logWrite {data : Sector} : Sat (logWrite b data) s Q R N = Q () (s.logged b data) := rfl

/-- A block behind the indirect block is allocated. -/
theorem FsOk.entry (h : FsOk s) (hi : indOf s ≠ 0) (hn : n < MAXFILE) (hd : NDIRECT ≤ n)
    (h0 : addrOf s n = 0) (hb : used s b = false) (hlt : b < FSSIZE) :
    let t := (s.taken b).logged (indOf s) (putWord (s.block (indOf s)) (n - NDIRECT) b)
    FsOk t ∧ (∀ k < MAXFILE, addrOf t k = update (addrOf s) n b k) ∧ indOf t = indOf s := by
  intro t
  have hind : indOf t = indOf s := rfl
  obtain ⟨hge, -, -⟩ := h.map.ind_ok hi
  have hmeta := nmeta_gt_bitmap
  have hb32 : b % 2 ^ 32 = b := Nat.mod_eq_of_lt (by simp only [FSSIZE] at hlt; omega)
  have haddr : ∀ k < MAXFILE, addrOf t k = update (addrOf s) n b k := by
    intro k hk
    have hblk : t.block (indOf s) = putWord (s.block (indOf s)) (n - NDIRECT) b := by
      simp [t, Fs.logged]
    unfold addrOf
    rw [hind, hblk, getWord_putWord, hb32]
    by_cases hkn : k = n
    · subst hkn
      rw [if_neg (by omega), if_neg hi, if_pos rfl, update_self]
    · rw [update_of_ne hkn]
      split_ifs with h1 h2
      · rfl
      · omega
      · rfl
  refine ⟨⟨h.sb, h.inum, ?_⟩, haddr, hind⟩
  rw [hind]
  refine (h.map.alloc hb hlt h0).congr (fun c _ => ?_) haddr
  have hu : used t = used (s.taken b) := by
    funext c
    simp [used, t, Fs.logged, update_of_ne (show bitmapBlock ≠ indOf s by omega)]
  rw [hu, used_taken h hb]

/-- A block of the file gets new contents. -/
theorem FsOk.write (h : FsOk s) (hn : n < MAXFILE) (ha : addrOf s n = b) (h0 : b ≠ 0)
    (data : Sector) : FsOk (s.logged b data) ∧ (∀ k, addrOf (s.logged b data) k = addrOf s k) ∧
      indOf (s.logged b data) = indOf s := by
  obtain ⟨hge, -, -⟩ := h.map.addr_ok n hn (ha ▸ h0)
  rw [ha] at hge
  have hmeta := nmeta_gt_bitmap
  have hind : indOf (s.logged b data) = indOf s := rfl
  have haddr : ∀ k, addrOf (s.logged b data) k = addrOf s k := by
    intro k
    unfold addrOf
    rw [hind]
    split_ifs with h1 h2
    · rfl
    · rfl
    · have hne : indOf s ≠ b := ha ▸ (h.map.ind_ne h2 n hn).symm
      rw [show (s.logged b data).block (indOf s) = s.block (indOf s) by simp [Fs.logged, hne]]
  refine ⟨⟨h.sb, h.inum, ?_⟩, haddr, hind⟩
  rw [hind]
  refine h.map.congr (fun c _ => ?_) (fun k _ => haddr k)
  simp [used, Fs.logged, update_of_ne (show bitmapBlock ≠ b by omega)]

end

end Xv6

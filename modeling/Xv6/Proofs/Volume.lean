import Xv6.Lib.Owner
import Xv6.Proofs.Dinode

/-! The disk as a whole: which inode has which block. A place is an inode and a position in it; the
position `MAXFILE` is that of the indirect block. -/

namespace Xv6

/-- The layout: inodes before the bitmap, and inode numbers that a directory entry can hold. -/
structure Superblock.Ok (sb : Superblock) : Prop where
  inodes : sb.inodestart + sb.ninodes / IPB < sb.bmapstart
  ninodes : sb.ninodes ≤ 65536
  size : sb.size ≤ 2 ^ 32

/-- The first data block. -/
def Superblock.data (sb : Superblock) : ℕ := sb.bmapstart + sb.size / BPB + 1

def Superblock.has (sb : Superblock) (n : ℕ) : Prop := 1 ≤ n ∧ n < sb.ninodes

instance (sb : Superblock) (n : ℕ) : Decidable (sb.has n) := inferInstanceAs (Decidable (_ ∧ _))

theorem mkfsSb_ok : mkfsSb.Ok := ⟨by decide, by decide, by decide⟩

theorem mkfsSb_data : mkfsSb.data = nmeta := by decide

/-- The disk block at a position of an inode, 0 for none. -/
def Inode.bno (ip : Inode) (block : ℕ → Sector) (m : ℕ) : ℕ :=
  if m < NDIRECT then ip.addrs m
  else if m = MAXFILE then ip.addrs NDIRECT
  else if ip.addrs NDIRECT = 0 then 0
  else getWord (block (ip.addrs NDIRECT)) (m - NDIRECT)

namespace Sys

open Prog Bytes Owner

/-- The bitmap -/
def bit (sb : Superblock) (block : ℕ → Sector) (b : ℕ) : Bool := bitSet (block (BBLOCK sb b)) (b % BPB)

/-- The block at a place: only inodes in use have blocks. -/
def place (sb : Superblock) (block : ℕ → Sector) (tab : ℕ → Inode) (q : ℕ × ℕ) : ℕ :=
  if (sb.has q.1 ∧ (tab q.1).type ≠ 0) ∧ q.2 ≤ MAXFILE then (tab q.1).bno block q.2 else 0

/-- Each data block in use has one place. -/
structure Own (sb : Superblock) (block : ℕ → Sector) (tab : ℕ → Inode) : Prop where
  layout : sb.Ok
  exact : Exact sb.data sb.size (bit sb block) (place sb block tab)
  low : ∀ b < sb.data, b < sb.size → bit sb block b = true

section Static

variable {sb : Superblock} {block block' : ℕ → Sector} {tab tab' : ℕ → Inode} {ip ip' : Inode} {n m k a b c : ℕ}

theorem NDIRECT_lt_MAXFILE : NDIRECT < MAXFILE := by decide

theorem bno_direct (hm : m < NDIRECT) : ip.bno block m = ip.addrs m := by simp [Inode.bno, hm]

theorem bno_ind : ip.bno block MAXFILE = ip.addrs NDIRECT := by
  simp [Inode.bno, Nat.not_lt.2 NDIRECT_lt_MAXFILE.le]

theorem bno_indirect (h1 : NDIRECT ≤ m) (h2 : m < MAXFILE) (h0 : ip.addrs NDIRECT ≠ 0) :
    ip.bno block m = getWord (block (ip.addrs NDIRECT)) (m - NDIRECT) := by
  simp [Inode.bno, Nat.not_lt.2 h1, h2.ne, h0]

theorem bno_no_ind (h1 : NDIRECT ≤ m) (h0 : ip.addrs NDIRECT = 0) : ip.bno block m = 0 := by
  unfold Inode.bno
  split_ifs with h2
  · omega
  · exact h0
  · rfl

theorem bno_congr (ha : ip'.addrs = ip.addrs)
    (hb : ip.addrs NDIRECT ≠ 0 → block' (ip.addrs NDIRECT) = block (ip.addrs NDIRECT)) :
    ip'.bno block' m = ip.bno block m := by
  unfold Inode.bno
  rw [ha]
  split_ifs with h1 h2 h3
  · rfl
  · rfl
  · rfl
  · rw [hb h3]

theorem iblock_lt (h : sb.Ok) (hn : sb.has n) : IBLOCK sb n < sb.bmapstart := by
  have h1 := h.inodes
  have h2 : n / IPB ≤ sb.ninodes / IPB := Nat.div_le_div_right hn.2.le
  unfold IBLOCK
  omega

theorem bblock_ge (b : ℕ) : sb.bmapstart ≤ BBLOCK sb b := Nat.le_add_left _ _

theorem bblock_lt (hb : b < sb.size) : BBLOCK sb b < sb.data := by
  have : b / BPB ≤ sb.size / BPB := Nat.div_le_div_right hb.le
  unfold BBLOCK Superblock.data
  omega

theorem bit_congr (hb : b < sb.size) (h : ∀ c, sb.bmapstart ≤ c → c < sb.data → block' c = block c) :
    bit sb block' b = bit sb block b := by
  unfold bit
  rw [h _ (bblock_ge b) (bblock_lt hb)]

theorem bmapstart_lt_data (sb : Superblock) : sb.bmapstart < sb.data :=
  Nat.lt_succ_of_le (Nat.le_add_right _ _)

theorem getInode_same (h : sb.Ok) (hn : sb.has n) (hb : ∀ c < sb.bmapstart, block' c = block c) :
    getInode sb block' n = getInode sb block n :=
  getInode_congr fun j _ => by rw [hb _ (iblock_lt h hn)]

theorem place_eq (hn : sb.has n) (ht : (tab n).type ≠ 0) (hm : m ≤ MAXFILE) :
    place sb block tab (n, m) = (tab n).bno block m := if_pos ⟨⟨hn, ht⟩, hm⟩

theorem place_congr {q : ℕ × ℕ} (ht : sb.has q.1 → (tab' q.1).type = (tab q.1).type)
    (hb : sb.has q.1 → (tab q.1).type ≠ 0 → q.2 ≤ MAXFILE →
      (tab' q.1).bno block' q.2 = (tab q.1).bno block q.2) :
    place sb block' tab' q = place sb block tab q := by
  unfold place
  by_cases hq : (sb.has q.1 ∧ (tab q.1).type ≠ 0) ∧ q.2 ≤ MAXFILE
  · rw [if_pos hq, if_pos ⟨⟨hq.1.1, by rw [ht hq.1.1]; exact hq.1.2⟩, hq.2⟩, hb hq.1.1 hq.1.2 hq.2]
  · rw [if_neg hq, if_neg]
    rintro ⟨⟨h1, h2⟩, h3⟩
    exact hq ⟨⟨h1, by rwa [ht h1] at h2⟩, h3⟩

theorem Own.range (h : Own sb block tab) (hn : sb.has n) (ht : (tab n).type ≠ 0) (hm : m ≤ MAXFILE)
    (h0 : (tab n).bno block m ≠ 0) : sb.data ≤ (tab n).bno block m ∧ (tab n).bno block m < sb.size ∧
      bit sb block ((tab n).bno block m) = true := by
  have hp : place sb block tab (n, m) = (tab n).bno block m := place_eq hn ht hm
  rw [← hp] at h0 ⊢
  exact h.exact.range _ h0

theorem Own.inj (h : Own sb block tab) {n' m' : ℕ} (hn : sb.has n) (ht : (tab n).type ≠ 0) (hm : m ≤ MAXFILE)
    (hn' : sb.has n') (ht' : (tab n').type ≠ 0) (hm' : m' ≤ MAXFILE)
    (he : (tab n).bno block m = (tab n').bno block m') (h0 : (tab n).bno block m ≠ 0) : n = n' ∧ m = m' := by
  have hp : place sb block tab (n, m) = (tab n).bno block m := place_eq hn ht hm
  have hp' : place sb block tab (n', m') = (tab n').bno block m' := place_eq hn' ht' hm'
  rw [← hp, ← hp'] at he
  rw [← hp] at h0
  exact Prod.mk.inj (h.exact.inj _ _ he h0)

theorem Own.free_ge (h : Own sb block tab) (ha : a < sb.size) (hb : bit sb block a = false) : sb.data ≤ a := by
  by_contra hlt
  rw [h.low a (by omega) ha] at hb
  cases hb

end Static

/-! One inode is in memory. -/

/-- The inodes, with the one in memory in place of its copy on disk. -/
def tab (s : Fs) (n : ℕ) : Inode := if n = s.ip.inum then s.ip else getInode s.sb s.block n

structure Ready (s : Fs) : Prop where
  own : Own s.sb s.block (tab s)
  has : s.sb.has s.ip.inum
  type : s.ip.type ≠ 0
  fits : Fits s.ip

def roomOf (s : Fs) : ℕ := room s.sb.size (bit s.sb s.block)

/-- What work on one inode leaves alone: the other inodes and their blocks. -/
structure Touch (s s' : Fs) : Prop where
  sb : s'.sb = s.sb
  inum : s'.ip.inum = s.ip.inum
  tab : ∀ n, s.sb.has n → n ≠ s.ip.inum → getInode s.sb s'.block n = getInode s.sb s.block n
  data : ∀ n, s.sb.has n → n ≠ s.ip.inum → (getInode s.sb s.block n).type ≠ 0 → ∀ m ≤ MAXFILE,
    (getInode s.sb s.block n).bno s.block m ≠ 0 →
      s'.block ((getInode s.sb s.block n).bno s.block m) = s.block ((getInode s.sb s.block n).bno s.block m)

section Touch

variable {s s' s'' : Fs} {n m : ℕ}

theorem tab_self : tab s s.ip.inum = s.ip := if_pos rfl

theorem tab_ne (h : n ≠ s.ip.inum) : tab s n = getInode s.sb s.block n := if_neg h

theorem Touch.refl : Touch s s := ⟨rfl, rfl, fun _ _ _ => rfl, fun _ _ _ _ _ _ _ => rfl⟩

/-- The blocks of another inode are where they were. -/
theorem Touch.bno (h : Touch s s') (hn : s.sb.has n) (hne : n ≠ s.ip.inum)
    (ht : (getInode s.sb s.block n).type ≠ 0) :
    (getInode s.sb s.block n).bno s'.block m = (getInode s.sb s.block n).bno s.block m := by
  refine bno_congr rfl fun h0 => ?_
  have hd := h.data n hn hne ht MAXFILE le_rfl (by rwa [bno_ind])
  rwa [bno_ind] at hd

theorem Touch.trans (h : Touch s s') (h' : Touch s' s'') : Touch s s'' where
  sb := h'.sb.trans h.sb
  inum := h'.inum.trans h.inum
  tab n hn hne := by
    have h2 := h'.tab n (by rwa [h.sb]) (by rwa [h.inum])
    rw [h.sb] at h2
    exact h2.trans (h.tab n hn hne)
  data n hn hne ht m hm h0 := by
    have h2 := h'.data n (by rwa [h.sb]) (by rwa [h.inum])
    rw [h.sb, h.tab n hn hne] at h2
    have h3 := h2 ht m hm
    rw [h.bno hn hne ht] at h3
    exact (h3 h0).trans (h.data n hn hne ht m hm h0)

end Touch

end Sys

end Xv6

import Xv6.Proofs.FsRuns
import Xv6.Proofs.LogSpace

/-! The contents of an inode are an array of bytes: what `readi` returns and what `writei` leaves,
block boundaries, indirect blocks and allocation apart. -/

namespace Xv6.Sys

open Prog Bytes Owner List

variable {s s' : Fs} {x : Node} {src : ℕ → UInt8} {off n m : ℕ}

/-- The contents of a node. -/
def Node.bytes (x : Node) : List UInt8 := (range x.size).map x.data

/-- The contents of inode `n`, as they are on disk. -/
def bytesOf (s : Fs) (n : ℕ) : List UInt8 := ((getInode s.sb s.block n).node s.block).bytes

/-- A file system with a locked inode: each block in use has one owner, no block of a file is missing, and the
copy of the inode in memory is the one on disk. -/
structure WellFormed (s : Fs) : Prop where
  own : Own s.sb s.block (getInode s.sb s.block)
  cover : ∀ n, s.sb.has n → (getInode s.sb s.block n).type ≠ 0 → (getInode s.sb s.block n).type ≠ T_DEV →
    Cover (getInode s.sb s.block n) s.block
  has : s.sb.has s.ip.inum
  ip : getInode s.sb s.block s.ip.inum = s.ip
  used : s.ip.type ≠ 0

/-! ### Nodes -/

@[simp] theorem Node.length_bytes : x.bytes.length = x.size := by simp [Node.bytes]

theorem Node.bytes_getElem? (x : Node) (j : ℕ) : x.bytes[j]? = if j < x.size then some (x.data j) else none := by
  unfold Node.bytes
  by_cases hj : j < x.size
  · simp [hj]
  · simp [hj]

/-- Bytes written at `off` replace those that were there, and may go beyond the end. -/
theorem Node.bytes_write (h : off ≤ x.size) :
    (x.write src off n).bytes = x.bytes.take off ++ (range n).map src ++ x.bytes.drop (off + n) := by
  apply ext_getElem?
  intro j
  rw [Node.bytes_getElem?]
  have hlen : (x.bytes.take off).length = off := by simp [h]
  have hmid : ((range n).map src).length = n := by simp
  rw [append_assoc, getElem?_append, hlen, getElem?_append, hmid, getElem?_drop, getElem?_take,
    Node.bytes_getElem?, Node.bytes_getElem?]
  have hsize : (x.write src off n).size = max x.size (off + n) := rfl
  have hdata : (x.write src off n).data j = if off ≤ j ∧ j < off + n then src (j - off) else x.data j := rfl
  rw [hsize, hdata]
  by_cases h1 : j < off
  · have hj : j < x.size := by omega
    have hout : ¬ (off ≤ j ∧ j < off + n) := by omega
    simp [h1, hj, hout]
  · by_cases h2 : j - off < n
    · have hmax : j < max x.size (off + n) := by omega
      have hin : off ≤ j ∧ j < off + n := by omega
      simp [h1, h2, hmax, hin]
    · have hj : off + n + (j - off - n) = j := by omega
      have hout : ¬ (off ≤ j ∧ j < off + n) := by omega
      have hmax : j < max x.size (off + n) ↔ j < x.size := by omega
      rw [hj, if_neg h1, if_neg h2, if_neg hout]
      simp only [hmax]

/-- `off + n` does not fit into 32 bits exactly when the sum is below `off`. -/
theorem u32_wraps (hoff : off < 2 ^ 32) (hn : n < 2 ^ 32) : u32 (off + n) < off ↔ 2 ^ 32 ≤ off + n := by
  unfold u32
  omega

theorem WellFormed.tab (h : WellFormed s) : tab s = getInode s.sb s.block := by
  funext m
  by_cases hm : m = s.ip.inum
  · rw [hm, tab_self, h.ip]
  · exact tab_ne hm

theorem WellFormed.ready (h : WellFormed s) : Ready s := by
  refine ⟨?_, h.has, h.used, ?_⟩
  · rw [h.tab]
    exact h.own
  · rw [← h.ip]
    exact fits_getInode

theorem WellFormed.cover_ip (h : WellFormed s) (hd : s.ip.type ≠ T_DEV) : Cover s.ip s.block := by
  have hc := h.cover s.ip.inum h.has
  rw [h.ip] at hc
  exact hc h.used hd

theorem WellFormed.node (h : WellFormed s) : (getInode s.sb s.block s.ip.inum).node s.block = s.ip.node s.block := by
  rw [h.ip]

/-- Inodes other than the one written have the contents they had. -/
theorem WellFormed.others (h : WellFormed s) (ht : Touch s s') (hm : s.sb.has m) (hne : m ≠ s.ip.inum) :
    (getInode s'.sb s'.block m).node s'.block = (getInode s.sb s.block m).node s.block := by
  rw [ht.sb]
  exact ht.node hm hne (h.cover m hm)

/-- A write leaves a file system as it should be. -/
theorem WellFormed.written (h : WellFormed s) (hw : Written s src off n s') : WellFormed s' := by
  have hsb := hw.touch.sb
  have hin := hw.touch.inum
  have hip : getInode s'.sb s'.block s'.ip.inum = s'.ip := by
    rw [hsb, hin]
    exact hw.disk
  have htab : Sys.tab s' = getInode s'.sb s'.block := by
    funext m
    by_cases hm : m = s'.ip.inum
    · rw [hm, tab_self, hip]
    · exact tab_ne hm
  refine ⟨htab ▸ hw.ready.own, fun m hm h0 hd => ?_, hw.ready.has, hip, hw.ready.type⟩
  by_cases hne : m = s'.ip.inum
  · rw [hne, hip]
    exact hw.cover
  · rw [hsb] at hm h0 hd ⊢
    rw [hin] at hne
    have hold := hw.touch.tab m hm hne
    rw [hold] at h0 hd ⊢
    have hc := h.cover m hm h0 hd
    refine ⟨hc.size, fun p hp => ?_⟩
    rw [hw.touch.bno hm hne h0]
    exact hc.full p hp

/-- What `writei` does not start to do. -/
theorem refuses_iff (h : s.ip.type ≠ 0) (hoff : off < 2 ^ 32) (hn : n < 2 ^ 32) :
    (s.ip.node s.block).refuses off n ↔ s.ip.size < off ∨ 2 ^ 32 ≤ off + n ∨ MAXFILE * BSIZE < off + n := by
  have hmax : MAXFILE * BSIZE = 71680 := rfl
  unfold Node.refuses
  rw [node_size h, u32_wraps hoff hn, hmax]
  unfold u32
  omega

theorem WellFormed.log (h : WellFormed s) (l : List ℕ) : WellFormed { s with log := l } :=
  ⟨h.own, h.cover, h.has, h.ip, h.used⟩

/-- `writei` replaces bytes of one inode, and other inodes keep theirs. Only a full disk stops a write halfway. -/
theorem WellFormed.sat_writei (h : WellFormed s) (hd : s.ip.type ≠ T_DEV) (dev : Inode → ℕ → ℤ) (src : ℕ → UInt8)
    (hoff : off < 2 ^ 32) (hn : n < 2 ^ 32) :
    Sat (writei dev src off n) s
      (fun r s' => WellFormed s' ∧ s'.ip.inum = s.ip.inum ∧
        (∀ m, s.sb.has m → m ≠ s.ip.inum → bytesOf s' m = bytesOf s m) ∧
        if s.ip.size < off ∨ 2 ^ 32 ≤ off + n ∨ MAXFILE * BSIZE < off + n then r = -1 ∧ s' = s
        else r = n ∧ s'.ip.size = max s.ip.size (off + n) ∧
          (getInode s'.sb s'.block s.ip.inum).size = max s.ip.size (off + n) ∧
          bytesOf s' s.ip.inum = (bytesOf s s.ip.inum).take off ++ (range n).map src ++
            (bytesOf s s.ip.inum).drop (off + n))
      (fun _ => False) (fun msg _ => msg = "balloc: out of blocks" ∧ roomOf s < 2 * spans off n) := by
  have hbytes : bytesOf s s.ip.inum = (s.ip.node s.block).bytes := congrArg Node.bytes h.node
  have hsize := @node_size s.ip s.block h.used
  have hrefuse := refuses_iff h.used hoff hn
  refine Sys.sat_writei h.ready (fun _ => h.cover_ip hd) h.ip hn (fun ht => absurd ht hd) (fun _ hr => ?_)
    (fun _ hr s' hw => ?_) (fun hroom _ => ⟨rfl, hroom⟩)
  · rw [hrefuse] at hr
    rw [if_pos hr]
    exact ⟨h, rfl, fun _ _ _ => rfl, rfl, rfl⟩
  · have hin := hw.touch.inum
    have hwf := h.written hw
    have hmem : s'.ip.size = max s.ip.size (off + n) := by
      rw [← @node_size s'.ip s'.block hwf.used, hw.node, ← hsize]
      rfl
    have hle : off ≤ (s.ip.node s.block).size := by
      rw [hrefuse] at hr
      rw [hsize]
      omega
    refine ⟨hwf, hin, fun m hm hne => congrArg Node.bytes (h.others hw.touch hm hne), ?_⟩
    rw [if_neg (hrefuse.not.1 hr)]
    refine ⟨rfl, hmem, ?_, ?_⟩
    · rw [← hin, hwf.ip]
      exact hmem
    · rw [hbytes, ← Node.bytes_write hle, ← hw.node, ← hin]
      exact congrArg Node.bytes hwf.node

/-- The log when an operation has begun. -/
def begun : Log := { start := 2, size := LOGSIZE, outstanding := 1 }

end Xv6.Sys

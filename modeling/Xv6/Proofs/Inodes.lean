import Xv6.Spec.Node
import Xv6.Proofs.Contents
import Mathlib.Data.Multiset.AddSub
import Mathlib.Data.Multiset.Count
import Mathlib.Data.Finset.Image

/-! The kernel's state in the middle of a system call, seen as nodes. `View` is what it comes to: the
nodes, who points to which inode, and what the call itself holds for now; `St` says that a state of
the kernel looks like that. Each operation on the inode cache then has one rule. -/

namespace Xv6.Sys

open Prog Bytes Owner Function Nat
open Finset (mem_filter)
open Multiset (count_pos mem_map mem_cons mem_cons_self mem_cons_of_mem)

/-- Directories hold whole entries, and name nodes of the disk. -/
def Node.DirOk (sb : Superblock) (x : Node) : Prop :=
  x.type = T_DIR → x.size % sizeofDirent = 0 ∧
    ∀ j, sizeofDirent * j < x.size → (x.ent j).inum ≠ 0 → sb.has (x.ent j).inum

structure View where
  sb : Superblock
  file : ℕ → File
  proc : ℕ → FProc
  pipe : ℕ → Option Pipe
  outstanding : ℕ
  node : ℕ → Node
  /-- how many files and processes point to a slot of the inode cache -/
  user : ℕ → ℕ
  /-- the inode in a slot that files or processes point to -/
  num : ℕ → ℕ
  /-- the references that the call has taken: slot and inode -/
  tmp : Multiset (ℕ × ℕ)
  locks : Finset ℕ
  /-- the inodes that may be left without link and without user for now -/
  loose : Finset ℕ
  /-- so many blocks are free, or more -/
  room : ℕ

/-- The references of the call to slot `i`. -/
def View.mine (v : View) (i : ℕ) : ℕ := (v.tmp.map Prod.fst).count i

/-- What the blocks of the disk come to. -/
structure Disk (sb : Superblock) (node : ℕ → Node) (r : ℕ) (block : ℕ → Sector) : Prop where
  own : Own sb block (getInode sb block)
  cover : ∀ n, sb.has n → (getInode sb block n).type ≠ 0 → (getInode sb block n).type ≠ T_DEV →
    Cover (getInode sb block n) block
  room : r ≤ room sb.size (bit sb block)
  nodes : ∀ n, sb.has n → (getInode sb block n).node block = node n
  dirs : ∀ n, sb.has n → (node n).DirOk sb

structure St (v : View) (k : Fsys) : Prop where
  sb : k.sb = v.sb
  file : k.file = v.file
  proc : k.proc = v.proc
  pipe : k.pipe = v.pipe
  outstanding : k.outstanding = v.outstanding
  disk : Disk v.sb v.node v.room k.block
  ref : ∀ i, (k.icache i).ref = v.user i + v.mine i
  lt : ∀ i, 0 < (k.icache i).ref → i < NINODE
  lock : ∀ i, (k.icache i).locked = true ↔ i ∈ v.locks
  dev : ∀ i, 0 < (k.icache i).ref → (k.icache i).dev = ROOTDEV ∧ v.sb.has (k.icache i).ip.inum
  inj : ∀ i j, 0 < (k.icache i).ref → 0 < (k.icache j).ref → (k.icache i).ip.inum = (k.icache j).ip.inum → i = j
  tmp : ∀ q ∈ v.tmp, (k.icache q.1).ip.inum = q.2
  user : ∀ i, 0 < v.user i → (k.icache i).ip.inum = v.num i ∧ (v.node (v.num i)).type ≠ 0
  valid : ∀ i, 0 < (k.icache i).ref → (k.icache i).valid = true →
    (k.icache i).ip = getInode v.sb k.block (k.icache i).ip.inum ∧ (v.node (k.icache i).ip.inum).type ≠ 0
  held : ∀ i ∈ v.locks, 0 < (k.icache i).ref ∧ (k.icache i).valid = true
  kept : ∀ n, v.sb.has n → (v.node n).type ≠ 0 → (v.node n).nlink = 0 →
    ∃ i, 0 < (k.icache i).ref ∧ (k.icache i).ip.inum = n ∧ (k.icache i).valid = true ∧ (n ∉ v.loose → 0 < v.user i)

section Disk

variable {sb : Superblock} {nd : ℕ → Node} {r r' n : ℕ} {block : ℕ → Sector} {s s' : Fs}

/-- Another inode is what it was, with its blocks. -/
theorem Touch.node (h : Touch s s') (hn : s.sb.has n) (hne : n ≠ s.ip.inum)
    (hc : (getInode s.sb s.block n).type ≠ 0 → (getInode s.sb s.block n).type ≠ T_DEV →
      Cover (getInode s.sb s.block n) s.block) :
    (getInode s.sb s'.block n).node s'.block = (getInode s.sb s.block n).node s.block := by
  rw [h.tab n hn hne]
  unfold Inode.node
  split_ifs with h0
  · rfl
  · refine congrArg (Node.mk _ _ _ _ _) (funext fun x => ?_)
    split_ifs with hx
    · have hcov := hc h0 hx.2
      have hM : x / BSIZE < MAXFILE :=
        (div_lt_iff_lt_mul (by decide)).2 (lt_of_lt_of_le hx.1 hcov.size)
      rw [h.bno hn hne h0, h.data n hn hne h0 _ hM.le
        (hcov.full _ (lt_of_le_of_lt (div_mul_le_self x BSIZE) hx.1))]
    · rfl

/-- Work on inode `n` that leaves the others alone. -/
theorem Disk.touch {y : Node} (h : Disk sb nd r s.block) (ht : Touch s s') (hsb : s.sb = sb)
    (hn : s.ip.inum = n) (hown : Own sb s'.block (getInode sb s'.block))
    (hcov : (getInode sb s'.block n).type ≠ 0 → (getInode sb s'.block n).type ≠ T_DEV →
      Cover (getInode sb s'.block n) s'.block)
    (hy : (getInode sb s'.block n).node s'.block = y) (hdir : y.DirOk sb)
    (hroom : r' ≤ Owner.room sb.size (bit sb s'.block)) : Disk sb (update nd n y) r' s'.block := by
  subst hsb hn
  refine ⟨hown, fun m hm h0 hd => ?_, hroom, fun m hm => ?_, fun m hm => ?_⟩ <;> by_cases hmn : m = s.ip.inum
  · subst hmn
    exact hcov h0 hd
  · rw [ht.tab m hm hmn] at h0 hd ⊢
    have hc := h.cover m hm h0 hd
    exact ⟨hc.size, fun p hp => by rw [ht.bno hm hmn h0]; exact hc.full p hp⟩
  · rw [hmn, update_self, hy]
  · rw [update_of_ne hmn, ← h.nodes m hm, ht.node hm hmn (h.cover m hm)]
  · rw [hmn, update_self]
    exact hdir
  · rw [update_of_ne hmn]
    exact h.dirs m hm

/-- An inode without blocks is written over one that has none. -/
theorem Disk.rewrite {x : Inode} (h : Disk sb nd r block) (hn : sb.has x.inum) (hfits : Fits x)
    (hsize : x.size = 0) (ha : ∀ k, x.addrs k = 0)
    (hold : (getInode sb block x.inum).type = 0 ∨ ∀ m, (getInode sb block x.inum).bno block m = 0) :
    Disk sb (update nd x.inum (x.node block)) r (putInode sb block x) := by
  have hself : getInode sb (putInode sb block x) x.inum = x := getInode_putInode hfits
  have hblk : ∀ c, sb.bmapstart ≤ c → putInode sb block x c = block c := by
    intro c hc
    have := iblock_lt h.own.layout hn
    exact update_of_ne (by omega) _ _
  have hmid := bmapstart_lt_data sb
  have hbno0 : ∀ B m, x.bno B m = 0 := fun B m => by simp [Inode.bno, ha]
  -- as work on the inode in memory
  have ht : Touch ⟨sb, block, x, []⟩ ⟨sb, putInode sb block x, x, []⟩ := by
    refine ⟨rfl, rfl, fun m _ hne => getInode_putInode_ne hne, fun m hm hne h0 p hp hb => hblk _ ?_⟩
    exact hmid.le.trans (h.own.range hm h0 hp hb).1
  have hbit : ∀ c < sb.size, bit sb (putInode sb block x) c = bit sb block c := fun c hc =>
    bit_congr hc fun y hy _ => hblk y hy
  have hplace : ∀ q, place sb (putInode sb block x) (getInode sb (putInode sb block x)) q =
      place sb block (getInode sb block) q := by
    rintro ⟨m, p⟩
    by_cases hmn : m = x.inum
    · subst hmn
      have h1 : place sb (putInode sb block x) (getInode sb (putInode sb block x)) (x.inum, p) = 0 := by
        rw [place, hself, hbno0, ite_self]
      have h2 : place sb block (getInode sb block) (x.inum, p) = 0 := by
        rcases hold with hold | hold
        · rw [place, if_neg (by simp [hold])]
        · rw [place, hold, ite_self]
      rw [h1, h2]
    · refine place_congr (fun hm => by rw [ht.tab m hm hmn]) fun hm h0 _ => ?_
      rw [ht.tab m hm hmn]
      exact ht.bno hm hmn h0
  refine h.touch ht rfl rfl ⟨h.own.layout, h.own.exact.congr (fun c _ hc => hbit c hc) hplace, fun c hc hcs => ?_⟩
    (fun _ _ => ?_) ?_ ?_ ?_
  · rw [hbit c hcs]
    exact h.own.low c hc hcs
  · rw [hself]
    exact ⟨by rw [hsize]; exact zero_le _, fun m hm => by rw [hsize] at hm; exact absurd hm (not_lt_zero _)⟩
  · rw [hself]
    unfold Inode.node
    simp only [hsize, not_lt_zero, false_and, if_false]
  · intro _
    unfold Inode.node
    split_ifs
    · exact ⟨rfl, fun j hj => absurd hj (not_lt_zero _)⟩
    · rw [hsize]
      exact ⟨rfl, fun j hj => absurd hj (not_lt_zero _)⟩
  · rw [room_congr hbit]
    exact h.room

end Disk

/-- What new contents `x` of slot `i` have to be, for the view `v` and the disk after the change. -/
structure SlotOk (v : View) (k : Fsys) (block : ℕ → Sector) (i n : ℕ) (x : Slot) : Prop where
  ref : x.ref = v.user i + v.mine i
  lt : 0 < x.ref → i < NINODE
  lock : x.locked = true ↔ i ∈ v.locks
  dev : 0 < x.ref → x.dev = ROOTDEV ∧ v.sb.has n
  inum : 0 < x.ref → x.ip.inum = n
  tmp : ∀ q ∈ v.tmp, q.1 = i → q.2 = n
  user : 0 < v.user i → v.num i = n ∧ (v.node n).type ≠ 0
  valid : 0 < x.ref → x.valid = true → x.ip = getInode v.sb block n ∧ (v.node n).type ≠ 0
  held : i ∈ v.locks → 0 < x.ref ∧ x.valid = true
  kept : (v.node n).type ≠ 0 → (v.node n).nlink = 0 → 0 < x.ref ∧ x.valid = true ∧ (n ∉ v.loose → 0 < v.user i)

/-- What a change to slot `i` and inode `n` leaves alone. -/
structure Frame (v v' : View) (k : Fsys) (block : ℕ → Sector) (i n : ℕ) : Prop where
  same : v' = { v with node := v'.node, tmp := v'.tmp, locks := v'.locks, loose := v'.loose, room := v'.room }
  mine : ∀ j, j ≠ i → v'.mine j = v.mine j
  tmp : ∀ q ∈ v'.tmp, q.1 ≠ i → q ∈ v.tmp
  locks : ∀ j, j ≠ i → (j ∈ v'.locks ↔ j ∈ v.locks)
  loose : ∀ m, m ≠ n → m ∈ v.loose → m ∈ v'.loose
  node : ∀ m, v.sb.has m → m ≠ n → v'.node m = v.node m ∧ getInode v.sb block m = getInode v.sb k.block m
  own : 0 < (k.icache i).ref → (k.icache i).ip.inum = n
  away : ∀ j, j ≠ i → 0 < (k.icache j).ref → (k.icache j).ip.inum ≠ n

section Slots

variable {v v' : View} {k : Fsys} {i j n : ℕ} {x : Slot} {B : ℕ → Sector}

@[simp] theorem setSlot_self : (k.setSlot i x).icache i = x := by simp [Fsys.setSlot]

theorem setSlot_ne (h : j ≠ i) : (k.setSlot i x).icache j = k.icache j := by simp [Fsys.setSlot, h]

/-- The one way the state changes: a slot of the cache, and the disk as far as its inode goes. -/
theorem St.update {w : View} (h : St v k) (hf : Frame v w k B i n) (hx : SlotOk w k B i n x)
    (hd : Disk v.sb w.node w.room B) : St w { k.setSlot i x with block := B } := by
  have hsame := hf.same
  have hsb : w.sb = v.sb := by rw [hsame]
  have huser : w.user = v.user := by rw [hsame]
  have hnum : w.num = v.num := by rw [hsame]
  have hslot : ∀ j, j ≠ i → (k.setSlot i x).icache j = k.icache j := fun j hj => setSlot_ne hj
  refine ⟨by rw [hsb]; exact h.sb, by rw [hsame]; exact h.file, by rw [hsame]; exact h.proc,
    by rw [hsame]; exact h.pipe, by rw [hsame]; exact h.outstanding, by rw [hsb]; exact hd,
    ?_, ?_, ?_, ?_, ?_, ?_, ?_, ?_, ?_, ?_⟩
  · intro j
    change ((k.setSlot i x).icache j).ref = _
    by_cases hj : j = i
    · rw [hj, setSlot_self]
      exact hx.ref
    · rw [hslot j hj, h.ref j, huser, hf.mine j hj]
  · intro j
    change 0 < ((k.setSlot i x).icache j).ref → _
    by_cases hj : j = i
    · rw [hj, setSlot_self]
      exact hx.lt
    · rw [hslot j hj]
      exact h.lt j
  · intro j
    change ((k.setSlot i x).icache j).locked = true ↔ _
    by_cases hj : j = i
    · rw [hj, setSlot_self]
      exact hx.lock
    · rw [hslot j hj, h.lock j]
      exact (hf.locks j hj).symm
  · intro j
    change 0 < ((k.setSlot i x).icache j).ref → ((k.setSlot i x).icache j).dev = _ ∧
      w.sb.has ((k.setSlot i x).icache j).ip.inum
    by_cases hj : j = i
    · rw [hj, setSlot_self]
      intro hl
      rw [hx.inum hl]
      exact hx.dev hl
    · rw [hslot j hj, hsb]
      exact h.dev j
  · intro j j'
    change 0 < ((k.setSlot i x).icache j).ref → 0 < ((k.setSlot i x).icache j').ref →
      ((k.setSlot i x).icache j).ip.inum = ((k.setSlot i x).icache j').ip.inum → _
    by_cases hj : j = i <;> by_cases hj' : j' = i
    · intro _ _ _
      rw [hj, hj']
    · rw [hj, setSlot_self, hslot j' hj']
      intro h1 h2 h3
      rw [hx.inum h1] at h3
      exact absurd h3.symm (hf.away j' hj' h2)
    · rw [hj', setSlot_self, hslot j hj]
      intro h1 h2 h3
      rw [hx.inum h2] at h3
      exact absurd h3 (hf.away j hj h1)
    · rw [hslot j hj, hslot j' hj']
      exact h.inj j j'
  · intro q hq
    change ((k.setSlot i x).icache q.1).ip.inum = q.2
    by_cases hj : q.1 = i
    · have hlive : 0 < x.ref := by
        have hpos : 0 < w.mine i := count_pos.2 (mem_map.2 ⟨q, hq, hj⟩)
        have := hx.ref
        omega
      rw [hj, setSlot_self, hx.inum hlive, hx.tmp q hq hj]
    · rw [hslot _ hj]
      exact h.tmp q (hf.tmp q hq hj)
  · intro j hu
    change ((k.setSlot i x).icache j).ip.inum = _ ∧ _
    by_cases hj : j = i
    · subst hj
      have hlive : 0 < x.ref := by
        have := hx.ref
        omega
      obtain ⟨h1, h2⟩ := hx.user hu
      rw [setSlot_self, hx.inum hlive, h1]
      exact ⟨rfl, h2⟩
    · rw [huser] at hu
      obtain ⟨h1, h2⟩ := h.user j hu
      have hr := h.ref j
      have hlive : 0 < (k.icache j).ref := by omega
      rw [hslot j hj, hnum, (hf.node _ ?_ ?_).1]
      · exact ⟨h1, h2⟩
      · rw [← h1]
        exact (h.dev j hlive).2
      · rw [← h1]
        exact hf.away j hj hlive
  · intro j
    change 0 < ((k.setSlot i x).icache j).ref → ((k.setSlot i x).icache j).valid = true →
      ((k.setSlot i x).icache j).ip = getInode w.sb B ((k.setSlot i x).icache j).ip.inum ∧
        (w.node ((k.setSlot i x).icache j).ip.inum).type ≠ 0
    by_cases hj : j = i
    · rw [hj, setSlot_self]
      intro hl hv
      rw [hx.inum hl]
      exact hx.valid hl hv
    · rw [hslot j hj]
      intro hl hv
      obtain ⟨h1, h2⟩ := hf.node _ (h.dev j hl).2 (hf.away j hj hl)
      rw [h1, hsb, h2]
      exact h.valid j hl hv
  · intro j hjL
    change 0 < ((k.setSlot i x).icache j).ref ∧ ((k.setSlot i x).icache j).valid = true
    by_cases hj : j = i
    · subst hj
      rw [setSlot_self]
      exact hx.held hjL
    · rw [hslot j hj]
      exact h.held j ((hf.locks j hj).1 hjL)
  · intro m hm ht h0
    rw [hsb] at hm
    change ∃ j, 0 < ((k.setSlot i x).icache j).ref ∧ ((k.setSlot i x).icache j).ip.inum = m ∧
      ((k.setSlot i x).icache j).valid = true ∧ _
    by_cases hmn : m = n
    · subst hmn
      obtain ⟨h1, h2, h3⟩ := hx.kept ht h0
      refine ⟨i, ?_⟩
      rw [setSlot_self]
      exact ⟨h1, hx.inum h1, h2, h3⟩
    · rw [(hf.node m hm hmn).1] at ht h0
      obtain ⟨j, h1, h2, h3, h4⟩ := h.kept m hm ht h0
      have hj : j ≠ i := by
        rintro rfl
        exact hmn (h2.symm.trans (hf.own h1))
      refine ⟨j, ?_⟩
      rw [hslot j hj, huser]
      exact ⟨h1, h2, h3, fun hml => h4 fun hml' => hml (hf.loose m hmn hml')⟩

/-- Only the slot changes. -/
theorem St.setSlot {T : Multiset (ℕ × ℕ)} {L : Finset ℕ} (h : St v k)
    (hT : ∀ j, j ≠ i → (T.map Prod.fst).count j = v.mine j) (hq : ∀ q ∈ T, q.1 ≠ i → q ∈ v.tmp)
    (hL : ∀ j, j ≠ i → (j ∈ L ↔ j ∈ v.locks)) (hown : 0 < (k.icache i).ref → (k.icache i).ip.inum = n)
    (haway : ∀ j, j ≠ i → 0 < (k.icache j).ref → (k.icache j).ip.inum ≠ n)
    (hx : SlotOk { v with tmp := T, locks := L } k k.block i n x) :
    St { v with tmp := T, locks := L } (k.setSlot i x) :=
  h.update (w := { v with tmp := T, locks := L })
    ⟨rfl, hT, hq, hL, fun _ _ hm => hm, fun _ _ _ => ⟨rfl, rfl⟩, hown, haway⟩ hx h.disk

/-- What `SlotOk.kept` asks for, when the inode was there before. -/
theorem St.kept_self (h : St v k) (hlive : 0 < (k.icache i).ref) (hin : (k.icache i).ip.inum = n)
    (ht : (v.node n).type ≠ 0) (h0 : (v.node n).nlink = 0) :
    (k.icache i).valid = true ∧ (n ∉ v.loose → 0 < v.user i) := by
  have hn : v.sb.has n := hin ▸ (h.dev i hlive).2
  obtain ⟨j, h1, h2, h3, h4⟩ := h.kept n hn ht h0
  obtain rfl := h.inj j i h1 hlive (h2.trans hin.symm)
  exact ⟨h3, h4⟩

end Slots

/-- The call has a pointer to the slot `i` of inode `n`, its own or a user's. -/
def View.points (v : View) (i n : ℕ) : Prop := (i, n) ∈ v.tmp ∨ 0 < v.user i ∧ v.num i = n

section Nodes

variable {ip : Inode} {block : ℕ → Sector}

@[simp] theorem node_type : (ip.node block).type = ip.type := by
  unfold Inode.node
  split_ifs with h
  · exact h.symm
  · rfl

theorem node_nlink (h : ip.type ≠ 0) : (ip.node block).nlink = ip.nlink := by simp [Inode.node, h]

theorem node_size (h : ip.type ≠ 0) : (ip.node block).size = ip.size := by simp [Inode.node, h]

end Nodes

section Rules

variable {v : View} {k k' : Fsys} {i j n m off c : ℕ} {T : Multiset (ℕ × ℕ)} {L : Finset ℕ} {x : Slot}
  {F : Fsys → Prop} {N : String → Fsys → Prop} {Q : Unit → Fsys → Prop} {y : Node} {dev : Inode → ℕ → ℤ}

theorem View.mine_pos (h : (i, n) ∈ v.tmp) : 0 < v.mine i :=
  count_pos.2 (mem_map.2 ⟨_, h, rfl⟩)

theorem St.points (h : St v k) (hp : v.points i n) :
    0 < (k.icache i).ref ∧ (k.icache i).ip.inum = n ∧ v.sb.has n := by
  have hr := h.ref i
  rcases hp with hp | ⟨hp, rfl⟩
  · have hm := View.mine_pos hp
    have hn : (k.icache i).ip.inum = n := h.tmp _ hp
    have hlive : 0 < (k.icache i).ref := by omega
    exact ⟨hlive, hn, hn ▸ (h.dev i hlive).2⟩
  · have hn := (h.user i hp).1
    have hlive : 0 < (k.icache i).ref := by omega
    exact ⟨hlive, hn, hn ▸ (h.dev i hlive).2⟩

theorem St.type (h : St v k) (hn : v.sb.has n) : (getInode v.sb k.block n).type = (v.node n).type := by
  rw [← h.disk.nodes n hn, node_type]

/-- What a locked inode has in memory. -/
theorem St.locked (h : St v k) (hi : i ∈ v.locks) (hp : v.points i n) :
    (k.icache i).ip = getInode v.sb k.block n ∧ (v.node n).type ≠ 0 := by
  obtain ⟨h1, h2, -⟩ := h.points hp
  have hv := h.valid i h1 (h.held i hi).2
  rwa [h2] at hv

theorem St.locked_type (h : St v k) (hi : i ∈ v.locks) (hp : v.points i n) :
    (k.icache i).ip.type = (v.node n).type := by
  rw [(h.locked hi hp).1, h.type (h.points hp).2.2]

theorem St.locked_nlink (h : St v k) (hi : i ∈ v.locks) (hp : v.points i n) :
    (k.icache i).ip.nlink = (v.node n).nlink := by
  obtain ⟨-, -, hn⟩ := h.points hp
  obtain ⟨h1, h2⟩ := h.locked hi hp
  rw [h1, ← h.disk.nodes n hn, node_nlink (by rw [h.type hn]; exact h2)]

theorem St.locked_size (h : St v k) (hi : i ∈ v.locks) (hp : v.points i n) :
    (k.icache i).ip.size = (v.node n).size := by
  obtain ⟨-, -, hn⟩ := h.points hp
  obtain ⟨h1, h2⟩ := h.locked hi hp
  rw [h1, ← h.disk.nodes n hn, node_size (by rw [h.type hn]; exact h2)]

theorem St.locked_inum (h : St v k) (hi : i ∈ v.locks) (hp : v.points i n) : (k.icache i).ip.inum = n := by
  rw [(h.locked hi hp).1]
  rfl

/-- The inodes that files and processes refer to. -/
def View.held (v : View) : Finset ℕ := ((Finset.range NINODE).filter fun i => 0 < v.user i).image v.num

/-- The inodes in the cache. -/
def View.cached (v : View) : Finset ℕ := v.held ∪ (v.tmp.map Prod.snd).toFinset

theorem St.mem_held (h : St v k) : n ∈ v.held ↔ ∃ i, 0 < v.user i ∧ v.num i = n := by
  simp only [View.held, Finset.mem_image, mem_filter, Finset.mem_range]
  constructor
  · rintro ⟨i, hi, rfl⟩
    exact ⟨i, hi.2, rfl⟩
  · rintro ⟨i, hi, rfl⟩
    exact ⟨i, ⟨h.lt i (by rw [h.ref i]; omega), hi⟩, rfl⟩

theorem St.mem_cached (h : St v k) : n ∈ v.cached ↔ ∃ i, 0 < (k.icache i).ref ∧ (k.icache i).ip.inum = n := by
  rw [View.cached, Finset.mem_union, h.mem_held, Multiset.mem_toFinset, mem_map]
  constructor
  · rintro (⟨i, hi, rfl⟩ | ⟨⟨i, m⟩, hq, rfl⟩)
    · obtain ⟨h1, h2, -⟩ := h.points (.inr ⟨hi, rfl⟩)
      exact ⟨i, h1, h2⟩
    · obtain ⟨h1, h2, -⟩ := h.points (.inl hq)
      exact ⟨i, h1, h2⟩
  · rintro ⟨i, hi, rfl⟩
    have hr := h.ref i
    by_cases hu : 0 < v.user i
    · exact .inl ⟨i, hu, (h.user i hu).1.symm⟩
    · obtain ⟨q, hq, rfl⟩ := mem_map.1 (count_pos.1 (show 0 < v.mine i by omega))
      exact .inr ⟨q, hq, (h.tmp q hq).symm⟩

/-- The cache has an inode for each slot in use. -/
theorem St.card_cached (h : St v k) :
    v.cached.card = ((Finset.range NINODE).filter fun i => 0 < (k.icache i).ref).card := by
  have hinj : Set.InjOn (fun i => (k.icache i).ip.inum)
      ((Finset.range NINODE).filter fun i => 0 < (k.icache i).ref) := by
    intro i hi j hj he
    exact h.inj i j (mem_filter.1 hi).2 (mem_filter.1 hj).2 he
  rw [← Finset.card_image_of_injOn hinj]
  congr 1
  ext n
  simp only [h.mem_cached, Finset.mem_image, mem_filter, Finset.mem_range]
  exact ⟨fun ⟨i, h1, h2⟩ => ⟨i, ⟨h.lt i h1, h1⟩, h2⟩, fun ⟨i, h1, h2⟩ => ⟨i, h1.2, h2⟩⟩

theorem St.full (h : St v k) : NINODE ≤ v.cached.card ↔ ∀ i < NINODE, (k.icache i).ref ≠ 0 := by
  have hle := Finset.card_filter_le (Finset.range NINODE) fun i => 0 < (k.icache i).ref
  have heq := Finset.card_filter_eq_iff (s := Finset.range NINODE) (p := fun i => 0 < (k.icache i).ref)
  rw [Finset.card_range] at hle heq
  rw [h.card_cached]
  constructor
  · intro hn i hi
    exact (heq.1 (le_antisymm hle hn) i (Finset.mem_range.2 hi)).ne'
  · intro hall
    exact (heq.2 fun i hi => pos_of_ne_zero (hall i (Finset.mem_range.1 hi))).ge

theorem sat_setSlot {f : Slot → Slot} : Sat (setSlot i f) k Q F N = Q () (k.setSlot i (f (k.icache i))) := rfl

theorem count_cons_self : (((i, n) ::ₘ T).map Prod.fst).count i = (T.map Prod.fst).count i + 1 := by simp

theorem count_cons_ne (h : j ≠ i) : (((i, n) ::ₘ T).map Prod.fst).count j = (T.map Prod.fst).count j := by
  simp [h]

theorem mem_of_cons {q : ℕ × ℕ} (h : q ∈ (i, n) ::ₘ T) (hq : q.1 ≠ i) : q ∈ T := by
  rcases mem_cons.1 h with rfl | h
  · exact absurd rfl hq
  · exact h

/-- Other live slots have other inodes. -/
theorem St.away (h : St v k) (hlive : 0 < (k.icache i).ref) (hin : (k.icache i).ip.inum = n) (j : ℕ) (hj : j ≠ i)
    (hl : 0 < (k.icache j).ref) : (k.icache j).ip.inum ≠ n :=
  fun he => hj (h.inj j i hl hlive (he.trans hin.symm))

/-- A live slot gets another reference count, lock or inode contents. -/
theorem St.relive (h : St v k) (hlive : 0 < (k.icache i).ref) (hin : (k.icache i).ip.inum = n)
    (hT : ∀ j, j ≠ i → (T.map Prod.fst).count j = v.mine j) (hq : ∀ q ∈ T, q.1 ≠ i → q ∈ v.tmp)
    (hqi : ∀ q ∈ T, q.1 = i → q.2 = n) (hL : ∀ j, j ≠ i → (j ∈ L ↔ j ∈ v.locks))
    (href : x.ref = v.user i + (T.map Prod.fst).count i) (hlock : x.locked = true ↔ i ∈ L)
    (hdev : x.dev = (k.icache i).dev) (hinum : x.ip.inum = n)
    (hvalid : x.valid = true → x.ip = getInode v.sb k.block n ∧ (v.node n).type ≠ 0)
    (hheld : i ∈ L → 0 < x.ref ∧ x.valid = true)
    (hkept : (v.node n).type ≠ 0 → (v.node n).nlink = 0 → 0 < x.ref ∧ x.valid = true) :
    St { v with tmp := T, locks := L } (k.setSlot i x) := by
  refine h.setSlot hT hq hL (fun _ => hin) (h.away hlive hin) ⟨href, fun _ => h.lt i hlive, hlock, fun _ => ?_,
    fun _ => hinum, hqi, fun hu => ?_, fun _ => hvalid, hheld, fun ht h0 => ?_⟩
  · rw [hdev, ← hin]
    exact h.dev i hlive
  · obtain ⟨h1, h2⟩ := h.user i hu
    rw [hin] at h1
    exact ⟨h1.symm, h1 ▸ h2⟩
  · obtain ⟨h1, h2⟩ := hkept ht h0
    exact ⟨h1, h2, (h.kept_self hlive hin ht h0).2⟩

/-- The contents of a live slot, read with its inode's number. -/
theorem St.valid_at (h : St v k) (hlive : 0 < (k.icache i).ref) (hin : (k.icache i).ip.inum = n)
    (hv : (k.icache i).valid = true) : (k.icache i).ip = getInode v.sb k.block n ∧ (v.node n).type ≠ 0 := by
  have := h.valid i hlive hv
  rwa [hin] at this

theorem St.tmp_at (h : St v k) (hin : (k.icache i).ip.inum = n) (q : ℕ × ℕ) (hq : q ∈ v.tmp) (hqi : q.1 = i) :
    q.2 = n := by
  rw [← h.tmp q hq, hqi]
  exact hin

/-- One more reference to a live slot. -/
theorem St.addRef (h : St v k) (hlive : 0 < (k.icache i).ref) (hin : (k.icache i).ip.inum = n) :
    St { v with tmp := (i, n) ::ₘ v.tmp } (k.setSlot i { k.icache i with ref := (k.icache i).ref + 1 }) := by
  refine h.relive hlive hin (fun j hj => count_cons_ne hj) (fun q hq hqi => mem_of_cons hq hqi) ?_
    (fun _ _ => Iff.rfl) ?_ (h.lock i) rfl hin (h.valid_at hlive hin)
    (fun hi => ⟨succ_pos _, (h.held i hi).2⟩) (fun ht h0 => ⟨succ_pos _, (h.kept_self hlive hin ht h0).1⟩)
  · intro q hq hqi
    rcases mem_cons.1 hq with rfl | hq
    · rfl
    · exact h.tmp_at hin q hq hqi
  · rw [count_cons_self, h.ref i]
    rfl

theorem sat_idup {Q : ℕ → Fsys → Prop} (h : St v k) (hp : v.points i n)
    (hQ : ∀ k', St { v with tmp := (i, n) ::ₘ v.tmp } k' → Q i k') : Sat (idup i) k Q F N := by
  obtain ⟨h1, h2, -⟩ := h.points hp
  exact hQ _ (h.addRef h1 h2)

/-- A free slot is taken for an inode that no slot has. -/
theorem St.newSlot {e : ℕ} (h : St v k) (hn : v.sb.has n) (h0 : (k.icache e).ref = 0) (hlt : e < NINODE)
    (hno : ∀ j, 0 < (k.icache j).ref → (k.icache j).ip.inum ≠ n) :
    St { v with tmp := (e, n) ::ₘ v.tmp }
      (k.setSlot e { k.icache e with
        dev := ROOTDEV, ref := 1, valid := false, ip := { (k.icache e).ip with inum := n } }) := by
  have hr := h.ref e
  have hu : v.user e = 0 := by omega
  have hm : v.mine e = 0 := by omega
  have hlk : e ∉ v.locks := fun hl => absurd (h.held e hl).1 (by omega)
  refine h.setSlot (fun j hj => count_cons_ne hj) (fun q hq hqi => mem_of_cons hq hqi) (fun _ _ => Iff.rfl)
    (fun hl => absurd hl (by omega)) (fun j _ hj => hno j hj) ⟨?_, fun _ => hlt, h.lock e, fun _ => ⟨rfl, hn⟩,
    fun _ => rfl, ?_, fun hu' => absurd hu' (by change ¬ 0 < v.user e; omega), fun _ hv => absurd hv (by simp),
    fun hl => absurd hl hlk, fun ht hl => ?_⟩
  · change 1 = v.user e + _
    rw [View.mine, count_cons_self, hu]
    unfold View.mine at hm
    omega
  · intro q hq hqe
    rcases mem_cons.1 hq with rfl | hq
    · rfl
    · have := View.mine_pos (v := v) (i := q.1) (n := q.2) hq
      rw [hqe] at this
      omega
  · obtain ⟨j, h1, h2, -⟩ := h.kept n hn ht hl
    exact absurd h2 (hno j h1)

theorem sat_iget {Q : ℕ → Fsys → Prop} (h : St v k) (hn : v.sb.has n)
    (hQ : ¬ noFit v.cached n → ∀ i k', k'.block = k.block → St { v with tmp := (i, n) ::ₘ v.tmp } k' → Q i k')
    (hN : noFit v.cached n → ∀ k', N "iget: no inodes" k') : Sat (iget ROOTDEV n) k Q F N := by
  simp only [iget, sat_bind_eq, sat_get_eq]
  cases hf : (List.range NINODE).find? fun i =>
      decide ((k.icache i).ref > 0 ∧ (k.icache i).dev = ROOTDEV ∧ (k.icache i).ip.inum = n) with
  | some i =>
    have hi := List.find?_some hf
    simp only [decide_eq_true_eq] at hi
    exact hQ (fun hf => hf.1 (h.mem_cached.2 ⟨i, hi.1, hi.2.2⟩)) i _ rfl (h.addRef hi.1 hi.2.2)
  | none =>
    have hno : ∀ j, 0 < (k.icache j).ref → (k.icache j).ip.inum ≠ n := by
      intro j hj he
      have := List.find?_eq_none.1 hf j (List.mem_range.2 (h.lt j hj))
      simp only [decide_eq_true_eq] at this
      exact this ⟨hj, (h.dev j hj).1, he⟩
    cases he : (List.range NINODE).find? fun i => decide ((k.icache i).ref = 0) with
    | none =>
      refine hN ⟨fun hm => ?_, h.full.2 fun i hi => ?_⟩ _
      · obtain ⟨j, hj, he⟩ := h.mem_cached.1 hm
        exact hno j hj he
      · have := List.find?_eq_none.1 he i (List.mem_range.2 hi)
        simpa using this
    | some e =>
      have h0 : (k.icache e).ref = 0 := by simpa using List.find?_some he
      have hlt : e < NINODE := List.mem_range.1 (List.mem_of_find?_eq_some he)
      exact hQ (fun hf => h.full.1 hf.2 e hlt h0) e _ rfl (h.newSlot hn h0 hlt hno)

/-- The slot is locked, with its inode read from disk if it was not there. -/
theorem St.acquire (h : St v k) (hp : v.points i n) (ht : (v.node n).type ≠ 0)
    (hx : x = { k.icache i with locked := true, valid := true, ip := getInode v.sb k.block n }) :
    St { v with locks := insert i v.locks } (k.setSlot i x) := by
  obtain ⟨hlive, hin, hn⟩ := h.points hp
  subst hx
  exact h.relive hlive hin (fun _ _ => rfl) (fun q hq _ => hq) (h.tmp_at hin) (fun j hj => by simp [hj]) (h.ref i)
    (by simp) rfl rfl (fun _ => ⟨rfl, ht⟩) (fun _ => ⟨hlive, rfl⟩) (fun _ _ => ⟨hlive, rfl⟩)

theorem sat_ilock (h : St v k) (hp : v.points i n)
    (hQ : i ∉ v.locks → (v.node n).type ≠ 0 → ∀ k', St { v with locks := insert i v.locks } k' → Q () k')
    (hF : i ∈ v.locks → ∀ k', F k') (hN : i ∉ v.locks → (v.node n).type = 0 → ∀ k', N "ilock: no type" k') :
    Sat (ilock i) k Q F N := by
  obtain ⟨hlive, hin, hn⟩ := h.points hp
  simp only [ilock, sat_bind_eq, sat_get_eq]
  refine sat_check (fun _ => ?_) (fun hn => absurd hlive hn)
  simp only [Sys.acquire, sat_bind_eq, sat_get_eq]
  by_cases hl : (k.icache i).locked = true
  · rw [if_pos hl]
    exact hF ((h.lock i).1 hl) _
  have hni : i ∉ v.locks := fun hi => hl ((h.lock i).2 hi)
  rw [if_neg hl, sat_setSlot]
  by_cases hv : (k.icache i).valid = false
  · rw [if_pos hv]
    simp only [sat_bind_eq, sat_setSlot, hin, h.sb]
    refine sat_check (fun hty => ?_) (fun hty => hN hni ?_ _)
    · rw [hin, h.sb, h.type hn] at hty
      have hst := h.acquire hp hty rfl
      have heq : (k.setSlot i { k.icache i with locked := true }).setSlot i
          { (k.setSlot i { k.icache i with locked := true }).icache i with
            ip := getInode v.sb k.block n, valid := true } =
          k.setSlot i { k.icache i with locked := true, valid := true, ip := getInode v.sb k.block n } := by
        simp [Fsys.setSlot]
      rw [heq]
      exact hQ hni hty _ hst
    · rw [hin, h.sb, h.type hn] at hty
      simpa using hty
  · rw [if_neg hv, sat_pure_eq]
    have hv' : (k.icache i).valid = true := by simpa using hv
    obtain ⟨h1, h2⟩ := h.valid_at hlive hin hv'
    exact hQ hni h2 _ (h.acquire hp h2 (by rw [← h1, ← hv']))

theorem sat_iunlock (h : St v k) (hi : i ∈ v.locks)
    (hQ : ∀ k', St { v with locks := v.locks.erase i } k' → Q () k') : Sat (iunlock i) k Q F N := by
  obtain ⟨hlive, hv⟩ := h.held i hi
  simp only [iunlock, sat_bind_eq, sat_get_eq]
  refine sat_check (fun _ => ?_) (fun hn => absurd ⟨(h.lock i).2 hi, hlive⟩ hn)
  rw [sat_setSlot]
  exact hQ _ (h.relive hlive rfl (fun _ _ => rfl) (fun q hq _ => hq) (h.tmp_at rfl) (fun j hj => by simp [hj])
    (h.ref i) (by simp) rfl rfl (h.valid_at hlive rfl) (fun hl => absurd hl (by simp)) (fun _ _ => ⟨hlive, hv⟩))

/-! Work on a locked inode. -/

theorem St.tab (h : St v k) (hi : i ∈ v.locks) (hp : v.points i n) : tab (k.at i) = getInode v.sb k.block := by
  funext m
  obtain ⟨h1, -⟩ := h.locked hi hp
  have hin := h.locked_inum hi hp
  by_cases hm : m = (k.at i).ip.inum
  · rw [hm, tab_self]
    change (k.icache i).ip = getInode v.sb k.block (k.icache i).ip.inum
    rw [hin, h1]
  · rw [tab_ne hm]
    change getInode k.sb k.block m = _
    rw [h.sb]

theorem St.ready (h : St v k) (hi : i ∈ v.locks) (hp : v.points i n) : Ready (k.at i) := by
  obtain ⟨-, -, hn⟩ := h.points hp
  obtain ⟨h1, h2⟩ := h.locked hi hp
  have hin := h.locked_inum hi hp
  have hsb : (k.at i).sb = v.sb := h.sb
  refine ⟨?_, ?_, ?_, ?_⟩
  · rw [h.tab hi hp, hsb]
    exact h.disk.own
  · rw [hsb]
    change v.sb.has (k.icache i).ip.inum
    rw [hin]
    exact hn
  · change (k.icache i).ip.type ≠ 0
    rw [h.locked_type hi hp]
    exact h2
  · change Fits (k.icache i).ip
    rw [h1]
    exact fits_getInode

theorem St.cover_at (h : St v k) (hi : i ∈ v.locks) (hp : v.points i n) (hd : (k.at i).ip.type ≠ T_DEV) :
    Cover (k.at i).ip (k.at i).block := by
  obtain ⟨-, -, hn⟩ := h.points hp
  obtain ⟨h1, h2⟩ := h.locked hi hp
  change (k.icache i).ip.type ≠ T_DEV at hd
  change Cover (k.icache i).ip k.block
  rw [h1] at hd ⊢
  exact h.disk.cover n hn (by rw [h.type hn]; exact h2) hd

theorem St.node_at (h : St v k) (hi : i ∈ v.locks) (hp : v.points i n) :
    (k.at i).ip.node (k.at i).block = v.node n := by
  obtain ⟨-, -, hn⟩ := h.points hp
  change (k.icache i).ip.node k.block = _
  rw [(h.locked hi hp).1, h.disk.nodes n hn]

theorem put_at : k.put i (k.at i) = k := by simp [Fsys.put, Fsys.at, Fsys.setSlot]

/-- Work on the locked inode `n` that leaves the others alone. -/
theorem St.put {s' : Fs} {r : ℕ} (h : St v k) (hi : i ∈ v.locks) (hp : v.points i n)
    (hr : Ready s') (ht : Touch (k.at i) s') (hdisk : getInode v.sb s'.block n = s'.ip)
    (hcov : s'.ip.type ≠ T_DEV → Cover s'.ip s'.block) (hy : s'.ip.node s'.block = y) (hdir : y.DirOk v.sb)
    (hkept : y.nlink = 0 → n ∉ L → 0 < v.user i) (hL : ∀ m, m ≠ n → m ∈ v.loose → m ∈ L)
    (hroom : r ≤ roomOf s') :
    St { v with node := Function.update v.node n y, loose := L, room := r } (k.put i s') := by
  obtain ⟨hlive, hin, hn⟩ := h.points hp
  obtain ⟨-, hv⟩ := h.held i hi
  have hsb : (k.at i).sb = v.sb := h.sb
  have hsb' : s'.sb = v.sb := ht.sb.trans hsb
  have hinum : (k.at i).ip.inum = n := hin
  have hip : s'.ip.inum = n := ht.inum.trans hin
  have hy0 : y.type ≠ 0 := by
    rw [← hy, node_type]
    exact hr.type
  have htabs : Sys.tab s' = getInode v.sb s'.block := by
    funext m
    by_cases hm : m = s'.ip.inum
    · rw [hm, tab_self, hip, hdisk]
    · rw [tab_ne hm, hsb']
  have hself : Function.update v.node n y n = y := Function.update_self ..
  have hown := hr.own
  rw [hsb', htabs] at hown
  rw [roomOf, hsb'] at hroom
  refine h.update (w := { v with node := Function.update v.node n y, loose := L, room := r })
    ⟨rfl, fun _ _ => rfl, fun q hq _ => hq, fun _ _ => Iff.rfl, hL, fun m hm hmn => ⟨Function.update_of_ne hmn _ _, ?_⟩,
      fun _ => hin, h.away hlive hin⟩
    ⟨h.ref i, fun _ => h.lt i hlive, h.lock i, fun _ => hin ▸ h.dev i hlive, fun _ => hip, h.tmp_at hin, fun hu => ?_,
      fun _ _ => ?_, fun _ => ⟨hlive, hv⟩, fun _ h0 => ?_⟩
    (h.disk.touch ht hsb hinum hown (fun _ hd => by rw [hdisk] at hd ⊢; exact hcov hd) (by rw [hdisk, hy]) hdir hroom)
  · have := ht.tab m (by rwa [hsb]) (by rwa [hinum])
    rwa [hsb] at this
  · have h1 := (h.user i hu).1
    rw [hin] at h1
    exact ⟨h1.symm, (congrArg Node.type hself).trans_ne hy0⟩
  · exact ⟨hdisk.symm, (congrArg Node.type hself).trans_ne hy0⟩
  · exact ⟨hlive, hv, hkept ((congrArg Node.nlink hself).symm.trans h0)⟩

theorem sat_onInode {α : Type} {f : Xv6.F α} {Q : α → Fsys → Prop}
    (h : Sat f (k.at i) (fun a s => Q a (k.put i s)) (fun s => F (k.put i s)) (fun m s => N m (k.put i s))) :
    Sat (onInode i f) k Q F N := by
  unfold Sat onInode at *
  cases hf : f (k.at i) <;> rw [hf] at h <;> exact h

/-- A read of a locked inode leaves the state as it is. -/
theorem sat_readInode {Q : ℤ × List UInt8 → Fsys → Prop} (h : St v k)
    (hi : i ∈ v.locks) (hp : v.points i n) (hc : c < 2 ^ 32)
    (hdev : (v.node n).type = T_DEV → ∀ r, Q (r, []) k)
    (hQ : (v.node n).type ≠ T_DEV → Q ((v.node n).read off c) k) : Sat (onInode i (readi dev off c)) k Q F N := by
  have hty : (k.at i).ip.type = (v.node n).type := h.locked_type hi hp
  refine sat_onInode (sat_readi (fun hd => h.cover_at hi hp hd) (h.ready hi hp).type hc ?_)
  rw [put_at, h.node_at hi hp]
  split_ifs with hd
  · exact hdev (hty ▸ hd) _
  · exact hQ (hty ▸ hd)

theorem Node.DirOk.congr {sb : Superblock} {x : Node} (h : x.DirOk sb) (ht : y.type = x.type)
    (hs : y.size = x.size) (hd : y.data = x.data) : y.DirOk sb := by
  intro hy
  rw [ht] at hy
  have he : ∀ j, y.ent j = x.ent j := fun j => by rw [Node.ent, Node.ent, hd]
  simp only [hs, he]
  exact h hy

/-- Fields of a locked inode change, but not its type, size or blocks. -/
theorem sat_setInode {f : Inode → Inode} {g : Node → Node} (h : St v k) (hi : i ∈ v.locks) (hp : v.points i n)
    (hf : ∀ ip, (f ip).inum = ip.inum ∧ (f ip).type = ip.type ∧ (f ip).size = ip.size ∧ (f ip).addrs = ip.addrs)
    (hfits : ∀ ip, Fits ip → Fits (f ip))
    (hg : ∀ ip block, ip.type ≠ 0 → (f ip).node block = g (ip.node block))
    (hkept : (g (v.node n)).nlink = 0 → n ∉ L → 0 < v.user i) (hL : ∀ m, m ≠ n → m ∈ v.loose → m ∈ L)
    (hQ : ∀ k', St { v with node := update v.node n (g (v.node n)), loose := L } k' → Q () k') :
    Sat (setInode i f) k Q F N := by
  have hready := h.ready hi hp
  obtain ⟨f1, f2, f3, f4⟩ := hf (k.at i).ip
  obtain ⟨hr, hT⟩ := hready.setIp (x := f (k.at i).ip) f1 f4 (by rw [f2]; exact hready.type) (hfits _ hready.fits)
  have hcov : (f (k.at i).ip).type ≠ T_DEV → Cover (f (k.at i).ip) (k.at i).block := by
    intro hd
    rw [f2] at hd
    have hc := h.cover_at hi hp hd
    refine ⟨by rw [f3]; exact hc.size, fun m hm => ?_⟩
    rw [f3] at hm
    rw [show (f (k.at i).ip).bno (k.at i).block m = (k.at i).ip.bno (k.at i).block m from bno_congr f4 fun _ => rfl]
    exact hc.full m hm
  have hnode : (f (k.at i).ip).node (k.at i).block = g (v.node n) := by
    rw [hg _ _ hready.type, h.node_at hi hp]
  obtain ⟨hr', hT', hroom⟩ := hr.stored
  have hin : (k.at i).ip.inum = n := h.locked_inum hi hp
  have hput := h.put (y := g (v.node n)) (L := L) (r := v.room) hi hp hr' (hT.trans hT')
    (getInode_stored hr.fits h.sb (f1.trans hin)) (fun hd => (hcov hd).stored hr)
    ((hr.node_stored hcov).trans hnode) ?_ hkept hL ?_
  · have heq : (k.setSlot i { k.icache i with ip := f (k.icache i).ip }).put i
        (stored { k.at i with ip := f (k.at i).ip }) = k.put i (stored { k.at i with ip := f (k.at i).ip }) := by
      simp [Fsys.put, Fsys.setSlot]
    simp only [setInode, sat_bind_eq, sat_setSlot]
    refine sat_onInode ?_
    rw [sat_iupdate]
    have hat : (k.setSlot i { k.icache i with ip := f (k.icache i).ip }).at i = { k.at i with ip := f (k.at i).ip } := by
      simp [Fsys.at, Fsys.setSlot]
    rw [hat, heq]
    exact hQ _ hput
  · have hn := (h.points hp).2.2
    rw [← hnode]
    refine (h.disk.dirs n hn).congr ?_ ?_ ?_
    · rw [node_type, f2, ← h.node_at hi hp, node_type]
    · rw [node_size (by rw [f2]; exact hready.type), f3, ← h.node_at hi hp, node_size hready.type]
    · rw [← h.node_at hi hp]
      unfold Inode.node
      rw [if_neg (by rw [f2]; exact hready.type), if_neg hready.type, f2, f3]
      funext x
      have hbno : ∀ m, (f (k.at i).ip).bno (k.at i).block m = (k.at i).ip.bno (k.at i).block m :=
        fun m => bno_congr f4 fun _ => rfl
      simp only [hbno]
  · rw [hroom]
    have := h.disk.room
    rw [roomOf]
    change v.room ≤ Owner.room k.sb.size (bit k.sb k.block)
    rw [h.sb]
    exact this

theorem St.roomOf (h : St v k) : v.room ≤ roomOf (k.at i) := by
  have := h.disk.room
  rw [← h.sb] at this
  exact this

/-- A write to a locked inode is refused, or goes to its node. -/
theorem sat_writeInode {src : ℕ → UInt8} {Q : ℤ → Fsys → Prop} (h : St v k)
    (hi : i ∈ v.locks) (hp : v.points i n) (hc : c < 2 ^ 32)
    (hdev : (v.node n).type = T_DEV → ∀ r, Q r k)
    (hbad : (v.node n).type ≠ T_DEV → (v.node n).refuses off c → Q (-1) k)
    (hdir : ((v.node n).write src off c).DirOk v.sb)
    (hQ : (v.node n).type ≠ T_DEV → ¬ (v.node n).refuses off c → ∀ k',
      St { v with node := update v.node n ((v.node n).write src off c), room := v.room - 2 * spans off c } k' →
        Q c k')
    (hN : v.room < 2 * spans off c → ∀ k', N "balloc: out of blocks" k') :
    Sat (onInode i (writei dev src off c)) k Q F N := by
  have hty : (k.at i).ip.type = (v.node n).type := h.locked_type hi hp
  have hin : (k.at i).ip.inum = n := h.locked_inum hi hp
  have hsb : (k.at i).sb = v.sb := h.sb
  have hnode := h.node_at hi hp
  have hdisk : getInode (k.at i).sb (k.at i).block (k.at i).ip.inum = (k.at i).ip := by
    rw [hsb, hin]
    exact (h.locked hi hp).1.symm
  refine sat_onInode (sat_writei (h.ready hi hp) (fun hd => h.cover_at hi hp hd) hdisk hc ?_ ?_ ?_ ?_)
  · intro hd
    rw [put_at]
    exact hdev (hty ▸ hd) _
  · intro hd hr
    rw [put_at]
    rw [hnode] at hr
    exact hbad (hty ▸ hd) hr
  · intro hd hr s' hw
    rw [hnode] at hr
    have hy : s'.ip.node s'.block = (v.node n).write src off c := by rw [hw.node, hnode]
    have hd' := hw.disk
    rw [hsb, hin] at hd'
    refine hQ (hty ▸ hd) hr _ (h.put hi hp hw.ready hw.touch hd' (fun _ => hw.cover) hy hdir ?_ (fun m _ hm => hm) ?_)
    · -- the link count stays
      intro h0 hl
      obtain ⟨hlive, hinum, hn⟩ := h.points hp
      exact (h.kept_self hlive hinum (h.locked hi hp).2 h0).2 hl
    · have := hw.room
      have := h.roomOf (i := i)
      omega
  · intro hr s'
    exact hN (lt_of_le_of_lt h.roomOf hr) _

/-! `iput`. -/

/-- The last reference to an inode without links goes: its node is free. -/
theorem St.clear (h : St v k) (hi : i ∈ v.locks) (hT : v.tmp = (i, n) ::ₘ T)
    (href : (k.icache i).ref = 1) (hsize : (k.icache i).ip.size = 0) (ha : ∀ m, (k.icache i).ip.addrs m = 0)
    (hx : x.ref = 0) (hx' : x.locked = false) (hL : ∀ m, m ≠ n → m ∈ v.loose → m ∈ L) :
    St { v with tmp := T, locks := v.locks.erase i, node := Function.update v.node n .free, loose := L }
      { k.setSlot i x with block := putInode v.sb k.block { (k.icache i).ip with type := 0 } } := by
  have hp : v.points i n := .inl (hT ▸ mem_cons_self _ _)
  obtain ⟨hlive, hin, hn⟩ := h.points hp
  obtain ⟨hip, hty⟩ := h.locked hi hp
  subst hin
  have hmine : v.mine i = (T.map Prod.fst).count i + 1 := by rw [View.mine, hT, count_cons_self]
  have hr := h.ref i
  have hu : v.user i = 0 := by omega
  have hTi : (T.map Prod.fst).count i = 0 := by omega
  have hnT : ∀ q ∈ T, q.1 ≠ i := by
    intro q hq hqi
    have : 0 < (T.map Prod.fst).count i := count_pos.2 (mem_map.2 ⟨q, hq, hqi⟩)
    omega
  have hf := (h.ready hi hp).fits
  have hd := h.disk.rewrite (x := { (k.icache i).ip with type := 0 }) hn
    ⟨succ_pos _, hf.major, hf.minor, hf.nlink, hf.size, hf.addrs, hf.rest⟩ hsize ha
    (.inr fun m => by rw [← hip]; simp [Inode.bno, ha])
  rw [show Inode.node { (k.icache i).ip with type := 0 } k.block = .free from if_pos rfl] at hd
  have hself : (Function.update v.node (k.icache i).ip.inum Node.free (k.icache i).ip.inum).type = 0 := by
    rw [Function.update_self]
    rfl
  refine h.update (w := { v with
      tmp := T, locks := v.locks.erase i, node := Function.update v.node _ .free, loose := L })
    ⟨rfl, fun j hj => ?_, fun q hq _ => hT ▸ mem_cons_of_mem hq, fun j hj => by simp [hj], hL,
      fun m _ hmn => ⟨Function.update_of_ne hmn _ _, getInode_putInode_ne hmn⟩,
      fun _ => rfl, h.away hlive rfl⟩
    ⟨?_, fun hl => absurd hl (by omega), by simp [hx'], fun hl => absurd hl (by omega), fun hl => absurd hl (by omega),
      fun q hq hqi => absurd hqi (hnT q hq), fun hu' => absurd hu' (by change ¬ 0 < v.user i; omega),
      fun hl => absurd hl (by omega), fun hl => absurd hl (by simp), fun ht => ?_⟩ hd
  · rw [View.mine, View.mine, hT, count_cons_ne hj]
  · change x.ref = v.user i + (T.map Prod.fst).count i
    omega
  · exact absurd hself ht

/-- The reference goes and the inode stays. -/
theorem St.dropRef (h : St v k) (hT : v.tmp = (i, n) ::ₘ T) (hi : i ∉ v.locks)
    (hkeep : (k.icache i).valid = true → (k.icache i).ip.nlink = 0 → (k.icache i).ref ≠ 1) :
    St { v with tmp := T } (k.setSlot i { k.icache i with locked := false, ref := (k.icache i).ref - 1 }) := by
  have hp : v.points i n := .inl (hT ▸ mem_cons_self _ _)
  obtain ⟨hlive, hin, hn⟩ := h.points hp
  have hmine : v.mine i = (T.map Prod.fst).count i + 1 := by rw [View.mine, hT, count_cons_self]
  have hr := h.ref i
  refine h.relive (L := v.locks) hlive hin (fun j hj => ?_) (fun q hq _ => hT ▸ mem_cons_of_mem hq)
    (fun q hq => h.tmp_at hin q (hT ▸ mem_cons_of_mem hq)) (fun _ _ => Iff.rfl) ?_ (by simpa using hi) rfl hin
    (h.valid_at hlive hin) (fun hl => absurd hl hi) (fun ht h0 => ?_)
  · rw [View.mine, hT, count_cons_ne hj]
  · change (k.icache i).ref - 1 = _
    omega
  · obtain ⟨hv, -⟩ := h.kept_self hlive hin ht h0
    have hnl : (k.icache i).ip.nlink = 0 := by
      rw [(h.valid_at hlive hin hv).1, ← h0, ← h.disk.nodes n hn, node_nlink (by rw [h.type hn]; exact ht)]
    have := hkeep hv hnl
    refine ⟨?_, hv⟩
    change 0 < (k.icache i).ref - 1
    omega

/-- The inode of slot `i` has no link and no other reference. -/
def View.last (v : View) (i n : ℕ) (T : Multiset (ℕ × ℕ)) : Prop :=
  (v.node n).type ≠ 0 ∧ (v.node n).nlink = 0 ∧ v.user i = 0 ∧ ∀ q ∈ T, q.1 ≠ i

/-- The last reference to an inode without links goes. -/
theorem sat_ifree (h : St v k) (hi : i ∈ v.locks) (hT : v.tmp = (i, n) ::ₘ T) (href : (k.icache i).ref = 1)
    (hQ : ∀ k', St { v with
        tmp := T
        locks := v.locks.erase i
        node := update v.node n .free
        loose := v.loose.erase n } k' → Q () k') :
    Sat (ifree i >>= fun _ => setSlot i fun x => { x with locked := false, ref := x.ref - 1 }) k Q F N := by
  have hp : v.points i n := .inl (hT ▸ mem_cons_self _ _)
  have hin : (k.at i).ip.inum = n := h.locked_inum hi hp
  have hsb : (k.at i).sb = v.sb := h.sb
  simp only [ifree, sat_bind_eq]
  refine sat_onInode (sat_itrunc (h.ready hi hp) fun s hs ht hip hdisk hroom => ?_)
  rw [hsb, hin] at hdisk
  have hsize : (s.ip.node s.block).size = 0 := by rw [node_size hs.type, hip]; rfl
  have h2 := h.put (L := insert n v.loose) (r := v.room) hi hp hs ht hdisk
    (fun _ => ⟨by rw [hip]; exact zero_le _, fun m hm => by rw [hip] at hm; exact absurd hm (not_lt_zero _)⟩)
    rfl (fun _ => by rw [hsize]; exact ⟨rfl, fun j hj => absurd hj (not_lt_zero _)⟩)
    (fun _ hn => absurd (Finset.mem_insert_self n v.loose) hn) (fun m _ hm => Finset.mem_insert_of_mem hm)
    (h.roomOf.trans hroom)
  have hslot : (k.put i s).icache i = { k.icache i with ip := s.ip } := by simp [Fsys.put]
  have h3 := h2.clear (L := v.loose.erase n) (x := { (k.put i s).icache i with
      ip := { s.ip with type := 0 }, valid := false, locked := false, ref := (k.icache i).ref - 1 }) hi hT
    (by rw [hslot]; exact href) (by rw [hslot, hip]; rfl) (fun m => by rw [hslot, hip]; rfl) (by rw [href]) rfl
    (fun m hmn hm => Finset.mem_erase.2 ⟨hmn, (Finset.mem_insert.1 hm).resolve_left hmn⟩)
  simp only [update_idem] at h3
  simp only [setInode, sat_bind_eq, sat_setSlot]
  refine sat_onInode ?_
  rw [sat_iupdate]
  refine hQ _ ?_
  convert h3 using 1
  simp only [Fsys.put, Fsys.setSlot, Fsys.at, stored, update_self, update_idem, h.sb]

theorem sat_iput (h : St v k) (hT : v.tmp = (i, n) ::ₘ T) (hF : i ∈ v.locks → F k)
    (hkeep : i ∉ v.locks → ¬ v.last i n T → ∀ k', St { v with tmp := T } k' → Q () k')
    (hdrop : i ∉ v.locks → v.last i n T → ∀ k',
      St { v with tmp := T, node := update v.node n .free, loose := v.loose.erase n } k' → Q () k') :
    Sat (iput i) k Q F N := by
  have hp : v.points i n := .inl (hT ▸ mem_cons_self _ _)
  obtain ⟨hlive, hin, hn⟩ := h.points hp
  have hmine : v.mine i = (T.map Prod.fst).count i + 1 := by rw [View.mine, hT, count_cons_self]
  have hr := h.ref i
  simp only [iput, Sys.acquire, sat_bind_eq, sat_get_eq]
  by_cases hl : (k.icache i).locked = true
  · rw [if_pos hl]
    exact hF ((h.lock i).1 hl)
  have hni : i ∉ v.locks := fun hi => hl ((h.lock i).2 hi)
  rw [if_neg hl, sat_setSlot]
  simp only [setSlot_self]
  -- what the code tests is that the reference is the last one
  have htest : ((k.icache i).valid && decide ((k.icache i).ip.nlink = 0) && decide ((k.icache i).ref = 1)) = true ↔
      v.last i n T := by
    simp only [Bool.and_eq_true, decide_eq_true_eq]
    constructor
    · rintro ⟨⟨h1, h2⟩, h3⟩
      obtain ⟨h4, h5⟩ := h.valid i hlive h1
      rw [hin] at h4 h5
      refine ⟨h5, ?_, by omega, fun q hq hqi => ?_⟩
      · rw [← h.disk.nodes n hn, node_nlink (by rw [h.type hn]; exact h5), ← h4]
        exact h2
      · have : 0 < (T.map Prod.fst).count i := count_pos.2 (mem_map.2 ⟨q, hq, hqi⟩)
        omega
    · rintro ⟨h1, h2, h3, h4⟩
      obtain ⟨j, h5, h6, h7, -⟩ := h.kept n hn h1 h2
      obtain rfl := h.inj j i h5 hlive (h6.trans hin.symm)
      refine ⟨⟨h7, ?_⟩, ?_⟩
      · rw [(h.valid j hlive h7).1, hin, ← h2, ← h.disk.nodes n hn, node_nlink (by rw [h.type hn]; exact h1)]
      · have : (T.map Prod.fst).count j = 0 :=
          Multiset.count_eq_zero.2 fun hmem => by
            obtain ⟨q, hq, hqj⟩ := mem_map.1 hmem
            exact h4 q hq hqj
        omega
  by_cases hlast : v.last i n T
  · have href : (k.icache i).ref = 1 := by
      have := htest.2 hlast
      simp only [Bool.and_eq_true, decide_eq_true_eq] at this
      exact this.2
    have hv : (k.icache i).valid = true := by
      have := htest.2 hlast
      simp only [Bool.and_eq_true, decide_eq_true_eq] at this
      exact this.1.1
    rw [if_pos (htest.2 hlast)]
    obtain ⟨h1, -⟩ := h.valid i hlive hv
    rw [hin] at h1
    have hacq := h.acquire (x := { k.icache i with locked := true }) hp hlast.1 (by rw [← h1, ← hv])
    have := sat_ifree (F := F) (N := N) (Q := Q) hacq (Finset.mem_insert_self i _) hT (by rw [setSlot_self]; exact href)
      fun k' hk' => hdrop hni hlast k' (by simpa only [Finset.erase_insert hni] using hk')
    simpa only [sat_bind_eq, sat_setSlot] using this
  · rw [if_neg (fun ht => hlast (htest.1 ht)), sat_setSlot]
    have hst := h.dropRef hT hni fun hv h0 href => hlast (htest.1 (by simp [hv, h0, href]))
    refine hkeep hni hlast _ ?_
    have heq : (k.setSlot i { k.icache i with locked := true }).setSlot i
        { (k.setSlot i { k.icache i with locked := true }).icache i with
          locked := false, ref := ((k.setSlot i { k.icache i with locked := true }).icache i).ref - 1 } =
        k.setSlot i { k.icache i with locked := false, ref := (k.icache i).ref - 1 } := by
      simp [Fsys.setSlot]
    rw [heq]
    exact hst

end Rules

end Xv6.Sys

import Xv6.Proofs.Inodes
import Mathlib.Data.List.Find

/-! References to inodes that a call takes and gives up: `ialloc`, `iunlockput`, and what files and
processes take over from it. -/

namespace Xv6.Sys

open Prog Bytes Owner Function
open Multiset (mem_cons_self)
open Function (update_self update_of_ne)

variable {v : View} {k : Fsys} {i j n m type : ℕ} {T : Multiset (ℕ × ℕ)} {F : Fsys → Prop} {N : String → Fsys → Prop}
  {Q : Unit → Fsys → Prop}

/-- `iget` does not look at the disk. -/
theorem sat_iget_block {dev : ℕ} {B : ℕ → Sector} {Q : ℕ → Fsys → Prop}
    (h : Sat (iget dev n) k (fun i k' => Q i { k' with block := B }) (fun k' => F { k' with block := B })
      (fun m k' => N m { k' with block := B })) : Sat (iget dev n) { k with block := B } Q F N := by
  simp only [iget, sat_bind_eq, sat_get_eq] at h ⊢
  cases hf : (List.range NINODE).find? fun i =>
      decide ((k.icache i).ref > 0 ∧ (k.icache i).dev = dev ∧ (k.icache i).ip.inum = n) with
  | some i =>
    rw [hf] at h
    exact h
  | none =>
    rw [hf] at h
    cases he : (List.range NINODE).find? fun i => decide ((k.icache i).ref = 0) with
    | none =>
      rw [he] at h
      exact h
    | some e =>
      rw [he] at h
      exact h

theorem fits_newInode (ht : type < 65536) : Fits (newInode n type) :=
  ⟨ht, Nat.succ_pos _, Nat.succ_pos _, Nat.succ_pos _, Nat.two_pow_pos 32, fun _ => Nat.two_pow_pos 32, fun _ _ => rfl⟩

theorem node_newInode {block : ℕ → Sector} (ht : type ≠ 0) :
    (newInode n type).node block = .fresh type := by simp [Inode.node, newInode, ht, Node.fresh]

/-- A free inode has no valid slot, and no locked one. -/
theorem St.free_slot (h : St v k) (hp : v.points i n) (h0 : (v.node n).type = 0) :
    (k.icache i).valid = false ∧ i ∉ v.locks := by
  obtain ⟨hlive, hin, -⟩ := h.points hp
  have hv : (k.icache i).valid = false := by
    by_contra hv
    exact (h.valid_at hlive hin (by simpa using hv)).2 h0
  exact ⟨hv, fun hl => by simp [(h.held i hl).2] at hv⟩

/-- A free inode is taken and its slot locked. -/
theorem St.fresh (h : St v k) (hp : v.points i n) (h0 : (v.node n).type = 0) (ht : type ≠ 0) (ht' : type < 65536) :
    St { v with
        node := Function.update v.node n (.fresh type)
        locks := insert i v.locks
        loose := insert n v.loose }
      { k.setSlot i { k.icache i with locked := true, valid := true, ip := newInode n type } with
        block := putInode v.sb k.block (newInode n type) } := by
  obtain ⟨hlive, hin, hn⟩ := h.points hp
  have hd := h.disk.rewrite (x := newInode n type) hn (fits_newInode ht') rfl (fun _ => rfl)
    (.inl ((h.type hn).trans h0))
  rw [node_newInode ht] at hd
  have hself : (Function.update v.node n (Node.fresh type) n).type ≠ 0 := by
    rw [update_self]
    exact ht
  refine h.update (w := { v with
      node := Function.update v.node n (.fresh type), locks := insert i v.locks, loose := insert n v.loose })
    ⟨rfl, fun _ _ => rfl, fun q hq _ => hq, fun j hj => by simp [hj], fun m _ hm => Finset.mem_insert_of_mem hm,
      fun m _ hmn => ⟨update_of_ne hmn _ _, getInode_putInode_ne hmn⟩, fun _ => hin, h.away hlive hin⟩
    ⟨h.ref i, fun _ => h.lt i hlive, by simp, fun _ => hin ▸ h.dev i hlive, fun _ => rfl, h.tmp_at hin, fun hu => ?_,
      fun _ _ => ⟨(getInode_putInode (fits_newInode ht')).symm, hself⟩, fun _ => ⟨hlive, rfl⟩,
      fun _ _ => ⟨hlive, rfl, fun hn => absurd (Finset.mem_insert_self n v.loose) hn⟩⟩ hd
  obtain ⟨h1, h2⟩ := h.user i hu
  rw [hin] at h1
  exact absurd h0 (h1 ▸ h2)

/-- What `ialloc` looks for on disk is the first free node. -/
theorem St.find_free (h : St v k) :
    ((List.range k.sb.ninodes).find? fun n => decide (n ≥ 1 ∧ (getInode k.sb k.block n).type = 0)) =
      firstFree v.sb.ninodes v.node := by
  rw [h.sb]
  refine List.find?_congr fun n hn => ?_
  by_cases h1 : n ≥ 1
  · rw [h.type ⟨h1, List.mem_range.1 hn⟩]
  · simp [h1]

theorem sat_ialloc {β : Type} {f : ℕ → K β} {Q : β → Fsys → Prop} (h : St v k) (ht : type ≠ 0) (ht' : type < 65536)
    (hQ : ∀ i n k', firstFree v.sb.ninodes v.node = some n → ¬ noFit v.cached n → v.sb.has n → (v.node n).type = 0 →
      St { v with
        node := update v.node n (.fresh type)
        tmp := (i, n) ::ₘ v.tmp
        locks := insert i v.locks
        loose := insert n v.loose } k' → Sat (f i) k' Q F N)
    (hN : firstFree v.sb.ninodes v.node = none → ∀ k', N "ialloc: no inodes" k')
    (hN' : ∀ n, firstFree v.sb.ninodes v.node = some n → noFit v.cached n → ∀ k', N "iget: no inodes" k') :
    Sat (ialloc ROOTDEV type >>= fun i => ilock i >>= fun _ => f i) k Q F N := by
  simp only [ialloc, sat_bind_eq, sat_get_eq, h.find_free]
  cases hf : firstFree v.sb.ninodes v.node with
  | none => exact hN hf _
  | some n =>
    have hlt := List.mem_range.1 (List.mem_of_find?_eq_some hf)
    have hn0 := List.find?_some hf
    simp only [decide_eq_true_eq] at hn0
    have hn : v.sb.has n := ⟨hn0.1, hlt⟩
    have h0 := hn0.2
    simp only [sat_bind_eq, sat_modify_eq]
    have hB : update k.block (IBLOCK k.sb n)
        (overlay (k.block (IBLOCK k.sb n)) (n % IPB * sizeofDinode) (dinode (newInode n type))) =
        putInode v.sb k.block (newInode n type) := by
      rw [← h.sb]
      rfl
    rw [hB]
    refine sat_iget_block (sat_iget h hn (fun hfit i k2 hblk h2 => ?_) fun hfull k' => hN' n hf hfull _)
    have hp : View.points { v with tmp := (i, n) ::ₘ v.tmp } i n := .inl (mem_cons_self _ _)
    obtain ⟨hlive, hin, -⟩ := h2.points hp
    obtain ⟨hv, hlk⟩ := h2.free_slot hp h0
    have hunl : ¬ (k2.icache i).locked = true := fun hl => hlk ((h2.lock i).1 hl)
    have hst := h2.fresh hp h0 ht ht'
    rw [hblk] at hst
    have hself : getInode v.sb (putInode v.sb k.block (newInode n type)) n = newInode n type :=
      getInode_putInode (fits_newInode ht')
    have hsb : k2.sb = v.sb := h2.sb
    simp only [ilock, sat_bind_eq, sat_get_eq]
    refine sat_check (fun _ => ?_) (fun hn => absurd hlive hn)
    simp only [Sys.acquire, sat_bind_eq, sat_get_eq, if_neg hunl, sat_setSlot, if_pos hv, hin, hsb, hself]
    refine sat_check (fun _ => ?_) (fun hc => absurd ?_ hc)
    · refine hQ i n _ hf hfit hn h0 ?_
      convert hst using 1
      simp [Fsys.setSlot, hsb]
    · rw [hin, hsb, hself]
      exact ht

/-! The end of a reference. -/

/-- An inode that is not loose has a link or a user, so a reference to it is not the last. -/
theorem St.not_last (h : St v k) (hT : v.tmp = (i, n) ::ₘ T) (hn : n ∉ v.loose) : ¬ v.last i n T := by
  rintro ⟨h1, h2, h3, -⟩
  obtain ⟨hlive, hin, -⟩ := h.points (.inl (hT ▸ mem_cons_self _ _))
  have := (h.kept_self hlive hin h1 h2).2 hn
  omega

/-- The call itself refers to each loose inode. -/
def View.Safe (v : View) : Prop := ∀ n ∈ v.loose, ∃ i, (i, n) ∈ v.tmp

/-- A reference beside those of a safe view is not the last. -/
theorem St.extra (h : St { v with tmp := (i, n) ::ₘ v.tmp } k) (hs : v.Safe) :
    ¬ View.last { v with tmp := (i, n) ::ₘ v.tmp } i n v.tmp := by
  intro hl
  by_cases hn : n ∈ v.loose
  · obtain ⟨j, hj⟩ := hs n hn
    obtain ⟨h1, h2, -⟩ := h.points (.inl (mem_cons_self (i, n) v.tmp))
    obtain ⟨h3, h4, -⟩ := h.points (.inl (Multiset.mem_cons_of_mem (a := (j, n)) (b := (i, n)) hj))
    exact hl.2.2.2 _ hj (h.inj j i h3 h1 (h4.trans h2.symm))
  · exact h.not_last rfl hn hl

theorem sat_iput_extra (h : St { v with tmp := (i, n) ::ₘ v.tmp } k) (hs : v.Safe)
    (hF : i ∈ v.locks → F k) (hQ : i ∉ v.locks → ∀ k', St v k' → Q () k') : Sat (iput i) k Q F N :=
  sat_iput h rfl hF (fun hi _ => hQ hi) (fun _ hl => absurd hl (h.extra hs))

theorem sat_iunlockput_extra
    (h : St { v with tmp := (i, n) ::ₘ v.tmp, locks := insert i v.locks } k) (hs : v.Safe) (hi : i ∉ v.locks)
    (hQ : ∀ k', St v k' → Q () k') : Sat (iunlockput i) k Q F N := by
  unfold iunlockput
  rw [sat_bind_eq]
  refine sat_iunlock h (Finset.mem_insert_self i _) fun k' h' => ?_
  simp only [Finset.erase_insert hi] at h'
  exact sat_iput_extra h' hs (fun hl => absurd hl hi) fun _ => hQ

theorem St.held_iff (h : St v k) (hp : v.points i n) : n ∈ v.held ↔ 0 < v.user i := by
  obtain ⟨hlive, hin, -⟩ := h.points hp
  rw [h.mem_held]
  constructor
  · rintro ⟨j, hj, rfl⟩
    obtain ⟨h1, h2, -⟩ := h.points (.inr ⟨hj, rfl⟩)
    exact h.inj j i h1 hlive (h2.trans hin.symm) ▸ hj
  · intro hu
    exact ⟨i, hu, (h.user i hu).1.symm.trans hin⟩

/-- The call's last reference to an inode goes. -/
theorem sat_iput_release (h : St v k) (hT : v.tmp = (i, n) ::ₘ T) (hone : ∀ q ∈ T, q.1 ≠ i) (hi : i ∉ v.locks)
    (hQ : ∀ k', St { v with
      tmp := T
      node := release v.node v.held n
      loose := v.loose.erase n } k' → Q () k') : Sat (iput i) k Q F N := by
  have hheld : n ∈ v.held ↔ 0 < v.user i := h.held_iff (.inl (hT ▸ mem_cons_self _ _))
  refine sat_iput h hT (fun hl => absurd hl hi) (fun _ hlast k' h' => hQ k' ?_) (fun _ hlast k' h' => hQ k' ?_)
  · have hfree : ¬ ((v.node n).type ≠ 0 ∧ (v.node n).nlink = 0 ∧ n ∉ v.held) := fun hc =>
      hlast ⟨hc.1, hc.2.1, Nat.eq_zero_of_not_pos fun hu => hc.2.2 (hheld.2 hu), hone⟩
    rw [release, if_neg hfree]
    refine ⟨h'.sb, h'.file, h'.proc, h'.pipe, h'.outstanding, h'.disk, h'.ref, h'.lt, h'.lock, h'.dev, h'.inj, h'.tmp,
      h'.user, h'.valid, h'.held, fun m hm ht h0 => ?_⟩
    obtain ⟨j, h1, h2, h3, h4⟩ := h'.kept m hm ht h0
    refine ⟨j, h1, h2, h3, fun hml => ?_⟩
    by_cases hmn : m = n
    · subst hmn
      have hh : m ∈ v.held := by
        by_contra hh
        exact hfree ⟨ht, h0, hh⟩
      obtain ⟨l, hl, hlm⟩ := h.mem_held.1 hh
      obtain ⟨h5, h6, -⟩ := h'.points (.inr ⟨hl, hlm⟩)
      exact h'.inj l j h5 h1 (h6.trans h2.symm) ▸ hl
    · exact h4 fun hml' => hml (Finset.mem_erase.2 ⟨hmn, hml'⟩)
  · have hfree : (v.node n).type ≠ 0 ∧ (v.node n).nlink = 0 ∧ n ∉ v.held :=
      ⟨hlast.1, hlast.2.1, fun hh => by have := hheld.1 hh; have := hlast.2.2.1; omega⟩
    rw [release, if_pos hfree]
    exact h'

theorem sat_iunlockput_release (h : St v k) (hi : i ∈ v.locks) (hT : v.tmp = (i, n) ::ₘ T) (hone : ∀ q ∈ T, q.1 ≠ i)
    (hQ : ∀ k', St { v with
      tmp := T
      locks := v.locks.erase i
      node := release v.node v.held n
      loose := v.loose.erase n } k' → Q () k') : Sat (iunlockput i) k Q F N := by
  unfold iunlockput
  rw [sat_bind_eq]
  exact sat_iunlock h hi fun k' h' => sat_iput_release h' hT hone (by simp) hQ

/-! References of files and processes. -/

/-- A user's reference becomes one of the call. -/
theorem St.fromUser (h : St v k) (hu : 0 < v.user i) :
    St { v with
      user := Function.update v.user i (v.user i - 1)
      tmp := (i, v.num i) ::ₘ v.tmp
      loose := insert (v.num i) v.loose } k := by
  obtain ⟨hlive, hin, hn⟩ := h.points (.inr ⟨hu, rfl⟩)
  have huser : ∀ j, Function.update v.user i (v.user i - 1) j ≤ v.user j := by
    intro j
    by_cases hj : j = i
    · rw [hj, update_self]
      omega
    · rw [update_of_ne hj]
  refine ⟨h.sb, h.file, h.proc, h.pipe, h.outstanding, h.disk, fun j => ?_, h.lt, h.lock, h.dev, h.inj, fun q hq => ?_,
    fun j hj => h.user j (lt_of_lt_of_le hj (huser j)), h.valid, h.held, fun m hm ht h0 => ?_⟩
  · change (k.icache j).ref = Function.update v.user i (v.user i - 1) j +
      (((i, v.num i) ::ₘ v.tmp).map Prod.fst).count j
    have hr := h.ref j
    by_cases hj : j = i
    · subst hj
      rw [update_self, count_cons_self, hr, View.mine]
      omega
    · rw [update_of_ne hj, count_cons_ne hj, hr, View.mine]
  · rcases Multiset.mem_cons.1 hq with rfl | hq
    · exact hin
    · exact h.tmp q hq
  · obtain ⟨j, h1, h2, h3, h4⟩ := h.kept m hm ht h0
    refine ⟨j, h1, h2, h3, fun hml => ?_⟩
    simp only [Finset.mem_insert, not_or] at hml
    change 0 < Function.update v.user i (v.user i - 1) j
    rw [update_of_ne]
    · exact h4 hml.2
    · rintro rfl
      exact hml.1 (h2.symm.trans hin)

/-- A reference of the call becomes a user's. -/
theorem St.toUser (h : St v k) (hT : v.tmp = (i, n) ::ₘ T) (ht : (v.node n).type ≠ 0) :
    St { v with
      user := Function.update v.user i (v.user i + 1)
      num := Function.update v.num i n
      tmp := T
      loose := v.loose.erase n } k := by
  obtain ⟨hlive, hin, hn⟩ := h.points (.inl (hT ▸ mem_cons_self _ _))
  refine ⟨h.sb, h.file, h.proc, h.pipe, h.outstanding, h.disk, fun j => ?_, h.lt, h.lock, h.dev, h.inj,
    fun q hq => h.tmp q (hT ▸ Multiset.mem_cons_of_mem hq), fun j hj => ?_, h.valid, h.held, fun m hm ht h0 => ?_⟩
  · change (k.icache j).ref = Function.update v.user i (v.user i + 1) j + (T.map Prod.fst).count j
    have hr := h.ref j
    rw [View.mine, hT] at hr
    by_cases hj : j = i
    · subst hj
      rw [count_cons_self] at hr
      rw [update_self]
      omega
    · rw [count_cons_ne hj] at hr
      rw [update_of_ne hj, hr]
  · change 0 < Function.update v.user i (v.user i + 1) j at hj
    change _ = Function.update v.num i n j ∧ (v.node (Function.update v.num i n j)).type ≠ 0
    by_cases hji : j = i
    · subst hji
      rw [update_self]
      exact ⟨hin, ht⟩
    · rw [update_of_ne hji] at hj ⊢
      exact h.user j hj
  · obtain ⟨j, h1, h2, h3, h4⟩ := h.kept m hm ht h0
    refine ⟨j, h1, h2, h3, fun hml => ?_⟩
    change 0 < Function.update v.user i (v.user i + 1) j
    by_cases hji : j = i
    · subst hji
      rw [update_self]
      exact Nat.succ_pos _
    · rw [update_of_ne hji]
      refine h4 fun hml' => hml (Finset.mem_erase.2 ⟨?_, hml'⟩)
      rintro rfl
      exact hji (h.inj j i h1 hlive (h2.trans hin.symm))

/-- More inodes may be loose. -/
theorem St.loosen {L : Finset ℕ} (h : St v k) (hL : v.loose ⊆ L) : St { v with loose := L } k :=
  { h with
    kept := fun m hm ht h0 => by
      obtain ⟨j, h1, h2, h3, h4⟩ := h.kept m hm ht h0
      exact ⟨j, h1, h2, h3, fun hml => h4 fun hml' => hml (hL hml')⟩ }

/-- Less is known. -/
theorem St.weaken {r : ℕ} (h : St v k) (hr : r ≤ v.room) : St { v with room := r } k :=
  { h with disk := { h.disk with room := hr.trans h.disk.room } }

end Xv6.Sys

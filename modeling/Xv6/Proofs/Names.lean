import Xv6.Spec.Space
import Xv6.Proofs.Entries
import Xv6.Proofs.Refs

/-! Directories and paths: what the code finds and writes, in terms of the nodes. -/

namespace Xv6.Sys

open Prog Bytes Multiset

variable {v : View} {k : Fsys} {i j n m : ℕ} {T : Multiset (ℕ × ℕ)} {F : Fsys → Prop} {N : String → Fsys → Prop}
  {name path : List UInt8} {b : Bool} {Q : Option (ℕ × List UInt8) → Fsys → Prop}
  {r : Except String (Option (ℕ × List UInt8))}

theorem St.size_le (h : St v k) (hn : v.sb.has n) (h0 : (v.node n).type ≠ 0) (hd : (v.node n).type ≠ T_DEV) :
    (v.node n).size ≤ MAXFILE * BSIZE := by
  rw [← h.type hn] at h0 hd
  rw [← h.disk.nodes n hn, node_size h0]
  exact (h.disk.cover n hn h0 hd).size

/-- Directories end with a whole entry. -/
theorem St.entry_le (h : St v k) (hn : v.sb.has n) (hd : (v.node n).type = T_DIR)
    (hj : sizeofDirent * j < (v.node n).size) :
    sizeofDirent * j + sizeofDirent ≤ (v.node n).size ∧ (v.node n).size ≤ MAXFILE * BSIZE := by
  have h1 := (h.disk.dirs n hn hd).1
  have h2 := h.size_le hn (by rw [hd]; decide) (by rw [hd]; decide)
  simp only [show sizeofDirent = 16 from rfl] at *
  omega

/-- Entries of a directory name inodes of the disk. -/
theorem St.has_ent (h : St v k) (hp : v.points i n) (hd : (v.node n).type = T_DIR)
    (hj : sizeofDirent * j < (v.node n).size) (h0 : ((v.node n).ent j).inum ≠ 0) : v.sb.has ((v.node n).ent j).inum :=
  (h.disk.dirs n (h.points hp).2.2 hd).2 j hj h0

section Locked

variable {x : Node} {C : Finset ℕ} (h : St v k) (hi : i ∈ v.locks) (hp : v.points i n) (hx : v.node n = x)
  (hd : x.type = T_DIR) {msg : String} {fuel : ℕ} {Q : Option (ℕ × ℕ) → Fsys → Prop}

include h hi hp hx hd

theorem sat_readDirent {Q : Dirent → Fsys → Prop} (hj : sizeofDirent * j < x.size)
    (hQ : Q (x.ent j) k) : Sat (readDirent i (sizeofDirent * j) msg) k Q F N := by
  subst hx
  obtain ⟨h1, h2⟩ := h.entry_le (h.points hp).2.2 hd hj
  have hM : MAXFILE * BSIZE < 2 ^ 32 := by decide
  have hu : u32 (sizeofDirent * j + sizeofDirent) = sizeofDirent * j + sizeofDirent :=
    Nat.mod_eq_of_lt (by omega)
  have hread : (v.node n).read (sizeofDirent * j) sizeofDirent =
      ((sizeofDirent : ℤ), (List.range sizeofDirent).map fun l => (v.node n).data (sizeofDirent * j + l)) := by
    rw [Node.read, hu, if_neg (by omega), if_neg (by omega)]
  unfold readDirent
  rw [sat_bind_eq]
  refine sat_readInode h hi hp (by decide) (fun hdev => absurd (hd.symm.trans hdev) (by decide)) fun _ => ?_
  rw [hread, sat_bind_eq]
  exact sat_check (fun _ => hQ) (fun hc => absurd rfl hc)

theorem sat_dirlookupLoop {r : Option ℕ} (hr : x.first (fun de => de.inum ≠ 0 ∧ namecmp name de.name = 0) fuel j = r)
    (hnone : r = none → Q none k)
    (hsome : ∀ l, r = some l → ¬ noFit v.cached (x.ent l).inum → ∀ e k',
      St { v with tmp := (e, (x.ent l).inum) ::ₘ v.tmp } k' → Q (some (e, sizeofDirent * l)) k')
    (hN : ∀ l, r = some l → noFit v.cached (x.ent l).inum → ∀ k', N "iget: no inodes" k') :
    Sat (dirlookupLoop i name fuel (sizeofDirent * j)) k Q F N := by
  have hsize : (k.icache i).ip.size = x.size := (h.locked_size hi hp).trans (congrArg Node.size hx)
  induction fuel generalizing j with
  | zero => exact hnone hr.symm
  | succ fuel ih =>
    unfold dirlookupLoop
    rw [Node.first] at hr
    rw [sat_bind_eq, sat_get_eq, hsize]
    by_cases hj : sizeofDirent * j < x.size
    · rw [if_pos hj, sat_bind_eq]
      rw [if_pos hj] at hr
      refine sat_readDirent h hi hp hx hd hj ?_
      by_cases hc : (x.ent j).inum ≠ 0 ∧ namecmp name (x.ent j).name = 0
      · rw [if_pos hc, sat_bind_eq, (h.dev i (h.points hp).1).1]
        rw [if_pos (by simpa using hc)] at hr
        have hin : v.sb.has (x.ent j).inum := by
          subst hx
          exact h.has_ent hp hd hj hc.1
        exact sat_iget h hin (fun hf e k' _ h' => hsome j hr.symm hf e k' h') (fun hf => hN j hr.symm hf)
      · rw [if_neg hc]
        rw [if_neg (by simpa using hc)] at hr
        exact ih hr
    · rw [if_neg hj]
      rw [if_neg hj] at hr
      exact hnone hr.symm

theorem sat_dirlookup (hC : v.cached = C) (hnone : x.find name = none → Q none k)
    (hsome : ∀ l, x.find name = some l → ¬ noFit C (x.ent l).inum → ∀ e k',
      St { v with tmp := (e, (x.ent l).inum) ::ₘ v.tmp } k' → Q (some (e, sizeofDirent * l)) k')
    (hN : ∀ l, x.find name = some l → noFit C (x.ent l).inum → ∀ k', N "iget: no inodes" k') :
    Sat (dirlookup i name) k Q F N := by
  subst hC
  unfold dirlookup
  rw [sat_bind_eq, sat_get_eq, sat_bind_eq]
  refine sat_check (fun _ => ?_) (fun hc => absurd ((h.locked_type hi hp).trans ((congrArg Node.type hx).trans hd)) hc)
  rw [h.locked_size hi hp, hx]
  exact sat_dirlookupLoop (j := 0) h hi hp hx hd rfl hnone hsome hN

theorem sat_emptyLoop {Q : ℕ → Fsys → Prop} (hfuel : x.size ≤ sizeofDirent * (j + fuel))
    (hj : sizeofDirent * j ≤ x.size)
    (hQ : Q (sizeofDirent * (x.first (fun de => de.inum = 0) fuel j).getD (x.size / sizeofDirent)) k) :
    Sat (emptyLoop i fuel (sizeofDirent * j)) k Q F N := by
  have hend : ¬ sizeofDirent * j < x.size → sizeofDirent * (x.size / sizeofDirent) = sizeofDirent * j := by
    intro hlt
    rw [le_antisymm (Nat.not_lt.1 hlt) hj, Nat.mul_div_cancel_left j (by decide)]
  induction fuel generalizing j with
  | zero =>
    rw [Node.first, Option.getD_none, hend (Nat.not_lt.2 hfuel)] at hQ
    exact hQ
  | succ fuel ih =>
    unfold emptyLoop
    rw [Node.first] at hQ
    rw [sat_bind_eq, sat_get_eq, h.locked_size hi hp, hx]
    by_cases hlt : sizeofDirent * j < x.size
    · rw [if_pos hlt, sat_bind_eq]
      rw [if_pos hlt] at hQ
      refine sat_readDirent h hi hp hx hd hlt ?_
      by_cases hc : (x.ent j).inum = 0
      · rw [if_pos hc]
        rw [if_pos (by simpa using hc)] at hQ
        exact hQ
      · rw [if_neg hc]
        rw [if_neg (by simpa using hc)] at hQ
        have hle : sizeofDirent * (j + 1) ≤ x.size := by
          subst hx
          exact (h.entry_le (h.points hp).2.2 hd hlt).1
        refine ih (by rw [show j + 1 + fuel = j + (fuel + 1) by omega]; exact hfuel) hle hQ fun hge => ?_
        rw [le_antisymm (Nat.not_lt.1 hge) hle, Nat.mul_div_cancel_left _ (by decide)]
    · rw [if_neg hlt]
      rw [if_neg hlt, Option.getD_none, hend hlt] at hQ
      exact hQ

theorem sat_isdiremptyLoop {Q : Bool → Fsys → Prop} (hQ : Q (x.first (fun de => de.inum ≠ 0) fuel j).isNone k) :
    Sat (isdiremptyLoop i fuel (sizeofDirent * j)) k Q F N := by
  induction fuel generalizing j with
  | zero => exact hQ
  | succ fuel ih =>
    unfold isdiremptyLoop
    rw [Node.first] at hQ
    rw [sat_bind_eq, sat_get_eq, h.locked_size hi hp, hx]
    by_cases hlt : sizeofDirent * j < x.size
    · rw [if_pos hlt, sat_bind_eq]
      rw [if_pos hlt] at hQ
      refine sat_readDirent h hi hp hx hd hlt ?_
      by_cases hc : (x.ent j).inum ≠ 0
      · rw [if_pos hc]
        rw [if_pos (by simpa using hc)] at hQ
        exact hQ
      · rw [if_neg hc]
        rw [if_neg (by simpa using hc)] at hQ
        exact ih hQ
    · rw [if_neg hlt]
      rw [if_neg hlt] at hQ
      exact hQ

theorem sat_isdirempty {Q : Bool → Fsys → Prop} (hQ : Q x.isEmpty k) : Sat (isdirempty i) k Q F N := by
  unfold isdirempty
  rw [sat_bind_eq, sat_get_eq, h.locked_size hi hp, hx, Nat.mul_comm]
  exact sat_isdiremptyLoop h hi hp hx hd hQ

/-- An entry of the directory, or the one after the last, is written. -/
theorem sat_writeDirent {de : Dirent} {Q : Unit → Fsys → Prop} (hde : de.Ok v.sb) (hj : sizeofDirent * j ≤ x.size)
    (hQ : ¬ sizeofDirent * j + sizeofDirent > MAXFILE * BSIZE → ∀ k',
      St { v with node := Function.update v.node n (x.setEnt j de), room := v.room - 2 } k' → Q () k')
    (hbad : sizeofDirent * j + sizeofDirent > MAXFILE * BSIZE → ∀ k', N msg k')
    (hN : v.room < 2 → ∀ k', N "balloc: out of blocks" k') :
    Sat (writeDirent i (sizeofDirent * j) de msg) k Q F N := by
  subst hx
  have hn := (h.points hp).2.2
  have hspan : 2 * spans (sizeofDirent * j) sizeofDirent = 2 := by
    simp only [spans, show sizeofDirent = 16 from rfl, show BSIZE = 512 from rfl]
    omega
  have hrefuse : (v.node n).refuses (sizeofDirent * j) sizeofDirent ↔
      sizeofDirent * j + sizeofDirent > MAXFILE * BSIZE := by
    have hle := h.size_le hn (by rw [hd]; decide) (by rw [hd]; decide)
    have hM : MAXFILE * BSIZE + sizeofDirent < 2 ^ 32 := by decide
    have hu : u32 (sizeofDirent * j + sizeofDirent) = sizeofDirent * j + sizeofDirent :=
      Nat.mod_eq_of_lt (by omega)
    rw [Node.refuses, hu]
    omega
  unfold writeDirent
  rw [sat_bind_eq]
  refine sat_writeInode h hi hp (by decide) (fun hdev => absurd (hd.symm.trans hdev) (by decide)) (fun _ hr => ?_)
    ((h.disk.dirs n hn).setEnt h.disk.own.layout hj hde) (fun _ hr k' h' => ?_) (fun hr => hN (hspan ▸ hr))
  · exact sat_check (fun hc => absurd hc (by decide)) (fun _ => hbad (hrefuse.1 hr) k)
  · rw [hspan] at h'
    exact sat_check (fun _ => hQ (fun hc => hr (hrefuse.2 hc)) k' h') (fun hc => absurd rfl hc)

/-- `dirlink`. When it finds the name, it drops the inode, and that may be the directory, locked. -/
theorem sat_dirlink {Q : ℤ → Fsys → Prop} (hC : v.cached = C) (hs : v.Safe)
    (hl : ∀ l, x.find name = some l → v.locks = {i}) (hm : v.sb.has m)
    (hfound : ∀ l, x.find name = some l → ¬ noFit C (x.ent l).inum → (x.ent l).inum ≠ n → ∀ k', St v k' → Q (-1) k')
    (hF : ∀ l, x.find name = some l → ¬ noFit C (x.ent l).inum → (x.ent l).inum = n → ∀ e k',
      St { v with tmp := (e, (x.ent l).inum) ::ₘ v.tmp } k' → F k')
    (hN : ∀ l, x.find name = some l → noFit C (x.ent l).inum → ∀ k', N "iget: no inodes" k')
    (hQ : x.find name = none → ¬ x.full → ∀ k',
      St { v with node := Function.update v.node n (x.enter m name), room := v.room - 2 } k' → Q 0 k')
    (hfull : x.find name = none → x.full → ∀ k', N "dirlink" k')
    (hroom : x.find name = none → v.room < 2 → ∀ k', N "balloc: out of blocks" k') :
    Sat (dirlink i name m) k Q F N := by
  have hn := (h.points hp).2.2
  unfold dirlink
  rw [sat_bind_eq]
  refine sat_dirlookup h hi hp hx hd hC (fun hnone => ?_) (fun l hsome hfit e k' h' => ?_) hN
  · simp only [sat_bind_eq, sat_get_eq, h.locked_size hi hp, hx]
    refine sat_emptyLoop (j := 0) h hi hp hx hd (size_le_fuel 0) (Nat.zero_le _) ?_
    have hdirs := h.disk.dirs n hn
    rw [hx] at hdirs
    exact sat_writeDirent h hi hp hx hd ⟨.inr hm, length_strncpy⟩ (gap_le (hdirs hd).1) (hQ hnone)
      (hfull hnone) (hroom hnone)
  · obtain ⟨h1, h2, -⟩ := h'.points (.inl (mem_cons_self _ _))
    obtain ⟨h3, h4, -⟩ := h'.points (i := i) (n := n) (hp.imp mem_cons_of_mem id)
    have hei : e ∈ v.locks ↔ (x.ent l).inum = n := by
      rw [hl l hsome, Finset.mem_singleton]
      constructor
      · rintro rfl
        exact h2.symm.trans h4
      · intro he
        exact h'.inj e i h1 h3 (h2.trans (he.trans h4.symm))
    rw [sat_bind_eq]
    exact sat_iput_extra h' hs (fun he => hF l hsome hfit (hei.1 he) e k' h') fun he => hfound l hsome hfit (he ∘ hei.2)

/-- `dirlink` of a name that is not there. -/
theorem sat_dirlink_new {Q : ℤ → Fsys → Prop} (hs : v.Safe) (hm : v.sb.has m) (hnone : x.find name = none)
    (hQ : ¬ x.full → ∀ k',
      St { v with node := Function.update v.node n (x.enter m name), room := v.room - 2 } k' → Q 0 k')
    (hfull : x.full → ∀ k', N "dirlink" k') (hroom : v.room < 2 → ∀ k', N "balloc: out of blocks" k') :
    Sat (dirlink i name m) k Q F N :=
  sat_dirlink h hi hp hx hd rfl hs (fun l hl => by rw [hnone] at hl; cases hl) hm
    (fun l hl => by rw [hnone] at hl; cases hl) (fun l hl => by rw [hnone] at hl; cases hl)
    (fun l hl => by rw [hnone] at hl; cases hl) (fun _ => hQ) (fun _ => hfull) (fun _ => hroom)

end Locked

/-! Paths. -/

theorem cached_cons : View.cached { v with tmp := (i, n) ::ₘ v.tmp } = insert n v.cached := by
  simp only [View.cached, View.held, map_cons, toFinset_cons, Finset.union_insert]

/-- The walk from a node that the call refers to, with no inode locked: the same as over the nodes. -/
theorem sat_namexLoop {fuel : ℕ} (h : St { v with tmp := (i, n) ::ₘ v.tmp } k) (hs : v.Safe)
    (hl : v.locks = ∅) (hr : walk v.node v.cached b fuel n path = r)
    (hnone : r = .ok none → ∀ k', St v k' → Q none k')
    (hsome : ∀ m s, r = .ok (some (m, s)) → ∀ e k', St { v with tmp := (e, m) ::ₘ v.tmp } k' → Q (some (e, s)) k')
    (hN : ∀ msg, r = .error msg → ∀ k', N msg k') : Sat (namexLoop b fuel i path) k Q F N := by
  induction fuel generalizing i n path k with
  | zero => exact hsome n [] hr.symm i k h
  | succ fuel ih =>
    have hi : i ∉ v.locks := by rw [hl]; exact Finset.notMem_empty i
    have hp : ∀ {L}, View.points { v with tmp := (i, n) ::ₘ v.tmp, locks := L } i n := .inl (mem_cons_self _ _)
    unfold namexLoop
    unfold walk at hr
    cases hsk : skipelem path with
    | none =>
      rw [hsk] at hr
      cases b with
      | true =>
        simp only [if_true, sat_bind_eq] at hr ⊢
        exact sat_iput_extra h hs (fun hc => absurd hc hi) fun _ => hnone hr.symm
      | false => exact hsome n [] hr.symm i k h
    | some q =>
      obtain ⟨s, rest⟩ := q
      rw [hsk] at hr
      simp only [sat_bind_eq, sat_get_eq]
      refine sat_ilock h hp (fun _ h0 k' h' => ?_) (fun hc => absurd hc hi) (fun _ h0 => ?_)
      · have hmem : i ∈ insert i v.locks := Finset.mem_insert_self i _
        simp only [if_neg h0] at hr
        rw [h'.locked_type hmem hp]
        by_cases hdir : (v.node n).type = T_DIR
        · rw [if_neg (not_not.2 hdir)]
          simp only [if_neg (not_not.2 hdir)] at hr
          by_cases hlast : b = true ∧ rest = []
          · rw [if_pos hlast, sat_bind_eq]
            rw [if_pos hlast] at hr
            refine sat_iunlock h' hmem fun k' h' => hsome n s hr.symm i k' ?_
            simpa only [Finset.erase_insert hi] using h'
          · rw [if_neg hlast, sat_bind_eq]
            rw [if_neg hlast] at hr
            refine sat_dirlookup (C := insert n v.cached) h' hmem hp rfl hdir cached_cons (fun hnf => ?_)
              (fun l hf hfit e k' h' => ?_) (fun l hf hfit => ?_)
            · rw [hnf] at hr
              simp only [sat_bind_eq]
              exact sat_iunlockput_extra h' hs hi (hnone hr.symm)
            · simp only [hf] at hr
              rw [if_neg hfit] at hr
              simp only [sat_bind_eq]
              rw [cons_swap] at h'
              refine sat_iunlockput_extra (v := { v with tmp := (e, ((v.node n).ent l).inum) ::ₘ v.tmp }) h' ?_ hi
                fun k' h' => ih h' hr
              intro m hm
              obtain ⟨j, hj⟩ := hs m hm
              exact ⟨j, mem_cons_of_mem hj⟩
            · simp only [hf] at hr
              rw [if_pos hfit] at hr
              exact hN _ hr.symm
        · rw [if_pos hdir, sat_bind_eq]
          simp only [if_pos hdir] at hr
          exact sat_iunlockput_extra h' hs hi (hnone hr.symm)
      · simp only [if_pos (show (v.node n).type = 0 from h0)] at hr
        exact hN _ hr.symm

/-- `namex` for a process whose current directory is in use. -/
theorem sat_namex {p : ℕ} {C : Finset ℕ} (h : St v k) (hs : v.Safe) (hl : v.locks = ∅)
    (hroot : v.sb.has ROOTINO) (hcwd : 0 < v.user (v.proc p).cwd) (hC : v.cached = C)
    (hr : resolve v.node C (v.num (v.proc p).cwd) path b = r)
    (hnone : r = .ok none → ∀ k', St v k' → Q none k')
    (hsome : ∀ m s, r = .ok (some (m, s)) → ∀ e k', St { v with tmp := (e, m) ::ₘ v.tmp } k' → Q (some (e, s)) k')
    (hN : ∀ msg, r = .error msg → ∀ k', N msg k') : Sat (namex p path b) k Q F N := by
  subst hC
  unfold namex
  unfold resolve at hr
  simp only [sat_bind_eq, sat_get_eq]
  by_cases habs : path.head? = some slash
  · simp only [if_pos habs, sat_bind_eq] at hr ⊢
    refine sat_iget h hroot (fun hfit e k' _ h' => ?_) (fun hfit => ?_)
    · rw [if_neg hfit] at hr
      exact sat_namexLoop h' hs hl hr hnone hsome hN
    · rw [if_pos hfit] at hr
      exact hN _ hr.symm
  · simp only [if_neg habs, sat_bind_eq] at hr ⊢
    have hheld : v.num (v.proc p).cwd ∈ v.cached :=
      Finset.mem_union_left _ (h.mem_held.2 ⟨_, hcwd, rfl⟩)
    rw [if_neg fun hf => hf.1 hheld] at hr
    rw [h.proc]
    exact sat_idup h (.inr ⟨hcwd, rfl⟩) fun k' h' => sat_namexLoop h' hs hl hr hnone hsome hN

end Xv6.Sys

import Xv6.Proofs.Calls

/-! `create`, for `open`, `mkdir` and `mknod`. -/

namespace Xv6.Sys

open Prog Bytes Function
open Finset (mem_insert_self notMem_empty)
open Multiset (mem_cons_self mem_cons_of_mem cons_swap)

variable {v : View} {k : Fsys} {e i j n m d p type major minor : ℕ} {F : Fsys → Prop} {N : String → Fsys → Prop}
  {name path : List UInt8} {Q : Option ℕ → Fsys → Prop}

/-- A new node with one link. -/
def newNode (type major minor : ℕ) : Node := { Node.fresh type with major := major, minor := minor, nlink := 1 }

/-- A new directory in directory `d`. -/
def newDir (n d major minor : ℕ) : Node := ((newNode T_DIR major minor).enter n dot).enter d dotdot

section Dots

variable {x : Node} {sb : Superblock}

theorem enter_size (h : x.size = 0) : (x.enter n name).size = sizeofDirent := by
  rw [Node.enter, gap_of_size_zero h, setEnt_size, h]
  rfl

theorem enter_ent (h : x.size = 0) (hn : n < 65536) : (x.enter n name).ent 0 = ⟨n, strncpy name DIRSIZ⟩ := by
  rw [Node.enter, gap_of_size_zero h, ent_setEnt_self hn length_strncpy]

theorem find_dotdot (h : x.size = 0) (hn : n < 65536) : (x.enter n dot).find dotdot = none := by
  refine find_of_one (enter_size h) ?_
  rw [enter_ent h hn]
  exact (by decide : namecmp dotdot (strncpy dot DIRSIZ) ≠ 0)

end Dots

theorem sat_setDev {Q : Unit → Fsys → Prop} (h : St v k) (hi : i ∈ v.locks) (hp : v.points i n) (hmaj : major < 65536)
    (hmin : minor < 65536) {L : Finset ℕ} (hL : ∀ m, m ≠ n → m ∈ v.loose → m ∈ L)
    (hQ : ∀ k', St { v with
      node := update v.node n { v.node n with major := major, minor := minor, nlink := 1 }
      loose := L } k' → Q () k') :
    Sat (setInode i fun x => { x with major := major, minor := minor, nlink := 1 }) k Q F N := by
  refine sat_setInode (g := fun x => { x with major := major, minor := minor, nlink := 1 }) h hi hp
    (fun _ => ⟨rfl, rfl, rfl, rfl⟩)
    (fun _ hf => ⟨hf.type, hmaj, hmin, Nat.one_lt_two_pow (n := 16) (by decide), hf.size, hf.addrs, hf.rest⟩) (fun ip block ht => ?_)
    (fun h0 => absurd h0 Nat.one_ne_zero) hL hQ
  have ht' : Inode.type { ip with major := major, minor := minor, nlink := 1 } ≠ 0 := ht
  rw [Inode.node, if_neg ht', Inode.node, if_neg ht]
  rfl

/-- The entries `.` and `..` of the new directory `n` in `d`. -/
theorem sat_createDots {Q : Unit → Fsys → Prop} {nd : ℕ → Node} (hne : n ≠ d) (hloose : v.loose = ∅)
    (h : St { v with
      node := update nd n (newNode T_DIR major minor)
      tmp := (e, n) ::ₘ (i, d) ::ₘ v.tmp
      locks := insert e (insert i v.locks) } k)
    (hQ : ∀ k', St { v with
      node := update (update nd n (newDir n d major minor)) d (nd d).incLink
      tmp := (e, n) ::ₘ (i, d) ::ₘ v.tmp
      locks := insert e (insert i v.locks)
      loose := insert d v.loose
      room := v.room - 4 } k' → Q () k')
    (hN : v.room < 4 → ∀ k', N "balloc: out of blocks" k') : Sat (createDots i e) k Q F N := by
  have hin : i ∈ insert e (insert i v.locks) := Finset.mem_insert_of_mem (mem_insert_self _ _)
  have hen : e ∈ insert e (insert i v.locks) := mem_insert_self _ _
  have hpe : ∀ {w : View}, w.tmp = (e, n) ::ₘ (i, d) ::ₘ v.tmp → w.points e n := fun hw =>
    .inl (hw ▸ mem_cons_self _ _)
  have hpi : ∀ {w : View}, w.tmp = (e, n) ::ₘ (i, d) ::ₘ v.tmp → w.points i d := fun hw =>
    .inl (hw ▸ mem_cons_of_mem (mem_cons_self _ _))
  obtain ⟨-, -, hasn⟩ := h.points (hpe rfl)
  obtain ⟨-, -, hasd⟩ := h.points (hpi rfl)
  have hlt : n < 65536 := lt_of_lt_of_le hasn.2 h.disk.own.layout.ninodes
  have hsafe : ∀ m ∈ insert d v.loose, ∃ x, (x, m) ∈ (e, n) ::ₘ (i, d) ::ₘ v.tmp := by
    intro m hm
    rw [hloose] at hm
    obtain rfl : m = d := by simpa using hm
    exact ⟨i, mem_cons_of_mem (mem_cons_self _ _)⟩
  unfold createDots
  simp only [sat_bind_eq, sat_get_eq]
  refine sat_incLink h hin (hpi rfl) fun k1 h1 => ?_
  rw [h1.locked_inum hen (hpe rfl), h1.locked_inum hin (hpi rfl)]
  have hx : update (update nd n (newNode T_DIR major minor)) d
      (update nd n (newNode T_DIR major minor) d).incLink n = newNode T_DIR major minor := by
    rw [update_of_ne hne, update_self]
  refine sat_dirlink_new h1 hen (hpe rfl) hx rfl hsafe hasn (find_of_size_zero rfl) (fun _ k2 h2 => ?_) (fun hf => ?_)
    (fun hroom => hN (lt_of_lt_of_le hroom (by decide)))
  swap
  · rw [Node.full, gap_of_size_zero rfl] at hf
    exact absurd hf (by decide)
  refine sat_check (fun _ => ?_) (fun hc => absurd (by decide) hc)
  have hx2 : update (update (update nd n (newNode T_DIR major minor)) d
      (update nd n (newNode T_DIR major minor) d).incLink) n ((newNode T_DIR major minor).enter n dot) n =
      (newNode T_DIR major minor).enter n dot := update_self ..
  have hsize : ((newNode T_DIR major minor).enter n dot).size = sizeofDirent := enter_size rfl
  have hn0 : (((newNode T_DIR major minor).enter n dot).ent 0).inum ≠ 0 := by
    rw [enter_ent rfl hlt]
    exact Nat.one_le_iff_ne_zero.1 hasn.1
  refine sat_dirlink_new h2 hen (hpe rfl) hx2 rfl hsafe hasd (find_dotdot rfl hlt) (fun _ k3 h3 => ?_) (fun hf => ?_)
    (fun hroom => hN ?_)
  · refine sat_check (fun _ => hQ _ ?_) (fun hc => absurd (by decide) hc)
    simp only [update_idem, update_of_ne hne.symm, update_comm hne.symm, Nat.sub_sub] at h3
    exact h3
  · rw [Node.full, gap_of_one hsize hn0] at hf
    exact absurd hf (by decide)
  · change v.room - 2 < 2 at hroom
    omega

/-- The name of the new node goes into the directory. -/
theorem sat_createName {w : ℕ → Node} {r : ℕ} (hr : v.Rest) (hne : n ≠ d)
    (hd : (w d).type = T_DIR) (hf : (w d).find name = none)
    (h : St { v with
      node := w
      tmp := (e, n) ::ₘ (i, d) ::ₘ v.tmp
      locks := insert e (insert i v.locks)
      loose := insert d v.loose
      room := r } k)
    (hQ : ¬ (w d).full → ∀ k', St { v with
      node := release (update w d ((w d).enter n name)) v.held d
      tmp := (e, n) ::ₘ v.tmp
      locks := insert e v.locks
      room := r - 2 } k' → Q (some e) k')
    (hfull : (w d).full → ∀ k', N "dirlink" k') (hN : r < 2 → ∀ k', N "balloc: out of blocks" k') :
    Sat (do
      let k ← get
      let r ← dirlink i name (k.icache e).ip.inum
      check (¬ r < 0) "create: dirlink"
      iunlockput i
      return some e) k Q F N := by
  have hlk := hr.unlocked
  have hin : i ∈ insert e (insert i v.locks) := Finset.mem_insert_of_mem (mem_insert_self _ _)
  have hpe : ∀ {w : View}, w.tmp = (e, n) ::ₘ (i, d) ::ₘ v.tmp → w.points e n := fun hw =>
    .inl (hw ▸ mem_cons_self _ _)
  have hpi : ∀ {w : View}, w.tmp = (e, n) ::ₘ (i, d) ::ₘ v.tmp → w.points i d := fun hw =>
    .inl (hw ▸ mem_cons_of_mem (mem_cons_self _ _))
  obtain ⟨h1, h2, hasn⟩ := h.points (hpe rfl)
  obtain ⟨-, h4, -⟩ := h.points (hpi rfl)
  have hei : e ≠ i := by
    rintro rfl
    exact hne (h2.symm.trans h4)
  have hsafe : ∀ m ∈ insert d v.loose, ∃ x, (x, m) ∈ (e, n) ::ₘ (i, d) ::ₘ v.tmp := by
    intro m hm
    rw [hr.loose] at hm
    obtain rfl : m = d := by simpa using hm
    exact ⟨i, mem_cons_of_mem (mem_cons_self _ _)⟩
  simp only [sat_bind_eq, sat_get_eq, sat_pure_eq, h.locked_inum (mem_insert_self _ _) (hpe rfl)]
  refine sat_dirlink_new h hin (hpi rfl) rfl hd hsafe hasn hf (fun hnf k1 h1 => ?_) hfull hN
  refine sat_check (fun _ => ?_) (fun hc => absurd (by decide) hc)
  refine sat_iunlockput_release h1 hin (cons_swap _ _ _) (fun q hq => ?_) fun k2 h2 => hQ hnf k2 ?_
  · rw [hr.tmp] at hq
    obtain rfl : q = (e, n) := by simpa using hq
    exact hei
  · have hlocks : (insert e (insert i v.locks)).erase i = insert e v.locks := by
      rw [Finset.erase_insert_of_ne hei, Finset.erase_insert (hlk i)]
    have hloose : (insert d v.loose).erase d = v.loose := by rw [hr.loose]; simp
    simp only [hlocks, hloose] at h2
    exact h2

/-- A new inode for a name that is not in directory `d`. -/
theorem sat_createNew (hr : v.Rest) (ht : type ≠ 0) (ht' : type < 65536)
    (hmaj : major < 65536) (hmin : minor < 65536) (hd : (v.node d).type = T_DIR) (hf : (v.node d).find name = none)
    (h : St { v with tmp := (i, d) ::ₘ v.tmp, locks := insert i v.locks } k)
    (hQ : ∀ n, firstFree v.sb.ninodes v.node = some n → ¬ NINODE ≤ (insert d v.held).card → ¬ (v.node d).full →
      ∀ e k', St { v with
        node := (v.space p).made d n name type major minor
        tmp := (e, n) ::ₘ v.tmp
        locks := insert e v.locks
        room := v.room - 6 } k' → Q (some e) k')
    (hfree : firstFree v.sb.ninodes v.node = none → ∀ k', N "ialloc: no inodes" k')
    (hcache : ∀ n, firstFree v.sb.ninodes v.node = some n → NINODE ≤ (insert d v.held).card → ∀ k',
      N "iget: no inodes" k')
    (hfull : ∀ n, firstFree v.sb.ninodes v.node = some n → ¬ NINODE ≤ (insert d v.held).card → (v.node d).full → ∀ k',
      N "dirlink" k')
    (hN : v.room < 6 → ∀ k', N "balloc: out of blocks" k') : Sat (createNew i name type major minor) k Q F N := by
  have hin : i ∈ insert i v.locks := mem_insert_self _ _
  obtain ⟨hlive, -, -⟩ := h.points (.inl (mem_cons_self _ _))
  have hcached : View.cached { v with tmp := (i, d) ::ₘ v.tmp } = insert d v.held :=
    cached_cons.trans (by rw [cached_nil hr.tmp])
  unfold createNew
  rw [sat_bind_eq, sat_get_eq, (h.dev i hlive).1]
  refine sat_ialloc h ht ht' (fun e n k1 hfr hfit hasn h0 h1 => ?_) hfree
    (fun n hfr hfit => hcache n hfr (hcached ▸ hfit.2))
  have h0 : (v.node n).type = 0 := h0
  have hfr : firstFree v.sb.ninodes v.node = some n := hfr
  have hne : n ≠ d := by
    rintro rfl
    exact absurd (h0.symm.trans hd) (by decide)
  have hcard : ¬ NINODE ≤ (insert d v.held).card := by
    intro hle
    refine hfit ⟨fun hmem => ?_, hcached.symm ▸ hle⟩
    rcases Finset.mem_insert.1 (hcached ▸ hmem) with hnd | hheld
    · exact hne hnd
    · obtain ⟨x, hx, rfl⟩ := h.mem_held.1 hheld
      exact (h.user x hx).2 h0
  rw [sat_bind_eq]
  refine sat_setDev (L := v.loose) h1 (mem_insert_self _ _) (.inl (mem_cons_self _ _)) hmaj hmin
    (fun m hm hml => (Finset.mem_insert.1 hml).resolve_left hm) fun k2 h2 => ?_
  simp only [update_self, update_idem] at h2
  have h2 : St { v with
      node := update v.node n (newNode type major minor)
      tmp := (e, n) ::ₘ (i, d) ::ₘ v.tmp
      locks := insert e (insert i v.locks) } k2 := h2
  by_cases hdir : type = T_DIR
  · subst hdir
    rw [if_pos rfl, sat_bind_eq]
    refine sat_createDots hne hr.loose h2 (fun k3 h3 => ?_) (fun hroom => hN (lt_of_lt_of_le hroom (by decide)))
    have hself : update (update v.node n (newDir n d major minor)) d (v.node d).incLink d =
        (v.node d).incLink := update_self ..
    have hiff : (v.node d).incLink.full ↔ (v.node d).full := by rw [Node.full, Node.full, incLink_alike.gap]
    refine sat_createName hr hne (by rw [hself]; exact hd) (by rw [hself, incLink_alike.find]; exact hf) h3
      (fun hnf k4 h4 => ?_) (fun hfl => hfull n hfr hcard (by rwa [hself, hiff] at hfl)) (fun hroom => hN (by omega))
    rw [hself, hiff] at hnf
    simp only [Nat.sub_sub] at h4
    exact hQ n hfr hcard hnf e k4 h4
  · rw [if_neg hdir]
    have hother : update v.node n (newNode type major minor) d = v.node d := update_of_ne hne.symm ..
    refine sat_createName (v := v) (w := update v.node n (newNode type major minor)) hr hne
      (by rw [hother]; exact hd) (by rw [hother]; exact hf)
      (h2.loosen (Finset.subset_insert d _)) (fun hnf k4 h4 => ?_)
      (fun hfl => hfull n hfr hcard (by rwa [hother] at hfl)) (fun hroom => hN (lt_of_lt_of_le hroom (by decide)))
    rw [hother] at hnf
    refine hQ n hfr hcard hnf e k4 ?_
    have hmade : (v.space p).made d n name type major minor =
        release (update (update v.node n (newNode type major minor)) d
          ((update v.node n (newNode type major minor) d).enter n name)) v.held d := by
      simp only [Space.made, if_neg hdir]
      rfl
    rw [hmade]
    exact h4.weaken (Nat.sub_le_sub_left (by decide) _)

theorem sat_create {o : Out (Option (ℕ × Bool))} (h : St v k) (hr : v.Rest)
    (hp : v.Runs p) (ht : type ≠ 0) (ht' : type < 65536) (hmaj : major < 65536) (hmin : minor < 65536)
    (ho : (v.space p).create path type major minor = o)
    (hnone : o = .ret none v.node → ∀ k', St v k' → Q none k')
    (hfound : ∀ m, o = .ret (some (m, false)) v.node → ∀ e k',
      St { v with tmp := (e, m) ::ₘ v.tmp, locks := insert e v.locks } k' → Q (some e) k')
    (hnew : ∀ n nd, o = .ret (some (n, true)) nd → ∀ e k',
      St { v with
        node := nd
        tmp := (e, n) ::ₘ v.tmp
        locks := insert e v.locks
        room := v.room - 6 } k' → Q (some e) k')
    (hpanic : ∀ m, o = .panic m → ∀ k', N m k')
    (hroom : o ≠ .stuck → v.room < 6 → ∀ k', N "balloc: out of blocks" k') :
    Sat (create p path type major minor) k Q F N := by
  have hlk := hr.unlocked
  have hsafe := hr.safe
  unfold create nameiparent
  simp only [sat_bind_eq, Space.create] at ho ⊢
  refine sat_namex (C := v.held) h hsafe hr.locks hp.root hp.cwd (cached_nil hr.tmp) rfl
    (fun hres k1 h1 => ?_) (fun d s hres i k1 h1 => ?_) (fun m hres => ?_)
  · simp only [hres] at ho
    exact hnone ho.symm k1 h1
  · simp only [hres, sat_bind_eq] at ho ⊢
    have hd : (v.node d).type = T_DIR := resolve_parent hres
    refine sat_ilock h1 (.inl (mem_cons_self _ _)) (fun _ _ k2 h2 => ?_) (fun hc => absurd hc (hlk i))
      (fun _ h0 => absurd (hd.symm.trans h0) (by decide))
    have hcached : View.cached { v with tmp := (i, d) ::ₘ v.tmp } = insert d v.held :=
      cached_cons.trans (by rw [cached_nil hr.tmp])
    refine sat_dirlookup h2 (mem_insert_self _ _) (.inl (mem_cons_self _ _)) rfl hd hcached
      (fun hf => ?_) (fun j hf hfit e k3 h3 => ?_) (fun j hf hfit => ?_)
    · have hf : (v.node d).find s = none := hf
      simp only [hf] at ho
      refine sat_createNew (p := p) hr ht ht' hmaj hmin hd hf h2 (fun n hfr hcard hnf e k3 h3 => ?_)
        (fun hfr => ?_) (fun n hfr hcard => ?_) (fun n hfr hcard hfl => ?_) (hroom ?_)
      · simp only [hfr, hcard, hnf, if_false] at ho
        exact hnew n _ ho.symm e k3 h3
      · simp only [hfr] at ho
        exact hpanic _ ho.symm
      · simp only [hfr, hcard, if_true] at ho
        exact hpanic _ ho.symm
      · simp only [hfr, hcard, hfl, if_false, if_true] at ho
        exact hpanic _ ho.symm
      · rw [← ho]
        cases firstFree v.sb.ninodes v.node with
        | none => simp
        | some n =>
          simp only
          split_ifs <;> simp
    · have hf : (v.node d).find s = some j := hf
      have hfit : ¬ noFit (insert d v.held) ((v.node d).ent j).inum := hfit
      simp only [hf, hfit, if_false] at ho
      simp only [sat_bind_eq, sat_get_eq]
      rw [cons_swap] at h3
      refine sat_iunlockput_extra (v := { v with tmp := (e, ((v.node d).ent j).inum) ::ₘ v.tmp }) h3
        (fun m hm => absurd hm (by rw [hr.loose]; exact notMem_empty m)) (hlk i) fun k4 h4 => ?_
      refine sat_ilock h4 (.inl (mem_cons_self _ _)) (fun _ h0 k5 h5 => ?_) (fun hc => absurd hc (hlk e))
        (fun _ h0 => ?_)
      · have h0 : (v.node ((v.node d).ent j).inum).type ≠ 0 := h0
        simp only [h0, if_false] at ho
        rw [h5.locked_type (mem_insert_self _ _) (.inl (mem_cons_self _ _))]
        by_cases hty : type = T_FILE ∧ (v.node ((v.node d).ent j).inum).type = T_FILE
        · rw [if_pos hty]
          rw [if_pos hty] at ho
          exact hfound _ ho.symm e k5 h5
        · rw [if_neg hty, sat_bind_eq]
          rw [if_neg hty] at ho
          exact sat_iunlockput_extra (v := v) h5 hsafe (hlk e) fun k6 h6 => hnone ho.symm k6 h6
      · have h0 : (v.node ((v.node d).ent j).inum).type = 0 := h0
        simp only [h0, if_true] at ho
        exact hpanic _ ho.symm
    · have hf : (v.node d).find s = some j := hf
      have hfit : noFit (insert d v.held) ((v.node d).ent j).inum := hfit
      simp only [hf, hfit, if_true] at ho
      exact hpanic _ ho.symm
  · simp only [hres] at ho
    exact hpanic _ ho.symm

theorem sysCreate_refines (h : St v k) (hr : v.Rest) (hp : v.Runs p) (ht : type ≠ 0) (ht' : type < 65536)
    (hmaj : major < 65536) (hmin : minor < 65536) :
    Refines v 6 ((v.space p).make path type major minor) (sysCreate p (some path) type major minor) k := by
  have hlk := hr.unlocked
  have hsafe := hr.safe
  unfold Refines sysCreate Space.make
  simp only [sat_bind_eq]
  refine sat_beginOp h fun k1 h1 => ?_
  have hr1 : View.Rest { v with outstanding := v.outstanding + 1 } := ⟨hr.tmp, hr.locks, hr.loose⟩
  refine sat_create h1 hr1 ⟨hp.root, hp.cwd⟩ ht ht' hmaj hmin rfl (fun ho k2 h2 => ?_) (fun m ho e k2 h2 => ?_)
    (fun n nd ho e k2 h2 => ?_) (fun m ho k2 => ?_) (fun ho hroom k2 => ?_)
  rotate_right
  · refine .inr ⟨rfl, hroom, ?_⟩
    change (v.space p).create path type major minor ≠ _ at ho
    cases hc : (v.space p).create path type major minor <;> simp_all [Out.map]
  all_goals change (v.space p).create path type major minor = _ at ho
  · simp only [ho, Out.map, sat_bind_eq, sat_pure_eq]
    exact sat_endOp h2 fun k3 h3 => h3.unchanged rfl
  · simp only [ho, Out.map, sat_bind_eq, sat_pure_eq]
    exact sat_iunlockput_extra (v := { v with outstanding := v.outstanding + 1 }) h2 hsafe (hlk e) fun k3 h3 =>
      sat_endOp h3 fun k4 h4 => h4.unchanged rfl
  · simp only [ho, Out.map, sat_bind_eq, sat_pure_eq]
    refine sat_iunlockput_extra (v := { v with
      outstanding := v.outstanding + 1
      node := nd
      room := v.room - 6 }) h2 hsafe (hlk e) fun k3 h3 => ?_
    exact sat_endOp (v := { v with node := nd, room := v.room - 6 }) h3 fun k4 h4 => ⟨nd, rfl, h4⟩
  · simp only [ho, Out.map, true_or]

end Xv6.Sys

import Xv6.Spec.Space
import Xv6.Proofs.Names

/-! The calls on names: the code refines what `Space` says of the nodes alone. -/

namespace Xv6.Sys

open Prog Bytes Function
open Finset (mem_insert_self mem_insert_of_mem notMem_empty erase_insert)
open Multiset (mem_cons_self mem_cons_of_mem)

/-- Between calls. -/
structure View.Rest (v : View) : Prop where
  tmp : v.tmp = 0
  locks : v.locks = ∅
  loose : v.loose = ∅

/-- Process `p` has a current directory. -/
structure View.Runs (v : View) (p : ℕ) : Prop where
  root : v.sb.has ROOTINO
  cwd : 0 < v.user (v.proc p).cwd

/-- What a call of process `p` on names sees. -/
abbrev View.space (v : View) (p : ℕ) : Space := ⟨v.sb.ninodes, v.node, v.held, v.num (v.proc p).cwd⟩

variable {v : View} {k k₀ : Fsys} {e i j n m d p : ℕ} {T : Multiset (ℕ × ℕ)} {F : Fsys → Prop}
  {N : String → Fsys → Prop} {name path : List UInt8} {Q : Unit → Fsys → Prop} {node : ℕ → Node} {C L : Finset ℕ}
  {x : Node}

theorem View.Rest.unlocked (h : v.Rest) (x : ℕ) : x ∉ v.locks := by
  rw [h.locks]
  exact notMem_empty x

theorem View.Rest.safe (h : v.Rest) : v.Safe := fun m hm => absurd hm (by rw [h.loose]; exact notMem_empty m)

theorem sat_beginOp (h : St v k)
    (hQ : ∀ k', St { v with outstanding := v.outstanding + 1 } k' → Q () k') : Sat beginOp k Q F N :=
  hQ _ { h with outstanding := congrArg (· + 1) h.outstanding }

theorem sat_endOp (h : St { v with outstanding := v.outstanding + 1 } k)
    (hQ : ∀ k', St v k' → Q () k') : Sat endOp k Q F N :=
  hQ _ { h with outstanding := congrArg (· - 1) h.outstanding }

theorem cached_nil (h : v.tmp = 0) : v.cached = v.held := by simp [View.cached, h]

/-- A run ends as the outcome over the nodes says, unless it runs out of the `r` blocks it may need. -/
def Refines (v : View) (r : ℕ) (o : Out ℤ) (x : K ℤ) (k : Fsys) : Prop :=
  Sat x k (fun a k' => ∃ nd, o = .ret a nd ∧ St { v with node := nd, room := v.room - r } k')
    (fun _ => o = .stuck)
    (fun m _ => o = .panic m ∨ m = "balloc: out of blocks" ∧ v.room < r ∧ o ≠ .stuck)

/-- A call that changes nothing. -/
theorem St.unchanged {r : ℕ} {a : ℤ} {o : Out ℤ} (h : St v k) (ho : o = .ret a v.node) :
    ∃ nd, o = .ret a nd ∧ St { v with node := nd, room := v.room - r } k :=
  ⟨v.node, ho, h.weaken (Nat.sub_le _ _)⟩

/-! Facts about walks. -/

theorem skipelem_length {rest : List UInt8} (h : skipelem path = some (name, rest)) : rest.length < path.length := by
  unfold skipelem at h
  cases hp : path.dropWhile (· = slash) with
  | nil => rw [hp] at h; cases h
  | cons c t =>
    rw [hp] at h
    simp only [Option.some.injEq, Prod.mk.injEq] at h
    have hc : c ≠ slash := by
      have := List.head?_dropWhile_not (· = slash) path
      rw [hp] at this
      simpa using this
    have h1 : (path.dropWhile (· = slash)).length ≤ path.length := (List.dropWhile_suffix _).length_le
    rw [← h.2, List.dropWhile_cons_of_pos (by simpa using hc)]
    have h2 : ((t.dropWhile fun x => decide (x ≠ slash)).dropWhile (· = slash)).length ≤ t.length :=
      ((List.dropWhile_suffix _).trans (List.dropWhile_suffix _)).length_le
    rw [hp, List.length_cons] at h1
    omega

/-- The parent that a walk returns is a directory. -/
theorem walk_parent {fuel : ℕ} (hf : path.length < fuel)
    (h : walk node C true fuel n path = .ok (some (d, name))) : (node d).type = T_DIR := by
  induction fuel generalizing n path with
  | zero => omega
  | succ fuel ih =>
    unfold walk at h
    cases hsk : skipelem path with
    | none => simp [hsk] at h
    | some q =>
      obtain ⟨s, rest⟩ := q
      have hlen := skipelem_length hsk
      simp only [hsk] at h
      split_ifs at h with h1 h2 h3
      · cases h
      · obtain ⟨rfl, -⟩ : n = d ∧ s = name := by simpa using h
        simpa using h2
      · cases hfind : (node n).find s with
        | none => simp [hfind] at h
        | some j =>
          simp only [hfind] at h
          split_ifs at h
          exact ih (by omega) h

theorem resolve_parent (h : resolve node C n path true = .ok (some (d, name))) : (node d).type = T_DIR := by
  simp only [resolve] at h
  by_cases hf : noFit C (if path.head? = some slash then ROOTINO else n)
  · rw [if_pos hf] at h
    cases h
  · rw [if_neg hf] at h
    exact walk_parent (Nat.lt_succ_self _) h

/-! Link counts. -/

theorem Fits.withLink {ip : Inode} {l : ℕ} (h : Fits ip) : Fits { ip with nlink := l % 65536 } :=
  ⟨h.type, h.major, h.minor, Nat.mod_lt _ (by decide), h.size, h.addrs, h.rest⟩

theorem decLink_incLink (h : x.nlink < 65536) : x.incLink.decLink = x := by
  have : ((x.nlink + 1) % 65536 + 65535) % 65536 = x.nlink := by omega
  simp only [Node.incLink, Node.decLink, this]

theorem St.nlink_lt (h : St v k) (hn : v.sb.has n) : (v.node n).nlink < 65536 := by
  rw [← h.disk.nodes n hn]
  unfold Inode.node
  split_ifs
  · exact Nat.succ_pos _
  · exact (show Fits (getInode v.sb k.block n) from fits_getInode).nlink

/-- The link count of a locked inode changes. -/
theorem sat_setLink {g : ℕ → ℕ} (h : St v k) (hi : i ∈ v.locks)
    (hp : v.points i n) (hkept : g (v.node n).nlink % 65536 = 0 → n ∉ L → 0 < v.user i)
    (hL : ∀ m, m ≠ n → m ∈ v.loose → m ∈ L)
    (hQ : ∀ k', St { v with
      node := update v.node n { v.node n with nlink := g (v.node n).nlink % 65536 }
      loose := L } k' → Q () k') :
    Sat (setInode i fun ip => { ip with nlink := g ip.nlink % 65536 }) k Q F N := by
  refine sat_setInode (g := fun x => { x with nlink := g x.nlink % 65536 }) h hi hp (fun _ => ⟨rfl, rfl, rfl, rfl⟩)
    (fun _ => Fits.withLink) (fun ip block ht => ?_) hkept hL hQ
  have ht' : Inode.type { ip with nlink := g ip.nlink % 65536 } ≠ 0 := ht
  rw [Inode.node, if_neg ht', Inode.node, if_neg ht]
  rfl

/-- It goes up; the inode counts as loose in case the count wraps around. -/
theorem sat_incLink (h : St v k) (hi : i ∈ v.locks) (hp : v.points i n) (hQ : ∀ k', St { v with
      node := update v.node n (v.node n).incLink
      loose := insert n v.loose } k' → Q () k') : Sat (setInode i incLink) k Q F N :=
  sat_setLink (g := (· + 1)) h hi hp (fun _ hn => absurd (mem_insert_self n _) hn)
    (fun _ _ => mem_insert_of_mem) hQ

theorem sat_decLink (h : St v k) (hi : i ∈ v.locks) (hp : v.points i n)
    (hkept : (v.node n).decLink.nlink = 0 → n ∉ L → 0 < v.user i) (hL : ∀ m, m ≠ n → m ∈ v.loose → m ∈ L)
    (hQ : ∀ k', St { v with node := update v.node n (v.node n).decLink, loose := L } k' → Q () k') :
    Sat (setInode i decLink) k Q F N :=
  sat_setLink (g := (· + 65535)) h hi hp hkept hL hQ

/-! `link` -/

/-- A node without links that is in use is held. -/
theorem St.held_of_nlink (h : St v k) (hr : v.Rest) (hn : v.sb.has n) (ht : (v.node n).type ≠ 0)
    (h0 : (v.node n).nlink = 0) : n ∈ v.held := by
  obtain ⟨i, -, h2, -, h4⟩ := h.kept n hn ht h0
  have hu := h4 (by rw [hr.loose]; exact notMem_empty n)
  exact h.mem_held.2 ⟨i, hu, (h.user i hu).1.symm.trans h2⟩

/-- The label `bad`: the link count goes back to what it was. -/
theorem sat_linkBad {Q : ℤ → Fsys → Prop} (h₀ : St v k₀) (hr : v.Rest) (ht : (v.node n).type ≠ 0) (h : St { v with
      outstanding := v.outstanding + 1
      node := update v.node n (v.node n).incLink
      tmp := (e, n) ::ₘ v.tmp
      loose := insert n v.loose } k)
    (hQ : ∀ k', St v k' → Q (-1) k') : Sat (linkBad e) k Q F N := by
  have he : e ∉ v.locks := by rw [hr.locks]; exact notMem_empty e
  have hn : v.sb.has n := (h.points (.inl (mem_cons_self _ _))).2.2
  have hself : update v.node n (v.node n).incLink n = (v.node n).incLink := update_self ..
  have hdec : (update v.node n (v.node n).incLink n).decLink = v.node n := by
    rw [hself, decLink_incLink (h₀.nlink_lt hn)]
  have hback : update (update v.node n (v.node n).incLink) n
      (update v.node n (v.node n).incLink n).decLink = v.node := by
    rw [hdec, update_idem, update_eq_self]
  unfold linkBad
  simp only [sat_bind_eq, sat_pure_eq]
  refine sat_ilock h (.inl (mem_cons_self _ _)) (fun _ _ k2 h2 => ?_) (fun hc => absurd hc he)
    (fun _ h0 => absurd ((congrArg Node.type hself).symm.trans h0) ht)
  refine sat_decLink (L := ∅) h2 (mem_insert_self _ _) (.inl (mem_cons_self _ _)) (fun h0 _ => ?_)
    (fun m hm hml => ?_) fun k3 h3 => ?_
  · have hnl : (v.node n).nlink = 0 := (congrArg Node.nlink hdec).symm.trans h0
    exact (h2.held_iff (.inl (mem_cons_self _ _))).1 (h₀.held_of_nlink hr hn ht hnl)
  · rw [hr.loose] at hml
    exact absurd ((Finset.mem_insert.1 hml).resolve_left hm) (notMem_empty m)
  · simp only [hback] at h3
    rw [← hr.loose] at h3
    exact sat_iunlockput_extra (v := { v with outstanding := v.outstanding + 1 }) h3
      (by intro m hm; rw [hr.loose] at hm; exact absurd hm (notMem_empty m)) he fun k4 h4 => sat_endOp h4 hQ

/-- The directory for the new name is `d`. -/
theorem sat_linkEntry {Q : ℤ → Fsys → Prop} (h₀ : St v k₀) (hr : v.Rest) (ht : (v.node n).type ≠ 0)
    (hnd : (v.node n).type ≠ T_DIR) (hd : (v.node d).type = T_DIR)
    (h : St { v with
      outstanding := v.outstanding + 1
      node := update v.node n (v.node n).incLink
      tmp := (i, d) ::ₘ (e, n) ::ₘ v.tmp
      loose := insert n v.loose } k)
    (hfound : ∀ j, (v.node d).find name = some j → ¬ noFit (insert d (insert n v.held)) ((v.node d).ent j).inum →
      ((v.node d).ent j).inum ≠ d → ∀ k', St v k' → Q (-1) k')
    (hF : ∀ j, (v.node d).find name = some j → ¬ noFit (insert d (insert n v.held)) ((v.node d).ent j).inum →
      ((v.node d).ent j).inum = d → ∀ k', F k')
    (hN : ∀ j, (v.node d).find name = some j → noFit (insert d (insert n v.held)) ((v.node d).ent j).inum → ∀ k',
      N "iget: no inodes" k')
    (hQ : (v.node d).find name = none → ¬ (v.node d).full → ∀ k',
      St { v with
        node := release (update (update v.node n (v.node n).incLink) d ((v.node d).enter n name))
          v.held n
        room := v.room - 2 } k' → Q 0 k')
    (hfull : (v.node d).find name = none → (v.node d).full → ∀ k', N "dirlink" k')
    (hroom : (v.node d).find name = none → v.room < 2 → ∀ k', N "balloc: out of blocks" k') :
    Sat (linkEntry e i name) k Q F N := by
  have hne : d ≠ n := fun hdn => hnd (hdn ▸ hd)
  have hnode : update v.node n (v.node n).incLink d = v.node d := update_of_ne hne ..
  have hlk := hr.unlocked
  have hsafe : ∀ m ∈ insert n v.loose, ∃ x, (x, m) ∈ (e, n) ::ₘ v.tmp := by
    intro m hm
    rw [hr.loose] at hm
    obtain rfl : m = n := by simpa using hm
    exact ⟨e, mem_cons_self _ _⟩
  unfold linkEntry
  simp only [sat_bind_eq, sat_get_eq]
  refine sat_ilock h (.inl (mem_cons_self _ _)) (fun _ _ k2 h2 => ?_) (fun hc => absurd hc (hlk i))
    (fun _ h0 => absurd ((congrArg Node.type hnode).symm.trans h0) (by rw [hd]; decide))
  have hmem : i ∈ insert i v.locks := mem_insert_self _ _
  have hd2 := (h2.points (.inl (mem_cons_self _ _))).1
  have hn2 := h2.points (.inl (mem_cons_of_mem (mem_cons_self _ _)))
  rw [(h2.dev i hd2).1, (h2.dev e hn2.1).1, if_neg (not_not.2 rfl), sat_bind_eq, hn2.2.1]
  -- the way back: the directory is let go and the link count goes down again
  have hback : ∀ k', St { v with
      outstanding := v.outstanding + 1
      node := update v.node n (v.node n).incLink
      tmp := (i, d) ::ₘ (e, n) ::ₘ v.tmp
      locks := insert i v.locks
      loose := insert n v.loose } k' → (∀ k', St v k' → Q (-1) k') →
      Sat (iunlockput i) k' (fun _ s => Sat (linkBad e) s Q F N) F N := by
    intro k' h' hq
    exact sat_iunlockput_extra (v := { v with
        outstanding := v.outstanding + 1
        node := update v.node n (v.node n).incLink
        tmp := (e, n) ::ₘ v.tmp
        loose := insert n v.loose }) h' hsafe (hlk i) fun k'' h'' => sat_linkBad h₀ hr ht h'' hq
  have hcached : View.cached { v with tmp := (i, d) ::ₘ (e, n) ::ₘ v.tmp } = insert d (insert n v.held) := by
    simp only [View.cached, View.held, hr.tmp, Multiset.map_cons, Multiset.toFinset_cons, Multiset.map_zero,
      Multiset.toFinset_zero, Finset.union_insert, Finset.union_empty]
  refine sat_dirlink h2 hmem (.inl (mem_cons_self _ _)) hnode hd hcached (fun m hm => ?_)
    (fun _ _ => by rw [hr.locks]; rfl) hn2.2.2 (fun j hj hfit hne k' h' => ?_)
    (fun j hj hfit he _ k' _ => hF j hj hfit he k') hN (fun hj hf k' h' => ?_)
    hfull hroom
  · obtain ⟨x, hx⟩ := hsafe m hm
    exact ⟨x, mem_cons_of_mem hx⟩
  · rw [if_pos (by decide), sat_bind_eq]
    exact hback k' h' (hfound j hj hfit hne)
  · rw [if_neg (by decide)]
    simp only [sat_bind_eq, sat_pure_eq]
    refine sat_iunlockput_extra (v := { v with
        outstanding := v.outstanding + 1
        node := update (update v.node n (v.node n).incLink) d ((v.node d).enter n name)
        tmp := (e, n) ::ₘ v.tmp
        loose := insert n v.loose
        room := v.room - 2 }) h' hsafe (hlk i) fun k3 h3 => ?_
    refine sat_iput_release h3 rfl (by rw [hr.tmp]; simp) (hlk e) fun k4 h4 => ?_
    have hloose : (insert n v.loose).erase n = v.loose := by rw [hr.loose]; simp
    simp only [hloose] at h4
    exact sat_endOp (v := { v with
        node := release (update (update v.node n (v.node n).incLink) d ((v.node d).enter n name))
          v.held n
        room := v.room - 2 }) h4 (hQ hj hf)

theorem alike_update : Alike (update v.node n (v.node n).incLink m) (v.node m) := by
  by_cases hm : m = n
  · subst hm
    rw [update_self]
    exact incLink_alike
  · rw [update_of_ne hm]
    exact Alike.refl

theorem sysLink_refines {old new : List UInt8} (h : St v k) (hr : v.Rest) (hp : v.Runs p) :
    Refines v 2 ((v.space p).link old new) (sysLink p (some old) (some new)) k := by
  have hlk := hr.unlocked
  have hsafe := hr.safe
  unfold Refines sysLink namei nameiparent
  simp only [sat_bind_eq, sat_pure_eq, Space.link]
  refine sat_beginOp h fun k1 h1 => ?_
  refine sat_namex (C := v.held) h1 hsafe hr.locks hp.root hp.cwd (cached_nil hr.tmp) rfl
    (fun ho k2 h2 => ?_) (fun n s ho e k2 h2 => ?_) (fun m ho k2 => ?_)
  · simp only [ho, Option.map_none, sat_bind_eq, sat_pure_eq]
    exact sat_endOp h2 fun k3 h3 => h3.unchanged rfl
  · simp only [ho, Option.map_some, sat_bind_eq, sat_get_eq]
    refine sat_ilock h2 (.inl (mem_cons_self _ _)) (fun _ h0 k3 h3 => ?_) (fun hc => absurd hc (hlk e))
      (fun _ h0 k3 => .inl ?_)
    swap
    · have h0 : (v.node n).type = 0 := h0
      simp only [h0, if_true]
    rw [h3.locked_type (mem_insert_self _ _) (.inl (mem_cons_self _ _))]
    have h0 : (v.node n).type ≠ 0 := h0
    simp only [h0, if_false]
    by_cases hd : (v.node n).type = T_DIR
    · simp only [hd, if_true, sat_bind_eq, sat_pure_eq]
      exact sat_iunlockput_extra (v := { v with outstanding := v.outstanding + 1 }) h3 hsafe (hlk e) fun k4 h4 =>
        sat_endOp h4 fun k5 h5 => h5.unchanged rfl
    simp only [hd, if_false, sat_bind_eq]
    refine sat_incLink h3 (mem_insert_self _ _) (.inl (mem_cons_self _ _)) fun k4 h4 => ?_
    refine sat_iunlock h4 (mem_insert_self _ _) fun k5 h5 => ?_
    simp only [erase_insert (hlk e)] at h5
    refine sat_namex (C := insert n v.held) h5 (fun m hm => ?_) hr.locks hp.root hp.cwd ?_
      (resolve_congr fun _ => alike_update) (fun ho k6 h6 => ?_) (fun d s ho i k6 h6 => ?_) (fun m ho k6 => ?_)
    · rw [hr.loose] at hm
      obtain rfl : m = n := by simpa using hm
      exact ⟨e, mem_cons_self _ _⟩
    · exact (cached_cons (v := v)).trans (by rw [cached_nil hr.tmp])
    · simp only [ho]
      exact sat_linkBad h hr h0 h6 fun k7 h7 => h7.unchanged rfl
    · simp only [ho]
      have hdir := resolve_parent ho
      refine sat_linkEntry h hr h0 hd hdir h6 (fun j hj hfit hne k7 h7 => ?_) (fun j hj hfit he k7 => ?_)
        (fun j hj hfit k7 => ?_) (fun hj hf k7 h7 => ?_) (fun hj hf k7 => ?_) (fun hj hf k7 => ?_)
      · simp only [hj, hfit, hne, if_false]
        exact h7.unchanged rfl
      · simp only [hj, hfit, if_false]
        exact if_pos he
      · simp only [hj, hfit, if_true, true_or]
      · simp only [hj, hf, if_false]
        exact ⟨_, rfl, h7⟩
      · simp only [hj, hf, if_true, true_or]
      · simp only [hj, true_and]
        refine .inr ⟨hf, ?_⟩
        split_ifs <;> simp
    · simp only [ho, true_or]
  · simp only [ho, true_or]

/-! `unlink` -/

theorem sat_unlinkBad {Q : ℤ → Fsys → Prop} (hr : v.Rest)
    (h : St { v with
      outstanding := v.outstanding + 1
      tmp := (i, d) ::ₘ v.tmp
      locks := insert i v.locks } k) (hQ : ∀ k', St v k' → Q (-1) k') : Sat (unlinkBad i) k Q F N := by
  have hlk : i ∉ v.locks := by rw [hr.locks]; exact notMem_empty i
  have hsafe := hr.safe
  unfold unlinkBad
  simp only [sat_bind_eq, sat_pure_eq]
  exact sat_iunlockput_extra (v := { v with outstanding := v.outstanding + 1 }) h hsafe hlk fun k1 h1 => sat_endOp h1 hQ

/-- The parent of a directory that goes loses the link of its `..`. -/
theorem sat_decLink_if {β : Type} {c : Prop} [Decidable c] {f : K β} {Q : β → Fsys → Prop} (h : St v k)
    (hi : i ∈ v.locks) (hp : v.points i n)
    (hQ : ∀ k', St { v with
      node := update v.node n (if c then (v.node n).decLink else v.node n)
      loose := insert n v.loose } k' → Sat f k' Q F N) :
    Sat (if c then setInode i decLink >>= fun _ => f else f) k Q F N := by
  by_cases hc : c
  · simp only [if_pos hc, sat_bind_eq] at hQ ⊢
    exact sat_decLink h hi hp (fun _ hn => absurd (mem_insert_self n _) hn)
      (fun _ _ => mem_insert_of_mem) hQ
  · simp only [if_neg hc, update_eq_self] at hQ ⊢
    exact hQ k (h.loosen (Finset.subset_insert _ _))

/-- What is tested of the inode: a directory with entries in it is not removed. -/
theorem sat_fullDir {Q : Bool → Fsys → Prop} (h : St v k) (hi : i ∈ v.locks) (hp : v.points i n)
    (hx : v.node n = x) (hQ : Q (decide (x.type = T_DIR ∧ x.isEmpty = false)) k) : Sat (fullDir i) k Q F N := by
  unfold fullDir
  rw [sat_bind_eq, sat_get_eq, h.locked_type hi hp, hx]
  by_cases hd : x.type = T_DIR
  · rw [if_pos hd, sat_bind_eq]
    refine sat_isdirempty h hi hp hx hd ?_
    cases hc : x.isEmpty <;> simpa [hc, hd] using hQ
  · rw [if_neg hd]
    simpa [hd] using hQ

theorem sat_unlinkEntry {Q : ℤ → Fsys → Prop} (hr : v.Rest) (hd : (v.node d).type = T_DIR)
    (hj : sizeofDirent * j < (v.node d).size)
    (h : St { v with
      outstanding := v.outstanding + 1
      tmp := (e, m) ::ₘ (i, d) ::ₘ v.tmp
      locks := insert i v.locks } k)
    (hF : m = d → ∀ k', F k')
    (hN : m ≠ d → (v.node m).type = 0 → ∀ k', N "ilock: no type" k')
    (hlink : m ≠ d → (v.node m).type ≠ 0 → short (v.node m).nlink < 1 → ∀ k', N "unlink: nlink < 1" k')
    (hfull : m ≠ d → (v.node m).type ≠ 0 → ¬ short (v.node m).nlink < 1 →
      ((v.node m).type = T_DIR ∧ (v.node m).isEmpty = false) → ∀ k', St v k' → Q (-1) k')
    (hQ : m ≠ d → (v.node m).type ≠ 0 → ¬ short (v.node m).nlink < 1 →
      ¬ ((v.node m).type = T_DIR ∧ (v.node m).isEmpty = false) → ∀ k',
      St { v with node := (v.space p).removed d j m, room := v.room - 2 } k' → Q 0 k')
    (hroom : m ≠ d → v.room < 2 → ∀ k', N "balloc: out of blocks" k') :
    Sat (unlinkEntry i e (sizeofDirent * j)) k Q F N := by
  have hlk := hr.unlocked
  have hsafe := hr.safe
  obtain ⟨h1, h2, -⟩ := h.points (.inl (mem_cons_self _ _))
  obtain ⟨h3, h4, -⟩ := h.points (.inl (mem_cons_of_mem (mem_cons_self _ _)))
  have hei : e = i ↔ m = d := by
    constructor
    · rintro rfl
      exact h2.symm.trans h4
    · rintro rfl
      exact h.inj e i h1 h3 (h2.trans h4.symm)
  have hmem : e ∈ insert i v.locks ↔ m = d := by
    rw [Finset.mem_insert, hei]
    exact ⟨fun hc => hc.resolve_right (hlk e), .inl⟩
  unfold unlinkEntry
  simp only [sat_bind_eq, sat_get_eq]
  refine sat_ilock h (.inl (mem_cons_self _ _)) (fun hl h0 k1 h1 => ?_) (fun hl => hF (hmem.1 hl))
    (fun hl => hN (fun hmd => hl (hmem.2 hmd)))
  have hmd : m ≠ d := fun hmd => hl (hmem.2 hmd)
  have h0 : (v.node m).type ≠ 0 := h0
  have hself : e ∈ insert e (insert i v.locks) := mem_insert_self _ _
  have hpe : ∀ {w : View}, w.tmp = (e, m) ::ₘ (i, d) ::ₘ v.tmp → w.points e m := fun hw =>
    .inl (hw ▸ mem_cons_self _ _)
  have hpi : ∀ {w : View}, w.tmp = (e, m) ::ₘ (i, d) ::ₘ v.tmp → w.points i d := fun hw =>
    .inl (hw ▸ mem_cons_of_mem (mem_cons_self _ _))
  have hty : (k1.icache e).ip.type = (v.node m).type := h1.locked_type hself (hpe rfl)
  have hnl : (k1.icache e).ip.nlink = (v.node m).nlink := h1.locked_nlink hself (hpe rfl)
  refine sat_check (fun hs => ?_) (fun hs => hlink hmd h0 (by rw [hnl] at hs; exact not_not.1 hs) _)
  rw [hnl] at hs
  refine sat_fullDir h1 hself (hpe rfl) rfl ?_
  by_cases hfl : (v.node m).type = T_DIR ∧ (v.node m).isEmpty = false
  · simp only [hfl, and_self, decide_true, if_true, sat_bind_eq]
    refine sat_iunlockput_extra (v := { v with
        outstanding := v.outstanding + 1
        tmp := (i, d) ::ₘ v.tmp
        locks := insert i v.locks }) h1 (fun m hm => absurd hm ?_) hl fun k2 h2 => ?_
    · rw [hr.loose]
      exact notMem_empty m
    · exact sat_unlinkBad hr h2 (hfull hmd h0 hs hfl)
  simp only [hfl, decide_false, Bool.false_eq_true, if_false, sat_bind_eq, hty]
  refine sat_writeDirent h1 (mem_insert_of_mem (mem_insert_self _ _)) (hpi rfl) rfl hd
    ⟨.inl rfl, List.length_replicate⟩ hj.le (fun _ k2 h2 => ?_) (fun hbad => ?_) (hroom hmd)
  swap
  · obtain ⟨h5, h6⟩ := h1.entry_le (h1.points (hpi rfl)).2.2 hd hj
    exact absurd (h5.trans h6) (Nat.not_le.2 hbad)
  refine sat_decLink_if h2 (mem_insert_of_mem (mem_insert_self _ _)) (hpi rfl) fun k3 h3 => ?_
  simp only [sat_bind_eq, sat_pure_eq]
  refine sat_iunlockput_release h3 (mem_insert_of_mem (mem_insert_self _ _)) (Multiset.cons_swap _ _ _)
    (fun q hq => ?_) fun k4 h4 => ?_
  · rw [hr.tmp] at hq
    obtain rfl : q = (e, m) := by simpa using hq
    exact fun hc => hmd (hei.1 hc)
  -- the directory is done with; what is left is the inode itself
  set parent : Node := if (v.node m).type = T_DIR then
    ((v.node d).setEnt j ⟨0, List.replicate DIRSIZ 0⟩).decLink else (v.node d).setEnt j ⟨0, List.replicate DIRSIZ 0⟩
    with hparent
  have hlocks : (insert e (insert i v.locks)).erase i = insert e v.locks := by
    rw [Finset.erase_insert_of_ne (fun hc => hmd (hei.1 hc)), erase_insert (hlk i)]
  have hloose : (insert d v.loose).erase d = v.loose := by rw [hr.loose]; simp
  have h5 : St { v with
      outstanding := v.outstanding + 1
      node := release (update v.node d parent) v.held d
      tmp := (e, m) ::ₘ v.tmp
      locks := insert e v.locks
      room := v.room - 2 } k4 := by
    simp only [update_self, update_idem, hlocks, hloose, ← hparent] at h4
    exact h4
  refine sat_decLink (L := insert m v.loose) h5 (mem_insert_self _ _) (.inl (mem_cons_self _ _))
    (fun _ hn => absurd (mem_insert_self m _) hn) (fun _ _ => mem_insert_of_mem) fun k5 h6 => ?_
  refine sat_iunlockput_release h6 (mem_insert_self _ _) rfl (by rw [hr.tmp]; simp) fun k6 h7 => ?_
  have hloose' : (insert m v.loose).erase m = v.loose := by rw [hr.loose]; simp
  simp only [erase_insert (hlk e), hloose'] at h7
  exact sat_endOp (v := { v with node := (v.space p).removed d j m, room := v.room - 2 }) h7 (hQ hmd h0 hs hfl)

theorem sysUnlink_refines (h : St v k) (hr : v.Rest) (hp : v.Runs p) :
    Refines v 2 ((v.space p).unlink path) (sysUnlink p (some path)) k := by
  have hlk := hr.unlocked
  have hsafe := hr.safe
  unfold Refines sysUnlink nameiparent
  simp only [sat_bind_eq, Space.unlink]
  refine sat_beginOp h fun k1 h1 => ?_
  refine sat_namex (C := v.held) h1 hsafe hr.locks hp.root hp.cwd (cached_nil hr.tmp) rfl
    (fun ho k2 h2 => ?_) (fun d s ho i k2 h2 => ?_) (fun m ho k2 => ?_)
  · simp only [ho, sat_bind_eq, sat_pure_eq]
    exact sat_endOp h2 fun k3 h3 => h3.unchanged rfl
  · simp only [ho, sat_bind_eq]
    have hd : (v.node d).type = T_DIR := resolve_parent ho
    refine sat_ilock h2 (.inl (mem_cons_self _ _)) (fun _ _ k3 h3 => ?_) (fun hc => absurd hc (hlk i))
      (fun _ h0 => absurd (hd.symm.trans h0) (by decide))
    by_cases hdot : namecmp s dot = 0 ∨ namecmp s dotdot = 0
    · simp only [if_pos hdot]
      exact sat_unlinkBad hr h3 fun k4 h4 => h4.unchanged rfl
    simp only [if_neg hdot, sat_bind_eq]
    have hcached : View.cached { v with tmp := (i, d) ::ₘ v.tmp } = insert d v.held :=
      cached_cons.trans (by rw [cached_nil hr.tmp])
    refine sat_dirlookup h3 (mem_insert_self _ _) (.inl (mem_cons_self _ _)) rfl hd hcached
      (fun hf => ?_) (fun j hf hfit e k4 h4 => ?_) (fun j hf hfit k4 => ?_)
    · have hf : (v.node d).find s = none := hf
      simp only [hf]
      exact sat_unlinkBad hr h3 fun k4 h4 => h4.unchanged rfl
    · have hf : (v.node d).find s = some j := hf
      have hfit : ¬ noFit (insert d v.held) ((v.node d).ent j).inum := hfit
      simp only [hf, hfit, if_false]
      refine sat_unlinkEntry (p := p) hr hd (find_some hf).1 h4 (fun he k5 => ?_) (fun he h0 k5 => ?_)
        (fun he h0 hl k5 => ?_) (fun he h0 hl hfl k5 h5 => ?_) (fun he h0 hl hfl k5 h5 => ?_) (fun he hroom k5 => ?_)
      · simp only [he, if_true]
      · simp only [he, h0, if_false, if_true, true_or]
      · simp only [he, h0, hl, if_false, if_true, true_or]
      · simp only [he, hl, hfl, if_false, and_self, if_true]
        exact h5.unchanged rfl
      · simp only [he, h0, hl, hfl, if_false]
        exact ⟨_, rfl, h5⟩
      · refine .inr ⟨rfl, hroom, ?_⟩
        simp only [he, if_false]
        split_ifs <;> simp
    · have hf : (v.node d).find s = some j := hf
      have hfit : noFit (insert d v.held) ((v.node d).ent j).inum := hfit
      simp only [hf, hfit, if_true, true_or]
  · simp only [ho, true_or]

end Xv6.Sys

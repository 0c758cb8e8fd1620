import Xv6.Proofs.Descriptors

/-! The rest of the calls: `chdir`, `exec`, `fork` and `exit`, and reading and writing files. -/

namespace Xv6.Sys

open Prog Count Function
open Finset (mem_range notMem_empty mem_insert_self)

variable {v v' : View} {P : ℕ → FProc} {X : Multiset ℕ} {k : Fsys} {c f i n p fd : ℕ} {F : Fsys → Prop}
  {N : String → Fsys → Prop} {path : List UInt8} {x : FProc} {Q : ℤ → Fsys → Prop} {D : Devsw} {reads : List (ℕ × ℕ)}
  {a b : ℕ → Node} {src : ℕ → UInt8}

/-- Row `p` of the process table changes in its directory. -/
theorem Tab.setProc (h : Tab v P X) (hp : p < NPROC) (hfile : v'.file = v.file)
    (hpipe : v'.pipe = v.pipe) (hx : x.ofile = (P p).ofile)
    (huser : ∀ i, v'.user i + (if (P p).inDir i then 1 else 0) = v.user i + (if x.inDir i then 1 else 0))
    (hdirs : ∀ f, (v.file f).type = .inode →
      (v'.node (v'.num (v.file f).ip)).type = (v.node (v.num (v.file f).ip)).type) :
    Tab v' (update P p x) X := by
  have hfd : ∀ f, fdRefs (update P p x) f = fdRefs P f := by
    intro f
    refine refs_congr fun q _ => ?_
    by_cases hq : q.1 = p
    · rw [hq, update_self, hx]
    · rw [update_of_ne hq]
  refine ⟨fun f => ?_, fun f => ?_, fun f => ?_, fun i => ?_, fun q w => ?_, ?_, fun f hf hw => ?_⟩
  · rw [hfile, hfd]
    exact h.ref f
  · rw [hfile]
    exact h.lt f
  · rw [hfile]
    exact h.idle f
  · have h1 := huser i
    have h2 := h.user i
    have h3 := tally_update (t := P) (p := FProc.inDir i) (r := x) (mem_range.2 hp)
    rw [hfile]
    unfold cwdRefs at h2 ⊢
    omega
  · rw [hfile, hpipe]
    exact h.ends q w
  · rw [hpipe]
    exact h.page
  · rw [hfile] at hf hw ⊢
    rw [hdirs f hf]
    exact h.dirs f hf hw

/-- Where `namei` and `ilock` lead. -/
def Space.target (s : Space) (path : List UInt8) : Except String (Option ℕ) :=
  match resolve s.node s.held s.cwd path false with
  | .error m => .error m
  | .ok none => .ok none
  | .ok (some (n, _)) => if (s.node n).type = 0 then .error "ilock: no type" else .ok (some n)

/-- A process leaves the directory in slot `i`. -/
theorem sat_leave {Q : Unit → Fsys → Prop} (h : St v k) (hr : v.Rest) (hu : 0 < v.user i)
    (hQ : ∀ nd k', Frees v.node nd → (∀ j, 0 < update v.user i (v.user i - 1) j →
        (nd (v.num j)).type = (v.node (v.num j)).type) →
      St { v with user := update v.user i (v.user i - 1), node := nd } k' → Q () k') :
    Sat (iput i) k Q F N := by
  have h1 := h.fromUser hu
  have hfree : i ∉ v.locks := by
    rw [hr.locks]
    exact notMem_empty i
  refine sat_iput_release h1 rfl (by rw [hr.tmp]; simp) hfree fun k' h' => ?_
  have hloose : (insert (v.num i) v.loose).erase (v.num i) = v.loose := by
    rw [hr.loose]
    simp
  simp only [hloose] at h'
  refine hQ _ k' release_frees (fun j hj => ?_) h'
  rw [release_held (h1.mem_held.2 ⟨j, hj, rfl⟩)]

/-- Without process `p`, file `f` still uses its inode. -/
theorem Tab.user_of_file (h : Tab v P X) (hp : p < NPROC) (hf : (v.file f).type = .inode) :
    (if (P p).inDir (v.file f).ip then 1 else 0) < v.user (v.file f).ip := by
  have hlt : f < NFILE := h.lt f (Nat.pos_of_ne_zero fun h0 => by rw [h.idle f h0] at hf; cases hf)
  have hpos : 0 < fileRefs v.file (v.file f).ip :=
    tally_pos (mem_range.2 hlt) (by simpa [File.onNode] using hf)
  rw [h.user]
  split_ifs with hd
  · have hcwd : 0 < cwdRefs P (v.file f).ip := tally_pos (mem_range.2 hp) hd
    omega
  · omega

/-- Process `p` leaves its directory, perhaps for another. -/
theorem Tab.move {u num : ℕ → ℕ} {nd : ℕ → Node} (h : Tab v P X) (hp : p < NPROC) (hx : x.ofile = (P p).ofile)
    (huser : ∀ i, u i + (if (P p).inDir i then 1 else 0) = v.user i + (if x.inDir i then 1 else 0))
    (hnum : ∀ j, 0 < v.user j → num j = v.num j)
    (hty : ∀ j, 0 < u j → (nd (num j)).type = (v.node (num j)).type) :
    Tab { v with user := u, num := num, node := nd } (update P p x) X := by
  refine h.setProc hp rfl rfl hx huser fun f hf => ?_
  have hpos := h.user_of_file hp hf
  have hu := huser (v.file f).ip
  have hold : 0 < v.user (v.file f).ip := by omega
  have hnew : 0 < u (v.file f).ip := by omega
  change (nd (num (v.file f).ip)).type = _
  rw [hty _ hnew, hnum _ hold]

theorem St.withProcs (h : St v k) (P : ℕ → FProc) : St { v with proc := P } { k with proc := P } :=
  { h with proc := rfl }

theorem sysChdir_good (h : Good v k) (hp : (v.proc p).live = true)
    (hQ : ∀ r v' k', Good v' k' → v'.sb = v.sb → Frees v.node v'.node → Q r k')
    (hN : ∀ m, (v.space p).target path = .error m → ∀ k', N m k') : Sat (sysChdir p (some path)) k Q F N := by
  have hlt := h.live p hp
  have hlk := h.rest.unlocked
  have hsafe := h.rest.safe
  have hruns := h.runs hp
  unfold Space.target at hN
  unfold sysChdir
  simp only [sat_bind_eq]
  refine sat_beginOp h.st fun k1 h1 => ?_
  refine sat_namei h1 { h.rest with } ⟨hruns.root, hruns.cwd⟩ rfl (fun _ k2 h2 => ?_)
    (fun n s hres e k2 h2 => ?_) (fun m hres k2 => ?_)
  · simp only [sat_bind_eq, sat_pure_eq]
    exact sat_endOp h2 fun k3 h3 => hQ _ v k3 { h with st := h3 } rfl .refl
  · have hres : resolve v.node v.held (v.space p).cwd path false = .ok (some (n, s)) := hres
    simp only [hres] at hN
    simp only [sat_bind_eq, sat_get_eq]
    refine sat_ilock h2 (.inl (Multiset.mem_cons_self _ _)) (fun _ h0 k3 h3 => ?_) (fun hc => absurd hc (hlk e))
      (fun _ h0 k3 => hN _ (if_pos h0) k3)
    rw [h3.locked_type (mem_insert_self _ _) (.inl (Multiset.mem_cons_self _ _))]
    by_cases hd : (v.node n).type ≠ T_DIR
    · rw [if_pos hd]
      simp only [sat_bind_eq, sat_pure_eq]
      refine sat_iunlockput_extra (v := { v with outstanding := v.outstanding + 1 }) h3 hsafe (hlk e) fun k4 h4 => ?_
      exact sat_endOp h4 fun k5 h5 => hQ _ v k5 { h with st := h5 } rfl .refl
    · rw [if_neg hd]
      simp only [sat_bind_eq, sat_pure_eq, sat_modify_eq]
      refine sat_iunlock h3 (mem_insert_self _ _) fun k4 h4 => ?_
      simp only [Finset.erase_insert (hlk e)] at h4
      -- the new directory is a user's from here on, so the old one goes even if it is the same
      have h5 := h4.toUser rfl h0
      simp only [h.rest.loose, Finset.erase_empty] at h5
      have hnum : ∀ j, 0 < v.user j → update v.num e n j = v.num j := by
        intro j hj
        by_cases hje : j = e
        · rw [hje] at hj ⊢
          rw [update_self]
          exact (h2.tmp (e, n) (Multiset.mem_cons_self _ _)).symm.trans (h2.user e hj).1
        · rw [update_of_ne hje]
      have hu : 0 < update v.user e (v.user e + 1) (v.proc p).cwd := by
        by_cases hc : (v.proc p).cwd = e
        · rw [hc, update_self]
          omega
        · rw [update_of_ne hc]
          exact hruns.cwd
      rw [show k3.proc = v.proc from h3.proc]
      refine sat_leave h5 ⟨h.rest.tmp, h.rest.locks, rfl⟩ hu fun nd k5 hfree hty h6 => ?_
      refine sat_endOp (v := { v with
        user := update (update v.user e (v.user e + 1)) (v.proc p).cwd
          (update v.user e (v.user e + 1) (v.proc p).cwd - 1)
        num := update v.num e n
        node := nd
        loose := ∅ }) h6 fun k6 h7 => ?_
      rw [show k6.proc = v.proc from h7.proc]
      have huser : ∀ i, update (update v.user e (v.user e + 1)) (v.proc p).cwd
          (update v.user e (v.user e + 1) (v.proc p).cwd - 1) i + (if (v.proc p).inDir i then 1 else 0) =
          v.user i + (if { v.proc p with cwd := e : FProc }.inDir i then 1 else 0) := by
        intro i
        simp only [FProc.inDir, hp, true_and, decide_eq_true_eq]
        by_cases hc : i = (v.proc p).cwd
        · rw [hc, update_self, if_pos rfl]
          by_cases he : e = (v.proc p).cwd
          · rw [← he, update_self, if_pos rfl]
            omega
          · rw [if_neg he, update_of_ne (Ne.symm he)]
            have := hruns.cwd
            omega
        · rw [update_of_ne hc, if_neg (Ne.symm hc)]
          by_cases he : i = e
          · rw [he, update_self, if_pos rfl]
          · rw [update_of_ne he, if_neg (Ne.symm he)]
      have htab := h.tab.move hlt (x := { v.proc p with cwd := e }) rfl huser hnum hty
      refine hQ _ _ _ (h.withProc hp (h7.withProcs (update v.proc p { v.proc p with cwd := e }))
        ⟨h.rest.tmp, h.rest.locks, rfl⟩ rfl rfl
        { htab with } ?_ fun q hq => ?_) rfl hfree
      · dsimp only
        rw [update_self]
        exact hp
      · exact update_of_ne hq ..
  · have hres : resolve v.node v.held (v.space p).cwd path false = .error m := hres
    simp only [hres] at hN
    exact hN m rfl k2

/-- Reads of a locked inode leave the state as it is. -/
theorem sat_execReads {Q : Unit → Fsys → Prop} (h : St v k) (hi : i ∈ v.locks)
    (hp : v.points i n) (hreads : ∀ q ∈ reads, q.2 < 2 ^ 32) (hQ : Q () k) : Sat (execReads D i reads) k Q F N := by
  induction reads with
  | nil => exact hQ
  | cons q reads ih =>
    have ih := ih fun q' hq => hreads q' (List.mem_cons_of_mem q hq)
    unfold execReads
    rw [sat_bind_eq]
    exact sat_readInode h hi hp (hreads q List.mem_cons_self) (fun _ _ => ih) (fun _ => ih)

theorem sysExec_good {a : ℤ} (h : Good v k) (hp : (v.proc p).live = true) (hreads : ∀ q ∈ reads, q.2 < 2 ^ 32)
    (hQ : ∀ r k', Good v k' → Q r k') (hN : ∀ m, (v.space p).target path = .error m → ∀ k', N m k') :
    Sat (sysExec D p (some path) reads a) k Q F N := by
  have hlk := h.rest.unlocked
  have hsafe := h.rest.safe
  have hruns := h.runs hp
  have hend : ∀ k', St v k' → Good v k' := fun k' h' => { h with st := h' }
  unfold Space.target at hN
  unfold sysExec
  simp only [sat_bind_eq]
  refine sat_beginOp h.st fun k1 h1 => ?_
  refine sat_namei h1 { h.rest with } ⟨hruns.root, hruns.cwd⟩ rfl (fun _ k2 h2 => ?_)
    (fun n s hres e k2 h2 => ?_) (fun m hres k2 => ?_)
  · simp only [sat_bind_eq, sat_pure_eq]
    exact sat_endOp h2 fun k3 h3 => hQ _ k3 (hend k3 h3)
  · have hres : resolve v.node v.held (v.space p).cwd path false = .ok (some (n, s)) := hres
    simp only [hres] at hN
    simp only [sat_bind_eq, sat_pure_eq]
    refine sat_ilock h2 (.inl (Multiset.mem_cons_self _ _)) (fun _ h0 k3 h3 => ?_) (fun hc => absurd hc (hlk e))
      (fun _ h0 k3 => hN _ (if_pos h0) k3)
    refine sat_execReads h3 (mem_insert_self _ _) (.inl (Multiset.mem_cons_self _ _)) hreads ?_
    refine sat_iunlockput_extra (v := { v with outstanding := v.outstanding + 1 }) h3 hsafe (hlk e) fun k4 h4 => ?_
    exact sat_endOp h4 fun k5 h5 => hQ _ k5 (hend k5 h5)
  · have hres : resolve v.node v.held (v.space p).cwd path false = .error m := hres
    simp only [hres] at hN
    exact hN m rfl k2

/-- What a file on an inode refers to. -/
theorem Tab.points (h : Tab v P X) (hst : St v k) (hf : (v.file f).type = .inode) :
    v.points (v.file f).ip (v.num (v.file f).ip) ∧ (v.node (v.num (v.file f).ip)).type ≠ 0 :=
  ⟨.inr ⟨h.user_pos hf, rfl⟩, (hst.user _ (h.user_pos hf)).2⟩

/-- The offset of a file moves. -/
theorem Tab.setOff {g : ℕ} (h : Tab v P X) (hf : 0 < (v.file f).ref) :
    Tab { v with file := update v.file f { v.file f with off := g } } P X :=
  h.setRef (h.lt f hf) (fun _ _ => rfl) (h.ref f) (h.idle f) rfl rfl rfl rfl

/-- The end of a section on the inode of a file: the offset moves, and the lock goes. -/
theorem sat_sectionEnd {g : File → ℕ} {Q : Unit → Fsys → Prop} (h : St { v with locks := insert i v.locks } k)
    (hi : i ∉ v.locks)
    (hQ : ∀ k', St { v with file := update v.file f { v.file f with off := g (v.file f) } } k' → Q () k') :
    Sat (setFile f fun x => { x with off := g x }) k (fun _ s => Sat (iunlock i) s Q F N) F N := by
  refine sat_setFile h fun k1 h1 => sat_iunlock h1 (mem_insert_self _ _) fun k2 h2 => hQ k2 ?_
  simp only [Finset.erase_insert hi] at h2
  exact h2

theorem sysRead_good {c : Option ℕ} (h : Good v k) (hp : (v.proc p).live = true)
    (hc : ∀ x, c = some x → x < 2 ^ 32) (hQ : ∀ r v' k', Good v' k' → v'.sb = v.sb → v'.node = v.node → Q r k')
    (hN : ∀ k', N "fileread" k') : Sat (sysRead D p fd c) k Q F N := by
  have hlk := h.rest.unlocked
  unfold sysRead
  rw [sat_bind_eq]
  refine sat_argfd h.st ?_ fun f hfd hf => ?_
  · exact hQ _ v k h rfl rfl
  cases c with
  | none => exact hQ _ v k h rfl rfl
  | some c =>
    have hpos := h.tab.ref_pos (h.live p hp) hfd hf
    unfold fileread
    simp only [sat_bind_eq, sat_get_eq]
    rw [h.st.file]
    split_ifs with hr
    · exact hQ _ v k h rfl rfl
    cases hty : (v.file f).type with
    | none => exact hN k
    | pipe => exact hQ _ v k h rfl rfl
    | inode =>
      obtain ⟨hpt, h0⟩ := h.tab.points h.st hty
      simp only [sat_bind_eq, sat_pure_eq]
      refine sat_ilock h.st hpt (fun _ _ k1 h1 => ?_) (fun hc => absurd hc (hlk _)) (fun _ hc => absurd hc h0)
      have hend : ∀ r : ℤ, Sat (setFile f fun y => { y with off := if r > 0 then u32 (y.off + r.toNat) else y.off }) k1
          (fun _ s => Sat (iunlock (v.file f).ip) s (fun _ s => Q r s) F N) F N := by
        intro r
        refine sat_sectionEnd h1 (hlk _) fun k2 h2 => hQ r _ k2 (Good.mk h2 ?_ h.idle h.root ?_ h.live h.dead) rfl rfl
        · exact { h.rest with }
        · exact h.tab.setOff hpos
      exact sat_readInode h1 (mem_insert_self _ _) hpt (hc c rfl) (fun _ r => hend r) (fun _ => hend _)

/-- Nodes other than directories get other contents. -/
def Alters (a b : ℕ → Node) : Prop :=
  ∀ n, b n = a n ∨ (a n).type ≠ T_DIR ∧ (b n).type = (a n).type ∧ (b n).nlink = (a n).nlink

theorem Alters.refl : Alters a a := fun _ => .inl rfl

theorem Alters.trans {c : ℕ → Node} (h : Alters a b) (h' : Alters b c) : Alters a c := by
  intro n
  rcases h n with h1 | ⟨h1, h2, h3⟩ <;> rcases h' n with h4 | ⟨h4, h5, h6⟩
  · exact .inl (h4.trans h1)
  · rw [h1] at h4 h5 h6
    exact .inr ⟨h4, h5, h6⟩
  · rw [h4]
    exact .inr ⟨h1, h2, h3⟩
  · exact .inr ⟨h1, h5.trans h2, h6.trans h3⟩

theorem Alters.type (h : Alters a b) (n : ℕ) : (b n).type = (a n).type := by
  rcases h n with h1 | ⟨-, h1, -⟩
  · rw [h1]
  · exact h1

theorem alters_write {node : ℕ → Node} {off : ℕ} (h : (node n).type ≠ T_DIR) :
    Alters node (update node n ((node n).write src off c)) := by
  intro m
  by_cases hm : m = n
  · rw [hm, update_self]
    exact .inr ⟨h, rfl, rfl⟩
  · rw [update_of_ne hm]
    exact .inl rfl

theorem sat_fileWriteChunk (h : Good v k) (hf : 0 < (v.file f).ref)
    (hty : (v.file f).type = .inode) (hw : (v.file f).writable = true) (hc : c < 2 ^ 32)
    (hQ : ∀ r v' k' off, Good v' k' → v'.sb = v.sb → Alters v.node v'.node →
      v'.file f = { v.file f with off := off } → Q r k')
    (hN : ∀ k', N "balloc: out of blocks" k') : Sat (fileWriteChunk D f src c) k Q F N := by
  have hlk := h.rest.unlocked
  obtain ⟨hpt, h0⟩ := h.tab.points h.st hty
  have hdir := h.tab.dirs f hty hw
  unfold fileWriteChunk
  simp only [sat_bind_eq, sat_get_eq, sat_pure_eq]
  refine sat_beginOp h.st fun k1 h1 => ?_
  rw [show k1.file = v.file from h1.file]
  refine sat_ilock h1 hpt (fun _ _ k2 h2 => ?_) (fun hc => absurd hc (hlk _)) (fun _ hc => absurd hc h0)
  -- the end of the section, for the nodes that the write leaves
  have hend : ∀ (r : ℤ) nd room k3, Alters v.node nd →
      St { v with outstanding := v.outstanding + 1, node := nd, room := room,
                  locks := insert (v.file f).ip v.locks } k3 →
      Sat (setFile f fun y => { y with off := if r > 0 then u32 (y.off + r.toNat) else y.off }) k3
        (fun _ s => Sat (iunlock (v.file f).ip) s (fun _ s => Sat endOp s (fun _ s => Q r s) F N) F N) F N := by
    intro r nd room k3 ha h3
    refine sat_sectionEnd (v := { v with outstanding := v.outstanding + 1, node := nd, room := room }) h3 (hlk _)
      fun k4 h4 => ?_
    refine sat_endOp (v := { v with
      node := nd
      room := room
      file := update v.file f { v.file f with
        off := if r > 0 then u32 ((v.file f).off + r.toNat) else (v.file f).off } }) h4 fun k5 h5 =>
        hQ r _ k5 _ (Good.mk h5 ?_ h.idle h.root ?_ h.live h.dead) rfl ha (update_self ..)
    · exact { h.rest with }
    · exact (h.tab.nodes fun i _ => ha.type _).setOff hf
  refine sat_writeInode h2 (mem_insert_self _ _) hpt hc (fun _ r => ?_) (fun _ _ => ?_) ?_ (fun _ _ k3 h3 => ?_)
    fun _ => hN
  · exact hend r v.node v.room k2 .refl h2
  · exact hend _ v.node v.room k2 .refl h2
  · intro hd
    exact absurd hd hdir
  · exact hend _ _ _ k3 (alters_write hdir) h3

theorem chunk_lt (n i : ℕ) : chunk n i < 2 ^ 32 := by
  have hmax : filewriteMax < 2 ^ 32 := by decide
  unfold chunk
  split_ifs <;> omega

theorem sat_fileWriteLoop {fuel m : ℕ} (h : Good v k)
    (hf : 0 < (v.file f).ref) (hty : (v.file f).type = .inode) (hw : (v.file f).writable = true)
    (hQ : ∀ r v' k', Good v' k' → v'.sb = v.sb → Alters v.node v'.node → Q r k')
    (hN : ∀ m, m = "balloc: out of blocks" ∨ m = "short filewrite" → ∀ k', N m k') :
    Sat (fileWriteLoop D f src n fuel m) k Q F N := by
  induction fuel generalizing v k m with
  | zero => exact hQ _ v k h rfl .refl
  | succ fuel ih =>
    unfold fileWriteLoop
    split_ifs with hm
    · rw [sat_bind_eq]
      refine sat_fileWriteChunk h hf hty hw (chunk_lt n m) (fun r v1 k1 off h1 hsb ha hrow => ?_) (hN _ (.inl rfl))
      split_ifs with hr
      · exact hQ _ v1 k1 h1 hsb ha
      · rw [sat_bind_eq]
        refine sat_check (fun _ => ?_) (fun _ => hN _ (.inr rfl) _)
        refine ih h1 ?_ ?_ ?_ fun r' v2 k2 h2 hsb' ha' => hQ r' v2 k2 h2 (hsb'.trans hsb) (ha.trans ha')
        · rw [hrow]
          exact hf
        · rw [hrow]
          exact hty
        · rw [hrow]
          exact hw
    · exact hQ _ v k h rfl .refl

theorem sysWrite_good {b : Option ℕ} (h : Good v k) (hp : (v.proc p).live = true)
    (hQ : ∀ r v' k', Good v' k' → v'.sb = v.sb → Alters v.node v'.node → Q r k')
    (hN : ∀ m, m = "balloc: out of blocks" ∨ m = "short filewrite" ∨ m = "filewrite" → ∀ k', N m k') :
    Sat (sysWrite D p fd src b) k Q F N := by
  unfold sysWrite
  rw [sat_bind_eq]
  refine sat_argfd h.st (hQ _ v k h rfl .refl) fun f hfd hf => ?_
  cases b with
  | none => exact hQ _ v k h rfl .refl
  | some n =>
    have hpos := h.tab.ref_pos (h.live p hp) hfd hf
    simp only [sat_bind_eq, sat_get_eq]
    rw [h.st.file]
    cases hw : (v.file f).writable with
    | false => exact hQ _ v k h rfl .refl
    | true =>
      rw [if_neg (by decide)]
      cases hty : (v.file f).type with
      | none => exact hN _ (.inr (.inr rfl)) k
      | pipe => exact hQ _ v k h rfl .refl
      | inode => exact sat_fileWriteLoop h hpos hty hw hQ fun m hm => hN m (hm.imp_right .inl)

/-- `fork` after the first `a` descriptors: the child has those of the parent. -/
structure Forking (v : View) (c a : ℕ) (v' : View) (k : Fsys) : Prop where
  st : St v' k
  same : v' = { v with file := v'.file, proc := v'.proc }
  tab : Tab v' v'.proc 0
  other : ∀ q, q ≠ c → v'.proc q = v.proc q
  live : (v'.proc c).live = false
  rest : ∀ l, a ≤ l → l < NOFILE → (v'.proc c).ofile l = none

theorem sat_forkFd {Q : Unit → Fsys → Prop} (h : Forking v c fd v' k) (hp : p < NPROC) (hc : c < NPROC)
    (hfd : fd < NOFILE) (hQ : ∀ v'' k', Forking v c (fd + 1) v'' k' → Q () k') :
    Sat (forkFd p c fd) k Q F N := by
  unfold forkFd
  rw [sat_bind_eq, sat_get_eq, h.st.proc]
  cases hf : (v'.proc p).ofile fd with
  | none => exact hQ v' k ⟨h.st, h.same, h.tab, h.other, h.live, fun l hl => h.rest l (by omega)⟩
  | some f =>
    have hpos := h.tab.ref_pos hp hfd hf
    simp only [sat_bind_eq]
    refine sat_filedup h.st hpos fun k1 h1 => sat_setFd h1 fun k2 h2 => ?_
    have ht := (h.tab.dup hpos).install hc hfd (h.rest fd le_rfl hfd)
    refine hQ _ k2 (Forking.mk h2 ?_ ?_ (fun q hq => ?_) ?_ fun l hl hlt => ?_)
    · rw [h.same]
    · exact { ht with }
    · exact (setOfile_of_ne hq).trans (h.other q hq)
    · exact (setOfile_live c).trans h.live
    · change (setOfile v'.proc c fd (some f) c).ofile l = none
      rw [setOfile_ofile, if_pos rfl, update_of_ne (by omega)]
      exact h.rest l (by omega) hlt

theorem fork_good (h : Good v k) (hp : (v.proc p).live = true) (hc : c < NPROC)
    (hdead : (k.proc c).live = false) (hQ : ∀ r v' k', Good v' k' → v'.sb = v.sb → v'.node = v.node → Q r k') :
    Sat (Sys.fork p c) k Q F N := by
  have hlt := h.live p hp
  have hdead : (v.proc c).live = false := by rw [← h.st.proc]; exact hdead
  have hpc : p ≠ c := by
    rintro rfl
    rw [hp] at hdead
    cases hdead
  unfold Sys.fork
  rw [sat_bind_eq]
  refine sat_loop (fun a k' => ∃ v', Forking v c a v' k') ⟨v, ?_⟩ (fun a k1 ha h1 => ?_) (fun a k1 ha h1 => ?_)
  · exact ⟨h.st, rfl, h.tab, fun _ _ => rfl, hdead, fun l _ => h.dead c hdead l⟩
  · obtain ⟨v1, h1⟩ := h1
    simp only [sat_bind_eq, sat_pure_eq]
    exact sat_forkFd h1 hlt hc ha fun v2 k2 h2 => ⟨Nat.lt_succ_self a, v2, h2⟩
  · obtain ⟨v1, h1⟩ := h1
    have hpr : v1.proc p = v.proc p := h1.other p hpc
    have huser : v1.user = v.user := by rw [h1.same]
    have hnode : v1.node = v.node := by rw [h1.same]
    have hsb : v1.sb = v.sb := by rw [h1.same]
    have hrest : v1.Rest := by rw [h1.same]; exact { h.rest with }
    have hcwd : 0 < v1.user (v.proc p).cwd := by rw [huser]; exact (h.runs hp).cwd
    simp only [sat_bind_eq, sat_get_eq, sat_modify_eq, sat_pure_eq]
    rw [h1.st.proc, hpr]
    refine sat_idup h1.st (.inr ⟨hcwd, rfl⟩) fun k2 h2 => ?_
    have h3 := h2.toUser rfl (h1.st.user _ hcwd).2
    simp only [update_eq_self, hrest.loose, Finset.erase_empty] at h3
    rw [show k2.proc = v1.proc from h2.proc]
    have hlive : ∀ q, ((v1.proc q).live = true → q < NPROC) ∧
        (q ≠ c → (v1.proc q).live = false → ∀ l < NOFILE, (v1.proc q).ofile l = none) := by
      intro q
      by_cases hq : q = c
      · rw [hq]
        exact ⟨fun _ => hc, fun hne => absurd rfl hne⟩
      · rw [h1.other q hq]
        exact ⟨h.live q, fun _ => h.dead q⟩
    have ht : Tab { v1 with user := update v1.user (v.proc p).cwd (v1.user (v.proc p).cwd + 1) }
        (update v1.proc c { v1.proc c with cwd := (v.proc p).cwd, live := true }) 0 := by
      refine h1.tab.setProc hc rfl rfl rfl (fun i => ?_) fun _ _ => rfl
      simp only [FProc.inDir, h1.live, Bool.false_eq_true, false_and, decide_false, if_false, true_and,
        decide_eq_true_eq, Nat.add_zero]
      by_cases hi : i = (v.proc p).cwd
      · rw [hi, update_self, if_pos rfl]
      · rw [update_of_ne hi, if_neg (Ne.symm hi)]
        rfl
    have h4 := h3.withProcs (update v1.proc c { v1.proc c with cwd := (v.proc p).cwd, live := true })
    refine hQ _ _ _ (Good.mk h4 ⟨hrest.tmp, hrest.locks, rfl⟩ ?_ ?_ ?_ (fun q hq => ?_) fun q hq => ?_) hsb hnode
    · change v1.outstanding = 0
      rw [h1.same]
      exact h.idle
    · change v1.sb.has ROOTINO
      rw [hsb]
      exact h.root
    · exact { ht with }
    · by_cases hqc : q = c
      · rw [hqc]
        exact hc
      · dsimp only at hq
        rw [update_of_ne hqc] at hq
        exact (hlive q).1 hq
    · have hqc : q ≠ c := by
        rintro rfl
        simp only [update_self] at hq
        cases hq
      dsimp only at hq ⊢
      rw [update_of_ne hqc] at hq ⊢
      exact (hlive q).2 hqc hq

/-- `exit` after the first `a` descriptors are closed. -/
structure Exiting (v : View) (p a : ℕ) (v' : View) (k : Fsys) : Prop where
  st : St v' k
  rest : v'.Rest
  tab : Tab v' v'.proc 0
  sb : v'.sb = v.sb
  idle : v'.outstanding = v.outstanding
  node : Frees v.node v'.node
  other : ∀ q, q ≠ p → v'.proc q = v.proc q
  self : (v'.proc p).live = true ∧ (v'.proc p).cwd = (v.proc p).cwd
  closed : ∀ l < a, (v'.proc p).ofile l = none

theorem sat_exitFd {Q : Unit → Fsys → Prop} (h : Exiting v p fd v' k) (hp : p < NPROC) (hfd : fd < NOFILE)
    (hQ : ∀ v'' k', Exiting v p (fd + 1) v'' k' → Q () k') : Sat (exitFd p fd) k Q F N := by
  unfold exitFd
  rw [sat_bind_eq, sat_get_eq, h.st.proc]
  cases hf : (v'.proc p).ofile fd with
  | none =>
    refine hQ v' k ⟨h.st, h.rest, h.tab, h.sb, h.idle, h.node, h.other, h.self, fun l hl => ?_⟩
    rcases Nat.lt_succ_iff_lt_or_eq.1 hl with hl | rfl
    · exact h.closed l hl
    · exact hf
  | some f =>
    simp only [sat_bind_eq]
    have ht := h.tab.uninstall hp hfd hf
    refine sat_fileclose h.st h.rest ht fun v1 k1 h1 hr1 ht1 hd1 => sat_setFd h1 fun k2 h2 => ?_
    rw [show v1.proc = v'.proc from hd1.proc] at h2
    refine hQ _ k2 (Exiting.mk h2 ⟨hr1.tmp, hr1.locks, hr1.loose⟩ ?_ (hd1.sb.trans h.sb)
      (hd1.outstanding.trans h.idle) (h.node.trans hd1.node) (fun q hq => ?_) ⟨?_, ?_⟩ fun l hl => ?_)
    · exact { ht1 with }
    · exact (setOfile_of_ne hq).trans (h.other q hq)
    · exact (setOfile_live p).trans h.self.1
    · change (setOfile v'.proc p fd none p).cwd = _
      rw [setOfile, update_self]
      exact h.self.2
    · change (setOfile v'.proc p fd none p).ofile l = none
      rw [setOfile_ofile, if_pos rfl]
      by_cases hl' : l = fd
      · rw [hl', update_self]
      · rw [update_of_ne hl']
        exact h.closed l (by omega)

theorem exit_good (h : Good v k) (hp : (v.proc p).live = true)
    (hQ : ∀ r v' k', Good v' k' → v'.sb = v.sb → Frees v.node v'.node → Q r k') : Sat (Sys.exit p) k Q F N := by
  have hlt := h.live p hp
  unfold Sys.exit
  rw [sat_bind_eq]
  refine sat_loop (fun a k' => a ≤ NOFILE ∧ ∃ v', Exiting v p a v' k') ⟨Nat.zero_le _, v, ?_⟩ (fun a k1 ha h1 => ?_)
    (fun a k1 ha h1 => ?_)
  · exact ⟨h.st, h.rest, h.tab, rfl, rfl, .refl, fun _ _ => rfl, ⟨hp, rfl⟩, fun l hl => absurd hl (Nat.not_lt_zero l)⟩
  · obtain ⟨-, v1, h1⟩ := h1
    simp only [sat_bind_eq, sat_pure_eq]
    exact sat_exitFd h1 hlt ha fun v2 k2 h2 => ⟨Nat.lt_succ_self a, ha, v2, h2⟩
  · obtain ⟨hle, v1, h1⟩ := h1
    obtain rfl : a = NOFILE := le_antisymm hle ha
    simp only [sat_bind_eq, sat_get_eq, sat_modify_eq, sat_pure_eq]
    refine sat_beginOp h1.st fun k2 h2 => ?_
    rw [show k2.proc = v1.proc from h2.proc]
    have hcwd : 0 < v1.user (v1.proc p).cwd := by
      have hpos : 0 < cwdRefs v1.proc (v1.proc p).cwd :=
        tally_pos (mem_range.2 hlt) (by simp [FProc.inDir, h1.self.1])
      rw [h1.tab.user]
      omega
    refine sat_leave h2 ⟨h1.rest.tmp, h1.rest.locks, h1.rest.loose⟩ hcwd fun nd k3 hfree hty h3 => ?_
    refine sat_endOp (v := { v1 with
      user := update v1.user (v1.proc p).cwd (v1.user (v1.proc p).cwd - 1)
      node := nd }) h3 fun k4 h4 => ?_
    rw [show k4.proc = v1.proc from h4.proc]
    have ht : Tab { v1 with
        user := update v1.user (v1.proc p).cwd (v1.user (v1.proc p).cwd - 1)
        node := nd } (update v1.proc p { v1.proc p with cwd := 0, live := false }) 0 := by
      refine h1.tab.move hlt rfl (fun i => ?_) (fun _ _ => rfl) hty
      simp only [FProc.inDir, h1.self.1, Bool.false_eq_true, false_and, decide_false, if_false, true_and,
        decide_eq_true_eq, Nat.add_zero]
      by_cases hi : i = (v1.proc p).cwd
      · rw [hi, update_self, if_pos rfl]
        omega
      · rw [update_of_ne hi, if_neg (Ne.symm hi)]
        rfl
    have h5 := h4.withProcs (update v1.proc p { v1.proc p with cwd := 0, live := false })
    refine hQ _ _ _ (Good.mk h5 ⟨h1.rest.tmp, h1.rest.locks, h1.rest.loose⟩ (h1.idle.trans h.idle) ?_ ?_
      (fun q hq => ?_) fun q hq l hl => ?_) h1.sb (h1.node.trans hfree)
    · change v1.sb.has ROOTINO
      rw [h1.sb]
      exact h.root
    · exact { ht with }
    · by_cases hqp : q = p
      · rw [hqp]
        exact hlt
      · dsimp only at hq
        rw [update_of_ne hqp, h1.other q hqp] at hq
        exact h.live q hq
    · dsimp only at hq ⊢
      by_cases hqp : q = p
      · rw [hqp, update_self]
        exact h1.closed l hl
      · rw [update_of_ne hqp, h1.other q hqp] at hq ⊢
        exact h.dead q hq l hl

end Xv6.Sys

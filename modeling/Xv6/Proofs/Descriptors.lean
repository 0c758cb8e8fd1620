import Xv6.Proofs.Outcomes

/-! The system calls on files and processes: each keeps the account of the tables, whether it succeeds
or fails. -/

namespace Xv6.Sys

open Prog Count Function
open Finset (notMem_empty mem_insert_self)
open Multiset (cons_swap mem_cons_self)

/-- A state between calls. -/
structure Good (v : View) (k : Fsys) : Prop where
  st : St v k
  rest : v.Rest
  idle : v.outstanding = 0
  root : v.sb.has ROOTINO
  tab : Tab v v.proc 0
  live : ∀ p, (v.proc p).live = true → p < NPROC
  dead : ∀ p, (v.proc p).live = false → ∀ fd < NOFILE, (v.proc p).ofile fd = none

variable {v : View} {P : ℕ → FProc} {X : Multiset ℕ} {k : Fsys} {f i n p fd q omode : ℕ} {F : Fsys → Prop}
  {N : String → Fsys → Prop} {Q : Option ℕ → Fsys → Prop} {y page : Option ℕ} {x : File} {path : List UInt8}

theorem Good.runs (h : Good v k) (hp : (v.proc p).live = true) : v.Runs p := by
  refine ⟨h.root, ?_⟩
  have hpos : 0 < cwdRefs v.proc (v.proc p).cwd :=
    tally_pos (Finset.mem_range.2 (h.live p hp)) (by simp [FProc.inDir, hp])
  rw [h.tab.user]
  omega

/-- A slot of a process points to a file in use. -/
theorem Tab.ref_pos (h : Tab v P X) (hp : p < NPROC) (hfd : fd < NOFILE) (hf : (P p).ofile fd = some f) :
    0 < (v.file f).ref := by
  have hpos : 0 < fdRefs P f := refs_pos (mem_fdSlots.2 ⟨hp, hfd⟩) hf
  rw [h.ref]
  omega

theorem sat_argfd (h : St v k) (hnone : Q none k)
    (hsome : ∀ f, fd < NOFILE → (v.proc p).ofile fd = some f → Q (some f) k) : Sat (argfd p fd) k Q F N := by
  unfold argfd
  rw [sat_bind_eq, sat_get_eq, sat_pure_eq, h.proc]
  split_ifs with hfd
  · cases hf : (v.proc p).ofile fd with
    | none => exact hnone
    | some f => exact hsome f hfd hf
  · exact hnone

/-- Only the live process `p` changes. -/
theorem Good.withProc {v' : View} {k' : Fsys} (h : Good v k) (hp : (v.proc p).live = true) (hst : St v' k')
    (hr : v'.Rest) (ho : v'.outstanding = v.outstanding) (hsb : v'.sb = v.sb) (ht : Tab v' v'.proc 0)
    (hlive : (v'.proc p).live = true) (hother : ∀ q, q ≠ p → v'.proc q = v.proc q) : Good v' k' := by
  refine ⟨hst, hr, ho.trans h.idle, by rw [hsb]; exact h.root, ht, fun q hq => ?_, fun q hq l hl => ?_⟩
  · by_cases hqp : q = p
    · rw [hqp]
      exact h.live p hp
    · rw [hother q hqp] at hq
      exact h.live q hq
  · have hqp : q ≠ p := by
      rintro rfl
      rw [hlive] at hq
      cases hq
    rw [hother q hqp] at hq ⊢
    exact h.dead q hq l hl

theorem setOfile_live (q : ℕ) : (setOfile P p fd y q).live = (P q).live := by
  unfold setOfile
  by_cases hq : q = p
  · rw [hq, update_self]
  · rw [update_of_ne hq]

theorem setOfile_of_ne (hq : q ≠ p) : setOfile P p fd y q = P q := update_of_ne hq ..

theorem setOfile_undo (h : (P p).ofile fd = none) : setOfile (setOfile P p fd y) p fd none = P := by
  unfold setOfile
  rw [update_self, update_idem, update_idem, ← h, update_eq_self,
    update_eq_self]

theorem sysDup_good {Q : ℤ → Fsys → Prop} (h : Good v k) (hp : (v.proc p).live = true)
    (hQ : ∀ r v' k', Good v' k' → v'.sb = v.sb → v'.node = v.node → Q r k') : Sat (sysDup p fd) k Q F N := by
  unfold sysDup
  rw [sat_bind_eq]
  refine sat_argfd h.st (hQ _ v k h rfl rfl) fun f hfd hf => ?_
  simp only [sat_bind_eq]
  refine sat_fdalloc h.st (fun _ => hQ _ v k h rfl rfl) fun l hl hfree k1 h1 => ?_
  simp only [sat_bind_eq, sat_pure_eq]
  have hpos := h.tab.ref_pos (h.live p hp) hfd hf
  have ht := (h.tab.dup hpos).install (h.live p hp) hl hfree
  refine sat_filedup h1 hpos fun k2 h2 => hQ _ { v with
    file := update v.file f { v.file f with ref := (v.file f).ref + 1 }
    proc := setOfile v.proc p l (some f) } k2 ?_ rfl rfl
  exact h.withProc hp h2 { h.rest with } rfl rfl
    { ht with } ((setOfile_live p).trans hp) (fun _ => setOfile_of_ne)

theorem sysClose_good {Q : ℤ → Fsys → Prop} (h : Good v k) (hp : (v.proc p).live = true)
    (hQ : ∀ r v' k', Good v' k' → v'.sb = v.sb → Frees v.node v'.node → Q r k') : Sat (sysClose p fd) k Q F N := by
  unfold sysClose
  rw [sat_bind_eq]
  refine sat_argfd h.st (hQ _ v k h rfl .refl) fun f hfd hf => ?_
  simp only [sat_bind_eq, sat_pure_eq]
  refine sat_setFd h.st fun k1 h1 => ?_
  have ht := h.tab.uninstall (h.live p hp) hfd hf
  refine sat_fileclose (v := { v with proc := setOfile v.proc p fd none }) h1
    { h.rest with }
    { ht with } fun v' k2 h2 hr ht' hd => ?_
  rw [show setOfile v.proc p fd none = v'.proc from hd.proc.symm] at ht'
  refine hQ _ v' k2 (h.withProc hp h2 hr hd.outstanding hd.sb ht' ?_ fun q hq => ?_) hd.sb hd.node
  · rw [hd.proc]
    exact (setOfile_live p).trans hp
  · rw [hd.proc]
    exact setOfile_of_ne hq

/-! Pipes -/

/-- A file that was just allocated becomes an end of pipe `q`, which was closed. -/
theorem Tab.openEnd {y : Pipe} {w : Bool} (h : Tab v P X) (hf : 0 < (v.file f).ref)
    (hidle : (v.file f).type = .none) (hx : x.ref = (v.file f).ref) (hty : x.type = .pipe) (hq : x.pipe = q)
    (hw : x.writable = w) (hclosed : pipeOpen v.pipe q w = false)
    (hy : ∀ w', (if w' then y.writeopen else y.readopen) = if w' = w then true else pipeOpen v.pipe q w') :
    Tab { v with file := update v.file f x, pipe := update v.pipe q (some y) } P X := by
  have hopen : ∀ q' w', pipeOpen (update v.pipe q (some y)) q' w' =
      if q' = q ∧ w' = w then true else pipeOpen v.pipe q' w' := by
    intro q' w'
    by_cases hqq : q' = q
    · subst hqq
      unfold pipeOpen
      rw [update_self]
      simp only [true_and]
      exact hy w'
    · unfold pipeOpen
      rw [update_of_ne hqq, if_neg (fun hc => hqq hc.1)]
  refine h.setFile (h.lt f hf) rfl (fun _ _ => rfl) (hx.trans (h.ref f)) (fun h0 => absurd h0 (by omega)) (fun i => ?_)
    (fun q' w' => ?_) (fun q' z hz => ?_) (fun _ _ _ => rfl) (fun hc => by rw [hty] at hc; cases hc)
  · simp [File.onNode, hidle, hty]
  · have h1 : (v.file f).onPipe q' w' = false := by simp [File.onPipe, hidle]
    have h2 : x.onPipe q' w' = decide (q' = q ∧ w' = w) := by simp [File.onPipe, hty, hq, hw, eq_comm]
    change (pipeOpen (update v.pipe q (some y)) q' w').toNat + _ = _
    rw [hopen, h1, h2]
    by_cases hc : q' = q ∧ w' = w
    · rw [if_pos hc, hc.1, hc.2, hclosed]
      simp
    · rw [if_neg hc]
      simp [hc]
  · change update v.pipe q (some y) q' = some z at hz
    by_cases hqq : q' = q
    · rw [hqq, update_self] at hz
      obtain rfl := Option.some.inj hz
      have := hy w
      rw [if_pos rfl] at this
      cases w
      · exact .inl this
      · exact .inr this
    · rw [update_of_ne hqq] at hz
      exact h.page q' z hz

theorem St.withPipe (h : St v k) (q : ℕ) (y : Option Pipe) :
    St { v with pipe := Function.update v.pipe q y } { k with pipe := Function.update k.pipe q y } :=
  { h with pipe := by rw [← h.pipe] }

theorem sat_pipealloc {Q : Option (ℕ × ℕ) → Fsys → Prop} (h : St v k) (hr : v.Rest) (ht : Tab v P X)
    (hpage : ∀ q, page = some q → v.pipe q = none)
    (hnone : ∀ v' k', St v' k' → v'.Rest → Tab v' P X → Dropped v v' → Q none k')
    (hsome : ∀ f₀ f₁ v' k', St v' k' → v'.Rest → Tab v' P (f₀ ::ₘ f₁ ::ₘ X) → Dropped v v' → Q (some (f₀, f₁)) k') :
    Sat (pipealloc page) k Q F N := by
  unfold pipealloc
  rw [sat_bind_eq]
  refine sat_filealloc h ht (fun _ => hnone v k h hr ht .refl) fun f₀ hlt₀ hf₀ k1 h1 ht1 => ?_
  simp only [sat_bind_eq]
  refine sat_filealloc h1 ht1 (fun _ => ?_) fun f₁ hlt₁ hf₁ k2 h2 ht2 => ?_
  · simp only [sat_bind_eq, sat_pure_eq]
    refine sat_fileclose h1 ⟨hr.tmp, hr.locks, hr.loose⟩ ht1 fun v' k' h' hr' ht' hd => hnone v' k' h' hr' ht' ?_
    exact ⟨hd.sb, hd.proc, hd.outstanding, hd.room, hd.node⟩
  · cases hpg : page with
    | none =>
      simp only [sat_bind_eq, sat_pure_eq]
      rw [cons_swap] at ht2
      refine sat_fileclose h2 ⟨hr.tmp, hr.locks, hr.loose⟩ ht2 fun v3 k3 h3 hr3 ht3 hd3 => ?_
      refine sat_fileclose h3 hr3 ht3 fun v' k' h' hr' ht' hd => hnone v' k' h' hr' ht' ?_
      exact ⟨hd.sb.trans hd3.sb, hd.proc.trans hd3.proc, hd.outstanding.trans hd3.outstanding, hd.room.trans hd3.room,
        hd3.node.trans hd.node⟩
    | some q =>
      have hne : f₁ ≠ f₀ := by
        rintro rfl
        simp only [update_self] at hf₁
        exact Nat.one_ne_zero hf₁
      simp only [update_of_ne hne] at hf₁ h2 ht2
      have hq := hpage q hpg
      have hclosed : ∀ w, pipeOpen v.pipe q w = false := fun w => by rw [pipeOpen, hq]
      rw [cons_swap] at ht2
      have ht3 := ht2.openEnd (f := f₀) (q := q) (w := false) (y := ⟨true, false⟩)
        (x := { v.file f₀ with type := .pipe, ref := 1, readable := true, writable := false, pipe := q })
        (by simp [update_of_ne hne.symm]) (by simp [update_of_ne hne.symm, ht.idle f₀ hf₀])
        (by simp [update_of_ne hne.symm]) rfl rfl rfl (hclosed _) (fun w' => by cases w' <;> simp [hclosed])
      have ht4 := ht3.openEnd (f := f₁) (q := q) (w := true) (y := ⟨true, true⟩)
        (x := { v.file f₁ with type := .pipe, ref := 1, readable := false, writable := true, pipe := q })
        (by simp [update_of_ne hne]) (by simp [update_of_ne hne, ht.idle f₁ hf₁])
        (by simp [update_of_ne hne]) rfl rfl rfl (by simp [pipeOpen])
        (fun w' => by cases w' <;> simp [pipeOpen])
      simp only [update_idem] at ht4
      simp only [sat_bind_eq, sat_modify_eq, sat_pure_eq]
      refine sat_setFile (St.withPipe h2 q (some ⟨true, true⟩)) fun k3 h3 => sat_setFile h3 fun k4 h4 => ?_
      simp only [update_self, update_of_ne hne, update_of_ne hne.symm] at h4
      exact hsome f₀ f₁ _ k4 h4 ⟨hr.tmp, hr.locks, hr.loose⟩ ht4 ⟨rfl, rfl, rfl, rfl, .refl⟩

theorem sysPipe_good {Q : ℤ → Fsys → Prop} (h : Good v k) (hp : (v.proc p).live = true)
    (hpage : ∀ q, page = some q → k.pipe q = none)
    (hQ : ∀ r v' k', Good v' k' → v'.sb = v.sb → Frees v.node v'.node → Q r k') : Sat (sysPipe p page) k Q F N := by
  have hlt := h.live p hp
  -- a failed call gives both ends back
  have hfail : ∀ v' k', St v' k' → v'.Rest → Tab v' v.proc 0 → Dropped v v' → Q (-1) k' := by
    intro v' k' h' hr ht hd
    refine hQ _ v' k' (h.withProc hp h' hr hd.outstanding hd.sb (by rw [hd.proc]; exact ht) ?_ fun q _ => ?_) hd.sb hd.node
    · rw [hd.proc]
      exact hp
    · rw [hd.proc]
  unfold sysPipe
  rw [sat_bind_eq]
  refine sat_pipealloc h.st h.rest h.tab (by rw [← h.st.pipe]; exact hpage) hfail fun rf wf v1 k1 h1 hr1 ht1 hd1 => ?_
  simp only [sat_bind_eq]
  refine sat_fdalloc h1 (fun _ => ?_) fun fd₀ hfd₀ hfree₀ k2 h2 => ?_
  · simp only [sat_bind_eq, sat_pure_eq]
    refine sat_fileclose h1 hr1 ht1 fun v2 k2 h2 hr2 ht2 hd2 => ?_
    refine sat_fileclose h2 hr2 ht2 fun v3 k3 h3 hr3 ht3 hd3 => hfail v3 k3 h3 hr3 ht3 ((hd1.trans hd2).trans hd3)
  simp only [sat_bind_eq]
  rw [hd1.proc] at h2 hfree₀
  refine sat_fdalloc h2 (fun _ => ?_) fun fd₁ hfd₁ hfree₁ k3 h3 => ?_
  · simp only [sat_bind_eq, sat_pure_eq]
    refine sat_setFd h2 fun k3 h3 => ?_
    simp only [setOfile_undo hfree₀] at h3
    have h3 : St { v1 with proc := v.proc } k3 := h3
    rw [← hd1.proc] at h3
    refine sat_fileclose h3 hr1 ht1 fun v2 k2 h2 hr2 ht2 hd2 => ?_
    exact sat_fileclose h2 hr2 ht2 fun v3 k3 h3 hr3 ht3 hd3 => hfail v3 k3 h3 hr3 ht3 ((hd1.trans hd2).trans hd3)
  · have ht2 := (ht1.install hlt hfd₀ hfree₀).install hlt hfd₁ hfree₁
    refine hQ _ { v1 with proc := setOfile (setOfile v.proc p fd₀ (some rf)) p fd₁ (some wf) } k3
      (h.withProc hp h3 ⟨hr1.tmp, hr1.locks, hr1.loose⟩ hd1.outstanding hd1.sb
        { ht2 with } ?_ fun q hq => ?_) hd1.sb hd1.node
    · exact (setOfile_live p).trans ((setOfile_live p).trans hp)
    · exact (setOfile_of_ne hq).trans (setOfile_of_ne hq)

/-! `open` -/

theorem map_ne_stuck {α β : Type} {g : α → β} {o : Out α} (h : o ≠ .stuck) : o.map g ≠ .stuck := by
  cases o with
  | ret a nd => simp [Out.map]
  | stuck => exact absurd rfl h
  | panic m => simp [Out.map]

/-- `namei` between calls. -/
theorem sat_namei (h : St v k) (hr : v.Rest) (hp : v.Runs p)
    {r : Except String (Option (ℕ × List UInt8))} (hres : resolve v.node v.held (v.space p).cwd path false = r)
    (hnone : r = .ok none → ∀ k', St v k' → Q none k')
    (hsome : ∀ m s, r = .ok (some (m, s)) → ∀ e k', St { v with tmp := (e, m) ::ₘ v.tmp } k' → Q (some e) k')
    (hN : ∀ msg, r = .error msg → ∀ k', N msg k') : Sat (namei p path) k Q F N := by
  unfold namei
  simp only [sat_bind_eq, sat_pure_eq]
  exact sat_namex h (fun m hm => absurd hm (by rw [hr.loose]; exact notMem_empty m)) hr.locks hp.root hp.cwd
    (cached_nil hr.tmp) hres hnone hsome hN

theorem open_ret {s : Space} {nd : ℕ → Node} (h : s.open path omode = .ret (some n) nd) :
    s.Keeps nd ∧ (omode ≠ O_RDONLY → (nd n).type ≠ T_DIR) := by
  unfold Space.open at h
  split_ifs at h with hc
  · cases hcr : s.create path T_FILE 0 0 with
    | ret r nd' =>
      simp only [hcr, Out.map, Out.ret.injEq] at h
      obtain ⟨hr, rfl⟩ := h
      refine ⟨create_keeps hcr, fun _ => ?_⟩
      rcases create_ret hcr with ⟨rfl, -⟩ | ⟨m, rfl, rfl, -, hty⟩ | ⟨d, l, name, hm, rfl, rfl⟩
      · cases hr
      · cases hr
        rw [hty]
        decide
      · cases hr
        rw [made_self hm.ne, if_neg (by decide)]
        exact (by decide : T_FILE ≠ T_DIR)
    | stuck => simp [hcr, Out.map] at h
    | panic m => simp [hcr, Out.map] at h
  · cases hres : resolve s.node s.held s.cwd path false with
    | error m => simp [hres] at h
    | ok r =>
      cases r with
      | none => simp [hres] at h
      | some q =>
        obtain ⟨m, t⟩ := q
        simp only [hres] at h
        split_ifs at h with h0 hd <;> cases h
        exact ⟨.refl, fun ho ht => hd ⟨ht, ho⟩⟩

theorem sat_openInode {o : Out (Option ℕ)} (h : St v k)
    (hr : v.Rest) (hp : v.Runs p) (ho : (v.space p).open path omode = o)
    (hnone : o = .ret none v.node → ∀ k', St v k' → Q none k')
    (hsome : ∀ n nd, o = .ret (some n) nd → ∀ e k', St { v with
        node := nd
        tmp := (e, n) ::ₘ v.tmp
        locks := insert e v.locks
        room := v.room - 6 } k' → Q (some e) k')
    (hpanic : ∀ m, o = .panic m → ∀ k', N m k')
    (hroom : o ≠ .stuck → v.room < 6 → ∀ k', N "balloc: out of blocks" k') :
    Sat (openInode p path omode) k Q F N := by
  have hsafe := hr.safe
  have hlk := hr.unlocked
  unfold openInode
  unfold Space.open at ho
  by_cases hc : hasFlag omode O_CREATE = true
  · rw [if_pos hc] at ho ⊢
    refine sat_create h hr hp (by decide) (by decide) (by decide) (by decide) rfl (fun hcr => hnone ?_)
      (fun m hcr e k' h' => hsome m v.node ?_ e k' ?_) (fun n nd hcr => hsome n nd ?_) (fun m hcr => hpanic m ?_)
      (fun hcr => hroom ?_)
    · rw [← ho, hcr]
      rfl
    · rw [← ho, hcr]
      rfl
    · exact h'.weaken (Nat.sub_le _ _)
    · rw [← ho, hcr]
      rfl
    · rw [← ho, hcr]
      rfl
    · rw [← ho]
      exact map_ne_stuck hcr
  · rw [if_neg hc] at ho ⊢
    rw [sat_bind_eq]
    refine sat_namei h hr hp rfl (fun hres k1 h1 => ?_) (fun n s hres e k1 h1 => ?_) (fun m hres => ?_)
    · simp only [hres] at ho
      exact hnone ho.symm k1 h1
    · simp only [hres] at ho
      simp only [sat_bind_eq, sat_get_eq]
      refine sat_ilock h1 (.inl (mem_cons_self _ _)) (fun _ h0 k2 h2 => ?_) (fun hc => absurd hc (hlk e))
        (fun _ h0 => hpanic _ ?_)
      · have h0 : (v.node n).type ≠ 0 := h0
        simp only [h0, if_false] at ho
        rw [h2.locked_type (mem_insert_self _ _) (.inl (mem_cons_self _ _))]
        by_cases hd : (v.node n).type = T_DIR ∧ omode ≠ O_RDONLY
        · rw [if_pos hd, sat_bind_eq]
          rw [if_pos hd] at ho
          exact sat_iunlockput_extra (v := v) h2 hsafe (hlk e) fun k3 h3 => hnone ho.symm k3 h3
        · rw [if_neg hd]
          rw [if_neg hd] at ho
          exact hsome n v.node ho.symm e k2 (h2.weaken (Nat.sub_le _ _))
      · have h0 : (v.node n).type = 0 := h0
        simp only [h0, if_true] at ho
        exact ho.symm
    · simp only [hres] at ho
      exact hpanic _ ho.symm

/-- Every struct file is in use. -/
def View.noFile (v : View) : Prop := ∀ f < NFILE, (v.file f).ref ≠ 0

/-- Every descriptor of process `p` is in use. -/
def View.noFd (v : View) (p : ℕ) : Prop := ∀ fd < NOFILE, (v.proc p).ofile fd ≠ none

/-- A file that was just allocated is given back. -/
theorem sat_fileclose_unused {Q : Unit → Fsys → Prop}
    (h : St { v with file := update v.file f { v.file f with ref := 1 } } k) (h0 : (v.file f).ref = 0)
    (hty : (v.file f).type = .none) (hQ : ∀ k', St v k' → Q () k') : Sat (fileclose f) k Q F N := by
  unfold fileclose
  rw [sat_bind_eq, sat_get_eq, sat_bind_eq, h.file]
  simp only [update_self]
  refine sat_check (fun _ => ?_) (fun hc => absurd (by simp) hc)
  rw [sat_bind_eq]
  refine sat_setFile h fun k1 h1 => ?_
  rw [if_neg (by decide), sat_bind_eq]
  refine sat_setFile h1 fun k2 h2 => ?_
  simp only [update_self, update_idem] at h2
  have hback : update v.file f { v.file f with ref := 0, type := .none } = v.file := by
    rw [← h0, ← hty, update_eq_self]
  rw [hty]
  refine hQ k2 ?_
  rw [hback] at h2
  exact h2

/-- `sys_open` puts a file on an inode that the call refers to. -/
theorem Tab.openFile {e : ℕ} {T : Multiset (ℕ × ℕ)} (h : Tab v P X) (hst : St v k)
    (hT : v.tmp = (e, n) ::ₘ T) (hf : 0 < (v.file f).ref) (hidle : (v.file f).type = .none)
    (hx : x.ref = (v.file f).ref) (hty : x.type = .inode) (hip : x.ip = e)
    (hdir : x.writable = true → (v.node n).type ≠ T_DIR) :
    Tab { v with
      file := update v.file f x
      user := update v.user e (v.user e + 1)
      num := update v.num e n
      tmp := T
      loose := v.loose.erase n } P X := by
  have hnum : ∀ i, 0 < v.user i → update v.num e n i = v.num i := by
    intro i hi
    by_cases hie : i = e
    · rw [hie, update_self]
      rw [hie] at hi
      exact (hst.tmp (e, n) (by rw [hT]; exact mem_cons_self _ _)).symm.trans (hst.user e hi).1
    · rw [update_of_ne hie]
  refine h.setFile (h.lt f hf) rfl (fun _ _ => rfl) (hx.trans (h.ref f)) (fun h0 => absurd h0 (by omega)) (fun i => ?_)
    (fun q w => ?_) h.page (fun g hg hgt => ?_) (fun _ hw => ?_)
  · by_cases hi : i = e
    · simp [File.onNode, hidle, hty, hip, hi]
    · simp [File.onNode, hidle, hip, hi, Ne.symm hi]
  · simp [File.onPipe, hidle, hty]
  · change (v.node (update v.num e n _)).type = _
    rw [hnum _ (h.user_pos hgt)]
  · change (v.node (update v.num e n x.ip)).type ≠ _
    rw [hip, update_self]
    exact hdir hw

theorem hasFlag_zero {flag : ℕ} : hasFlag O_RDONLY flag = false := by
  unfold hasFlag
  rw [show O_RDONLY = 0 from rfl, Nat.zero_and]
  rfl

theorem sysOpen_good {Q : ℤ → Fsys → Prop} (h : Good v k) (hp : (v.proc p).live = true)
    (hQ : ∀ r x v' k', (v.space p).open path omode = .ret x v'.node → (r = -1 ↔ x = none ∨ v.noFile ∨ v.noFd p) →
      Good v' k' → v'.sb = v.sb → Q r k')
    (hpanic : ∀ m, (v.space p).open path omode = .panic m → ∀ k', N m k')
    (hroom : (v.space p).open path omode ≠ .stuck → v.room < 6 → ∀ k', N "balloc: out of blocks" k') :
    Sat (sysOpen p (some path) omode) k Q F N := by
  have hlt := h.live p hp
  have hlk := h.rest.unlocked
  have hsafe := h.rest.safe
  have hruns := h.runs hp
  unfold sysOpen
  simp only [sat_bind_eq]
  refine sat_beginOp h.st fun k1 h1 => ?_
  refine sat_openInode h1 { h.rest with } ⟨hruns.root, hruns.cwd⟩ rfl (fun ho k2 h2 => ?_)
    (fun n nd ho e k2 h2 => ?_) hpanic hroom
  all_goals change (v.space p).open path omode = _ at ho
  · simp only [sat_bind_eq, sat_pure_eq]
    refine sat_endOp h2 fun k3 h3 => hQ _ none v k3 ho (by simp) ?_ rfl
    exact { h with st := h3 }
  obtain ⟨hkeeps, hdir⟩ := open_ret ho
  have ht2 : Tab { v with
      node := nd
      tmp := (e, n) ::ₘ v.tmp
      locks := insert e v.locks
      outstanding := v.outstanding + 1
      room := v.room - 6 } v.proc 0 := by
    have ht := h.tab.nodes (w := nd) (r := v.room - 6) fun i hi =>
      hkeeps _ (h.st.mem_held.2 ⟨i, hi, rfl⟩) (h.st.user i hi).2
    exact { ht with }
  -- both error paths after the inode is found
  have hbad : ∀ k', St { v with
      node := nd
      tmp := (e, n) ::ₘ v.tmp
      locks := insert e v.locks
      outstanding := v.outstanding + 1
      room := v.room - 6 } k' → (v.noFile ∨ v.noFd p) → Sat (openBad e) k' Q F N := by
    intro k' h' hno
    unfold openBad
    simp only [sat_bind_eq, sat_pure_eq]
    refine sat_iunlockput_extra (v := { v with
      node := nd
      outstanding := v.outstanding + 1
      room := v.room - 6 }) h' hsafe (hlk e) fun k3 h3 => ?_
    refine sat_endOp (v := { v with node := nd, room := v.room - 6 }) h3 fun k4 h4 =>
      hQ _ (some n) { v with node := nd, room := v.room - 6 } k4 ho (by simp [hno]) ?_ rfl
    exact ⟨h4, { h.rest with }, h.idle, h.root,
      { ht2 with }, h.live, h.dead⟩
  simp only [sat_bind_eq]
  refine sat_filealloc h2 ht2 (fun hno => hbad k2 h2 (.inl hno)) fun f hf h0 k3 h3 ht3 => ?_
  simp only [sat_bind_eq]
  refine sat_fdalloc h3 (fun hno => ?_) fun fd hfd hfree k4 h4 => ?_
  · simp only [sat_bind_eq]
    exact sat_fileclose_unused h3 h0 (h.tab.idle f h0) fun k4 h4 => hbad k4 h4 (.inr hno)
  · simp only [sat_bind_eq, sat_pure_eq]
    refine sat_iunlock h4 (mem_insert_self _ _) fun k5 h5 => ?_
    simp only [Finset.erase_insert (hlk e)] at h5
    have h5 : St { v with
      node := nd
      tmp := (e, n) ::ₘ v.tmp
      outstanding := v.outstanding + 1
      room := v.room - 6
      file := update v.file f { v.file f with ref := 1 }
      proc := setOfile v.proc p fd (some f) } k5 := h5
    refine sat_endOp (v := { v with
      node := nd
      tmp := (e, n) ::ₘ v.tmp
      room := v.room - 6
      file := update v.file f { v.file f with ref := 1 }
      proc := setOfile v.proc p fd (some f) }) h5 fun k6 h6 => ?_
    have ht6 := ht3.install hlt hfd hfree
    refine sat_setFile h6 fun k7 h7 => ?_
    have halloc : (nd n).type ≠ 0 := (h2.locked (mem_insert_self _ _) (.inl (mem_cons_self _ _))).2
    have h8 := h7.toUser rfl halloc
    have ht8 := Tab.openFile (f := f) (v := { v with
      node := nd
      tmp := (e, n) ::ₘ v.tmp
      room := v.room - 6
      file := update v.file f { v.file f with ref := 1 }
      proc := setOfile v.proc p fd (some f) }) (P := setOfile v.proc p fd (some f)) (X := 0)
      (x := { v.file f with
        type := .inode
        ref := 1
        ip := e
        off := 0
        readable := !hasFlag omode O_WRONLY
        writable := hasFlag omode O_WRONLY || hasFlag omode O_RDWR })
      { ht6 with } h6 rfl
      (by simp only [update_self]; exact Nat.one_pos)
      (by simp only [update_self]; exact h.tab.idle f h0) (by simp only [update_self]) rfl rfl
      (fun hw => hdir fun hc => by simp [hc, hasFlag_zero] at hw)
    simp only [update_self, update_idem, h.rest.loose, Finset.erase_empty] at h8 ht8
    refine hQ _ (some n) _ k7 ho ?_ ⟨h8, ⟨h.rest.tmp, h.rest.locks, rfl⟩, h.idle, h.root,
      { ht8 with }, fun q hq => ?_, fun q hq => ?_⟩ rfl
    · have hfile : ¬ v.noFile := fun hc => hc f hf h0
      have hfd : ¬ v.noFd p := fun hc => hc fd hfd hfree
      simp [hfile, hfd]
    · exact h.live q ((setOfile_live q).symm.trans hq)
    · have hdead : (v.proc q).live = false := (setOfile_live q).symm.trans hq
      have hqp : q ≠ p := by
        rintro rfl
        rw [hp] at hdead
        cases hdead
      change ∀ l < NOFILE, (setOfile v.proc p fd (some f) q).ofile l = none
      rw [setOfile_of_ne hqp]
      exact h.dead q hdead

end Xv6.Sys

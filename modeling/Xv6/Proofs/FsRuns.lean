import Xv6.Proofs.FileCalls

/-! Runs of the file system: what each call does to the nodes, and the account that holds between calls. -/

namespace Xv6.Sys

open Prog Count Function Nat

/-- What a call can do to the nodes. -/
inductive Space.Effect (s : Space) : (ℕ → Node) → Prop where
  | frees {nd : ℕ → Node} (h : Frees s.node nd) : s.Effect nd
  | alters {nd : ℕ → Node} (h : Alters s.node nd) : s.Effect nd
  | link {old new name : List UInt8} {n d : ℕ} (h : s.Links old new n d name) : s.Effect (s.linked n d name)
  | unlink {path name : List UInt8} {d j m : ℕ} (h : s.Unlinks path d j m name) : s.Effect (s.removed d j m)
  | make {path name : List UInt8} {d n type major minor : ℕ} (ht : type ≠ 0) (h : s.Makes path d n name) :
    s.Effect (s.made d n name type major minor)

theorem Space.Effect.refl {s : Space} : s.Effect s.node := .frees .refl

/-- The call waits for a lock that it holds. -/
def Call.stuck (s : Space) : Call → Prop
  | .link (some old) (some new) => s.link old new = .stuck
  | .unlink (some path) => s.unlink path = .stuck
  | _ => False

/-- The call stops the kernel. -/
def Call.panics (s : Space) (m : String) : Call → Prop
  | .open (some path) omode => s.open path omode = .panic m ∨ m = "balloc: out of blocks"
  | .link (some old) (some new) => s.link old new = .panic m ∨ m = "balloc: out of blocks"
  | .unlink (some path) => s.unlink path = .panic m ∨ m = "balloc: out of blocks"
  | .mkdir (some path) => s.make path T_DIR 0 0 = .panic m ∨ m = "balloc: out of blocks"
  | .mknod (some path) major minor =>
    s.make path T_DEV (major % 65536) (minor % 65536) = .panic m ∨ m = "balloc: out of blocks"
  | .chdir (some path) => s.target path = .error m
  | .exec (some path) _ _ => s.target path = .error m
  | .read _ _ => m = "fileread"
  | .write _ _ _ => m = "balloc: out of blocks" ∨ m = "short filewrite" ∨ m = "filewrite"
  | _ => False

variable {v : View} {k k' : Fsys} {c : Call} {D : Devsw} {p r : ℕ} {a : ℤ} {s : Space} {nd : ℕ → Node}
  {path old new : List UInt8} {type major minor : ℕ}

theorem link_effect (h : s.link old new = .ret a nd) : s.Effect nd := by
  rcases link_ret h with ⟨-, rfl⟩ | ⟨n, d, name, hl, -, rfl⟩
  · exact .refl
  · exact .link hl

theorem unlink_effect (h : s.unlink path = .ret a nd) : s.Effect nd := by
  rcases unlink_ret h with ⟨-, rfl⟩ | ⟨d, j, m, name, hu, -, rfl⟩
  · exact .refl
  · exact .unlink hu

theorem create_effect {r : Option (ℕ × Bool)} (ht : type ≠ 0) (h : s.create path type major minor = .ret r nd) :
    s.Effect nd := by
  rcases create_ret h with ⟨-, rfl⟩ | ⟨m, -, rfl, -⟩ | ⟨d, n, name, hm, -, rfl⟩
  · exact .refl
  · exact .refl
  · exact .make ht hm

theorem map_ret {α β : Type} {f : α → β} {o : Out α} {b : β} (h : o.map f = .ret b nd) : ∃ x, o = .ret x nd ∧ f x = b := by
  cases o with
  | ret x node =>
    simp only [Out.map, Out.ret.injEq] at h
    exact ⟨x, by rw [h.2], h.1⟩
  | stuck => cases h
  | panic m => cases h

theorem make_effect (ht : type ≠ 0) (h : s.make path type major minor = .ret a nd) : s.Effect nd := by
  obtain ⟨r, hr, -⟩ := map_ret h
  exact create_effect ht hr

theorem open_effect {omode : ℕ} {r : Option ℕ} (h : s.open path omode = .ret r nd) : s.Effect nd := by
  unfold Space.open at h
  split_ifs at h with hc
  · obtain ⟨r', hr, -⟩ := map_ret h
    exact create_effect (by decide) hr
  · repeat' split at h
    all_goals cases h
    all_goals exact .refl

/-- A state after a call that keeps the types of the nodes in use. -/
theorem Good.nodes (h : Good v k) (hk : (v.space p).Keeps nd)
    (hst : St { v with node := nd, room := v.room - r } k') : Good { v with node := nd, room := v.room - r } k' := by
  refine ⟨hst, { h.rest with }, h.idle, h.root, ?_, h.live, h.dead⟩
  exact h.tab.nodes fun i hi => hk _ (h.st.mem_held.2 ⟨i, hi, rfl⟩) (h.st.user i hi).2

/-- A call that does what its outcome over the nodes says. -/
theorem Good.refined {o : Out ℤ} {x : K ℤ} (h : Good v k) (hr : Refines v r o x k)
    (hkeeps : ∀ a nd, o = .ret a nd → (v.space p).Keeps nd) :
    Sat x k (fun a k' => ∃ v', Good v' k' ∧ v'.sb = v.sb ∧ o = .ret a v'.node) (fun _ => o = .stuck)
      (fun m _ => o = .panic m ∨ m = "balloc: out of blocks") := by
  refine sat_mono hr (fun a k' hret => ?_) (fun _ hs => hs) (fun m _ hm => ?_)
  · obtain ⟨nd, ho, hst⟩ := hret
    exact ⟨_, h.nodes (hkeeps a nd ho) hst, rfl, ho⟩
  · exact hm.imp_right (·.1)

theorem make_keeps (h : s.make path type major minor = .ret a nd) : s.Keeps nd := by
  obtain ⟨r, hr, -⟩ := map_ret h
  exact create_keeps hr

theorem create_ne_stuck : s.create path type major minor ≠ .stuck := by
  intro h
  unfold Space.create at h
  dsimp only at h
  repeat' split at h
  all_goals cases h

theorem make_ne_stuck : s.make path type major minor ≠ .stuck := map_ne_stuck create_ne_stuck

theorem sysCreate_good (h : Good v k) (hp : (v.proc p).live = true) (ht : type ≠ 0) (ht' : type < 65536)
    (hmaj : major < 65536) (hmin : minor < 65536) :
    Sat (sysCreate p (some path) type major minor) k
      (fun a k' => ∃ v', Good v' k' ∧ v'.sb = v.sb ∧ (v.space p).make path type major minor = .ret a v'.node)
      (fun _ => False) (fun m _ => (v.space p).make path type major minor = .panic m ∨ m = "balloc: out of blocks") :=
  sat_mono (h.refined (sysCreate_refines h.st h.rest (h.runs hp) ht ht' hmaj hmin) fun _ _ => make_keeps)
    (fun _ _ hq => hq) (fun _ hs => make_ne_stuck hs) (fun _ _ hm => hm)

theorem sysLink_good (h : Good v k) (hp : (v.proc p).live = true) :
    Sat (sysLink p (some old) (some new)) k
      (fun a k' => ∃ v', Good v' k' ∧ v'.sb = v.sb ∧ (v.space p).link old new = .ret a v'.node)
      (fun _ => (v.space p).link old new = .stuck)
      (fun m _ => (v.space p).link old new = .panic m ∨ m = "balloc: out of blocks") :=
  h.refined (sysLink_refines h.st h.rest (h.runs hp)) fun _ _ => link_keeps

theorem sysUnlink_good (h : Good v k) (hp : (v.proc p).live = true) :
    Sat (sysUnlink p (some path)) k
      (fun a k' => ∃ v', Good v' k' ∧ v'.sb = v.sb ∧ (v.space p).unlink path = .ret a v'.node)
      (fun _ => (v.space p).unlink path = .stuck)
      (fun m _ => (v.space p).unlink path = .panic m ∨ m = "balloc: out of blocks") :=
  h.refined (sysUnlink_refines h.st h.rest (h.runs hp)) fun _ _ => unlink_keeps

/-- What a call does in a state between calls. -/
structure Moved (v : View) (p : ℕ) (v' : View) (k' : Fsys) : Prop where
  live : (v.proc p).live = true
  good : Good v' k'
  sb : v'.sb = v.sb
  effect : (v.space p).Effect v'.node

/-- A call without a path. -/
theorem Good.noPath {F : Fsys → Prop} {N : String → Fsys → Prop} (h : Good v k) (hp : (v.proc p).live = true) :
    Sat (do beginOp; endOp; return (-1 : ℤ)) k (fun _ k' => ∃ v', Moved v p v' k') F N := by
  simp only [sat_bind_eq, sat_pure_eq]
  refine sat_beginOp h.st fun k1 h1 => sat_endOp h1 fun k2 h2 => ⟨v, hp, ?_, rfl, .refl⟩
  exact { h with st := h2 }

theorem Call.run_good (h : Good v k) (hp : (v.proc p).live = true) (hc : c.can k) :
    Sat (c.run D p) k (fun _ k' => ∃ v', Moved v p v' k') (fun _ => c.stuck (v.space p))
      (fun m _ => c.panics (v.space p) m) := by
  have hstay : ∃ v', Moved v p v' k := ⟨v, hp, h, rfl, .refl⟩
  have hsame : ∀ v' k', Good v' k' → v'.sb = v.sb → v'.node = v.node → ∃ v', Moved v p v' k' :=
    fun v' k' hg hsb hnd => ⟨v', hp, hg, hsb, .frees (by rw [hnd]; exact .refl)⟩
  have hfrees : ∀ v' k', Good v' k' → v'.sb = v.sb → Frees v.node v'.node → ∃ v', Moved v p v' k' :=
    fun v' k' hg hsb hnd => ⟨v', hp, hg, hsb, .frees hnd⟩
  cases c with
  | «open» path omode =>
    cases path with
    | none => exact hstay
    | some path =>
      exact sysOpen_good h hp (fun _ _ v' k' ho _ hg hsb => ⟨v', hp, hg, hsb, open_effect ho⟩) (fun m hm _ => .inl hm)
        fun _ _ _ => .inr rfl
  | read fd n =>
    refine sysRead_good h hp (fun x hx => ?_) (fun _ => hsame) fun _ => rfl
    rw [hx] at hc
    exact hc
  | write fd src n =>
    exact sysWrite_good h hp (fun _ v' k' hg hsb hnd => ⟨v', hp, hg, hsb, .alters hnd⟩) fun _ hm _ => hm
  | close fd => exact sysClose_good h hp fun _ => hfrees
  | dup fd => exact sysDup_good h hp fun _ => hsame
  | pipe page =>
    refine sysPipe_good h hp (fun q hq => ?_) fun _ => hfrees
    rw [hq] at hc
    exact hc
  | link old new =>
    cases old with
    | none => exact hstay
    | some old =>
      cases new with
      | none => exact hstay
      | some new =>
        exact sat_mono (sysLink_good h hp) (fun _ _ ⟨v', hg, hsb, ho⟩ => ⟨v', hp, hg, hsb, link_effect ho⟩)
          (fun _ hs => hs) fun _ _ hm => hm
  | unlink path =>
    cases path with
    | none => exact hstay
    | some path =>
      exact sat_mono (sysUnlink_good h hp) (fun _ _ ⟨v', hg, hsb, ho⟩ => ⟨v', hp, hg, hsb, unlink_effect ho⟩)
        (fun _ hs => hs) fun _ _ hm => hm
  | mkdir path =>
    cases path with
    | none => exact h.noPath hp
    | some path =>
      exact sat_mono (sysCreate_good h hp (by decide) (by decide) (by decide) (by decide))
        (fun _ _ ⟨v', hg, hsb, ho⟩ => ⟨v', hp, hg, hsb, make_effect (by decide) ho⟩) (fun _ hs => hs) fun _ _ hm => hm
  | mknod path major minor =>
    cases path with
    | none => exact h.noPath hp
    | some path =>
      exact sat_mono (sysCreate_good h hp (by decide) (by decide) (mod_lt _ (by decide)) (mod_lt _ (by decide)))
        (fun _ _ ⟨v', hg, hsb, ho⟩ => ⟨v', hp, hg, hsb, make_effect (by decide) ho⟩) (fun _ hs => hs) fun _ _ hm => hm
  | chdir path =>
    cases path with
    | none => exact h.noPath hp
    | some path => exact sysChdir_good h hp (fun _ => hfrees) fun _ hm _ => hm
  | exec path reads r =>
    cases path with
    | none => exact hstay
    | some path => exact sysExec_good h hp hc (fun _ k' hg => hsame v k' hg rfl rfl) fun _ hm _ => hm
  | fork child =>
    cases child with
    | none => exact hstay
    | some child => exact fork_good h hp hc.1 hc.2 fun _ => hsame
  | exit => exact exit_good h hp fun _ => hfrees

variable {init : Fsys → Prop} {as : List (ℕ × Call)} {b : ℕ × Call}

theorem step_moved (h : Good v k) (hs : (system D init).step k b k') : ∃ v', Moved v b.1 v' k' := by
  obtain ⟨hlive, hcan, r, hr⟩ := hs
  rw [h.st.proc] at hlive
  have hsat := Call.run_good (D := D) h hlive hcan
  unfold Sat at hsat
  rw [hr] at hsat
  exact hsat

/-- The invariant rule for what holds between calls. -/
theorem run_invariant {I : View → Prop} (h0 : ∀ k, init k → ∃ v, Good v k ∧ I v)
    (hstep : ∀ v k p v' k', Good v k → I v → Moved v p v' k' → I v') (hr : Trace.Run (system D init) as k) :
    ∃ v, Good v k ∧ I v := by
  induction hr with
  | start h => exact h0 _ h
  | snoc _ hs ih =>
    obtain ⟨v, hv, hI⟩ := ih
    obtain ⟨v', hm⟩ := step_moved hv hs
    exact ⟨v', hm.good, hstep v _ _ v' _ hv hI hm⟩

theorem run_good (h0 : ∀ k, init k → ∃ v, Good v k) (hr : Trace.Run (system D init) as k) : ∃ v, Good v k := by
  obtain ⟨v, hv, -⟩ := run_invariant (I := fun _ => True) (fun k h => (h0 k h).imp fun _ hv => ⟨hv, trivial⟩)
    (fun _ _ _ _ _ _ _ _ => trivial) hr
  exact ⟨v, hv⟩

/-! ### The start -/

/-- A well-formed disk: what `mkfs` is to leave. -/
structure Image (sb : Superblock) (block : ℕ → Sector) : Prop where
  own : Own sb block (getInode sb block)
  cover : ∀ n, sb.has n → (getInode sb block n).type ≠ 0 → (getInode sb block n).type ≠ T_DEV →
    Cover (getInode sb block n) block
  dirs : ∀ n, sb.has n → ((getInode sb block n).node block).DirOk sb
  links : ∀ n, sb.has n → (getInode sb block n).type ≠ 0 → (getInode sb block n).nlink ≠ 0
  root : sb.has ROOTINO
  rootDir : (getInode sb block ROOTINO).type = T_DIR

variable {sb : Superblock} {block : ℕ → Sector}

/-- The view of the kernel when the first process runs. -/
def bootView (sb : Superblock) (block : ℕ → Sector) : View :=
  { sb := sb
    file := fun _ => {}
    proc := (boot sb block).proc
    pipe := fun _ => none
    outstanding := 0
    node := fun n => (getInode sb block n).node block
    user := update (fun _ => 0) 0 1
    num := fun _ => ROOTINO
    tmp := 0
    locks := ∅
    loose := ∅
    room := Owner.room sb.size (bit sb block) }

theorem boot_ref (i : ℕ) : ((boot sb block).icache i).ref = (bootView sb block).user i := by
  unfold boot bootView
  dsimp only
  by_cases hi : i = 0
  · rw [hi, update_self, update_self]
  · rw [update_of_ne hi, update_of_ne hi]

theorem boot_slot {i : ℕ} (h : 0 < ((boot sb block).icache i).ref) :
    i = 0 ∧ ((boot sb block).icache i).dev = ROOTDEV ∧ ((boot sb block).icache i).ip.inum = ROOTINO := by
  by_cases hi : i = 0
  · rw [hi]
    exact ⟨rfl, rfl, rfl⟩
  · rw [boot_ref] at h
    unfold bootView at h
    dsimp only at h
    rw [update_of_ne hi] at h
    exact absurd h (lt_irrefl 0)

theorem boot_idle (i : ℕ) : ((boot sb block).icache i).locked = false ∧ ((boot sb block).icache i).valid = false := by
  unfold boot
  dsimp only
  by_cases hi : i = 0
  · rw [hi, update_self]
    exact ⟨rfl, rfl⟩
  · rw [update_of_ne hi]
    exact ⟨rfl, rfl⟩

theorem boot_st (h : Image sb block) : St (bootView sb block) (boot sb block) where
  sb := rfl
  file := rfl
  proc := rfl
  pipe := rfl
  outstanding := rfl
  disk := ⟨h.own, h.cover, le_rfl, fun _ _ => rfl, h.dirs⟩
  ref := boot_ref
  lt i hi := by
    rw [(boot_slot hi).1]
    decide
  lock i := by
    rw [(boot_idle i).1]
    simp [bootView]
  dev i hi := by
    obtain ⟨-, hdev, hin⟩ := boot_slot hi
    rw [hin]
    exact ⟨hdev, h.root⟩
  inj i j hi hj _ := (boot_slot hi).1.trans (boot_slot hj).1.symm
  tmp q hq := absurd hq (Multiset.notMem_zero q)
  user i hi := by
    rw [← boot_ref] at hi
    refine ⟨(boot_slot hi).2.2, ?_⟩
    change ((getInode sb block ROOTINO).node block).type ≠ 0
    rw [node_type, h.rootDir]
    decide
  valid i _ hv := by
    rw [(boot_idle i).2] at hv
    cases hv
  held i hi := absurd hi (Finset.notMem_empty i)
  kept n hn ht h0 := by
    have ht : ((getInode sb block n).node block).type ≠ 0 := ht
    have h0 : ((getInode sb block n).node block).nlink = 0 := h0
    rw [node_type] at ht
    rw [node_nlink ht] at h0
    exact absurd h0 (h.links n hn ht)

theorem boot_cwd (i : ℕ) : cwdRefs (boot sb block).proc i = (bootView sb block).user i := by
  have hnone : tally (Finset.range NPROC) (FProc.inDir i) (fun _ => {}) = 0 :=
    refs_eq_zero.2 fun p _ hp => by simp [FProc.inDir] at hp
  have hone := tally_update (t := fun _ : ℕ => ({} : FProc)) (p := FProc.inDir i) (a := 0)
    (r := { live := true, cwd := 0 }) (Finset.mem_range.2 (by decide : 0 < NPROC))
  rw [hnone] at hone
  simp only [FProc.inDir, Bool.false_eq_true, false_and, decide_false, if_false, true_and, decide_eq_true_eq,
    add_zero, zero_add] at hone
  unfold cwdRefs boot bootView
  dsimp only
  refine hone.trans ?_
  by_cases hi : i = 0
  · rw [hi, update_self, if_pos rfl]
  · rw [update_of_ne hi, if_neg (Ne.symm hi)]

theorem boot_tab : Tab (bootView sb block) (bootView sb block).proc 0 where
  ref f := by
    have hnone : fdRefs (bootView sb block).proc f = 0 := by
      refine refs_eq_zero.2 fun q _ => ?_
      unfold bootView boot
      dsimp only
      by_cases hq : q.1 = 0
      · rw [hq, update_self]
        simp
      · rw [update_of_ne hq]
        simp
    rw [hnone]
    rfl
  lt f hf := absurd hf (lt_irrefl 0)
  idle f _ := rfl
  user i := by
    have hfile : tally (Finset.range NFILE) (File.onNode i) (fun _ => {}) = 0 :=
      refs_eq_zero.2 fun f _ hf => by simp [File.onNode] at hf
    rw [show fileRefs (bootView sb block).file i = 0 from hfile, zero_add]
    exact (boot_cwd i).symm
  ends q w := by
    have hpipe : tally (Finset.range NFILE) (File.onPipe q w) (fun _ => {}) = 0 :=
      refs_eq_zero.2 fun f _ hf => by simp [File.onPipe] at hf
    exact hpipe
  page q x hq := by cases hq
  dirs f hf := by cases hf

theorem boot_good (h : Image sb block) : Good (bootView sb block) (boot sb block) where
  st := boot_st h
  rest := ⟨rfl, rfl, rfl⟩
  idle := rfl
  root := h.root
  tab := boot_tab
  live p hp := by
    by_contra hlt
    have hne : p ≠ 0 := by
      rintro rfl
      exact hlt (by decide)
    unfold bootView boot at hp
    dsimp only at hp
    rw [update_of_ne hne] at hp
    cases hp
  dead p _ fd _ := by
    unfold bootView boot
    dsimp only
    by_cases hq : p = 0
    · rw [hq, update_self]
    · rw [update_of_ne hq]

/-- The start of the kernel on a well-formed disk. -/
def Booted (sb : Superblock) (k : Fsys) : Prop := ∃ block, Image sb block ∧ k = boot sb block

theorem booted_good (hr : Trace.Run (system D (Booted sb)) as k) : ∃ v, Good v k := by
  refine run_good (fun k h => ?_) hr
  obtain ⟨block, him, rfl⟩ := h
  exact ⟨_, boot_good him⟩

/-! ### Disks of directories -/

/-- Directory `n` of `c`, each of which is in the one before. -/
def dirInode (c n : ℕ) : Inode :=
  { inum := n, type := T_DIR, major := 0, minor := 0, nlink := if n < c then 2 else 1, size := BSIZE
    addrs := fun k => if k = 0 then nmeta + (n - 1) else 0 }

/-- The name of each directory in the one before. -/
def dirName : List UInt8 := [100]

/-- The entries: the directory, the one before and the one after. -/
def dirSector (c n : ℕ) : Sector :=
  Bytes.overlay (fun _ => 0) 0
    (Dirent.bytes ⟨n, strncpy dot DIRSIZ⟩ ++ Dirent.bytes ⟨max 1 (n - 1), strncpy dotdot DIRSIZ⟩ ++
      Dirent.bytes ⟨if n < c then n + 1 else 0, strncpy dirName DIRSIZ⟩)

/-- The bitmap and the directories. -/
def dirBlocks (c b : ℕ) : Sector :=
  if b = mkfsSb.bmapstart then fun k => UInt8.ofNat (2 ^ min 8 (nmeta + c - 8 * k) - 1)
  else if nmeta ≤ b ∧ b < nmeta + c then dirSector c (b - nmeta + 1)
  else fun _ => 0

/-- The disk with the first of the inodes. -/
def dirDisk (c : ℕ) : ℕ → ℕ → Sector
  | 0 => dirBlocks c
  | n + 1 => putInode mkfsSb (dirDisk c n) (dirInode c (n + 1))

def dirImage (c : ℕ) : ℕ → Sector := dirDisk c c

section DirImage

variable {c n m b : ℕ}

theorem dirInode_fits (h : n ≤ 99) : Fits (dirInode c n) := by
  have hmeta : nmeta = 59 := rfl
  refine ⟨(by decide : T_DIR < 65536), zero_lt_succ _, zero_lt_succ _, ?_, (by decide : BSIZE < 2 ^ 32),
    fun k => ?_, fun k hk => if_neg (by omega)⟩
  · change (if n < c then 2 else 1) < 65536
    split_ifs <;> omega
  · change (if k = 0 then nmeta + (n - 1) else 0) < 2 ^ 32
    split_ifs <;> omega

theorem dirDisk_inode (hm : m ≤ 99) : getInode mkfsSb (dirDisk c m) n =
    if 1 ≤ n ∧ n ≤ m then dirInode c n else getInode mkfsSb (dirBlocks c) n := by
  induction m with
  | zero =>
    rw [if_neg (by omega)]
    rfl
  | succ m ih =>
    by_cases hn : n = m + 1
    · subst hn
      rw [if_pos (by omega)]
      exact getInode_putInode (dirInode_fits hm)
    · have hne : getInode mkfsSb (dirDisk c (m + 1)) n = getInode mkfsSb (dirDisk c m) n := getInode_putInode_ne hn
      rw [hne, ih (by omega)]
      exact if_congr (by omega) rfl rfl

theorem dirDisk_block (hb : mkfsSb.bmapstart ≤ b) (hm : m ≤ 99) : dirDisk c m b = dirBlocks c b := by
  induction m with
  | zero => rfl
  | succ m ih =>
    have hlt : IBLOCK mkfsSb (dirInode c (m + 1)).inum < mkfsSb.bmapstart := by
      change (m + 1) / 8 + 32 < 58
      omega
    rw [← ih (by omega)]
    exact update_of_ne (by omega) _ _

theorem dirInode_bno {B : ℕ → Sector} : (dirInode c n).bno B m = if m = 0 then nmeta + (n - 1) else 0 := by
  have hind : (dirInode c n).addrs NDIRECT = 0 := rfl
  by_cases hm : m < NDIRECT
  · rw [bno_direct hm]
    rfl
  · rw [bno_no_ind (not_lt.1 hm) hind, if_neg]
    rintro rfl
    exact hm (by decide)

/-- What is left to compute for a number of directories. -/
structure Checked (c : ℕ) : Prop where
  pos : 1 ≤ c
  le : c ≤ 99
  free : ∀ n < mkfsSb.ninodes, (getInode mkfsSb (dirBlocks c) n).type = 0
  bit : ∀ b < mkfsSb.size, Sys.bit mkfsSb (dirBlocks c) b = decide (b < nmeta + c)
  ents : ∀ n ≤ c, 1 ≤ n → ∀ j < 32,
    (Dirent.ofBytes ((List.range sizeofDirent).map fun i => dirSector c n (sizeofDirent * j + i))).inum < mkfsSb.ninodes

theorem Checked.inode (h : Checked c) (h1 : 1 ≤ n) (h2 : n ≤ c) : getInode mkfsSb (dirImage c) n = dirInode c n :=
  (dirDisk_inode h.le).trans (if_pos ⟨h1, h2⟩)

theorem Checked.used (h : Checked c) (hn : mkfsSb.has n) (h0 : (getInode mkfsSb (dirImage c) n).type ≠ 0) :
    1 ≤ n ∧ n ≤ c := by
  by_contra hne
  have hout : getInode mkfsSb (dirImage c) n = getInode mkfsSb (dirBlocks c) n := (dirDisk_inode h.le).trans (if_neg hne)
  exact h0 (hout ▸ h.free n hn.2)

theorem Checked.place (h : Checked c) (n m : ℕ) : place mkfsSb (dirImage c) (getInode mkfsSb (dirImage c)) (n, m) =
    (if (1 ≤ n ∧ n ≤ c) ∧ m = 0 then some (n - 1) else none).elim 0 (nmeta + ·) := by
  unfold Sys.place
  dsimp only
  by_cases hn : 1 ≤ n ∧ n ≤ c
  · have hhas : mkfsSb.has n := ⟨hn.1, lt_of_le_of_lt (hn.2.trans h.le) (by decide)⟩
    rw [h.inode hn.1 hn.2, dirInode_bno]
    by_cases hm : m = 0
    · rw [if_pos ⟨⟨hhas, (by decide : T_DIR ≠ 0)⟩, by omega⟩, if_pos hm, if_pos ⟨hn, hm⟩]
      rfl
    · rw [if_neg hm, ite_self, if_neg (by tauto)]
      rfl
  · have hfree : ¬ (mkfsSb.has n ∧ (getInode mkfsSb (dirImage c) n).type ≠ 0) := fun hu => hn (h.used hu.1 hu.2)
    rw [if_neg (by tauto), if_neg (by tauto)]
    rfl

theorem Checked.own (h : Checked c) : Own mkfsSb (dirImage c) (getInode mkfsSb (dirImage c)) := by
  have hbit : ∀ b < mkfsSb.size, Sys.bit mkfsSb (dirImage c) b = decide (b < nmeta + c) := by
    intro b hb
    rw [← h.bit b hb]
    unfold Sys.bit dirImage
    rw [dirDisk_block (bblock_ge b) h.le]
  have hlen : nmeta + 99 ≤ mkfsSb.size := by decide
  have hle := h.le
  refine ⟨mkfsSb_ok, ?_, fun b hb hs => ?_⟩
  · rw [mkfsSb_data]
    refine .of_count (by decide) (by omega) hbit (fun q => h.place q.1 q.2) (fun q k hq => ?_) (fun q r k hq hr => ?_)
      fun k hk => ⟨(k + 1, 0), if_pos ⟨⟨by omega, hk⟩, rfl⟩⟩
    · split_ifs at hq
      obtain rfl := Option.some.inj hq
      omega
    · split_ifs at hq hr
      obtain rfl := Option.some.inj hq
      have hk := Option.some.inj hr
      exact Prod.ext (by omega) (by omega)
  · rw [mkfsSb_data] at hb
    rw [hbit b hs, decide_eq_true (by omega)]

theorem Checked.ent (h : Checked c) (h1 : 1 ≤ n) (h2 : n ≤ c) {j : ℕ} (hj : j < 32) :
    ((dirInode c n).node (dirImage c)).ent j =
      Dirent.ofBytes ((List.range sizeofDirent).map fun i => dirSector c n (sizeofDirent * j + i)) := by
  have hblock : dirImage c (nmeta + (n - 1)) = dirSector c n := by
    have hlt : mkfsSb.bmapstart < nmeta := by decide
    unfold dirImage
    rw [dirDisk_block (by omega) h.le, dirBlocks, if_neg (by omega), if_pos (by omega)]
    congr 1
    omega
  unfold Node.ent
  congr 1
  refine List.map_congr_left fun i hi => ?_
  have hi := List.mem_range.1 hi
  have hx : sizeofDirent * j + i < BSIZE := by
    simp only [show sizeofDirent = 16 from rfl, show BSIZE = 512 from rfl] at hi ⊢
    omega
  have hnode : ((dirInode c n).node (dirImage c)).data (sizeofDirent * j + i) =
      dirImage c ((dirInode c n).bno (dirImage c) ((sizeofDirent * j + i) / BSIZE)) ((sizeofDirent * j + i) % BSIZE) := by
    have hdir : (dirInode c n).type ≠ 0 := (by decide : T_DIR ≠ 0)
    unfold Inode.node
    rw [if_neg hdir]
    exact if_pos ⟨hx, (by decide : T_DIR ≠ T_DEV)⟩
  rw [hnode, dirInode_bno, div_eq_of_lt hx, if_pos rfl, hblock, mod_eq_of_lt hx]

theorem Checked.image (h : Checked c) : Image mkfsSb (dirImage c) := by
  refine ⟨h.own, fun n hn h0 _ => ?_, fun n hn ht => ?_, fun n hn h0 => ?_, by decide, ?_⟩
  · obtain ⟨h1, h2⟩ := h.used hn h0
    rw [h.inode h1 h2]
    refine ⟨(by decide : BSIZE ≤ MAXFILE * BSIZE), fun m hm => ?_⟩
    have hm : m * BSIZE < 1 * BSIZE := by simpa [dirInode] using hm
    rw [dirInode_bno, if_pos (Nat.lt_one_iff.1 (Nat.lt_of_mul_lt_mul_right hm))]
    exact (Nat.add_pos_left (by decide) _).ne'
  · obtain ⟨h1, h2⟩ := h.used hn fun h0 => by
      rw [node_type, h0] at ht
      cases ht
    rw [h.inode h1 h2]
    have hsize : ((dirInode c n).node (dirImage c)).size = BSIZE := node_size (by decide : T_DIR ≠ 0)
    rw [hsize]
    refine ⟨by decide, fun j hj h0 => ?_⟩
    have hj : j < 32 := by
      simp only [show sizeofDirent = 16 from rfl, show BSIZE = 512 from rfl] at hj
      omega
    rw [h.ent h1 h2 hj] at h0 ⊢
    exact ⟨pos_of_ne_zero h0, h.ents n h2 h1 j hj⟩
  · obtain ⟨h1, h2⟩ := h.used hn h0
    rw [h.inode h1 h2]
    change (if n < c then 2 else 1) ≠ 0
    split_ifs <;> decide
  · rw [h.inode (show 1 ≤ ROOTINO by decide) h.pos]
    rfl

end DirImage

/-- A disk with the root directory only. -/
def rootImage : ℕ → Sector := dirImage 1

theorem checked_one : Checked 1 := ⟨by decide, by decide, by decide +kernel, by decide +kernel, by decide +kernel⟩

theorem rootImage_ok : Image mkfsSb rootImage := checked_one.image

theorem rootImage_inode : getInode mkfsSb rootImage ROOTINO = dirInode 1 1 := checked_one.inode le_rfl le_rfl

theorem rootImage_booted : Booted mkfsSb (boot mkfsSb rootImage) := ⟨rootImage, rootImage_ok, rfl⟩

/-! ### Runs that are computed -/

/-- Devices and pipes that give and take nothing. -/
def deaf : Devsw := ⟨fun _ _ => -1, fun _ _ => -1, fun _ _ => -1, fun _ _ => -1⟩

instance (k : Fsys) : (c : Call) → Decidable (c.can k)
  | .fork (some c) => inferInstanceAs (Decidable (c < NPROC ∧ (k.proc c).live = false))
  | .pipe (some q) => inferInstanceAs (Decidable (k.pipe q = none))
  | .read _ (some n) => inferInstanceAs (Decidable (n < 2 ^ 32))
  | .exec _ reads _ => inferInstanceAs (Decidable (∀ q ∈ reads, q.2 < 2 ^ 32))
  | .fork none | .read _ none | .pipe none | .open .. | .write .. | .close _ | .dup _ | .link .. | .unlink _ | .mkdir _
  | .mknod .. | .chdir _ | .exit => isTrue trivial

/-- The state after a call that can be made and that returns. -/
def Call.next (k : Fsys) (a : ℕ × Call) : Option Fsys :=
  if (k.proc a.1).live = true ∧ a.2.can k then
    match a.2.run deaf a.1 k with
    | .ok _ k' => some k'
    | _ => none
  else none

theorem Call.next_step {init : Fsys → Prop} {a : ℕ × Call} (h : Call.next k a = some k') :
    (system deaf init).step k a k' := by
  unfold Call.next at h
  split_ifs at h with hc
  split at h
  · rename_i r t ht
    obtain rfl := Option.some.inj h
    exact ⟨hc.1, hc.2, r, ht⟩
  · cases h

/-- A process makes a file, writes to it, shares it with a child and removes it while it is open, and makes a pipe. -/
def demo : List (ℕ × Call) :=
  [(0, .open (some [102]) 0x202), (0, .write 0 (fun _ => 7) (some 3)), (0, .dup 0), (0, .fork (some 1)), (1, .close 0),
    (0, .unlink (some [102])), (0, .pipe (some 5))]

/-- The calls all return, and leave a state with the property. -/
theorem run_calls {init : Fsys → Prop} {P : Fsys → Bool} {calls : List (ℕ × Call)} (h0 : init k)
    (h : (calls.foldlM Call.next k).any P = true) : ∃ k', Trace.Run (system deaf init) calls k' ∧ P k' = true := by
  obtain ⟨k', hk, hP⟩ := (Option.any_eq_true _ _).1 h
  exact ⟨k', .of_foldlM (fun _ _ _ => Call.next_step) h0 hk, hP⟩

end Xv6.Sys

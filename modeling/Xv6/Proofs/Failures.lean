import Xv6.Proofs.Directories

/-! How the calls on names fail: one that returns -1 leaves every node as it was, and only `link` can wait for a lock that
it holds. -/

namespace Xv6.Sys

open Prog

variable {v v' : View} {k k' : Fsys} {c : Call} {D : Devsw} {d n m p type major minor : ℕ} {a : ℤ} {s : Space}
  {nd : ℕ → Node} {path old new name t : List UInt8} {sb : Superblock} {as : List (ℕ × Call)}

/-! ### What a failed call leaves behind -/

theorem St.sameNodes (h : St v k) (h' : St v' k') (hsb : v'.sb = v.sb) (hnd : v'.node = v.node) : SameNodes k k' := by
  intro n hn
  rw [h.sb] at hn
  rw [h'.node_eq (hsb ▸ hn), h.node_eq hn, hnd]

theorem make_failed (h : s.make path type major minor = .ret (-1) nd) : nd = s.node := by
  obtain ⟨r, hr, hf⟩ := map_ret h
  rcases create_ret hr with ⟨-, hnd⟩ | ⟨m, -, hnd, -⟩ | ⟨d, n, name, -, rfl, -⟩
  · exact hnd
  · exact hnd
  · cases hf

theorem open_nodes {omode : ℕ} {r : Option ℕ} (h : s.open path omode = .ret r nd) :
    nd = s.node ∨ hasFlag omode O_CREATE = true ∧ r ≠ none := by
  unfold Space.open at h
  split_ifs at h with hc
  · obtain ⟨q, hq, rfl⟩ := map_ret h
    rcases create_ret hq with ⟨-, hnd⟩ | ⟨m, -, hnd, -⟩ | ⟨d, n, name, -, rfl, -⟩
    · exact .inl hnd
    · exact .inl hnd
    · exact .inr ⟨hc, by simp⟩
  · repeat' split at h
    all_goals cases h
    all_goals exact .inl rfl

/-- The calls that make or remove names. -/
def Call.onNames : Call → Bool
  | .open .. | .link .. | .unlink .. | .mkdir .. | .mknod .. => true
  | _ => false

/-- `open` makes the file first, and then finds no free file or no free descriptor. -/
def Call.tooLate (k : Fsys) (p : ℕ) : Call → Prop
  | .open _ omode => hasFlag omode O_CREATE = true ∧
    ((∀ f < NFILE, (k.file f).ref ≠ 0) ∨ ∀ fd < NOFILE, (k.proc p).ofile fd ≠ none)
  | _ => False

theorem Good.sysCreate_failed {R : Prop} (h : Good v k) (hp : (v.proc p).live = true) (path : Option (List UInt8))
    (ht : type ≠ 0) (ht' : type < 65536) (hmaj : major < 65536) (hmin : minor < 65536) :
    Sat (sysCreate p path type major minor) k (fun a k' => a = -1 → SameNodes k k' ∨ R) (fun _ => True)
      (fun _ _ => True) := by
  cases path with
  | none =>
    unfold sysCreate
    simp only [sat_bind_eq, sat_pure_eq]
    exact sat_beginOp h.st fun _ h1 => sat_endOp h1 fun _ h2 _ => .inl (h.st.sameNodes h2 rfl rfl)
  | some path =>
    refine sat_mono (sysCreate_good h hp ht ht' hmaj hmin) ?_ (fun _ _ => trivial) fun _ _ _ => trivial
    rintro _ k' ⟨v', hg, hsb, ho⟩ rfl
    exact .inl (h.st.sameNodes hg.st hsb (make_failed ho))

/-- A call on names that returns -1 changes no inode, directory or contents, unless it is an `open` that made the file
and then found no place for it. -/
theorem failed_call_keeps_nodes (hr : Trace.Run (system D (Booted sb)) as k) (hp : (k.proc p).live = true)
    (hc : c.onNames = true) :
    Sat (c.run D p) k (fun a k' => a = -1 → SameNodes k k' ∨ c.tooLate k p) (fun _ => True) (fun _ _ => True) := by
  obtain ⟨v, h⟩ := booted_good hr
  have hstay : SameNodes k k := fun _ _ => rfl
  rw [h.st.proc] at hp
  cases c with
  | «open» path omode =>
    cases path with
    | none => exact fun _ => .inl hstay
    | some path =>
      refine sysOpen_good h hp (fun r x v' k' ho hx hg hsb hr => ?_) (fun _ _ _ => trivial) fun _ _ _ => trivial
      rcases open_nodes ho with hnd | ⟨hf, hne⟩
      · exact .inl (h.st.sameNodes hg.st hsb hnd)
      · refine .inr ⟨hf, ?_⟩
        rw [h.st.file, h.st.proc]
        exact (hx.1 hr).resolve_left hne
  | link old new =>
    cases old with
    | none => exact fun _ => .inl hstay
    | some old =>
      cases new with
      | none => exact fun _ => .inl hstay
      | some new =>
        refine sat_mono (sysLink_good h hp) ?_ (fun _ _ => trivial) fun _ _ _ => trivial
        rintro _ k' ⟨v', hg, hsb, ho⟩ rfl
        rcases link_ret ho with ⟨-, hnd⟩ | ⟨n, d, name, -, ha, -⟩
        · exact .inl (h.st.sameNodes hg.st hsb hnd)
        · cases ha
  | unlink path =>
    cases path with
    | none => exact fun _ => .inl hstay
    | some path =>
      refine sat_mono (sysUnlink_good h hp) ?_ (fun _ _ => trivial) fun _ _ _ => trivial
      rintro _ k' ⟨v', hg, hsb, ho⟩ rfl
      rcases unlink_ret ho with ⟨-, hnd⟩ | ⟨d, j, m, name, -, ha, -⟩
      · exact .inl (h.st.sameNodes hg.st hsb hnd)
      · cases ha
  | mkdir path => exact h.sysCreate_failed hp path (by decide) (by decide) (by decide) (by decide)
  | mknod path major minor =>
    exact h.sysCreate_failed hp path (by decide) (by decide) (Nat.mod_lt _ (by decide)) (Nat.mod_lt _ (by decide))
  | _ => cases hc

/-- A directory with a file in it stays. -/
theorem failed_call_keeps_nodes_unlink : ∃ k,
    Trace.Run (system deaf (Booted mkfsSb)) [(0, .mkdir (some [100])), (0, .open (some [100, 47, 102]) 0x202)] k ∧
    Sat ((Call.unlink (some [100])).run deaf 0) k (fun a k' => a = -1 ∧ SameNodes k k') (fun _ => False)
      (fun _ _ => False) := by
  obtain ⟨k, hrun, hk⟩ := run_calls (P := fun k => decide ((k.proc 0).live = true ∧
      Sat ((Call.unlink (some [100])).run deaf 0) k (fun a _ => a = -1) (fun _ => False) (fun _ _ => False))) rootImage_booted
    (by decide +kernel :
      ([(0, Call.mkdir (some [100])), (0, .open (some [100, 47, 102]) 0x202)].foldlM Call.next _).any _ = true)
  obtain ⟨hlive, hret⟩ := of_decide_eq_true hk
  have h := failed_call_keeps_nodes (c := .unlink (some [100])) hrun hlive rfl
  exact ⟨k, hrun, sat_mono (sat_and hret h) (fun _ _ h => ⟨h.1, (h.2 h.1).resolve_right id⟩) (fun _ h => h.1)
    fun _ _ h => h.1⟩

/-! ### Which calls wait for themselves -/

/-- Only `.` and `..` lead from a directory to itself. -/
def OnlyDots (sb : Superblock) (node : ℕ → Node) : Prop :=
  ∀ d, sb.has d → (node d).type = T_DIR → ∀ t, (node d).Binds t d → t = dot ∨ t = dotdot

theorem newDir_binds (hn : n < 65536) (h0 : n ≠ 0) (hd : d < 65536) (hd0 : d ≠ 0)
    (hb : (newDir n d major minor).Binds t m) : t = dot ∨ t = dotdot := by
  have hempty : (newNode T_DIR major minor).size = 0 := rfl
  have hone : ((newNode T_DIR major minor).enter n dot).size % sizeofDirent = 0 := by
    rw [enter_size hempty]
    decide
  rcases (binds_enter hone hd hd0 (find_dotdot hempty hn)).1 hb with ⟨rfl, -⟩ | ⟨-, hb⟩
  · exact .inr rfl
  rcases (binds_enter (by rw [hempty]; decide) hn h0 (find_of_size_zero hempty)).1 hb with ⟨rfl, -⟩ | ⟨-, j, hj, -⟩
  · exact .inl rfl
  · rw [Node.entries, hempty] at hj
    exact absurd hj (Nat.not_lt_zero j)

theorem Moved.onlyDots (hg : Good v k) (hI : v.Distinct) (hO : OnlyDots v.sb v.node) (hm : Moved v p v' k') :
    OnlyDots v'.sb v'.node := by
  intro e he hdir t hb
  rw [hm.sb] at he
  have hsize := fun ht => (hg.st.disk.dirs e he ht).1
  obtain ⟨x, hx, ha⟩ := hm.dir hg hdir
  rw [ha.binds] at hb
  cases hx with
  | same ht => exact hO e he ht t hb
  | enter ht hn hne hf =>
    rcases (binds_enter (hsize ht) (hg.has_lt hn).1 (hg.has_lt hn).2 hf).1 hb with ⟨-, hen⟩ | ⟨-, hb⟩
    · exact absurd hen.symm hne
    · exact hO e he ht t hb
  | clear ht hf => exact hO e he ht t ((binds_clear (hI e he ht) (hsize ht) hf).1 hb).2
  | new hd => exact newDir_binds (hg.has_lt he).1 (hg.has_lt he).2 (hg.has_lt hd).1 (hg.has_lt hd).2 hb

/-- `link` waits for itself when the directory has the new name already, for itself. -/
theorem link_stuck (h : s.link old new = .stuck) : ∃ C d name j, resolve s.node C s.cwd new true = .ok (some (d, name)) ∧
    (s.node d).find name = some j ∧ ((s.node d).ent j).inum = d := by
  unfold Space.link at h
  dsimp only at h
  repeat' split at h
  all_goals cases h
  exact ⟨_, _, _, _, ‹_›, ‹_›, ‹_›⟩

theorem unlink_stuck (h : s.unlink path = .stuck) : ∃ d name j, resolve s.node s.held s.cwd path true = .ok (some (d, name)) ∧
    namecmp name dot ≠ 0 ∧ namecmp name dotdot ≠ 0 ∧ (s.node d).find name = some j ∧ ((s.node d).ent j).inum = d := by
  unfold Space.unlink at h
  dsimp only at h
  repeat' split at h
  all_goals cases h
  obtain ⟨h1, h2⟩ := not_or.1 ‹¬ (_ ∨ _)›
  exact ⟨_, _, _, ‹_›, h1, h2, ‹_›, ‹_›⟩

/-- The start on a disk on which also only `.` and `..` lead from a directory to itself. -/
def BootedDots (sb : Superblock) (k : Fsys) : Prop := BootedDistinct sb k ∧ OnlyDots sb k.node

theorem run_dots (hr : Trace.Run (system D (BootedDots sb)) as k) :
    ∃ v, Good v k ∧ v.Distinct ∧ OnlyDots v.sb v.node := by
  refine run_invariant (fun k hk => ?_) (fun v k p v' k' hg hI hm => ⟨hm.distinct hg hI.1, hm.onlyDots hg hI.1 hI.2⟩) hr
  obtain ⟨⟨⟨block, him, rfl⟩, hdist⟩, hdots⟩ := hk
  exact ⟨_, boot_good him, hdist, hdots⟩

/-- An entry for its own directory. -/
theorem Good.self_entry {C : Finset ℕ} {j : ℕ} (h : Good v k) (hp : (v.proc p).live = true) (hO : OnlyDots v.sb v.node)
    (hres : resolve v.node C (v.space p).cwd path true = .ok (some (d, name))) (hf : (v.node d).find name = some j)
    (hj : ((v.node d).ent j).inum = d) : key name = dot ∨ key name = dotdot := by
  have hd := h.resolve_has hp hres
  have hdir := resolve_parent hres
  have hb := find_binds (h.st.disk.dirs d hd hdir).1 hf
  rw [hj] at hb
  exact hO d hd hdir _ ⟨j, hb⟩

/-- The one call that can wait for a lock that it holds itself is `link` to a new name that ends in `.` or `..`. -/
theorem only_link_hangs (hr : Trace.Run (system D (BootedDots sb)) as k) (hp : (k.proc p).live = true) (hc : c.can k) :
    Sat (c.run D p) k (fun _ _ => True)
      (fun _ => ∃ old new name, c = .link (some old) (some new) ∧ LastElem new name ∧ (key name = dot ∨ key name = dotdot))
      (fun _ _ => True) := by
  obtain ⟨v, h, -, hO⟩ := run_dots hr
  rw [h.st.proc] at hp
  refine sat_mono (Call.run_good h hp hc) (fun _ _ _ => trivial) (fun _ hs => ?_) fun _ _ _ => trivial
  unfold Call.stuck at hs
  split at hs
  · obtain ⟨C, d, name, j, hres, hf, hj⟩ := link_stuck hs
    exact ⟨_, _, name, rfl, resolve_last hres, h.self_entry hp hO hres hf hj⟩
  · -- it refuses both names
    obtain ⟨d, name, j, hres, h1, h2, hf, hj⟩ := unlink_stuck hs
    rcases h.self_entry hp hO hres hf hj with hk | hk
    · exact absurd (namecmp_eq_zero.2 hk) h1
    · exact absurd (namecmp_eq_zero.2 hk) h2
  · exact hs.elim

theorem rootImage_dots : BootedDots mkfsSb (boot mkfsSb rootImage) := by
  refine ⟨rootImage_distinct, fun d hd ht t hb => ?_⟩
  rw [(rootImage_dir hd ht).2] at hb
  obtain ⟨j, hj, hs⟩ := hb
  have hlen : ((dirInode 1 1).node rootImage).entries = 32 := by decide
  rw [hlen] at hj
  rw [rootImage_slots j hj] at hs
  split_ifs at hs <;> simp_all

/-- A file gets the name `.`. -/
theorem only_link_hangs_dot : ∃ k, Trace.Run (system deaf (BootedDots mkfsSb)) [(0, .open (some [102]) 0x202)] k ∧
    Sat ((Call.link (some [102]) (some dot)).run deaf 0) k (fun _ _ => False)
      (fun _ => ∃ name, LastElem dot name ∧ (key name = dot ∨ key name = dotdot)) (fun _ _ => False) := by
  obtain ⟨k, hrun, hk⟩ := run_calls (P := fun k => decide ((k.proc 0).live = true ∧
      Sat ((Call.link (some [102]) (some dot)).run deaf 0) k (fun _ _ => False) (fun _ => True) (fun _ _ => False)))
    rootImage_dots (by decide +kernel : ([(0, Call.open (some [102]) 0x202)].foldlM Call.next _).any _ = true)
  obtain ⟨hlive, hret⟩ := of_decide_eq_true hk
  have h := only_link_hangs (c := .link (some [102]) (some dot)) hrun hlive trivial
  refine ⟨k, hrun, sat_mono (sat_and hret h) (fun _ _ h => h.1) ?_ fun _ _ h => h.1⟩
  rintro _ ⟨-, old, new, name, he, hlast⟩
  cases he
  exact ⟨name, hlast⟩

end Xv6.Sys

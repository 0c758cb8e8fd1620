import Xv6.Proofs.FsRuns

/-! What adds up between calls: the references to inodes and to files, and the blocks of the disk. -/

namespace Xv6.Sys

open Prog Count

variable {v : View} {k k' : Fsys} {D : Devsw} {sb : Superblock} {as : List (ℕ × Call)} {c : Call} {p fd n : ℕ}
  {m : String} {s : Space} {path old new : List UInt8} {node : ℕ → Node} {C : Finset ℕ} {b : Bool}

theorem booted_inode_ref (hr : Trace.Run (system D (Booted sb)) as k) (i : ℕ) :
    (k.icache i).ref = fileRefs k.file i + cwdRefs k.proc i := by
  obtain ⟨v, h⟩ := booted_good hr
  have hmine : v.mine i = 0 := by
    unfold View.mine
    rw [h.rest.tmp]
    rfl
  rw [h.st.ref, hmine, Nat.add_zero, h.tab.user, h.st.file, h.st.proc]

/-- The references to inodes: those of the files and of the processes, and none is locked. -/
theorem inode_refs_accounted (hr : Trace.Run (system D (Booted sb)) as k) :
    (∀ i, (k.icache i).ref = fileRefs k.file i + cwdRefs k.proc i) ∧ (∀ i, (k.icache i).locked = false) ∧
    k.outstanding = 0 ∧
    ∀ i j, 0 < (k.icache i).ref → 0 < (k.icache j).ref → (k.icache i).dev = (k.icache j).dev →
      (k.icache i).ip.inum = (k.icache j).ip.inum → i = j := by
  obtain ⟨v, h⟩ := booted_good hr
  refine ⟨booted_inode_ref hr, fun i => ?_, ?_, fun i j hi hj _ => h.st.inj i j hi hj⟩
  · have hlock := (h.st.lock i).not.2 (by rw [h.rest.locks]; exact Finset.notMem_empty i)
    exact Bool.eq_false_iff.2 hlock
  · rw [h.st.outstanding, h.idle]

theorem inode_refs_accounted_demo : ∃ k, Trace.Run (system deaf (Booted mkfsSb)) demo k ∧
    ((k.icache 0).ref = 2 ∧ (k.icache 1).ref = 1) ∧
    (∀ i, (k.icache i).ref = fileRefs k.file i + cwdRefs k.proc i) ∧ ∀ i, (k.icache i).locked = false := by
  obtain ⟨k, hrun, hk⟩ := run_calls (P := fun k => decide ((k.icache 0).ref = 2 ∧ (k.icache 1).ref = 1)) rootImage_booted
    (by decide +kernel : (demo.foldlM Call.next _).any _ = true)
  have h := inode_refs_accounted hrun
  exact ⟨k, hrun, of_decide_eq_true hk, h.1, h.2.1⟩

/-- The references to files: a file that is in use is in a slot, each end of a pipe is one file, and the inode of a file
is referred to once for it. -/
theorem file_refs_accounted (hr : Trace.Run (system D (Booted sb)) as k) :
    (∀ f, (k.file f).ref = fdRefs k.proc f) ∧ (∀ f, (k.file f).ref = 0 → (k.file f).type = .none) ∧
    (∀ i, (k.icache i).ref = fileRefs k.file i + cwdRefs k.proc i) ∧
    (∀ q w, pipeRefs k.file q w = (pipeOpen k.pipe q w).toNat) ∧
    ∀ q x, k.pipe q = some x → x.readopen = true ∨ x.writeopen = true := by
  obtain ⟨v, h⟩ := booted_good hr
  refine ⟨fun f => ?_, fun f => ?_, booted_inode_ref hr, fun q w => ?_, fun q x => ?_⟩
  · rw [h.st.file, h.st.proc]
    exact h.tab.ref f
  · rw [h.st.file]
    exact h.tab.idle f
  · rw [h.st.file, h.st.pipe]
    exact h.tab.ends q w
  · rw [h.st.pipe]
    exact h.tab.page q x

theorem file_refs_accounted_demo : ∃ k, Trace.Run (system deaf (Booted mkfsSb)) demo k ∧
    ((k.file 0).ref = 3 ∧ (k.file 1).ref = 1 ∧ (k.pipe 5).isSome = true) ∧
    (∀ f, (k.file f).ref = fdRefs k.proc f) ∧ ∀ q w, pipeRefs k.file q w = (pipeOpen k.pipe q w).toNat := by
  obtain ⟨k, hrun, hk⟩ := run_calls
    (P := fun k => decide ((k.file 0).ref = 3 ∧ (k.file 1).ref = 1 ∧ (k.pipe 5).isSome = true)) rootImage_booted
    (by decide +kernel : (demo.foldlM Call.next _).any _ = true)
  have h := file_refs_accounted hrun
  exact ⟨k, hrun, of_decide_eq_true hk, h.1, h.2.2.2.1⟩

/-! ### Blocks -/

/-- The messages that a call over the nodes can stop with. -/
def nodeMessages : List String :=
  ["ilock: no type", "iget: no inodes", "ialloc: no inodes", "dirlink", "unlink: nlink < 1"]

theorem walk_message {fuel : ℕ} (h : walk node C b fuel n path = .error m) : m ∈ nodeMessages := by
  induction fuel generalizing n path with
  | zero => cases h
  | succ fuel ih =>
    unfold walk at h
    repeat' split at h
    all_goals first | exact ih h | cases h
    all_goals decide

theorem resolve_message (h : resolve node C n path b = .error m) : m ∈ nodeMessages := by
  unfold resolve at h
  dsimp only at h
  split_ifs at h
  all_goals first | exact walk_message h | cases h
  all_goals decide

theorem link_message (h : s.link old new = .panic m) : m ∈ nodeMessages := by
  unfold Space.link at h
  repeat' split at h
  all_goals cases h
  all_goals first | exact resolve_message ‹_› | decide

theorem unlink_message (h : s.unlink path = .panic m) : m ∈ nodeMessages := by
  unfold Space.unlink at h
  dsimp only at h
  repeat' split at h
  all_goals cases h
  all_goals first | exact resolve_message ‹_› | decide

theorem create_message {type major minor : ℕ} (h : s.create path type major minor = .panic m) : m ∈ nodeMessages := by
  unfold Space.create at h
  dsimp only at h
  repeat' split at h
  all_goals cases h
  all_goals first | exact resolve_message ‹_› | decide

theorem map_panic {α β : Type} {f : α → β} {o : Out α} (h : o.map f = .panic m) : o = .panic m := by
  cases o <;> cases h
  rfl

theorem open_message {omode : ℕ} (h : s.open path omode = .panic m) : m ∈ nodeMessages := by
  unfold Space.open at h
  split_ifs at h
  · exact create_message (map_panic h)
  · repeat' split at h
    all_goals cases h
    all_goals first | exact resolve_message ‹_› | decide

theorem target_message (h : s.target path = .error m) : m ∈ nodeMessages := by
  unfold Space.target at h
  repeat' split at h
  all_goals cases h
  all_goals first | exact resolve_message ‹_› | decide

/-- No call frees a block that is free. -/
theorem panics_ne (h : c.panics s m) : m ≠ "freeing free block" := by
  have hout : m = "balloc: out of blocks" → m ≠ "freeing free block" := by
    rintro rfl
    decide
  have hnode : m ∈ nodeMessages → m ≠ "freeing free block" := by
    rintro hm rfl
    revert hm
    decide
  have hfile : ∀ x, x ≠ "freeing free block" → m = x → m ≠ "freeing free block" := fun x hx hm => hm ▸ hx
  unfold Call.panics at h
  split at h
  · exact h.elim (fun h => hnode (open_message h)) hout
  · exact h.elim (fun h => hnode (link_message h)) hout
  · exact h.elim (fun h => hnode (unlink_message h)) hout
  · exact h.elim (fun h => hnode (create_message (map_panic h))) hout
  · exact h.elim (fun h => hnode (create_message (map_panic h))) hout
  · exact hnode (target_message h)
  · exact hnode (target_message h)
  · exact hfile _ (by decide) h
  · exact h.elim hout fun h => h.elim (hfile _ (by decide)) (hfile _ (by decide))
  · exact h.elim

/-- The block at a position of an inode in use. -/
def Fsys.place (k : Fsys) : ℕ × ℕ → ℕ := Sys.place k.sb k.block (getInode k.sb k.block)

/-- Each data block in use belongs to one position of one inode, and the contents of inodes are all there. So no call
frees a free block, and a read changes nothing. -/
theorem blocks_owned (hr : Trace.Run (system D (Booted sb)) as k) :
    (∀ q, k.place q ≠ 0 → k.sb.data ≤ k.place q ∧ k.place q < k.sb.size ∧ bit k.sb k.block (k.place q) = true) ∧
    (∀ q r, k.place q = k.place r → k.place q ≠ 0 → q = r) ∧
    (∀ b, k.sb.data ≤ b → b < k.sb.size → (bit k.sb k.block b = true ↔ ∃ q, k.place q = b)) ∧
    (∀ n, k.sb.has n → (getInode k.sb k.block n).type ≠ 0 → (getInode k.sb k.block n).type ≠ T_DEV →
      ∀ m, m * BSIZE < (getInode k.sb k.block n).size → (getInode k.sb k.block n).bno k.block m ≠ 0) ∧
    (∀ i, 0 < (k.icache i).ref → (k.icache i).valid = true →
      (k.icache i).ip = getInode k.sb k.block (k.icache i).ip.inum) ∧
    (∀ p (c : Call) msg k', (k.proc p).live = true → c.can k → c.run D p k = .panic msg k' →
      msg ≠ "freeing free block") ∧
    ∀ i dev off n, 0 < (k.icache i).ref → (k.icache i).valid = true → n < 2 ^ 32 →
      ∃ r, readi dev off n (k.at i) = .ok r (k.at i) := by
  obtain ⟨v, h⟩ := booted_good hr
  have hsb := h.st.sb
  have hown := h.st.disk.own
  have hcov := h.st.disk.cover
  have hvalid := h.st.valid
  rw [← hsb] at hown hcov hvalid
  refine ⟨hown.exact.range, hown.exact.inj, fun b hb hs => ⟨hown.exact.owned b hb hs, ?_⟩, fun n hn h0 hd =>
    (hcov n hn h0 hd).full, fun i hi hv => (hvalid i hi hv).1, fun p c msg k' hp hcan hpanic => ?_,
    fun i dev off n hi hv hn => ?_⟩
  · rintro ⟨q, rfl⟩
    have hpos := hown.exact.pos
    exact (hown.exact.range q (by unfold Fsys.place at hb; omega)).2.2
  · rw [h.st.proc] at hp
    have hsat := Call.run_good (D := D) h hp hcan
    unfold Sat at hsat
    rw [hpanic] at hsat
    exact panics_ne hsat
  · obtain ⟨hip, h0⟩ := hvalid i hi hv
    have hhas := (h.st.dev i hi).2
    rw [← hsb] at hhas
    have hty : (k.at i).ip.type ≠ 0 := by
      rw [show (k.at i).ip = (k.icache i).ip from rfl, hip, hsb, h.st.type (hsb ▸ hhas)]
      exact h0
    have hread : Sat (readi dev off n) (k.at i) (fun _ s' => s' = k.at i) (fun _ => False) (fun _ _ => False) := by
      refine sat_readi (fun hdev => ?_) hty hn rfl
      change Cover (k.icache i).ip k.block
      rw [show (k.at i).ip = (k.icache i).ip from rfl, hip] at hty hdev
      rw [hip]
      exact hcov _ hhas hty hdev
    unfold Sat at hread
    cases hx : readi dev off n (k.at i) with
    | ok r s' =>
      rw [hx] at hread
      rw [hread]
      exact ⟨r, rfl⟩
    | fault s' =>
      rw [hx] at hread
      exact hread.elim
    | panic m s' =>
      rw [hx] at hread
      exact hread.elim

theorem blocks_owned_demo : ∃ k, Trace.Run (system deaf (Booted mkfsSb)) demo k ∧
    ((getInode k.sb k.block 2).nlink = 0 ∧ (getInode k.sb k.block 2).size = 3 ∧ k.place (2, 0) = 60) ∧
    ∀ q r, k.place q = k.place r → k.place q ≠ 0 → q = r := by
  obtain ⟨k, hrun, hk⟩ := run_calls
    (P := fun k => decide ((getInode k.sb k.block 2).nlink = 0 ∧ (getInode k.sb k.block 2).size = 3 ∧
      k.place (2, 0) = 60)) rootImage_booted
    (by decide +kernel : (demo.foldlM Call.next _).any _ = true)
  exact ⟨k, hrun, of_decide_eq_true hk, (blocks_owned hrun).2.1⟩

end Xv6.Sys

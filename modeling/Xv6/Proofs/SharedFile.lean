import Xv6.Spec.SharedFile
import Xv6.Lib.Count
import Xv6.Proofs.Contents
import Xv6.Proofs.LogSpace
import Mathlib.Algebra.Order.BigOperators.Group.Finset
import Mathlib.Algebra.Order.Ring.Nat

/-! Concurrent writes through one `struct file` are not lost. -/

namespace Xv6.SharedFile

open Prog Trace Sys Function List Nat

/-! ### One section -/

section Section

variable {s s' : Fs} {b n m off : ℕ} {src src' : ℕ → UInt8} {dev : Inode → ℕ → ℤ} {x : Node}

/-- A regular file on a sound volume of `mkfs`. -/
structure Sound (s : Fs) : Prop where
  ready : Ready s
  cover : Cover s.ip s.block
  disk : getInode s.sb s.block s.ip.inum = s.ip
  sb : s.sb = mkfsSb
  type : s.ip.type = T_FILE

/-- The contents of the file. -/
def contents (s : Fs) : Node := s.ip.node s.block

theorem node_of_type (h : s.ip.type ≠ 0) : (contents s).type = s.ip.type ∧ (contents s).size = s.ip.size := by
  unfold contents Inode.node
  rw [if_neg h]
  exact ⟨rfl, rfl⟩

theorem Sound.size (h : Sound s) : (contents s).size = s.ip.size := (node_of_type h.ready.type).2

theorem Sound.written (h : Sound s) (hw : Written s src off n s') : Sound s' := by
  have hsb : s'.sb = s.sb := hw.touch.sb
  refine ⟨hw.ready, hw.cover, ?_, hsb.trans h.sb, ?_⟩
  · rw [hsb, hw.touch.inum]
    exact hw.disk
  · have ht : (contents s').type = ((contents s).write src off n).type := congrArg Node.type hw.node
    rw [(node_of_type hw.ready.type).1] at ht
    exact ht.trans ((node_of_type h.ready.type).1.trans h.type)

theorem not_refuses (h1 : off ≤ x.size) (h2 : off + n ≤ MAXFILE * BSIZE) : ¬ x.refuses off n := by
  have h32 : u32 (off + n) = off + n := mod_eq_of_lt (h2.trans_lt (by decide))
  unfold Node.refuses
  rw [h32]
  omega

/-- What a section does: all bytes are written, or the disk is full. -/
theorem sat_section (dev : Inode → ℕ → ℤ) (src : ℕ → UInt8) (h : Sound s) (h1 : off ≤ s.ip.size)
    (h2 : off + n ≤ MAXFILE * BSIZE) :
    Sat (writei dev src off n) s
      (fun r s' => r = n ∧ Sound s' ∧ contents s' = (contents s).write src off n) (fun _ => False)
      (fun m _ => m = "balloc: out of blocks") := by
  have hdev : s.ip.type ≠ T_DEV := by
    rw [h.type]
    decide
  have hlt : n < 2 ^ 32 := by
    have : MAXFILE * BSIZE < 2 ^ 32 := by decide
    omega
  refine sat_writei h.ready (fun _ => h.cover) h.disk hlt (fun hd => absurd hd hdev) ?_ ?_ fun _ _ => rfl
  · intro _ hbad
    refine absurd hbad (not_refuses ?_ h2)
    exact h1.trans_eq h.size.symm
  · intro _ _ s' hw
    exact ⟨rfl, h.written hw, hw.node⟩

/-- The list of logged blocks is not part of the volume. -/
theorem Sound.log (h : Sound s) (l : List ℕ) : Sound { s with log := l } :=
  ⟨⟨h.ready.own, h.ready.has, h.ready.type, h.ready.fits⟩, h.cover, h.disk, h.sb, h.type⟩

theorem write_none (h : off ≤ x.size) : x.write src off 0 = x := by
  have hdata : (fun y => if off ≤ y ∧ y < off + 0 then src (y - off) else x.data y) = x.data := by
    funext y
    exact if_neg (by omega)
  unfold Node.write
  rw [hdata, add_zero, max_eq_left h]

/-- Two writes in a row are one. -/
theorem write_write (x : Node) (u v : List UInt8) (off : ℕ) :
    (x.write (fun k => u.getD k 0) off u.length).write (fun k => v.getD k 0) (off + u.length) v.length =
      x.write (fun k => (u ++ v).getD k 0) off (u ++ v).length := by
  unfold Node.write
  rw [length_append]
  congr 1
  · dsimp only
    omega
  · funext y
    dsimp only
    by_cases h1 : off + u.length ≤ y ∧ y < off + u.length + v.length
    · rw [if_pos h1, if_pos (by omega), getD_append_right _ _ _ _ (by omega)]
      congr 1
      omega
    · rw [if_neg h1]
      by_cases h2 : off ≤ y ∧ y < off + u.length
      · rw [if_pos h2, if_pos (by omega), getD_append _ _ _ _ (by omega)]
      · rw [if_neg h2, if_neg (by omega)]

end Section

section Critical

variable {dev : Inode → ℕ → ℤ} {src : ℕ → UInt8} {n off : ℕ} {fs : Fs} {l : Log}

/-- A section writes all its bytes and moves the offset, or it stops the kernel. -/
theorem critical_cases (dev : Inode → ℕ → ℤ) (src : ℕ → UInt8) (h : Sound fs) (hn : 0 < n)
    (h1 : off ≤ fs.ip.size) (h2 : off + n ≤ MAXFILE * BSIZE) (ho : 1 ≤ l.outstanding) (hsize : l.size = LOGSIZE)
    (hnd : l.lh.Nodup) :
    (∃ fs' l', critical dev src n fs off l = .ok (n, fs', off + n, l') ∧ Sound fs' ∧
      contents fs' = (contents fs).write src off n ∧ Added l l') ∨
    critical dev src n fs off l = .error "balloc: out of blocks" ∨
    critical dev src n fs off l = .error "too big a transaction" ∧ ¬ l.room (logCalls (writei dev src off n) fs) := by
  have hsat := sat_underLog (sat_section dev src (h.log []) h1 h2) ho hsize hnd
  have hu : u32 (off + n) = off + n := mod_eq_of_lt (h2.trans_lt (by decide))
  unfold critical
  cases hx : underLog (writei dev src off n) (fs, l) with
  | ok r t =>
    obtain ⟨s', ⟨rfl, hs, hc⟩, hl, ht⟩ := sat_ok hsat hx
    left
    refine ⟨t.1, t.2, ?_, ht ▸ hs.log fs.log, ?_, logAll_added hl⟩
    · simp only [Int.toNat_natCast, hu]
      rw [if_pos (by omega)]
    · rw [ht]
      exact hc
  | fault t => exact (sat_of_fault hsat hx).elim fun _ hf => hf.elim
  | panic m t =>
    right
    rcases sat_of_panic hsat hx with ⟨s', rfl⟩ | ⟨rfl, hroom⟩
    · exact .inl rfl
    · exact .inr ⟨rfl, hroom⟩

end Critical

/-! ### All calls -/

section System

variable {ι : Type} [DecidableEq ι] [Fintype ι] {dev : Inode → ℕ → ℤ} {buf : ι → List UInt8} {s s' s₀ : State ι}
  {as : List (Act ι)} {a : Act ι} {i j : ι} {r : Except String (State ι)} {n : ℕ}

omit [Fintype ι] [DecidableEq ι] in
theorem locks_append (as bs : List (Act ι)) : locks (as ++ bs) = locks as ++ locks bs := by
  induction as with
  | nil => rfl
  | cons a as ih => cases a <;> simp [locks, ih]

/-- The buffers in the order the lock was taken. -/
def written (buf : ι → List UInt8) (as : List (Act ι)) : List UInt8 := (locks as).flatMap buf

/-- The start: nobody has written anything, the log is idle, and all buffers fit behind the offset. -/
structure Init (buf : ι → List UInt8) (s : State ι) : Prop where
  pc : ∀ i, s.pc i = .loop 0
  stop : s.stop = none
  sound : Sound s.fs
  off : s.off ≤ s.fs.ip.size
  size : s.log.size = LOGSIZE
  empty : s.log.lh = []
  none : s.log.outstanding = 0
  idle : s.log.committing = false
  short : ∀ i, (buf i).length ≤ filewriteMax
  fits : s.off + ∑ i, (buf i).length ≤ MAXFILE * BSIZE

/-- A call that `begin_op` has counted. -/
def Pc.active : Pc → Bool
  | .begun _ => true
  | .wrote _ _ => true
  | _ => false

/-- Where a call can be, by whether it has had the lock. -/
def PcOk (n : ℕ) (had : Prop) : Pc → Prop
  | .loop k => k = 0 ∧ ¬ had ∨ k = n ∧ 0 < n ∧ had
  | .begun k => k = 0 ∧ 0 < n ∧ ¬ had
  | .wrote k r => k = 0 ∧ 0 < n ∧ r = n ∧ had
  | .committing k r => k = 0 ∧ 0 < n ∧ r = n ∧ had
  | .ret v => v = n ∧ (0 < n → had)

/-- The steps that a call has in front of it, at most. -/
def Pc.rank (n : ℕ) : Pc → ℕ
  | .loop k => if k < n then 5 else 1
  | .begun _ => 4
  | .wrote _ _ => 3
  | .committing _ _ => 2
  | .ret _ => 0

/-- What holds while the kernel runs. -/
structure Good (buf : ι → List UInt8) (s₀ : State ι) (as : List (Act ι)) (s : State ι) : Prop where
  sound : Sound s.fs
  node : contents s.fs =
    (contents s₀.fs).write (fun k => (written buf as).getD k 0) s₀.off (written buf as).length
  off : s.off = s₀.off + (written buf as).length
  once : (locks as).Nodup
  pc : ∀ i, PcOk (buf i).length (i ∈ locks as) (s.pc i)
  size : s.log.size = LOGSIZE
  nodup : s.log.lh.Nodup
  ops : Count.tally Finset.univ Pc.active s.pc = s.log.outstanding
  idle : s.log.committing = true → s.log.outstanding = 0 ∧ ∃ i k r, s.pc i = .committing k r
  clean : s.log.outstanding = 0 → s.log.committing = false → s.log.lh = []
  steps : as.length + ∑ i, (s.pc i).rank (buf i).length ≤ 5 * Fintype.card ι

omit [DecidableEq ι] in
theorem Good.off_le (h : Good buf s₀ as s) : s.off ≤ s.fs.ip.size := by
  rw [← h.sound.size, h.node, h.off]
  exact le_max_right _ _

omit [Fintype ι] in
theorem length_written (h : (locks as).Nodup) : (written buf as).length = ∑ i ∈ (locks as).toFinset, (buf i).length := by
  rw [written, length_flatMap, sum_toFinset _ h]

theorem Good.fits (h : Good buf s₀ as s) (h0 : Init buf s₀) (hi : i ∉ locks as) :
    s.off + (buf i).length ≤ MAXFILE * BSIZE := by
  have hsum : ∑ j ∈ insert i (locks as).toFinset, (buf j).length ≤ ∑ j, (buf j).length :=
    Finset.sum_le_sum_of_subset (Finset.subset_univ _)
  rw [Finset.sum_insert (by rwa [mem_toFinset]), ← length_written h.once] at hsum
  have := h0.fits
  rw [h.off]
  omega

omit [DecidableEq ι] in
theorem Init.good (h : Init buf s₀) : Good buf s₀ [] s₀ where
  sound := h.sound
  node := by
    have hoff := h.off
    rw [← h.sound.size] at hoff
    exact (write_none hoff).symm
  off := rfl
  once := nodup_nil
  pc i := by
    rw [h.pc i]
    exact .inl ⟨rfl, not_mem_nil⟩
  size := h.size
  nodup := by
    rw [h.empty]
    exact nodup_nil
  ops := by
    rw [h.none]
    apply Count.refs_eq_zero.2
    intro i _
    simp [h.pc i, Pc.active]
  idle hc := by
    rw [h.idle] at hc
    cases hc
  clean _ _ := h.empty
  steps := by
    have hle : ∀ i ∈ Finset.univ, (s₀.pc i).rank (buf i).length ≤ 5 := by
      intro i _
      rw [h.pc i, Pc.rank]
      split_ifs <;> omega
    have hsum := Finset.sum_le_card_nsmul _ _ _ hle
    rw [length_nil, zero_add, mul_comm]
    exact hsum

/-- Where a call is that has to take the inode's lock. -/
def Pc.begun? : Pc → Option ℕ
  | .begun k => some k
  | _ => none

/-- The log has room for the blocks of the section that is about to be entered. -/
def Room (dev : Inode → ℕ → ℤ) (buf : ι → List UInt8) (s : State ι) : Act ι → Prop
  | .lock i => ∀ k ∈ (s.pc i).begun?,
    s.log.room (logCalls (writei dev (fun j => (buf i).getD (k + j) 0) s.off (chunk (buf i).length k)) s.fs)
  | _ => True

instance : (a : Act ι) → Decidable (Room dev buf s a)
  | .lock i => inferInstanceAs (Decidable (∀ k ∈ (s.pc i).begun?, Log.room _ _))
  | .beginOp _ | .endOp _ | .commit _ | .done _ => isTrue trivial

theorem sum_rank {p : Pc} (hrank : p.rank (buf i).length < (s.pc i).rank (buf i).length) :
    ∑ j, (update s.pc i p j).rank (buf j).length < ∑ j, (s.pc j).rank (buf j).length := by
  refine Finset.sum_lt_sum (fun j _ => ?_) ⟨i, Finset.mem_univ i, by rwa [update_self]⟩
  by_cases hj : j = i
  · rw [hj, update_self]
    exact hrank.le
  · rw [update_of_ne hj]

/-- A step on the log and the place of one call. -/
theorem Good.goto (h : Good buf s₀ as s) {p : Pc} {l : Log} (hlocks : locks (as ++ [a]) = locks as)
    (hp : PcOk (buf i).length (i ∈ locks as) p) (hsize : l.size = s.log.size) (hnd : l.lh.Nodup)
    (hops : s.log.outstanding + (if p.active then 1 else 0) = l.outstanding + (if (s.pc i).active then 1 else 0))
    (hidle : l.committing = true → l.outstanding = 0 ∧ ∃ j k r, update s.pc i p j = .committing k r)
    (hclean : l.outstanding = 0 → l.committing = false → l.lh = [])
    (hrank : p.rank (buf i).length < (s.pc i).rank (buf i).length) :
    Good buf s₀ (as ++ [a]) ({ s with log := l }.goto i p) where
  sound := h.sound
  node := by
    rw [written, hlocks]
    exact h.node
  off := by
    rw [written, hlocks]
    exact h.off
  once := by
    rw [hlocks]
    exact h.once
  pc j := by
    rw [hlocks]
    change PcOk _ _ (update s.pc i p j)
    by_cases hj : j = i
    · subst hj
      rw [update_self]
      exact hp
    · rw [update_of_ne hj]
      exact h.pc j
  size := hsize.trans h.size
  nodup := hnd
  ops := by
    have ht := Count.tally_update (t := s.pc) (p := Pc.active) (r := p) (Finset.mem_univ i)
    have h1 := h.ops
    change Count.tally Finset.univ Pc.active (update s.pc i p) = l.outstanding
    omega
  idle := hidle
  clean := hclean
  steps := by
    have h1 := h.steps
    have h2 := sum_rank hrank
    change (as ++ [a]).length + ∑ j, (update s.pc i p j).rank (buf j).length ≤ _
    rw [length_append, length_singleton]
    omega

omit [DecidableEq ι] in
theorem Good.outstanding_pos (h : Good buf s₀ as s) (hi : (s.pc i).active = true) : 1 ≤ s.log.outstanding :=
  (Count.tally_pos (Finset.mem_univ i) hi).trans_eq h.ops

theorem chunk_zero (h : n ≤ filewriteMax) : chunk n 0 = n := by
  unfold chunk
  rw [Nat.sub_zero, if_neg (Nat.not_lt.2 h)]

/-- The only round of the loop. -/
theorem after_ok (h : n ≤ filewriteMax) : after n 0 n = .ok (.loop n) := by
  unfold after
  rw [if_neg (by omega), chunk_zero h, if_neg (by simp), Int.toNat_natCast, zero_add]

/-- What an action comes to, from a good state. -/
inductive Outcome (dev : Inode → ℕ → ℤ) (buf : ι → List UInt8) (s₀ : State ι) (as : List (Act ι)) (s : State ι) (a : Act ι) :
    Except String (State ι) → Prop where
  | ok {s' : State ι} (hs : s'.stop = s.stop) (h : Good buf s₀ (as ++ [a]) s') : Outcome dev buf s₀ as s a (.ok s')
  | full : Outcome dev buf s₀ as s a (.error "balloc: out of blocks")
  | big (h : ¬ Room dev buf s a) : Outcome dev buf s₀ as s a (.error "too big a transaction")

omit [DecidableEq ι] [Fintype ι] in
theorem locks_same {b : Act ι} (h : ∀ i, b ≠ .lock i) : locks (as ++ [b]) = locks as := by
  rw [locks_append]
  cases b with
  | lock i => exact absurd rfl (h i)
  | _ => exact append_nil _

theorem beginOp_outcome (h : Good buf s₀ as s)
    (hr : s.next dev buf (.beginOp i) = some r) : Outcome dev buf s₀ as s (.beginOp i) r := by
  unfold State.next at hr
  dsimp only at hr
  have hpc := h.pc i
  split at hr
  · rename_i k hk
    rw [hk] at hpc
    by_cases hlt : k < (buf i).length
    · rw [if_pos hlt, beginOp] at hr
      split_ifs at hr with h1 h2
      · simp at hr
      · simp at hr
      · obtain rfl := Option.some.inj hr
        refine .ok rfl (h.goto (locks_same (by simp)) ?_ rfl h.nodup ?_ (fun hc => absurd hc h1)
          (fun hc => absurd hc (succ_ne_zero _)) ?_)
        · rcases hpc with ⟨rfl, hnot⟩ | ⟨rfl, -, -⟩
          · exact ⟨rfl, hlt, hnot⟩
          · exact absurd hlt (lt_irrefl _)
        · rw [hk]
          rfl
        · rw [hk, Pc.rank, Pc.rank, if_pos hlt]
          decide
    · rw [if_neg hlt] at hr
      simp at hr
  · simp at hr

theorem done_outcome (h : Good buf s₀ as s)
    (hr : s.next dev buf (.done i) = some r) : Outcome dev buf s₀ as s (.done i) r := by
  unfold State.next at hr
  dsimp only at hr
  have hpc := h.pc i
  split at hr
  · rename_i k hk
    rw [hk] at hpc
    split_ifs at hr with hlt
    obtain rfl := Option.some.inj hr
    refine .ok rfl (h.goto (l := s.log) (locks_same (by simp)) ?_ rfl h.nodup (by rw [hk]; rfl) (fun hc => ?_) h.clean
      (by rw [hk, Pc.rank, Pc.rank, if_neg hlt]; decide))
    rotate_left
    · obtain ⟨hz, j, k', r', hj⟩ := h.idle hc
      have hne : j ≠ i := by
        rintro rfl
        rw [hk] at hj
        cases hj
      exact ⟨hz, j, k', r', (update_of_ne hne _ _).trans hj⟩
    rcases hpc with ⟨rfl, -⟩ | ⟨rfl, -, hin⟩
    · have h0 : (buf i).length = 0 := Nat.eq_zero_of_not_pos hlt
      rw [h0]
      exact ⟨rfl, fun hp => absurd hp (Nat.lt_irrefl _)⟩
    · exact ⟨if_pos rfl, fun _ => hin⟩
  · simp at hr

theorem commit_outcome (h0 : Init buf s₀) (h : Good buf s₀ as s)
    (hr : s.next dev buf (.commit i) = some r) : Outcome dev buf s₀ as s (.commit i) r := by
  unfold State.next at hr
  dsimp only at hr
  have hpc := h.pc i
  split at hr
  · rename_i k r' hk
    rw [hk] at hpc
    obtain ⟨rfl, hn, rfl, hin⟩ := hpc
    rw [after_ok (h0.short i)] at hr
    obtain rfl := Option.some.inj hr
    refine .ok rfl (h.goto (locks_same (by simp)) (.inr ⟨rfl, hn, hin⟩) rfl nodup_nil ?_ (fun hc => by simp at hc)
      (fun _ _ => rfl) ?_)
    · rw [hk]
      rfl
    · rw [hk, Pc.rank, Pc.rank, if_neg (lt_irrefl _)]
      decide
  · simp at hr

theorem endOp_outcome (h0 : Init buf s₀) (h : Good buf s₀ as s)
    (hr : s.next dev buf (.endOp i) = some r) : Outcome dev buf s₀ as s (.endOp i) r := by
  unfold State.next at hr
  dsimp only at hr
  have hpc := h.pc i
  split at hr
  · rename_i k r' hk
    rw [hk] at hpc
    obtain ⟨rfl, hn, rfl, hin⟩ := hpc
    have hact : (s.pc i).active = true := by rw [hk]; rfl
    have hpos := h.outstanding_pos hact
    have hidle : s.log.committing = false := by
      by_contra hc
      have := (h.idle (eq_true_of_ne_false hc)).1
      omega
    have hend : endOp s.log = if s.log.outstanding - 1 = 0 then
        .ok { s.log with outstanding := s.log.outstanding - 1, committing := true }
        else .ok { s.log with outstanding := s.log.outstanding - 1 } := by
      unfold endOp
      dsimp only
      rw [if_neg (by simp [hidle])]
    rw [hend] at hr
    obtain rfl := Option.some.inj hr
    by_cases hlast : s.log.outstanding - 1 = 0
    · rw [if_pos hlast]
      refine .ok rfl (h.goto (locks_same (by simp)) ⟨rfl, hn, rfl, hin⟩ rfl h.nodup ?_
        (fun _ => ⟨hlast, i, 0, _, update_self ..⟩) (fun _ hc => by simp at hc) (by rw [hk]; exact lt_succ_self 2))
      rw [hk]
      change s.log.outstanding + 0 = s.log.outstanding - 1 + 1
      omega
    · rw [if_neg hlast]
      simp only [bind, Except.bind, hidle, after_ok (h0.short i), Bool.false_eq_true, if_false]
      refine .ok rfl (h.goto (locks_same (by simp)) (.inr ⟨rfl, hn, hin⟩) rfl h.nodup ?_ (fun hc => by simp at hc)
        (fun hc => absurd hc hlast) (by rw [hk, Pc.rank, Pc.rank, if_neg (lt_irrefl _)]; decide))
      rw [hk]
      change s.log.outstanding + 0 = s.log.outstanding - 1 + 1
      omega
  · simp at hr

omit [DecidableEq ι] [Fintype ι] in
theorem locks_lock : locks (as ++ [.lock i]) = locks as ++ [i] := locks_append as [.lock i]

omit [DecidableEq ι] [Fintype ι] in
theorem written_lock : written buf (as ++ [.lock i]) = written buf as ++ buf i := by
  rw [written, locks_lock, flatMap_append, flatMap_singleton]
  rfl

/-- The section of a call appends its buffer. -/
theorem Good.lock {fs' : Fs} {l' : Log} (h : Good buf s₀ as s) (hk : s.pc i = .begun 0) (hn : 0 < (buf i).length)
    (hnot : i ∉ locks as) (hs : Sound fs')
    (hnode : contents fs' = (contents s.fs).write (fun j => (buf i).getD j 0) s.off (buf i).length)
    (hL : Added s.log l') : Good buf s₀ (as ++ [.lock i])
      ({ s with fs := fs', off := s.off + (buf i).length, log := l' }.goto i (.wrote 0 (buf i).length)) where
  sound := hs
  node := by
    rw [written_lock, ← write_write, ← h.node, ← h.off]
    exact hnode
  off := by
    rw [written_lock, length_append, ← add_assoc, ← h.off]
    rfl
  once := by
    rw [locks_lock, nodup_append]
    exact ⟨h.once, nodup_singleton i, fun j hj b hb => by
      rw [mem_singleton.1 hb]
      rintro rfl
      exact hnot hj⟩
  pc j := by
    rw [locks_lock]
    change PcOk _ _ (update s.pc i _ j)
    by_cases hj : j = i
    · subst hj
      rw [update_self]
      exact ⟨rfl, hn, rfl, mem_append_right _ mem_cons_self⟩
    · have hmem : (j ∈ locks as ++ [i]) = (j ∈ locks as) := by simp [hj]
      rw [update_of_ne hj, hmem]
      exact h.pc j
  size := hL.size.trans h.size
  nodup := hL.nodup h.nodup
  ops := by
    have hsame : Count.tally Finset.univ Pc.active (update s.pc i (.wrote 0 (buf i).length)) =
        Count.tally Finset.univ Pc.active s.pc := Count.tally_same (by rw [hk]; rfl)
    change Count.tally Finset.univ Pc.active (update s.pc i (.wrote 0 (buf i).length)) = l'.outstanding
    rw [hsame, hL.outstanding]
    exact h.ops
  idle hc := by
    have hpos := h.outstanding_pos (i := i) (by rw [hk]; rfl)
    have := (h.idle (hL.committing.symm.trans hc)).1
    omega
  clean hc := by
    have hpos := h.outstanding_pos (i := i) (by rw [hk]; rfl)
    have := hL.outstanding.symm.trans hc
    omega
  steps := by
    have h1 := h.steps
    have h2 : ∑ j, (update s.pc i (.wrote 0 (buf i).length) j).rank (buf j).length < ∑ j, (s.pc j).rank (buf j).length :=
      sum_rank (by rw [hk]; exact lt_succ_self 3)
    change (as ++ [Act.lock i]).length + ∑ j, (update s.pc i (.wrote 0 (buf i).length) j).rank (buf j).length ≤ _
    rw [length_append, length_singleton]
    omega

theorem lock_outcome (h0 : Init buf s₀) (h : Good buf s₀ as s)
    (hr : s.next dev buf (.lock i) = some r) : Outcome dev buf s₀ as s (.lock i) r := by
  unfold State.next at hr
  dsimp only at hr
  have hpc := h.pc i
  split at hr
  · rename_i k hk
    rw [hk] at hpc
    obtain ⟨rfl, hn, hnot⟩ := hpc
    have hact : (s.pc i).active = true := by rw [hk]; rfl
    have hfits := h.fits h0 hnot
    have hsrc : (fun j => (buf i).getD (0 + j) 0) = fun j => (buf i).getD j 0 := by
      funext j
      rw [zero_add]
    rw [chunk_zero (h0.short i), hsrc] at hr
    obtain rfl := Option.some.inj hr
    rcases critical_cases dev (fun j => (buf i).getD j 0) h.sound hn h.off_le hfits (h.outstanding_pos hact) h.size
      h.nodup with ⟨fs', l', hc, hs, hnode, hL⟩ | hc | ⟨hc, hfull⟩
    · rw [hc]
      exact .ok rfl (h.lock hk hn hnot hs hnode hL)
    · rw [hc]
      exact .full
    · rw [hc]
      refine .big fun hroom => ?_
      have hr := hroom 0 (by rw [hk]; rfl)
      rw [chunk_zero (h0.short i), hsrc] at hr
      exact hfull hr
  · simp at hr

theorem next_outcome (h0 : Init buf s₀) (h : Good buf s₀ as s)
    (hr : s.next dev buf a = some r) : Outcome dev buf s₀ as s a r := by
  cases a with
  | beginOp i => exact beginOp_outcome h hr
  | lock i => exact lock_outcome h0 h hr
  | endOp i => exact endOp_outcome h0 h hr
  | commit i => exact commit_outcome h0 h hr
  | done i => exact done_outcome h hr

/-- A step from a good state. -/
theorem step_good (h0 : Init buf s₀) (h : s.stop = none → Good buf s₀ as s) (hstep : s.step dev buf a = some s') :
    s'.stop = none ∧ Good buf s₀ (as ++ [a]) s' ∨ s'.stop = some "balloc: out of blocks" ∨
      s'.stop = some "too big a transaction" ∧ ¬ Room dev buf s a := by
  unfold State.step at hstep
  split_ifs at hstep with hstop
  have hnone : s.stop = none := by simpa using hstop
  split at hstep
  · simp at hstep
  · rename_i t ht
    obtain rfl := Option.some.inj hstep
    cases next_outcome h0 (h hnone) ht with
    | ok hs hg => exact .inl ⟨hs.trans hnone, hg⟩
  · rename_i m hm
    obtain rfl := Option.some.inj hstep
    generalize hr : Except.error m = r at hm
    cases next_outcome h0 (h hnone) hm with
    | ok hs hg => cases hr
    | full =>
      obtain rfl := Except.error.inj hr
      exact .inr (.inl rfl)
    | big hroom =>
      obtain rfl := Except.error.inj hr
      exact .inr (.inr ⟨rfl, hroom⟩)

theorem run_good (h0 : Init buf s₀) (hr : Trace.Run (system dev buf s₀) as s) :
    (s.stop = none → Good buf s₀ as s) ∧
      (s.stop = none ∨ s.stop = some "balloc: out of blocks" ∨ s.stop = some "too big a transaction") := by
  induction hr with
  | start h =>
    obtain rfl := h
    exact ⟨fun _ => h0.good, .inl h0.stop⟩
  | snoc _ hs ih =>
    rcases step_good h0 ih.1 hs with ⟨hn, hg⟩ | hf | ⟨hf, -⟩
    · exact ⟨fun _ => hg, .inl hn⟩
    · exact ⟨fun hn => by simp [hf] at hn, .inr (.inl hf)⟩
    · exact ⟨fun hn => by simp [hf] at hn, .inr (.inr hf)⟩

end System

/-! ### Three writers that fill the log -/

end Xv6.SharedFile

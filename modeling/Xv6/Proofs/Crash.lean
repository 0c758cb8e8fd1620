import Xv6.Proofs.Log
import Mathlib.Data.List.GetD

/-! Crash atomicity. Two facts about the disk carry the proof. Outside `commit` the home blocks are
the durable ones and the header on disk is empty. Once the header is written, the log holds the new
contents of every home block that may still be old, whichever of them `install_trans` has reached,
so the same fact holds at a crash and after any number of crashes in recovery. -/

namespace Xv6

open Trace Function

@[simp] theorem head_putHead (hb : Block) (l : List ℕ) : head (putHead hb l) = l := by
  refine List.ext_getElem (by simp [head, putHead]) ?_
  intro i h1 h2
  simp [head, putHead, h2, Nat.succ_le_of_lt h2]

theorem head_eq_nil {hb : Block} (h : hb 0 = 0) : head hb = [] := by simp [head, h]

theorem getD_mem {l : List ℕ} {i : ℕ} (h : i < l.length) : l.getD i 0 ∈ l := by
  rw [List.getD_eq_getElem _ _ h]
  exact List.getElem_mem h

theorem exists_getD {l : List ℕ} {b : ℕ} (h : b ∈ l) : ∃ i < l.length, l.getD i 0 = b := by
  obtain ⟨i, hi, rfl⟩ := List.mem_iff_getElem.mp h
  exact ⟨i, hi, List.getD_eq_getElem _ _ hi⟩

theorem applyWrites_append (disk : ℕ → Block) (xs ys : List Write) :
    applyWrites disk (xs ++ ys) = applyWrites (applyWrites disk xs) ys := List.foldl_append

/-- The home blocks as of the last commit that reached the disk. -/
def durable (disk : ℕ → Block) (as : List LogAct) : ℕ → Block := applyWrites disk (ledger as).committed

/-- The blocks as the operations see them. -/
def view (disk : ℕ → Block) (as : List LogAct) : ℕ → Block :=
  applyWrites (durable disk as) (ledger as).pending

section

variable (D V : ℕ → Block) (m : Machine)

/-- The cache agrees with the disk, but for the blocks in `S`. -/
def Coherent (S : ℕ → Prop) : Prop := ∀ b x, m.cache b = some x → x = ⟨m.disk b, false⟩ ∨ S b

/-- What recovery needs of the disk: the log has every home block that is not up to date. -/
structure Recoverable (l : List ℕ) : Prop where
  head_eq : head (m.disk m.log.start) = l
  fits : l.length < m.log.size
  home : ∀ b ∈ l, m.log.home b
  log : ∀ i < l.length, m.disk (m.log.start + i + 1) = D (l.getD i 0)
  rest : ∀ b, m.log.home b → b ∉ l → m.disk b = D b

/-- No commit has reached the disk since the home blocks were all written. -/
structure Clean : Prop where
  head_eq : head (m.disk m.log.start) = []
  disk : ∀ b, m.log.home b → m.disk b = D b
  fits : m.log.lh.length < m.log.size
  home : ∀ b ∈ m.log.lh, m.log.home b
  logged : ∀ b ∈ m.log.lh, m.cache b = some ⟨V b, true⟩
  cached : Coherent m (· ∈ m.log.lh)
  unlogged : ∀ b ∉ m.log.lh, V b = D b

/-- The block at place `i` of the log's list, or a later one, is `b`. -/
def Ahead (i b : ℕ) : Prop := ∃ j < m.log.lh.length, i ≤ j ∧ m.log.lh.getD j 0 = b

/-- `install_trans` has copied the first `tail` blocks. -/
structure Installing (tail : ℕ) : Prop where
  recoverable : Recoverable D m m.log.lh
  done : ∀ i < m.log.lh.length, i < tail → m.disk (m.log.lh.getD i 0) = D (m.log.lh.getD i 0)
  cached : Coherent m (Ahead m tail)
  view_eq : V = D

/-- `write_log` has copied the first `tail` blocks. -/
def Logged (tail : ℕ) : Prop :=
  ∀ i < m.log.lh.length, i < tail → m.disk (m.log.start + i + 1) = V (m.log.lh.getD i 0)

def DiskInv : Prop :=
  match m.phase with
  | .boot => (∃ l, Recoverable D m l) ∧ Coherent m (fun _ => False) ∧ V = D
  | .run => Clean D V m
  | .wake => Clean D V m ∧ m.log.lh = []
  | .writeLog tail => Clean D V m ∧ tail < m.log.lh.length ∧ Logged V m tail
  | .writeHead => Clean D V m ∧ Logged V m m.log.lh.length
  | .install _ tail => Installing D V m tail
  | .clear _ => Installing D V m m.log.lh.length

end

variable {D V : ℕ → Block} {m m' : Machine} {b i tail : ℕ} {S : ℕ → Prop}

/-! The cache. -/

theorem Coherent.buf_eq (h : Coherent m S) (hb : ¬ S b) : m.buf b = ⟨m.disk b, false⟩ := by
  unfold Machine.buf
  cases hc : m.cache b with
  | none => rfl
  | some x => exact (h b x hc).resolve_right hb

theorem Coherent.bread (h : Coherent m S) : Coherent (m.bread b) S := by
  intro c x hx
  by_cases hcb : c = b
  · subst hcb
    by_cases hS : S c
    · exact Or.inr hS
    · left
      have hbuf := h.buf_eq hS
      simp only [Machine.bread, update_self, Option.some.injEq] at hx
      exact hx.symm.trans hbuf
  · exact h c x (by simpa [Machine.bread, hcb] using hx)

theorem Coherent.evict (h : Coherent m S) :
    Coherent { m with cache := update m.cache b none } S := by
  intro c x hx
  by_cases hcb : c = b
  · simp [hcb] at hx
  · exact h c x (by simpa [hcb] using hx)

theorem Coherent.bwrite {data : Block} {S' : ℕ → Prop} (h : Coherent m S)
    (hS : ∀ c, c ≠ b → S c → S' c) : Coherent (m.bwrite b data) S' := by
  intro c x hx
  by_cases hcb : c = b
  · subst hcb
    left
    simpa [Machine.bwrite] using hx.symm
  · rcases h c x (by simpa [Machine.bwrite, hcb] using hx) with hx' | hS'
    · left
      simpa [Machine.bwrite, hcb] using hx'
    · exact Or.inr (hS c hcb hS')

@[simp] theorem buf_bread (c : ℕ) : (m.bread b).buf c = m.buf c := by
  by_cases hcb : c = b
  · subst hcb
    simp [Machine.buf, Machine.bread]
  · simp [Machine.buf, Machine.bread, hcb]

@[simp] theorem writeHead_disk :
    m.writeHead.disk =
      update m.disk m.log.start (putHead (m.buf m.log.start).data m.log.lh) := rfl

@[simp] theorem logBlock_disk (t : ℕ) :
    (m.logBlock t).disk =
      update m.disk (m.log.start + t + 1) (m.buf (m.log.lh.getD t 0)).data := by
  simp only [Machine.logBlock, Machine.bwrite, buf_bread, bread_disk, bread_log]

@[simp] theorem installBlock_disk (t : ℕ) :
    (m.installBlock t).disk =
      update m.disk (m.log.lh.getD t 0) (m.buf (m.log.start + t + 1)).data := by
  simp only [Machine.installBlock, Machine.bwrite, buf_bread, bread_disk, bread_log]

theorem buf_of_cache {x : Buf} (h : m.cache b = some x) : m.buf b = x := by simp [Machine.buf, h]

/-! Blocks of the log are not home blocks. -/

theorem home_ne_start (h : m.log.home b) (hf : 0 < m.log.size) : b ≠ m.log.start := by
  unfold Log.home at h
  omega

theorem home_ne_log (h : m.log.home b) (hf : i + 1 < m.log.size) : b ≠ m.log.start + i + 1 := by
  unfold Log.home at h
  omega

/-! Steps of the clean phases. -/

theorem Clean.congr (h : Clean D V m) (hd : m'.disk = m.disk) (hc : m'.cache = m.cache)
    (hs : m'.log.start = m.log.start) (hz : m'.log.size = m.log.size) (hl : m'.log.lh = m.log.lh) :
    Clean D V m' := by
  obtain ⟨disk', cache', log', phase', ops'⟩ := m'
  obtain ⟨start', size', out', com', lh'⟩ := log'
  obtain rfl : disk' = m.disk := hd
  obtain rfl : cache' = m.cache := hc
  obtain rfl : start' = m.log.start := hs
  obtain rfl : size' = m.log.size := hz
  obtain rfl : lh' = m.log.lh := hl
  exact { h with }

theorem Clean.bread (h : Clean D V m) : Clean D V (m.bread b) where
  head_eq := h.head_eq
  disk := h.disk
  fits := h.fits
  home := h.home
  logged := by
    intro c hc
    have hlog := h.logged c hc
    by_cases hcb : c = b
    · subst hcb
      simp [Machine.bread, buf_of_cache hlog]
    · simpa [Machine.bread, hcb] using hlog
  cached := h.cached.bread
  unlogged := h.unlogged

theorem Clean.evict (h : Clean D V m) (hb : (m.buf b).dirty = false) :
    Clean D V { m with cache := update m.cache b none } where
  head_eq := h.head_eq
  disk := h.disk
  fits := h.fits
  home := h.home
  logged := by
    intro c hc
    have hlog := h.logged c hc
    have hcb : c ≠ b := by
      rintro rfl
      simp [buf_of_cache hlog] at hb
    simpa [hcb] using hlog
  cached := h.cached.evict
  unlogged := h.unlogged

/-- A block of the log may be overwritten: the header is empty. -/
theorem Clean.bwrite (h : Clean D V m) {data : Block} (hb : ¬ m.log.home b) (hs : b ≠ m.log.start) :
    Clean D V (m.bwrite b data) := by
  have hne : ∀ c, m.log.home c → c ≠ b := by
    rintro c hc rfl
    exact hb hc
  refine ⟨?_, ?_, h.fits, h.home, ?_, h.cached.bwrite fun _ _ hc => hc, h.unlogged⟩
  · simpa [Machine.bwrite, hs.symm] using h.head_eq
  · intro c hc
    simpa [Machine.bwrite, hne c hc] using h.disk c hc
  · intro c hc
    simpa [Machine.bwrite, hne c (h.home c hc)] using h.logged c hc

theorem Clean.logWrite (h : Clean D V m) {data : Block} (hb : m.log.home b)
    (hf : (absorb b m.log.lh).length < m.log.size) :
    Clean D (update V b data) (m.logWrite b data) where
  head_eq := h.head_eq
  disk := h.disk
  fits := hf
  home := by
    intro c hc
    rcases mem_absorb.mp hc with rfl | hc
    · exact hb
    · exact h.home c hc
  logged := by
    intro c hc
    by_cases hcb : c = b
    · simp [Machine.logWrite, hcb]
    · simpa [Machine.logWrite, hcb] using h.logged c ((mem_absorb.mp hc).resolve_left hcb)
  cached := by
    intro c x hx
    by_cases hcb : c = b
    · exact Or.inr (mem_absorb.mpr (Or.inl hcb))
    · exact (h.cached c x (by simpa [Machine.logWrite, hcb] using hx)).imp id
        (fun hc => mem_absorb.mpr (Or.inr hc))
  unlogged := by
    intro c hc
    have hc' : ¬ (c = b ∨ c ∈ m.log.lh) := fun hcl => hc (mem_absorb.mpr hcl)
    rw [update_of_ne (by tauto)]
    exact h.unlogged c (by tauto)

theorem Clean.log_not_home (h : Clean D V m) (hi : i < m.log.lh.length) : ¬ m.log.home (m.log.start + i + 1) := by
  have hf := h.fits
  unfold Log.home
  omega

/-- One round of `write_log`. -/
theorem Clean.logBlock (h : Clean D V m) {tail : ℕ} (ht : tail < m.log.lh.length)
    (hl : Logged V m tail) : Clean D V (m.logBlock tail) ∧ Logged V (m.logBlock tail) (tail + 1) := by
  refine ⟨(h.bread.bread).bwrite (h.log_not_home ht) (by omega), ?_⟩
  intro i hi hit
  rw [logBlock_disk]
  by_cases hti : i = tail
  · subst hti
    rw [logBlock_log, update_self, buf_of_cache (h.logged _ (getD_mem ht))]
  · rw [logBlock_log, update_of_ne (by omega)]
    exact hl i hi (by omega)

theorem Clean.recoverable (h : Clean D V m) : Recoverable D m [] where
  head_eq := h.head_eq
  fits := by have := h.fits; simp; omega
  home := by simp
  log := by simp
  rest := fun b hb _ => h.disk b hb

/-- The commit point: what was the view becomes durable. -/
theorem Clean.commitHead (h : Clean D V m) (hl : Logged V m m.log.lh.length) :
    Installing V V m.writeHead 0 := by
  have hpos : 0 < m.log.size := by have := h.fits; omega
  refine ⟨⟨?_, h.fits, h.home, ?_, ?_⟩, by simp, ?_, rfl⟩
  · simp
  · intro i hi
    rw [writeHead_disk, writeHead_log, update_of_ne (by omega)]
    exact hl i hi hi
  · intro c hc hcl
    rw [writeHead_disk, update_of_ne (home_ne_start (m := m) hc hpos),
      h.unlogged c hcl]
    exact h.disk c hc
  · refine h.cached.bwrite fun c _ hc => ?_
    obtain ⟨i, hi, hic⟩ := exists_getD hc
    exact ⟨i, hi, Nat.zero_le _, hic⟩

/-! Steps of `install_trans`. -/

theorem Installing.congr (h : Installing D V m tail) (hd : m'.disk = m.disk)
    (hc : Coherent m' (Ahead m tail)) (hl : m'.log = m.log) : Installing D V m' tail := by
  obtain ⟨disk', cache', log', phase', ops'⟩ := m'
  obtain rfl : disk' = m.disk := hd
  obtain rfl : log' = m.log := hl
  exact ⟨⟨h.recoverable.head_eq, h.recoverable.fits, h.recoverable.home, h.recoverable.log,
    h.recoverable.rest⟩, h.done, hc, h.view_eq⟩

theorem Installing.log_ne_home (h : Installing D V m b) {j : ℕ} (hi : i < m.log.lh.length)
    (hj : j < m.log.lh.length) : m.log.start + i + 1 ≠ m.log.lh.getD j 0 := by
  have hf := h.recoverable.fits
  exact (home_ne_log (h.recoverable.home _ (getD_mem hj)) (by omega)).symm

/-- The log block that a round of `install_trans` reads holds the durable contents. -/
theorem Installing.buf_log (h : Installing D V m tail) (ht : tail < m.log.lh.length) :
    (m.buf (m.log.start + tail + 1)).data = D (m.log.lh.getD tail 0) := by
  have hnot : ¬ Ahead m tail (m.log.start + tail + 1) := by
    rintro ⟨j, hj, -, hjb⟩
    exact h.log_ne_home ht hj hjb.symm
  rw [h.cached.buf_eq hnot]
  exact h.recoverable.log tail ht

/-- One round of `install_trans`. -/
theorem Installing.installBlock (h : Installing D V m tail) (ht : tail < m.log.lh.length) :
    Installing D V (m.installBlock tail) (tail + 1) := by
  have hR := h.recoverable
  have hpos : 0 < m.log.size := by have := hR.fits; omega
  have hdata := h.buf_log ht
  refine ⟨⟨?_, hR.fits, hR.home, ?_, ?_⟩, ?_, ?_, h.view_eq⟩
  · rw [installBlock_log, installBlock_disk,
      update_of_ne (home_ne_start (hR.home _ (getD_mem ht)) hpos).symm]
    exact hR.head_eq
  · intro i hi
    rw [installBlock_log, installBlock_disk, update_of_ne (h.log_ne_home hi ht)]
    exact hR.log i hi
  · intro c hc hcl
    rw [installBlock_disk, update_of_ne (by rintro rfl; exact hcl (getD_mem ht))]
    exact hR.rest c hc hcl
  · intro i hi hit
    rw [installBlock_log, installBlock_disk]
    by_cases heq : m.log.lh.getD i 0 = m.log.lh.getD tail 0
    · rw [heq, update_self, hdata]
    · have hne : i ≠ tail := by
        rintro rfl
        exact heq rfl
      rw [update_of_ne heq]
      exact h.done i hi (by omega)
  · refine (h.cached.bread.bread).bwrite fun c hc hA => ?_
    obtain ⟨j, hj, hle, rfl⟩ := hA
    refine ⟨j, hj, ?_, rfl⟩
    rcases Nat.lt_or_ge tail j with hlt | hge
    · exact hlt
    · obtain rfl : j = tail := by omega
      exact absurd rfl hc

theorem Installing.finish (h : Installing D V m tail) (ht : m.log.lh.length ≤ tail) :
    Installing D V m m.log.lh.length :=
  ⟨h.recoverable, fun i hi _ => h.done i hi (by omega),
    fun c x hx => (h.cached c x hx).imp id (fun ⟨j, hj, hle, _⟩ => by omega), h.view_eq⟩

/-- After `install_trans` every home block is up to date, and the log can be cleared. -/
theorem Installing.clearHead (h : Installing D V m m.log.lh.length) :
    Clean D V (Machine.writeHead { m with log := { m.log with lh := [] } }) := by
  have hR := h.recoverable
  have hpos : 0 < m.log.size := by have := hR.fits; omega
  refine ⟨?_, ?_, hpos, by simp, by simp, ?_, fun c _ => by rw [h.view_eq]⟩
  · simp [Machine.writeHead, Machine.bwrite]
  · intro c hc
    have hne : c ≠ m.log.start := home_ne_start (m := m) hc hpos
    simp only [Machine.writeHead, Machine.bwrite, update_of_ne hne]
    by_cases hcl : c ∈ m.log.lh
    · obtain ⟨i, hi, rfl⟩ := exists_getD hcl
      exact h.done i hi hi
    · exact hR.rest c hc hcl
  · refine Coherent.bwrite (S := Ahead m m.log.lh.length) h.cached ?_
    rintro c - ⟨j, hj, hle, -⟩
    omega

theorem Recoverable.readHead {l : List ℕ} (h : Recoverable D m l)
    (hc : Coherent m (fun _ => False)) : Installing D D m.readHead 0 := by
  have hl : head (m.buf m.log.start).data = l := by
    rw [hc.buf_eq (by simp)]
    exact h.head_eq
  have hlh : m.readHead.log.lh = l := by simp [Machine.readHead, hl]
  refine ⟨?_, by simp, ?_, rfl⟩
  · rw [hlh]
    exact ⟨h.head_eq, h.fits, h.home, h.log, h.rest⟩
  · exact fun c x hx => (hc.bread c x hx).imp id False.elim

/-- A crash at any point leaves a disk that recovery can use. -/
theorem DiskInv.recoverable (h : DiskInv D V m) : ∃ l, Recoverable D m l := by
  unfold DiskInv at h
  split at h
  · exact h.1
  · exact ⟨_, h.recoverable⟩
  · exact ⟨_, h.1.recoverable⟩
  · exact ⟨_, h.1.recoverable⟩
  · exact ⟨_, h.1.recoverable⟩
  · exact ⟨_, h.recoverable⟩
  · exact ⟨_, h.recoverable⟩

/-! Whole runs. -/

/-- A `log_write` within the space limits: the list of logged blocks still fits the log. -/
def WithinLog (m : Machine) : LogAct → Prop
  | .write _ b _ => (absorb b m.log.lh).length < m.log.size
  | _ => True

section Runs

variable {start size o : ℕ} {disk : ℕ → Block} {as : List LogAct} {a : LogAct} {data : Block}

theorem diskInv_quiet (hq : a.quiet) (h : DiskInv (durable disk as) (view disk as) m) :
    DiskInv (durable disk (as ++ [a])) (view disk (as ++ [a])) m := by
  rwa [view, durable, ledger_quiet hq]

theorem durable_commit : durable disk (as ++ [.commitHead]) = view disk as := by
  simp [durable, view, Ledger.step, applyWrites_append]

theorem view_commit : view disk (as ++ [.commitHead]) = view disk as := by
  rw [view, durable_commit]
  simp [Ledger.step, applyWrites]

theorem durable_crash : durable disk (as ++ [.crash]) = durable disk as := by
  simp [durable, Ledger.step]

theorem view_crash : view disk (as ++ [.crash]) = durable disk as := by
  rw [view, durable_crash]
  simp [Ledger.step, applyWrites]

theorem durable_write : durable disk (as ++ [.write o b data]) = durable disk as := by
  simp [durable, Ledger.step]

theorem view_write : view disk (as ++ [.write o b data]) = update (view disk as) b data := by
  rw [view, durable_write]
  simp [view, Ledger.step, applyWrites]

theorem DiskInv.bread (h : DiskInv D V m) : DiskInv D V (m.bread b) := by
  unfold DiskInv at h ⊢
  rw [bread_phase]
  split at h
  · obtain ⟨⟨l, hl⟩, hc, hv⟩ := h
    exact ⟨⟨l, hl.head_eq, hl.fits, hl.home, hl.log, hl.rest⟩, hc.bread, hv⟩
  · exact h.bread
  · exact ⟨h.1.bread, h.2⟩
  · exact ⟨h.1.bread, h.2⟩
  · exact ⟨h.1.bread, h.2⟩
  · exact h.congr rfl h.cached.bread rfl
  · exact h.congr rfl h.cached.bread rfl

theorem DiskInv.evict (h : DiskInv D V m) (hb : (m.buf b).dirty = false) :
    DiskInv D V { m with cache := update m.cache b none } := by
  unfold DiskInv at h ⊢
  dsimp only
  split at h
  · obtain ⟨⟨l, hl⟩, hc, hv⟩ := h
    exact ⟨⟨l, hl.head_eq, hl.fits, hl.home, hl.log, hl.rest⟩, hc.evict, hv⟩
  · exact h.evict hb
  · exact ⟨h.1.evict hb, h.2⟩
  · exact ⟨h.1.evict hb, h.2⟩
  · exact ⟨h.1.evict hb, h.2⟩
  · exact h.congr rfl h.cached.evict rfl
  · exact h.congr rfl h.cached.evict rfl

theorem DiskInv.clean (h : DiskInv D V m) (hp : m.phase = .run) : Clean D V m := by
  simpa only [DiskInv, hp] using h

/-- What each step does to the disk, against the ledger. -/
theorem diskInv_step (hctl : CtlInv start size as m)
    (h : DiskInv (durable disk as) (view disk as) m) (hs : LogStep m a m') (hg : WithinLog m a) :
    DiskInv (durable disk (as ++ [a])) (view disk (as ++ [a])) m' := by
  cases hs with
  | beginOp hb _ hc _ =>
    have hrun := hctl.run_of_begin hb hc
    refine diskInv_quiet trivial ?_
    rw [DiskInv, setOp_phase, hrun]
    exact (h.clean hrun).congr rfl rfl rfl rfl rfl
  | @check o b ho _ _ _ =>
    have hrun := hctl.run_of_active (o := o) (by rw [ho]; rfl)
    refine diskInv_quiet trivial ?_
    rw [DiskInv, setOp_phase, hrun]
    exact (h.clean hrun).congr rfl rfl rfl rfl rfl
  | @write o b data ho =>
    have hrun := hctl.run_of_active (o := o) (by rw [ho]; rfl)
    rw [durable_write, view_write, DiskInv, setOp_phase, logWrite_phase, hrun]
    exact ((h.clean hrun).logWrite (hctl.home o b ho) hg).congr rfl rfl rfl rfl rfl
  | @endOp o ho _ _ =>
    have hrun := hctl.run_of_active (o := o) (by rw [ho]; rfl)
    refine diskInv_quiet trivial ?_
    rw [DiskInv, setOp_phase, hrun]
    exact (h.clean hrun).congr rfl rfl rfl rfl rfl
  | @endLast o ho _ _ =>
    have hclean := h.clean (hctl.run_of_active (o := o) (by rw [ho]; rfl))
    refine diskInv_quiet trivial ?_
    rw [DiskInv, setOp_phase]
    dsimp only
    split_ifs with hl
    · exact ⟨hclean.congr rfl rfl rfl rfl rfl, hl⟩
    · exact ⟨hclean.congr rfl rfl rfl rfl rfl, List.length_pos_of_ne_nil hl, by simp [Logged]⟩
  | load => exact diskInv_quiet trivial h.bread
  | evict hb => exact diskInv_quiet trivial (h.evict hb)
  | @logBlock tail hp =>
    refine diskInv_quiet trivial ?_
    obtain ⟨hc, ht, hl⟩ : Clean _ _ m ∧ tail < m.log.lh.length ∧ Logged _ m tail := by
      simpa only [DiskInv, hp] using h
    obtain ⟨hc', hl'⟩ := hc.logBlock ht hl
    unfold DiskInv
    dsimp only
    split_ifs with hlast
    · exact ⟨hc'.congr rfl rfl rfl rfl rfl, hlast, hl'⟩
    · exact ⟨hc'.congr rfl rfl rfl rfl rfl, fun i hi _ => hl' i hi (Nat.lt_succ_of_le (by
        have : i < m.log.lh.length := hi
        omega))⟩
  | commitHead hp =>
    rw [durable_commit, view_commit]
    obtain ⟨hc, hl⟩ : Clean _ _ m ∧ Logged _ m m.log.lh.length := by
      simpa only [DiskInv, hp] using h
    exact (hc.commitHead hl).congr rfl (hc.commitHead hl).cached rfl
  | @install r tail hp ht =>
    refine diskInv_quiet trivial ?_
    have hI : Installing (durable disk as) (view disk as) m tail := by
      simpa only [DiskInv, hp] using h
    exact (hI.installBlock ht).congr rfl (hI.installBlock ht).cached rfl
  | @installed r tail hp ht =>
    refine diskInv_quiet trivial ?_
    have hI : Installing (durable disk as) (view disk as) m tail := by
      simpa only [DiskInv, hp] using h
    exact (hI.finish ht).congr rfl (hI.finish ht).cached rfl
  | @clearHead r hp =>
    refine diskInv_quiet trivial ?_
    have hI : Installing (durable disk as) (view disk as) m m.log.lh.length := by
      simpa only [DiskInv, hp] using h
    cases r
    · exact ⟨hI.clearHead.congr rfl rfl rfl rfl rfl, rfl⟩
    · exact hI.clearHead.congr rfl rfl rfl rfl rfl
  | wake hp =>
    refine diskInv_quiet trivial ?_
    obtain ⟨hc, -⟩ : Clean _ _ m ∧ m.log.lh = [] := by simpa only [DiskInv, hp] using h
    exact hc.congr rfl rfl rfl rfl rfl
  | readHead hp =>
    refine diskInv_quiet trivial ?_
    obtain ⟨⟨l, hl⟩, hc, hv⟩ : (∃ l, Recoverable _ m l) ∧ Coherent m (fun _ => False) ∧
        view disk as = durable disk as := by
      simpa only [DiskInv, hp] using h
    rw [hv]
    exact (hl.readHead hc).congr rfl (hl.readHead hc).cached rfl
  | crash =>
    rw [durable_crash, view_crash]
    obtain ⟨l, hl⟩ := h.recoverable
    have hnone : Coherent m.reboot (fun _ => False) := by
      intro b x hx
      cases hx
    exact ⟨⟨l, hl.head_eq, hl.fits, hl.home, hl.log, hl.rest⟩, hnone, rfl⟩

theorem diskInv_run (hsize : 0 < size)
    (h : Run ((logSystem start size disk).restrict WithinLog) as m) :
    DiskInv (durable disk as) (view disk as) m := by
  refine h.invariant (I := fun as m => DiskInv (durable disk as) (view disk as) m) ?_ ?_
  · rintro m ⟨rfl, h0⟩
    refine ⟨⟨[], head_eq_nil h0, hsize, by simp, by simp, fun b _ _ => rfl⟩, ?_, rfl⟩
    intro b x hx
    cases hx
  · intro as m a m' hr ih hs
    exact diskInv_step (ctlInv_run hr.of_restrict) ih (logStep_of_step hs.2) hs.1

/-! Recovery reaches its end. -/

theorem recovery_from {k : ℕ} (h : Run ((logSystem start size disk).restrict WithinLog) as m)
    (hp : m.phase = .install true tail) (hk : m.log.lh.length - tail = k) :
    ∃ bs m', Run ((logSystem start size disk).restrict WithinLog) (as ++ bs) m' ∧ m'.phase = .run := by
  induction k generalizing as m tail with
  | zero =>
    have h1 := h.snoc (a := LogAct.install) ⟨trivial, by
      simp only [logSystem, Machine.step, hp]
      rw [if_neg (by omega)]⟩
    have h2 := h1.snoc (a := LogAct.clearHead) ⟨trivial, rfl⟩
    exact ⟨[.install, .clearHead], _, by simpa using h2, rfl⟩
  | succ k ih =>
    have h1 := h.snoc (a := LogAct.install) ⟨trivial, by
      simp only [logSystem, Machine.step, hp]
      rw [if_pos (by omega)]⟩
    obtain ⟨bs, m', hr, hp'⟩ := ih h1 rfl (by simp; omega)
    exact ⟨.install :: bs, m', by simpa using hr, hp'⟩

theorem recovery_completes (h : Run ((logSystem start size disk).restrict WithinLog) as m)
    (hp : m.phase = .boot) :
    ∃ bs m', Run ((logSystem start size disk).restrict WithinLog) (as ++ bs) m' ∧ m'.phase = .run := by
  have h1 := h.snoc (a := LogAct.readHead) ⟨trivial, by
    simp only [logSystem, Machine.step]
    rw [if_pos hp]⟩
  obtain ⟨bs, m', hr, hp'⟩ := recovery_from h1 rfl rfl
  exact ⟨.readHead :: bs, m', by simpa using hr, hp'⟩

end Runs

/-- Crash atomicity, for a log of any place and size. After a crash recovery can finish, and
wherever it has finished the home blocks are those of the last commit that reached the disk. The
writes of an operation are all in there or none is, and a commit takes in no operation that has not
ended. -/
theorem crash_atomicity (start size : ℕ) (hsize : 0 < size) (disk : ℕ → Block) (as : List LogAct)
    (m : Machine) (h : Run ((logSystem start size disk).restrict WithinLog) as m) :
    (m.phase = .run → ∀ b, m.log.home b → m.disk b = applyWrites disk (ledger as).committed b) ∧
    (m.phase = .boot → ∃ bs m', Run ((logSystem start size disk).restrict WithinLog) (as ++ bs) m' ∧
      m'.phase = .run) ∧
    (∀ o, ofOp o (ledger as).committed = writesOf o as ∨ ofOp o (ledger as).committed = []) ∧
    (∀ as₁ as₂, as = as₁ ++ .commitHead :: as₂ →
      ∀ w ∈ (ledger as₁).pending, LogAct.endOp w.op ∈ as₁) := by
  refine ⟨fun hp b hb => ((diskInv_run hsize h).clean hp).disk b hb, recovery_completes h, ?_, ?_⟩
  · intro o
    rcases (ledgerInv_run h.of_restrict).whole o with ⟨h1, -⟩ | ⟨h1, -⟩
    · exact Or.inr h1
    · exact Or.inl h1
  · rintro as₁ as₂ rfl w hw
    obtain ⟨m₁, m₂, hr, hs⟩ := h.of_restrict.cut
    have hctl := ctlInv_run hr
    have hidle : active as₁ = [] := by
      cases logStep_of_step hs with
      | commitHead hp => exact hctl.idle (by simp [hp])
    have hended := (ledgerInv_run hr).ended w hw
    rw [hidle] at hended
    exact hended.resolve_left (by simp)

/-- A disk with an empty log. -/
def blankDisk : ℕ → Block := fun _ _ => 0

/-- An operation writes block 100 and commits; the machine crashes right after the header write,
and once more when recovery has copied the block. -/
def crashActs : List LogAct :=
  [.readHead, .install, .clearHead, .beginOp 0, .check 0 100, .write 0 100 fun _ => 7, .endOp 0,
   .logBlock, .commitHead, .crash, .readHead, .install, .crash, .readHead, .install, .install, .clearHead]

instance (m : Machine) (a : LogAct) : Decidable (WithinLog m a) := by
  cases a <;> unfold WithinLog <;> infer_instance

/-- A step within the space limits. -/
def Machine.nextWithin (m : Machine) (a : LogAct) : Option Machine :=
  if WithinLog m a then m.next a else none

theorem step_of_nextWithin {start size : ℕ} {disk : ℕ → Block} {a : LogAct}
    (h : m.nextWithin a = some m') : ((logSystem start size disk).restrict WithinLog).step m a m' := by
  unfold Machine.nextWithin at h
  split_ifs at h with hw
  exact ⟨hw, step_of_next h⟩

theorem crash_atomicity_two_crashes :
    ∃ m, Run ((logSystem 2 30 blankDisk).restrict WithinLog) crashActs m ∧ m.phase = .run ∧
      m.disk 100 = applyWrites blankDisk (ledger crashActs).committed 100 := by
  obtain ⟨m, hm, hp, hl⟩ : ∃ m, crashActs.foldlM Machine.nextWithin
      ({ disk := blankDisk, log := { start := 2, size := 30 } } : Machine) = some m ∧
      m.phase = .run ∧ m.log.home 100 := ⟨_, rfl, rfl, by decide⟩
  have hr : Run ((logSystem 2 30 blankDisk).restrict WithinLog) crashActs m :=
    Run.of_foldlM (fun _ _ _ => step_of_nextWithin) ⟨rfl, rfl⟩ hm
  exact ⟨m, hr, hp, (crash_atomicity 2 30 (by decide) blankDisk crashActs m hr).1 hp 100 hl⟩

end Xv6

import Xv6.Spec.Log
import Mathlib.Tactic.Common

/-! What a step of the log does, and who runs when: an operation is counted in `outstanding` from
`begin_op` to `end_op`, and the disk is only written when none is. -/

namespace Xv6

open Trace

section Fields

variable (m : Machine) (o b t : ℕ) (x : OpState) (data : Block)

@[simp] theorem setOp_log : (m.setOp o x).log = m.log := rfl
@[simp] theorem setOp_phase : (m.setOp o x).phase = m.phase := rfl
@[simp] theorem setOp_ops : (m.setOp o x).ops = Function.update m.ops o x := rfl

@[simp] theorem bread_disk : (m.bread b).disk = m.disk := rfl
@[simp] theorem bread_log : (m.bread b).log = m.log := rfl
@[simp] theorem bread_phase : (m.bread b).phase = m.phase := rfl
@[simp] theorem logWrite_phase : (m.logWrite b data).phase = m.phase := rfl
@[simp] theorem logWrite_ops : (m.logWrite b data).ops = m.ops := rfl

@[simp] theorem writeHead_log : m.writeHead.log = m.log := rfl
@[simp] theorem logBlock_log : (m.logBlock t).log = m.log := rfl
@[simp] theorem installBlock_log : (m.installBlock t).log = m.log := rfl
end Fields

/-- The steps that return, one constructor for each way. -/
inductive LogStep (m : Machine) : LogAct → Machine → Prop where
  | beginOp {o : ℕ} (hb : m.phase.booted) (ho : m.ops o = .new) (hc : m.log.committing = false)
      (hs : m.log.lh.length + (m.log.outstanding + 1) * MAXOPBLOCKS ≤ LOGSIZE) :
      LogStep m (.beginOp o)
        ({ m with log := { m.log with outstanding := m.log.outstanding + 1 } }.setOp o .running)
  | check {o b : ℕ} (ho : m.ops o = .running) (hb : m.log.home b) (hn : m.log.lh.length < m.log.size - 1)
      (hl : m.log.lh.length < LOGSIZE) : LogStep m (.check o b) (m.setOp o (.checked b))
  | write {o b : ℕ} {data : Block} (ho : m.ops o = .checked b) :
      LogStep m (.write o b data) ((m.logWrite b data).setOp o .running)
  | endOp {o : ℕ} (ho : m.ops o = .running) (hc : m.log.committing = false)
      (hn : m.log.outstanding - 1 ≠ 0) : LogStep m (.endOp o)
        ({ m with log := { m.log with outstanding := m.log.outstanding - 1 } }.setOp o .done)
  | endLast {o : ℕ} (ho : m.ops o = .running) (hc : m.log.committing = false)
      (hn : m.log.outstanding - 1 = 0) : LogStep m (.endOp o)
        ({ m with
            log := { m.log with outstanding := m.log.outstanding - 1, committing := true }
            phase := if m.log.lh = [] then .wake else .writeLog 0 }.setOp o .done)
  | load {b : ℕ} : LogStep m (.load b) (m.bread b)
  | evict {b : ℕ} (hb : (m.buf b).dirty = false) :
      LogStep m (.evict b) { m with cache := Function.update m.cache b none }
  | logBlock {tail : ℕ} (hp : m.phase = .writeLog tail) : LogStep m .logBlock
      { m.logBlock tail with
        phase := if tail + 1 < m.log.lh.length then .writeLog (tail + 1) else .writeHead }
  | commitHead (hp : m.phase = .writeHead) :
      LogStep m .commitHead { m.writeHead with phase := .install false 0 }
  | install {r : Bool} {tail : ℕ} (hp : m.phase = .install r tail) (ht : tail < m.log.lh.length) :
      LogStep m .install { m.installBlock tail with phase := .install r (tail + 1) }
  | installed {r : Bool} {tail : ℕ} (hp : m.phase = .install r tail) (ht : m.log.lh.length ≤ tail) :
      LogStep m .install { m with phase := .clear r }
  | clearHead {r : Bool} (hp : m.phase = .clear r) : LogStep m .clearHead
      { Machine.writeHead { m with log := { m.log with lh := [] } } with
        phase := if r then .run else .wake }
  | wake (hp : m.phase = .wake) :
      LogStep m .wake { m with phase := .run, log := { m.log with committing := false } }
  | readHead (hp : m.phase = .boot) : LogStep m .readHead { m.readHead with phase := .install true 0 }
  | crash : LogStep m .crash m.reboot

theorem logStep_of_step {m m' : Machine} {a : LogAct} (h : m.step a = some (.ok m')) :
    LogStep m a m' := by
  cases a with
  | beginOp o =>
    simp only [Machine.step, beginOp] at h
    split_ifs at h with h1 h2 h3
    all_goals cases h
    exact .beginOp h1.1 h1.2 (by simpa using h2) (by omega)
  | check o b =>
    simp only [Machine.step, logCheck] at h
    split_ifs at h with h1 h2 h3
    all_goals cases h
    exact .check h1.1 h1.2 (by omega) (by omega)
  | write o b data =>
    simp only [Machine.step] at h
    split_ifs at h with h1
    cases h
    exact .write h1
  | endOp o =>
    simp only [Machine.step, endOp] at h
    split_ifs at h with h1 h2 h3
    all_goals cases h
    · exact .endLast h1 (by simpa using h2) h3
    · beta_reduce
      rw [if_neg h2]
      exact .endOp h1 (by simpa using h2) h3
  | load b => cases h; exact .load
  | evict b =>
    simp only [Machine.step] at h
    split_ifs at h with h1
    cases h
    exact .evict (by simpa using h1)
  | logBlock =>
    simp only [Machine.step] at h
    split at h
    all_goals cases h
    exact .logBlock ‹_›
  | commitHead =>
    simp only [Machine.step] at h
    split_ifs at h with h1
    cases h
    exact .commitHead h1
  | install =>
    simp only [Machine.step] at h
    split at h
    · split_ifs at h with h1
      all_goals cases h
      · exact .install ‹_› h1
      · exact .installed ‹_› (by omega)
    · cases h
  | clearHead =>
    simp only [Machine.step] at h
    split at h
    all_goals cases h
    exact .clearHead ‹_›
  | wake =>
    simp only [Machine.step] at h
    split_ifs at h with h1
    cases h
    exact .wake h1
  | readHead =>
    simp only [Machine.step] at h
    split_ifs at h with h1
    cases h
    exact .readHead h1
  | crash => cases h; exact .crash

theorem step_of_next {m m' : Machine} {a : LogAct} (h : m.next a = some m') :
    m.step a = some (.ok m') := by
  unfold Machine.next at h
  split at h
  · cases h
    assumption
  · cases h

def OpState.active : OpState → Bool
  | .running | .checked _ => true
  | _ => false

/-- In the middle of `commit`. -/
def Phase.commits : Phase → Bool
  | .writeLog _ | .writeHead | .install false _ | .clear false | .wake => true
  | _ => false

/-- The operations between `begin_op` and `end_op`. -/
def active (as : List LogAct) : List ℕ :=
  as.foldl (fun act a => match a with
    | .beginOp o => o :: act
    | .endOp o => act.erase o
    | .crash => []
    | _ => act) []

@[simp] theorem active_snoc (as : List LogAct) (a : LogAct) :
    active (as ++ [a]) = match a with
      | .beginOp o => o :: active as
      | .endOp o => (active as).erase o
      | .crash => []
      | _ => active as := by
  simp [active]

@[simp] theorem ledger_snoc (as : List LogAct) (a : LogAct) :
    ledger (as ++ [a]) = (ledger as).step a := by
  simp [ledger]

@[simp] theorem writesOf_snoc (o : ℕ) (as : List LogAct) (a : LogAct) :
    writesOf o (as ++ [a]) = writesOf o as ++ match a with
      | .write o' b data => if o' = o then [⟨o', b, data⟩] else []
      | _ => [] := by
  cases a with
  | write o' b data => by_cases h : o' = o <;> simp [writesOf, h]
  | _ => simp [writesOf]

theorem mem_absorb {b x : ℕ} {l : List ℕ} : x ∈ absorb b l ↔ x = b ∨ x ∈ l := by
  induction l with
  | nil => simp [absorb]
  | cons a l ih =>
    unfold absorb
    split_ifs with h
    · subst h
      simp
    · simp only [List.mem_cons, ih]
      tauto

/-- Who is active, and how that shows in the log's own counters. -/
structure CtlInv (start size : ℕ) (as : List LogAct) (m : Machine) : Prop where
  start_eq : m.log.start = start
  size_eq : m.log.size = size
  mem : ∀ o, (m.ops o).active = true ↔ o ∈ active as
  nodup : (active as).Nodup
  count : m.log.outstanding = (active as).length
  idle : m.phase ≠ .run → active as = []
  committing : m.log.committing = m.phase.commits
  home : ∀ o b, m.ops o = .checked b → m.log.home b

section Control

variable {start size : ℕ} {as : List LogAct} {m m' : Machine} {a : LogAct} {o : ℕ}

theorem CtlInv.run_of_active (h : CtlInv start size as m) (ho : (m.ops o).active = true) :
    m.phase = .run := by
  by_contra hp
  have hmem := (h.mem o).mp ho
  rw [h.idle hp] at hmem
  simp at hmem

theorem CtlInv.run_of_begin (h : CtlInv start size as m) (hb : m.phase.booted)
    (hc : m.log.committing = false) : m.phase = .run := by
  have hcm := h.committing
  rw [hc] at hcm
  cases hp : m.phase with
  | run => rfl
  | install r t => cases r <;> simp [hp, Phase.booted, Phase.commits] at hb hcm
  | clear r => cases r <;> simp [hp, Phase.booted, Phase.commits] at hb hcm
  | _ => simp [hp, Phase.booted, Phase.commits] at hb hcm

/-- A step that leaves the operations and the counters alone, within a phase of one kind. -/
theorem CtlInv.quiet (h : CtlInv start size as m) (has : active (as ++ [a]) = active as)
    (hops : m'.ops = m.ops) (hstart : m'.log.start = m.log.start) (hsize : m'.log.size = m.log.size)
    (hout : m'.log.outstanding = m.log.outstanding) (hidle : m'.phase ≠ .run → m.phase ≠ .run)
    (hcom : m'.log.committing = m'.phase.commits) : CtlInv start size (as ++ [a]) m' where
  start_eq := hstart.trans h.start_eq
  size_eq := hsize.trans h.size_eq
  mem o := by rw [hops, has]; exact h.mem o
  nodup := by rw [has]; exact h.nodup
  count := by rw [hout, has]; exact h.count
  idle hp := by rw [has]; exact h.idle (hidle hp)
  committing := hcom
  home o b hob := by
    rw [hops] at hob
    simpa only [Log.home, hstart, hsize] using h.home o b hob

theorem CtlInv.beginOp (h : CtlInv start size as m) (hb : m.phase.booted) (ho : m.ops o = .new)
    (hc : m.log.committing = false) : CtlInv start size (as ++ [.beginOp o])
      ({ m with log := { m.log with outstanding := m.log.outstanding + 1 } }.setOp o .running) := by
  have hrun := h.run_of_begin hb hc
  have hnot : o ∉ active as := by
    rw [← h.mem, ho]
    simp [OpState.active]
  refine ⟨h.start_eq, h.size_eq, ?_, ?_, ?_, fun hp => absurd hrun hp, h.committing, ?_⟩
  · intro o'
    by_cases ho' : o' = o
    · simp [ho', OpState.active]
    · simpa [ho'] using h.mem o'
  · simpa [hnot] using h.nodup
  · simp [h.count]
  · intro o' b hob
    by_cases ho' : o' = o
    · simp [ho'] at hob
    · exact h.home o' b (by simpa [ho'] using hob)

/-- An active operation takes a step and stays active. -/
theorem CtlInv.stay (h : CtlInv start size as m) (ho : (m.ops o).active = true) {x : OpState}
    (hx : x.active = true) (hxb : ∀ b, x = .checked b → m.log.home b)
    (has : active (as ++ [a]) = active as) : CtlInv start size (as ++ [a]) (m.setOp o x) := by
  refine ⟨h.start_eq, h.size_eq, ?_, has ▸ h.nodup, ?_, ?_, h.committing, ?_⟩
  · intro o'
    by_cases ho' : o' = o
    · simp [ho', hx, has, (h.mem o).mp ho]
    · simpa [ho', has] using h.mem o'
  · rw [has]
    exact h.count
  · intro hp
    rw [has]
    exact h.idle hp
  · intro o' b hob
    by_cases ho' : o' = o
    · exact hxb b (by simpa [ho'] using hob)
    · exact h.home o' b (by simpa [ho'] using hob)

theorem CtlInv.endOp (h : CtlInv start size as m) (ho : m.ops o = .running) {com : Bool} {ph : Phase}
    (hidle : ph ≠ .run → m.log.outstanding - 1 = 0) (hcom : com = ph.commits) :
    CtlInv start size (as ++ [.endOp o])
      ({ m with
          log := { m.log with outstanding := m.log.outstanding - 1, committing := com }
          phase := ph }.setOp o .done) := by
  have hmem : o ∈ active as := (h.mem o).mp (by simp [ho, OpState.active])
  have hlen : ((active as).erase o).length = m.log.outstanding - 1 := by
    rw [List.length_erase_of_mem hmem, h.count]
  refine ⟨h.start_eq, h.size_eq, ?_, ?_, ?_, ?_, hcom, ?_⟩
  · intro o'
    by_cases ho' : o' = o
    · simp [ho', OpState.active, h.nodup.not_mem_erase]
    · simpa [ho', List.mem_erase_of_ne ho'] using h.mem o'
  · simpa using h.nodup.erase o
  · simp [hlen]
  · intro hp
    have h0 := hidle hp
    rw [← hlen] at h0
    simpa using List.length_eq_zero_iff.mp h0
  · intro o' b hob
    by_cases ho' : o' = o
    · simp [ho'] at hob
    · exact h.home o' b (by simpa [ho'] using hob)

theorem CtlInv.crash (h : CtlInv start size as m) : CtlInv start size (as ++ [.crash]) m.reboot := by
  refine ⟨h.start_eq, h.size_eq, ?_, by simp, by simp [Machine.reboot], by simp, rfl, ?_⟩
  · intro o
    by_cases ho : m.ops o = .new <;> simp [Machine.reboot, ho, OpState.active]
  · intro o b hob
    by_cases ho : m.ops o = .new <;> simp [Machine.reboot, ho] at hob

theorem ctlInv_step (h : CtlInv start size as m) (hs : LogStep m a m') :
    CtlInv start size (as ++ [a]) m' := by
  have hcom := h.committing
  cases hs with
  | beginOp hb ho hc _ => exact h.beginOp hb ho hc
  | check ho hb _ _ =>
    exact h.stay (by simp [ho, OpState.active]) (by rfl) (by rintro b ⟨⟩; exact hb) (by simp)
  | @write o b data ho =>
    have hl : CtlInv start size as (m.logWrite b data) :=
      ⟨h.start_eq, h.size_eq, h.mem, h.nodup, h.count, h.idle, h.committing, h.home⟩
    exact hl.stay (by simp [ho, OpState.active]) (by rfl) (by simp) (by simp)
  | endOp ho _ _ =>
    have hrun := h.run_of_active (o := _) (by rw [ho]; rfl)
    exact h.endOp ho (fun hp => absurd hrun hp) hcom
  | endLast ho _ hn => exact h.endOp ho (fun _ => hn) (by split_ifs <;> rfl)
  | load => exact h.quiet (by simp) rfl rfl rfl rfl id hcom
  | evict _ => exact h.quiet (by simp) rfl rfl rfl rfl id hcom
  | logBlock hp =>
    refine h.quiet (by simp) rfl rfl rfl rfl (by simp [hp]) ?_
    rw [hp] at hcom
    split_ifs <;> exact hcom
  | commitHead hp => exact h.quiet (by simp) rfl rfl rfl rfl (by simp [hp]) (by rw [hp] at hcom; exact hcom)
  | @install r _ hp _ =>
    exact h.quiet (by simp) rfl rfl rfl rfl (by simp [hp]) (by rw [hp] at hcom; cases r <;> exact hcom)
  | @installed r _ hp _ =>
    exact h.quiet (by simp) rfl rfl rfl rfl (by simp [hp]) (by rw [hp] at hcom; cases r <;> exact hcom)
  | @clearHead r hp =>
    exact h.quiet (by simp) rfl rfl rfl rfl (by simp [hp]) (by rw [hp] at hcom; cases r <;> exact hcom)
  | wake hp => exact h.quiet (by simp) rfl rfl rfl rfl (by simp) rfl
  | readHead hp => exact h.quiet (by simp) rfl rfl rfl rfl (by simp [hp]) (by rw [hp] at hcom; exact hcom)
  | crash => exact h.crash

theorem ctlInv_run {disk : ℕ → Block} (h : Run (logSystem start size disk) as m) :
    CtlInv start size as m := by
  refine h.invariant ?_ (fun _ _ _ _ _ ih hs => ctlInv_step ih (logStep_of_step hs))
  rintro m ⟨rfl, -⟩
  exact ⟨rfl, rfl, by simp [active, OpState.active], by simp [active], rfl, fun _ => rfl, rfl, by simp⟩

end Control

section Ledger

variable {start size : ℕ} {disk : ℕ → Block} {as : List LogAct} {m m' : Machine} {a : LogAct}

/-- A step that logs nothing, commits nothing and is not a crash. -/
def LogAct.quiet : LogAct → Prop
  | .write _ _ _ | .commitHead | .crash => False
  | _ => True

theorem ledger_quiet (h : a.quiet) : ledger (as ++ [a]) = ledger as := by
  cases a <;> first | exact h.elim | simp [Ledger.step]

/-! Whose updates a commit makes durable. -/

theorem LogStep.ops_mono (hs : LogStep m a m') (o : ℕ) :
    (m.ops o = .done → m'.ops o = .done) ∧ (m'.ops o = .new → m.ops o = .new) := by
  cases hs with
  | @beginOp o' _ ho _ _ => by_cases h : o = o' <;> simp [h, ho]
  | @check o' _ ho _ _ _ => by_cases h : o = o' <;> simp [h, ho]
  | @write o' _ _ ho => by_cases h : o = o' <;> simp [h, ho]
  | @endOp o' ho _ _ => by_cases h : o = o' <;> simp [h, ho]
  | @endLast o' ho _ _ => by_cases h : o = o' <;> simp [h, ho]
  | crash => by_cases h : m.ops o = .new <;> simp [Machine.reboot, h]
  | _ => exact ⟨id, id⟩

/-- The writes of operation `o` in a list. -/
def ofOp (o : ℕ) (ws : List Write) : List Write := ws.filter fun w => w.op = o

theorem ofOp_append (o : ℕ) (xs ys : List Write) : ofOp o (xs ++ ys) = ofOp o xs ++ ofOp o ys :=
  List.filter_append xs ys

structure LedgerInv (as : List LogAct) (m : Machine) : Prop where
  ended : ∀ w ∈ (ledger as).pending, w.op ∈ active as ∨ LogAct.endOp w.op ∈ as
  fresh : ∀ o, m.ops o = .new → writesOf o as = []
  whole : ∀ o, (ofOp o (ledger as).committed = [] ∧ (ofOp o (ledger as).pending = writesOf o as ∨
      (m.ops o = .done ∧ ofOp o (ledger as).pending = []))) ∨
    (ofOp o (ledger as).committed = writesOf o as ∧ ofOp o (ledger as).pending = [] ∧ m.ops o = .done)

theorem LedgerInv.quiet (h : LedgerInv as m) (hq : a.quiet) (hs : LogStep m a m')
    (hact : ∀ o ∈ active as, o ∈ active (as ++ [a]) ∨ a = .endOp o) : LedgerInv (as ++ [a]) m' := by
  have hw : ∀ o, writesOf o (as ++ [a]) = writesOf o as := by
    intro o
    cases a <;> first | exact hq.elim | simp
  have hmono := hs.ops_mono
  refine ⟨?_, fun o ho => by rw [hw]; exact h.fresh o ((hmono o).2 ho), ?_⟩
  · rw [ledger_quiet hq]
    intro w hwp
    rcases h.ended w hwp with ho | ho
    · rcases hact _ ho with ho' | rfl
      · exact Or.inl ho'
      · simp
    · exact Or.inr (by simp [ho])
  · intro o
    rw [ledger_quiet hq, hw]
    rcases h.whole o with ⟨h1, h2 | ⟨h2, h3⟩⟩ | ⟨h1, h2, h3⟩
    · exact Or.inl ⟨h1, Or.inl h2⟩
    · exact Or.inl ⟨h1, Or.inr ⟨(hmono o).1 h2, h3⟩⟩
    · exact Or.inr ⟨h1, h2, (hmono o).1 h3⟩

theorem ledgerInv_step (hctl : CtlInv start size as m) (h : LedgerInv as m) (hs : LogStep m a m') :
    LedgerInv (as ++ [a]) m' := by
  have hs' := hs
  cases hs with
  | @write o b data ho =>
    have hact : o ∈ active as := (hctl.mem o).mp (by rw [ho]; rfl)
    refine ⟨?_, ?_, ?_⟩
    · intro w hw
      have hw' : w ∈ (ledger as).pending ∨ w = ⟨o, b, data⟩ := by simpa [Ledger.step] using hw
      rcases hw' with hw | rfl
      · exact (h.ended w hw).imp (by simp) (fun he => by simp [he])
      · exact Or.inl (by simpa using hact)
    · intro o' ho'
      have hne : o ≠ o' := by
        rintro rfl
        simp at ho'
      rw [writesOf_snoc, h.fresh o' ((hs'.ops_mono o').2 ho')]
      simp [hne]
    · intro o'
      by_cases heq : o = o'
      · subst heq
        rcases h.whole o with ⟨h1, h2 | ⟨h2, -⟩⟩ | ⟨-, -, h3⟩
        · exact Or.inl ⟨by simpa [Ledger.step] using h1, Or.inl (by
            simp only [ledger_snoc, Ledger.step, writesOf_snoc, if_true]
            rw [← h2]
            simp [ofOp])⟩
        · rw [ho] at h2
          cases h2
        · rw [ho] at h3
          cases h3
      · have := h.whole o'
        simpa [Ledger.step, ofOp, heq, Function.update_of_ne (Ne.symm heq)] using this
  | commitHead hp =>
    have hnone : active as = [] := hctl.idle (by simp [hp])
    refine ⟨by simp [Ledger.step], ?_, ?_⟩
    · intro o ho
      simpa using h.fresh o ho
    · intro o
      have hw : writesOf o (as ++ [.commitHead]) = writesOf o as := by simp
      simp only [ledger_snoc, Ledger.step, hw, ofOp_append]
      rcases h.whole o with ⟨h1, h2 | ⟨h2, h3⟩⟩ | ⟨h1, h2, h3⟩
      · have hno : (m.ops o).active ≠ true := by
          rw [Ne, hctl.mem, hnone]
          simp
        by_cases hd : m.ops o = .done
        · exact Or.inr ⟨by rw [h1, List.nil_append, h2], rfl, hd⟩
        · have hnew : m.ops o = .new := by
            cases hop : m.ops o <;> simp [hop, OpState.active] at hno hd ⊢
          have h0 := h.fresh o hnew
          exact Or.inl ⟨by rw [h1, List.nil_append, h2, h0], Or.inl h0.symm⟩
      · exact Or.inl ⟨by rw [h1, h3, List.nil_append], Or.inr ⟨h2, rfl⟩⟩
      · exact Or.inr ⟨by rw [h1, h2, List.append_nil], rfl, h3⟩
  | crash =>
    refine ⟨by simp [Ledger.step], ?_, ?_⟩
    · intro o ho
      simpa using h.fresh o ((hs'.ops_mono o).2 ho)
    · intro o
      have hw : writesOf o (as ++ [.crash]) = writesOf o as := by simp
      simp only [ledger_snoc, Ledger.step, hw]
      rcases h.whole o with ⟨h1, -⟩ | ⟨h1, -, h3⟩
      · by_cases hn : m.ops o = .new
        · exact Or.inl ⟨h1, Or.inl (h.fresh o hn).symm⟩
        · exact Or.inl ⟨h1, Or.inr ⟨by simp [Machine.reboot, hn], rfl⟩⟩
      · exact Or.inr ⟨h1, rfl, (hs'.ops_mono o).1 h3⟩
  | @endOp o _ _ _ =>
    refine h.quiet trivial hs' fun o' ho' => ?_
    by_cases heq : o' = o
    · exact Or.inr (by rw [heq])
    · exact Or.inl (by simpa using (List.mem_erase_of_ne heq).mpr ho')
  | @endLast o _ _ _ =>
    refine h.quiet trivial hs' fun o' ho' => ?_
    by_cases heq : o' = o
    · exact Or.inr (by rw [heq])
    · exact Or.inl (by simpa using (List.mem_erase_of_ne heq).mpr ho')
  | _ => exact h.quiet trivial hs' (fun o ho => Or.inl (by simp [ho]))

theorem ledgerInv_run (h : Run (logSystem start size disk) as m) : LedgerInv as m := by
  refine h.invariant ?_
    (fun _ _ _ _ hr ih hs => ledgerInv_step (ctlInv_run hr) ih (logStep_of_step hs))
  rintro m ⟨rfl, -⟩
  exact ⟨by simp [ledger], by simp [writesOf], fun o => Or.inl ⟨rfl, Or.inl rfl⟩⟩

end Ledger

end Xv6

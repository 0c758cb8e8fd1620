import Xv6.Proofs.Log
import Mathlib.Data.Finset.Card
import Mathlib.Algebra.Order.BigOperators.Group.List
import Mathlib.Algebra.Order.Group.Nat

/-! Whether the log has room. `begin_op` reserves `MAXOPBLOCKS` for every operation out of `LOGSIZE`
blocks, and that is enough for `LOGSIZE`; but one block of the `LOGSIZE` that `mkfs` gives to the
log is its header, and `log_write` panics one block earlier. -/

namespace Xv6

open Trace List

variable {start size : ℕ} {disk : ℕ → Block} {as : List LogAct} {m m' : Machine} {a : LogAct} {o b : ℕ} {l : List ℕ}
  {data : Block}

theorem absorb_of_mem (h : b ∈ l) : absorb b l = l := by
  induction l with
  | nil => simp at h
  | cons a l ih =>
    unfold absorb
    split_ifs with hab
    · rw [hab]
    · rw [ih ((mem_cons.mp h).resolve_left (Ne.symm hab))]

theorem absorb_of_not_mem (h : b ∉ l) : absorb b l = l ++ [b] := by
  induction l with
  | nil => rfl
  | cons a l ih =>
    simp only [mem_cons, not_or] at h
    rw [absorb, if_neg (Ne.symm h.1), ih h.2, cons_append]

theorem absorb_nodup (h : l.Nodup) : (absorb b l).Nodup := by
  by_cases hb : b ∈ l
  · rwa [absorb_of_mem hb]
  · rw [absorb_of_not_mem hb, nodup_append]
    simp only [mem_singleton, nodup_cons, not_mem_nil, not_false_iff, nodup_nil,
      and_self, true_and, h]
    rintro x hx y rfl rfl
    exact hb hx

@[simp] theorem callsOf_snoc (o : ℕ) (as : List LogAct) (a : LogAct) :
    callsOf o (as ++ [a]) = callsOf o as ++ match a with
      | .check o' b => if o' = o then [b] else []
      | _ => [] := by
  cases a with
  | check o' b => by_cases h : o' = o <;> simp [callsOf, h]
  | _ => simp [callsOf]

/-- In these phases the list of logged blocks is that of the current transaction. -/
def Phase.gathers : Phase → Bool
  | .run | .writeLog _ | .writeHead | .wake => true
  | _ => false

/-- The list of logged blocks, against the ledger. -/
structure ListInv (as : List LogAct) (m : Machine) : Prop where
  nodup : m.phase.gathers = true → m.log.lh.Nodup
  mem : m.phase.gathers = true → ∀ b, b ∈ m.log.lh ↔ b ∈ logged as
  rest : m.phase.gathers = false → (ledger as).pending = []
  called : ∀ o, ∀ w ∈ writesOf o as, w.block ∈ callsOf o as
  checked : ∀ o b, m.ops o = .checked b → b ∈ callsOf o as

theorem logged_quiet (h : a.quiet) : logged (as ++ [a]) = logged as := by rw [logged, ledger_quiet h, logged]

theorem logged_write : logged (as ++ [.write o b data]) = insert b (logged as) := by
  ext x
  simp [logged, Ledger.step]

theorem callsOf_mono {x : ℕ} (h : x ∈ callsOf o as) : x ∈ callsOf o (as ++ [a]) := by
  rw [callsOf_snoc]
  exact mem_append_left _ h

/-- A step that leaves the list of logged blocks and the kind of phase alone. -/
theorem ListInv.quiet (h : ListInv as m) (hq : a.quiet) (hlh : m'.log.lh = m.log.lh)
    (hg : m'.phase.gathers = m.phase.gathers)
    (hck : ∀ o b, m'.ops o = .checked b → b ∈ callsOf o (as ++ [a])) : ListInv (as ++ [a]) m' where
  nodup hp := by rw [hlh]; exact h.nodup (hg ▸ hp)
  mem hp b := by rw [hlh, logged_quiet hq]; exact h.mem (hg ▸ hp) b
  rest hp := by rw [ledger_quiet hq]; exact h.rest (hg ▸ hp)
  called o w hw := by
    have hw' : w ∈ writesOf o as := by
      cases a <;> first | exact hq.elim | simpa using hw
    exact callsOf_mono (h.called o w hw')
  checked := hck

theorem listInv_step (hctl : CtlInv start size as m) (h : ListInv as m) (hs : LogStep m a m') :
    ListInv (as ++ [a]) m' := by
  have hck : ∀ o b, m.ops o = .checked b → b ∈ callsOf o (as ++ [a]) :=
    fun o b ho => callsOf_mono (h.checked o b ho)
  -- an operation that moves on is no longer inside the `log_write` it was in
  have hset : ∀ {o x}, (∀ b, x ≠ .checked b) → ∀ o' b, Function.update m.ops o x o' = .checked b →
      b ∈ callsOf o' (as ++ [a]) := by
    intro o x hx o' b ho'
    by_cases heq : o' = o
    · simp only [heq, Function.update_self] at ho'
      exact absurd ho' (hx b)
    · exact hck o' b (by simpa [heq] using ho')
  cases hs with
  | beginOp _ _ _ _ => exact h.quiet trivial rfl rfl (hset (by simp))
  | @check o b ho _ _ _ =>
    refine h.quiet trivial rfl rfl fun o' b' ho' => ?_
    by_cases heq : o' = o
    · obtain rfl : b = b' := by simpa [heq] using ho'
      simp [heq]
    · exact hck o' b' (by simpa [heq] using ho')
  | @write o b data ho =>
    have hrun := hctl.run_of_active (o := o) (by rw [ho]; rfl)
    have hgat : m.phase.gathers = true := by rw [hrun]; rfl
    refine ⟨fun _ => absorb_nodup (h.nodup hgat), ?_, ?_, ?_, hset (by simp)⟩
    · intro _ c
      rw [logged_write, Finset.mem_insert, ← h.mem hgat]
      exact mem_absorb
    · intro hp
      simp [hgat] at hp
    · intro o' w hw
      by_cases heq : o = o'
      · subst heq
        have hw' : w ∈ writesOf o as ∨ w = ⟨o, b, data⟩ := by simpa using hw
        rcases hw' with hw | rfl
        · exact callsOf_mono (h.called o w hw)
        · exact callsOf_mono (h.checked o b ho)
      · exact callsOf_mono (h.called o' w (by simpa [heq] using hw))
  | @endOp o ho _ _ => exact h.quiet trivial rfl rfl (hset (by simp))
  | @endLast o ho _ _ =>
    have hrun := hctl.run_of_active (o := o) (by rw [ho]; rfl)
    refine h.quiet trivial rfl ?_ (hset (by simp))
    rw [setOp_phase, hrun]
    dsimp only
    split_ifs <;> rfl
  | load => exact h.quiet trivial rfl rfl hck
  | evict _ => exact h.quiet trivial rfl rfl hck
  | logBlock hp =>
    refine h.quiet trivial rfl ?_ hck
    rw [hp]
    dsimp only
    split_ifs <;> rfl
  | commitHead hp => exact ⟨by simp [Phase.gathers], by simp [Phase.gathers], by simp [Ledger.step],
      fun o w hw => callsOf_mono (h.called o w (by simpa using hw)), hck⟩
  | install hp _ => exact h.quiet trivial rfl (by rw [hp]; rfl) hck
  | installed hp _ => exact h.quiet trivial rfl (by rw [hp]; rfl) hck
  | @clearHead r hp =>
    have hpend : (ledger as).pending = [] := h.rest (by rw [hp]; rfl)
    refine ⟨by simp, ?_, ?_, fun o w hw => callsOf_mono (h.called o w (by simpa using hw)), hck⟩
    · simp [logged, Ledger.step, hpend]
    · simp [Ledger.step, hpend]
  | wake hp => exact h.quiet trivial rfl (by rw [hp]; rfl) hck
  | readHead hp => exact ⟨by simp [Phase.gathers], by simp [Phase.gathers],
      fun _ => by simpa [Ledger.step] using h.rest (by rw [hp]; rfl),
      fun o w hw => callsOf_mono (h.called o w (by simpa using hw)), hck⟩
  | crash =>
    refine ⟨by simp [Machine.reboot, Phase.gathers], by simp [Machine.reboot, Phase.gathers],
      by simp [Ledger.step], fun o w hw => callsOf_mono (h.called o w (by simpa using hw)), ?_⟩
    intro o b ho
    by_cases hn : m.ops o = .new <;> simp [Machine.reboot, hn] at ho

theorem listInv_run (h : Run (logSystem start size disk) as m) : ListInv as m := by
  refine h.invariant ?_ (fun _ _ _ _ hr ih hs => listInv_step (ctlInv_run hr) ih (logStep_of_step hs))
  rintro m ⟨rfl, -⟩
  exact ⟨by simp, by simp [Phase.gathers], fun _ => rfl, by simp [writesOf], by simp⟩

/-- In a state where an operation runs, the log holds as many blocks as are logged. -/
theorem length_lh (h : Run (logSystem start size disk) as m) (hp : m.phase = .run) :
    m.log.lh.length = (logged as).card := by
  have hl := listInv_run h
  have hg : m.phase.gathers = true := by rw [hp]; rfl
  rw [← toFinset_card_of_nodup (hl.nodup hg)]
  congr 1
  ext b
  rw [mem_toFinset, hl.mem hg]

/-! The reservation. -/

/-- The distinct blocks that operation `o` has logged. -/
def spent (as : List LogAct) (o : ℕ) : ℕ := ((writesOf o as).map (·.block)).toFinset.card

/-- What the active operations may still log. -/
def reserved (as : List LogAct) : ℕ := ((active as).map fun o => MAXOPBLOCKS - spent as o).sum

/-- No operation calls `log_write` on more than `MAXOPBLOCKS` distinct blocks. -/
def Modest (as : List LogAct) : Prop := ∀ o, (callsOf o as).toFinset.card ≤ MAXOPBLOCKS

theorem Modest.of_snoc (h : Modest (as ++ [a])) : Modest as := by
  intro o
  refine (Finset.card_le_card ?_).trans (h o)
  intro x hx
  rw [mem_toFinset] at hx ⊢
  exact callsOf_mono hx

theorem ListInv.spent_le (h : ListInv as m) (hm : Modest as) (o : ℕ) : spent as o ≤ MAXOPBLOCKS := by
  refine (Finset.card_le_card ?_).trans (hm o)
  intro x hx
  obtain ⟨w, hw, rfl⟩ := mem_map.mp (mem_toFinset.mp hx)
  exact mem_toFinset.mpr (h.called o w hw)

theorem spent_quiet (h : a.quiet) : spent (as ++ [a]) o = spent as o := by
  cases a <;> first | exact h.elim | simp [spent]

theorem spent_write : spent (as ++ [.write o b data]) o =
      if b ∈ (writesOf o as).map (·.block) then spent as o else spent as o + 1 := by
  have hset : ((writesOf o (as ++ [.write o b data])).map (·.block)).toFinset =
      insert b ((writesOf o as).map (·.block)).toFinset := by
    ext x
    simp
  rw [spent, hset]
  split_ifs with hb
  · rw [Finset.insert_eq_of_mem (mem_toFinset.mpr hb), spent]
  · rw [Finset.card_insert_of_notMem (by rwa [mem_toFinset]), spent]

theorem spent_write_ne {o' : ℕ} (h : o ≠ o') : spent (as ++ [.write o b data]) o' = spent as o' := by
  simp [spent, h]

theorem spent_of_new (h : LedgerInv as m) (ho : m.ops o = .new) : spent as o = 0 := by
  simp [spent, h.fresh o ho]

theorem reserved_le (as : List LogAct) : reserved as ≤ (active as).length * MAXOPBLOCKS := by
  unfold reserved
  induction active as with
  | nil => simp
  | cons o os ih =>
    simp only [map_cons, sum_cons, length_cons, Nat.succ_mul]
    omega

theorem reserve_quiet {n : ℕ} (hq : a.quiet) (hact : active (as ++ [a]) = active as)
    (h : n + reserved as ≤ LOGSIZE) : n + reserved (as ++ [a]) ≤ LOGSIZE := by
  simpa only [reserved, hact, spent_quiet hq] using h

/-- A block that an active operation has logged is in the list. -/
theorem LedgerInv.mem_logged (h : LedgerInv as m) (ho : (m.ops o).active = true)
    (hb : b ∈ (writesOf o as).map (·.block)) : b ∈ logged as := by
  have hnd : m.ops o ≠ .done := by
    intro hd
    simp [hd, OpState.active] at ho
  obtain ⟨w, hw, rfl⟩ := mem_map.mp hb
  rcases h.whole o with ⟨-, hp | ⟨hd, -⟩⟩ | ⟨-, -, hd⟩
  · rw [← hp] at hw
    exact mem_toFinset.mpr (mem_map_of_mem (mem_of_mem_filter hw))
  · exact absurd hd hnd
  · exact absurd hd hnd

/-- A `log_write` uses up a block of its operation's reservation if it needs a new slot. -/
theorem reserve_write (hctl : CtlInv start size as m) (hled : LedgerInv as m)
    (hl : ListInv as m) (ho : m.ops o = .checked b)
    (hm : Modest (as ++ [.write o b data])) (hs : ListInv (as ++ [.write o b data]) m')
    (h : m.log.lh.length + reserved as ≤ LOGSIZE) :
    (absorb b m.log.lh).length + reserved (as ++ [.write o b data]) ≤ LOGSIZE := by
  have hact : (m.ops o).active = true := by rw [ho]; rfl
  have hgat : m.phase.gathers = true := by rw [hctl.run_of_active hact]; rfl
  have hle : ∀ o' ∈ active as, MAXOPBLOCKS - spent (as ++ [.write o b data]) o' ≤
      MAXOPBLOCKS - spent as o' := by
    intro o' _
    by_cases heq : o = o'
    · subst heq
      rw [spent_write]
      split_ifs <;> omega
    · rw [spent_write_ne heq]
  have hres : reserved (as ++ [.write o b data]) =
      ((active as).map fun o' => MAXOPBLOCKS - spent (as ++ [.write o b data]) o').sum := by
    simp [reserved]
  by_cases hb : b ∈ m.log.lh
  · rw [absorb_of_mem hb, hres]
    have := sum_le_sum hle
    simp only [reserved] at h
    omega
  · have hnew : b ∉ (writesOf o as).map (·.block) := by
      intro hb'
      exact hb ((hl.mem hgat b).mpr (hled.mem_logged hact hb'))
    have hone := hs.spent_le hm o
    rw [spent_write, if_neg hnew] at hone
    have hlt := sum_lt_sum _ _ hle ⟨o, (hctl.mem o).mp hact, by
      rw [spent_write, if_neg hnew]
      omega⟩
    rw [absorb_of_not_mem hb, hres, length_append, length_singleton]
    simp only [reserved] at h
    omega

theorem reserve_end (hctl : CtlInv start size as m) (ho : m.ops o = .running)
    (h : m.phase.gathers = true → m.log.lh.length + reserved as ≤ LOGSIZE) :
    m.log.lh.length + reserved (as ++ [.endOp o]) ≤ LOGSIZE := by
  have hgat : m.phase.gathers = true := by rw [hctl.run_of_active (o := o) (by rw [ho]; rfl)]; rfl
  have hle : reserved (as ++ [.endOp o]) ≤ reserved as := by
    simp only [reserved, active_snoc, spent_quiet (a := LogAct.endOp o) trivial]
    exact List.Sublist.sum_le_sum ((erase_sublist).map _) (by simp)
  have := h hgat
  omega

theorem reserve_step (hctl : CtlInv start size as m) (hled : LedgerInv as m) (hl : ListInv as m)
    (hs : LogStep m a m') (hm : Modest (as ++ [a]))
    (h : m.phase.gathers = true → m.log.lh.length + reserved as ≤ LOGSIZE)
    (hg : m'.phase.gathers = true) : m'.log.lh.length + reserved (as ++ [a]) ≤ LOGSIZE := by
  have hl' := listInv_step hctl hl hs
  cases hs with
  | @beginOp o hb ho hc hn =>
    have hrun := hctl.run_of_begin hb hc
    have hadd : reserved (as ++ [.beginOp o]) = MAXOPBLOCKS - spent as o + reserved as := by
      simp [reserved, spent_quiet (a := LogAct.beginOp o) trivial]
    have hle := reserved_le as
    rw [hadd, spent_of_new hled ho]
    rw [hctl.count, Nat.add_mul] at hn
    show m.log.lh.length + _ ≤ _
    omega
  | check _ _ _ _ => exact reserve_quiet trivial (by simp) (h hg)
  | @write o b data ho =>
    have hgat : m.phase.gathers = true := by rw [hctl.run_of_active (o := o) (by rw [ho]; rfl)]; rfl
    exact reserve_write hctl hled hl ho hm hl' (h hgat)
  | @endOp o ho _ _ => exact reserve_end (m := m) hctl ho h
  | @endLast o ho _ _ => exact reserve_end (m := m) hctl ho h
  | load => exact reserve_quiet trivial (by simp) (h hg)
  | evict _ => exact reserve_quiet trivial (by simp) (h hg)
  | logBlock hp => exact reserve_quiet trivial (by simp) (h (by rw [hp]; rfl))
  | commitHead hp => simp [Phase.gathers] at hg
  | install hp _ => simp [Phase.gathers] at hg
  | installed hp _ => simp [Phase.gathers] at hg
  | clearHead hp =>
    have hidle := hctl.idle (by simp [hp])
    simp [reserved, hidle]
  | wake hp => exact reserve_quiet trivial (by simp) (h (by rw [hp]; rfl))
  | readHead hp => simp [Phase.gathers] at hg
  | crash => simp [Machine.reboot, Phase.gathers] at hg

theorem reserve_run (h : Run (logSystem start size disk) as m) :
    Modest as → m.phase.gathers = true → m.log.lh.length + reserved as ≤ LOGSIZE := by
  refine h.invariant
    (I := fun as m => Modest as → m.phase.gathers = true → m.log.lh.length + reserved as ≤ LOGSIZE) ?_ ?_
  · rintro m ⟨rfl, -⟩ _ hg
    simp [Phase.gathers] at hg
  · intro as m a m' hr ih hs hm hg
    exact reserve_step (ctlInv_run hr) (ledgerInv_run hr) (listInv_run hr) (logStep_of_step hs) hm
      (ih hm.of_snoc) hg

/-- When a call of `log_write` panics, in any interleaving of operations that keep to their
`MAXOPBLOCKS`: when the transaction already has `LOGSIZE - 1` blocks, which `begin_op` lets happen
since it only keeps it to `LOGSIZE`. -/
theorem log_write_too_big_iff (start : ℕ) (disk : ℕ → Block) (as : List LogAct) (m : Machine) (o b : ℕ)
    (h : Run (logSystem start LOGSIZE disk) as m) (hm : Modest (as ++ [.check o b]))
    (ho : m.ops o = .running) (hb : m.log.home b) :
    (m.step (.check o b) = some (.error "too big a transaction") ↔ LOGSIZE - 1 ≤ (logged as).card) ∧
      (logged as).card ≤ LOGSIZE := by
  have hctl := ctlInv_run h
  have hrun := hctl.run_of_active (o := o) (by rw [ho]; rfl)
  have hlen := length_lh h hrun
  have hres := reserve_run h hm.of_snoc (by rw [hrun]; rfl)
  refine ⟨?_, by omega⟩
  have hstep : m.step (.check o b) = some ((logCheck m.log).map fun _ => m.setOp o (.checked b)) := by
    simp only [Machine.step]
    rw [if_pos ⟨ho, hb⟩]
  rw [hstep, logCheck, hlen, hctl.size_eq]
  by_cases hfull : LOGSIZE - 1 ≤ (logged as).card
  · rw [if_pos (Or.inr hfull)]
    simp [Except.map, hfull]
  · rw [if_neg (by omega)]
    split_ifs <;> simp [Except.map, hfull]

/-- After boot, one operation begins. -/
def oneBegun : List LogAct := [.readHead, .install, .clearHead, .beginOp 0]

/-- Three operations of ten blocks each, up to the last `log_write`. -/
def threeFull : List LogAct :=
  [.readHead, .install, .clearHead, .beginOp 0, .beginOp 1, .beginOp 2] ++
    (range 29).flatMap fun k => [.check (k / 10) (100 + k), .write (k / 10) (100 + k) fun _ => 0]

theorem log_write_too_big_iff_first :
    ∃ m, Run (logSystem 2 LOGSIZE fun _ _ => 0) oneBegun m ∧
      m.step (.check 0 100) ≠ some (.error "too big a transaction") := by
  obtain ⟨m, hm, ho, hl⟩ : ∃ m, oneBegun.foldlM Machine.next
      ({ disk := fun _ _ => 0, log := { start := 2, size := LOGSIZE } } : Machine) = some m ∧
      m.ops 0 = .running ∧ m.log.home 100 := ⟨_, rfl, rfl, by decide⟩
  have hr : Run (logSystem 2 LOGSIZE fun _ _ => 0) oneBegun m :=
    Run.of_foldlM (fun _ _ _ => step_of_next) ⟨rfl, rfl⟩ hm
  have hmod : Modest (oneBegun ++ [.check 0 100]) := by
    rintro (_ | o)
    · decide
    · exact Nat.zero_le _
  refine ⟨m, hr, fun hpanic => ?_⟩
  have hfull := (log_write_too_big_iff 2 _ oneBegun m 0 100 hr hmod ho hl).1.mp hpanic
  exact absurd hfull (by decide)

/-- The thirtieth distinct block of three operations with ten each. -/
theorem log_write_panics_within_reservation :
    ∃ m, Run (logSystem 2 LOGSIZE fun _ _ => 0) threeFull m ∧ Modest (threeFull ++ [.check 2 129]) ∧
      m.step (.check 2 129) = some (.error "too big a transaction") := by
  obtain ⟨m, hm, hpanic⟩ : ∃ m, threeFull.foldlM Machine.next
      ({ disk := fun _ _ => 0, log := { start := 2, size := LOGSIZE } } : Machine) = some m ∧
      m.step (.check 2 129) = some (.error "too big a transaction") := ⟨_, rfl, rfl⟩
  have hr : Run (logSystem 2 LOGSIZE fun _ _ => 0) threeFull m :=
    Run.of_foldlM (fun _ _ _ => step_of_next) ⟨rfl, rfl⟩ hm
  refine ⟨m, hr, ?_, hpanic⟩
  rintro (_ | _ | _ | o)
  · decide
  · decide
  · decide
  · exact Nat.zero_le _

/-! ### Code in an operation -/

section Code

open Prog

variable {l l' : Log} {bs : List ℕ} {b : ℕ} {α : Type} {x : F α} {s : Fs} {Q : α → Fs → Prop} {P : Fs → Prop}
  {N : String → Fs → Prop}

/-- The rest of the log is as before. -/
structure Added (l l' : Log) : Prop where
  size : l'.size = l.size
  outstanding : l'.outstanding = l.outstanding
  committing : l'.committing = l.committing
  nodup : l.lh.Nodup → l'.lh.Nodup

theorem toFinset_absorb (l : List ℕ) : (absorb b l).toFinset = insert b l.toFinset := by
  by_cases h : b ∈ l
  · rw [absorb_of_mem h, Finset.insert_eq_of_mem (mem_toFinset.2 h)]
  · rw [absorb_of_not_mem h, toFinset_append]
    ext
    simp

theorem logAll_added (h : logAll l bs = .ok l') : Added l l' := by
  induction bs generalizing l with
  | nil =>
    obtain rfl := Except.ok.inj h
    exact ⟨rfl, rfl, rfl, id⟩
  | cons b bs ih =>
    rw [logAll] at h
    cases hc : logCheck l with
    | error m =>
      rw [hc] at h
      cases h
    | ok u =>
      rw [hc] at h
      have hL := ih h
      exact ⟨hL.size, hL.outstanding, hL.committing, fun hn => hL.nodup (absorb_nodup hn)⟩

/-- `log_write` finds fewer than `LOGSIZE - 1` blocks in the log, also at the last of its calls. -/
def Log.room (l : Log) (bs : List ℕ) : Prop := (l.lh.toFinset ∪ bs.dropLast.toFinset).card < LOGSIZE - 1

instance : Decidable (l.room bs) := inferInstanceAs (Decidable (_ < _))

/-- The blocks go into the log, or there is no room for them. -/
theorem logAll_cases (ho : 1 ≤ l.outstanding) (hsize : l.size = LOGSIZE) (hn : l.lh.Nodup) (bs : List ℕ) :
    (∃ l', logAll l bs = .ok l') ∨ logAll l bs = .error "too big a transaction" ∧ ¬ l.room bs := by
  induction bs generalizing l with
  | nil => exact .inl ⟨l, rfl⟩
  | cons b bs ih =>
    have hsub : l.lh.toFinset.card ≤ (l.lh.toFinset ∪ (b :: bs).dropLast.toFinset).card :=
      Finset.card_le_card Finset.subset_union_left
    rw [toFinset_card_of_nodup hn] at hsub
    rw [logAll, logCheck]
    by_cases hfull : l.lh.length ≥ LOGSIZE ∨ l.lh.length ≥ l.size - 1
    · rw [if_pos hfull]
      refine .inr ⟨rfl, ?_⟩
      unfold Log.room
      omega
    · rw [if_neg hfull, if_neg (by omega)]
      rcases ih (l := { l with lh := absorb b l.lh }) ho hsize (absorb_nodup hn) with hl | ⟨hl, hroom⟩
      · exact .inl hl
      · refine .inr ⟨hl, ?_⟩
        cases bs with
        | nil => cases hl
        | cons c bs =>
          unfold Log.room at hroom ⊢
          rw [toFinset_absorb] at hroom
          rwa [dropLast_cons_cons, toFinset_cons, Finset.union_insert, ← Finset.insert_union]

/-- The code does what it does, unless the log has no room for its blocks. -/
theorem sat_underLog (h : Sat x { s with log := [] } Q P N) (ho : 1 ≤ l.outstanding) (hsize : l.size = LOGSIZE)
    (hn : l.lh.Nodup) : Sat (underLog x) (s, l)
      (fun a t => ∃ s', Q a s' ∧ logAll l s'.log = .ok t.2 ∧ t.1 = { s' with log := s.log })
      (fun _ => ∃ s', P s')
      (fun m _ => (∃ s', N m s') ∨ m = "too big a transaction" ∧ ¬ l.room (logCalls x s)) := by
  unfold Sat underLog
  rcases logAll_cases ho hsize hn (logCalls x s) with ⟨l', hl⟩ | ⟨hl, hroom⟩
  · rw [hl]
    unfold logCalls at hl
    cases hx : x { s with log := [] } with
    | ok a s' =>
      rw [hx] at hl
      exact ⟨s', sat_ok h hx, hl, rfl⟩
    | fault s' => exact ⟨s', sat_of_fault h hx⟩
    | panic m s' => exact .inl ⟨s', sat_of_panic h hx⟩
  · rw [hl]
    exact .inr ⟨rfl, hroom⟩

end Code

end Xv6

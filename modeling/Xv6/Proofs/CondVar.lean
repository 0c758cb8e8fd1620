import Xv6.Spec.Cond
import Mathlib.Data.Fintype.Card

/-! `cvnum` counts the processes that wait on the condition variable, as long as none of them is
killed in its sleep. The holder of `cvslock` is the only one that changes `cvnum`, and where it is
says by how much the two differ. -/

namespace Xv6.Cond

open Count

/-- In `sys_futex_wait2`, with `ptable.lock`. -/
def Pc.inWait2 : Pc → Bool
  | .released _ _ | .woken _ _ => true
  | _ => false

/-- The places where a process holds `cvslock`. -/
def Pc.holds : Pc → Bool
  | .release (.wait _) | .futexWake (.wait _) | .load _ | .store _ _ | .arg _ | .futexWait2 _ _
  | .wake _ | .test _ | .sub _ | .clear _ _ | .release .bcast => true
  | _ => false

/-- How much `cvnum` exceeds the number of waiting processes, for the holder of `cvslock`. -/
def Pc.owed : Pc → ℕ
  | .arg _ | .futexWait2 _ _ => 1
  | .wake n | .test n | .sub n | .clear n _ => n
  | _ => 0

/-- What a process knows of `cvnum`. -/
def Pc.knows (c : ℕ) : Pc → Prop
  | .store _ v => v = c
  | .futexWait2 _ val | .released _ val | .woken _ val => val = c
  | .sub n => n = c
  | .clear n v => n = c ∧ v = c
  | _ => True

/-- The places of a holder that has not yet needed `ptable.lock`. -/
def Pc.early : Pc → Bool
  | .release (.wait _) | .futexWake (.wait _) | .wake 0 => true
  | _ => false

/-- A process that sleeps returns to the test-and-set, and one in `sys_futex_wait2` runs. -/
def Proc.fits (x : Proc) : Prop :=
  (x.pc.inWait2 = true → x.state = .running) ∧ (x.pc.holds = true → ∀ w, x.state ≠ .sleeping w) ∧
    (x.pc.holds = true → x.state ≠ .unused)

structure Inv (s : State) : Prop where
  fits : ∀ p, (s.proc p).fits
  small : s.mem .cvnum < 2 ^ 32
  bit : s.mem .cvslock = 0 ∨ s.mem .cvslock = 1
  lock : ∀ p, (s.proc p).pc.holds = true → s.mem .cvslock = 1
  one : ∀ p q, (s.proc p).pc.holds = true → (s.proc q).pc.holds = true → p = q
  free : s.mem .cvslock = 0 → s.mem .cvnum = s.waiters
  owed : ∀ p, (s.proc p).pc.holds = true → s.mem .cvnum = s.waiters + (s.proc p).pc.owed
  knows : ∀ p, (s.proc p).pc.knows (s.mem .cvnum)
  ptlock : ∀ p, (s.proc p).pc.inWait2 = true ↔ s.ptlock = some p
  early : ∀ p q, s.ptlock = some q → (s.proc p).pc.holds = true → (s.proc p).pc.early = true

section Table

variable {s : State} {p q : Fin NPROC} {x : Proc} {w : Word}

theorem proc_set_same : (s.set p x).proc p = x := Function.update_self ..

theorem proc_set_ne (h : q ≠ p) : (s.set p x).proc q = s.proc q := Function.update_of_ne h ..

/-- The number of waiting processes, when one entry of the table changes. -/
theorem waiters_set : (s.set p x).waiters + (if (s.proc p).waiting = true then 1 else 0) =
    s.waiters + (if x.waiting = true then 1 else 0) := by
  have h := refs_set (S := Finset.univ) (E := fun q => (s.proc q).waiting)
    (D := fun q => ((s.set p x).proc q).waiting) (x := true) (Finset.mem_univ p)
    (fun q _ hq => by simp only [proc_set_ne hq])
  simp only [proc_set_same] at h
  exact h

theorem waiters_congr {s' : State} (h : s'.proc = s.proc) : s'.waiters = s.waiters := by
  unfold State.waiters
  rw [h]

theorem waiters_set_same (h : x.waiting = (s.proc p).waiting) : (s.set p x).waiters = s.waiters := by
  have hw := waiters_set (s := s) (p := p) (x := x)
  rw [h] at hw
  omega

theorem waiting_of_inWait2 (h : x.pc.inWait2 = true) : x.waiting = true := by
  unfold Proc.waiting
  revert h
  cases x.pc <;> simp [Pc.inWait2]

theorem waiting_eq (h : x.pc.inWait2 = false) : x.waiting = asleep .cvnum x := by
  unfold Proc.waiting
  revert h
  cases x.pc <;> simp [Pc.inWait2]

theorem not_waiting (hs : x.state ≠ .sleeping .cvnum) (h : x.pc.inWait2 = false) :
    x.waiting = false := by
  rw [waiting_eq h]
  simpa [asleep] using hs

theorem holds_not_inWait2 {pc : Pc} (h : pc.holds = true) : pc.inWait2 = false := by
  cases pc <;> simp_all [Pc.holds, Pc.inWait2]

end Table

/-- What a step can do: a call begins, the code of a running process goes on, a process exits, or its scheduling state is
another one. -/
inductive Next (ok : Word → Bool) (s : State) : Act → State → Prop where
  | call {p : Fin NPROC} {c : Call} (hr : (s.proc p).state = .running) (hp : (s.proc p).pc = .idle) :
      Next ok s (.call p c) (s.goto p c.entry)
  | user {p : Fin NPROC} {s' : State} (hr : (s.proc p).state = .running) (hm : (s.proc p).mode = .user)
      (h : s.user p = some s') : Next ok s (.step p) s'
  | sys {p : Fin NPROC} {s' : State} (hr : (s.proc p).state = .running) (hm : (s.proc p).mode = .sys)
      (h : s.sys ok p = some s') : Next ok s (.step p) s'
  | back {p : Fin NPROC} (hr : (s.proc p).state = .running) (hm : (s.proc p).mode = .ret) :
      Next ok s (.step p) (s.set p { s.proc p with mode := .user })
  | exit {a : Act} {p : Fin NPROC} (hr : (s.proc p).state = .running) (hlock : s.ptlock = none)
      (ha : a = .step p ∨ a = .tick p) : Next ok s a (s.exit p)
  | sched {a : Act} {p : Fin NPROC} {st : PState} {k : Bool} (hlock : s.ptlock = none) (hst : ∀ w, st ≠ .sleeping w)
      (hu : st = .unused → (s.proc p).state = .unused) (ha : a = .kill p ∨ ∀ w, (s.proc p).state ≠ .sleeping w)
      (hn : ∀ q, a ≠ .step q) :
      Next ok s a (s.set p { s.proc p with state := st, killed := k })

section Steps

variable {s s' : State} {p q : Fin NPROC} {x : Proc} {pc pc₀ : Pc} {w : Word} {ok : Word → Bool}

theorem Next.of_next {a : Act} (h : s.next ok a = some s') : Next ok s a s' := by
  cases a with
  | fork p =>
    dsimp only [State.next] at h
    split_ifs at h with hc
    cases h
    exact .sched hc.1 nofun nofun (.inr (by simp [hc.2])) nofun
  | call p c =>
    dsimp only [State.next] at h
    split_ifs at h with hc
    cases h
    exact .call hc.1 hc.2.2
  | step p =>
    dsimp only [State.next] at h
    by_cases hr : (s.proc p).state = .running
    swap
    · rw [if_neg hr] at h
      cases h
    rw [if_pos hr] at h
    cases hm : (s.proc p).mode with
    | user => rw [hm] at h; exact .user hr hm h
    | sys => rw [hm] at h; exact .sys hr hm h
    | ret =>
      rw [hm] at h
      dsimp only at h
      split_ifs at h with hk hlock
      · cases h
        exact .exit hr hlock (.inl rfl)
      · cases h
        exact .back hr hm
  | run p =>
    dsimp only [State.next] at h
    split_ifs at h with hc
    cases h
    exact .sched hc.1 nofun nofun (.inr (by simp [hc.2])) nofun
  | tick p =>
    dsimp only [State.next] at h
    split_ifs at h with hc hk
    · cases h
      exact .exit hc.2.1 hc.1 (.inr rfl)
    · cases h
      exact .sched hc.1 nofun nofun (.inr (by simp [hc.2.1])) nofun
  | kill p =>
    dsimp only [State.next] at h
    split_ifs at h with hlock
    cases h
    refine .sched hlock (fun w => ?_) (fun hu => ?_) (.inl rfl) nofun
    · split <;> simp_all
    · split at hu <;> simp_all

/-- A holder's process does not wait itself. -/
theorem Inv.holder_not_waiting (hi : Inv s) (hp : (s.proc p).pc.holds = true) :
    (s.proc p).waiting = false :=
  not_waiting ((hi.fits p).2.1 hp _) (holds_not_inWait2 hp)

theorem Inv.not_inWait2 (hi : Inv s) (h : s.ptlock = none) (q : Fin NPROC) :
    (s.proc q).pc.inWait2 = false := by
  rw [← Bool.not_eq_true, hi.ptlock q, h]
  simp

/-- One process goes on, with the shared words and `ptable.lock` changed: what has to be shown of it
and of the others. -/
theorem Inv.update (hi : Inv s) (hs : s'.proc = (s.set p x).proc)
    (hc : s'.mem .cvnum < 2 ^ 32) (hb : s'.mem .cvslock = 0 ∨ s'.mem .cvslock = 1) (hf : x.fits)
    (hx : x.pc.holds = true → s'.mem .cvslock = 1 ∧ s'.mem .cvnum = s'.waiters + x.pc.owed ∧
      (s'.ptlock = none ∨ x.pc.early = true))
    (hk : x.pc.knows (s'.mem .cvnum)) (hp : x.pc.inWait2 = true ↔ s'.ptlock = some p)
    (hfree : s'.mem .cvslock = 0 → s'.mem .cvnum = s'.waiters)
    (ho : ∀ q, q ≠ p → (s.proc q).pc.holds = true → x.pc.holds = false ∧ s'.mem .cvslock = 1 ∧
      s'.mem .cvnum = s'.waiters + (s.proc q).pc.owed ∧ (s'.ptlock = none ∨ (s.proc q).pc.early = true))
    (hok : ∀ q, q ≠ p → (s.proc q).pc.knows (s'.mem .cvnum))
    (hop : ∀ q, q ≠ p → (s'.ptlock = some q ↔ s.ptlock = some q)) : Inv s' := by
  have hpp : s'.proc p = x := by rw [hs, proc_set_same]
  have hpq : ∀ q, q ≠ p → s'.proc q = s.proc q := fun q hq => by rw [hs, proc_set_ne hq]
  -- the facts about a holder, whichever process it is
  have hheld : ∀ q, (s'.proc q).pc.holds = true → s'.mem .cvslock = 1 ∧
      s'.mem .cvnum = s'.waiters + (s'.proc q).pc.owed ∧ (s'.ptlock = none ∨ (s'.proc q).pc.early = true) := by
    intro q hq
    rcases eq_or_ne q p with rfl | hne
    · rw [hpp] at hq ⊢
      exact hx hq
    · rw [hpq q hne] at hq ⊢
      exact (ho q hne hq).2
  refine ⟨fun q => ?_, hc, hb, fun q hq => (hheld q hq).1, fun q r hq hr => ?_, hfree,
    fun q hq => (hheld q hq).2.1, fun q => ?_, fun q => ?_, fun q r hr hq => ?_⟩
  · rcases eq_or_ne q p with rfl | hne
    · rwa [hpp]
    · rw [hpq q hne]
      exact hi.fits q
  · rcases eq_or_ne q p with rfl | hne
    · rcases eq_or_ne r q with rfl | hne'
      · rfl
      · rw [hpq r hne'] at hr
        rw [hpp, (ho r hne' hr).1] at hq
        cases hq
    · rw [hpq q hne] at hq
      rcases eq_or_ne r p with rfl | hne'
      · rw [hpp, (ho q hne hq).1] at hr
        cases hr
      · rw [hpq r hne'] at hr
        exact hi.one q r hq hr
  · rcases eq_or_ne q p with rfl | hne
    · rwa [hpp]
    · rw [hpq q hne]
      exact hok q hne
  · rcases eq_or_ne q p with rfl | hne
    · rwa [hpp]
    · rw [hpq q hne, hop q hne]
      exact hi.ptlock q
  · rcases (hheld q hq).2.2 with h | h
    · rw [h] at hr
      cases hr
    · exact h

/-- A step of one process that leaves `cvnum` and `cvslock` as they are, and leaves the process
where it was with respect to them. -/
theorem Inv.local (hi : Inv s) (hs : s'.proc = (s.set p x).proc)
    (hpt : s'.ptlock = s.ptlock) (hn : s'.mem .cvnum = s.mem .cvnum)
    (hl : s'.mem .cvslock = s.mem .cvslock) (hf : x.fits)
    (hh : x.pc.holds = true → (s.proc p).pc.holds = true ∧ x.pc.owed = (s.proc p).pc.owed ∧
      (x.pc.early = true ∨ (s.proc p).pc.early = false ∨ s.ptlock = none))
    (hw : x.waiting = (s.proc p).waiting) (hk : x.pc.knows (s.mem .cvnum))
    (h2 : x.pc.inWait2 = (s.proc p).pc.inWait2) : Inv s' := by
  have hW : s'.waiters = s.waiters := (waiters_congr hs).trans (waiters_set_same hw)
  have hlate : ∀ q, (s.proc q).pc.holds = true → s.ptlock = none ∨ (s.proc q).pc.early = true := by
    intro q hq
    cases hpt : s.ptlock with
    | none => exact .inl rfl
    | some r => exact .inr (hi.early q r hpt hq)
  refine hi.update hs (hn ▸ hi.small) (hl ▸ hi.bit) hf (fun hx => ?_) (by rwa [hn])
    (by rw [h2, hpt]; exact hi.ptlock p) (fun h0 => ?_) (fun q hq hq' => ?_) (fun q _ => by rw [hn]; exact hi.knows q) (fun q _ => by rw [hpt])
  · obtain ⟨h1, h3, h4⟩ := hh hx
    rw [hW, h3, hpt]
    refine ⟨hl.trans (hi.lock p h1), hn.trans (hi.owed p h1), ?_⟩
    rcases h4 with h | h | h
    · exact .inr h
    · rcases hlate p h1 with h' | h'
      · exact .inl h'
      · rw [h] at h'
        cases h'
    · exact .inl h
  · rw [hW]
    exact hn.trans (hi.free (hl ▸ h0))
  · rw [hpt]
    refine ⟨?_, hl.trans (hi.lock q hq'), ?_, hlate q hq'⟩
    · rw [← Bool.not_eq_true]
      exact fun hx => hq (hi.one q p hq' (hh hx).1)
    · rw [hW]
      exact hn.trans (hi.owed q hq')

theorem proc_wakeup (w : Word) (q : Fin NPROC) : (s.wakeup w).proc q =
    if asleep w (s.proc q) then { s.proc q with state := .runnable } else s.proc q := rfl

theorem pc_wakeup (w : Word) (q : Fin NPROC) : ((s.wakeup w).proc q).pc = (s.proc q).pc := by
  rw [proc_wakeup]
  split_ifs <;> rfl

theorem fits_wakeup (hi : Inv s) (w : Word) (q : Fin NPROC) : ((s.wakeup w).proc q).fits := by
  rw [proc_wakeup]
  split_ifs with h
  · have hs : (s.proc q).state = .sleeping w := by simpa [asleep] using h
    refine ⟨fun h2 => ?_, fun _ _ => PState.noConfusion, fun _ => PState.noConfusion⟩
    rw [(hi.fits q).1 h2] at hs
    cases hs
  · exact hi.fits q

/-- The processes that a wakeup on another word than `cvnum` leaves waiting. -/
theorem waiting_wakeup (hw : w ≠ .cvnum) (q : Fin NPROC) : ((s.wakeup w).proc q).waiting = (s.proc q).waiting := by
  rw [proc_wakeup]
  split_ifs with h
  · have hs : (s.proc q).state = .sleeping w := by simpa [asleep] using h
    simp [Proc.waiting, asleep, hs, hw]
  · rfl

theorem Inv.wakeup (hi : Inv s) (hw : w ≠ .cvnum) : Inv (s.wakeup w) := by
  have hW : (s.wakeup w).waiters = s.waiters := by
    unfold State.waiters
    simp only [waiting_wakeup hw]
  refine ⟨fits_wakeup hi w, hi.small, hi.bit, ?_, ?_, ?_, ?_, ?_, ?_, ?_⟩
  · intro q
    rw [pc_wakeup]
    exact hi.lock q
  · intro q r
    rw [pc_wakeup, pc_wakeup]
    exact hi.one q r
  · rw [hW]
    exact hi.free
  · intro q
    rw [pc_wakeup, hW]
    exact hi.owed q
  · intro q
    rw [pc_wakeup]
    exact hi.knows q
  · intro q
    rw [pc_wakeup]
    exact hi.ptlock q
  · intro q r
    rw [pc_wakeup]
    exact hi.early q r

theorem waiters_le (s : State) : s.waiters ≤ NPROC := by
  unfold State.waiters refs
  exact (Finset.card_filter_le _ _).trans (Finset.card_fin NPROC).le

/-- Nobody else relies on `cvnum` when the holder of `cvslock` is past its first system call. -/
theorem Inv.others_know (hi : Inv s) (hp : (s.proc p).pc.holds = true) (he : (s.proc p).pc.early = false)
    (hq : q ≠ p) (c : ℕ) : (s.proc q).pc.knows c := by
  have h1 : (s.proc q).pc.holds = false := by
    rw [← Bool.not_eq_true]
    exact fun h => hq (hi.one q p h hp)
  have h2 : (s.proc q).pc.inWait2 = false := by
    rw [← Bool.not_eq_true, hi.ptlock q]
    intro h
    rw [hi.early p q h hp] at he
    cases he
  revert h1 h2
  cases (s.proc q).pc <;> simp [Pc.holds, Pc.inWait2, Pc.knows]

/-- The holder of `cvslock` stores to `cvnum`. -/
theorem Inv.store (hi : Inv s) (hp : (s.proc p).pc.holds = true) (he : (s.proc p).pc.early = false)
    {v : ℕ} (hh : pc.holds = true)
    (hc : v < 2 ^ 32) (hv : v = s.waiters + pc.owed) (hk : pc.knows v) :
    Inv ((s.put .cvnum v).goto p pc) := by
  have hlock : s.ptlock = none := by
    cases h : s.ptlock with
    | none => rfl
    | some q =>
      rw [hi.early p q h hp] at he
      cases he
  have hW : ((s.put .cvnum v).goto p pc).waiters = s.waiters := by
    refine waiters_set_same ?_
    change Proc.waiting _ = (s.proc p).waiting
    rw [hi.holder_not_waiting hp]
    exact not_waiting ((hi.fits p).2.1 hp _) (holds_not_inWait2 hh)
  have hmem : ((s.put .cvnum v).goto p pc).mem .cvnum = v := by simp [State.put, State.goto, State.set]
  have hmem' : ((s.put .cvnum v).goto p pc).mem .cvslock = 1 := by
    simpa [State.put, State.goto, State.set] using hi.lock p hp
  have h2 : pc.inWait2 = false := holds_not_inWait2 hh
  refine hi.update (p := p) (x := { s.proc p with pc := pc }) rfl (by rwa [hmem]) (.inr hmem')
    ⟨fun h => ?_, fun _ => (hi.fits p).2.1 hp, fun _ => (hi.fits p).2.2 hp⟩ (fun _ => ⟨hmem', ?_, .inl hlock⟩) (by rwa [hmem]) ?_ (fun h0 => ?_)
    (fun q hq hq' => absurd (hi.one q p hq' hp) hq) (fun q hq => hi.others_know hp he hq _)
    (fun q _ => Iff.rfl)
  · rw [h2] at h
    cases h
  · rw [hmem, hW]
    exact hv
  · change _ ↔ s.ptlock = some p
    rw [hlock]
    simp [h2]
  · rw [hmem'] at h0
    cases h0

/-- Nobody holds a lock that is free. -/
theorem Inv.not_holds (hi : Inv s) (h0 : s.mem .cvslock = 0) (q : Fin NPROC) :
    (s.proc q).pc.holds = false := by
  rw [← Bool.not_eq_true]
  intro h
  rw [hi.lock q h] at h0
  cases h0

/-- The test-and-set finds `cvslock` free. -/
theorem Inv.take (hi : Inv s) (hr : (s.proc p).state = .running) (h2 : (s.proc p).pc.inWait2 = false)
    (h0 : s.mem .cvslock = 0) (hh : pc.holds = true) (he : pc.early = true)
    (ho : pc.owed = 0) (hk : pc.knows (s.mem .cvnum)) : Inv ((s.put .cvslock 1).goto p pc) := by
  have h2' : pc.inWait2 = false := holds_not_inWait2 hh
  have hst : (s.proc p).state ≠ .sleeping .cvnum := by simp [hr]
  have hW : ((s.put .cvslock 1).goto p pc).waiters = s.waiters :=
    waiters_set_same ((not_waiting (x := { s.proc p with pc := pc }) hst h2').trans (not_waiting hst h2).symm)
  have hl : ((s.put .cvslock 1).goto p pc).mem .cvslock = 1 := by simp [State.put, State.goto, State.set]
  have hn : ((s.put .cvslock 1).goto p pc).mem .cvnum = s.mem .cvnum := by
    simp [State.put, State.goto, State.set]
  refine hi.update (p := p) (x := { s.proc p with pc := pc }) rfl (hn ▸ hi.small) (.inr hl)
    ⟨fun _ => hr, fun _ w => by simp [hr], fun _ => by simp [hr]⟩ (fun _ => ⟨hl, ?_, .inr he⟩)
    (by rwa [hn]) ?_ (fun h => ?_) (fun q _ hq => ?_) (fun q _ => by rw [hn]; exact hi.knows q)
    (fun q _ => Iff.rfl)
  · rw [hn, hW, hi.free h0, ho, Nat.add_zero]
  · exact (iff_of_eq (by rw [h2', h2])).trans (hi.ptlock p)
  · rw [hl] at h
    cases h
  · rw [hi.not_holds h0 q] at hq
    cases hq

/-- The holder of `cvslock` gives it back, to leave `cv_bcast` or to wait in `sys_futex_wait2`. -/
theorem Inv.give (hi : Inv s) (hp : (s.proc p).pc.holds = true)
    (hs : s'.proc = (s.set p x).proc) (hf : x.fits) (hl : s'.mem .cvslock = 0)
    (hn : s'.mem .cvnum = s.mem .cvnum) (hh : x.pc.holds = false)
    (hw : (s.proc p).pc.owed = if x.waiting = true then 1 else 0) (hk : x.pc.knows (s.mem .cvnum))
    (h2 : x.pc.inWait2 = true ↔ s'.ptlock = some p) (hop : ∀ q, q ≠ p → (s'.ptlock = some q ↔ s.ptlock = some q)) :
    Inv s' := by
  have hW : s'.waiters = s.waiters + (s.proc p).pc.owed := by
    have h := waiters_set (s := s) (p := p) (x := x)
    rw [hi.holder_not_waiting hp, ← hw] at h
    rw [waiters_congr hs]
    simpa using h
  refine hi.update hs (hn ▸ hi.small) (.inl hl) hf (fun hx => ?_) (by rwa [hn]) h2 (fun _ => ?_)
    (fun q hq hq' => absurd (hi.one q p hq' hp) hq) (fun q _ => by rw [hn]; exact hi.knows q) hop
  · rw [hh] at hx
    cases hx
  · rw [hn, hW]
    exact hi.owed p hp

/-- `sys_futex_wait2` ends: `cvnum` is as the caller found it, so the process sleeps. -/
theorem Inv.sleep {m val : ℕ} (hi : Inv s) (hp : (s.proc p).pc = .woken m val) :
    Inv ({ s with ptlock := none }.sleep p .cvnum (.testSet (.own m))) := by
  have h2 : (s.proc p).pc.inWait2 = true := by rw [hp]; rfl
  have hlock : s.ptlock = some p := (hi.ptlock p).1 h2
  have hW : ({ s with ptlock := none }.sleep p .cvnum (.testSet (.own m))).waiters = s.waiters := by
    refine (waiters_set_same (s := s) ?_)
    rw [waiting_of_inWait2 h2]
    rfl
  refine hi.update (p := p)
    (x := { s.proc p with state := .sleeping .cvnum, pc := .testSet (.own m), mode := .ret }) rfl hi.small hi.bit
    ⟨nofun, nofun, nofun⟩ nofun trivial
    (by simp [Pc.inWait2, State.sleep, State.set]) (fun h => hW ▸ hi.free h) (fun q _ hq => ?_)
    (fun q _ => hi.knows q) (fun q hq => ?_)
  · refine ⟨rfl, hi.lock q hq, ?_, .inl rfl⟩
    rw [hW]
    exact hi.owed q hq
  · rw [hlock]
    simp [State.sleep, State.set, hq.symm]

/-- `futex_wake` of `cv_bcast`: whoever waits is woken and counted. -/
theorem Inv.wake {n : ℕ} (hi : Inv s) (hlock : s.ptlock = none) (hp : (s.proc p).pc = .wake n) :
    s.mem .cvnum = u32 (n + s.asleepOn .cvnum) ∧
      Inv ((s.wakeup .cvnum).retTo p (.test (s.mem .cvnum))) := by
  have hh : (s.proc p).pc.holds = true := by rw [hp]; rfl
  have hsum : s.mem .cvnum = s.waiters + n := by
    have h := hi.owed p hh
    rwa [hp] at h
  have hall : s.asleepOn .cvnum = s.waiters := by
    unfold State.asleepOn State.waiters
    congr 1
    funext q
    exact (waiting_eq (hi.not_inWait2 hlock q)).symm
  have hsmall : s.mem .cvnum = u32 (n + s.asleepOn .cvnum) := by
    have h := hi.small
    rw [hall, u32, Nat.mod_eq_of_lt (by omega)]
    omega
  refine ⟨hsmall, ?_⟩
  have hpp : ((s.wakeup .cvnum).retTo p (.test (s.mem .cvnum))).proc p =
      { (s.wakeup .cvnum).proc p with pc := .test (s.mem .cvnum), mode := .ret } := proc_set_same
  have hpq : ∀ q, q ≠ p → ((s.wakeup .cvnum).retTo p (.test (s.mem .cvnum))).proc q =
      (s.wakeup .cvnum).proc q := fun q hq => proc_set_ne hq
  -- nobody waits any more
  have hno : ∀ q, (((s.wakeup .cvnum).retTo p (.test (s.mem .cvnum))).proc q).waiting = false := by
    intro q
    have hst : ((s.wakeup .cvnum).proc q).state ≠ .sleeping .cvnum := by
      rw [proc_wakeup]
      split_ifs with h
      · exact PState.noConfusion
      · simpa [asleep] using h
    rcases eq_or_ne q p with rfl | hne
    · rw [hpp]
      exact not_waiting hst rfl
    · rw [hpq q hne]
      refine not_waiting hst ?_
      rw [pc_wakeup]
      exact hi.not_inWait2 hlock q
  have hW : ((s.wakeup .cvnum).retTo p (.test (s.mem .cvnum))).waiters = 0 :=
    refs_eq_zero.2 fun q _ => by simp [hno q]
  have honly : ∀ q, (((s.wakeup .cvnum).retTo p (.test (s.mem .cvnum))).proc q).pc.holds = true → q = p := by
    intro q hq
    by_contra hne
    rw [hpq q hne, pc_wakeup] at hq
    exact hne (hi.one q p hq hh)
  refine ⟨fun q => ?_, hi.small, hi.bit, fun _ _ => hi.lock p hh, fun q r hq hr => ?_, fun h0 => ?_,
    fun q hq => ?_, fun q => ?_, fun q => ?_, fun q r hr => ?_⟩
  · rcases eq_or_ne q p with rfl | hne
    · rw [hpp]
      have hf := fits_wakeup hi .cvnum q
      rw [Proc.fits, pc_wakeup] at hf
      exact ⟨nofun, fun _ => hf.2.1 hh, fun _ => hf.2.2 hh⟩
    · rw [hpq q hne]
      exact fits_wakeup hi .cvnum q
  · rw [honly q hq, honly r hr]
  · rw [State.retTo, State.set, State.wakeup, hi.lock p hh] at h0
    cases h0
  · rw [honly q hq, hpp, hW]
    exact (Nat.zero_add _).symm
  · rcases eq_or_ne q p with rfl | hne
    · rw [hpp]
      trivial
    · rw [hpq q hne, pc_wakeup]
      exact hi.knows q
  · change _ ↔ s.ptlock = some q
    rcases eq_or_ne q p with rfl | hne
    · rw [hpp, hlock]
      simp [Pc.inWait2]
    · rw [hpq q hne, pc_wakeup]
      exact hi.ptlock q
  · change s.ptlock = some r at hr
    rw [hlock] at hr
    cases hr

/-- A running process moves to a place that holds `cvslock`, and owes, no more and no less. -/
theorem Inv.move (hi : Inv s) (hp : (s.proc p).pc = pc₀) (pc : Pc) (mode : Mode) (hr : (s.proc p).state = .running)
    (hs : s'.proc = (s.set p { s.proc p with pc := pc, mode := mode }).proc) (hpt : s'.ptlock = s.ptlock)
    (hn : s'.mem .cvnum = s.mem .cvnum) (hl : s'.mem .cvslock = s.mem .cvslock)
    (hh : pc.holds = true → pc₀.holds = true ∧ pc.owed = pc₀.owed ∧
      (pc.early = true ∨ pc₀.early = false ∨ s.ptlock = none))
    (hk : pc.knows (s.mem .cvnum)) (h2 : pc.inWait2 = pc₀.inWait2) : Inv s' := by
  subst hp
  refine hi.local hs hpt hn hl ⟨fun _ => hr, fun _ w => by simp [hr], fun _ => by simp [hr]⟩ hh ?_ hk h2
  have hst : asleep .cvnum (s.proc p) = false := by simp [asleep, hr]
  cases h : pc.inWait2 with
  | true => exact (waiting_of_inWait2 h).trans (waiting_of_inWait2 (h2.symm.trans h)).symm
  | false =>
    rw [waiting_eq (x := { s.proc p with pc := pc, mode := mode }) h, waiting_eq (h2.symm.trans h)]
    rfl

/-- The process is in the same place, in another scheduling state. -/
theorem Inv.resume {st : PState} {k : Bool} (hi : Inv s) (h2 : (s.proc p).pc.inWait2 = false)
    (hst : (s.proc p).state ≠ .sleeping .cvnum) (hst' : ∀ w, st ≠ .sleeping w)
    (hu : st = .unused → (s.proc p).state = .unused) :
    Inv (s.set p { s.proc p with state := st, killed := k }) := by
  refine hi.local rfl rfl rfl rfl ⟨fun h => ?_, fun _ => hst', fun hh h => (hi.fits p).2.2 hh (hu h)⟩
    (fun hh => ⟨hh, rfl, ?_⟩) ?_ (hi.knows p) rfl
  · change (s.proc p).pc.inWait2 = true at h
    rw [h2] at h
    cases h
  · cases he : (s.proc p).pc.early with
    | true => exact .inl rfl
    | false => exact .inr (.inl rfl)
  · exact (not_waiting (x := { s.proc p with state := st, killed := k }) (hst' _) h2).trans
      (not_waiting hst h2).symm

theorem Inv.exit (hi : Inv s) (hr : (s.proc p).state = .running) (hlock : s.ptlock = none) :
    Inv (s.exit p) := by
  have h2 := hi.not_inWait2 hlock p
  refine hi.local rfl rfl rfl rfl ⟨nofun, nofun, nofun⟩ nofun ?_ trivial h2.symm
  exact (not_waiting (by simp [hr]) h2).symm

/-- The first test of `trap`. -/
theorem Inv.enter (hi : Inv s) (hr : (s.proc p).state = .running) (h : s.enter p = some s') : Inv s' := by
  unfold State.enter at h
  split_ifs at h with hk hlock
  · cases h
    exact hi.exit hr hlock
  · cases h
    refine hi.move rfl (s.proc p).pc .sys hr rfl rfl rfl rfl (fun hh => ⟨hh, rfl, ?_⟩) (hi.knows p) rfl
    cases (s.proc p).pc.early <;> simp

theorem Inv.testSet {k : Site} (hi : Inv s) (hr : (s.proc p).state = .running)
    (hp : (s.proc p).pc = .testSet k) : Inv ((s.put k.lockWord 1).goto p
      (if s.mem k.lockWord ≠ 0 then .futexWait k else k.locked)) := by
  have h2 : (s.proc p).pc.inWait2 = false := by rw [hp]; rfl
  -- a word that is set already stays as it is
  have hset : ∀ w, s.mem .cvslock ≠ 0 → ((s.put .cvslock 1).goto p w).mem .cvslock = s.mem .cvslock := by
    intro w h
    rw [hi.bit.resolve_left h]
    simp [State.put, State.goto, State.set]
  cases k with
  | wait m =>
    split_ifs with h
    · exact hi.move hp (.futexWait (.wait m)) _ hr rfl rfl rfl (hset _ h) nofun trivial rfl
    · exact hi.take hr h2 (not_not.1 h) rfl rfl rfl trivial
  | bcast =>
    split_ifs with h
    · exact hi.move hp (.futexWait .bcast) _ hr rfl rfl rfl (hset _ h) nofun trivial rfl
    · exact hi.take hr h2 (not_not.1 h) rfl rfl rfl trivial
  | own m =>
    split_ifs with h
    · exact hi.move hp (.futexWait (.own m)) _ hr rfl rfl rfl rfl nofun trivial rfl
    · exact hi.move hp .idle _ hr rfl rfl rfl rfl nofun trivial rfl

theorem Inv.user (hi : Inv s) (hr : (s.proc p).state = .running) (h : s.user p = some s') : Inv s' := by
  have hW := waiters_le s
  unfold State.user at h
  -- what the process knows and owes where it is
  have hk := hi.knows p
  have ho := hi.owed p
  cases hp : (s.proc p).pc <;> rw [hp] at h hk ho <;> try cases h
  case futexWait | futexWake | futexWait2 | wake => exact hi.enter hr h
  case testSet k => exact hi.testSet hr hp
  case release k =>
    cases k with
    | wait m =>
      exact hi.move hp (.futexWake (.wait m)) _ hr rfl rfl rfl rfl (fun _ => ⟨rfl, rfl, .inl rfl⟩) trivial rfl
    | own m => exact hi.move hp (.futexWake (.own m)) _ hr rfl rfl rfl rfl nofun trivial rfl
    | bcast =>
      have hh : (s.proc p).pc.holds = true := by rw [hp]; rfl
      refine hi.give (x := { s.proc p with pc := .futexWake .bcast }) hh rfl ⟨nofun, nofun, nofun⟩ rfl rfl
        rfl ?_ trivial ?_ (fun _ _ => Iff.rfl)
      · rw [hp, not_waiting (x := { s.proc p with pc := .futexWake .bcast }) (by simp [hr]) rfl]
        rfl
      · change _ ↔ s.ptlock = some p
        rw [← hi.ptlock p, hp]
        simp [Pc.inWait2]
  case load m =>
    exact hi.move hp (.store m (s.mem .cvnum)) _ hr rfl rfl rfl rfl (fun _ => ⟨rfl, rfl, .inr (.inl rfl)⟩) rfl rfl
  case store m v =>
    have hv : v = s.mem .cvnum := hk
    have ho : s.mem .cvnum = s.waiters := ho rfl
    have hu : u32 (v + 1) = s.waiters + 1 := by
      rw [u32, hv, ho]
      exact Nat.mod_eq_of_lt (by unfold NPROC at hW; omega)
    exact hi.store (by rw [hp]; rfl) (by rw [hp]; rfl) rfl (Nat.mod_lt _ (by decide)) hu trivial
  case arg m =>
    exact hi.move hp (.futexWait2 m (s.mem .cvnum)) _ hr rfl rfl rfl rfl (fun _ => ⟨rfl, rfl, .inr (.inl rfl)⟩) rfl rfl
  case test n =>
    split_ifs with hc
    · exact hi.move hp (.wake n) _ hr rfl rfl rfl rfl (fun _ => ⟨rfl, rfl, .inr (.inl rfl)⟩) trivial rfl
    · exact hi.move hp (.sub n) _ hr rfl rfl rfl rfl (fun _ => ⟨rfl, rfl, .inr (.inl rfl)⟩) (not_not.1 hc).symm rfl
  case sub n =>
    exact hi.move hp (.clear n (s.mem .cvnum)) _ hr rfl rfl rfl rfl (fun _ => ⟨rfl, rfl, .inr (.inl rfl)⟩) ⟨hk, rfl⟩ rfl
  case clear n v =>
    have hk : n = s.mem .cvnum ∧ v = s.mem .cvnum := hk
    have ho : s.mem .cvnum = s.waiters + n := ho rfl
    have hz : sub32 v n = s.waiters := by
      rw [sub32]
      omega
    exact hi.store (by rw [hp]; rfl) (by rw [hp]; rfl) rfl (Nat.mod_lt _ (by decide)) hz trivial

theorem Site.lockWord_ne (k : Site) : k.lockWord ≠ .cvnum := by cases k <;> simp [Site.lockWord]

theorem Site.unlockWord_ne (k : Site) : k.unlockWord ≠ .cvnum := by cases k <;> simp [Site.unlockWord]

theorem state_wakeup (hr : (s.proc p).state = .running) : (s.wakeup w).proc p = s.proc p := by
  rw [proc_wakeup, if_neg]
  simp [asleep, hr]

theorem Inv.sys (hok : ∀ w, ok w = true) (hi : Inv s)
    (hr : (s.proc p).state = .running) (h : s.sys ok p = some s') : Inv s' := by
  unfold State.sys at h
  simp only [hok, reduceCtorEq, if_false, or_self, ne_eq, ite_not] at h
  have hk := hi.knows p
  cases hp : (s.proc p).pc <;> rw [hp] at h hk <;> dsimp only at h <;> try cases h
  case futexWait k =>
    split_ifs at h with hlock hm
    · cases h
      have hne : ∀ x : Proc, x.state = .sleeping k.lockWord → x.pc = .testSet k → x.waiting = false :=
        fun x h1 h2 => not_waiting (by simp [h1, k.lockWord_ne]) (by rw [h2]; rfl)
      refine hi.local rfl rfl rfl rfl ⟨nofun, nofun, nofun⟩ nofun ?_ trivial (by rw [hp]; rfl)
      exact (hne _ rfl rfl).trans (not_waiting (by simp [hr]) (by rw [hp]; rfl)).symm
    · cases h
      exact hi.move hp (.testSet k) .ret hr rfl rfl rfl rfl nofun trivial rfl
  case futexWake k =>
    split_ifs at h with hlock
    cases h
    have hi' := hi.wakeup k.unlockWord_ne
    have hw := state_wakeup (w := k.unlockWord) hr
    rw [← hw] at hr hp
    cases k with
    | wait m => exact hi'.move hp (.load m) .ret hr rfl rfl rfl rfl (fun _ => ⟨rfl, rfl, .inr (.inr hlock)⟩) trivial rfl
    | bcast => exact hi'.move hp .idle .ret hr rfl rfl rfl rfl nofun trivial rfl
    | own m => exact hi'.move hp .idle .ret hr rfl rfl rfl rfl nofun trivial rfl
  case futexWait2 m val =>
    split_ifs at h with hlock
    cases h
    have hh : (s.proc p).pc.holds = true := by rw [hp]; rfl
    refine hi.give (x := { s.proc p with pc := .released m val }) hh rfl ⟨fun _ => hr, nofun, nofun⟩ rfl rfl
      rfl ?_ hk (by simp [Pc.inWait2, State.goto, State.set]) (fun q hq => ?_)
    · rw [hp, waiting_of_inWait2 (x := { s.proc p with pc := .released m val }) rfl]
      rfl
    · rw [hlock]
      simp [State.goto, State.set, hq.symm]
  case released m val =>
    have hi' := hi.wakeup (w := .cvslock) (by decide)
    have hw := state_wakeup (w := .cvslock) hr
    rw [← hw] at hr hp
    exact hi'.move hp (.woken m val) _ hr rfl rfl rfl rfl nofun hk rfl
  case woken m val =>
    rw [if_pos hk.symm] at h
    cases h
    exact hi.sleep hp
  case wake n =>
    split_ifs at h with hlock
    cases h
    obtain ⟨h1, h2⟩ := hi.wake hlock hp
    rwa [← h1]

/-- The condition on a step: whoever it kills is not asleep on `&cvnum`. -/
def Act.spares (s : State) : Act → Prop
  | .kill p => (s.proc p).state ≠ .sleeping .cvnum
  | _ => True

instance (s : State) (a : Act) : Decidable (a.spares s) := by
  cases a <;> unfold Act.spares <;> infer_instance

theorem Inv.next {a : Act} (hok : ∀ w, ok w = true) (hi : Inv s) (hg : a.spares s) (h : s.next ok a = some s') : Inv s' := by
  cases Next.of_next h with
  | @call p c hr hp =>
    refine hi.move hp c.entry _ hr rfl rfl rfl rfl ?_ ?_ ?_
    · cases c <;> exact nofun
    · cases c <;> trivial
    · cases c <;> rfl
  | user hr hm h => exact hi.user hr h
  | sys hr hm h => exact hi.sys hok hr h
  | @back p hr hm =>
    refine hi.move rfl (s.proc p).pc .user hr rfl rfl rfl rfl (fun hh => ⟨hh, rfl, ?_⟩) (hi.knows p) rfl
    cases (s.proc p).pc.early <;> simp
  | exit hr hlock => exact hi.exit hr hlock
  | sched hlock hst hu ha =>
    refine hi.resume (hi.not_inWait2 hlock _) ?_ hst hu
    rcases ha with rfl | ha
    · exact hg
    · exact ha _

theorem Inv.init : Inv {} := by
  have hW : ({} : State).waiters = 0 := refs_eq_zero.2 fun q _ => by simp [Proc.waiting, asleep]
  exact ⟨fun _ => ⟨nofun, nofun, nofun⟩, by decide, .inl rfl, nofun, nofun, fun _ => hW.symm, nofun,
    fun _ => trivial, fun p => by simp [Pc.inWait2], nofun⟩

/-- The invariant holds along every run that spares the sleepers. -/
theorem Inv.of_run (hok : ∀ w, ok w = true) {as : List Act}
    (h : Trace.Run ((system ok).restrict fun s a => a.spares s) as s) : Inv s := by
  refine h.invariant (I := fun _ s => Inv s) ?_ ?_
  · rintro s rfl
    exact Inv.init
  · rintro as s a s' - hi ⟨hg, hs⟩
    exact hi.next hok hg hs

/-! The loop of `cv_bcast` can end: the call of `futex_wake` that comes next makes up the count. -/

/-- In which mode a process gets to the places that matter here. -/
def Proc.modeOk (x : Proc) : Prop :=
  match x.pc with
  | .released _ _ | .woken _ _ => x.mode = .sys
  | .wake _ => x.mode ≠ .ret
  | .test _ => x.mode ≠ .sys
  | _ => True

def Modes (s : State) : Prop := ∀ p, (s.proc p).modeOk

theorem Modes.set (h : Modes s) (hs : s'.proc = (s.set p x).proc) (hx : x.modeOk) : Modes s' := by
  intro q
  rw [hs]
  rcases eq_or_ne q p with rfl | hne
  · rwa [proc_set_same]
  · rw [proc_set_ne hne]
    exact h q

theorem Modes.wakeup (h : Modes s) (w : Word) : Modes (s.wakeup w) := by
  intro q
  rw [proc_wakeup]
  split_ifs
  · exact h q
  · exact h q

theorem Modes.user (h : Modes s) (hm : (s.proc p).mode = .user) (hs : s.user p = some s') : Modes s' := by
  have hgo : ∀ t : State, t.proc = s.proc → ∀ pc : Pc, pc.inWait2 = false → Modes (t.goto p pc) := by
    intro t ht pc hpc
    refine h.set (p := p) (x := { s.proc p with pc := pc }) ?_ ?_
    · simp [State.goto, State.set, ht]
    · cases pc <;> simp_all [Proc.modeOk, Pc.inWait2]
  have henter : s.enter p = some s' → (∀ n, (s.proc p).pc ≠ .test n) → Modes s' := by
    intro he hpc
    unfold State.enter at he
    split_ifs at he <;> cases he
    · exact h.set rfl trivial
    · refine h.set (p := p) (x := { s.proc p with mode := .sys }) rfl ?_
      unfold Proc.modeOk
      dsimp only
      split <;> simp_all
  unfold State.user at hs
  cases hp : (s.proc p).pc <;> rw [hp] at hs <;> try cases hs
  case futexWait | futexWake | futexWait2 | wake => exact henter hs (by simp [hp])
  case testSet k =>
    refine hgo _ rfl _ ?_
    split_ifs
    · rfl
    · cases k <;> rfl
  case test n =>
    refine hgo _ rfl _ ?_
    split_ifs <;> rfl
  all_goals exact hgo _ rfl _ rfl

theorem Modes.sys (h : Modes s) (hm : (s.proc p).mode = .sys) (hs : s.sys ok p = some s') : Modes s' := by
  -- the call is done, with the process awake or asleep
  have hret : ∀ t : State, Modes t → ∀ pc : Pc, pc.inWait2 = false → (∀ n, pc ≠ .wake n) →
      Modes (t.retTo p pc) ∧ ∀ w, Modes (t.sleep p w pc) := by
    intro t ht pc h2 hw
    constructor
    · refine ht.set rfl ?_
      cases pc <;> simp_all [Proc.modeOk, Pc.inWait2]
    · intro w
      refine ht.set rfl ?_
      cases pc <;> simp_all [Proc.modeOk, Pc.inWait2]
  unfold State.sys at hs
  cases hp : (s.proc p).pc <;> rw [hp] at hs <;> dsimp only at hs <;> try cases hs
  case futexWait k =>
    have hk := hret s h (.testSet k) rfl nofun
    split_ifs at hs <;> cases hs
    · exact hk.1
    · exact hk.2 _
    · exact hk.1
  case futexWake k =>
    have h2 : k.unlocked.inWait2 = false := by cases k <;> rfl
    have hw : ∀ n, k.unlocked ≠ .wake n := by cases k <;> exact nofun
    split_ifs at hs <;> cases hs
    · exact (hret s h _ h2 hw).1
    · exact (hret _ (h.wakeup _) _ h2 hw).1
  case futexWait2 m val =>
    split_ifs at hs <;> cases hs
    · exact (hret s h (.testSet (.own m)) rfl nofun).1
    · exact h.set (p := p) (x := { s.proc p with pc := .released m val }) rfl hm
  case released m val =>
    refine (h.wakeup .cvslock).set rfl ?_
    change ((s.wakeup .cvslock).proc p).mode = .sys
    rw [proc_wakeup]
    split_ifs <;> exact hm
  case woken m val =>
    have hk := hret { s with ptlock := none } h (.testSet (.own m)) rfl nofun
    split_ifs at hs <;> cases hs
    · exact hk.2 _
    · exact hk.1
  case wake n =>
    split_ifs at hs <;> cases hs
    · exact (hret s h (.test _) rfl nofun).1
    · exact (hret _ (h.wakeup _) (.test _) rfl nofun).1

theorem Modes.next {a : Act} (h : Modes s) (hs : s.next ok a = some s') : Modes s' := by
  cases Next.of_next hs with
  | @call p c hr hp =>
    refine h.set rfl ?_
    cases c <;> trivial
  | user hr hm hs => exact h.user hm hs
  | sys hr hm hs => exact h.sys hm hs
  | @back p hr hm =>
    refine h.set rfl ?_
    have hp := h p
    unfold Proc.modeOk at hp ⊢
    dsimp only
    split <;> simp_all
  | exit hr hlock => exact h.set rfl trivial
  | @sched _ p => exact h.set rfl (h p)

end Steps

section Progress

open Trace

variable {ok : Word → Bool} {as : List Act} {s : State} {p q : Fin NPROC} {x : Proc} {n : ℕ}

/-- The runs in which no process is killed while it is asleep on `&cvnum`. -/
abbrev sparing (ok : Word → Bool) : System State Act := (system ok).restrict fun s a => a.spares s

theorem Modes.of_run (h : Run (sparing ok) as s) : Modes s := by
  refine h.invariant (I := fun _ s => Modes s) ?_ ?_
  · rintro s rfl p
    trivial
  · rintro as s a s' - hm ⟨-, hs⟩
    exact hm.next hs

theorem run_next {a : Act} {s' : State} (h : Run (sparing ok) as s) (hnext : s.next ok a = some s') (hg : a.spares s) :
    Run (sparing ok) (as ++ [a]) s' := h.snoc ⟨hg, hnext⟩

theorem run_woken {m val : ℕ} (h : Run (sparing ok) as s) (hr : (s.proc q).state = .running)
    (hm : (s.proc q).mode = .sys) (hq : (s.proc q).pc = .woken m val) :
    ∃ s', Run (sparing ok) (as ++ [.step q]) s' ∧ s'.ptlock = none ∧ ∀ p, p ≠ q → s'.proc p = s.proc p := by
  have hnext : s.next ok (.step q) = s.sys ok q := by simp [State.next, hr, hm]
  rw [State.sys, hq] at hnext
  dsimp only at hnext
  split_ifs at hnext with hv
  · exact ⟨_, run_next h hnext trivial, rfl, fun p hp => proc_set_ne hp⟩
  · exact ⟨_, run_next h hnext trivial, rfl, fun p hp => proc_set_ne hp⟩

/-- Whoever has `ptable.lock` can go on and release it. -/
theorem run_unlock (hi : Inv s) (h : Run (sparing ok) as s) :
    ∃ bs s', Run (sparing ok) (as ++ bs) s' ∧ s'.ptlock = none ∧
      ∀ p, (s.proc p).pc.holds = true → s'.proc p = s.proc p := by
  cases hlock : s.ptlock with
  | none => exact ⟨[], s, by simpa using h, hlock, fun _ _ => rfl⟩
  | some q =>
    have h2 : (s.proc q).pc.inWait2 = true := (hi.ptlock q).2 hlock
    have hr : (s.proc q).state = .running := (hi.fits q).1 h2
    have hmode := Modes.of_run h q
    have hne : ∀ p, (s.proc p).pc.holds = true → p ≠ q := by
      rintro p hp rfl
      rw [holds_not_inWait2 hp] at h2
      cases h2
    cases hq : (s.proc q).pc with
    | woken m val =>
      rw [Proc.modeOk, hq] at hmode
      obtain ⟨s', h', hl, ho⟩ := run_woken h hr hmode hq
      exact ⟨_, s', h', hl, fun p hp => ho p (hne p hp)⟩
    | released m val =>
      rw [Proc.modeOk, hq] at hmode
      have hnext : s.next ok (.step q) = some ((s.wakeup .cvslock).goto q (.woken m val)) := by
        simp [State.next, hr, hmode, State.sys, hq]
      have h1 : Run (sparing ok) (as ++ [.step q]) _ := run_next h hnext trivial
      have hsame : ((s.wakeup .cvslock).goto q (.woken m val)).proc q = { s.proc q with pc := .woken m val } := by
        rw [State.goto, proc_set_same, state_wakeup hr]
      obtain ⟨s', h', hl, ho⟩ := run_woken h1 (by rw [hsame]; exact hr) (by rw [hsame]; exact hmode)
        (by rw [hsame])
      refine ⟨_, s', by simpa using h', hl, fun p hp => ?_⟩
      rw [ho p (hne p hp), State.goto, proc_set_ne (hne p hp), proc_wakeup, if_neg]
      simpa [asleep] using (hi.fits p).2.1 hp .cvslock
    | _ =>
      rw [hq] at h2
      cases h2

/-- The run goes on to where the two numbers that the loop compares are equal. -/
def Ends (ok : Word → Bool) (p : Fin NPROC) (as : List Act) : Prop :=
  ∃ bs s', Run (sparing ok) (as ++ bs) s' ∧ (s'.proc p).pc = .test (s'.mem .cvnum)

theorem Ends.append {bs : List Act} (h : Ends ok p (as ++ bs)) : Ends ok p as := by
  obtain ⟨cs, s', h', ht⟩ := h
  exact ⟨_, s', by rw [← List.append_assoc]; exact h', ht⟩

/-- In the call of `futex_wake`. -/
theorem ends_wake_sys (hok : ∀ w, ok w = true) (h : Run (sparing ok) as s) (hlock : s.ptlock = none)
    (hx : s.proc p = x) (hr : x.state = .running) (hm : x.mode = .sys) (hp : x.pc = .wake n) : Ends ok p as := by
  subst hx
  have hnext : s.next ok (.step p) =
      some ((s.wakeup .cvnum).retTo p (.test (u32 (n + s.asleepOn .cvnum)))) := by
    simp [State.next, hr, hm, State.sys, hp, hok, hlock]
  rw [← ((Inv.of_run hok h).wake hlock hp).1] at hnext
  refine ⟨_, _, run_next h hnext trivial, ?_⟩
  rw [State.retTo, proc_set_same]
  rfl

theorem ends_wake (hok : ∀ w, ok w = true) (h : Run (sparing ok) as s) (hlock : s.ptlock = none)
    (hx : s.proc p = x) (hr : x.state = .running) (hk : x.killed = false) (hp : x.pc = .wake n) : Ends ok p as := by
  subst hx
  have hmode := Modes.of_run h p
  rw [Proc.modeOk, hp] at hmode
  cases hm : (s.proc p).mode with
  | ret => exact absurd hm hmode
  | sys => exact ends_wake_sys hok h hlock rfl hr hm hp
  | user =>
    have hnext : s.next ok (.step p) = some (s.set p { s.proc p with mode := .sys }) := by
      simp [State.next, hr, hm, State.user, hp, State.enter, hk]
    exact (ends_wake_sys hok (run_next h hnext trivial) hlock proc_set_same hr rfl hp).append

/-- At the test of the loop, in user code. -/
theorem ends_test (hok : ∀ w, ok w = true) (h : Run (sparing ok) as s) (hlock : s.ptlock = none)
    (hx : s.proc p = x) (hr : x.state = .running) (hk : x.killed = false) (hm : x.mode = .user) (hp : x.pc = .test n) :
    Ends ok p as := by
  subst hx
  by_cases hn : s.mem .cvnum = n
  · exact ⟨[], s, by simpa using h, by rw [hn, hp]⟩
  · have hnext : s.next ok (.step p) = some (s.goto p (.wake n)) := by
      simp [State.next, hr, hm, State.user, hp, hn]
    exact (ends_wake hok (run_next h hnext trivial) hlock proc_set_same hr hk rfl).append

/-- The process is running. -/
theorem ends_bcast (hok : ∀ w, ok w = true) (h : Run (sparing ok) as s) (hlock : s.ptlock = none)
    (hx : s.proc p = x) (hr : x.state = .running) (hk : x.killed = false) (hp : x.pc = .wake n ∨ x.pc = .test n) :
    Ends ok p as := by
  rcases hp with hp | hp
  · exact ends_wake hok h hlock hx hr hk hp
  · subst hx
    have hmode := Modes.of_run h p
    rw [Proc.modeOk, hp] at hmode
    cases hm : (s.proc p).mode with
    | sys => exact absurd hm hmode
    | user => exact ends_test hok h hlock rfl hr hk hm hp
    | ret =>
      have hnext : s.next ok (.step p) = some (s.set p { s.proc p with mode := .user }) := by
        simp [State.next, hr, hm, hk]
      exact (ends_test hok (run_next h hnext trivial) hlock proc_set_same hr hk rfl hp).append

/-- From inside the loop. -/
theorem ends_loop (hok : ∀ w, ok w = true) (h : Run (sparing ok) as s)
    (hk : (s.proc p).killed = false) (hp : (s.proc p).pc = .wake n ∨ (s.proc p).pc = .test n) : Ends ok p as := by
  have hi := Inv.of_run hok h
  have hh : (s.proc p).pc.holds = true := by rcases hp with hp | hp <;> (rw [hp]; rfl)
  obtain ⟨bs, s₁, h1, hlock, hsame⟩ := run_unlock hi h
  have hsame := hsame p hh
  have hst := (hi.fits p).2
  refine (show Ends ok p (as ++ bs) from ?_).append
  cases hs : (s.proc p).state with
  | unused => exact absurd hs (hst.2 hh)
  | sleeping w => exact absurd hs (hst.1 hh w)
  | running => exact ends_bcast hok h1 hlock hsame hs hk hp
  | runnable =>
    have hnext : s₁.next ok (.run p) = some (s₁.set p { s.proc p with state := .running }) := by
      simp [State.next, hlock, hsame, hs]
    exact (ends_bcast hok (run_next h1 hnext trivial) hlock proc_set_same rfl hk hp).append

/-- A process that holds `cvslock` inside `cv_bcast`: the results of `futex_wake` it has added up and
not yet subtracted from `cvnum`. -/
def Pc.added : Pc → Option ℕ
  | .wake n | .test n | .sub n | .clear n _ => some n
  | .release .bcast => some 0
  | _ => none

/-- The count is exact inside `cv_bcast`, and its loop can end. -/
theorem cvnum_exact (hok : ∀ w, ok w = true) (h : Run (sparing ok) as s) {n : ℕ}
    (hp : (s.proc p).pc.added = some n) :
    s.mem .cvnum = n + s.waiters ∧
      ((s.proc p).pc = .wake n ∨ (s.proc p).pc = .test n → (s.proc p).killed = false →
        ∃ bs s', Run (sparing ok) (as ++ bs) s' ∧ (s'.proc p).pc = .test (s'.mem .cvnum)) := by
  refine ⟨?_, fun hw hk => ends_loop hok h hk hw⟩
  have hi := Inv.of_run hok h
  have hh : (s.proc p).pc.holds = true ∧ (s.proc p).pc.owed = n := by
    revert hp
    unfold Pc.added
    split <;> simp_all [Pc.holds, Pc.owed]
  have ho := hi.owed p hh.1
  rw [hh.2] at ho
  omega

def p0 : Fin NPROC := ⟨0, NPROC_pos⟩
def p1 : Fin NPROC := ⟨1, by decide⟩

/-- `p0` runs `cv_wait` until it sleeps. -/
def waitRun : List Act :=
  [.fork p0, .fork p1, .run p0, .call p0 (.cvWait 0)] ++ List.replicate 12 (.step p0)

/-- `p1` takes the first `k` steps of `cv_bcast`; the third ends its call of `futex_wake`. -/
def bcastRun (k : ℕ) : List Act := [.run p1, .call p1 .cvBcast] ++ List.replicate k (.step p1)

/-- `State.next` where it spares the sleepers. -/
def State.nextSparing (s : State) (a : Act) : Option State :=
  if a.spares s then s.next (fun _ => true) a else none

theorem nextSparing_step (s : State) (a : Act) (s' : State) (h : s.nextSparing a = some s') :
    (sparing fun _ => true).step s a s' := by
  unfold State.nextSparing at h
  split_ifs at h with hg
  exact ⟨hg, h⟩

theorem cvnum_exact_waiter : ∃ as s, Run (sparing fun _ => true) as s ∧
    (s.proc p1).pc.added = some 0 ∧ s.waiters = 1 ∧ s.mem .cvnum = 0 + s.waiters := by
  have hd : ((waitRun ++ bcastRun 1).foldlM State.nextSparing {}).map
      (fun s => ((s.proc p1).pc.added, s.waiters)) = some (some 0, 1) := by
    decide +kernel
  obtain ⟨s, hs, he⟩ := Option.map_eq_some_iff.1 hd
  have hp : (s.proc p1).pc.added = some 0 := congrArg Prod.fst he
  have h : Run (sparing fun _ => true) (waitRun ++ bcastRun 1) s :=
    Run.of_foldlM nextSparing_step rfl hs
  exact ⟨_, s, h, hp, congrArg Prod.snd he, (cvnum_exact (fun _ => rfl) h hp).1⟩

/-- Killed in its sleep, a process is no longer asleep but still counted. -/
theorem cvnum_counts_killed : ∃ as s, Run (system fun _ => true) as s ∧ (s.proc p1).pc = .test 0 ∧
    s.mem .cvnum = 1 ∧ s.waiters = 0 := by
  have hd : ((waitRun ++ .kill p0 :: bcastRun 3).foldlM (State.next fun _ => true) {}).map
      (fun s => ((s.proc p1).pc, s.mem .cvnum, s.waiters)) = some (.test 0, 1, 0) := by
    decide +kernel
  obtain ⟨s, hs, he⟩ := Option.map_eq_some_iff.1 hd
  simp only [Prod.mk.injEq] at he
  exact ⟨_, s, Run.of_foldlM (fun _ _ _ h => h) rfl hs, he⟩

end Progress

end Xv6.Cond

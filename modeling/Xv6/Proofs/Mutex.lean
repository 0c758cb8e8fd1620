import Xv6.Spec.Mutex

/-! A mutex has one holder, and no process sleeps on a free mutex without a wake on its way. -/

namespace Xv6.Mutex

open Trace Function

section Words

variable {P : Type} {s : State P} {p : P} {w w' : Word} {v : ℕ}

@[simp] theorem put_mem : (s.put w v).mem w' = if w' = w then v else s.mem w' := update_apply ..

@[simp] theorem put_proc : (s.put w v).proc = s.proc := rfl

theorem wakeup_pc : ((s.wakeup w).proc p).pc = (s.proc p).pc := by
  unfold State.wakeup
  dsimp only
  split_ifs <;> rfl

theorem wakeup_locked : ((s.wakeup w).proc p).locked = (s.proc p).locked := by
  unfold State.wakeup
  dsimp only
  split_ifs <;> rfl

/-- Who sleeps after a wake slept before it, on another word. -/
theorem wakeup_sleeping (h : ((s.wakeup w).proc p).state = .sleeping w') :
    (s.proc p).state = .sleeping w' ∧ w' ≠ w := by
  unfold State.wakeup at h
  dsimp only at h
  split_ifs at h with hw
  exact ⟨h, fun he => hw (he ▸ h)⟩

theorem wakeup_unused (h : ((s.wakeup w).proc p).state = .unused) : (s.proc p).state = .unused := by
  unfold State.wakeup at h
  dsimp only at h
  split_ifs at h
  exact h

end Words

section Table

variable {P : Type} [DecidableEq P] {s : State P} {p q : P} {x : Proc}

@[simp] theorem set_proc : (s.set p x).proc q = if q = p then x else s.proc q := update_apply ..

@[simp] theorem set_mem : (s.set p x).mem = s.mem := rfl

end Table

/-- The mutex that a process in the middle of a release must hold. -/
def Pc.needs (m : ℕ) : Pc → Bool
  | .release n | .wait2 _ _ n | .wait2Store _ _ n => n = m
  | _ => false

/-- Asleep on the lock, or past the test and about to sleep on it. -/
def Proc.waits (m : ℕ) (x : Proc) : Prop := x.state = .sleeping (.lock m) ∨ x.pc = .waitSleep m

structure Inv {P : Type} (s : State P) : Prop where
  fresh : ∀ p, (s.proc p).state = .unused → (s.proc p).pc = .user
  held : ∀ p m, (s.proc p).locked m = true → s.mem (.lock m) ≠ 0
  one : ∀ p q m, (s.proc p).locked m = true → (s.proc q).locked m = true → p = q
  needs : ∀ p m, (s.proc p).pc.needs m = true → (s.proc p).locked m = true
  ptlock : ∀ p, (s.proc p).pc.locks = true → s.ptlock = some p
  owed : ∀ p m, (s.proc p).waits m → s.mem (.lock m) = 0 → ∃ q, (s.proc q).pc.owes m = true

/-- What others may do to a process: wake it. -/
structure Proc.Keeps (x y : Proc) : Prop where
  pc : y.pc = x.pc
  locked : y.locked = x.locked
  unused : y.state = .unused → x.state = .unused

theorem Proc.Keeps.of_eq {x y : Proc} (h : y = x) : x.Keeps y := h ▸ ⟨rfl, rfl, id⟩

theorem Proc.not_waits {x : Proc} {m : ℕ} (hrun : x.state = .running) (hpc : x.pc ≠ .waitSleep m) : ¬ x.waits m := by
  rintro (h | h)
  · exact absurd (hrun.symm.trans h) (by simp)
  · exact hpc h

section Steps

variable {P : Type} {s s' : State P} {p : P} {pc : Pc} {x : Proc} {m : ℕ}

/-- One process goes on, and nobody else takes or gives up a lock. -/
theorem Inv.change (hi : Inv s) (hself : s'.proc p = x) (hother : ∀ q, q ≠ p → (s.proc q).Keeps (s'.proc q))
    (hoth : ∀ q, q ≠ p → s.ptlock = some q → s'.ptlock = some q) (hfresh : x.state = .unused → x.pc = .user)
    (hneeds : ∀ m, x.pc.needs m = true → x.locked m = true) (hpt : x.pc.locks = true → s'.ptlock = some p)
    (hmem : ∀ m, s'.mem (.lock m) = 0 → s.mem (.lock m) = 0 ∨ (s.proc p).locked m = true)
    (hlocked : ∀ m, x.locked m = true → s'.mem (.lock m) ≠ 0 ∧ ((s.proc p).locked m = true ∨ s.mem (.lock m) = 0))
    (howed : ∀ q m, (s'.proc q).waits m → s'.mem (.lock m) = 0 → x.pc.owes m = true ∨
      (s.proc q).waits m ∧ s.mem (.lock m) = 0 ∧ (s.proc p).pc.owes m = false) : Inv s' := by
  subst hself
  refine ⟨fun q hq => ?_, fun q m hq => ?_, fun q r m hq hr => ?_, fun q m hq => ?_, fun q hq => ?_,
    fun q m hq h0 => ?_⟩
  · rcases eq_or_ne q p with rfl | hne
    · exact hfresh hq
    · rw [(hother q hne).pc]
      exact hi.fresh q ((hother q hne).unused hq)
  · rcases eq_or_ne q p with rfl | hne
    · exact (hlocked m hq).1
    · rw [(hother q hne).locked] at hq
      exact fun h0 => (hmem m h0).elim (hi.held q m hq) fun hp => hne (hi.one q p m hq hp)
  · -- a new holder has found the word 0, so nobody else holds the lock
    have hl : ∀ q, (s'.proc q).locked m = true → (s.proc q).locked m = true ∨ q = p ∧ s.mem (.lock m) = 0 := by
      intro q hq
      rcases eq_or_ne q p with rfl | hne
      · exact (hlocked m hq).2.imp_right fun h0 => ⟨rfl, h0⟩
      · rw [(hother q hne).locked] at hq
        exact .inl hq
    rcases hl q hq with hq | ⟨rfl, h0⟩
    · rcases hl r hr with hr | ⟨-, h0⟩
      · exact hi.one q r m hq hr
      · exact absurd h0 (hi.held q m hq)
    · rcases hl r hr with hr | ⟨rfl, -⟩
      · exact absurd h0 (hi.held r m hr)
      · rfl
  · rcases eq_or_ne q p with rfl | hne
    · exact hneeds m hq
    · rw [(hother q hne).pc] at hq
      rw [(hother q hne).locked]
      exact hi.needs q m hq
  · rcases eq_or_ne q p with rfl | hne
    · exact hpt hq
    · rw [(hother q hne).pc] at hq
      exact hoth q hne (hi.ptlock q hq)
  · rcases howed q m hq h0 with hp | ⟨hw, h0, hno⟩
    · exact ⟨p, hp⟩
    · obtain ⟨r, hr⟩ := hi.owed q m hw h0
      refine ⟨r, ?_⟩
      rw [(hother r ?_).pc]
      · exact hr
      · rintro rfl
        rw [hno] at hr
        cases hr

/-- One process goes on, and nobody falls asleep. -/
theorem Inv.go (hi : Inv s) (hself : s'.proc p = x) (hproc : ∀ q, q ≠ p → s'.proc q = s.proc q)
    (hfresh : x.state = .unused → x.pc = .user) (hmem : ∀ m, s'.mem (.lock m) = 0 ↔ s.mem (.lock m) = 0)
    (hlocked : ∀ m, x.locked m = true → (s.proc p).locked m = true)
    (hneeds : ∀ m, x.pc.needs m = true → x.locked m = true) (hpt : x.pc.locks = true → s'.ptlock = some p)
    (hoth : ∀ q, q ≠ p → s.ptlock = some q → s'.ptlock = some q)
    (hwaits : ∀ m, x.waits m → s.mem (.lock m) = 0 → (s.proc p).waits m)
    (howes : ∀ m, (s.proc p).pc.owes m = true → x.pc.owes m = true) : Inv s' := by
  refine hi.change hself (fun q hq => .of_eq (hproc q hq)) hoth hfresh hneeds hpt (fun m h0 => .inl ((hmem m).1 h0))
    (fun m hm => ⟨fun h0 => hi.held p m (hlocked m hm) ((hmem m).1 h0), .inl (hlocked m hm)⟩) fun q m hq h0 => ?_
  have h0' := (hmem m).1 h0
  cases ho : (s.proc p).pc.owes m with
  | true => exact .inl (howes m ho)
  | false =>
    refine .inr ⟨?_, h0', rfl⟩
    rcases eq_or_ne q p with rfl | hne
    · exact hwaits m (hself ▸ hq) h0'
    · rwa [hproc q hne] at hq

variable [DecidableEq P]

/-- `p` goes on to `pc`, with the words and `ptable.lock` as in `t`. -/
theorem Inv.goto {t : State P} (hi : Inv s) (hrun : (s.proc p).state = .running) (ht : t.proc = s.proc)
    (hmem : ∀ m, t.mem (.lock m) = 0 ↔ s.mem (.lock m) = 0)
    (hneeds : ∀ m, pc.needs m = true → (s.proc p).locked m = true) (hpt : pc.locks = true → t.ptlock = some p)
    (hoth : ∀ q, q ≠ p → s.ptlock = some q → t.ptlock = some q)
    (hwaits : ∀ m, pc = .waitSleep m → s.mem (.lock m) ≠ 0) (howes : ∀ m, (s.proc p).pc.owes m = false) :
    Inv (t.goto p pc) := by
  have hself : (t.goto p pc).proc p = { s.proc p with pc := pc } := by simp [State.goto, ht]
  refine hi.go hself (fun q hq => by simp [State.goto, hq, ht]) (fun hu => absurd (hrun.symm.trans hu) (by simp)) hmem
    (fun _ => id) hneeds hpt hoth (fun m hm h0 => absurd hm (Proc.not_waits hrun fun he => hwaits m he h0)) fun m hm => ?_
  rw [howes m] at hm
  cases hm

/-- The test-and-set of `p` finds the word set. -/
theorem Inv.failed (hi : Inv s) (hrun : (s.proc p).state = .running) (h0 : s.mem (.lock m) ≠ 0)
    (howes : ∀ n, (s.proc p).pc.owes n = false) (hpc : pc.locks = false) (hneeds : ∀ n, pc.needs n = false) :
    Inv ((s.put (.lock m) 1).goto p pc) := by
  refine hi.goto hrun rfl (fun n => ?_) (fun n hn => ?_) (fun hn => ?_) (fun _ _ => id) (fun n hn => ?_) howes
  · rcases eq_or_ne n m with rfl | hn
    · simp [h0]
    · simp [hn]
  · rw [hneeds n] at hn
    cases hn
  · rw [hpc] at hn
    cases hn
  · rw [hn] at hpc
    cases hpc

/-- It finds 0. -/
theorem Inv.taken (hi : Inv s) (hrun : (s.proc p).state = .running) (h0 : s.mem (.lock m) = 0)
    (howes : ∀ n, (s.proc p).pc.owes n = false) : Inv ((s.put (.lock m) 1).take p m) := by
  have hself : ((s.put (.lock m) 1).take p m).proc p =
      { s.proc p with pc := .user, locked := update (s.proc p).locked m true } := by simp [State.take]
  have hproc : ∀ q, q ≠ p → ((s.put (.lock m) 1).take p m).proc q = s.proc q := fun q hq => by simp [State.take, hq]
  have hmem : ∀ n, ((s.put (.lock m) 1).take p m).mem (.lock n) = 0 → s.mem (.lock n) = 0 := fun n hn => by
    rcases eq_or_ne n m with rfl | hne
    · exact h0
    · simpa [State.take, hne] using hn
  refine hi.change hself (fun q hq => .of_eq (hproc q hq)) (fun _ _ => id) (fun _ => rfl) (fun _ hn => by cases hn)
    (fun hn => by cases hn) (fun n hn => .inl (hmem n hn)) (fun n hn => ?_) fun q n hq hn => .inr ⟨?_, hmem n hn, howes n⟩
  · dsimp only at hn
    rcases eq_or_ne n m with rfl | hne
    · exact ⟨by simp [State.take], .inr h0⟩
    · rw [update_of_ne hne] at hn
      exact ⟨fun h0 => hi.held p n hn (hmem n h0), .inl hn⟩
  · rcases eq_or_ne q p with rfl | hne
    · rw [hself] at hq
      exact absurd hq (Proc.not_waits hrun (by simp))
    · rwa [hproc q hne] at hq

/-- The holder `p` stores 0, and owes the wake from now on. -/
theorem Inv.dropped (hi : Inv s) (hrun : (s.proc p).state = .running)
    (hneeds : (s.proc p).pc.needs m = true) (howes : pc.owes m = true)
    (hlocks : pc.locks = true → (s.proc p).pc.locks = true) : Inv (s.drop p m pc) := by
  have hself : (s.drop p m pc).proc p =
      { s.proc p with pc := pc, locked := update (s.proc p).locked m false } := by simp [State.drop]
  have hproc : ∀ q, q ≠ p → (s.drop p m pc).proc q = s.proc q := fun q hq => by simp [State.drop, hq]
  have hmem : ∀ n, n ≠ m → (s.drop p m pc).mem (.lock n) = s.mem (.lock n) := fun n hn => by simp [State.drop, hn]
  have hpc : ∀ n, pc.needs n = false ∧ pc ≠ .waitSleep n := by
    intro n
    cases pc <;> simp_all [Pc.owes, Pc.needs]
  have hold : ∀ n, (s.proc p).pc.owes n = false := by
    intro n
    cases hc : (s.proc p).pc <;> simp_all [Pc.owes, Pc.needs]
  refine hi.change hself (fun q hq => .of_eq (hproc q hq)) (fun _ _ => id)
    (fun hu => absurd (hrun.symm.trans hu) (by simp)) (fun n hn => absurd hn (by simp [hpc n]))
    (fun hn => hi.ptlock p (hlocks hn)) (fun n hn => ?_) (fun n hn => ?_) fun q n hq hn => ?_
  · rcases eq_or_ne n m with rfl | hne
    · exact .inr (hi.needs p n hneeds)
    · exact .inl (hmem n hne ▸ hn)
  · dsimp only at hn
    rcases eq_or_ne n m with rfl | hne
    · rw [update_self] at hn
      cases hn
    · rw [update_of_ne hne] at hn
      exact ⟨hmem n hne ▸ hi.held p n hn, .inl hn⟩
  · rcases eq_or_ne n m with rfl | hne
    · exact .inl howes
    · refine .inr ⟨?_, hmem n hne ▸ hn, hold n⟩
      rcases eq_or_ne q p with rfl | hqp
      · rw [hself] at hq
        exact absurd hq (Proc.not_waits hrun (hpc n).2)
      · rwa [hproc q hqp] at hq

/-- The wake on the lock of `m`, by `p`, which has `ptable.lock` or takes it. -/
theorem Inv.woken (hi : Inv s) (hrun : (s.proc p).state = .running)
    (hfree : ∀ q, q ≠ p → s.ptlock ≠ some q) (howes : (s.proc p).pc.owes m = true)
    (hpc : ∀ n, pc.needs n = false ∧ pc ≠ .waitSleep n) (hlocks : pc.locks = true → (s.proc p).pc.locks = true) :
    Inv ((s.wakeup (.lock m)).goto p pc) := by
  have hself : ((s.wakeup (.lock m)).goto p pc).proc p = { s.proc p with pc := pc } := by
    simp [State.goto, State.wakeup, hrun]
  have hproc : ∀ q, q ≠ p → ((s.wakeup (.lock m)).goto p pc).proc q = (s.wakeup (.lock m)).proc q :=
    fun q hq => by simp [State.goto, hq]
  refine hi.change hself (fun q hq => hproc q hq ▸ ⟨wakeup_pc, wakeup_locked, wakeup_unused⟩) (fun _ _ => id)
    (fun hu => absurd (hrun.symm.trans hu) (by simp)) (fun n hn => absurd hn (by simp [hpc n]))
    (fun hn => hi.ptlock p (hlocks hn)) (fun n hn => .inl hn) (fun n hn => ⟨hi.held p n hn, .inl hn⟩)
    fun q n hq hn => .inr ?_
  have hne : q ≠ p := by
    rintro rfl
    rw [hself] at hq
    exact absurd hq (Proc.not_waits hrun (hpc n).2)
  rw [hproc q hne] at hq
  rcases hq with hq | hq
  · obtain ⟨hsleep, hnm⟩ := wakeup_sleeping hq
    refine ⟨.inl hsleep, hn, Bool.eq_false_iff.2 fun ho => hnm ?_⟩
    cases hc : (s.proc p).pc <;> simp_all [Pc.owes]
  · -- nobody is between the test and the sleep while `p` wakes
    rw [wakeup_pc] at hq
    exact absurd (hi.ptlock q (by rw [hq]; rfl)) (hfree q hne)

/-- `p` has `ptable.lock` and sleeps on `w`: on a lock only if it was about to. -/
theorem Inv.slept {w : Word} (hi : Inv s) (hlock : (s.proc p).pc.locks = true)
    (hneeds : ∀ m, pc.needs m = false) (hpc : pc.locks = false) (hw : ∀ m, w = .lock m → (s.proc p).pc = .waitSleep m)
    (howes : ∀ m, (s.proc p).pc.owes m = false) : Inv (s.sleep p w pc) := by
  have hself : (s.sleep p w pc).proc p = { s.proc p with state := .sleeping w, pc := pc } := by simp [State.sleep]
  refine hi.go hself (fun q hq => by simp [State.sleep, hq]) (fun hu => by cases hu) (fun _ => Iff.rfl) (fun _ => id)
    (fun m hm => absurd hm (by simp [hneeds m])) (fun hm => absurd hm (by simp [hpc])) (fun q hq hpt => ?_)
    (fun m hm _ => ?_) fun m hm => ?_
  · rw [hi.ptlock p hlock] at hpt
    exact absurd (Option.some.inj hpt).symm hq
  · rcases hm with hm | hm
    · exact .inr (hw m (PState.sleeping.inj hm))
    · rw [show pc = .waitSleep m from hm] at hpc
      cases hpc
  · rw [howes m] at hm
    cases hm

/-- Where a process is decides what it needs, has and owes. -/
theorem Inv.code (hi : Inv s) (hrun : (s.proc p).state = .running) (h : s.code p = some s') : Inv s' := by
  have howes : ∀ {pc : Pc}, (s.proc p).pc = pc → (∀ m, pc.owes m = false) → ∀ m, (s.proc p).pc.owes m = false :=
    fun he ho m => he ▸ ho m
  -- a process that takes `ptable.lock` finds it free; one that has it is the only one
  have hfree : s.ptlock = none → ∀ q, q ≠ p → s.ptlock ≠ some q := fun h0 q _ hq => by
    rw [h0] at hq
    cases hq
  have hmine : ∀ {pc : Pc}, (s.proc p).pc = pc → pc.locks = true → ∀ q, q ≠ p → s.ptlock ≠ some q :=
    fun he hl q hq hpt => hq (Option.some.inj (hpt.symm.trans (hi.ptlock p (he ▸ hl))))
  unfold State.code at h
  cases hpc : (s.proc p).pc <;> simp only [hpc, reduceCtorEq] at h
  case testSet | tryTestSet =>
    split_ifs at h with h0 <;> cases h
    · exact hi.failed hrun h0 (howes hpc fun _ => rfl) rfl fun _ => rfl
    · exact hi.taken hrun (by simpa using h0) (howes hpc fun _ => rfl)
  case wait m =>
    split_ifs at h with h0
    cases h
    exact hi.goto hrun rfl (fun _ => Iff.rfl) (fun _ hn => by cases hn) (fun _ => rfl)
      (fun q hq hpt => absurd hpt (hfree h0 q hq)) (fun _ hn => by cases hn) (howes hpc fun _ => rfl)
  case waitTest m =>
    split_ifs at h with h1 <;> cases h
    · refine hi.goto hrun rfl (fun _ => Iff.rfl) (fun _ hn => by cases hn)
        (fun _ => hi.ptlock p (by rw [hpc]; rfl)) (fun _ _ => id) (fun n hn => ?_) (howes hpc fun _ => rfl)
      rw [← Pc.waitSleep.inj hn, h1]
      exact Nat.one_ne_zero
    · exact hi.goto hrun rfl (fun _ => Iff.rfl) (fun _ hn => by cases hn) (fun hn => by cases hn)
        (fun q hq hpt => absurd hpt (hmine hpc rfl q hq)) (fun _ hn => by cases hn) (howes hpc fun _ => rfl)
  case wake m =>
    split_ifs at h with h0
    cases h
    exact hi.woken hrun (hfree h0) (by simp [hpc, Pc.owes]) (fun _ => ⟨rfl, by simp⟩) (fun hn => by cases hn)
  case wait2 l val m =>
    split_ifs at h with h0
    cases h
    exact hi.goto hrun rfl (fun _ => Iff.rfl) (fun n hn => hi.needs p n (by rw [hpc]; exact hn)) (fun _ => rfl)
      (fun q hq hpt => absurd hpt (hfree h0 q hq)) (fun _ hn => by cases hn) (howes hpc fun _ => rfl)
  case wait2Test l val =>
    split_ifs at h <;> cases h
    · exact hi.goto hrun rfl (fun _ => Iff.rfl) (fun _ hn => by cases hn)
        (fun _ => hi.ptlock p (by rw [hpc]; rfl)) (fun _ _ => id) (fun _ hn => by cases hn) (howes hpc fun _ => rfl)
    · exact hi.goto hrun rfl (fun _ => Iff.rfl) (fun _ hn => by cases hn) (fun hn => by cases hn)
        (fun q hq hpt => absurd hpt (hmine hpc rfl q hq)) (fun _ hn => by cases hn) (howes hpc fun _ => rfl)
  all_goals cases h
  case waitSleep m =>
    exact hi.slept (by rw [hpc]; rfl) (fun _ => rfl) rfl (fun n hn => by rw [hpc, Word.lock.inj hn])
      (howes hpc fun _ => rfl)
  case wait2Sleep l =>
    exact hi.slept (by rw [hpc]; rfl) (fun _ => rfl) rfl (fun n hn => by cases hn) (howes hpc fun _ => rfl)
  case release m =>
    exact hi.dropped hrun (by simp [hpc, Pc.needs]) (by simp [Pc.owes]) (fun hn => by cases hn)
  case wait2Store l val m =>
    exact hi.dropped hrun (by simp [hpc, Pc.needs]) (by simp [Pc.owes]) (fun _ => by rw [hpc]; rfl)
  case wait2Wake l val m =>
    exact hi.woken hrun (hmine hpc rfl) (by simp [hpc, Pc.owes]) (fun _ => ⟨rfl, by simp⟩) (fun _ => by rw [hpc]; rfl)

/-- A process whose place in the code stays is put to another state, or into a free slot. -/
theorem Inv.reset (hi : Inv s) (hfresh : x.state = .unused → x.pc = .user) (hlocked : ∀ m, x.locked m = true → (s.proc p).locked m = true)
    (hneeds : ∀ m, x.pc.needs m = true → x.locked m = true) (hpt : x.pc.locks = true → s.ptlock = some p)
    (hwaits : ∀ m, ¬ x.waits m) (howes : ∀ m, (s.proc p).pc.owes m = true → x.pc.owes m = true) :
    Inv (s.set p x) :=
  hi.go (by simp) (fun q hq => by simp [hq]) hfresh (fun _ => Iff.rfl) hlocked hneeds hpt (fun _ _ => id)
    (fun m hm => absurd hm (hwaits m)) howes

theorem Inv.next {a : Act P} (hi : Inv s) (h : s.next a = some s') : Inv s' := by
  unfold State.next at h
  cases a <;> obtain ⟨hg, h⟩ := Option.ite_none_right_eq_some.1 h
  case step p => exact hi.code hg h
  all_goals cases h
  case fork p =>
    refine hi.reset (fun hm => by cases hm) (fun _ hm => by cases hm) (fun _ hm => by cases hm) (fun hm => by cases hm)
      (fun m hm => ?_) (fun m hm => by rw [hi.fresh p hg.2] at hm; cases hm)
    rcases hm with hm | hm <;> cases hm
  case exit p =>
    refine hi.reset (fun _ => rfl) (fun _ hm => by cases hm) (fun _ hm => by cases hm) (fun hm => by cases hm)
      (fun m hm => ?_) (fun m hm => by rw [hg.2.2] at hm; cases hm)
    rcases hm with hm | hm <;> cases hm
  case call p c =>
    obtain ⟨hrun, hpc, hc⟩ := hg
    refine hi.goto hrun rfl (fun _ => Iff.rfl) (fun m hm => ?_) (fun hm => ?_) (fun _ _ => id) (fun m hm => ?_)
      (fun m => by rw [hpc]; rfl)
    all_goals cases c <;> simp_all [Call.entry, Call.allowed, Pc.needs, Pc.locks]
  case store p l v => exact ⟨hi.fresh, hi.held, hi.one, hi.needs, hi.ptlock, hi.owed⟩
  case run p | tick p =>
    refine hi.reset (fun hm => by cases hm) (fun _ => id) (fun m hm => hi.needs p m hm) (fun hm => hi.ptlock p hm)
      (fun m hm => ?_) (fun _ => id)
    rcases hm with hm | hm
    · cases hm
    · -- it would have `ptable.lock`, which is free
      have hpt := hi.ptlock p (by rw [show (s.proc p).pc = .waitSleep m from hm]; rfl)
      rw [hg.1] at hpt
      cases hpt

theorem Inv.of_run {as : List (Act P)} (h : Run (system P) as s) : Inv s := by
  apply Run.invariant (I := fun _ s => Inv s) _ _ h
  · rintro s rfl
    constructor
    · exact fun _ _ => rfl
    · intro _ _ hm
      cases hm
    · intro _ _ _ hm
      cases hm
    · intro _ _ hm
      cases hm
    · intro _ hm
      cases hm
    · intro _ _ hm
      rcases hm with hm | hm <;> cases hm
  · intro as s a s' _ hi hs
    exact hi.next hs

/-- At most one process has a mutex locked, and no process sleeps on a free one unless the wake of
an unlock is still to come. -/
theorem mutex_correct {as : List (Act P)} (h : Run (system P) as s) (m : ℕ) :
    (∀ p q, (s.proc p).locked m = true → (s.proc q).locked m = true → p = q) ∧
    ∀ p, s.mem (.lock m) = 0 → (s.proc p).state = .sleeping (.lock m) → ∃ q, (s.proc q).pc.owes m = true := by
  have hi := Inv.of_run h
  exact ⟨fun p q hp hq => hi.one p q m hp hq, fun p h0 hp => hi.owed p m (.inl hp) h0⟩

end Steps

/-- One process locks, the other one sleeps, the first one stores 0 and has not yet woken it. -/
def contended : List (Act Bool) :=
  [.fork true, .fork false, .run true, .call true (.lock 0), .step true, .run false, .call false (.lock 0)] ++
    List.replicate 4 (.step false) ++ [.call true (.unlock 0), .step true]

theorem mutex_correct_contended : ∃ s, Run (system Bool) contended s ∧ s.mem (.lock 0) = 0 ∧
    (s.proc false).state = .sleeping (.lock 0) ∧ ∃ q, (s.proc q).pc.owes 0 = true := by
  have hd : (contended.foldlM State.next {}).map (fun s => (s.mem (.lock 0), (s.proc false).state)) =
      some (0, .sleeping (.lock 0)) := by decide +kernel
  obtain ⟨s, hs, he⟩ := Option.map_eq_some_iff.1 hd
  simp only [Prod.mk.injEq] at he
  have h : Run (system Bool) contended s := Run.of_foldlM (fun _ _ _ h => h) rfl hs
  exact ⟨s, h, he.1, he.2, (mutex_correct h 0).2 false he.1 he.2⟩

end Xv6.Mutex

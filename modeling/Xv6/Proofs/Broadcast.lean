import Xv6.Proofs.CondVar

/-! `cv_bcast` misses no process that has given up the mutex in `cv_wait`. From there on that process has
`cvslock` until it sleeps, so the broadcast comes after, and its first `futex_wake` ends the sleep.
Processes may be killed at any time. -/

namespace Xv6.Cond

open Trace Option

variable {ok : Word → Bool} {s s' t : State} {p q : Fin NPROC} {m : ℕ} {x : Proc} {pc pc' : Pc} {w : Word} {a : Act}

/-- What holds whoever is killed: `cvslock` has one holder, `ptable.lock` is with the process in
`sys_futex_wait2`, and only an address that `argptr` accepts is slept on. -/
structure Base (ok : Word → Bool) (s : State) : Prop where
  lock : ∀ p, (s.proc p).pc.holds = true → s.mem .cvslock = 1
  one : ∀ p q, (s.proc p).pc.holds = true → (s.proc q).pc.holds = true → p = q
  ptlock : ∀ p, (s.proc p).pc.inWait2 = true ↔ s.ptlock = some p
  ok : ∀ p, (s.proc p).pc.inWait2 = true ∨ asleep .cvnum (s.proc p) = true → ok .cvnum = true

/-- Process `p` moves, and others are woken at most. -/
theorem Base.update (hb : Base ok s) (hpc : ∀ q, q ≠ p → (s'.proc q).pc = (s.proc q).pc)
    (hsl : ∀ q, q ≠ p → asleep .cvnum (s'.proc q) = true → asleep .cvnum (s.proc q) = true)
    (hlock : (s'.proc p).pc.holds = true → s'.mem .cvslock = 1 ∧ ((s.proc p).pc.holds = true ∨ s.mem .cvslock = 0))
    (hmem : s'.mem .cvslock = s.mem .cvslock ∨ s'.mem .cvslock = 1 ∨ (s.proc p).pc.holds = true)
    (hpt : (s'.proc p).pc.inWait2 = true ↔ s'.ptlock = some p)
    (hoth : ∀ q, q ≠ p → (s'.ptlock = some q ↔ s.ptlock = some q))
    (hok : (s'.proc p).pc.inWait2 = true ∨ asleep .cvnum (s'.proc p) = true → ok .cvnum = true) : Base ok s' := by
  -- the holder that `p` would become is the only one
  have honly : ∀ q, q ≠ p → (s.proc q).pc.holds = true → (s'.proc p).pc.holds = true → False := by
    intro q hq hh hp
    rcases (hlock hp).2 with h | h
    · exact hq (hb.one q p hh h)
    · rw [hb.lock q hh] at h
      cases h
  refine ⟨fun q hq => ?_, fun q r hq hr => ?_, fun q => ?_, fun q hq => ?_⟩
  · rcases eq_or_ne q p with rfl | hne
    · exact (hlock hq).1
    · rw [hpc q hne] at hq
      rcases hmem with h | h | h
      · exact h.trans (hb.lock q hq)
      · exact h
      · exact absurd (hb.one q p hq h) hne
  · rcases eq_or_ne q p with rfl | hne
    · rcases eq_or_ne r q with rfl | hne'
      · rfl
      · rw [hpc r hne'] at hr
        exact (honly r hne' hr hq).elim
    · rw [hpc q hne] at hq
      rcases eq_or_ne r p with rfl | hne'
      · exact (honly q hne hq hr).elim
      · rw [hpc r hne'] at hr
        exact hb.one q r hq hr
  · rcases eq_or_ne q p with rfl | hne
    · exact hpt
    · rw [hpc q hne, hoth q hne]
      exact hb.ptlock q
  · rcases eq_or_ne q p with rfl | hne
    · exact hok hq
    · rw [hpc q hne] at hq
      exact hb.ok q (hq.imp id (hsl q hne))

/-- `p` gets the record `x`, in `sys_futex_wait2` only if it was, and asleep only if it was. -/
theorem Base.move (hb : Base ok s) (ht : t.proc = s.proc) (hpt : t.ptlock = s.ptlock)
    (hin : x.pc.inWait2 = (s.proc p).pc.inWait2) (hsl : asleep .cvnum x = true → asleep .cvnum (s.proc p) = true)
    (hlock : x.pc.holds = true → t.mem .cvslock = 1 ∧ ((s.proc p).pc.holds = true ∨ s.mem .cvslock = 0))
    (hmem : t.mem .cvslock = s.mem .cvslock ∨ t.mem .cvslock = 1 ∨ (s.proc p).pc.holds = true) :
    Base ok (t.set p x) := by
  have hpp : (t.set p x).proc p = x := proc_set_same
  have hpq : ∀ q, q ≠ p → (t.set p x).proc q = s.proc q := fun q hq => by rw [proc_set_ne hq, ht]
  refine hb.update (p := p) (fun q hq => by rw [hpq q hq]) (fun q hq => by rw [hpq q hq]; exact id) ?_ hmem ?_
    (fun q _ => by rw [← hpt]; rfl) ?_
  all_goals rw [hpp]
  · exact hlock
  · change _ ↔ t.ptlock = some p
    rw [hpt, ← hb.ptlock p, hin]
  · intro h
    rw [hin] at h
    exact hb.ok p (h.imp id hsl)

/-- The process stays where it is in the code. -/
theorem Base.same (hb : Base ok s) (hpc : x.pc = (s.proc p).pc)
    (hsl : asleep .cvnum x = true → asleep .cvnum (s.proc p) = true) : Base ok (s.set p x) := by
  refine hb.move rfl rfl (by rw [hpc]) hsl (fun hh => ?_) (.inl rfl)
  rw [hpc] at hh
  exact ⟨hb.lock p hh, .inl hh⟩

theorem Base.goto (hb : Base ok s) (hp : (s.proc p).pc = pc') (ht : t.proc = s.proc) (hpt : t.ptlock = s.ptlock)
    (hold : pc'.inWait2 = false) (hnew : pc.inWait2 = false)
    (hlock : pc.holds = true → t.mem .cvslock = 1 ∧ (pc'.holds = true ∨ s.mem .cvslock = 0))
    (hmem : t.mem .cvslock = s.mem .cvslock ∨ t.mem .cvslock = 1 ∨ pc'.holds = true) :
    Base ok (t.goto p pc) := by
  subst hp
  refine hb.move ht hpt (hnew.trans hold.symm) (fun h => ?_) hlock hmem
  rwa [asleep, ht] at h

/-- The holder goes on, with `cvslock` as it was. -/
theorem Base.keep (hb : Base ok s) (hp : (s.proc p).pc = pc') (ht : t.proc = s.proc) (hpt : t.ptlock = s.ptlock)
    (hmem : t.mem .cvslock = s.mem .cvslock) (hh : pc'.holds = true) (hnew : pc.inWait2 = false) :
    Base ok (t.goto p pc) :=
  hb.goto hp ht hpt (holds_not_inWait2 hh) hnew (fun _ => ⟨hmem.trans (hb.lock p (hp ▸ hh)), .inl hh⟩) (.inl hmem)

/-- A process that is not in `sys_futex_wait2` exits. -/
theorem Base.exit (hb : Base ok s) (hold : (s.proc p).pc.inWait2 = false) : Base ok (s.exit p) :=
  hb.move rfl rfl hold.symm (fun h => by cases h) (fun h => by cases h) (.inl rfl)

theorem Base.enter (hb : Base ok s) (hold : (s.proc p).pc.inWait2 = false) (h : s.enter p = some s') : Base ok s' := by
  unfold State.enter at h
  split_ifs at h
  · cases h
    exact hb.exit hold
  · cases h
    exact hb.same rfl id

theorem Base.user (hb : Base ok s) (h : s.user p = some s') : Base ok s' := by
  unfold State.user at h
  cases hpc : (s.proc p).pc <;> simp only [hpc, some.injEq, reduceCtorEq] at h
  case futexWait | futexWake | futexWait2 | wake => exact hb.enter (by rw [hpc]; rfl) h
  all_goals subst h
  case testSet k =>
    have hmem : (s.put k.lockWord 1).mem .cvslock = s.mem .cvslock ∨ (s.put k.lockWord 1).mem .cvslock = 1 := by
      cases k <;> simp [State.put, Site.lockWord]
    refine hb.goto hpc rfl rfl rfl ?_ ?_ (hmem.imp id .inl)
    all_goals split_ifs with h0
    · rfl
    · cases k <;> rfl
    · exact fun hh => by cases hh
    · intro hh
      cases k with
      | own m => cases hh
      | _ => exact ⟨by simp [State.put, Site.lockWord], .inr (by simpa [Site.lockWord] using h0)⟩
  case release k =>
    refine hb.goto hpc rfl rfl rfl rfl (fun hh => ?_) ?_
    · cases k with
      | wait m =>
        have hl := hb.lock p (by rw [hpc]; rfl)
        exact ⟨by simpa [State.put, Site.unlockWord] using hl, .inl rfl⟩
      | _ => cases hh
    · cases k with
      | bcast => exact .inr (.inr rfl)
      | _ => exact .inl (by simp [State.put, Site.unlockWord])
  case test n =>
    refine hb.keep hpc rfl rfl rfl rfl ?_
    split_ifs <;> rfl
  case store | clear => exact hb.keep hpc rfl rfl (by simp [State.put]) rfl rfl
  case load | arg | sub => exact hb.keep hpc rfl rfl rfl rfl rfl

theorem asleep_wakeup {w' : Word} (h : asleep w' ((s.wakeup w).proc q) = true) : asleep w' (s.proc q) = true := by
  rw [proc_wakeup] at h
  split_ifs at h
  · simp [asleep] at h
  · exact h

theorem Base.wakeup (hb : Base ok s) (w : Word) : Base ok (s.wakeup w) := by
  refine ⟨fun q => ?_, fun q r => ?_, fun q => ?_, fun q hq => ?_⟩
  · rw [pc_wakeup]
    exact hb.lock q
  · rw [pc_wakeup, pc_wakeup]
    exact hb.one q r
  · rw [pc_wakeup]
    exact hb.ptlock q
  · rw [pc_wakeup] at hq
    exact hb.ok q (hq.imp id asleep_wakeup)

/-- A system call returns, with `cvslock` as it was. -/
theorem Base.retTo (hb : Base ok s) (hp : (s.proc p).pc = pc') (hold : pc'.inWait2 = false) (hnew : pc.inWait2 = false)
    (hh : pc.holds = true → pc'.holds = true) : Base ok (s.retTo p pc) := by
  subst hp
  exact hb.move rfl rfl (hnew.trans hold.symm) id (fun h => ⟨hb.lock p (hh h), .inl (hh h)⟩) (.inl rfl)

/-- The process in `sys_futex_wait2` goes on there, or takes `ptable.lock` to go in, or gives it back. -/
theorem Base.inside {o : Option (Fin NPROC)} (hb : Base ok s)
    (ht : ∀ q, q ≠ p → t.proc q = s.proc q ∨ ∃ w, t.proc q = (s.wakeup w).proc q)
    (hmem : t.mem .cvslock = s.mem .cvslock ∨ (s.proc p).pc.holds = true) (hh : x.pc.holds = false)
    (hpt : x.pc.inWait2 = true ↔ o = some p) (ho : o = none ∨ o = some p) (hs : s.ptlock = none ∨ s.ptlock = some p)
    (hok : ok .cvnum = true) : Base ok ({ t with ptlock := o }.set p x) := by
  have hpp : ({ t with ptlock := o }.set p x).proc p = x := proc_set_same
  have hpq : ∀ q, q ≠ p → ({ t with ptlock := o }.set p x).proc q = t.proc q := fun q hq => proc_set_ne hq
  have hnot : ∀ q, q ≠ p → ∀ o' : Option (Fin NPROC), o' = none ∨ o' = some p → o' ≠ some q := by
    intro q hq o' h he
    rcases h with h | h
    · rw [h] at he
      cases he
    · rw [h] at he
      exact hq (some.inj he).symm
  refine hb.update (p := p) (fun q hq => ?_) (fun q hq => ?_) ?_ ?_ ?_ (fun q hq => ?_) (fun _ => hok)
  · rw [hpq q hq]
    rcases ht q hq with h | ⟨w, h⟩
    · rw [h]
    · rw [h, pc_wakeup]
  · rw [hpq q hq]
    rcases ht q hq with h | ⟨w, h⟩
    · rw [h]
      exact id
    · rw [h]
      exact asleep_wakeup
  · rw [hpp, hh]
    intro h
    cases h
  · exact hmem.imp id .inr
  · rw [hpp]
    exact hpt
  · exact iff_of_false (hnot q hq o ho) (hnot q hq _ hs)

theorem Base.sys (hb : Base ok s) (h : s.sys ok p = some s') : Base ok s' := by
  unfold State.sys at h
  have hin : (s.proc p).pc.inWait2 = true → s.ptlock = some p := (hb.ptlock p).1
  cases hpc : (s.proc p).pc <;> simp only [hpc, reduceCtorEq] at h hin
  case futexWait k =>
    split_ifs at h <;> cases h
    · exact hb.retTo hpc rfl rfl (fun hh => by cases hh)
    · refine hb.move rfl rfl (by rw [hpc]; rfl) (fun hs => ?_) (fun hh => by cases hh) (.inl rfl)
      cases k <;> simp [asleep, Site.lockWord] at hs
    · exact hb.retTo hpc rfl rfl (fun hh => by cases hh)
  case futexWake k =>
    have hin : k.unlocked.inWait2 = false := by cases k <;> rfl
    have hhold : k.unlocked.holds = true → (Pc.futexWake k).holds = true := by cases k <;> simp [Site.unlocked, Pc.holds]
    split_ifs at h <;> cases h
    · exact hb.retTo hpc rfl hin hhold
    · exact (hb.wakeup _).retTo ((pc_wakeup ..).trans hpc) rfl hin hhold
  case futexWait2 m val =>
    split_ifs at h with h1 h2 <;> cases h
    · exact hb.retTo hpc rfl rfl (fun hh => by cases hh)
    · have hfree : s.ptlock = none := by simpa using h2
      exact hb.inside (t := s.put .cvslock 0) (o := some p) (x := { s.proc p with pc := .released m val })
        (fun _ _ => .inl rfl) (.inr (by rw [hpc]; rfl)) rfl (by simp [Pc.inWait2]) (.inr rfl) (.inl hfree)
        (by simpa using fun hc => h1 (.inl hc))
  case released m val =>
    cases h
    have hlock := hin rfl
    refine hb.inside (t := s.wakeup .cvslock) (o := s.ptlock) (x := { (s.wakeup .cvslock).proc p with pc := .woken m val })
      (fun _ _ => .inr ⟨_, rfl⟩) (.inl rfl) rfl (by simp [Pc.inWait2, hlock]) (.inr hlock) (.inr hlock)
      (hb.ok p (.inl (by rw [hpc]; rfl)))
  case woken m val =>
    have hlock := hin rfl
    have hok := hb.ok p (.inl (by rw [hpc]; rfl))
    split_ifs at h <;> cases h
    · exact hb.inside (t := s) (o := none)
        (x := { s.proc p with state := .sleeping .cvnum, pc := .testSet (.own m), mode := .ret })
        (fun _ _ => .inl rfl) (.inl rfl) rfl (by simp [Pc.inWait2]) (.inl rfl) (.inr hlock) hok
    · exact hb.inside (t := s) (o := none) (x := { s.proc p with pc := .testSet (.own m), mode := .ret })
        (fun _ _ => .inl rfl) (.inl rfl) rfl (by simp [Pc.inWait2]) (.inl rfl) (.inr hlock) hok
  case wake n =>
    split_ifs at h <;> cases h
    · exact hb.retTo hpc rfl rfl (fun _ => rfl)
    · exact (hb.wakeup _).retTo ((pc_wakeup ..).trans hpc) rfl rfl (fun _ => rfl)

theorem Base.next {a : Act} (hb : Base ok s) (h : s.next ok a = some s') : Base ok s' := by
  cases Next.of_next h with
  | @call p c hr hp =>
    refine hb.goto hp rfl rfl rfl ?_ (fun hh => ?_) (.inl rfl)
    · cases c <;> rfl
    · cases c <;> cases hh
  | user hr hm h => exact hb.user h
  | sys hr hm h => exact hb.sys h
  | back hr hm => exact hb.same rfl id
  | @exit _ p hr hlock =>
    refine hb.exit ?_
    rw [← Bool.not_eq_true, hb.ptlock p, hlock]
    simp
  | sched hlock hst => exact hb.same rfl fun hs => absurd (of_decide_eq_true hs) (hst _)

theorem Base.of_run {as : List Act} (h : Run (system ok) as s) : Base ok s := by
  apply Run.invariant (I := fun _ s => Base ok s) _ _ h
  · rintro s rfl
    constructor
    · intro _ hm
      cases hm
    · intro _ _ hm
      cases hm
    · intro p
      simp [Pc.inWait2]
    · intro _ hm
      simp [Pc.inWait2, asleep] at hm
  · intro as s a s' _ hb hs
    exact hb.next hs

/-! What a step does to another process. -/

theorem enter_other (h : s.enter p = some s') (hq : q ≠ p) : s'.proc q = s.proc q := by
  unfold State.enter at h
  split_ifs at h <;> cases h <;> exact proc_set_ne hq

theorem user_other (h : s.user p = some s') (hq : q ≠ p) : s'.proc q = s.proc q := by
  unfold State.user at h
  split at h
  all_goals first
    | exact enter_other h hq
    | (cases h; exact proc_set_ne hq)
    | cases h

theorem sys_other (h : s.sys ok p = some s') (hq : q ≠ p) :
    s'.proc q = s.proc q ∨ ∃ w, s'.proc q = (s.wakeup w).proc q := by
  unfold State.sys at h
  split at h
  all_goals try dsimp only at h
  all_goals try split_ifs at h
  all_goals first
    | (cases h; exact .inl (proc_set_ne hq))
    | (cases h; exact .inr ⟨_, proc_set_ne hq⟩)
    | cases h

/-- Without a step of its own, a process stays where it is unless it exits, and does not fall asleep. -/
theorem next_other (h : s.next ok a = some s') (hs : a ≠ .step q) (hc : ∀ c, a ≠ .call q c) :
    ((s'.proc q).pc = (s.proc q).pc ∨ (s'.proc q).pc = .idle) ∧
      (asleep .cvnum (s'.proc q) = true → asleep .cvnum (s.proc q) = true) := by
  -- one record is replaced
  have hset : ∀ (p : Fin NPROC) (x : Proc), s' = s.set p x → (x.pc = (s.proc p).pc ∨ x.pc = .idle) →
      (asleep .cvnum x = true → asleep .cvnum (s.proc p) = true) →
      ((s'.proc q).pc = (s.proc q).pc ∨ (s'.proc q).pc = .idle) ∧
        (asleep .cvnum (s'.proc q) = true → asleep .cvnum (s.proc q) = true) := by
    intro p x he hx hsl
    subst he
    rcases eq_or_ne q p with rfl | hne
    · rw [proc_set_same]
      exact ⟨hx, hsl⟩
    · rw [proc_set_ne hne]
      exact ⟨.inl rfl, id⟩
  cases Next.of_next h with
  | @call p c hr hp =>
    have hne : q ≠ p := by
      rintro rfl
      exact hc c rfl
    rw [State.goto, proc_set_ne hne]
    exact ⟨.inl rfl, id⟩
  | @user p s' hr hm h =>
    rw [user_other h (show q ≠ p from fun he => hs (by rw [he]))]
    exact ⟨.inl rfl, id⟩
  | @sys p s' hr hm h =>
    rcases sys_other h (show q ≠ p from fun he => hs (by rw [he])) with he | ⟨w, he⟩
    · rw [he]
      exact ⟨.inl rfl, id⟩
    · rw [he, pc_wakeup]
      exact ⟨.inl rfl, asleep_wakeup⟩
  | @back p => exact hset p _ rfl (.inl rfl) id
  | @exit _ p => exact hset p _ rfl (.inr rfl) fun hs => by simp [asleep] at hs
  | @sched _ p st k hlock hst => exact hset p _ rfl (.inl rfl) fun hs => absurd (of_decide_eq_true hs) (hst _)

/-! Where the code of a process goes in one step. -/

inductive Goes : Pc → Pc → Prop where
  | stay {pc : Pc} : Goes pc pc
  /-- the call is over, or the process exits -/
  | leave {pc : Pc} : Goes pc .idle
  | got (k : Site) : Goes (.testSet k) k.locked
  | block (k : Site) : Goes (.testSet k) (.futexWait k)
  | again (k : Site) : Goes (.futexWait k) (.testSet k)
  | store0 (k : Site) : Goes (.release k) (.futexWake k)
  | woke (k : Site) : Goes (.futexWake k) k.unlocked
  | load (m v : ℕ) : Goes (.load m) (.store m v)
  | store (m v : ℕ) : Goes (.store m v) (.arg m)
  | arg (m val : ℕ) : Goes (.arg m) (.futexWait2 m val)
  | release (m val : ℕ) : Goes (.futexWait2 m val) (.released m val)
  | refuse (m val : ℕ) : Goes (.futexWait2 m val) (.testSet (.own m))
  | wakeLock (m val : ℕ) : Goes (.released m val) (.woken m val)
  | sleep (m val : ℕ) : Goes (.woken m val) (.testSet (.own m))
  | wake (n n' : ℕ) : Goes (.wake n) (.test n')
  | repeat (n : ℕ) : Goes (.test n) (.wake n)
  | finish (n : ℕ) : Goes (.test n) (.sub n)
  | sub (n v : ℕ) : Goes (.sub n) (.clear n v)
  | clear (n v : ℕ) : Goes (.clear n v) (.release .bcast)

theorem set_goes (h : Goes (s.proc p).pc x.pc) : Goes (s.proc p).pc ((t.set p x).proc p).pc := by
  rwa [proc_set_same]

theorem enter_goes (h : s.enter p = some s') : Goes (s.proc p).pc (s'.proc p).pc := by
  unfold State.enter at h
  split_ifs at h <;> cases h
  · exact set_goes .leave
  · exact set_goes .stay

theorem user_goes (h : s.user p = some s') : Goes (s.proc p).pc (s'.proc p).pc := by
  unfold State.user at h
  cases hpc : (s.proc p).pc <;> simp only [hpc, some.injEq, reduceCtorEq] at h <;> rw [← hpc]
  case futexWait | futexWake | futexWait2 | wake => exact enter_goes h
  all_goals
    subst h
    apply set_goes
    rw [hpc]
  case testSet k =>
    dsimp only
    split_ifs
    · exact .block k
    · exact .got k
  case test n =>
    dsimp only
    split_ifs
    · exact .repeat n
    · exact .finish n
  all_goals constructor

theorem sys_goes (h : s.sys ok p = some s') : Goes (s.proc p).pc (s'.proc p).pc := by
  unfold State.sys at h
  cases hpc : (s.proc p).pc <;> simp only [hpc, reduceCtorEq] at h
  all_goals try split_ifs at h
  all_goals try simp only [some.injEq] at h
  all_goals
    subst h
    rw [← hpc]
    apply set_goes
    rw [hpc]
    constructor

theorem step_goes (h : s.next ok (.step p) = some s') : Goes (s.proc p).pc (s'.proc p).pc := by
  cases Next.of_next h with
  | user hr hm h => exact user_goes h
  | sys hr hm h => exact sys_goes h
  | back => exact set_goes .stay
  | exit hr hlock ha =>
    rcases ha with ha | ha <;> cases ha
    exact set_goes .leave
  | sched hlock hst hu ha hn => exact absurd rfl (hn p)

/-- A process that runs falls asleep on `cvnum` at the end of `sys_futex_wait2` only. -/
theorem step_asleep (h : s.next ok (.step p) = some s') (hs : asleep .cvnum (s'.proc p) = true) :
    (s.proc p).pc.inWait2 = true := by
  have hset : ∀ {t : State} {x : Proc}, s' = t.set p x → x.state = .running → (s.proc p).pc.inWait2 = true := by
    intro t x he hx
    rw [he, proc_set_same, asleep, hx] at hs
    simp at hs
  cases Next.of_next h with
  | @user _ s' hr hm h =>
    simp only [State.user] at h
    cases hpc : (s.proc p).pc <;> simp only [hpc, some.injEq, reduceCtorEq] at h
    case futexWait | futexWake | futexWait2 | wake =>
      unfold State.enter at h
      split_ifs at h <;> cases h
      · simp [State.exit, proc_set_same, asleep] at hs
      · rw [← hpc]
        exact hset rfl hr
    all_goals
      rw [← hpc]
      exact hset h.symm hr
  | @sys _ s' hr hm h =>
    simp only [State.sys] at h
    have hwoken : ∀ {w : Word} {pc : Pc}, s' = (s.wakeup w).retTo p pc → (s.proc p).pc.inWait2 = true := by
      intro w pc he
      rw [he, State.retTo, proc_set_same] at hs
      have : asleep .cvnum (s.proc p) = true := asleep_wakeup (w := w) hs
      rw [asleep, hr] at this
      simp at this
    cases hpc : (s.proc p).pc <;> simp only [hpc, reduceCtorEq] at h
    case released | woken => rfl
    all_goals rw [← hpc]
    case futexWait k =>
      split_ifs at h <;> cases h
      · exact hset rfl hr
      · rw [State.sleep, proc_set_same] at hs
        cases k <;> simp [asleep, Site.lockWord] at hs
      · exact hset rfl hr
    case futexWake k =>
      split_ifs at h <;> cases h
      · exact hset rfl hr
      · exact hwoken rfl
    case futexWait2 m val =>
      split_ifs at h <;> cases h
      · exact hset rfl hr
      · exact hset rfl hr
    case wake n =>
      split_ifs at h <;> cases h
      · exact hset rfl hr
      · exact hwoken rfl
  | back hr hm => exact hset rfl hr
  | exit hr hlock ha =>
    rcases ha with ha | ha <;> cases ha
    simp [State.exit, proc_set_same, asleep] at hs
  | sched hlock hst hu ha hn => exact absurd rfl (hn p)

/-! The waiter and the broadcaster. -/

/-- In `cv_wait(cv, m)`, after the store that releases `m`. -/
def Pc.inWait (m : ℕ) : Pc → Bool
  | .futexWake (.wait n) | .load n | .store n _ | .arg n | .futexWait2 n _ | .released n _ | .woken n _
  | .testSet (.own n) | .futexWait (.own n) => n = m
  | _ => false

/-- There, with the sleep of `futex_wait2` over. -/
def Proc.past (m : ℕ) (x : Proc) : Prop :=
  (x.pc = .testSet (.own m) ∨ x.pc = .futexWait (.own m)) ∧ asleep .cvnum x = false

/-- In `cv_bcast`, before the first `futex_wake` has returned. -/
def Pc.waking : Pc → Bool
  | .testSet .bcast | .futexWait .bcast | .wake 0 => true
  | _ => false

theorem Goes.inWait (h : Goes pc pc') (hw : pc.inWait m = true) (h0 : pc' ≠ .idle) : pc'.inWait m = true := by
  cases h with
  | leave => exact absurd rfl h0
  | got k => cases k <;> simp_all [Pc.inWait, Site.locked]
  | woke k => cases k <;> simp_all [Pc.inWait, Site.unlocked]
  | again k | block k => cases k <;> simp_all [Pc.inWait]
  | _ => first | exact hw | simp_all [Pc.inWait]

theorem Goes.waking (h : Goes pc pc') (hw : pc.waking = true) (h0 : pc' ≠ .idle) :
    pc'.waking = true ∨ pc = .wake 0 ∧ ∃ n, pc' = .test n := by
  cases h with
  | leave => exact absurd rfl h0
  | wake n n' => 
    cases n with
    | zero => exact .inr ⟨rfl, n', rfl⟩
    | succ n => simp [Pc.waking] at hw
  | got k => cases k <;> simp_all [Pc.waking, Site.locked]
  | again k | block k => cases k <;> simp_all [Pc.waking]
  | _ => first | exact .inl hw | simp_all [Pc.waking]

theorem Goes.past (h : Goes pc pc') (hw : pc = .testSet (.own m) ∨ pc = .futexWait (.own m))
    (h0 : pc' ≠ .idle) : pc' = .testSet (.own m) ∨ pc' = .futexWait (.own m) := by
  rcases hw with rfl | rfl
  all_goals cases h <;> simp_all [Site.locked]

/-- A process goes on, or another one does. -/
theorem next_goes (h : s.next ok a = some s') (hc : ∀ c, a ≠ .call q c) : Goes (s.proc q).pc (s'.proc q).pc := by
  by_cases hs : a = .step q
  · subst hs
    exact step_goes h
  · rcases (next_other h hs hc).1 with he | he
    · rw [he]
      exact .stay
    · rw [he]
      exact .leave

/-- A call begins where there is none. -/
theorem call_idle {c : Call} (h : s.next ok (.call q c) = some s') : (s.proc q).pc = .idle := by
  simp only [State.next] at h
  split_ifs at h with hg
  exact hg.2.2

theorem inWait_next (h : s.next ok a = some s') (hw : (s.proc q).pc.inWait m = true)
    (h0 : (s'.proc q).pc ≠ .idle) : (s'.proc q).pc.inWait m = true := by
  refine (next_goes h ?_).inWait hw h0
  rintro c rfl
  rw [call_idle h] at hw
  cases hw

theorem past_next (h : s.next ok a = some s') (hw : (s.proc q).past m)
    (h0 : (s'.proc q).pc ≠ .idle) : (s'.proc q).past m := by
  have hc : ∀ c, a ≠ .call q c := by
    rintro c rfl
    rcases hw.1 with hp | hp <;> cases hp.symm.trans (call_idle h)
  refine ⟨(next_goes h hc).past hw.1 h0, ?_⟩
  rw [← Bool.not_eq_true]
  intro hs
  by_cases ha : a = .step q
  · subst ha
    have hin := step_asleep h hs
    rcases hw.1 with hp | hp <;> rw [hp] at hin <;> cases hin
  · have := (next_other h ha hc).2 hs
    rw [hw.2] at this
    cases this

/-- The wake of `cv_bcast` by `p`: it holds `cvslock`, so a waiter `q` is past its own use of it. -/
theorem wake_past {n : ℕ} (hb : Base ok s) (h : s.next ok (.step p) = some s') (hp : (s.proc p).pc = .wake 0)
    (hp' : (s'.proc p).pc = .test n) (hq : (s.proc q).pc.inWait m = true) : (s'.proc q).past m := by
  have hne : q ≠ p := by
    rintro rfl
    rw [hp] at hq
    cases hq
  have hnot : (s.proc q).pc.holds = false := by
    rw [← Bool.not_eq_true]
    exact fun hh => hne (hb.one q p hh (by rw [hp]; rfl))
  have hpc : (s.proc q).pc.inWait2 = false → (s.proc q).pc = .testSet (.own m) ∨ (s.proc q).pc = .futexWait (.own m) := by
    intro hin
    cases hc : (s.proc q).pc <;> simp_all [Pc.inWait, Pc.holds, Pc.inWait2]
    all_goals rename_i k; cases k <;> simp_all
  cases Next.of_next h with
  | user hr hm h =>
    -- the call is only entered
    simp only [State.user, hp] at h
    unfold State.enter at h
    split_ifs at h <;> cases h
    · simp [State.exit, proc_set_same] at hp'
    · simp [proc_set_same, hp] at hp'
  | sys hr hm h =>
    simp only [State.sys, hp] at h
    split_ifs at h with h1 h2
    · cases h
      -- `argptr` refuses the address to everyone, so nobody sleeps there
      rw [State.retTo, Proc.past, proc_set_ne hne]
      have hno : ¬ ((s.proc q).pc.inWait2 = true ∨ asleep .cvnum (s.proc q) = true) := by
        intro hc
        rw [hb.ok q hc] at h1
        cases h1
      rw [not_or, Bool.not_eq_true, Bool.not_eq_true] at hno
      exact ⟨hpc hno.1, hno.2⟩
    · cases h
      have hfree : s.ptlock = none := by simpa using h2
      have hin : (s.proc q).pc.inWait2 = false := by
        rw [← Bool.not_eq_true, hb.ptlock q, hfree]
        simp
      rw [State.retTo, Proc.past, proc_set_ne hne, pc_wakeup]
      refine ⟨hpc hin, ?_⟩
      rw [proc_wakeup]
      split_ifs with hs
      · simp [asleep]
      · simpa using hs
  | back => simp [proc_set_same, hp] at hp'
  | exit hr hlock ha =>
    rcases ha with ha | ha <;> cases ha
    simp [State.exit, proc_set_same] at hp'
  | sched hlock hst hu ha hn => exact absurd rfl (hn p)

/-- The broadcast has not woken anybody yet and the waiter is anywhere in its call, or the waiter's
sleep is over. -/
theorem broadcast_next (hb : Base ok s) (h : s.next ok a = some s')
    (hw : (s.proc q).pc.inWait m = true ∧ (s.proc p).pc.waking = true ∨ (s.proc q).past m)
    (hq : (s'.proc q).pc ≠ .idle) (hp : (s'.proc p).pc ≠ .idle) :
    (s'.proc q).pc.inWait m = true ∧ (s'.proc p).pc.waking = true ∨ (s'.proc q).past m := by
  rcases hw with ⟨h1, h2⟩ | hpast
  · have hc : ∀ c, a ≠ .call p c := by
      rintro c rfl
      rw [call_idle h] at h2
      cases h2
    rcases (next_goes h hc).waking h2 hp with hk | ⟨h0, n, hn⟩
    · exact .inl ⟨inWait_next h h1 hq, hk⟩
    · by_cases ha : a = .step p
      · subst ha
        exact .inr (wake_past hb h h0 hn h1)
      · rcases (next_other h ha hc).1 with he | he
        · rw [he, h0] at hn
          cases hn
        · exact absurd he hp
  · exact .inr (past_next h hpast hq)

/-- The call that `p` is in after time `t` is not over at time `t'`. -/
def InCall (s : ℕ → State) (p : Fin NPROC) (t t' : ℕ) : Prop := ∀ i, t < i → i ≤ t' → ((s i).proc p).pc ≠ .idle

/-- At time `t₁` process `W` has stored 0 to `m` in `cv_wait(cv, m)`; at `t₂` or later `B` calls `cv_bcast`,
which returns in the step after `t₃`. Then `W` is not asleep in the `futex_wait2` of that call. -/
theorem no_missed_broadcast {n : ℕ} {s : ℕ → State} {a : ℕ → Act} (h : Exec (system ok) n s a) {W B : Fin NPROC}
    {m t₁ t₂ t₃ : ℕ} (hrel : ((s t₁).proc W).pc = .futexWake (.wait m)) (hcall : a t₂ = .call B .cvBcast)
    (hret : ((s t₃).proc B).pc = .futexWake .bcast) (h₁ : t₁ ≤ t₂) (h₂ : t₂ < t₃) (h₃ : t₃ < n)
    (hB : InCall s B t₂ t₃) (hW : InCall s W t₁ (t₃ + 1)) : ((s (t₃ + 1)).proc W).state ≠ .sleeping .cvnum := by
  -- until the broadcast begins
  have hwait : ∀ t, t₁ ≤ t → t ≤ t₃ → ((s t).proc W).pc.inWait m = true := by
    intro t ht
    induction t, ht using Nat.le_induction with
    | base =>
      intro _
      rw [hrel]
      simp [Pc.inWait]
    | succ t ht ih =>
      intro hle
      exact inWait_next (h.step t (by omega)) (ih (by omega)) (hW (t + 1) (by omega) (by omega))
  have hbegin : ((s (t₂ + 1)).proc B).pc.waking = true := by
    have hs := h.step t₂ (by omega)
    rw [hcall] at hs
    change (s t₂).next ok (.call B .cvBcast) = some _ at hs
    simp only [State.next] at hs
    split_ifs at hs
    rw [← some.inj hs, State.goto, proc_set_same]
    rfl
  have hboth : ∀ t, t₂ + 1 ≤ t → t ≤ t₃ →
      ((s t).proc W).pc.inWait m = true ∧ ((s t).proc B).pc.waking = true ∨ ((s t).proc W).past m := by
    intro t ht
    induction t, ht using Nat.le_induction with
    | base =>
      intro hle
      exact .inl ⟨hwait _ (by omega) hle, hbegin⟩
    | succ t ht ih =>
      intro hle
      exact broadcast_next (Base.of_run (h.run (by omega))) (h.step t (by omega)) (ih (by omega))
        (hW (t + 1) (by omega) (by omega)) (hB (t + 1) (by omega) (by omega))
  have hpast : ((s t₃).proc W).past m := by
    rcases hboth t₃ h₂ le_rfl with ⟨-, hk⟩ | hk
    · rw [hret] at hk
      cases hk
    · exact hk
  have hend := (past_next (h.step t₃ h₃) hpast (hW (t₃ + 1) (by omega) le_rfl)).2
  intro hs
  rw [asleep, hs] at hend
  simp at hend

/-- `p0` waits and is asleep; `p1` locks the mutex and broadcasts. -/
def broadcastRun : List Act :=
  [.fork p0, .fork p1, .run p0, .call p0 (.mutexLock 0), .step p0, .call p0 (.cvWait 0)] ++
    List.replicate 12 (.step p0) ++ [.run p1, .call p1 (.mutexLock 0), .step p1, .call p1 .cvBcast] ++
    List.replicate 10 (.step p1)

theorem no_missed_broadcast_asleep : ∃ s : ℕ → State,
    Exec (system fun _ => true) 32 s (fun i => broadcastRun.getD i (.step p0)) ∧
    ((s 21).proc p0).state = .sleeping .cvnum ∧ ((s 32).proc p1).pc = .idle ∧
    ((s 32).proc p0).state ≠ .sleeping .cvnum := by
  have hd : (broadcastRun.foldlM (State.next fun _ => true) {}).isSome = true := by decide +kernel
  obtain ⟨t, ht⟩ := isSome_iff_exists.1 hd
  obtain ⟨s, hs, hat⟩ := Exec.of_foldlM (S := system fun _ => true) (fun _ _ _ h => h) (.step p0) rfl ht
  -- what the prefixes of the run compute
  have hval : ∀ {α : Type} (f : State → α) (x : α) (i : ℕ), i ≤ 32 →
      ((broadcastRun.take i).foldlM (State.next fun _ => true) {}).map f = some x → f (s i) = x := by
    intro α f x i hi hx
    rw [hat i hi] at hx
    exact some.inj hx
  have h0 : ∀ i ≤ 32, 8 < i → decide (((s i).proc p0).pc ≠ .idle) = true := by
    have hall : ∀ i ≤ 32, 8 < i → ((broadcastRun.take i).foldlM (State.next fun _ => true) {}).map
        (fun s => decide ((s.proc p0).pc ≠ .idle)) = some true := by decide +kernel
    exact fun i hi h8 => hval (fun s => decide ((s.proc p0).pc ≠ .idle)) true i hi (hall i hi h8)
  have h1 : ∀ i ≤ 32, 21 < i → i ≤ 31 → decide (((s i).proc p1).pc ≠ .idle) = true := by
    have hall : ∀ i ≤ 32, 21 < i → i ≤ 31 → ((broadcastRun.take i).foldlM (State.next fun _ => true) {}).map
        (fun s => decide ((s.proc p1).pc ≠ .idle)) = some true := by decide +kernel
    exact fun i hi h21 h31 => hval (fun s => decide ((s.proc p1).pc ≠ .idle)) true i hi (hall i hi h21 h31)
  have hrel : ((s 8).proc p0).pc = .futexWake (.wait 0) :=
    hval (fun s => (s.proc p0).pc) _ 8 (by decide) (by decide +kernel)
  have hcall : (fun i => broadcastRun.getD i (.step p0)) 21 = .call p1 .cvBcast := rfl
  have hret : ((s 31).proc p1).pc = .futexWake .bcast :=
    hval (fun s => (s.proc p1).pc) _ 31 (by decide) (by decide +kernel)
  refine ⟨s, hs, hval (fun s => (s.proc p0).state) _ 21 (by decide) (by decide +kernel),
    hval (fun s => (s.proc p1).pc) _ 32 (by decide) (by decide +kernel), ?_⟩
  refine no_missed_broadcast hs hrel hcall hret (by decide) (by decide) (by decide) (fun i hi hi' => ?_)
    (fun i hi hi' => ?_)
  · simpa using h1 i (by omega) hi hi'
  · simpa using h0 i hi' hi

end Xv6.Cond

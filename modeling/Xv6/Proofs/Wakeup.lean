import Xv6.Spec.Sleep

/-! No wake-up is lost: while a process goes to sleep it has `lk` or `ptable.lock`, and a `wakeup` in a section
of `lk` needs both. -/

namespace Xv6.Sleep

open Trace Option

section Table

variable {P C D I : Type} [DecidableEq P] {s : State P C D I} {p q : P} {x : Proc P C I} {l l' : Lock}
  {o : Option (Holder P)}

@[simp] theorem set_self : (s.set p x).proc p = x := Function.update_self ..

theorem set_ne (h : q ≠ p) : (s.set p x).proc q = s.proc q := Function.update_of_ne h ..

@[simp] theorem set_lock : (s.set p x).lock = s.lock := rfl

@[simp] theorem set_data : (s.set p x).data = s.data := rfl

omit [DecidableEq P] in
theorem setLock_self : (s.setLock l o).lock l = o := Function.update_self ..

omit [DecidableEq P] in
theorem setLock_ne (h : l' ≠ l) : (s.setLock l o).lock l' = s.lock l' := Function.update_of_ne h ..

end Table

section Inv

variable {P C D I : Type}

/-- The locks that a process has where it is, when it runs. -/
def Pc.has (lk l : Lock) : Pc P C I → Bool
  | .inside | .sleep _ => l = lk
  | .sleepRel _ => l = lk ∨ l = .ptable
  | .sleepSet _ | .back | .killDo _ | .killRel | .restSet _ | .restBack => l = .ptable
  | .wake _ b => b ∧ l = lk
  | .wakeDo _ b | .wakeRel b => l = .ptable ∨ b ∧ l = lk
  | .out | .enter | .relock | .kill _ | .rest _ => false

/-- In a section of `lk`. -/
def Pc.sect : Pc P C I → Bool
  | .inside | .wake _ true | .wakeDo _ true | .wakeRel true => true
  | _ => false

/-- On the way to sleep for condition `i`. -/
def Pc.toSleep (i : I) (pc : Pc P C I) : Prop := pc = .sleep (.here i) ∨ pc = .sleepRel (.here i) ∨ pc = .sleepSet (.here i)

/-- In `sched`: asleep, or waiting for a processor. -/
def Proc.parked (x : Proc P C I) : Prop :=
  match x.state with
  | .runnable | .sleeping _ => x.pc = .back ∨ x.pc = .restBack
  | _ => True

/-- Asleep for condition `i`, or in `sleep` on the way there. -/
def Proc.waits (i : I) (x : Proc P C I) : Prop :=
  x.state = .sleeping (.here i) ∨ x.state = .running ∧ x.pc.toSleep i

structure Inv (lk : Lock) (cond : I → D → Bool) (s : State P C D I) : Prop where
  parked : ∀ p, (s.proc p).parked
  held : ∀ p l, (s.proc p).state = .running → (s.proc p).pc.has lk l = true → s.lock l = some (.proc p)
  apart : ∀ p w, (s.proc p).pc = .sleepRel w → lk ≠ .ptable
  sect : ∀ p, (s.proc p).owes = true ∨ (s.proc p).woke = true → (s.proc p).state = .running ∧ (s.proc p).pc.sect = true
  wait : ∀ p i, (s.proc p).waits i → cond i s.data = false ∨ ∃ q, (s.proc q).owes = true
  quiet : ∀ q, (s.proc q).woke = true → ∀ p i, ¬ (s.proc p).waits i

/-- What `wakeup1` and `kill` do to another process. -/
def Woken (x y : Proc P C I) : Prop := y = x ∨ ∃ w, x.state = .sleeping w ∧ y = { x with state := .runnable }

variable {lk : Lock} {cond : I → D → Bool} {s s' : State P C D I} {p q : P} {x y : Proc P C I} {i : I} {pc : Pc P C I}

theorem Proc.parked_of_running (h : x.state = .running) : x.parked := by
  rw [Proc.parked]
  simp only [h]

theorem Woken.parked (h : Woken x y) (hx : x.parked) : y.parked := by
  rcases h with rfl | ⟨i, hi, rfl⟩
  · exact hx
  · unfold Proc.parked at hx ⊢
    rw [hi] at hx
    exact hx

theorem Woken.running (h : Woken x y) (hy : y.state = .running) : y = x := by
  rcases h with rfl | ⟨i, -, rfl⟩
  · rfl
  · cases hy

theorem Woken.of_running (h : Woken x y) (hx : x.state = .running) : y = x := by
  rcases h with rfl | ⟨i, hi, rfl⟩
  · rfl
  · rw [hx] at hi
    cases hi

theorem Woken.waits (h : Woken x y) (hy : y.waits i) : x.waits i := by
  rcases h with rfl | ⟨i, -, rfl⟩
  · exact hy
  · rcases hy with hy | ⟨hy, -⟩ <;> cases hy

theorem Woken.rest (h : Woken x y) : y.pc = x.pc ∧ y.owes = x.owes ∧ y.woke = x.woke := by
  rcases h with rfl | ⟨i, -, rfl⟩ <;> exact ⟨rfl, rfl, rfl⟩

/-- Process `p` moves, and others are woken at most. -/
theorem Inv.update (hi : Inv lk cond s) (hself : s'.proc p = x) (hoth : ∀ q, q ≠ p → Woken (s.proc q) (s'.proc q))
    (hlock : ∀ l q, q ≠ p → s.lock l = some (.proc q) → s'.lock l = some (.proc q)) (hparked : x.parked)
    (hheld : ∀ l, x.state = .running → x.pc.has lk l = true → s'.lock l = some (.proc p))
    (hapart : ∀ w, x.pc = .sleepRel w → lk ≠ .ptable)
    (hsect : x.owes = true ∨ x.woke = true → x.state = .running ∧ x.pc.sect = true)
    (hdata : ∀ i, cond i s.data = false → cond i s'.data = false ∨ x.owes = true ∨ (s.proc p).woke = true)
    (howed : (s.proc p).owes = true → x.owes = true ∨ ∀ q i, ¬ (s'.proc q).waits i)
    (hwoke : x.woke = true → (s.proc p).woke = true ∨ ∀ q i, ¬ (s'.proc q).waits i)
    (hwait : ∀ i, x.waits i → (s.proc p).waits i ∨ cond i s'.data = false ∧ ∀ q, (s'.proc q).woke ≠ true) :
    Inv lk cond s' := by
  subst hself
  have hwaits : ∀ q i, (s'.proc q).waits i →
      (s.proc q).waits i ∨ cond i s'.data = false ∧ ∀ q, (s'.proc q).woke ≠ true := by
    intro q i hq
    rcases eq_or_ne q p with rfl | hne
    · exact hwait i hq
    · exact .inl ((hoth q hne).waits hq)
  refine ⟨fun q => ?_, fun q l hr hh => ?_, fun q w hq => ?_, fun q hq => ?_, fun q i hq => ?_, fun q hq r i hr => ?_⟩
  · rcases eq_or_ne q p with rfl | hne
    · exact hparked
    · exact (hoth q hne).parked (hi.parked q)
  · rcases eq_or_ne q p with rfl | hne
    · exact hheld l hr hh
    · have he := (hoth q hne).running hr
      rw [he] at hr hh
      exact hlock l q hne (hi.held q l hr hh)
  · rcases eq_or_ne q p with rfl | hne
    · exact hapart w hq
    · rw [(hoth q hne).rest.1] at hq
      exact hi.apart q w hq
  · rcases eq_or_ne q p with rfl | hne
    · exact hsect hq
    · rw [(hoth q hne).rest.2.1, (hoth q hne).rest.2.2] at hq
      obtain ⟨h1, h2⟩ := hi.sect q hq
      rw [(hoth q hne).of_running h1]
      exact ⟨h1, h2⟩
  · rcases hwaits q i hq with hold | hnew
    · rcases hi.wait q i hold with hc | ⟨r, hr⟩
      · rcases hdata i hc with h | h | h
        · exact .inl h
        · exact .inr ⟨p, h⟩
        · exact absurd hold (hi.quiet p h q i)
      · rcases eq_or_ne r p with rfl | hne
        · rcases howed hr with h | h
          · exact .inr ⟨r, h⟩
          · exact absurd hq (h q i)
        · refine .inr ⟨r, ?_⟩
          rw [(hoth r hne).rest.2.1]
          exact hr
    · exact .inl hnew.1
  · have hold : (s.proc r).waits i := (hwaits r i hr).resolve_right fun h => h.2 q hq
    rcases eq_or_ne q p with rfl | hne
    · rcases hwoke hq with h | h
      · exact hi.quiet q h r i hold
      · exact h r i hr
    · rw [(hoth q hne).rest.2.2] at hq
      exact hi.quiet q hq r i hold

/-- Two processes with one lock are one. -/
theorem Inv.same {l : Lock} (hi : Inv lk cond s) (hr : (s.proc p).state = .running)
    (hp : (s.proc p).pc.has lk l = true) (hq : (s.proc q).state = .running) (hh : (s.proc q).pc.has lk l = true) :
    q = p := by
  have h := hi.held q l hq hh
  rw [hi.held p l hr hp] at h
  exact (Holder.proc.inj (some.inj h)).symm

theorem Pc.has_of_sect (h : pc.sect = true) : pc.has lk lk = true := by
  cases pc with
  | inside => simp [Pc.has]
  | wake c b => cases b <;> simp_all [Pc.has, Pc.sect]
  | wakeDo c b => cases b <;> simp_all [Pc.has, Pc.sect]
  | wakeRel b => cases b <;> simp_all [Pc.has, Pc.sect]
  | _ => cases h

theorem Pc.toSleep.has (lk : Lock) (h : pc.toSleep i) : pc.has lk lk = true ∨ pc.has lk .ptable = true := by
  rcases h with rfl | rfl | rfl <;> simp [Pc.has]

/-- While `p` is in its section no other process has called `wakeup` in one. -/
theorem Inv.alone (hi : Inv lk cond s) (hr : (s.proc p).state = .running) (hp : (s.proc p).pc.sect = true)
    (hne : q ≠ p) : (s.proc q).woke ≠ true := by
  intro h
  obtain ⟨hq, hs⟩ := hi.sect q (.inr h)
  exact hne (hi.same hr (Pc.has_of_sect hp) hq (Pc.has_of_sect hs))

end Inv

section Steps

variable {P C D I : Type} [DecidableEq P] {lk : Lock} {cond : I → D → Bool} {s s' t : State P C D I} {p : P}
  {l : Lock} {pc pc' : Pc P C I} {i : I} {c : Option C}

omit [DecidableEq P] in
/-- `p` runs and goes on to `pc`; it stays in its section, or ends it. -/
theorem Inv.move {b : Bool} (hi : Inv lk cond s) (hr : (s.proc p).state = .running)
    (hself : s'.proc p = { s.proc p with woke := b, pc := pc }) (hoth : ∀ q, q ≠ p → s'.proc q = s.proc q)
    (hd : s'.data = s.data) (hlock : ∀ l q, q ≠ p → s.lock l = some (.proc q) → s'.lock l = some (.proc q))
    (hheld : ∀ l, pc.has lk l = true → s'.lock l = some (.proc p)) (hapart : ∀ w, pc = .sleepRel w → lk ≠ .ptable)
    (hb : b = true → (s.proc p).woke = true) (hsect : (s.proc p).owes = true ∨ b = true → pc.sect = true)
    (hwait : ∀ i, pc.toSleep i →
      (s.proc p).pc.toSleep i ∨ cond i s.data = false ∧ b = false ∧ (s.proc p).pc.sect = true) : Inv lk cond s' := by
  refine hi.update hself (fun q hq => .inl (hoth q hq)) hlock (Proc.parked_of_running hr) (fun l _ => hheld l) hapart
    (fun h => ⟨hr, hsect h⟩) (fun i hc => .inl (hd ▸ hc)) .inl (fun h => .inl (hb h)) fun i hw => ?_
  rcases hw with hw | ⟨-, hw⟩
  · exact absurd (hr.symm.trans hw) (by simp)
  · rcases hwait i hw with h | ⟨hc, h0, hs⟩
    · exact .inl (.inr ⟨hr, h⟩)
    · rw [hd]
      refine .inr ⟨hc, fun q => ?_⟩
      rcases eq_or_ne q p with rfl | hne
      · rw [hself]
        exact ne_of_eq_of_ne h0 (by simp)
      · rw [hoth q hne]
        exact hi.alone hr hs hne

/-- What a process keeps when it goes from `pc` to `pc'`: its section, and the condition it goes to sleep for. -/
def Pc.Leads (lk : Lock) (pc pc' : Pc P C I) : Prop :=
  (∀ w, pc' = .sleepRel w → lk ≠ .ptable) ∧ (pc.sect = true → pc'.sect = true) ∧ ∀ i, pc'.toSleep i → pc.toSleep i

theorem Inv.goto (hi : Inv lk cond s) (hr : (s.proc p).state = .running)
    (hpc : (s.proc p).pc = pc) (ht : t.proc = s.proc) (hd : t.data = s.data)
    (hlock : ∀ l q, q ≠ p → s.lock l = some (.proc q) → t.lock l = some (.proc q))
    (hheld : ∀ l, pc'.has lk l = true → t.lock l = some (.proc p)) (hto : pc.Leads lk pc') :
    Inv lk cond (t.goto p pc') := by
  subst hpc
  refine hi.move (b := (s.proc p).woke) hr ?_ (fun q hq => ?_) hd hlock hheld hto.1 id
    (fun h => hto.2.1 (hi.sect p h).2) fun i hw => .inl (hto.2.2 i hw)
  · rw [State.goto, set_self, ht]
  · rw [State.goto, set_ne hq, ht]

theorem Inv.acquire (hi : Inv lk cond s) (hr : (s.proc p).state = .running) (hpc : (s.proc p).pc = pc)
    (h : s.acquire p l pc' = some s') (hhas : ∀ l', pc'.has lk l' = true → l' = l ∨ pc.has lk l' = true)
    (hto : pc.Leads lk pc') : Inv lk cond s' := by
  unfold State.acquire at h
  cases h0 : s.lock l with
  | some o => simp [h0] at h
  | none =>
    simp only [h0, some.injEq] at h
    subst h
    refine hi.goto hr hpc rfl rfl (fun l' q hq hl' => ?_) (fun l' hl' => ?_) hto
    · have hne : l' ≠ l := by
        rintro rfl
        rw [h0] at hl'
        cases hl'
      rw [setLock_ne hne]
      exact hl'
    · rcases eq_or_ne l' l with rfl | hne
      · exact setLock_self
      · rw [setLock_ne hne]
        refine hi.held p l' hr ?_
        rw [hpc]
        exact (hhas l' hl').resolve_left hne

omit [DecidableEq P] in
/-- A lock of `p` is no other process's. -/
theorem Inv.setLock (hi : Inv lk cond s) (hr : (s.proc p).state = .running) (hl : (s.proc p).pc.has lk l = true)
    (o : Option (Holder P)) (l' : Lock) (q : P) (hq : q ≠ p) (h : s.lock l' = some (.proc q)) :
    (s.setLock l o).lock l' = some (.proc q) := by
  have hne : l' ≠ l := by
    rintro rfl
    rw [hi.held p l' hr hl] at h
    exact hq (Holder.proc.inj (some.inj h)).symm
  rw [setLock_ne hne]
  exact h

theorem Inv.release (hi : Inv lk cond s) (hr : (s.proc p).state = .running) (hpc : (s.proc p).pc = pc)
    (hl : pc.has lk l = true) (hhas : ∀ l', pc'.has lk l' = true → l' ≠ l ∧ pc.has lk l' = true)
    (hto : pc.Leads lk pc') : Inv lk cond (s.release p l pc') := by
  have hmine : (s.proc p).pc.has lk l = true := by
    rw [hpc]
    exact hl
  refine hi.goto hr hpc rfl rfl (hi.setLock hr hmine none) (fun l' hl' => ?_) hto
  rw [setLock_ne (hhas l' hl').1]
  refine hi.held p l' hr ?_
  rw [hpc]
  exact (hhas l' hl').2

theorem Inv.went (hi : Inv lk cond s) (hr : (s.proc p).state = .running) (hpc : (s.proc p).pc = pc)
    (hhas : ∀ l, pc'.has lk l = true → pc.has lk l = true) (hto : pc.Leads lk pc') : Inv lk cond (s.goto p pc') := by
  refine hi.goto hr hpc rfl rfl (fun _ _ _ => id) (fun l hl => hi.held p l hr ?_) hto
  rw [hpc]
  exact hhas l hl

omit [DecidableEq P] in
theorem Inv.no_flags (hi : Inv lk cond s) (h : (s.proc p).state ≠ .running ∨ (s.proc p).pc.sect ≠ true) :
    ¬ ((s.proc p).owes = true ∨ (s.proc p).woke = true) := by
  intro hf
  obtain ⟨hr, hs⟩ := hi.sect p hf
  exact h.elim (absurd hr) (absurd hs)

/-- `sched` by a process that has `ptable.lock`. -/
theorem Inv.sched {st : PState C I} (hi : Inv lk cond s) (hr : (s.proc p).state = .running)
    (hpc : (s.proc p).pc = pc) (hl : pc.has lk .ptable = true) (hback : pc' = .back ∨ pc' = .restBack)
    (hst : st ≠ .running) (hsect : pc.sect ≠ true) (hwait : ∀ i, st = .sleeping (.here i) → pc.toSleep i) :
    Inv lk cond (s.sched p st pc') := by
  subst hpc
  have hself : (s.sched p st pc').proc p = { s.proc p with state := st, pc := pc' } := by rw [State.sched, set_self]
  have hno := hi.no_flags (.inr hsect)
  refine hi.update hself (fun q hq => .inl ?_) (hi.setLock hr hl _) ?_ (fun _ h => absurd h hst) (fun i h => ?_)
    (fun h => absurd h hno) (fun _ hc => .inl hc) (fun h => absurd (.inl h) hno) .inl fun i hw => ?_
  · rw [State.sched, set_ne hq]
    rfl
  · rw [Proc.parked]
    split
    · exact hback
    · exact hback
    · trivial
  · rcases hback with rfl | rfl <;> cases h
  · rcases hw with hw | ⟨hw, -⟩
    · exact .inl (.inr ⟨hr, hwait i hw⟩)
    · exact absurd hw hst

/-- `p` runs, wakes others and goes on to `pc'`. -/
theorem Inv.waking (hi : Inv lk cond s) (hr : (s.proc p).state = .running)
    (hpc : (s.proc p).pc = pc) (ht : ∀ q, Woken (s.proc q) (t.proc q)) (hl : t.lock = s.lock) (hd : t.data = s.data)
    (hhas : ∀ l, pc'.has lk l = true → pc.has lk l = true) (hto : pc.Leads lk pc') : Inv lk cond (t.goto p pc') := by
  subst hpc
  have hself : (t.goto p pc').proc p = { s.proc p with pc := pc' } := by
    rw [State.goto, set_self, (ht p).of_running hr]
  refine hi.update hself (fun q hne => ?_) (fun l q _ h => ?_) (Proc.parked_of_running hr) (fun l _ h => ?_) hto.1
    (fun h => ⟨hr, hto.2.1 (hi.sect p h).2⟩) (fun i hc => .inl ?_) .inl .inl fun i hw => ?_
  · rw [State.goto, set_ne hne]
    exact ht q
  · rw [State.goto, set_lock, hl]
    exact h
  · rw [State.goto, set_lock, hl]
    exact hi.held p l hr (hhas l h)
  · rw [State.goto, set_data, hd]
    exact hc
  · rcases hw with hw | ⟨-, hw⟩
    · exact absurd (hr.symm.trans hw) (by simp)
    · exact .inl (.inr ⟨hr, hto.2.2 i hw⟩)

theorem woken_unsleep (q r : P) : Woken (s.proc q) ((s.unsleep r).proc q) := by
  unfold State.unsleep
  split
  · rcases eq_or_ne q r with rfl | hne
    · rw [set_self]
      exact .inr ⟨_, ‹_›, rfl⟩
    · rw [set_ne hne]
      exact .inl rfl
  · exact .inl rfl

theorem unsleep_rest (q : P) : (s.unsleep q).lock = s.lock ∧ (s.unsleep q).data = s.data := by
  unfold State.unsleep
  split <;> exact ⟨rfl, rfl⟩

variable [DecidableEq C]

omit [DecidableEq P] in
theorem woken_wakeup (c : Option C) (q : P) : Woken (s.proc q) ((s.wakeup c).proc q) := by
  unfold State.wakeup
  dsimp only
  split
  · split
    · exact .inr ⟨_, ‹_›, rfl⟩
    · exact .inl rfl
  · exact .inl rfl

omit [DecidableEq P] in
/-- After `wakeup1` nobody sleeps on the channel. -/
theorem wakeup_awake (q : P) (i : I) : ((s.wakeup none).proc q).state ≠ .sleeping (.here i) := by
  unfold State.wakeup
  dsimp only
  split
  · rename_i w hw
    cases w with
    | here j => simp [Wait.chan]
    | on c => simp [Wait.chan, hw]
  · rename_i hno
    exact hno _

omit [DecidableEq P] in
/-- In `wakeup1`, with `lk` and `ptable.lock`, nobody else is on the way to sleep. -/
theorem Inv.wakeup_waits {q : P} (hi : Inv lk cond s) (hr : (s.proc p).state = .running)
    (hpc : (s.proc p).pc = .wakeDo c true) (hne : q ≠ p) (i : I) : ¬ ((s.wakeup none).proc q).waits i := by
  have hhas : ∀ l, l = lk ∨ l = .ptable → (s.proc p).pc.has lk l = true := by
    intro l hl
    rw [hpc, Pc.has]
    simpa [or_comm] using hl
  intro hw
  rcases hw with hw | ⟨hrq, hw⟩
  · exact wakeup_awake q i hw
  · have he := (woken_wakeup none q).running hrq
    rw [he] at hrq hw
    rcases Pc.toSleep.has lk hw with hl | hl
    · exact hne (hi.same hr (hhas lk (.inl rfl)) hrq hl)
    · exact hne (hi.same hr (hhas .ptable (.inr rfl)) hrq hl)

theorem Inv.wakeDo (hi : Inv lk cond s) (hr : (s.proc p).state = .running) (hpc : (s.proc p).pc = .wakeDo c true) :
    Inv lk cond ((s.wakeup none).set p
      { (s.wakeup none).proc p with owes := false, woke := true, pc := .wakeRel true }) := by
  have hno : ∀ q i, ¬ (((s.wakeup none).set p
      { (s.wakeup none).proc p with owes := false, woke := true, pc := .wakeRel true }).proc q).waits i := by
    intro q i hw
    rcases eq_or_ne q p with rfl | hne
    · rw [set_self] at hw
      rcases hw with hw | ⟨-, hw⟩
      · exact wakeup_awake q i hw
      · simp [Pc.toSleep] at hw
    · rw [set_ne hne] at hw
      exact hi.wakeup_waits hr hpc hne i hw
  have hrun : ((s.wakeup none).proc p).state = .running := by rw [(woken_wakeup none p).of_running hr, hr]
  refine hi.update set_self (fun q hq => ?_) (fun _ _ _ => id) (Proc.parked_of_running hrun) (fun l _ hl => ?_) (by simp)
    (fun _ => ⟨hrun, rfl⟩) (fun _ hc => .inl hc) (fun _ => .inr hno) (fun _ => .inr hno) fun i hw => ?_
  · rw [set_ne hq]
    exact woken_wakeup none q
  · refine hi.held p l hr ?_
    rw [hpc]
    exact hl
  · refine absurd ?_ (hno p i)
    rwa [set_self]

attribute [local simp] Pc.has Pc.Leads Pc.sect Pc.toSleep

theorem Inv.code (hi : Inv lk cond s) (hr : (s.proc p).state = .running) (h : s.code lk p = some s') :
    Inv lk cond s' := by
  unfold State.code at h
  cases hpc : (s.proc p).pc <;> simp only [hpc, some.injEq, reduceCtorEq] at h
  case enter | relock | kill | rest => exact hi.acquire hr hpc h (by simp) (by simp)
  case sleep w =>
    split_ifs at h with hl
    · cases h
      exact hi.went hr hpc (by simp [hl]) (by simp)
    · exact hi.acquire hr hpc h (by simp [or_comm]) (by simp [hl])
  case back =>
    split_ifs at h with hl <;> cases h
    · exact hi.went hr hpc (by simp [hl]) (by simp)
    · exact hi.release hr hpc (by simp) (by simp) (by simp)
  case wake c b =>
    split_ifs at h with hl
    · cases h
      exact hi.went hr hpc (by simp [hl]) (by cases b <;> simp)
    · exact hi.acquire hr hpc h (by simp) (by cases b <;> simp)
  case wakeDo c b =>
    split_ifs at h with hc <;> cases h
    · obtain ⟨rfl, rfl⟩ := hc
      exact hi.wakeDo hr hpc
    · exact hi.waking hr hpc (woken_wakeup c) rfl rfl (by simp) (by cases b <;> simp)
  case wakeRel b =>
    split at h <;> cases h <;> rename_i hl
    · exact hi.went hr hpc (by simp [hl]) (by cases b <;> simp)
    · refine hi.release hr hpc (by simp) ?_ ?_
      · cases b with
        | false => simp
        | true => simpa using hl
      · cases b <;> simp
  all_goals subst h
  case sleepRel w => exact hi.release hr hpc (by simp) (by simp [(hi.apart p w hpc).symm]) (by simp)
  case killRel | restBack => exact hi.release hr hpc (by simp) (by simp) (by simp)
  case sleepSet w => exact hi.sched hr hpc (by simp) (.inl rfl) (by simp) (by simp) (by simp)
  case restSet r =>
    exact hi.sched hr hpc (by simp) (.inr rfl) (by cases r <;> simp [Rest.state]) (by simp)
      (by cases r <;> simp [Rest.state])
  case killDo q =>
    exact hi.waking hr hpc (fun r => woken_unsleep r q) (unsleep_rest q).1 (unsleep_rest q).2 (by simp) (by simp)

omit [DecidableEq P] [DecidableEq C] in
/-- A step that leaves the processes as they are and makes no condition true. -/
theorem Inv.frame (hi : Inv lk cond s) (hp : s'.proc = s.proc)
    (hd : ∀ i, cond i s.data = false → cond i s'.data = false)
    (hlock : ∀ l q, s.lock l = some (.proc q) → s'.lock l = some (.proc q)) : Inv lk cond s' := by
  constructor
  · rw [hp]
    exact hi.parked
  · rw [hp]
    exact fun p l hr hh => hlock l p (hi.held p l hr hh)
  · rw [hp]
    exact hi.apart
  · rw [hp]
    exact hi.sect
  · rw [hp]
    exact fun p i hw => (hi.wait p i hw).imp (hd i) id
  · rw [hp]
    exact hi.quiet

omit [DecidableEq C] in
/-- A slot of no process gets new contents. -/
theorem Inv.renew {x : Proc P C I} (hi : Inv lk cond s) (hs : (s.proc p).state ≠ .running)
    (hx : x.state = .unused ∨ x.state = .runnable ∧ x.pc = .restBack) (hpc : ∀ w, x.pc ≠ .sleepRel w)
    (hf : x.owes = false ∧ x.woke = false) : Inv lk cond (s.set p x) := by
  have hrun : x.state ≠ .running := by rcases hx with h | ⟨h, -⟩ <;> simp [h]
  have hno := hi.no_flags (.inl hs)
  refine hi.update set_self (fun q hq => .inl (set_ne hq)) (fun _ _ _ => id) ?_ (fun _ h => absurd h hrun)
    (fun w h => absurd h (hpc w)) (by simp [hf]) (fun _ => .inl) (fun h => absurd (.inl h) hno) (by simp [hf]) fun i hw => ?_
  · rw [Proc.parked]
    rcases hx with h | ⟨h, hb⟩
    · simp only [h]
    · simp only [h, hb, or_true]
  · rcases hw with hw | ⟨hw, -⟩
    · rcases hx with h | ⟨h, -⟩ <;> simp [h] at hw
    · exact absurd hw hrun

omit [DecidableEq C] in
theorem Inv.dispatch (hi : Inv lk cond s) (hl : s.lock .ptable = some .sched) (hs : (s.proc p).state = .runnable) :
    Inv lk cond ((s.setLock .ptable (some (.proc p))).set p { s.proc p with state := .running }) := by
  have hback : (s.proc p).pc = .back ∨ (s.proc p).pc = .restBack := by
    have h := hi.parked p
    rw [Proc.parked] at h
    simpa only [hs] using h
  have hno := hi.no_flags (p := p) (.inl (by simp [hs]))
  refine hi.update set_self (fun q hq => .inl (set_ne hq)) (fun l q _ h => ?_) trivial (fun l _ hh => ?_) (hi.apart p)
    (fun h => absurd h hno) (fun _ => .inl) (fun h => absurd (.inl h) hno) .inl fun i hw => ?_
  · have hne : l ≠ .ptable := by
      rintro rfl
      rw [hl] at h
      cases h
    rw [set_lock, setLock_ne hne]
    exact h
  · have : l = .ptable := by rcases hback with h | h <;> simpa [h] using hh
    rw [this, set_lock, setLock_self]
  · rcases hw with hw | ⟨-, hw⟩
    · cases hw
    · rcases hback with h | h <;> simp [h] at hw

omit [DecidableEq C] in
/-- New data in a section: a wake is owed from now on, or has been done. -/
theorem Inv.change (hi : Inv lk cond s) (hr : (s.proc p).state = .running) (hpc : (s.proc p).pc = .inside) (d : D) :
    Inv lk cond { s.set p { s.proc p with owes := !(s.proc p).woke } with data := d } := by
  have hself : ({ s.set p { s.proc p with owes := !(s.proc p).woke } with data := d } : State P C D I).proc p =
      { s.proc p with owes := !(s.proc p).woke } := set_self
  refine hi.update hself (fun q hq => .inl (set_ne hq)) (fun _ _ _ => id) (hi.parked p) (hi.held p) (hi.apart p)
    (fun _ => ⟨hr, by rw [hpc]; rfl⟩) (fun _ _ => .inr ?_) (fun _ => ?_) .inl fun _ => .inl
  · cases h : (s.proc p).woke <;> simp
  · by_cases h : (s.proc p).woke = true
    · refine .inr fun q i hw => hi.quiet p h q i ?_
      rcases eq_or_ne q p with rfl | hne
      · rwa [hself] at hw
      · rwa [show _ = s.proc q from set_ne hne] at hw
    · exact .inl (by simpa using h)

omit [DecidableEq C] in
/-- The end of a section in which no wake is owed. -/
theorem Inv.leave (hi : Inv lk cond s) (hr : (s.proc p).state = .running)
    (hpc : (s.proc p).pc = .inside) (ho : (s.proc p).owes = false) (ht : t.proc = (s.endSection p).proc)
    (hd : t.data = s.data) (hlock : ∀ l q, q ≠ p → s.lock l = some (.proc q) → t.lock l = some (.proc q))
    (hheld : ∀ l, pc'.has lk l = true → t.lock l = some (.proc p)) (hapart : ∀ w, pc' = .sleepRel w → lk ≠ .ptable)
    (hwait : ∀ i, pc'.toSleep i → cond i s.data = false) : Inv lk cond (t.goto p pc') := by
  refine hi.move (p := p) (b := false) hr ?_ (fun q hq => ?_) hd hlock hheld hapart (by simp) (by simp [ho]) ?_
  · rw [State.goto, set_self, ht, State.endSection, set_self]
  · rw [State.goto, set_ne hq, ht, State.endSection, set_ne hq]
  · rw [hpc]
    exact fun i hw => .inr ⟨hwait i hw, rfl, rfl⟩

omit [DecidableEq C] in
/-- `sleep` with `lk`. -/
theorem Inv.sleep {w : Wait C I} (hi : Inv lk cond s) (hr : (s.proc p).state = .running)
    (hpc : (s.proc p).pc = .inside) (ho : (s.proc p).owes = false) (hw : ∀ i, w = .here i → cond i s.data = false) :
    Inv lk cond ((s.endSection p).goto p (.sleep w)) := by
  refine hi.leave hr hpc ho rfl rfl (fun _ _ _ => id) (fun l hl => hi.held p l hr ?_) (by simp) ?_
  · rw [hpc]
    exact hl
  · exact fun i h => hw i (by simpa using h)

end Steps

section Run

attribute [local simp] Pc.has Pc.Leads Pc.sect Pc.toSleep

variable {P C D I : Type} [DecidableEq P] [DecidableEq C] {lk : Lock} {cond : I → D → Bool} {s s' : State P C D I}
  {a : Act P C D I} {as : List (Act P C D I)}

omit [DecidableEq P] [DecidableEq C] in
/-- A scheduler takes or gives back `ptable.lock`. -/
theorem setLock_keeps {o : Option (Holder P)} (h : ∀ q, s.lock .ptable ≠ some (.proc q)) (l : Lock) (q : P)
    (hq : s.lock l = some (.proc q)) : (s.setLock .ptable o).lock l = some (.proc q) := by
  have hne : l ≠ .ptable := by
    rintro rfl
    exact h q hq
  rw [setLock_ne hne]
  exact hq

theorem Inv.next (hi : Inv lk cond s) (hf : a.fits cond s) (h : s.next lk cond a = some s') : Inv lk cond s' := by
  cases a <;> simp only [State.next, some.injEq] at h
  case keep d =>
    subst h
    exact hi.frame rfl hf (fun _ _ => id)
  case step p =>
    split at h
    · exact hi.code ‹_› h
    · cases h
  case sleep p w =>
    split at h
    · rename_i hr hpc
      cases w with
      | here i =>
        dsimp only at h
        split_ifs at h with hc
        cases h
        exact hi.sleep hr hpc hc.1 (by simpa using hc.2)
      | on c =>
        dsimp only at h
        split_ifs at h with hc
        cases h
        exact hi.sleep hr hpc hc (by simp)
    · cases h
  case leave p =>
    split at h
    · rename_i hr hpc
      split_ifs at h with ho
      cases h
      exact hi.leave hr hpc ho rfl rfl (hi.setLock hr (by simp [hpc]) none) (by simp) (by simp) (by simp)
    · cases h
  case exit p =>
    split at h
    · rename_i hr hpc
      split_ifs at h with hc
      cases h
      refine hi.leave hr hpc hc.2 rfl rfl (fun _ _ _ => id) (fun l hl => hi.held p l hr ?_) (by simp) (by simp)
      rw [hpc, Pc.has, hc.1]
      exact hl
    · cases h
  case fork =>
    split at h <;> cases h
    exact hi.renew (by simp [*]) (.inr ⟨rfl, rfl⟩) (by simp) ⟨rfl, rfl⟩
  case reap =>
    split at h <;> cases h
    exact hi.renew (by simp [*]) (.inl rfl) (by simp) ⟨rfl, rfl⟩
  case change p d =>
    split at h <;> cases h
    exact hi.change ‹_› ‹_› d
  case dispatch =>
    split at h <;> cases h
    exact hi.dispatch ‹_› ‹_›
  case scan | unscan =>
    split at h <;> cases h
    exact hi.frame rfl (fun _ => id) (setLock_keeps (by simp [*]))
  all_goals split at h <;> cases h
  all_goals exact hi.went ‹_› ‹_› (by simp) (by simp)

omit [DecidableEq P] [DecidableEq C] in
theorem Inv.init (d : D) : Inv lk cond ({ data := d } : State P C D I) := by
  refine ⟨fun _ => trivial, fun _ _ h => ?_, fun _ _ h => ?_, fun _ h => ?_, fun _ _ h => ?_, fun _ h => ?_⟩
  · cases h
  · cases h
  · rcases h with h | h <;> cases h
  · rcases h with h | ⟨h, -⟩ <;> cases h
  · cases h

theorem Inv.of_run (h : Run (system lk cond) as s) : Inv lk cond s := by
  induction h with
  | start hi =>
    obtain ⟨d, rfl⟩ := hi
    exact Inv.init d
  | snoc _ hs ih => exact ih.next hs.1 hs.2

/-- Whether `lk` is `ptable.lock` or another lock: when both are free, no process sleeps on the channel for a
condition that is true. -/
theorem no_lost_wakeup (h : Run (system lk cond) as s) (hl : s.lock lk = none) (p : P) (i : I)
    (hp : (s.proc p).state = .sleeping (.here i)) : cond i s.data = false := by
  have hi := Inv.of_run h
  rcases hi.wait p i (.inl hp) with hc | ⟨q, hq⟩
  · exact hc
  · -- a process that owes a wake is in its section
    obtain ⟨hr, hs⟩ := hi.sect q (.inl hq)
    have := hi.held q lk hr (Pc.has_of_sect hs)
    rw [hl] at this
    cases this

end Run

/-- Process 0 sleeps until the data is `true`, is woken by process 1, which makes it so, and sleeps again once it is `false`. -/
def woken : List (Act (Fin 2) Empty Bool Unit) :=
  [.fork 0, .fork 1, .scan, .dispatch 0, .step 0, .enter 0, .step 0, .sleep 0 (.here ()), .step 0, .step 0, .step 0,
    .dispatch 1, .step 1, .enter 1, .step 1, .change 1 true, .wakeup 1 none, .step 1, .step 1, .step 1, .leave 1,
    .scan, .dispatch 0, .step 0, .keep false, .step 0, .sleep 0 (.here ()), .step 0, .step 0, .step 0, .unscan]

/-- The steps of that run. -/
def wokenNext (s : State (Fin 2) Empty Bool Unit) : Act (Fin 2) Empty Bool Unit → Option (State (Fin 2) Empty Bool Unit)
  | .keep true => none
  | a => s.next .other (fun _ d => d) a

theorem no_lost_wakeup_woken : ∃ s, Run (system .other fun _ d => d) woken s ∧ s.lock .other = none ∧
    (s.proc 0).state = .sleeping (.here ()) ∧ s.data = false := by
  have hnext : ∀ s a s', wokenNext s a = some s' → (system .other fun _ d => d).step s a s' := by
    intro s a s' h
    cases a with
    | keep d =>
      cases d with
      | false => exact ⟨fun _ _ => rfl, h⟩
      | true => cases h
    | _ => exact ⟨trivial, h⟩
  have hd : (woken.foldlM wokenNext { data := false }).map (fun s => (s.lock .other, (s.proc 0).state)) =
      some (none, .sleeping (.here ())) := by decide +kernel
  obtain ⟨s, hs, he⟩ := map_eq_some_iff.1 hd
  simp only [Prod.mk.injEq] at he
  have h : Run (system .other fun _ d => d) woken s := Run.of_foldlM hnext ⟨false, rfl⟩ hs
  exact ⟨s, h, he.1, he.2, no_lost_wakeup h he.1 0 () he.2⟩

end Xv6.Sleep

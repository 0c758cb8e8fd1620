import Xv6.Spec.Sched

/-! What a step of a process does to the process table, to `ptable.lock` and to the processor. Every invariant of the
table is derived from the few kinds of change below. -/

namespace Xv6.Sched

open List Option

section Table

variable {K : Type} {s : State K} {p q : Slot} {x : Proc} {k : Pc}

@[simp] theorem set_self : (s.set p x).proc p = x := Function.update_self ..

theorem set_ne (h : q ≠ p) : (s.set p x).proc q = s.proc q := Function.update_of_ne h ..

@[simp] theorem goto_self : (s.goto p k).proc p = { s.proc p with pc := k } := set_self

theorem goto_ne (h : q ≠ p) : (s.goto p k).proc q = s.proc q := set_ne h

theorem wakeup1_proc (chan : Option Chan) : (s.wakeup1 chan).proc q =
    if (s.proc q).state = .sleeping ∧ (s.proc q).chan = chan then { s.proc q with state := .runnable } else s.proc q :=
  rfl

end Table

/-- `SLEEPING`, `RUNNABLE` or `RUNNING` -/
def PState.alive : PState → Bool
  | .sleeping | .runnable | .running => true
  | _ => false

/-- The same state, or woken. -/
def PState.Wakes (a b : PState) : Prop := b = a ∨ a = .sleeping ∧ b = .runnable

theorem PState.Wakes.trans {a b c : PState} (h : a.Wakes b) (h' : b.Wakes c) : a.Wakes c := by
  rcases h with rfl | ⟨rfl, rfl⟩
  · exact h'
  · rcases h' with rfl | ⟨h', -⟩
    · exact .inr ⟨rfl, rfl⟩
    · cases h'

/-- A state that nobody wakes up from. -/
theorem PState.Wakes.eq {a b : PState} (h : a.Wakes b) (ha : a ≠ .sleeping) : b = a := h.resolve_right fun h => ha h.1

theorem PState.Wakes.eq' {a b : PState} (h : a.Wakes b) (hb : b ≠ .runnable) : b = a := h.resolve_right fun h => hb h.2

/-- The slot that `fork` is filling; an interrupt does not change it. -/
@[simp] def Pc.child : Pc → Option Slot
  | .yield k | .yieldSet k | .yieldBack k | .wakeup _ k | .wakeupDo _ k | .wakeupRel k => k.child
  | .forkRel np => np
  | .forkStack np | .forkCow np | .forkParent np | .forkRun np | .forkSet np => some np
  | _ => none

/-- `fork` has given the child its kernel stack. -/
@[simp] def Pc.hasStack : Pc → Bool
  | .yield k | .yieldSet k | .yieldBack k | .wakeup _ k | .wakeupDo _ k | .wakeupRel k => k.hasStack
  | .forkCow _ | .forkParent _ | .forkRun _ | .forkSet _ => true
  | _ => false

/-- `fork` has set the child's parent. -/
@[simp] def Pc.hasParent : Pc → Bool
  | .yield k | .yieldSet k | .yieldBack k | .wakeup _ k | .wakeupDo _ k | .wakeupRel k => k.hasParent
  | .forkRun _ | .forkSet _ => true
  | _ => false

/-- In `exit`, before `sched`. -/
@[simp] def Pc.exiting : Pc → Bool
  | .yield k | .yieldSet k | .yieldBack k | .wakeup _ k | .wakeupDo _ k | .wakeupRel k => k.exiting
  | .exit | .exitDo => true
  | _ => false

/-- Interrupts come where they are on. -/
@[simp] def Pc.wf : Pc → Bool
  | .yield k | .yieldSet k | .yieldBack k | .wakeup _ k | .wakeupDo _ k | .wakeupRel k => k.intena && k.wf
  | _ => true

/-- From `k` a process goes on to `k'`: it leaves `fork` or stays at what it had done for the child. -/
structure Pc.Goes (k k' : Pc) : Prop where
  child : k'.child = none ∨ k'.child = k.child
  stack : k'.hasStack = true → k.hasStack = true
  parent : k'.hasParent = true → k.hasParent = true
  exiting : k'.exiting = true → k.exiting = true
  wf : k.wf = true → k'.wf = true

/-- Asleep before, `RUNNABLE` now; only a running process changes its channel. -/
structure Stirs (x y : Proc) : Prop where
  state : x.state.Wakes y.state
  pid : y.pid = x.pid
  parent : y.parent = x.parent
  kstack : y.kstack = x.kstack
  chan : y.chan = x.chan ∨ x.state = .running
  pc : y.pc = x.pc

theorem Stirs.refl (x : Proc) : Stirs x x := ⟨.inl rfl, rfl, rfl, rfl, .inl rfl, rfl⟩

section Change

variable {K : Type}

/-- A `kill` that names `q`, or a fault of `q`. -/
def Kills (s : State K) (e : Option Event) (q : Slot) : Prop :=
  (∃ pid, e = some (.kill pid (some q)) ∧ (s.proc q).pid = pid) ∨ e = some (.fault q)

/-- What `exit` of `p` does to the others: the parent is woken, children go to `init`, which is woken for a zombie. -/
structure Exits (p : Slot) (s s' : State K) : Prop where
  state : ∀ q, q ≠ p → (s.proc q).state.Wakes (s'.proc q).state
  zombie : (s'.proc p).state = .zombie
  parent : ∀ q, (s'.proc q).parent = if (s.proc q).parent = some p then some initproc else (s.proc q).parent
  rest : ∀ q, (s'.proc q).pid = (s.proc q).pid ∧ (s'.proc q).kstack = (s.proc q).kstack ∧
    (s'.proc q).chan = (s.proc q).chan ∧ (s'.proc q).killed = (s.proc q).killed
  pc : ∀ q, q ≠ p → (s'.proc q).pc = (s.proc q).pc
  exited : (s'.proc p).pc = .exited
  woken : ∀ q, q ≠ p → (s'.proc q).state = .sleeping → (s.proc q).chan ≠ (s.proc p).parent.map .proc
  wokenInit : ∀ q z, q ≠ p → (s'.proc q).state = .sleeping → (s.proc z).parent = some p → (s.proc z).state = .zombie →
    (s.proc q).chan ≠ some (.proc initproc)

/-- What a step on the kernel stack of `p` does to the table. -/
inductive Change (p : Slot) (s s' : State K) : Option Event → Prop where
  /-- `p` goes on; it may wake sleepers and mark one process killed -/
  | stir {k : Pc} {e : Option Event} (hoth : ∀ q, q ≠ p → Stirs (s.proc q) (s'.proc q))
      (hself : Stirs { s.proc p with pc := k } (s'.proc p)) (hgo : (s.proc p).pc.Goes k ∨
        (s.proc p).pc = .out ∧ k = .exit ∧ p ≠ initproc)
      (hkilled : ∀ q, (s'.proc q).killed = (s.proc q).killed ∨ Kills s e q)
      (he : e = none ∨ (∃ pid, e = some (.kill pid (s.named pid))) ∨ e = some (.fault p)) : Change p s s' e
  /-- `yield` and `sleep` -/
  | rest {x : Proc} (hoth : ∀ q, q ≠ p → s'.proc q = s.proc q) (hself : s'.proc p = x)
      (hx : x.pid = (s.proc p).pid ∧ x.parent = (s.proc p).parent ∧ x.kstack = (s.proc p).kstack ∧
        x.killed = (s.proc p).killed)
      (hgo : (s.proc p).pc.Goes x.pc)
      (hst : x.state = .runnable ∧ (∃ j, x.pc = .yieldBack j) ∨ x.state = .sleeping ∧ (x.pc = .sleepBack ∨
        x.pc = .waitBack ∧ x.chan = some (.proc p) ∧
          ∀ q, (s.proc q).parent = some p → (s.proc q).state ≠ .zombie)) : Change p s s' none
  | exit (hpc : (s.proc p).pc = .exitDo) (h : Exits p s s') : Change p s s' (some (.exit p (s.proc p).pid))
  | reap {q : Slot} (hz : (s.proc q).state = .zombie) (hparent : (s.proc q).parent = some p)
      (h : s'.proc = ((s.reap q).goto p .waitRel).proc) :
      Change p s s' (some (.wait p q (s.proc q).pid (s.proc q).kstack))
  | alloc {np : Slot} (hu : (s.proc np).state = .unused) (h : s'.proc =
      ((s.set np { s.proc np with state := .embryo, pid := s.nextpid }).goto p (.forkRel (some np))).proc) :
      Change p s s' (some (.alloc np s.nextpid))
  | stack {np : Slot} {k : ℕ} (hpc : (s.proc p).pc = .forkStack np) (hk : ∀ q, (s.proc q).kstack ≠ some k)
      (h : s'.proc = ((s.set np { s.proc np with kstack := some k, pc := .forkret }).goto p (.forkCow np)).proc) :
      Change p s s' none
  | fail {np : Slot} (hpc : (s.proc p).pc = .forkStack np ∨ (s.proc p).pc = .forkCow np)
      (h : s'.proc = ((s.set np { s.proc np with kstack := none, state := .unused }).goto p .out).proc) :
      Change p s s' (some (.fail np))
  | parent {np : Slot} (hpc : (s.proc p).pc = .forkParent np)
      (h : s'.proc = ((s.set np { s.proc np with parent := some p }).goto p (.forkRun np)).proc) : Change p s s' none
  | born {np : Slot} (hpc : (s.proc p).pc = .forkSet np)
      (h : s'.proc = ((s.setState np .runnable).goto p .forkDone).proc) : Change p s s' none

end Change

section Exit

variable {K : Type} {s s' : State K} {p q : Slot}

theorem stirs_wakeup1 (chan : Option Chan) (q : Slot) : Stirs (s.proc q) ((s.wakeup1 chan).proc q) := by
  rw [wakeup1_proc]
  split
  · rename_i h
    exact ⟨.inr ⟨h.1, rfl⟩, rfl, rfl, rfl, .inl rfl, rfl⟩
  · exact Stirs.refl _

theorem wakeup1_killed (chan : Option Chan) (q : Slot) : ((s.wakeup1 chan).proc q).killed = (s.proc q).killed := by
  rw [wakeup1_proc]
  split <;> rfl

theorem wakeup1_chan (chan : Option Chan) (q : Slot) : ((s.wakeup1 chan).proc q).chan = (s.proc q).chan := by
  rw [wakeup1_proc]
  split <;> rfl

theorem wakeup1_sleeping {chan : Option Chan} (h : ((s.wakeup1 chan).proc q).state = .sleeping) :
    (s.proc q).state = .sleeping ∧ (s.proc q).chan ≠ chan := by
  rw [wakeup1_proc] at h
  split at h
  · cases h
  · rename_i hno
    exact ⟨h, fun hc => hno ⟨h, hc⟩⟩

/-- After the rounds of the loop of `exit` for the slots in `l`. -/
structure Abandons (p : Slot) (l : List Slot) (s s' : State K) : Prop where
  state : ∀ q, (s.proc q).state.Wakes (s'.proc q).state
  parent : ∀ q, (s'.proc q).parent = if q ∈ l ∧ (s.proc q).parent = some p then some initproc else (s.proc q).parent
  rest : ∀ q, (s'.proc q).pid = (s.proc q).pid ∧ (s'.proc q).kstack = (s.proc q).kstack ∧
    (s'.proc q).chan = (s.proc q).chan ∧ (s'.proc q).killed = (s.proc q).killed ∧ (s'.proc q).pc = (s.proc q).pc
  woken : ∀ q, ∀ z ∈ l, (s'.proc q).state = .sleeping → (s.proc z).parent = some p → (s.proc z).state = .zombie →
    (s.proc q).chan ≠ some (.proc initproc)
  out : s'.cpu = s.cpu ∧ s'.lock = s.lock

theorem abandons_one (z : Slot) : Abandons p [z] s (s.abandon p z) := by
  unfold State.abandon
  by_cases hp : (s.proc z).parent = some p
  · rw [if_pos hp]
    dsimp only
    set t := s.set z { s.proc z with parent := some initproc } with ht
    have hstate : ∀ q, (t.proc q).state = (s.proc q).state := by
      intro q
      rcases eq_or_ne q z with rfl | hne
      · rw [ht, set_self]
      · rw [ht, set_ne hne]
    have hparent : ∀ q, (t.proc q).parent = if q ∈ [z] ∧ (s.proc q).parent = some p then some initproc
        else (s.proc q).parent := by
      intro q
      rcases eq_or_ne q z with rfl | hne
      · rw [ht, set_self]
        simp [hp]
      · rw [ht, set_ne hne]
        simp [hne]
    have hrest : ∀ q, (t.proc q).pid = (s.proc q).pid ∧ (t.proc q).kstack = (s.proc q).kstack ∧
        (t.proc q).chan = (s.proc q).chan ∧ (t.proc q).killed = (s.proc q).killed ∧ (t.proc q).pc = (s.proc q).pc := by
      intro q
      rcases eq_or_ne q z with rfl | hne
      · rw [ht, set_self]
        exact ⟨rfl, rfl, rfl, rfl, rfl⟩
      · rw [ht, set_ne hne]
        exact ⟨rfl, rfl, rfl, rfl, rfl⟩
    split
    · constructor
      · intro q
        rw [← hstate q]
        exact (stirs_wakeup1 _ q).state
      · intro q
        rw [(stirs_wakeup1 _ q).parent, hparent]
      · intro q
        have hw := stirs_wakeup1 (s := t) (some (.proc initproc)) q
        obtain ⟨a, b, c, d, e⟩ := hrest q
        exact ⟨hw.pid.trans a, hw.kstack.trans b, (wakeup1_chan _ q).trans c, (wakeup1_killed _ q).trans d, hw.pc.trans e⟩
      · intro q y _ hq _ _
        rw [← (hrest q).2.2.1]
        exact (wakeup1_sleeping hq).2
      · exact ⟨rfl, rfl⟩
    · rename_i hz
      refine ⟨fun q => .inl (hstate q), hparent, hrest, fun q y hy _ _ hs => ?_, rfl, rfl⟩
      rw [mem_singleton] at hy
      rw [hstate, ← hy] at hz
      exact absurd hs hz
  · rw [if_neg hp]
    refine ⟨fun _ => .inl rfl, fun q => ?_, fun _ => ⟨rfl, rfl, rfl, rfl, rfl⟩, fun q y hy _ hpy => ?_, rfl, rfl⟩
    · rw [if_neg]
      rintro ⟨hq, h⟩
      rw [mem_singleton] at hq
      exact hp (hq ▸ h)
    · rw [mem_singleton] at hy
      exact absurd (hy ▸ hpy) hp

theorem Abandons.trans {l l' : List Slot} {s'' : State K} (h : Abandons p l s s') (h' : Abandons p l' s' s'') :
    Abandons p (l ++ l') s s'' := by
  constructor
  · exact fun q => (h.state q).trans (h'.state q)
  · intro q
    rw [h'.parent, h.parent]
    by_cases hp : (s.proc q).parent = some p
    · by_cases hl : q ∈ l <;> by_cases hl' : q ∈ l' <;> simp [hp, hl, hl']
    · simp [hp]
  · intro q
    obtain ⟨a, b, c, d, e⟩ := h.rest q
    obtain ⟨a', b', c', d', e'⟩ := h'.rest q
    exact ⟨a'.trans a, b'.trans b, c'.trans c, d'.trans d, e'.trans e⟩
  · intro q z hz hq hp hs
    by_cases hl : z ∈ l
    · refine h.woken q z hl ?_ hp hs
      rw [← (h'.state q).eq' (by simp [hq]), hq]
    · have hz' : z ∈ l' := (mem_append.1 hz).resolve_left hl
      have hs' : (s'.proc z).state = .zombie := by rw [(h.state z).eq (by simp [hs]), hs]
      have hp' : (s'.proc z).parent = some p := by
        rw [h.parent, if_neg (fun hh => hl hh.1), hp]
      rw [← (h.rest q).2.2.1]
      exact h'.woken q z hz' hq hp' hs'
  · exact ⟨h'.out.1.trans h.out.1, h'.out.2.trans h.out.2⟩

theorem abandons_loop (l : List Slot) : Abandons p l s (l.foldl (State.abandon p) s) := by
  induction l generalizing s with
  | nil =>
    constructor
    · exact fun _ => .inl rfl
    · simp
    · exact fun _ => ⟨rfl, rfl, rfl, rfl, rfl⟩
    · simp
    · exact ⟨rfl, rfl⟩
  | cons z l ih =>
    rw [foldl_cons]
    exact (abandons_one z).trans ih

theorem exit_out (p : Slot) : (s.exit p).cpu = s.cpu ∧ (s.exit p).lock = s.lock := by
  have hl := abandons_loop (p := p) (s := s.wakeup1 ((s.proc p).parent.map .proc)) (finRange NPROC)
  simp only [State.exit, State.setState, State.set]
  exact hl.out

theorem exits_exit (c : K) [DecidableEq K] : Exits p s ((s.exit p).sched c p .exited) := by
  set t := s.wakeup1 ((s.proc p).parent.map .proc) with ht
  have hl := abandons_loop (p := p) (s := t) (finRange NPROC)
  set u := (finRange NPROC).foldl (State.abandon p) t with hu
  have hself : ((s.exit p).sched c p .exited).proc p = { u.proc p with state := .zombie, pc := .exited } := by
    simp only [State.exit, State.sched, State.setCpu, State.setState, goto_self, set_self, ← ht, ← hu]
  have hoth : ∀ q, q ≠ p → ((s.exit p).sched c p .exited).proc q = u.proc q := by
    intro q hq
    simp only [State.exit, State.sched, State.setCpu, State.setState, goto_ne hq, set_ne hq, ← ht, ← hu]
  clear_value u
  have hw := fun q => stirs_wakeup1 (s := s) ((s.proc p).parent.map .proc) q
  have hparent : ∀ q, (u.proc q).parent = if (s.proc q).parent = some p then some initproc else (s.proc q).parent := by
    intro q
    rw [hl.parent, (hw q).parent]
    simp
  have hrest : ∀ q, (u.proc q).pid = (s.proc q).pid ∧ (u.proc q).kstack = (s.proc q).kstack ∧
      (u.proc q).chan = (s.proc q).chan ∧ (u.proc q).killed = (s.proc q).killed := by
    intro q
    obtain ⟨h1, h2, h3, h4, -⟩ := hl.rest q
    exact ⟨h1.trans (hw q).pid, h2.trans (hw q).kstack, h3.trans (wakeup1_chan _ q), h4.trans (wakeup1_killed _ q)⟩
  constructor
  · intro q hq
    rw [hoth q hq]
    exact (hw q).state.trans (hl.state q)
  · rw [hself]
  · intro q
    rcases eq_or_ne q p with rfl | hq
    · rw [hself]
      exact hparent q
    · rw [hoth q hq]
      exact hparent q
  · intro q
    rcases eq_or_ne q p with rfl | hq
    · rw [hself]
      exact hrest q
    · rw [hoth q hq]
      exact hrest q
  · intro q hq
    rw [hoth q hq]
    exact (hl.rest q).2.2.2.2.trans (hw q).pc
  · rw [hself]
  · intro q hq hs
    rw [hoth q hq] at hs
    refine (wakeup1_sleeping ?_).2
    rw [← (hl.state q).eq' (by simp [hs]), hs]
  · intro q z hq hs hp hz
    rw [hoth q hq] at hs
    rw [← wakeup1_chan ((s.proc p).parent.map .proc) q]
    refine hl.woken q z (mem_finRange z) hs ?_ ?_
    · rw [(hw z).parent, hp]
    · rw [(hw z).state.eq (by simp [hz]), hz]

end Exit

section Code

variable {K : Type} [DecidableEq K] {s s' : State K} {c : K} {p q : Slot} {e : Option Event} {k j : Pc} {x : Proc}

/-- What a step on the kernel stack of `p` does to the lock and to processor `c`: an `acquire`, a `release`,
neither, or `sched`. -/
inductive Ctl (c : K) (p : Slot) (s s' : State K) : Prop where
  | stay (hcpu : s'.cpu = s.cpu) (hrun : (s.proc p).state = .running → (s'.proc p).state = .running)
      (hlock : s.lock = none ∧ s'.lock = some c ∨
        s'.lock = none ∧ (s.proc p).pc.intena = false ∧ (s'.proc p).pc.intena = true ∨
        s'.lock = s.lock ∧ ((s'.proc p).pc.intena = false → (s.proc p).pc.intena = false)) : Ctl c p s s'
  | sched (hcpu : s'.cpu = Function.update s.cpu c { s.cpu c with on := none }) (hlock : s'.lock = s.lock)
      (hpc : (s.proc p).pc.intena = false) (hrun : (s'.proc p).state ≠ .running) : Ctl c p s s'

omit [DecidableEq K] in
theorem stirs_goto (k : Pc) (q : Slot) (hq : q ≠ p) : Stirs (s.proc q) ((s.goto p k).proc q) := by
  rw [goto_ne hq]
  exact Stirs.refl _

omit [DecidableEq K] in
/-- A step that only moves `p` on. -/
theorem change_goto (hgo : (s.proc p).pc.Goes k) (h : s'.proc = (s.goto p k).proc)
    (he : e = none ∨ ∃ pid, e = some (.kill pid (s.named pid))) : Change p s s' e := by
  refine .stir (k := k) (fun q hq => ?_) ?_ (.inl hgo) (fun q => .inl ?_) (he.imp_right .inl)
  · rw [h]
    exact stirs_goto k q hq
  · rw [h, goto_self]
    exact Stirs.refl _
  · rw [h]
    rcases eq_or_ne q p with rfl | hq
    · rw [goto_self]
    · rw [goto_ne hq]

omit [DecidableEq K] in
theorem acquire_eq {t : State K} (h : s.acquire c = some t) : s.lock = none ∧ t = { s with lock := some c } := by
  unfold State.acquire at h
  split at h <;> cases h
  exact ⟨‹_›, rfl⟩

theorem code_acquire (hpc : (s.proc p).pc = j) (hgo : j.Goes k)
    (h : (s.acquire c).map (fun s => (s.goto p k, (none : Option Event))) = some (s', e)) :
    Change p s s' e ∧ Ctl c p s s' := by
  subst hpc
  obtain ⟨t, ht, hs⟩ := map_eq_some_iff.1 h
  obtain ⟨h0, rfl⟩ := acquire_eq ht
  obtain ⟨rfl, rfl⟩ := Prod.mk.inj hs
  refine ⟨change_goto hgo rfl (.inl rfl), .stay rfl (fun hr => ?_) (.inl ⟨h0, rfl⟩)⟩
  rw [goto_self]
  exact hr

theorem code_release (hpc : (s.proc p).pc = j) (hgo : j.Goes k) (hj : j.intena = false)
    (hk : k.intena = true) (h : some (s.release.goto p k, none) = some (s', e)) : Change p s s' e ∧ Ctl c p s s' := by
  obtain ⟨rfl, rfl⟩ := Prod.mk.inj (some.inj h)
  subst hpc
  refine ⟨change_goto hgo rfl (.inl rfl), .stay rfl (fun hr => ?_) (.inr (.inl ⟨rfl, hj, ?_⟩))⟩
  · rw [goto_self]
    exact hr
  · rw [goto_self]
    exact hk

/-- A step under the lock that wakes sleepers on a channel. -/
theorem code_wakeup1 (chan : Option Chan) (hpc : (s.proc p).pc = j) (hgo : j.Goes k)
    (hj : j.intena = false) (hr : (s.proc p).state = .running)
    (h : some ((s.wakeup1 chan).goto p k, none) = some (s', e)) : Change p s s' e ∧ Ctl c p s s' := by
  obtain ⟨rfl, rfl⟩ := Prod.mk.inj (some.inj h)
  subst hpc
  have hself : (s.wakeup1 chan).proc p = s.proc p := by
    rw [wakeup1_proc, if_neg]
    simp [hr]
  refine ⟨.stir (k := k) (fun q hq => ?_) ?_ (.inl hgo) (fun q => .inl ?_) (.inl rfl),
    .stay rfl (fun hr => ?_) (.inr (.inr ⟨rfl, fun _ => hj⟩))⟩
  · rw [goto_ne hq]
    exact stirs_wakeup1 chan q
  · rw [goto_self, hself]
    exact Stirs.refl _
  · rcases eq_or_ne q p with rfl | hq
    · rw [goto_self, hself]
    · rw [goto_ne hq, wakeup1_killed]
  · rw [goto_self, hself]
    exact hr

/-- A step under the lock, or without it, that only moves `p` on, to a place where it needs no lock. -/
theorem ctl_goto (hpc : (s.proc p).pc = j) (hk : k.intena = false → j.intena = false) : Ctl c p s (s.goto p k) := by
  subst hpc
  refine .stay rfl (fun hr => ?_) (.inr (.inr ⟨rfl, fun h => ?_⟩))
  · rw [goto_self]
    exact hr
  · rw [goto_self] at h
    exact hk h

theorem code_goto (hpc : (s.proc p).pc = j) (h : some (s.goto p k, none) = some (s', e)) (hgo : j.Goes k)
    (hk : k.intena = false → j.intena = false) : Change p s s' e ∧ Ctl c p s s' := by
  obtain ⟨rfl, rfl⟩ := Prod.mk.inj (some.inj h)
  exact ⟨change_goto (hpc ▸ hgo) rfl (.inl rfl), ctl_goto hpc hk⟩

/-- `yield` and `sleep` before `sched` returns. -/
theorem code_sched (hpc : (s.proc p).pc = j)
    (h : some ((s.set p x).sched c p k, none) = some (s', e)) (hx : x.pid = (s.proc p).pid ∧ x.parent = (s.proc p).parent ∧
      x.kstack = (s.proc p).kstack ∧ x.killed = (s.proc p).killed)
    (hgo : j.Goes k) (hj : j.intena = false)
    (hst : x.state = .runnable ∧ (∃ j, k = .yieldBack j) ∨ x.state = .sleeping ∧ (k = .sleepBack ∨
      k = .waitBack ∧ x.chan = some (.proc p) ∧ ∀ q, (s.proc q).parent = some p → (s.proc q).state ≠ .zombie)) :
    Change p s s' e ∧ Ctl c p s s' := by
  obtain ⟨rfl, rfl⟩ := Prod.mk.inj (some.inj h)
  subst hpc
  have hself : ((s.set p x).sched c p k).proc p = { x with pc := k } := by
    simp only [State.sched, State.setCpu, goto_self, set_self]
  have hoth : ∀ q, q ≠ p → ((s.set p x).sched c p k).proc q = s.proc q := by
    intro q hq
    simp only [State.sched, State.setCpu, goto_ne hq, set_ne hq]
  refine ⟨.rest hoth hself hx hgo hst, .sched rfl rfl hj ?_⟩
  rw [hself]
  rcases hst with ⟨h, -⟩ | ⟨h, -⟩ <;> simp [h]

omit [DecidableEq K] in
/-- A process that woke up forgets its channel. -/
theorem change_unchan (hr : (s.proc p).state = .running) (hpc : (s.proc p).pc = j)
    (hgo : j.Goes k) (hx : { s.proc p with chan := none, pc := k } = { x with pc := k })
    (h : s'.proc = ((s.set p x).goto p k).proc) : Change p s s' none := by
  subst hpc
  refine .stir (k := k) (fun q hq => ?_) ?_ (.inl hgo) (fun q => .inl ?_) (.inl rfl)
  · rw [h, goto_ne hq, set_ne hq]
    exact Stirs.refl _
  · rw [h, goto_self, set_self, ← hx]
    exact ⟨.inl rfl, rfl, rfl, rfl, .inr hr, rfl⟩
  · rw [h]
    rcases eq_or_ne q p with rfl | hq
    · rw [goto_self, set_self, ← hx]
    · rw [goto_ne hq, set_ne hq]

theorem code_mark {pid : BitVec 32} (hq : s.named pid = some q) (hpc : (s.proc p).pc = j)
    (hgo : j.Goes k) (hj : j.intena = false) (hr : (s.proc p).state = .running) :
    Change p s ((s.mark q).goto p k) (some (.kill pid (some q))) ∧ Ctl c p s ((s.mark q).goto p k) := by
  subst hpc
  have hpid : (s.proc q).pid = pid := by simpa using find?_some hq
  have hmark : ∀ r, Stirs (s.proc r) ((s.mark q).proc r) := by
    intro r
    rcases eq_or_ne r q with rfl | hne
    · rw [State.mark, set_self]
      refine ⟨?_, rfl, rfl, rfl, .inl rfl, rfl⟩
      dsimp only
      split
      · exact .inr ⟨‹_›, rfl⟩
      · exact .inl rfl
    · rw [State.mark, set_ne hne]
      exact Stirs.refl _
  have hself : ((s.mark q).goto p k).proc p = { (s.mark q).proc p with pc := k } := goto_self
  refine ⟨.stir (k := k) (fun r hr => ?_) ?_ (.inl hgo) (fun r => ?_) (.inr (.inl ⟨pid, ?_⟩)),
    .stay rfl (fun hr => ?_) (.inr (.inr ⟨rfl, fun _ => hj⟩))⟩
  · rw [goto_ne hr]
    exact hmark r
  · obtain ⟨h1, h2, h3, h4, h5, h6⟩ := hmark p
    rw [hself]
    exact ⟨h1, h2, h3, h4, h5, rfl⟩
  · rcases eq_or_ne r q with rfl | hne
    · exact .inr (.inl ⟨pid, rfl, hpid⟩)
    · left
      rcases eq_or_ne r p with rfl | hne'
      · rw [hself, State.mark, set_ne hne]
      · rw [goto_ne hne', State.mark, set_ne hne]
  · rw [hq]
  · rw [hself, (hmark p).state.eq (by simp [hr]), hr]

omit [DecidableEq K] in
/-- A write to another slot leaves `p` running. -/
theorem goto_set_running (hq : q ≠ p) (hr : (s.proc p).state = .running) :
    (((s.set q x).goto p k).proc p).state = .running := by
  rw [goto_self, set_ne hq.symm]
  exact hr

theorem code_step (hr : (s.proc p).state = .running) (hwf : (s.proc p).pc.wf = true)
    (hchild : ∀ np, (s.proc p).pc.child = some np → np ≠ p) (h : s.code c p p (s.proc p).pc = some (s', e)) :
    Change p s s' e ∧ Ctl c p s s' := by
  obtain ⟨j, hpc⟩ : ∃ j, (s.proc p).pc = j := ⟨_, rfl⟩
  rw [hpc] at hwf hchild h
  cases j with
  | out | forkStack np | forkCow np | exited => simp [State.code] at h
  | forkret => exact code_release hpc (by constructor <;> simp) rfl rfl h
  | yield k => exact code_acquire hpc (by constructor <;> simp) h
  | yieldSet k => exact code_sched hpc h ⟨rfl, rfl, rfl, rfl⟩ (by constructor <;> simp) rfl (.inl ⟨rfl, k, rfl⟩)
  | yieldBack k =>
    have hk : k.intena = true ∧ k.wf = true := by simpa using hwf
    exact code_release hpc (by constructor <;> simp) rfl hk.1 h
  | wakeup ch k => exact code_acquire hpc (by constructor <;> simp) h
  | wakeupDo ch k => exact code_wakeup1 _ hpc (by constructor <;> simp) rfl hr h
  | wakeupRel k =>
    have hk : k.intena = true ∧ k.wf = true := by simpa using hwf
    exact code_release hpc (by constructor <;> simp) rfl hk.1 h
  | sleep ch => exact code_acquire hpc (by constructor <;> simp) h
  | sleepSet ch => exact code_sched hpc h ⟨rfl, rfl, rfl, rfl⟩ (by constructor <;> simp) rfl (.inr ⟨rfl, .inl rfl⟩)
  | sleepBack =>
    obtain ⟨rfl, rfl⟩ := Prod.mk.inj (some.inj h)
    refine ⟨change_unchan hr hpc (k := .out) (by constructor <;> simp) rfl rfl,
      .stay rfl (fun _ => ?_) (.inr (.inl ⟨rfl, by rw [hpc]; rfl, ?_⟩))⟩
    · rw [goto_self]
      simpa [State.release] using hr
    · rw [goto_self]
      rfl
  | kill pid => exact code_acquire hpc (by constructor <;> simp) h
  | killDo pid =>
    simp only [State.code] at h
    cases hn : s.named pid with
    | some q =>
      simp only [hn, some.injEq, Prod.mk.injEq] at h
      obtain ⟨rfl, rfl⟩ := h
      exact code_mark hn hpc (by constructor <;> simp) rfl hr
    | none =>
      simp only [hn, some.injEq, Prod.mk.injEq] at h
      obtain ⟨rfl, rfl⟩ := h
      exact ⟨change_goto (k := .killRel) (by rw [hpc]; constructor <;> simp) rfl (.inr ⟨pid, by rw [hn]⟩),
        ctl_goto hpc fun _ => rfl⟩
  | killRel => exact code_release hpc (by constructor <;> simp) rfl rfl h
  | exit => exact code_acquire hpc (by constructor <;> simp) h
  | exitDo =>
    obtain ⟨rfl, rfl⟩ := Prod.mk.inj (some.inj h)
    have hout := exit_out (s := s) p
    have hx := exits_exit (s := s) (p := p) c
    generalize s.exit p = t at hout hx ⊢
    refine ⟨.exit hpc hx, .sched ?_ hout.2 (by rw [hpc]; rfl) ?_⟩
    · simp only [State.sched, State.setCpu, State.goto, State.set, hout.1]
    · rw [hx.zombie]
      simp
  | wait => exact code_acquire hpc (by constructor <;> simp) h
  | waitScan =>
    simp only [State.code] at h
    cases hz : s.zombieChild p with
    | some q =>
      have hq : (s.proc q).parent = some p ∧ (s.proc q).state = .zombie := by simpa using find?_some hz
      have hne : q ≠ p := by
        rintro rfl
        rw [hr] at hq
        cases hq.2
      simp only [hz, some.injEq, Prod.mk.injEq] at h
      obtain ⟨rfl, rfl⟩ := h
      exact ⟨.reap hq.2 hq.1 rfl,
        .stay rfl (goto_set_running hne) (.inr (.inr ⟨rfl, fun _ => by rw [hpc]; rfl⟩))⟩
    | none =>
      rw [hz] at h
      dsimp only at h
      split_ifs at h with hk
      · exact code_goto hpc h (by constructor <;> simp) fun _ => rfl
      · refine code_sched hpc h ⟨rfl, rfl, rfl, rfl⟩ (by constructor <;> simp) rfl (.inr ⟨rfl, .inr ⟨rfl, rfl, ?_⟩⟩)
        intro q hq hs
        have := find?_eq_none.1 hz q (mem_finRange q)
        simp [hq, hs] at this
  | waitBack =>
    obtain ⟨rfl, rfl⟩ := Prod.mk.inj (some.inj h)
    refine ⟨change_unchan hr hpc (k := .waitScan) (by constructor <;> simp) rfl rfl,
      .stay rfl (fun _ => ?_) (.inr (.inr ⟨rfl, fun _ => by rw [hpc]; rfl⟩))⟩
    rw [goto_self]
    simpa using hr
  | waitRel => exact code_release hpc (by constructor <;> simp) rfl rfl h
  | fork => exact code_acquire hpc (by constructor <;> simp) h
  | forkFind =>
    simp only [State.code] at h
    cases hu : s.firstUnused with
    | some np =>
      have hs : (s.proc np).state = .unused := by simpa using find?_some hu
      have hne : np ≠ p := by
        rintro rfl
        rw [hr] at hs
        cases hs
      simp only [hu, some.injEq, Prod.mk.injEq] at h
      obtain ⟨rfl, rfl⟩ := h
      exact ⟨.alloc hs rfl, .stay rfl (goto_set_running hne) (.inr (.inr ⟨rfl, fun _ => by rw [hpc]; rfl⟩))⟩
    | none =>
      rw [hu] at h
      exact code_goto hpc h (by constructor <;> simp) fun _ => rfl
  | forkRel np =>
    cases np with
    | none => exact code_release hpc (by constructor <;> simp) rfl rfl h
    | some np => exact code_release hpc (by constructor <;> simp) rfl rfl h
  | forkParent np =>
    obtain ⟨rfl, rfl⟩ := Prod.mk.inj (some.inj h)
    refine ⟨.parent hpc rfl, .stay rfl (goto_set_running (hchild np rfl)) (.inr (.inr ⟨rfl, ?_⟩))⟩
    rw [goto_self]
    intro hi
    cases hi
  | forkRun np => exact code_acquire hpc (by constructor <;> simp) h
  | forkSet np =>
    obtain ⟨rfl, rfl⟩ := Prod.mk.inj (some.inj h)
    exact ⟨.born hpc rfl, .stay rfl (goto_set_running (hchild np rfl)) (.inr (.inr ⟨rfl, fun _ => by rw [hpc]; rfl⟩))⟩
  | forkDone => exact code_release hpc (by constructor <;> simp) rfl rfl h

theorem Pc.goes_yield (h : k.intena = true) : k.Goes (.yield k) := by
  constructor <;> simp [h]

theorem Pc.goes_wakeup (ch : Chan) (h : k.intena = true) : k.Goes (.wakeup ch k) := by
  constructor <;> simp [h]

theorem call_step {r : Call} (hr : (s.proc p).state = .running) (hpc : (s.proc p).pc = .out)
    (h : s.call p p r = some (s', e)) : Change p s s' e ∧ Ctl c p s s' := by
  cases r with
  | wakeup ch => exact code_goto hpc h (Pc.goes_wakeup ch rfl) nofun
  | sleep a | kill pid | wait | fork => exact code_goto hpc h (by constructor <;> simp) nofun
  | exit =>
    by_cases hi : p = initproc
    · simp [State.call, hi] at h
    · simp only [State.call, if_neg hi, some.injEq, Prod.mk.injEq] at h
      obtain ⟨rfl, rfl⟩ := h
      refine ⟨.stir (k := .exit) (stirs_goto _) ?_ (.inr ⟨hpc, rfl, hi⟩) (fun q => .inl ?_) (.inl rfl), ctl_goto hpc nofun⟩
      · rw [goto_self]
        exact Stirs.refl _
      · rcases eq_or_ne q p with rfl | hq
        · rw [goto_self]
        · rw [goto_ne hq]
  | fault =>
    obtain ⟨rfl, rfl⟩ := Prod.mk.inj (some.inj h)
    refine ⟨.stir (k := (s.proc p).pc) (fun q hq => ?_) ?_ (.inl ⟨.inr rfl, id, id, id, id⟩) (fun q => ?_) (.inr (.inr rfl)),
      .stay rfl (fun _ => ?_) (.inr (.inr ⟨rfl, ?_⟩))⟩
    · rw [set_ne hq]
      exact Stirs.refl _
    · rw [set_self]
      exact ⟨.inl rfl, rfl, rfl, rfl, .inl rfl, rfl⟩
    · rcases eq_or_ne q p with rfl | hq
      · exact .inr (.inr rfl)
      · rw [set_ne hq]
        exact .inl rfl
    · rw [set_self]
      exact hr
    · rw [set_self]
      exact id

/-- Where `scheduler`, or an interrupt there, has `ptable.lock`. -/
def SPc.locked : SPc → Bool
  | .idle | .wakeup _ => false
  | .scan _ | .switch _ | .back _ | .wakeupDo _ | .wakeupRel => true

/-- How many slots `scheduler` looks at before it looks at `p`. -/
def SPc.rank (p : Slot) : SPc → ℕ
  | .scan i => if i ≤ p then p - i else NPROC - i + p
  | .switch q | .back q => if (q : ℕ) < p then p - (q + 1) else NPROC - (q + 1) + p
  | _ => p

/-- A step of `scheduler` on processor `c`, or of an interrupt there. -/
inductive Sw (c : K) (s s' : State K) : Prop where
  /-- the search for a process, and interrupts -/
  | look {k : SPc} (htab : ∀ q, Stirs (s.proc q) (s'.proc q) ∧ (s'.proc q).killed = (s.proc q).killed)
      (hcpu : s'.cpu = Function.update s.cpu c { s.cpu c with pc := k })
      (hpc : ∀ p, (s.cpu c).pc ≠ .switch p ∧ (s.cpu c).pc ≠ .back p ∧ k ≠ .switch p ∧ k ≠ .back p)
      (hlock : s.lock = none ∧ s'.lock = some c ∨ s.lock = some c ∧ s'.lock = none ∧ k.locked = false ∨
        s'.lock = s.lock ∧ (k.locked = true → s.lock = some c))
      (hrank : ∀ p, (s.proc p).state = .runnable → k.rank p ≤ (s.cpu c).pc.rank p) : Sw c s s'
  | choose {p : Slot} (hp : (s.proc p).state = .runnable) (hpc : (s.cpu c).pc = .scan p)
      (h : s' = (s.setState p .running).setCpu c { s.cpu c with proc := some p, pc := .switch p }) : Sw c s s'
  | switch {p : Slot} (hpc : (s.cpu c).pc = .switch p)
      (h : s' = s.setCpu c { s.cpu c with on := some p, pc := .back p }) : Sw c s s'
  | back {p : Slot} (hpc : (s.cpu c).pc = .back p)
      (h : s' = s.setCpu c { s.cpu c with proc := none, pc := .scan (p + 1) }) : Sw c s s'

theorem sw_sgoto {k : SPc} (hpc : ∀ p, (s.cpu c).pc ≠ .switch p ∧ (s.cpu c).pc ≠ .back p ∧ k ≠ .switch p ∧ k ≠ .back p)
    (hk : k.locked = true → s.lock = some c)
    (hrank : ∀ p, (s.proc p).state = .runnable → k.rank p ≤ (s.cpu c).pc.rank p) : Sw c s (s.sgoto c k) :=
  .look (fun _ => ⟨Stirs.refl _, rfl⟩) rfl hpc (.inr (.inr ⟨rfl, hk⟩)) hrank

theorem sw_acquire {k : SPc} (h : (s.acquire c).map (·.sgoto c k) = some s')
    (hpc : ∀ p, (s.cpu c).pc ≠ .switch p ∧ (s.cpu c).pc ≠ .back p ∧ k ≠ .switch p ∧ k ≠ .back p)
    (hrank : ∀ p, k.rank p ≤ (s.cpu c).pc.rank p) : Sw c s s' := by
  obtain ⟨t, ht, rfl⟩ := map_eq_some_iff.1 h
  obtain ⟨h0, rfl⟩ := acquire_eq ht
  exact .look (fun _ => ⟨Stirs.refl _, rfl⟩) rfl hpc (.inl ⟨h0, rfl⟩) fun p _ => hrank p

theorem sw_release (hl : s.lock = some c) (hpc : ∀ p, (s.cpu c).pc ≠ .switch p ∧ (s.cpu c).pc ≠ .back p)
    (hrank : ∀ p : Slot, p ≤ (s.cpu c).pc.rank p) : Sw c s (s.release.sgoto c .idle) :=
  .look (fun _ => ⟨Stirs.refl _, rfl⟩) rfl (fun p => ⟨(hpc p).1, (hpc p).2, nofun, nofun⟩) (.inr (.inl ⟨hl, rfl, rfl⟩))
    fun p _ => hrank p

theorem scheduler_step (hl : (s.cpu c).pc.locked = true → s.lock = some c) (h : s.scheduler c = some s') :
    Sw c s s' := by
  unfold State.scheduler at h
  cases hpc : (s.cpu c).pc with
  | idle =>
    rw [hpc] at h
    exact sw_acquire h (by simp [hpc]) (by simp [hpc, SPc.rank])
  | scan i =>
    have hlk := hl (by rw [hpc]; rfl)
    rw [hpc] at h
    dsimp only at h
    by_cases hi : i < NPROC
    · simp only [dif_pos hi] at h
      by_cases hr : (s.proc ⟨i, hi⟩).state = .runnable
      · simp only [if_pos hr, some.injEq] at h
        exact .choose hr hpc h.symm
      · simp only [if_neg hr, some.injEq] at h
        subst h
        refine sw_sgoto (by simp [hpc]) (fun _ => hlk) fun p hp => ?_
        have hne : (p : ℕ) ≠ i := by
          rintro rfl
          exact hr hp
        simp only [hpc, SPc.rank]
        split_ifs <;> omega
    · simp only [dif_neg hi, some.injEq] at h
      subst h
      refine sw_release hlk (by simp [hpc]) fun p => ?_
      have := p.2
      simp only [hpc, SPc.rank]
      split_ifs <;> omega
  | switch p =>
    rw [hpc] at h
    simp only [some.injEq] at h
    exact .switch hpc h.symm
  | back p =>
    rw [hpc] at h
    simp only [some.injEq] at h
    exact .back hpc h.symm
  | wakeup ch =>
    rw [hpc] at h
    exact sw_acquire h (by simp [hpc]) (by simp [hpc, SPc.rank])
  | wakeupDo ch =>
    rw [hpc] at h
    simp only [some.injEq] at h
    subst h
    exact .look (fun q => ⟨stirs_wakeup1 _ q, wakeup1_killed _ q⟩) rfl (by simp [hpc])
      (.inr (.inr ⟨rfl, fun _ => hl (by rw [hpc]; rfl)⟩)) (by simp [hpc, SPc.rank])
  | wakeupRel =>
    rw [hpc] at h
    simp only [some.injEq] at h
    subst h
    exact sw_release (hl (by rw [hpc]; rfl)) (by simp [hpc]) (by simp [hpc, SPc.rank])

end Code

end Xv6.Sched

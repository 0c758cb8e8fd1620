import Xv6.Proofs.ProcTable

/-! Which process a processor runs. `ptable.lock` is handed over across `swtch`, so a process changes its state and
leaves the processor, or is chosen and entered, while one processor has the lock. -/

namespace Xv6.Sched

open Trace Option
open Function (update update_self update_of_ne)

variable {K : Type}

/-- Where a process that does not run goes on. -/
def Proc.parked (x : Proc) : Prop :=
  match x.state with
  | .runnable => x.pc = .forkret ∨ (∃ k, x.pc = .yieldBack k) ∨ x.pc = .sleepBack ∨ x.pc = .waitBack
  | .sleeping => x.pc = .sleepBack ∨ x.pc = .waitBack
  | _ => True

/-- The processor `c` in `scheduler`, or in an interrupt there. -/
def State.Off (s : State K) (c : K) : Prop :=
  match (s.cpu c).pc with
  | .switch p => (s.cpu c).proc = some p ∧ (s.proc p).state = .running ∧ (s.proc p).pc.intena = false
  | .back p => (s.cpu c).proc = some p ∧ (s.proc p).state ≠ .running
  | _ => (s.cpu c).proc = none

structure Cpus (s : State K) : Prop where
  on : ∀ c p, (s.cpu c).on = some p →
    (s.cpu c).proc = some p ∧ (s.cpu c).pc = .back p ∧ (s.proc p).state = .running
  off : ∀ c, (s.cpu c).on = none → s.Off c
  one : ∀ c c' p, (s.cpu c).proc = some p → (s.cpu c').proc = some p → c = c'
  run : ∀ p, (s.proc p).state = .running → ∃ c, (s.cpu c).proc = some p
  held : ∀ c p, (s.cpu c).on = some p → (s.proc p).pc.intena = false → s.lock = some c
  locked : ∀ c, (s.cpu c).on = none → (s.cpu c).pc.locked = true → s.lock = some c
  parked : ∀ p, (s.proc p).parked

/-- What a step does to the processes it does not run: they keep on running, or not. -/
def Keeps (x y : Proc) : Prop :=
  x.state = .running ∧ y.state = .running ∧ y.pc = x.pc ∨ x.state ≠ .running ∧ y.state ≠ .running ∧ y.parked

variable {s s' : State K} {c : K} {p : Slot} {x y : Proc}

theorem Keeps.running (h : Keeps x y) (hx : x.state = .running) : y.state = .running ∧ y.pc = x.pc := by
  rcases h with ⟨-, h⟩ | ⟨h, -⟩
  · exact h
  · exact absurd hx h

theorem Keeps.running_iff (h : Keeps x y) : y.state = .running ↔ x.state = .running := by
  rcases h with ⟨h, h', -⟩ | ⟨h, h', -⟩
  · exact ⟨fun _ => h, fun _ => h'⟩
  · exact ⟨fun hh => absurd hh h', fun hh => absurd hh h⟩

theorem parked_of_running (h : x.state = .running) : x.parked := by
  rw [Proc.parked, h]
  trivial

theorem Keeps.parked (h : Keeps x y) : y.parked := by
  rcases h with ⟨-, h, -⟩ | ⟨-, -, h⟩
  · exact parked_of_running h
  · exact h

theorem Stirs.keeps (h : Stirs x y) (hx : x.parked) : Keeps x y := by
  by_cases hr : x.state = .running
  · exact .inl ⟨hr, by rw [h.state.eq (by simp [hr]), hr], h.pc⟩
  · refine .inr ⟨hr, ?_, ?_⟩
    · rcases h.state with he | ⟨-, he⟩
      · rwa [he]
      · simp [he]
    · unfold Proc.parked at hx ⊢
      rw [h.pc]
      rcases h.state with he | ⟨he, he'⟩
      · rwa [he]
      · rw [he] at hx
        rw [he']
        exact .inr (.inr hx)

theorem Cpus.proc_ne {c' : K} {p' : Slot} (hi : Cpus s) (hp : (s.cpu c).proc = some p) (hp' : (s.cpu c').proc = some p')
    (hne : c' ≠ c) : p' ≠ p := by
  rintro rfl
  exact hne (hi.one c' c p' hp' hp)

theorem Off.keeps (hcpu : s'.cpu c = s.cpu c) (hk : ∀ q, (s.cpu c).proc = some q → Keeps (s.proc q) (s'.proc q))
    (h : s.Off c) : s'.Off c := by
  unfold State.Off at h ⊢
  rw [hcpu]
  split
  · rename_i p hpc
    rw [hpc] at h
    have hr := (hk p h.1).running h.2.1
    refine ⟨h.1, hr.1, ?_⟩
    rw [hr.2]
    exact h.2.2
  · rename_i p hpc
    rw [hpc] at h
    exact ⟨h.1, fun hr => h.2 ((hk p h.1).running_iff.1 hr)⟩
  · rename_i h1 h2
    split at h
    · exact absurd ‹_› (h1 _)
    · exact absurd ‹_› (h2 _)
    · exact h

theorem Cpus.stay (hi : Cpus s) (hon : (s.cpu c).on = some p) (hcpu : s'.cpu = s.cpu)
    (hrun : (s'.proc p).state = .running)
    (hlock : s.lock = none ∧ s'.lock = some c ∨
      s'.lock = none ∧ (s.proc p).pc.intena = false ∧ (s'.proc p).pc.intena = true ∨
      s'.lock = s.lock ∧ ((s'.proc p).pc.intena = false → (s.proc p).pc.intena = false))
    (hoth : ∀ q, q ≠ p → Keeps (s.proc q) (s'.proc q)) : Cpus s' := by
  obtain ⟨hproc, -, hr⟩ := hi.on c p hon
  -- the lock of another processor stays its own
  have hother : ∀ c', c' ≠ c → s.lock = some c' → s'.lock = some c' := by
    intro c' hne hl
    rcases hlock with ⟨h0, -⟩ | ⟨-, h0, -⟩ | ⟨h0, -⟩
    · rw [hl] at h0
      cases h0
    · rw [hi.held c p hon h0] at hl
      exact absurd (some.inj hl).symm hne
    · rw [h0, hl]
  constructor
  · intro c' p' h
    rw [hcpu] at h ⊢
    obtain ⟨h1, h2, h3⟩ := hi.on c' p' h
    refine ⟨h1, h2, ?_⟩
    rcases eq_or_ne p' p with rfl | hne
    · exact hrun
    · exact ((hoth p' hne).running h3).1
  · intro c' h
    rw [hcpu] at h
    have hne : c' ≠ c := by
      rintro rfl
      rw [hon] at h
      cases h
    exact Off.keeps (by rw [hcpu]) (fun q hq => hoth q (hi.proc_ne hproc hq hne)) (hi.off c' h)
  · rw [hcpu]
    exact hi.one
  · intro p' h
    rw [hcpu]
    rcases eq_or_ne p' p with rfl | hne
    · exact ⟨c, hproc⟩
    · exact hi.run p' ((hoth p' hne).running_iff.1 h)
  · intro c' p' h hpc
    rw [hcpu] at h
    rcases eq_or_ne c' c with rfl | hne
    · rw [hon] at h
      obtain rfl := some.inj h
      rcases hlock with ⟨-, h0⟩ | ⟨-, -, h0⟩ | ⟨h0, hk⟩
      · exact h0
      · rw [hpc] at h0
        cases h0
      · rw [h0]
        exact hi.held c' p hon (hk hpc)
    · obtain ⟨h1, -, h3⟩ := hi.on c' p' h
      have hk := (hoth p' (hi.proc_ne hproc h1 hne)).running h3
      rw [hk.2] at hpc
      exact hother c' hne (hi.held c' p' h hpc)
  · intro c' h hl
    rw [hcpu] at h hl
    have hne : c' ≠ c := by
      rintro rfl
      rw [hon] at h
      cases h
    exact hother c' hne (hi.locked c' h hl)
  · intro p'
    rcases eq_or_ne p' p with rfl | hne
    · exact parked_of_running hrun
    · exact (hoth p' hne).parked

variable [DecidableEq K]

theorem Cpus.sched (hi : Cpus s) (hon : (s.cpu c).on = some p)
    (hcpu : s'.cpu = update s.cpu c { s.cpu c with on := none }) (hlock : s'.lock = s.lock)
    (hpc : (s.proc p).pc.intena = false) (hrun : (s'.proc p).state ≠ .running) (hpark : (s'.proc p).parked)
    (hoth : ∀ q, q ≠ p → Keeps (s.proc q) (s'.proc q)) : Cpus s' := by
  obtain ⟨hproc, hback, hr⟩ := hi.on c p hon
  have hl := hi.held c p hon hpc
  have hc : s'.cpu c = { s.cpu c with on := none } := by rw [hcpu, update_self]
  have hne : ∀ c', c' ≠ c → s'.cpu c' = s.cpu c' := fun c' h => by rw [hcpu, update_of_ne h]
  have hprocs : ∀ c', (s'.cpu c').proc = (s.cpu c').proc := by
    intro c'
    rcases eq_or_ne c' c with rfl | h
    · rw [hc]
    · rw [hne c' h]
  constructor
  · intro c' p' h
    rcases eq_or_ne c' c with rfl | hcc
    · rw [hc] at h
      cases h
    · rw [hne c' hcc] at h ⊢
      obtain ⟨h1, h2, h3⟩ := hi.on c' p' h
      exact ⟨h1, h2, ((hoth p' (hi.proc_ne hproc h1 hcc)).running h3).1⟩
  · intro c' h
    rcases eq_or_ne c' c with rfl | hcc
    · unfold State.Off
      simp only [hc, hback]
      exact ⟨hproc, hrun⟩
    · rw [hne c' hcc] at h
      exact Off.keeps (hne c' hcc) (fun q hq => hoth q (hi.proc_ne hproc hq hcc)) (hi.off c' h)
  · intro c₁ c₂ p' h₁ h₂
    rw [hprocs] at h₁ h₂
    exact hi.one c₁ c₂ p' h₁ h₂
  · intro p' h
    rcases eq_or_ne p' p with rfl | hpp
    · exact absurd h hrun
    · obtain ⟨c', hc'⟩ := hi.run p' ((hoth p' hpp).running_iff.1 h)
      exact ⟨c', by rw [hprocs, hc']⟩
  · intro c' p' h hk
    rcases eq_or_ne c' c with rfl | hcc
    · rw [hc] at h
      cases h
    · rw [hne c' hcc] at h
      obtain ⟨h1, -, h3⟩ := hi.on c' p' h
      rw [((hoth p' (hi.proc_ne hproc h1 hcc)).running h3).2] at hk
      rw [hlock]
      exact hi.held c' p' h hk
  · intro c' h hk
    rw [hlock]
    rcases eq_or_ne c' c with rfl | hcc
    · exact hl
    · rw [hne c' hcc] at h hk
      exact hi.locked c' h hk
  · intro p'
    rcases eq_or_ne p' p with rfl | hpp
    · exact hpark
    · exact (hoth p' hpp).parked

theorem Cpus.ctl (hi : Cpus s) (hon : (s.cpu c).on = some p) (h : Ctl c p s s') (hpark : (s'.proc p).parked)
    (hoth : ∀ q, q ≠ p → Keeps (s.proc q) (s'.proc q)) : Cpus s' := by
  cases h with
  | stay hcpu hrun hlock => exact hi.stay hon hcpu (hrun (hi.on c p hon).2.2) hlock hoth
  | sched hcpu hlock hpc hrun => exact hi.sched hon hcpu hlock hpc hrun hpark hoth

omit [DecidableEq K] in
theorem Cpus.off_proc (hi : Cpus s) (hoff : (s.cpu c).on = none)
    (hpc : ∀ p, (s.cpu c).pc ≠ .switch p ∧ (s.cpu c).pc ≠ .back p) : (s.cpu c).proc = none := by
  have h := hi.off c hoff
  unfold State.Off at h
  split at h
  · exact absurd ‹_› (hpc _).1
  · exact absurd ‹_› (hpc _).2
  · exact h

theorem Cpus.look {k : SPc} (hi : Cpus s) (hoff : (s.cpu c).on = none)
    (hcpu : s'.cpu = update s.cpu c { s.cpu c with pc := k })
    (hpc : ∀ p, (s.cpu c).pc ≠ .switch p ∧ (s.cpu c).pc ≠ .back p ∧ k ≠ .switch p ∧ k ≠ .back p)
    (hlock : s.lock = none ∧ s'.lock = some c ∨ s.lock = some c ∧ s'.lock = none ∧ k.locked = false ∨
      s'.lock = s.lock ∧ (k.locked = true → s.lock = some c))
    (hoth : ∀ q, Keeps (s.proc q) (s'.proc q)) : Cpus s' := by
  have hnone := hi.off_proc hoff fun p => ⟨(hpc p).1, (hpc p).2.1⟩
  have hc : s'.cpu c = { s.cpu c with pc := k } := by rw [hcpu, update_self]
  have hne : ∀ c', c' ≠ c → s'.cpu c' = s.cpu c' := fun c' h => by rw [hcpu, update_of_ne h]
  have hprocs : ∀ c', (s'.cpu c').proc = (s.cpu c').proc ∧ (s'.cpu c').on = (s.cpu c').on := by
    intro c'
    rcases eq_or_ne c' c with rfl | h
    · rw [hc]
      exact ⟨rfl, rfl⟩
    · rw [hne c' h]
      exact ⟨rfl, rfl⟩
  have hother : ∀ c', c' ≠ c → s.lock = some c' → s'.lock = some c' := by
    intro c' hcc hl
    rcases hlock with ⟨h0, -⟩ | ⟨h0, -⟩ | ⟨h0, -⟩
    · rw [hl] at h0
      cases h0
    · rw [h0] at hl
      exact absurd (some.inj hl).symm hcc
    · rw [h0, hl]
  constructor
  · intro c' p' h
    rw [(hprocs c').2] at h
    have hcc : c' ≠ c := by
      rintro rfl
      rw [hoff] at h
      cases h
    rw [hne c' hcc]
    obtain ⟨h1, h2, h3⟩ := hi.on c' p' h
    exact ⟨h1, h2, ((hoth p').running h3).1⟩
  · intro c' h
    rw [(hprocs c').2] at h
    rcases eq_or_ne c' c with rfl | hcc
    · unfold State.Off
      split
      · rename_i hk
        rw [hc] at hk
        exact absurd hk (hpc _).2.2.1
      · rename_i hk
        rw [hc] at hk
        exact absurd hk (hpc _).2.2.2
      · rw [(hprocs c').1]
        exact hnone
    · exact Off.keeps (hne c' hcc) (fun q _ => hoth q) (hi.off c' h)
  · intro c₁ c₂ p' h₁ h₂
    rw [(hprocs _).1] at h₁ h₂
    exact hi.one c₁ c₂ p' h₁ h₂
  · intro p' h
    obtain ⟨c', hc'⟩ := hi.run p' ((hoth p').running_iff.1 h)
    exact ⟨c', by rw [(hprocs c').1, hc']⟩
  · intro c' p' h hk
    rw [(hprocs c').2] at h
    have hcc : c' ≠ c := by
      rintro rfl
      rw [hoff] at h
      cases h
    rw [((hoth p').running (hi.on c' p' h).2.2).2] at hk
    exact hother c' hcc (hi.held c' p' h hk)
  · intro c' h hk
    rw [(hprocs c').2] at h
    rcases eq_or_ne c' c with rfl | hcc
    · rw [hc] at hk
      rcases hlock with ⟨-, h0⟩ | ⟨-, -, h0⟩ | ⟨h0, hl⟩
      · exact h0
      · rw [hk] at h0
        cases h0
      · rw [h0]
        exact hl hk
    · rw [hne c' hcc] at hk
      exact hother c' hcc (hi.locked c' h hk)
  · exact fun p' => (hoth p').parked

omit [DecidableEq K] in
/-- Outside `scheduler`'s critical part, `c->proc` runs. -/
theorem Cpus.running_of_proc (hi : Cpus s) (hp : (s.cpu c).proc = some p) (hl : s.lock ≠ some c) :
    (s.cpu c).on = some p ∧ (s.proc p).state = .running := by
  cases hon : (s.cpu c).on with
  | some q =>
    obtain ⟨h1, -, h3⟩ := hi.on c q hon
    rw [h1] at hp
    obtain rfl := some.inj hp
    exact ⟨rfl, h3⟩
  | none =>
    have hoff : (s.cpu c).proc = none := by
      refine hi.off_proc hon fun q => ⟨fun h => hl (hi.locked c hon ?_), fun h => hl (hi.locked c hon ?_)⟩
      · rw [h]
        rfl
      · rw [h]
        rfl
    rw [hp] at hoff
    cases hoff

theorem Cpus.choose {i : ℕ} (hi : Cpus s) (hoff : (s.cpu c).on = none) (hp : (s.proc p).state = .runnable)
    (hpc : (s.cpu c).pc = .scan i) :
    Cpus ((s.setState p .running).setCpu c { s.cpu c with proc := some p, pc := .switch p }) := by
  have hl := hi.locked c hoff (by rw [hpc]; rfl)
  have hnone := hi.off_proc hoff (by simp [hpc])
  set s' := (s.setState p .running).setCpu c { s.cpu c with proc := some p, pc := .switch p } with hs'
  have hc : s'.cpu c = { s.cpu c with proc := some p, pc := .switch p } := update_self ..
  have hne : ∀ c', c' ≠ c → s'.cpu c' = s.cpu c' := fun c' h => update_of_ne h ..
  have hself : s'.proc p = { s.proc p with state := .running } := set_self
  have hpne : ∀ q, q ≠ p → s'.proc q = s.proc q := fun q h => set_ne h
  -- nobody runs a process that is RUNNABLE
  have hfree : ∀ c', (s.cpu c').proc ≠ some p := by
    intro c' h
    rcases eq_or_ne c' c with rfl | hcc
    · rw [hnone] at h
      cases h
    · have hr := (hi.running_of_proc h (by rw [hl]; exact fun hh => hcc (some.inj hh).symm)).2
      rw [hp] at hr
      cases hr
  have hlocked : (s.proc p).pc.intena = false := by
    have h := hi.parked p
    unfold Proc.parked at h
    rw [hp] at h
    rcases h with h | ⟨k, h⟩ | h | h <;> rw [h] <;> rfl
  constructor
  · intro c' p' h
    have hcc : c' ≠ c := by
      rintro rfl
      rw [hc] at h
      exact absurd (hoff.symm.trans h) (by simp)
    rw [hne c' hcc] at h ⊢
    obtain ⟨h1, h2, h3⟩ := hi.on c' p' h
    have hpp : p' ≠ p := fun he => hfree c' (he ▸ h1)
    rw [hpne p' hpp]
    exact ⟨h1, h2, h3⟩
  · intro c' h
    rcases eq_or_ne c' c with rfl | hcc
    · unfold State.Off
      simp only [hc, hself]
      exact ⟨trivial, trivial, hlocked⟩
    · rw [hne c' hcc] at h
      refine Off.keeps (hne c' hcc) (fun q hq => ?_) (hi.off c' h)
      have hpp : q ≠ p := fun he => hfree c' (he ▸ hq)
      rw [hpne q hpp]
      exact (Stirs.refl _).keeps (hi.parked q)
  · intro c₁ c₂ p' h₁ h₂
    rcases eq_or_ne c₁ c with rfl | h1 <;> rcases eq_or_ne c₂ c₁ with rfl | h2
    · rfl
    · rw [hc] at h₁
      rw [hne c₂ h2] at h₂
      obtain rfl := some.inj h₁
      exact absurd h₂ (hfree c₂)
    · rfl
    · rw [hne c₁ h1] at h₁
      rcases eq_or_ne c₂ c with rfl | h3
      · rw [hc] at h₂
        obtain rfl := some.inj h₂
        exact absurd h₁ (hfree c₁)
      · rw [hne c₂ h3] at h₂
        exact hi.one c₁ c₂ p' h₁ h₂
  · intro p' h
    rcases eq_or_ne p' p with rfl | hpp
    · exact ⟨c, by rw [hc]⟩
    · rw [hpne p' hpp] at h
      obtain ⟨c', hc'⟩ := hi.run p' h
      have hcc : c' ≠ c := by
        rintro rfl
        rw [hnone] at hc'
        cases hc'
      exact ⟨c', by rw [hne c' hcc, hc']⟩
  · intro c' p' h hk
    have hcc : c' ≠ c := by
      rintro rfl
      rw [hc] at h
      exact absurd (hoff.symm.trans h) (by simp)
    rw [hne c' hcc] at h
    have hpp : p' ≠ p := fun he => hfree c' (he ▸ (hi.on c' p' h).1)
    rw [hpne p' hpp] at hk
    exact hi.held c' p' h hk
  · intro c' h hk
    rcases eq_or_ne c' c with rfl | hcc
    · exact hl
    · rw [hne c' hcc] at h hk
      exact hi.locked c' h hk
  · intro p'
    rcases eq_or_ne p' p with rfl | hpp
    · rw [hself]
      exact parked_of_running rfl
    · rw [hpne p' hpp]
      exact hi.parked p'

/-- `scheduler` enters a process or comes back from one: the table stays as it is. -/
theorem Cpus.swtch {x : Cpu} (hi : Cpus s) (hl : s.lock = some c)
    (hon : ∀ p, x.on = some p → x.proc = some p ∧ x.pc = .back p ∧ (s.proc p).state = .running)
    (hoff : x.on = none → x.proc = none ∧ ∀ p, x.pc ≠ .switch p ∧ x.pc ≠ .back p)
    (hproc : ∀ p, x.proc = some p → (s.cpu c).proc = some p)
    (hrun : ∀ p, (s.cpu c).proc = some p → (s.proc p).state = .running → x.proc = some p) : Cpus (s.setCpu c x) := by
  have hc : (s.setCpu c x).cpu c = x := update_self ..
  have hne : ∀ c', c' ≠ c → (s.setCpu c x).cpu c' = s.cpu c' := fun c' h => update_of_ne h ..
  have hprocs : ∀ c' p, ((s.setCpu c x).cpu c').proc = some p → (s.cpu c').proc = some p := by
    intro c' p h
    rcases eq_or_ne c' c with rfl | hcc
    · rw [hc] at h
      exact hproc p h
    · rwa [hne c' hcc] at h
  constructor
  · intro c' p' h
    rcases eq_or_ne c' c with rfl | hcc
    · rw [hc] at h ⊢
      exact hon p' h
    · rw [hne c' hcc] at h ⊢
      exact hi.on c' p' h
  · intro c' h
    rcases eq_or_ne c' c with rfl | hcc
    · rw [hc] at h
      unfold State.Off
      rw [hc]
      split
      · exact absurd ‹_› ((hoff h).2 _).1
      · exact absurd ‹_› ((hoff h).2 _).2
      · exact (hoff h).1
    · rw [hne c' hcc] at h
      exact Off.keeps (hne c' hcc) (fun q _ => (Stirs.refl _).keeps (hi.parked q)) (hi.off c' h)
  · exact fun c₁ c₂ p' h₁ h₂ => hi.one c₁ c₂ p' (hprocs c₁ p' h₁) (hprocs c₂ p' h₂)
  · intro p' h
    obtain ⟨c', hc'⟩ := hi.run p' h
    rcases eq_or_ne c' c with rfl | hcc
    · exact ⟨c', by rw [hc]; exact hrun p' hc' h⟩
    · exact ⟨c', by rw [hne c' hcc, hc']⟩
  · intro c' p' h hk
    rcases eq_or_ne c' c with rfl | hcc
    · exact hl
    · rw [hne c' hcc] at h
      exact hi.held c' p' h hk
  · intro c' h hk
    rcases eq_or_ne c' c with rfl | hcc
    · exact hl
    · rw [hne c' hcc] at h hk
      exact hi.locked c' h hk
  · exact hi.parked

theorem Cpus.sw (hi : Cpus s) (hoff : (s.cpu c).on = none) (h : Sw c s s') : Cpus s' := by
  cases h with
  | look htab hcpu hpc hlock =>
    exact hi.look hoff hcpu hpc hlock fun q => (htab q).1.keeps (hi.parked q)
  | choose hp hpc h =>
    rw [h]
    exact hi.choose hoff hp hpc
  | switch hpc h =>
    rename_i p
    have ho := hi.off c hoff
    unfold State.Off at ho
    rw [hpc] at ho
    rw [h]
    refine hi.swtch (hi.locked c hoff (by rw [hpc]; rfl)) ?_ nofun (fun _ => id) fun _ h _ => h
    intro q hq
    obtain rfl := some.inj hq
    exact ⟨ho.1, rfl, ho.2.1⟩
  | back hpc h =>
    rename_i p
    have ho := hi.off c hoff
    unfold State.Off at ho
    rw [hpc] at ho
    rw [h]
    refine hi.swtch (hi.locked c hoff (by rw [hpc]; rfl)) ?_ (fun _ => ⟨rfl, fun _ => ⟨nofun, nofun⟩⟩) nofun ?_
    · intro q hq
      exact absurd (hoff.symm.trans hq) (by simp)
    · intro q hq hr
      rw [ho.1] at hq
      obtain rfl := some.inj hq
      exact absurd hr ho.2

end Xv6.Sched

import Xv6.Proofs.Reaping

/-! `kill` names slots by their `pid` field, which a slot keeps when it is UNUSED, and `killed` is cleared by `wait`
only. -/

namespace Xv6.Sched

open Trace

variable {K : Type} {s s' : State K} {p np q : Slot} {e : Option Event} {as : List (Act K × Option Event)}
  {pid : BitVec 32}

/-- A process that `fork` has returned, or `userinit`. -/
def PState.live : PState → Bool
  | .unused | .embryo => false
  | _ => true

theorem PState.Wakes.live {x y : PState} (h : x.Wakes y) : y.live = x.live := by
  rcases h with rfl | ⟨rfl, rfl⟩ <;> rfl

/-- The slot that `kill(pid)` finds is a process, not UNUSED and not one that `fork` still fills. -/
def State.killsLive (s : State K) (a : Act K × Option Event) : Bool :=
  match a.2 with
  | some (.kill pid _) => (s.named pid).all fun q => (s.proc q).state.live
  | _ => true

/-- Since slot `q` was last allocated, a `kill` has named it by `pid`, or it has had a fault. -/
def Marked (as : List (Act K × Option Event)) (q : Slot) (pid : BitVec 32) : Prop :=
  ∃ bs a e cs, as = bs ++ (a, e) :: cs ∧ (e = some (.kill pid (some q)) ∨ e = some (.fault q)) ∧
    ∀ x ∈ cs, ∀ n, x.2 ≠ some (.alloc q n)

theorem Marked.snoc {q : Slot} {pid : BitVec 32} {x : Act K × Option Event} (h : Marked as q pid)
    (hx : ∀ n, x.2 ≠ some (.alloc q n)) : Marked (as ++ [x]) q pid := by
  obtain ⟨bs, a, e, cs, rfl, he, hc⟩ := h
  refine ⟨bs, a, e, cs ++ [x], by simp, he, fun y hy => ?_⟩
  rcases List.mem_append.1 hy with hy | hy
  · exact hc y hy
  · rw [List.mem_singleton.1 hy]
    exact hx

theorem Change.killed {a : Act K} (ht : Tree s) (hr : (s.proc p).state = .running)
    (hg : s.killsLive (a, e) = true) (hl : ∀ q, (s.proc q).killed = true → (s.proc q).state.live = true)
    (h : Change p s s' e) (hk : (s'.proc q).killed = true) :
    (s'.proc q).state.live = true ∧ (s'.proc q).pid = (s.proc q).pid ∧ (∀ n, e ≠ some (.alloc q n)) ∧
      ((s.proc q).killed = true ∨ e = some (.kill (s.proc q).pid (some q)) ∨ e = some (.fault q)) := by
  -- a slot that the step does not write to
  have hsame : (∃ k, s'.proc q = { s.proc q with pc := k }) → (∀ n, e ≠ some (.alloc q n)) →
      (s'.proc q).state.live = true ∧ (s'.proc q).pid = (s.proc q).pid ∧ (∀ n, e ≠ some (.alloc q n)) ∧
        ((s.proc q).killed = true ∨ e = some (.kill (s.proc q).pid (some q)) ∨ e = some (.fault q)) := by
    rintro ⟨k, hq⟩ he
    rw [hq] at hk ⊢
    exact ⟨hl q hk, rfl, he, .inl hk⟩
  -- a slot that is taken or filled, and keeps its mark: it has none
  have hfill : ∀ np x k, s'.proc = ((s.set np x).goto p k).proc → (s.proc np).state.live = false →
      (x.killed = true → (s.proc np).killed = true) → q ≠ np ∧ ∃ k', s'.proc q = { s.proc q with pc := k' } := by
    intro np x k hs hn hx
    rcases set_goto_cases hs q with ⟨rfl, k', hq⟩ | hq
    · rw [hq] at hk
      exact absurd (hl q (hx hk)) (by simp [hn])
    · exact hq
  cases h with
  | stir hoth hself _ hkilled he =>
    have hst : (s.proc q).state.Wakes (s'.proc q).state ∧ (s'.proc q).pid = (s.proc q).pid := by
      rcases eq_or_ne q p with rfl | hq
      · exact ⟨hself.state, hself.pid⟩
      · exact ⟨(hoth q hq).state, (hoth q hq).pid⟩
    have hal : ∀ n, e ≠ some (.alloc q n) := by rcases he with rfl | ⟨_, rfl⟩ | rfl <;> simp
    rw [hst.1.live]
    rcases hkilled q with hkq | ⟨pid, rfl, hpid⟩ | rfl
    · rw [hkq] at hk
      exact ⟨hl q hk, hst.2, hal, .inl hk⟩
    · have hn : s.named pid = some q := by
        rcases he with he | ⟨_, he⟩ | he
        · cases he
        · simp only [Option.some.injEq, Event.kill.injEq] at he
          rw [he.1, ← he.2]
        · cases he
      refine ⟨?_, hst.2, hal, .inr (.inl (by rw [hpid]))⟩
      simpa [State.killsLive, hn] using hg
    · have hqp : q = p := by
        rcases he with he | ⟨_, he⟩ | he <;> simp at he
        exact he
      exact ⟨by rw [hqp, hr]; rfl, hst.2, hal, .inr (.inr rfl)⟩
  | rest hoth hself hx _ hst =>
    rcases eq_or_ne q p with rfl | hq
    · rw [hself] at hk ⊢
      rw [hx.2.2.2] at hk
      refine ⟨?_, hx.1, nofun, .inl hk⟩
      rcases hst with ⟨h, -⟩ | ⟨h, -⟩ <;> rw [h] <;> rfl
    · exact hsame ⟨_, by rw [hoth q hq]⟩ nofun
  | exit _ h =>
    rw [(h.rest q).2.2.2] at hk
    refine ⟨?_, (h.rest q).1, nofun, .inl hk⟩
    rcases eq_or_ne q p with rfl | hq
    · rw [h.zombie]
      rfl
    · rw [(h.state q hq).live]
      exact hl q hk
  | reap hz _ h =>
    rcases set_goto_cases h q with ⟨rfl, k', hq⟩ | ⟨-, hq⟩
    · rw [hq] at hk
      cases hk
    · exact hsame hq nofun
  | @alloc np hu h =>
    obtain ⟨hqn, hq⟩ := hfill np _ _ h (by rw [hu]; rfl) id
    exact hsame hq (by simp [hqn.symm])
  | @stack np k hpc _ h => exact hsame (hfill np _ _ h (by rw [(ht.filling hpc rfl).1]; rfl) id).2 nofun
  | @fail np hpc h =>
    have he := (hpc.elim (ht.filling · rfl) (ht.filling · rfl)).1
    exact hsame (hfill np _ _ h (by rw [he]; rfl) id).2 nofun
  | @parent np hpc h => exact hsame (hfill np _ _ h (by rw [(ht.filling hpc rfl).1]; rfl) id).2 nofun
  | @born np hpc h => exact hsame (hfill np _ _ h (by rw [(ht.filling hpc rfl).1]; rfl) id).2 nofun

/-- The step in which `kill` looks for the process. -/
theorem Change.of_kill {t : Option Slot} (h : Change p s s' (some (.kill pid t))) :
    t = s.named pid ∧ ∀ r, t ≠ some r → (s'.proc r).killed = (s.proc r).killed := by
  generalize he : some (Event.kill pid t) = e at h
  cases h with
  | stir _ _ _ hk h =>
    subst he
    refine ⟨?_, fun r hr => ?_⟩
    · rcases h with h | ⟨_, h⟩ | h <;> simp at h
      rw [h.1, ← h.2]
    · rcases hk r with hk | ⟨_, hk, -⟩ | hk
      · exact hk
      · simp only [Option.some.injEq, Event.kill.injEq] at hk
        exact absurd hk.2 hr
      · cases hk
  | _ => cases he

/-- The step in which `allocproc` takes a slot. -/
theorem Change.of_alloc (hr : (s.proc p).state = .running) (h : Change p s s' (some (.alloc np pid))) :
    (s.proc np).state = .unused ∧ (s'.proc np).killed = (s.proc np).killed ∧ (s'.proc np).pid = pid := by
  generalize he : some (Event.alloc np pid) = e at h
  cases h with
  | stir _ _ _ _ h => rcases h with h | ⟨_, h⟩ | h <;> simp [← he] at h
  | @alloc m hu h =>
    simp only [Option.some.injEq, Event.alloc.injEq] at he
    obtain ⟨rfl, rfl⟩ := he
    have hne : np ≠ p := by
      rintro rfl
      rw [hr] at hu
      cases hu
    rw [h, goto_ne hne, set_self]
    exact ⟨hu, rfl, rfl⟩
  | _ => cases he

variable [DecidableEq K]

theorem Sw.killed {c : K} (h : Sw c s s') : (s'.proc q).killed = (s.proc q).killed ∧
    (s'.proc q).pid = (s.proc q).pid ∧ (s'.proc q).state.live = (s.proc q).state.live := by
  cases h with
  | look htab _ _ _ => exact ⟨(htab q).2, (htab q).1.pid, (htab q).1.state.live⟩
  | @choose p hp _ h =>
    subst h
    rw [State.setCpu, State.setState]
    rcases eq_or_ne q p with rfl | hq
    · rw [set_self, hp]
      exact ⟨rfl, rfl, rfl⟩
    · rw [set_ne hq]
      exact ⟨rfl, rfl, rfl⟩
  | switch _ h =>
    subst h
    exact ⟨rfl, rfl, rfl⟩
  | back _ h =>
    subst h
    exact ⟨rfl, rfl, rfl⟩

/-- The runs in which `kill` finds live processes. -/
def liveKills (K : Type) [DecidableEq K] : System (State K) (Act K × Option Event) :=
  (system K).restrict fun s a => s.killsLive a = true

theorem killed_marked (h : Run (liveKills K) as s) (q : Slot) (hk : (s.proc q).killed = true) :
    (s.proc q).state.live = true ∧ Marked as q (s.proc q).pid := by
  induction h generalizing q with
  | start h =>
    obtain ⟨k, rfl⟩ := h
    unfold userinit at hk
    rcases eq_or_ne q initproc with rfl | hq
    · simp at hk
    · simp [hq] at hk
  | @snoc as s s' a h hs ih =>
    have hi := Inv.of_run h.of_restrict
    obtain ⟨hg, hs⟩ := hs
    rcases next_cases hi.cpus hi.tree hs with ⟨c, p, hon, hch, -⟩ | ⟨c, -, he, hsw⟩
    · obtain ⟨h1, h2, h3, h4⟩ := hch.killed (a := a.1) hi.tree (hi.cpus.on c p hon).2.2 hg (fun q hq => (ih q hq).1) hk
      rw [h2]
      refine ⟨h1, ?_⟩
      rcases h4 with h4 | h4
      · exact (ih q h4).2.snoc h3
      · exact ⟨as, a.1, a.2, [], rfl, h4, nofun⟩
    · obtain ⟨h1, h2, h3⟩ := hsw.killed (q := q)
      rw [h1] at hk
      rw [h2, h3]
      exact ⟨(ih q hk).1, (ih q hk).2.snoc (by simp [he])⟩

/-- In such runs a `kill` that returns 0 marks a process that is not UNUSED and has that pid, and no other `kill` marks
one; `allocproc` takes a slot that is not marked, and it is not marked when `fork` makes it RUNNABLE; and a process is
marked only after a `kill` by its own pid or a fault of its own since then. -/
theorem kill_live (h : Run (liveKills K) as s) :
    (∀ bs a cs pid t, as = bs ++ (a, some (.kill pid t)) :: cs →
      ∃ s₁ s₂, Run (liveKills K) bs s₁ ∧ s₁.next a = some (s₂, some (.kill pid t)) ∧
        (∀ q, t = some q → (s₁.proc q).state ≠ .unused ∧ (s₁.proc q).pid = pid) ∧
        ∀ r, t ≠ some r → (s₂.proc r).killed = (s₁.proc r).killed) ∧
    (∀ bs a cs np pid, as = bs ++ (a, some (.alloc np pid)) :: cs →
      ∃ s₁ s₂, Run (liveKills K) bs s₁ ∧ s₁.next a = some (s₂, some (.alloc np pid)) ∧
        (s₂.proc np).killed = false ∧ (s₂.proc np).pid = pid) ∧
    (∀ c p np s' e, (s.cpu c).on = some p → (s.proc p).pc = .forkSet np → s.next (.step c) = some (s', e) →
      (s'.proc np).state = .runnable ∧ (s'.proc np).killed = false) ∧
    ∀ q, (s.proc q).killed = true → (s.proc q).state.live = true ∧ Marked as q (s.proc q).pid := by
  refine ⟨?_, ?_, fun c p np s' e hon hpc hs => ?_, killed_marked h⟩
  · rintro bs a cs pid t rfl
    obtain ⟨s₁, s₂, h1, hg, hs⟩ := h.cut
    have hi := Inv.of_run h1.of_restrict
    refine ⟨s₁, s₂, h1, hs, ?_⟩
    rcases next_cases hi.cpus hi.tree hs with ⟨c, p, -, hch, -⟩ | ⟨c, -, he, -⟩
    · obtain ⟨rfl, hr⟩ := hch.of_kill
      refine ⟨fun q hq => ⟨fun hu => ?_, by simpa using List.find?_some hq⟩, hr⟩
      simp [State.killsLive, hq, hu, PState.live] at hg
    · cases he
  · rintro bs a cs np pid rfl
    obtain ⟨s₁, s₂, h1, hg, hs⟩ := h.cut
    have hi := Inv.of_run h1.of_restrict
    refine ⟨s₁, s₂, h1, hs, ?_⟩
    rcases next_cases hi.cpus hi.tree hs with ⟨c, p, hon, hch, -⟩ | ⟨c, -, he, -⟩
    · obtain ⟨hu, hk, hp⟩ := hch.of_alloc (hi.cpus.on c p hon).2.2
      refine ⟨?_, hp⟩
      rw [hk, ← Bool.not_eq_true]
      intro h
      have hlive := (killed_marked h1 np h).1
      rw [hu] at hlive
      cases hlive
    · cases he
  · have hi := Inv.of_run h.of_restrict
    obtain ⟨hp, -, hr⟩ := hi.cpus.on c p hon
    have he := (hi.tree.filling hpc rfl).1
    have hne : np ≠ p := by
      rintro rfl
      rw [hr] at he
      cases he
    simp only [State.next, hon, hp, hpc, State.code, Option.some.injEq, Prod.mk.injEq] at hs
    rw [← hs.1, goto_ne hne, State.setState, set_self]
    refine ⟨rfl, Bool.eq_false_iff.2 fun h' => ?_⟩
    have hlive := (killed_marked h np h').1
    rw [he] at hlive
    cases hlive

/-- `init` runs, and `fork` fills slot 1. -/
def bootUnit : List (Act Unit × Option Event) :=
  [(.step (), none), (.step (), none), (.step (), none), (.step (), none)]

def forkUnit : List (Act Unit × Option Event) :=
  [(.call () .fork, none), (.step (), none), (.step (), some (.alloc 1 2)), (.step (), none),
    (.kalloc () (some 8), none), (.cowuvm () true, none), (.step (), none), (.step (), none), (.step (), none),
    (.step (), none)]

def killUnit (pid : BitVec 32) : List (Act Unit × Option Event) :=
  [(.call () (.kill pid), none), (.step (), none), (.step (), some (.kill pid (some 1))), (.step (), none)]

theorem kill_live_child : ∃ s, Run (liveKills Unit) (bootUnit ++ forkUnit ++ killUnit 2) s ∧
    (s.proc 1).killed = true ∧ (s.proc 1).state.live = true ∧ Marked (bootUnit ++ forkUnit ++ killUnit 2) 1 (s.proc 1).pid := by
  have hd : ((bootUnit ++ forkUnit ++ killUnit 2).foldlM
      (fun s a => if s.killsLive a = true then s.label a else none) (userinit Unit 7)).map
      (fun s => (s.proc 1).killed) = some true := by decide +kernel
  obtain ⟨s, hs, he⟩ := Option.map_eq_some_iff.1 hd
  have hr : Run (liveKills Unit) (bootUnit ++ forkUnit ++ killUnit 2) s := by
    refine Run.of_foldlM (fun s a s' h => ?_) ⟨7, rfl⟩ hs
    by_cases hg : s.killsLive a = true
    · rw [if_pos hg] at h
      exact ⟨hg, label_step h⟩
    · rw [if_neg hg] at h
      cases h
  exact ⟨s, hr, he, (kill_live hr).2.2.2 1 he⟩

/-- `kill(0)` returns 0: it marks slot 1, which is UNUSED. The process that `fork` then puts there, with pid 2, starts
killed, though nobody has named pid 2 and it has not run. -/
theorem kill_zero : (∃ s, Run (system Unit) bootUnit s ∧ s.named 0 = some 1 ∧ (s.proc 1).state = .unused) ∧
    ∃ s, Run (system Unit) (bootUnit ++ killUnit 0 ++ forkUnit) s ∧ (s.proc 1).state = .runnable ∧
      (s.proc 1).pid = 2 ∧ (s.proc 1).killed = true ∧
      ∀ a ∈ bootUnit ++ killUnit 0 ++ forkUnit, a.2 ≠ some (.kill 2 (some 1)) ∧ a.2 ≠ some (.fault 1) := by
  constructor
  · have hd : (bootUnit.foldlM State.label (userinit Unit 7)).map (fun s => (s.named 0, (s.proc 1).state)) =
        some (some 1, .unused) := by decide +kernel
    obtain ⟨s, hs, he⟩ := Option.map_eq_some_iff.1 hd
    simp only [Prod.mk.injEq] at he
    exact ⟨s, Run.of_foldlM (fun _ _ _ => label_step) ⟨7, rfl⟩ hs, he⟩
  · have hd : ((bootUnit ++ killUnit 0 ++ forkUnit).foldlM State.label (userinit Unit 7)).map
        (fun s => ((s.proc 1).state, (s.proc 1).pid, (s.proc 1).killed)) = some (.runnable, 2, true) := by decide +kernel
    obtain ⟨s, hs, he⟩ := Option.map_eq_some_iff.1 hd
    simp only [Prod.mk.injEq] at he
    exact ⟨s, Run.of_foldlM (fun _ _ _ => label_step) ⟨7, rfl⟩ hs, he.1, he.2.1, he.2.2, by decide +kernel⟩

end Xv6.Sched

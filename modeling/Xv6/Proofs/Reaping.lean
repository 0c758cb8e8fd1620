import Xv6.Proofs.ProcTree

/-! What holds of the process table in every run: one processor to a running process, a living parent to every
process, and one `wait` to every exit. -/

namespace Xv6.Sched

open Trace

variable {K : Type} {s s' : State K} {p np q : Slot} {e : Option Event} {as : List (Act K × Option Event)}

/-- The pid that slot `q` exits with in a step. -/
def Event.exits (q : Slot) : Option Event → List (BitVec 32)
  | some (.exit p pid) => if p = q then [pid] else []
  | _ => []

/-- The pid that a `wait` returns in a step for the child in slot `q`. -/
def Event.waits (q : Slot) : Option Event → List (BitVec 32)
  | some (.wait _ z pid _) => if z = q then [pid] else []
  | _ => []

/-- The pids that slot `q` has exited with, in order. -/
def exits (q : Slot) (as : List (Act K × Option Event)) : List (BitVec 32) := as.flatMap fun a => Event.exits q a.2

/-- The pids that calls of `wait` have returned for slot `q`, in order. -/
def waits (q : Slot) (as : List (Act K × Option Event)) : List (BitVec 32) := as.flatMap fun a => Event.waits q a.2

/-- The exit of slot `q` that no `wait` has returned. -/
def State.pending (s : State K) (q : Slot) : List (BitVec 32) :=
  if (s.proc q).state = .zombie then [(s.proc q).pid] else []

theorem pending_of (hs : (s'.proc q).state = .zombie ↔ (s.proc q).state = .zombie)
    (hp : (s.proc q).state = .zombie → (s'.proc q).pid = (s.proc q).pid) : s'.pending q = s.pending q := by
  unfold State.pending
  by_cases h : (s.proc q).state = .zombie
  · rw [if_pos h, if_pos (hs.2 h), hp h]
  · rw [if_neg h, if_neg fun h' => h (hs.1 h')]

theorem Stirs.pending (h : Stirs (s.proc q) (s'.proc q)) : s'.pending q = s.pending q :=
  pending_of (h.state.like.iff rfl) fun _ => h.pid

/-- A write to a slot, and the process goes on. -/
theorem set_goto_cases {x : Proc} {k : Pc} (h : s'.proc = ((s.set np x).goto p k).proc) (q : Slot) :
    (q = np ∧ ∃ k', s'.proc q = { x with pc := k' }) ∨ q ≠ np ∧ ∃ k', s'.proc q = { s.proc q with pc := k' } := by
  rw [h]
  rcases eq_or_ne q np with rfl | hq
  · refine .inl ⟨rfl, ?_⟩
    rcases eq_or_ne q p with rfl | hqp
    · exact ⟨k, by rw [goto_self, set_self]⟩
    · exact ⟨x.pc, by rw [goto_ne hqp, set_self]⟩
  · refine .inr ⟨hq, ?_⟩
    rcases eq_or_ne q p with rfl | hqp
    · exact ⟨k, by rw [goto_self, set_ne hq]⟩
    · exact ⟨(s.proc q).pc, by rw [goto_ne hqp, set_ne hq]⟩

/-- A write to a slot, of no zombie and leaving none. -/
theorem pending_set {x : Proc} {k : Pc} (h : s'.proc = ((s.set np x).goto p k).proc)
    (hnp : (s.proc np).state ≠ .zombie) (hx : x.state ≠ .zombie) : s'.pending q = s.pending q := by
  rcases set_goto_cases h q with ⟨rfl, k', hq⟩ | ⟨-, k', hq⟩
  · refine pending_of ?_ fun hz => absurd hz hnp
    rw [hq]
    exact ⟨fun hz => absurd hz hx, fun hz => absurd hz hnp⟩
  · exact pending_of (by rw [hq]) fun _ => by rw [hq]

theorem pending_quiet (he : Event.exits q e = []) (hw : Event.waits q e = []) (h : s'.pending q = s.pending q) :
    s.pending q ++ Event.exits q e = Event.waits q e ++ s'.pending q := by
  rw [he, hw, h, List.append_nil, List.nil_append]

theorem Change.pending (ht : Tree s) (hr : (s.proc p).state = .running) (h : Change p s s' e) (q : Slot) :
    s.pending q ++ Event.exits q e = Event.waits q e ++ s'.pending q := by
  cases h with
  | stir hoth hself _ _ he =>
    have hev : Event.exits q e = [] ∧ Event.waits q e = [] := by
      rcases he with rfl | ⟨_, rfl⟩ | rfl <;> exact ⟨rfl, rfl⟩
    have hst : (s.proc q).state.Wakes (s'.proc q).state ∧ (s'.proc q).pid = (s.proc q).pid := by
      rcases eq_or_ne q p with rfl | hq
      · exact ⟨hself.state, hself.pid⟩
      · exact ⟨(hoth q hq).state, (hoth q hq).pid⟩
    exact pending_quiet hev.1 hev.2 (pending_of (hst.1.like.iff rfl) fun _ => hst.2)
  | rest hoth hself hx _ hst =>
    refine pending_quiet rfl rfl ?_
    rcases eq_or_ne q p with rfl | hq
    · refine pending_of ?_ fun hz => ?_
      · rw [hself, hr]
        rcases hst with ⟨h, -⟩ | ⟨h, -⟩ <;> simp [h]
      · rw [hr] at hz
        cases hz
    · refine pending_of ?_ fun _ => ?_ <;> rw [hoth q hq]
  | exit hpc h =>
    rcases eq_or_ne p q with rfl | hq
    · have hs : s.pending p = [] := if_neg (by simp [hr])
      have hs' : s'.pending p = [(s'.proc p).pid] := if_pos h.zombie
      have he : Event.exits p (some (.exit p (s.proc p).pid)) = [(s.proc p).pid] := if_pos rfl
      rw [hs, hs', he, (h.rest p).1]
      rfl
    · exact pending_quiet (if_neg hq) rfl (pending_of ((h.state q hq.symm).like.iff rfl) fun _ => (h.rest q).1)
  | reap hz hp h =>
    rcases set_goto_cases h q with ⟨rfl, k', hq⟩ | ⟨hne, k', hq⟩
    · have hs : s.pending q = [(s.proc q).pid] := if_pos hz
      have hs' : s'.pending q = [] := if_neg (by rw [hq]; simp)
      have he : Event.waits q (some (.wait p q (s.proc q).pid (s.proc q).kstack)) = [(s.proc q).pid] := if_pos rfl
      rw [hs, hs', he]
      rfl
    · exact pending_quiet rfl (if_neg hne.symm) (pending_of (by rw [hq]) fun _ => by rw [hq])
  | alloc hu h => exact pending_quiet rfl rfl (pending_set h (by simp [hu]) (by simp))
  | @stack np k hpc _ h =>
    have he := (ht.filling hpc rfl).1
    exact pending_quiet rfl rfl (pending_set h (by simp [he]) (by simp [he]))
  | @fail np hpc h =>
    have he := (hpc.elim (ht.filling · rfl) (ht.filling · rfl)).1
    exact pending_quiet rfl rfl (pending_set h (by simp [he]) (by simp))
  | @parent np hpc h =>
    have he := (ht.filling hpc rfl).1
    exact pending_quiet rfl rfl (pending_set h (by simp [he]) (by simp [he]))
  | @born np hpc h =>
    have he := (ht.filling hpc rfl).1
    exact pending_quiet rfl rfl (pending_set h (by simp [he]) (by simp))

variable [DecidableEq K]

theorem Sw.pending {c : K} (h : Sw c s s') (q : Slot) : s'.pending q = s.pending q := by
  cases h with
  | look htab _ _ _ => exact (htab q).1.pending
  | @choose p hp _ h =>
    subst h
    rcases eq_or_ne q p with rfl | hq
    · have hs : (((s.setState q .running).setCpu c { s.cpu c with proc := some q, pc := .switch q }).proc q).state =
          .running := by
        rw [State.setCpu, State.setState, set_self]
      refine pending_of ?_ fun hz => ?_
      · rw [hs, hp]
        simp
      · rw [hp] at hz
        cases hz
    · refine pending_of ?_ fun _ => ?_ <;> rw [State.setCpu, State.setState, set_ne hq]
  | switch _ h =>
    subst h
    rfl
  | back _ h =>
    subst h
    rfl

/-- Every exit of a slot has been returned by one `wait`, but the last while the slot is ZOMBIE. -/
theorem exits_eq (h : Run (system K) as s) (q : Slot) : exits q as = waits q as ++ s.pending q := by
  induction h with
  | start h =>
    obtain ⟨k, rfl⟩ := h
    have : ((userinit K k).proc q).state ≠ .zombie := by
      unfold userinit
      rcases eq_or_ne q initproc with rfl | hq
      · simp
      · simp [hq]
    exact (if_neg this).symm
  | @snoc as s s' a h hs ih =>
    have hi := Inv.of_run h
    have hstep : s.pending q ++ Event.exits q a.2 = Event.waits q a.2 ++ s'.pending q := by
      rcases next_cases hi.cpus hi.tree hs with ⟨c, p, hon, hch, -⟩ | ⟨c, -, he, hsw⟩
      · exact hch.pending hi.tree (hi.cpus.on c p hon).2.2 q
      · rw [he]
        exact pending_quiet rfl rfl (hsw.pending q)
    calc exits q (as ++ [a]) = exits q as ++ Event.exits q a.2 := by simp [exits]
      _ = waits q as ++ (s.pending q ++ Event.exits q a.2) := by rw [ih, List.append_assoc]
      _ = waits q (as ++ [a]) ++ s'.pending q := by rw [hstep]; simp [waits]

/-- A `wait` that returns a pid: its child was ZOMBIE, and its slot is UNUSED from now on. -/
theorem wait_step {a : Act K} {z : Slot} {pid : BitVec 32} {ks : Option ℕ} (hi : Inv s)
    (h : s.next a = some (s', some (.wait p z pid ks))) : (s.proc z).state = .zombie ∧
      (s.proc z).parent = some p ∧ pid = (s.proc z).pid ∧ ks = (s.proc z).kstack ∧ (s'.proc z).state = .unused := by
  rcases next_cases hi.cpus hi.tree h with ⟨c, q, -, hch, -⟩ | ⟨c, -, he, -⟩
  · obtain ⟨rfl, h⟩ := hch.of_wait
    exact h
  · cases he

/-- Every process but `init` has a parent that lives; nobody sleeps in `wait` with a ZOMBIE child. In the whole run
the exits of each slot are returned by one `wait` each, of the parent at that time, which makes the slot UNUSED; the
last one is not yet returned while the slot is ZOMBIE. -/
theorem process_tree (h : Run (system K) as s) :
    (∀ q, (s.proc q).state ≠ .unused → (s.proc q).state ≠ .embryo → q ≠ initproc →
      ∃ r, (s.proc q).parent = some r ∧ (s.proc r).state ≠ .unused ∧ (s.proc r).state ≠ .embryo ∧
        (s.proc r).state ≠ .zombie) ∧
    (∀ p, (s.proc p).state = .sleeping → (s.proc p).pc = .waitBack →
      ∀ z, (s.proc z).parent = some p → (s.proc z).state ≠ .zombie) ∧
    (∀ q, exits q as = waits q as ++ s.pending q) ∧
    ∀ bs a cs p z pid ks, as = bs ++ (a, some (.wait p z pid ks)) :: cs →
      ∃ t t', Run (system K) bs t ∧ t.next a = some (t', some (.wait p z pid ks)) ∧
        (t.proc z).state = .zombie ∧ (t.proc z).pid = pid ∧ (t.proc z).parent = some p ∧
        (t'.proc z).state = .unused := by
  have hi := Inv.of_run h
  refine ⟨fun q h1 h2 h3 => ?_, fun p h1 h2 => (hi.tree.wait p h1 h2).2, exits_eq h, ?_⟩
  · obtain ⟨r, hr⟩ := Option.ne_none_iff_exists'.1 (hi.tree.orphan q h1 h2 h3)
    have halive := hi.tree.parent q r hr
    refine ⟨r, hr, ?_, ?_, ?_⟩ <;> intro he <;> rw [he] at halive <;> cases halive
  · rintro bs a cs p z pid ks rfl
    obtain ⟨t, t', ht, hs⟩ := h.cut
    obtain ⟨h1, h2, h3, -, h5⟩ := wait_step (Inv.of_run ht) hs
    exact ⟨t, t', ht, hs, h1, h3.symm, h2, h5⟩

/-- With `ptable.lock` free a process is RUNNING iff it is `c->proc` of one processor, and never of two; `wait` frees
a kernel stack that no processor runs on. -/
theorem one_cpu (h : Run (system K) as s) :
    (s.lock = none → ∀ p, (s.proc p).state = .running ↔ ∃! c, (s.cpu c).proc = some p) ∧
    (∀ c c' p, (s.cpu c).proc = some p → (s.cpu c').proc = some p → c = c') ∧
    ∀ a s' p z pid ks, s.next a = some (s', some (.wait p z pid ks)) →
      ks = (s.proc z).kstack ∧ ks ≠ none ∧ ∀ c q, (s.cpu c).on = some q → (s.proc q).kstack ≠ ks := by
  have hi := Inv.of_run h
  refine ⟨fun hl p => ⟨fun hr => ?_, fun hc => ?_⟩, hi.cpus.one, fun a s' p z pid ks hs => ?_⟩
  · obtain ⟨c, hc⟩ := hi.cpus.run p hr
    exact ⟨c, hc, fun c' hc' => hi.cpus.one c' c p hc' hc⟩
  · obtain ⟨c, hc, -⟩ := hc
    exact (hi.cpus.running_of_proc hc (by simp [hl])).2
  · obtain ⟨hz, -, -, hk, -⟩ := wait_step hi hs
    have hsome : (s.proc z).kstack ≠ none := hi.tree.stacked z (by simp [hz]) (by simp [hz])
    refine ⟨hk, hk ▸ hsome, fun c q hon hq => ?_⟩
    obtain ⟨k, hk'⟩ := Option.ne_none_iff_exists'.1 hsome
    have hqz : q = z := hi.tree.kstack q z k (by rw [hq, hk, hk']) hk'
    have hr := (hi.cpus.on c q hon).2.2
    rw [hqz, hz] at hr
    cases hr

/-- The step function on labels. -/
def State.label (s : State K) (a : Act K × Option Event) : Option (State K) :=
  match s.next a.1 with
  | some (s', e) => if e = a.2 then some s' else none
  | none => none

theorem label_step {a : Act K × Option Event} (h : s.label a = some s') : (system K).step s a s' := by
  unfold State.label at h
  split at h
  · rename_i t e hn
    split at h
    · rename_i he
      obtain rfl := Option.some.inj h
      rw [he] at hn
      exact hn
    · cases h
  · cases h

instance : NeZero NPROC := ⟨by decide⟩

/-- On two processors `init` forks; the child exits; `init` waits for it. -/
def forkExitWait : List (Act Bool × Option Event) :=
  [(.step true, none), (.step true, none), (.step true, none), (.step true, none), (.call true .fork, none),
    (.step true, none), (.step true, some (.alloc 1 2)), (.step true, none), (.kalloc true (some 8), none),
    (.cowuvm true true, none), (.step true, none), (.step true, none), (.step true, none), (.step true, none),
    (.step false, none), (.step false, none), (.step false, none), (.step false, none), (.step false, none),
    (.call false .exit, none), (.step false, none), (.step false, some (.exit 1 2)), (.step false, none)] ++
  List.replicate 63 (.step false, none) ++
  [(.call true .wait, none), (.step true, none), (.step true, some (.wait 0 1 2 (some 8))), (.step true, none)]

theorem forkExitWait_run : ∃ s, Run (system Bool) forkExitWait s ∧ s.lock = none ∧ (s.proc 0).state = .running ∧
    (s.proc 1).state = .unused := by
  have hd : (forkExitWait.foldlM State.label (userinit Bool 7)).map
      (fun s => (s.lock, (s.proc 0).state, (s.proc 1).state)) = some (none, .running, .unused) := by decide +kernel
  obtain ⟨s, hs, he⟩ := Option.map_eq_some_iff.1 hd
  simp only [Prod.mk.injEq] at he
  exact ⟨s, Run.of_foldlM (fun _ _ _ => label_step) ⟨7, rfl⟩ hs, he⟩

theorem process_tree_forkExitWait : ∃ s, Run (system Bool) forkExitWait s ∧ exits 1 forkExitWait = [2] ∧
    exits 1 forkExitWait = waits 1 forkExitWait ++ s.pending 1 := by
  obtain ⟨s, hs, -⟩ := forkExitWait_run
  exact ⟨s, hs, by decide +kernel, (process_tree hs).2.2.1 1⟩

theorem one_cpu_forkExitWait : ∃ s, Run (system Bool) forkExitWait s ∧ s.lock = none ∧
    (s.proc 0).state = .running ∧ ∃! c, (s.cpu c).proc = some 0 := by
  obtain ⟨s, hs, hl, hr, -⟩ := forkExitWait_run
  exact ⟨s, hs, hl, hr, ((one_cpu hs).1 hl 0).1 hr⟩

end Xv6.Sched

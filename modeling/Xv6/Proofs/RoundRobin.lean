import Xv6.Proofs.Kill

/-! The search of `scheduler` goes round the table, so each processor passes over a process that stays RUNNABLE fewer than
`NPROC` times. -/

namespace Xv6.Sched

open Trace Function

variable {K : Type} [DecidableEq K] {s s' : State K} {c d : K} {p : Slot}

/-- `scheduler` on processor `c` chooses a process. -/
def State.picks (c : K) (s s' : State K) : Bool :=
  match (s.cpu c).pc, (s'.cpu c).pc with
  | .scan _, .switch _ => true
  | _, _ => false

theorem setCpu_pc (x : Cpu) : ((s.setCpu c x).cpu c).pc = x.pc := by simp [State.setCpu]

omit [DecidableEq K] in
theorem rank_same (h : (s'.cpu c).pc = (s.cpu c).pc) :
    (s'.cpu c).pc.rank p + (s.picks c s').toNat ≤ (s.cpu c).pc.rank p := by
  unfold State.picks
  rw [h]
  cases (s.cpu c).pc <;> simp

theorem Sw.elsewhere (h : Sw d s s') (hne : c ≠ d) : s'.cpu c = s.cpu c := by
  cases h with
  | look htab hcpu => rw [hcpu, update_of_ne hne]
  | choose _ _ h | switch _ h | back _ h =>
    rw [h]
    exact update_of_ne hne _ _

/-- A step of `scheduler`: it comes nearer to `p` with each process it chooses before. -/
theorem Sw.rank (h : Sw c s s') (hp : (s.proc p).state = .runnable) (hp' : (s'.proc p).state = .runnable) :
    (s'.cpu c).pc.rank p + (s.picks c s').toNat ≤ (s.cpu c).pc.rank p := by
  have hlt := p.2
  cases h with
  | @look k htab hcpu hpc _ hrank =>
    have hc : (s'.cpu c).pc = k := by rw [hcpu, update_self]
    have hno : s.picks c s' = false := by
      unfold State.picks
      rw [hc]
      split
      · rename_i q _ _
        exact absurd rfl (hpc q).2.2.1
      · rfl
    rw [hno, hc]
    exact hrank p hp
  | @choose q hq hpc h =>
    have hc : (s'.cpu c).pc = .switch q := by rw [h, setCpu_pc]
    have hne : (q : ℕ) ≠ p := by
      intro hqp
      obtain rfl := Fin.ext hqp
      rw [show s'.proc q = { s.proc q with state := .running } by rw [h]; exact update_self _ _ _] at hp'
      cases hp'
    have hq := q.2
    simp only [State.picks, hc, hpc, SPc.rank, Bool.toNat_true]
    split_ifs <;> omega
  | @switch q hpc h =>
    have hc : (s'.cpu c).pc = .back q := by rw [h, setCpu_pc]
    simp [State.picks, hc, hpc, SPc.rank]
  | @back q hpc h =>
    have hc : (s'.cpu c).pc = .scan (q + 1) := by rw [h, setCpu_pc]
    simp [State.picks, hc, hpc, SPc.rank, Nat.succ_le_iff]

theorem Inv.rank_next {a : Act K} {e : Option Event} (hi : Inv s) (h : s.next a = some (s', e))
    (hp : (s.proc p).state = .runnable) (hp' : (s'.proc p).state = .runnable) (c : K) :
    (s'.cpu c).pc.rank p + (s.picks c s').toNat ≤ (s.cpu c).pc.rank p := by
  rcases next_cases hi.cpus hi.tree h with ⟨d, q, -, -, hctl⟩ | ⟨d, -, -, hsw⟩
  · refine rank_same ?_
    cases hctl with
    | stay hcpu => rw [hcpu]
    | sched hcpu =>
      rw [hcpu]
      rcases eq_or_ne c d with rfl | hne
      · rw [update_self]
      · rw [update_of_ne hne]
  · rcases eq_or_ne c d with rfl | hne
    · exact hsw.rank hp hp'
    · exact rank_same (by rw [hsw.elsewhere hne])

theorem SPc.rank_lt (k : SPc) : k.rank p < NPROC := by
  have hlt := p.2
  cases k <;> simp only [SPc.rank] <;> (try split_ifs) <;> omega

/-- While a process stays RUNNABLE, a processor chooses others fewer than `NPROC` times, whatever the other processors,
the processes and the interrupts do. -/
theorem bounded_bypass {n i k : ℕ} {s : ℕ → State K} {a : ℕ → Act K × Option Event} (h : Exec (system K) n s a)
    (hk : i + k ≤ n) (hp : ∀ m ≤ k, ((s (i + m)).proc p).state = .runnable) (c : K) :
    ((List.range k).countP fun m => (s (i + m)).picks c (s (i + m + 1))) < NPROC := by
  have hrank : ((s (i + k)).cpu c).pc.rank p + (List.range k).countP (fun m => (s (i + m)).picks c (s (i + m + 1))) ≤
      ((s i).cpu c).pc.rank p := by
    induction k with
    | zero => simp
    | succ k ih =>
      have hprev := ih (by omega) fun m hm => hp m (by omega)
      have hstep := (Inv.of_run (h.run (i := i + k) (by omega))).rank_next (h.step (i + k) (by omega)) (hp k (by omega))
        (hp (k + 1) le_rfl) c
      rw [List.range_succ, List.countP_append, List.countP_singleton]
      change ((s (i + k + 1)).cpu c).pc.rank p + _ ≤ _
      cases hpick : (s (i + k)).picks c (s (i + k + 1)) <;> rw [hpick] at hstep <;> simp at hstep ⊢ <;> omega
  have := ((s i).cpu c).pc.rank_lt (p := p)
  omega

/-- `init` forks, and gives up the processor. -/
def turns : List (Act Unit × Option Event) :=
  bootUnit ++ forkUnit ++
    [(.tick (), none), (.step (), none), (.step (), none), (.step (), none), (.step (), none)]

/-- It stays RUNNABLE, and the processor goes on to the child. -/
theorem bounded_bypass_child : ∃ s : ℕ → State Unit, Exec (system Unit) 19 s (fun i => turns.getD i (.step (), none)) ∧
    (∀ m ≤ 2, ((s (17 + m)).proc initproc).state = .runnable) ∧ (s 18).picks () (s 19) = true ∧
    ((List.range 2).countP fun m => (s (17 + m)).picks () (s (17 + m + 1))) < NPROC := by
  have hend : (turns.foldlM State.label (userinit Unit 7)).isSome = true := by decide +kernel
  have hwait : ∀ m ≤ 2, ((turns.take (17 + m)).foldlM State.label (userinit Unit 7)).map
      (fun x => (x.proc initproc).state) = some .runnable := by decide +kernel
  have hpick : ((turns.take 18).foldlM State.label (userinit Unit 7)).bind (fun x =>
      ((turns.take 19).foldlM State.label (userinit Unit 7)).map (x.picks ())) = some true := by decide +kernel
  obtain ⟨t, ht⟩ := Option.isSome_iff_exists.1 hend
  have hinit : (system Unit).init (userinit Unit 7) := ⟨7, rfl⟩
  obtain ⟨s, h, hs⟩ := Exec.of_foldlM (fun _ _ _ => label_step) (.step (), none) hinit ht
  have hlen : turns.length = 19 := rfl
  rw [hlen] at h hs
  have hstay : ∀ m ≤ 2, ((s (17 + m)).proc initproc).state = .runnable := by
    intro m hm
    have hw := hwait m hm
    rw [hs (17 + m) (by omega)] at hw
    exact Option.some.inj hw
  rw [hs 18 (by decide), hs 19 le_rfl] at hpick
  exact ⟨s, h, hstay, Option.some.inj hpick, bounded_bypass h (by decide) hstay ()⟩

end Xv6.Sched

import Xv6.Proofs.Sched

/-! The tree of processes, and what `fork` and `wait` hold on to between their critical sections. -/

namespace Xv6.Sched

open Trace Option

variable {K : Type} {s s' : State K} {c : K} {p np q : Slot} {e : Option Event} {a b t : PState} {x y : Proc} {k : Pc}

structure Tree (s : State K) : Prop where
  parent : ∀ q r, (s.proc q).parent = some r → (s.proc r).state.alive = true
  orphan : ∀ q, (s.proc q).state ≠ .unused → (s.proc q).state ≠ .embryo → q ≠ initproc → (s.proc q).parent ≠ none
  root : (s.proc initproc).parent = none
  irrefl : ∀ q, (s.proc q).parent ≠ some q
  init : (s.proc initproc).state.alive = true
  stays : (s.proc initproc).pc.exiting = false
  wf : ∀ q, (s.proc q).pc.wf = true
  child : ∀ q m, (s.proc q).pc.child = some m → (s.proc q).state.alive = true ∧ (s.proc m).state = .embryo
  uniq : ∀ q r m, (s.proc q).pc.child = some m → (s.proc r).pc.child = some m → q = r
  stack : ∀ q m, (s.proc q).pc.child = some m → (s.proc q).pc.hasStack = true →
    (s.proc m).pc = .forkret ∧ (s.proc m).kstack ≠ none
  ran : ∀ q m, (s.proc q).pc.child = some m → (s.proc q).pc.hasParent = true → (s.proc m).parent = some q
  wait : ∀ q, (s.proc q).state = .sleeping → (s.proc q).pc = .waitBack →
    (s.proc q).chan = some (.proc q) ∧ ∀ z, (s.proc z).parent = some q → (s.proc z).state ≠ .zombie
  kstack : ∀ q r k, (s.proc q).kstack = some k → (s.proc r).kstack = some k → q = r
  stacked : ∀ q, (s.proc q).state ≠ .unused → (s.proc q).state ≠ .embryo → (s.proc q).kstack ≠ none

/-- Both alive, or the same. -/
def PState.Like (a b : PState) : Prop := b = a ∨ a.alive = true ∧ b.alive = true

theorem PState.Wakes.like (h : a.Wakes b) : a.Like b := by
  rcases h with h | ⟨rfl, rfl⟩
  · exact .inl h
  · exact .inr ⟨rfl, rfl⟩

theorem PState.Like.alive (h : a.Like b) (ha : a.alive = true) : b.alive = true := by
  rcases h with rfl | h
  · exact ha
  · exact h.2

theorem PState.Like.iff (h : a.Like b) (ht : t.alive = false) : b = t ↔ a = t := by
  rcases h with rfl | ⟨ha, hb⟩
  · exact Iff.rfl
  · constructor <;> rintro rfl
    · rw [ht] at hb
      cases hb
    · rw [ht] at ha
      cases ha

/-- Alive or as it was, with its parent and its stack. -/
structure Stays (x y : Proc) : Prop where
  state : x.state.Like y.state
  parent : y.parent = x.parent
  kstack : y.kstack = x.kstack

theorem Stirs.stays (h : Stirs x y) : Stays x y := ⟨h.state.like, h.parent, h.kstack⟩

theorem Stays.refl (x : Proc) : Stays x x := (Stirs.refl x).stays

theorem Stays.ne (h : Stays x y) (ht : t.alive = false) (hy : y.state ≠ t) : x.state ≠ t :=
  fun hx => hy ((h.state.iff ht).2 hx)

theorem ne_of_alive {r : Slot} (ha : (s.proc q).state.alive = true) (hd : (s.proc r).state.alive = false) : r ≠ q := by
  rintro rfl
  rw [ha] at hd
  cases hd

/-- A slot that a living process fills is not of a living process. -/
theorem Tree.ne_child (hi : Tree s) {m : Slot} (h : (s.proc q).pc.child = some m) (ha : (s.proc p).state.alive = true) :
    m ≠ p := by
  apply ne_of_alive ha
  rw [(hi.child q m h).2]
  rfl

/-- All processes stay; only `p` goes on to another place. -/
theorem Tree.moves (hi : Tree s) (hst : ∀ q, Stays (s.proc q) (s'.proc q))
    (hpc : ∀ q, q ≠ p → (s'.proc q).pc = (s.proc q).pc) (hk : (s'.proc p).pc = k)
    (hgo : (k.child = none ∨ k.child = (s.proc p).pc.child) ∧
      (k.hasStack = true → (s.proc p).pc.hasStack = true) ∧ (k.hasParent = true → (s.proc p).pc.hasParent = true) ∧
      (p = initproc → k.exiting = true → (s.proc p).pc.exiting = true) ∧ k.wf = true)
    (hwait : ∀ q, (s'.proc q).state = .sleeping → (s'.proc q).pc = .waitBack →
      (s'.proc q).chan = some (.proc q) ∧ ∀ z, (s.proc z).parent = some q → (s.proc z).state ≠ .zombie)
    (halive : (s.proc p).state.alive = true) : Tree s' := by
  subst hk
  obtain ⟨hchild, hstack, hran, hex, hwf⟩ := hgo
  have hc : ∀ q m, (s'.proc q).pc.child = some m → (s.proc q).pc.child = some m := by
    intro q m h
    rcases eq_or_ne q p with rfl | hq
    · rcases hchild with h0 | h0
      · rw [h0] at h
        cases h
      · rw [← h0, h]
    · rwa [hpc q hq] at h
  constructor
  · intro q r h
    rw [(hst q).parent] at h
    exact (hst r).state.alive (hi.parent q r h)
  · intro q h1 h2 h3
    rw [(hst q).parent]
    exact hi.orphan q ((hst q).ne rfl h1) ((hst q).ne rfl h2) h3
  · rw [(hst _).parent]
    exact hi.root
  · intro q
    rw [(hst q).parent]
    exact hi.irrefl q
  · exact (hst _).state.alive hi.init
  · rcases eq_or_ne initproc p with h | h
    · rw [← Bool.not_eq_true]
      intro he
      rw [h] at he
      have := hex h.symm he
      rw [← h, hi.stays] at this
      cases this
    · rw [hpc _ h]
      exact hi.stays
  · intro q
    rcases eq_or_ne q p with rfl | hq
    · exact hwf
    · rw [hpc q hq]
      exact hi.wf q
  · intro q m h
    obtain ⟨h1, h2⟩ := hi.child q m (hc q m h)
    exact ⟨(hst q).state.alive h1, ((hst m).state.iff rfl).2 h2⟩
  · exact fun q r m hq hr => hi.uniq q r m (hc q m hq) (hc r m hr)
  · intro q m h hs
    rw [hpc m (hi.ne_child (hc q m h) halive), (hst m).kstack]
    refine hi.stack q m (hc q m h) ?_
    rcases eq_or_ne q p with rfl | hq
    · exact hstack hs
    · rwa [hpc q hq] at hs
  · intro q m h hs
    rw [(hst m).parent]
    refine hi.ran q m (hc q m h) ?_
    rcases eq_or_ne q p with rfl | hq
    · exact hran hs
    · rwa [hpc q hq] at hs
  · intro q h1 h2
    obtain ⟨h3, h4⟩ := hwait q h1 h2
    refine ⟨h3, fun z hz => ?_⟩
    rw [(hst z).parent] at hz
    exact fun h => h4 z hz (((hst z).state.iff rfl).1 h)
  · intro q r k hq hr
    rw [(hst _).kstack] at hq hr
    exact hi.kstack q r k hq hr
  · intro q h1 h2
    rw [(hst q).kstack]
    exact hi.stacked q ((hst q).ne rfl h1) ((hst q).ne rfl h2)

/-- `p` writes to a slot of no living process and goes on to `k`. -/
theorem Tree.sets (hi : Tree s) (h : s'.proc = ((s.set np x).goto p k).proc)
    (hr : (s.proc p).state = .running) (hdead : (s.proc np).state.alive = false)
    (hparent : ∀ r, x.parent = some r → (s.proc r).state.alive = true)
    (horphan : x.state ≠ .unused → x.state ≠ .embryo → x.parent ≠ none)
    (hex : k.exiting = false) (hwf : x.pc.wf = true ∧ k.wf = true) (hxc : x.pc.child = none)
    (hchild : ∀ m, k.child = some m → m = np ∧ x.state = .embryo)
    (hno : ∀ q, q ≠ p → (s.proc q).pc.child ≠ some np)
    (hstack : k.hasStack = true → x.pc = .forkret ∧ x.kstack ≠ none) (hran : k.hasParent = true → x.parent = some p)
    (hst : x.state ≠ .sleeping ∧ x.state ≠ .zombie)
    (hks : ∀ j, x.kstack = some j → ∀ q, q ≠ np → (s.proc q).kstack ≠ some j)
    (hstacked : x.state ≠ .unused → x.state ≠ .embryo → x.kstack ≠ none) : Tree s' := by
  have halive : (s.proc p).state.alive = true := by
    rw [hr]
    rfl
  have hne : np ≠ p := ne_of_alive halive hdead
  have hself : s'.proc p = { s.proc p with pc := k } := by rw [h, goto_self, set_ne hne.symm]
  have hnp : s'.proc np = x := by rw [h, goto_ne hne, set_self]
  have hoth : ∀ q, q ≠ p → q ≠ np → s'.proc q = s.proc q := fun q h1 h2 => by rw [h, goto_ne h1, set_ne h2]
  have hinit : np ≠ initproc := ne_of_alive hi.init hdead
  -- all that is not the written slot's
  have hq : ∀ q, q ≠ np → (s'.proc q).state = (s.proc q).state ∧ (s'.proc q).parent = (s.proc q).parent ∧
      (s'.proc q).kstack = (s.proc q).kstack ∧ (s'.proc q).chan = (s.proc q).chan := by
    intro q hq
    rcases eq_or_ne q p with rfl | hp
    · rw [hself]
      exact ⟨rfl, rfl, rfl, rfl⟩
    · rw [hoth q hp hq]
      exact ⟨rfl, rfl, rfl, rfl⟩
  have hpc : ∀ q m, (s'.proc q).pc.child = some m → q = p ∧ m = np ∧ x.state = .embryo ∨
      q ≠ p ∧ q ≠ np ∧ m ≠ np ∧ (s.proc q).pc.child = some m := by
    intro q m hm
    rcases eq_or_ne q p with rfl | hp
    · rw [hself] at hm
      exact .inl ⟨rfl, hchild m hm⟩
    · rcases eq_or_ne q np with rfl | hn
      · rw [hnp, hxc] at hm
        cases hm
      · rw [hoth q hp hn] at hm
        exact .inr ⟨hp, hn, fun he => hno q hp (he ▸ hm), hm⟩
  constructor
  · intro q r hr
    have hr' : (s.proc r).state.alive = true := by
      rcases eq_or_ne q np with rfl | hn
      · rw [hnp] at hr
        exact hparent r hr
      · rw [(hq q hn).2.1] at hr
        exact hi.parent q r hr
    rw [(hq r (ne_of_alive hr' hdead).symm).1]
    exact hr'
  · intro q h1 h2 h3
    rcases eq_or_ne q np with rfl | hn
    · rw [hnp] at h1 h2 ⊢
      exact horphan h1 h2
    · rw [(hq q hn).1] at h1 h2
      rw [(hq q hn).2.1]
      exact hi.orphan q h1 h2 h3
  · rw [(hq _ hinit.symm).2.1]
    exact hi.root
  · intro q
    rcases eq_or_ne q np with rfl | hn
    · rw [hnp]
      intro hx
      rw [hparent q hx] at hdead
      cases hdead
    · rw [(hq q hn).2.1]
      exact hi.irrefl q
  · rw [(hq _ hinit.symm).1]
    exact hi.init
  · rcases eq_or_ne initproc p with h | h
    · rw [h, hself]
      exact hex
    · rw [hoth _ h hinit.symm]
      exact hi.stays
  · intro q
    rcases eq_or_ne q p with rfl | hp
    · rw [hself]
      exact hwf.2
    · rcases eq_or_ne q np with rfl | hn
      · rw [hnp]
        exact hwf.1
      · rw [hoth q hp hn]
        exact hi.wf q
  · intro q m hm
    rcases hpc q m hm with ⟨rfl, rfl, he⟩ | ⟨-, hn, hm', hc⟩
    · rw [(hq q hne.symm).1, hnp]
      exact ⟨halive, he⟩
    · rw [(hq q hn).1, (hq m hm').1]
      exact hi.child q m hc
  · intro q r m hm hm'
    rcases hpc q m hm with ⟨rfl, rfl, -⟩ | ⟨-, -, hn, hc⟩ <;> rcases hpc r m hm' with ⟨rfl, h1, -⟩ | ⟨-, -, h1, hc'⟩
    · rfl
    · exact absurd rfl h1
    · exact absurd h1 hn
    · exact hi.uniq q r m hc hc'
  · intro q m hm hs
    rcases hpc q m hm with ⟨rfl, rfl, -⟩ | ⟨hp, hn, hm', hc⟩
    · rw [hself] at hs
      rw [hnp]
      exact hstack hs
    · rw [hoth q hp hn] at hs
      rw [hoth m (hi.ne_child hc halive) hm']
      exact hi.stack q m hc hs
  · intro q m hm hs
    rcases hpc q m hm with ⟨rfl, rfl, -⟩ | ⟨hp, hn, hm', hc⟩
    · rw [hself] at hs
      rw [hnp]
      exact hran hs
    · rw [hoth q hp hn] at hs
      rw [(hq m hm').2.1]
      exact hi.ran q m hc hs
  · intro q h1 h2
    have hn : q ≠ np := by
      rintro rfl
      rw [hnp] at h1
      exact hst.1 h1
    have hp : q ≠ p := by
      rintro rfl
      rw [hself] at h1
      exact absurd (hr.symm.trans h1) (by simp)
    rw [hoth q hp hn] at h1 h2 ⊢
    obtain ⟨h3, h4⟩ := hi.wait q h1 h2
    refine ⟨h3, fun z hz => ?_⟩
    rcases eq_or_ne z np with rfl | hzn
    · rw [hnp]
      exact hst.2
    · rw [(hq z hzn).2.1] at hz
      rw [(hq z hzn).1]
      exact h4 z hz
  · intro q r j h1 h2
    rcases eq_or_ne q np with rfl | hn <;> rcases eq_or_ne r q with rfl | hr
    · rfl
    · rw [hnp] at h1
      rw [(hq r hr).2.2.1] at h2
      exact absurd h2 (hks j h1 r hr)
    · rfl
    · rw [(hq q hn).2.2.1] at h1
      rcases eq_or_ne r np with rfl | hrn
      · rw [hnp] at h2
        exact absurd h1 (hks j h2 q hn)
      · rw [(hq r hrn).2.2.1] at h2
        exact hi.kstack q r j h1 h2
  · intro q h1 h2
    rcases eq_or_ne q np with rfl | hn
    · rw [hnp] at h1 h2 ⊢
      exact hstacked h1 h2
    · rw [(hq q hn).1] at h1 h2
      rw [(hq q hn).2.2.1]
      exact hi.stacked q h1 h2

theorem Tree.exit (hi : Tree s) (hr : (s.proc p).state = .running) (hpc : (s.proc p).pc = .exitDo) (h : Exits p s s') :
    Tree s' := by
  have hp : p ≠ initproc := by
    rintro rfl
    have := hi.stays
    rw [hpc] at this
    cases this
  have halive : (s.proc p).state.alive = true := by
    rw [hr]
    rfl
  have hst : ∀ q, q ≠ p → (s.proc q).state.Like (s'.proc q).state := fun q hq => (h.state q hq).like
  have hc : ∀ q m, (s'.proc q).pc.child = some m → q ≠ p ∧ (s.proc q).pc.child = some m := by
    intro q m hm
    have hq : q ≠ p := by
      rintro rfl
      rw [h.exited] at hm
      cases hm
    rw [h.pc q hq] at hm
    exact ⟨hq, hm⟩
  have hm : ∀ q m, (s.proc q).pc.child = some m → m ≠ p := fun q m hm => hi.ne_child hm halive
  -- nobody is a child of `p` any more
  have hpa : ∀ q r, (s'.proc q).parent = some r → r ≠ p ∧ (s.proc r).state.alive = true := by
    intro q r hq
    rw [h.parent] at hq
    split at hq
    · obtain rfl := some.inj hq
      exact ⟨hp.symm, hi.init⟩
    · rename_i hne
      exact ⟨fun he => hne (he ▸ hq), hi.parent q r hq⟩
  constructor
  · intro q r hq
    obtain ⟨h1, h2⟩ := hpa q r hq
    exact (hst r h1).alive h2
  · intro q h1 h2 h3
    have h0 : (s.proc q).parent ≠ none := by
      rcases eq_or_ne q p with rfl | hq
      · exact hi.orphan q (by simp [hr]) (by simp [hr]) h3
      · exact hi.orphan q (fun hh => h1 (((hst q hq).iff rfl).2 hh)) (fun hh => h2 (((hst q hq).iff rfl).2 hh)) h3
    rw [h.parent]
    split
    · simp
    · exact h0
  · rw [h.parent, hi.root]
    rfl
  · intro q hq
    rw [h.parent] at hq
    split at hq
    · rename_i hqp
      rw [← some.inj hq, hi.root] at hqp
      cases hqp
    · exact hi.irrefl q hq
  · exact (hst _ hp.symm).alive hi.init
  · rw [h.pc _ hp.symm]
    exact hi.stays
  · intro q
    rcases eq_or_ne q p with rfl | hq
    · rw [h.exited]
      rfl
    · rw [h.pc q hq]
      exact hi.wf q
  · intro q m hqm
    obtain ⟨hq, hqm⟩ := hc q m hqm
    obtain ⟨h1, h2⟩ := hi.child q m hqm
    exact ⟨(hst q hq).alive h1, ((hst m (hm q m hqm)).iff rfl).2 h2⟩
  · exact fun q r m hq hr => hi.uniq q r m (hc q m hq).2 (hc r m hr).2
  · intro q m hqm hs
    obtain ⟨hq, hqm⟩ := hc q m hqm
    rw [h.pc q hq] at hs
    rw [h.pc m (hm q m hqm), (h.rest m).2.1]
    exact hi.stack q m hqm hs
  · intro q m hqm hs
    obtain ⟨hq, hqm⟩ := hc q m hqm
    rw [h.pc q hq] at hs
    have := hi.ran q m hqm hs
    rw [h.parent, if_neg, this]
    rw [this]
    exact fun he => hq (some.inj he)
  · intro q h1 h2
    have hq : q ≠ p := by
      rintro rfl
      rw [h.zombie] at h1
      cases h1
    rw [h.pc q hq] at h2
    have h1' : (s.proc q).state = .sleeping := by rw [← (h.state q hq).eq' (by simp [h1]), h1]
    obtain ⟨h3, h4⟩ := hi.wait q h1' h2
    rw [(h.rest q).2.2.1]
    refine ⟨h3, fun z hz hs => ?_⟩
    rw [h.parent] at hz
    split at hz
    · -- a zombie handed to `init` wakes it
      rename_i hzp
      obtain rfl := some.inj hz
      have hzz : z ≠ p := by
        rintro rfl
        exact hi.irrefl z hzp
      exact h.wokenInit initproc z hq h1 hzp (((hst z hzz).iff rfl).1 hs) h3
    · rcases eq_or_ne z p with rfl | hzp
      · refine h.woken q hq h1 ?_
        rw [h3, hz]
        rfl
      · exact h4 z hz (((hst z hzp).iff rfl).1 hs)
  · intro q r k h1 h2
    rw [(h.rest q).2.1] at h1
    rw [(h.rest r).2.1] at h2
    exact hi.kstack q r k h1 h2
  · intro q h1 h2
    rw [(h.rest q).2.1]
    rcases eq_or_ne q p with rfl | hq
    · exact hi.stacked q (by simp [hr]) (by simp [hr])
    · exact hi.stacked q (fun hh => h1 (((hst q hq).iff rfl).2 hh)) (fun hh => h2 (((hst q hq).iff rfl).2 hh))

theorem Tree.stir (hi : Tree s) (hr : (s.proc p).state = .running)
    (hoth : ∀ q, q ≠ p → Stirs (s.proc q) (s'.proc q)) (hself : Stirs { s.proc p with pc := k } (s'.proc p))
    (hgo : (s.proc p).pc.Goes k ∨ (s.proc p).pc = .out ∧ k = .exit ∧ p ≠ initproc) : Tree s' := by
  have hk : (k.child = none ∨ k.child = (s.proc p).pc.child) ∧
      (k.hasStack = true → (s.proc p).pc.hasStack = true) ∧ (k.hasParent = true → (s.proc p).pc.hasParent = true) ∧
      (p = initproc → k.exiting = true → (s.proc p).pc.exiting = true) ∧ k.wf = true := by
    rcases hgo with h | ⟨-, rfl, hne⟩
    · exact ⟨h.child, h.stack, h.parent, fun _ => h.exiting, h.wf (hi.wf p)⟩
    · exact ⟨.inl rfl, nofun, nofun, fun h => absurd h hne, rfl⟩
  have hrun : (s'.proc p).state = .running := by rw [hself.state.eq (by simp [hr]), hr]
  refine hi.moves (p := p) (fun q => ?_) (fun q hq => (hoth q hq).pc) hself.pc hk (fun q h1 h2 => ?_) (by rw [hr]; rfl)
  · rcases eq_or_ne q p with rfl | hq
    · exact ⟨hself.state.like, hself.parent, hself.kstack⟩
    · exact (hoth q hq).stays
  · have hq : q ≠ p := by
      rintro rfl
      rw [hrun] at h1
      cases h1
    have h1' : (s.proc q).state = .sleeping := by rw [← (hoth q hq).state.eq' (by simp [h1]), h1]
    rw [(hoth q hq).pc] at h2
    obtain ⟨h3, h4⟩ := hi.wait q h1' h2
    refine ⟨?_, h4⟩
    rcases (hoth q hq).chan with h | h
    · rw [h, h3]
    · rw [h1'] at h
      cases h

theorem Tree.rest (hi : Tree s) (hr : (s.proc p).state = .running)
    (hoth : ∀ q, q ≠ p → s'.proc q = s.proc q) (hself : s'.proc p = x)
    (hx : x.parent = (s.proc p).parent ∧ x.kstack = (s.proc p).kstack) (hgo : (s.proc p).pc.Goes x.pc)
    (hst : x.state = .runnable ∧ (∃ j, x.pc = .yieldBack j) ∨ x.state = .sleeping ∧ (x.pc = .sleepBack ∨
      x.pc = .waitBack ∧ x.chan = some (.proc p) ∧ ∀ q, (s.proc q).parent = some p → (s.proc q).state ≠ .zombie)) :
    Tree s' := by
  refine hi.moves (p := p) (fun q => ?_) (fun q hq => by rw [hoth q hq]) (congrArg Proc.pc hself)
    ⟨hgo.child, hgo.stack, hgo.parent, fun _ => hgo.exiting, hgo.wf (hi.wf p)⟩ (fun q h1 h2 => ?_) (by rw [hr]; rfl)
  · rcases eq_or_ne q p with rfl | hq
    · rw [hself]
      refine ⟨?_, hx.1, hx.2⟩
      rw [hr]
      rcases hst with ⟨h, -⟩ | ⟨h, -⟩ <;> rw [h] <;> exact .inr ⟨rfl, rfl⟩
    · rw [hoth q hq]
      exact .refl _
  · rcases eq_or_ne q p with rfl | hq
    · rw [hself] at h1 h2 ⊢
      rcases hst with ⟨h, -⟩ | ⟨-, h | ⟨-, h3, h4⟩⟩
      · rw [h1] at h
        cases h
      · rw [h2] at h
        cases h
      · exact ⟨h3, h4⟩
    · rw [hoth q hq] at h1 h2 ⊢
      exact hi.wait q h1 h2

/-- What `fork` knows of the slot it fills. -/
theorem Tree.filling (hi : Tree s) (hpc : (s.proc p).pc = k) (hk : k.child = some np) :
    (s.proc np).state = .embryo ∧ (s.proc np).pc.child = none ∧ ∀ q, q ≠ p → (s.proc q).pc.child ≠ some np := by
  have hc : (s.proc p).pc.child = some np := by rw [hpc, hk]
  have he := (hi.child p np hc).2
  refine ⟨he, ?_, fun q hq h => hq (hi.uniq q p np h hc)⟩
  cases h : (s.proc np).pc.child with
  | none => rfl
  | some m =>
    have := (hi.child np m h).1
    rw [he] at this
    cases this

/-- A slot of no living process is nobody's to fill but by the code that has it. -/
theorem Tree.dead_child (hi : Tree s) (hd : (s.proc np).state.alive = false) : (s.proc np).pc.child = none := by
  cases h : (s.proc np).pc.child with
  | none => rfl
  | some m =>
    rw [(hi.child np m h).1] at hd
    cases hd

theorem Tree.change (hi : Tree s) (hr : (s.proc p).state = .running) (h : Change p s s' e) : Tree s' := by
  cases h with
  | stir hoth hself hgo _ _ => exact hi.stir hr hoth hself hgo
  | rest hoth hself hx hgo hst => exact hi.rest hr hoth hself ⟨hx.2.1, hx.2.2.1⟩ hgo hst
  | exit hpc h => exact hi.exit hr hpc h
  | reap hz hp h =>
    rename_i q
    have hd : (s.proc q).state.alive = false := by
      rw [hz]
      rfl
    have hno : ∀ r, (s.proc r).pc.child ≠ some q := by
      intro r hr
      have := (hi.child r q hr).2
      rw [hz] at this
      cases this
    exact hi.sets h hr hd nofun (fun h => absurd rfl h) rfl ⟨hi.wf q, rfl⟩ (hi.dead_child hd) nofun (fun r _ => hno r)
      nofun nofun ⟨nofun, nofun⟩ nofun fun h => absurd rfl h
  | alloc hu h =>
    rename_i np
    have hd : (s.proc np).state.alive = false := by
      rw [hu]
      rfl
    have hno : ∀ r, (s.proc r).pc.child ≠ some np := by
      intro r hr
      have := (hi.child r np hr).2
      rw [hu] at this
      cases this
    refine hi.sets h hr hd (hi.parent np) (fun _ h => absurd rfl h) rfl ⟨hi.wf np, rfl⟩ (hi.dead_child hd) ?_
      (fun r _ => hno r) nofun nofun ⟨nofun, nofun⟩ (fun j hj q hq hk => hq (hi.kstack q np j hk hj)) fun _ h => absurd rfl h
    intro m hm
    exact ⟨(some.inj hm).symm, rfl⟩
  | stack hpc hk h =>
    rename_i np k
    obtain ⟨he, -, hno⟩ := hi.filling hpc rfl
    refine hi.sets h hr (by rw [he]; rfl) (hi.parent np) (fun _ h => absurd he h) rfl ⟨rfl, rfl⟩ rfl ?_ hno
      (fun _ => ⟨rfl, nofun⟩) nofun (by simp [he]) (fun j hj q _ => ?_) fun _ h => absurd he h
    · intro m hm
      exact ⟨(some.inj hm).symm, he⟩
    · rw [← hj]
      exact hk q
  | fail hpc h =>
    rename_i np
    obtain ⟨he, hn, hno⟩ := hpc.elim (hi.filling · rfl) (hi.filling · rfl)
    exact hi.sets h hr (by rw [he]; rfl) (hi.parent np) (fun h => absurd rfl h) rfl ⟨hi.wf np, rfl⟩ hn nofun hno
      nofun nofun ⟨nofun, nofun⟩ nofun fun h => absurd rfl h
  | parent hpc h =>
    rename_i np
    have hc : (s.proc p).pc.child = some np := by rw [hpc]; rfl
    obtain ⟨he, hn, hno⟩ := hi.filling hpc rfl
    have hs := hi.stack p np hc (by rw [hpc]; rfl)
    refine hi.sets h hr (by rw [he]; rfl) (fun r hr' => ?_) (fun _ h => absurd he h) rfl ⟨hi.wf np, rfl⟩ hn ?_ hno
      (fun _ => hs) (fun _ => rfl) (by simp [he]) (fun j hj q hq hk => hq (hi.kstack q np j hk hj)) fun _ h => absurd he h
    · rw [← some.inj hr', hr]
      rfl
    · intro m hm
      exact ⟨(some.inj hm).symm, he⟩
  | born hpc h =>
    rename_i np
    have hc : (s.proc p).pc.child = some np := by rw [hpc]; rfl
    obtain ⟨he, hn, hno⟩ := hi.filling hpc rfl
    have hs := hi.stack p np hc (by rw [hpc]; rfl)
    have hp := hi.ran p np hc (by rw [hpc]; rfl)
    refine hi.sets h hr (by rw [he]; rfl) (hi.parent np) (fun _ _ => by simp [hp]) rfl ⟨hi.wf np, rfl⟩ hn nofun hno
      nofun nofun ⟨nofun, nofun⟩ (fun j hj q hq hk => hq (hi.kstack q np j hk hj)) fun _ _ => hs.2

theorem Cpus.keeps_self (hc : Cpus s) (q : Slot) : Keeps (s.proc q) (s.proc q) := (Stirs.refl _).keeps (hc.parked q)

/-- A write to a slot of no living process, which goes on to `x`. -/
theorem Cpus.keeps_set (hc : Cpus s) (h : s'.proc = ((s.set np x).goto p k).proc)
    (hr : (s.proc p).state = .running) (hd : (s.proc np).state.alive = false) (hx : x.state ≠ .running) (hpark : x.parked) :
    (∀ q, q ≠ p → Keeps (s.proc q) (s'.proc q)) ∧ (s'.proc p).parked := by
  have hne : np ≠ p := ne_of_alive (by rw [hr]; rfl) hd
  constructor
  · intro q hq
    rw [h, goto_ne hq]
    rcases eq_or_ne q np with rfl | hn
    · rw [set_self]
      refine .inr ⟨fun hr' => ?_, hx, hpark⟩
      rw [hr'] at hd
      cases hd
    · rw [set_ne hn]
      exact hc.keeps_self q
  · rw [h, goto_self, set_ne hne.symm]
    exact parked_of_running hr

/-- What a step of `p` leaves to the others, and where `p` goes on when it stops. -/
theorem Change.keeps (hc : Cpus s) (ht : Tree s) (hr : (s.proc p).state = .running) (h : Change p s s' e) :
    (∀ q, q ≠ p → Keeps (s.proc q) (s'.proc q)) ∧ (s'.proc p).parked := by
  cases h with
  | stir hoth hself _ _ _ =>
    refine ⟨fun q hq => (hoth q hq).keeps (hc.parked q), parked_of_running ?_⟩
    rw [hself.state.eq (by simp [hr]), hr]
  | rest hoth hself _ _ hst =>
    refine ⟨fun q hq => ?_, ?_⟩
    · rw [hoth q hq]
      exact hc.keeps_self q
    · rw [hself, Proc.parked]
      rcases hst with ⟨h1, h2⟩ | ⟨h1, h2⟩
      · rw [h1]
        exact .inr (.inl h2)
      · rw [h1]
        exact h2.imp id And.left
  | exit _ h =>
    refine ⟨fun q hq => ?_, ?_⟩
    · have hst : Stirs { s.proc q with parent := (s'.proc q).parent } (s'.proc q) :=
        ⟨h.state q hq, (h.rest q).1, rfl, (h.rest q).2.1, .inl (h.rest q).2.2.1, h.pc q hq⟩
      exact hst.keeps (hc.parked q)
    · rw [Proc.parked, h.zombie]
      trivial
  | reap hz _ h => exact hc.keeps_set h hr (by rw [hz]; rfl) (by simp) trivial
  | alloc hu h => exact hc.keeps_set h hr (by rw [hu]; rfl) (by simp) trivial
  | stack hpc hk h =>
    rename_i np k
    have he := (ht.filling hpc rfl).1
    refine hc.keeps_set h hr (by rw [he]; rfl) (by simp [he]) ?_
    rw [Proc.parked, he]
    trivial
  | fail hpc h =>
    rename_i np
    have he := (hpc.elim (ht.filling · rfl) (ht.filling · rfl)).1
    exact hc.keeps_set h hr (by rw [he]; rfl) (by simp) trivial
  | parent hpc h =>
    rename_i np
    have he := (ht.filling hpc rfl).1
    refine hc.keeps_set h hr (by rw [he]; rfl) (by simp [he]) ?_
    rw [Proc.parked, he]
    trivial
  | born hpc h =>
    rename_i np
    have hch : (s.proc p).pc.child = some np := by rw [hpc]; rfl
    have he := (ht.filling hpc rfl).1
    exact hc.keeps_set h hr (by rw [he]; rfl) (by simp) (.inl (ht.stack p np hch (by rw [hpc]; rfl)).1)

variable [DecidableEq K]

omit [DecidableEq K] in
/-- No process goes on to another place. -/
theorem Tree.still (hi : Tree s) (hst : ∀ q, Stays (s.proc q) (s'.proc q)) (hpc : ∀ q, (s'.proc q).pc = (s.proc q).pc)
    (hsl : ∀ q, (s'.proc q).state = .sleeping → (s.proc q).state = .sleeping ∧ (s'.proc q).chan = (s.proc q).chan) :
    Tree s' := by
  refine hi.moves (p := initproc) hst (fun q _ => hpc q) (hpc _) ⟨.inr rfl, id, id, fun _ => id, hi.wf _⟩
    (fun q h1 h2 => ?_) hi.init
  obtain ⟨h3, h4⟩ := hsl q h1
  rw [hpc] at h2
  rw [h4]
  exact hi.wait q h3 h2

theorem Tree.sw (hi : Tree s) (h : Sw c s s') : Tree s' := by
  cases h with
  | look htab _ _ _ =>
    refine hi.still (fun q => (htab q).1.stays) (fun q => (htab q).1.pc) fun q h1 => ?_
    have h1' : (s.proc q).state = .sleeping := by rw [← (htab q).1.state.eq' (by simp [h1]), h1]
    refine ⟨h1', (htab q).1.chan.resolve_right fun h => ?_⟩
    rw [h1'] at h
    cases h
  | @choose p hp _ h =>
    have hself : s'.proc p = { s.proc p with state := .running } := by rw [h]; exact set_self
    have hne : ∀ q, q ≠ p → s'.proc q = s.proc q := fun q hq => by rw [h]; exact set_ne hq
    refine hi.still (fun q => ?_) (fun q => ?_) fun q h1 => ?_ <;> rcases eq_or_ne q p with rfl | hq
    · rw [hself]
      refine ⟨?_, rfl, rfl⟩
      rw [hp]
      exact .inr ⟨rfl, rfl⟩
    · rw [hne q hq]
      exact .refl _
    · rw [hself]
    · rw [hne q hq]
    · rw [hself] at h1
      cases h1
    · rw [hne q hq] at h1 ⊢
      exact ⟨h1, rfl⟩
  | switch _ h =>
    subst h
    exact hi.still (fun _ => .refl _) (fun _ => rfl) fun _ h => ⟨h, rfl⟩
  | back _ h =>
    subst h
    exact hi.still (fun _ => .refl _) (fun _ => rfl) fun _ h => ⟨h, rfl⟩

/-- A process changes another slot and goes on with interrupts on. -/
theorem ctl_set_goto (hq : q ≠ p) (hk : k.intena = true) :
    Ctl c p s ((s.set q x).goto p k) := by
  refine .stay rfl (goto_set_running hq) (.inr (.inr ⟨rfl, fun h => ?_⟩))
  rw [goto_self] at h
  exact absurd (h.symm.trans hk) (by decide)

/-- A step of a process, or of `scheduler`. -/
theorem next_cases {a : Act K} (hc : Cpus s) (ht : Tree s) (h : s.next a = some (s', e)) :
    (∃ c p, (s.cpu c).on = some p ∧ Change p s s' e ∧ Ctl c p s s') ∨
    ∃ c, (s.cpu c).on = none ∧ e = none ∧ Sw c s s' := by
  have hchild : ∀ c p, (s.cpu c).on = some p → ∀ np, (s.proc p).pc.child = some np → np ≠ p := by
    rintro c p hon np hm rfl
    have h1 := (hc.on c np hon).2.2
    rw [(ht.child np np hm).2] at h1
    cases h1
  cases a with
  | step c =>
    simp only [State.next] at h
    cases hon : (s.cpu c).on with
    | none =>
      simp only [hon] at h
      obtain ⟨t, ht, he⟩ := map_eq_some_iff.1 h
      obtain ⟨rfl, rfl⟩ := Prod.mk.inj he
      exact .inr ⟨c, hon, rfl, scheduler_step (hc.locked c hon) ht⟩
    | some p =>
      obtain ⟨hp, -, hr⟩ := hc.on c p hon
      simp only [hon, hp] at h
      exact .inl ⟨c, p, hon, code_step hr (ht.wf p) (hchild c p hon) h⟩
  | kalloc c page =>
    simp only [State.next] at h
    cases hon : (s.cpu c).on with
    | none => simp [hon] at h
    | some p =>
      simp only [hon] at h
      refine .inl ⟨c, p, hon, ?_⟩
      have hr := (hc.on c p hon).2.2
      split at h
      · rename_i np k hpc
        have hne := hchild c p hon np (by rw [hpc]; rfl)
        split at h
        · rename_i hk
          simp only [some.injEq, Prod.mk.injEq] at h
          obtain ⟨rfl, rfl⟩ := h
          exact ⟨.stack hpc hk rfl, ctl_set_goto hne rfl⟩
        · cases h
      · rename_i np hpc
        have hne := hchild c p hon np (by rw [hpc]; rfl)
        simp only [some.injEq, Prod.mk.injEq] at h
        obtain ⟨rfl, rfl⟩ := h
        exact ⟨.fail (.inl hpc) rfl, ctl_set_goto hne rfl⟩
      · cases h
  | cowuvm c ok =>
    simp only [State.next] at h
    cases hon : (s.cpu c).on with
    | none => simp [hon] at h
    | some p =>
      simp only [hon] at h
      refine .inl ⟨c, p, hon, ?_⟩
      split at h
      · rename_i np hpc
        simp only [some.injEq, Prod.mk.injEq] at h
        obtain ⟨rfl, rfl⟩ := h
        exact code_goto hpc rfl (by constructor <;> simp) (fun h => by cases h)
      · rename_i np hpc
        have hne := hchild c p hon np (by rw [hpc]; rfl)
        simp only [some.injEq, Prod.mk.injEq] at h
        obtain ⟨rfl, rfl⟩ := h
        exact ⟨.fail (.inr hpc) rfl, ctl_set_goto hne rfl⟩
      · cases h
  | call c r =>
    simp only [State.next] at h
    cases hon : (s.cpu c).on with
    | none => simp [hon] at h
    | some p =>
      obtain ⟨hp, -, hr⟩ := hc.on c p hon
      simp only [hon, hp] at h
      by_cases hpc : (s.proc p).pc = .out
      · simp only [if_pos hpc] at h
        exact .inl ⟨c, p, hon, call_step hr hpc h⟩
      · simp [if_neg hpc] at h
  | tick c =>
    simp only [State.next] at h
    cases hon : (s.cpu c).on with
    | none => simp [hon] at h
    | some p =>
      simp only [hon] at h
      by_cases hk : (s.proc p).pc.intena = true
      · simp only [if_pos hk, some.injEq, Prod.mk.injEq] at h
        obtain ⟨rfl, rfl⟩ := h
        exact .inl ⟨c, p, hon, code_goto rfl rfl (Pc.goes_yield hk) (fun h => by cases h)⟩
      · simp [if_neg hk] at h
  | device c ch =>
    simp only [State.next] at h
    cases hon : (s.cpu c).on with
    | none =>
      simp only [hon] at h
      by_cases hpc : (s.cpu c).pc = .idle
      · simp only [if_pos hpc, some.injEq, Prod.mk.injEq] at h
        obtain ⟨rfl, rfl⟩ := h
        exact .inr ⟨c, hon, rfl, sw_sgoto (by simp [hpc]) (fun h => by cases h) (by simp [hpc, SPc.rank])⟩
      · simp [if_neg hpc] at h
    | some p =>
      simp only [hon] at h
      by_cases hk : (s.proc p).pc.intena = true
      · simp only [if_pos hk, some.injEq, Prod.mk.injEq] at h
        obtain ⟨rfl, rfl⟩ := h
        exact .inl ⟨c, p, hon, code_goto rfl rfl (Pc.goes_wakeup ch hk) (fun h => by cases h)⟩
      · simp [if_neg hk] at h

structure Inv (s : State K) : Prop where
  cpus : Cpus s
  tree : Tree s

theorem Inv.next {a : Act K} (hi : Inv s) (h : s.next a = some (s', e)) : Inv s' := by
  rcases next_cases hi.cpus hi.tree h with ⟨c, p, hon, hch, hctl⟩ | ⟨c, hoff, -, hsw⟩
  · have hr := (hi.cpus.on c p hon).2.2
    obtain ⟨hoth, hpark⟩ := hch.keeps hi.cpus hi.tree hr
    exact ⟨hi.cpus.ctl hon hctl hpark hoth, hi.tree.change hr hch⟩
  · exact ⟨hi.cpus.sw hoff hsw, hi.tree.sw hsw⟩

omit [DecidableEq K] in
theorem Inv.init (kstack : ℕ) : Inv (userinit K kstack) := by
  have hself : (userinit K kstack).proc initproc =
      { state := .runnable, pid := 1, kstack := some kstack, pc := .forkret } := by simp [userinit]
  have hne : ∀ q, q ≠ initproc → (userinit K kstack).proc q = {} := fun q h => by simp [userinit, h]
  have hpc : ∀ q, ((userinit K kstack).proc q).pc.child = none := by
    intro q
    rcases eq_or_ne q initproc with rfl | h
    · rw [hself]
      rfl
    · rw [hne q h]
      rfl
  have hpa : ∀ q, ((userinit K kstack).proc q).parent = none := by
    intro q
    rcases eq_or_ne q initproc with rfl | h
    · rw [hself]
    · rw [hne q h]
  constructor
  · refine ⟨nofun, fun _ _ => rfl, nofun, fun q h => ?_, nofun, nofun, fun q => ?_⟩
    · rcases eq_or_ne q initproc with rfl | hq
      · rw [hself] at h
        cases h
      · rw [hne q hq] at h
        cases h
    · rcases eq_or_ne q initproc with rfl | hq
      · rw [hself]
        exact .inl rfl
      · rw [hne q hq]
        trivial
  · constructor
    · simp [hpa]
    · intro q h1 _ h3
      rw [hne q h3] at h1
      exact absurd rfl h1
    · exact hpa _
    · simp [hpa]
    · rw [hself]
      rfl
    · rw [hself]
      rfl
    · intro q
      rcases eq_or_ne q initproc with rfl | h
      · rw [hself]
        rfl
      · rw [hne q h]
        rfl
    · simp [hpc]
    · simp [hpc]
    · simp [hpc]
    · simp [hpc]
    · intro q h1
      rcases eq_or_ne q initproc with rfl | h
      · rw [hself] at h1
        cases h1
      · rw [hne q h] at h1
        cases h1
    · have hk : ∀ q k, ((userinit K kstack).proc q).kstack = some k → q = initproc := by
        intro q k hq
        by_contra h
        rw [hne q h] at hq
        cases hq
      exact fun q r k hq hr => (hk q k hq).trans (hk r k hr).symm
    · intro q h1
      rcases eq_or_ne q initproc with rfl | h
      · rw [hself]
        exact fun _ => nofun
      · rw [hne q h] at h1
        exact absurd rfl h1

theorem Inv.of_run {as : List (Act K × Option Event)} (h : Run (system K) as s) : Inv s := by
  induction h with
  | start h =>
    obtain ⟨k, rfl⟩ := h
    exact Inv.init k
  | snoc _ hs ih => exact ih.next hs

omit [DecidableEq K] in
/-- The step in which `wait` finds a child. -/
theorem Change.of_wait {z : Slot} {pid : BitVec 32} {ks : Option ℕ}
    (h : Change p s s' (some (.wait q z pid ks))) : q = p ∧ (s.proc z).state = .zombie ∧
      (s.proc z).parent = some p ∧ pid = (s.proc z).pid ∧ ks = (s.proc z).kstack ∧ (s'.proc z).state = .unused := by
  generalize he : some (Event.wait q z pid ks) = e at h
  cases h with
  | stir _ _ _ _ h => rcases h with h | ⟨_, h⟩ | h <;> simp [← he] at h
  | @reap r hz hp h =>
    simp only [some.injEq, Event.wait.injEq] at he
    obtain ⟨rfl, rfl, rfl, rfl⟩ := he
    refine ⟨rfl, hz, hp, rfl, rfl, ?_⟩
    rw [h]
    rcases eq_or_ne z q with rfl | hne
    · rw [goto_self]
      simp [State.reap]
    · rw [goto_ne hne]
      simp [State.reap]
  | _ => cases he

end Xv6.Sched

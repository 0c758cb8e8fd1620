import Mathlib.Data.Finset.Card
import Mathlib.Data.List.Count
import Xv6.Spec.Futex

/-! Whom `futex_wake` reaches. The wait channel is the address as the caller wrote it, so a wake
reaches every process asleep on that address, in whatever address space it named it. -/

namespace Xv6.Futex

open Prog Bytes List

/-- The state after the wake-ups on `chan` among the slots of `l`. -/
def State.wakeAll (s : State) (chan : ℕ) (l : List ℕ) : State :=
  { s with
    proc := fun p =>
      if p ∈ l ∧ s.asleep chan p then { s.proc p with state := .runnable } else s.proc p }

@[simp] theorem State.wakeAll_nil (s : State) (chan : ℕ) : s.wakeAll chan [] = s := by
  simp [State.wakeAll]

theorem State.asleep_wakeAll {s : State} {chan p : ℕ} {l : List ℕ} (hp : p ∉ l) :
    (s.wakeAll chan l).asleep chan p ↔ s.asleep chan p := by
  simp [State.asleep, State.wakeAll, hp]

/-- A wake of the slots of `l` after one of `p` is a wake of both. -/
theorem State.wakeAll_cons {s : State} {chan p : ℕ} {l : List ℕ} (hp : p ∉ l) :
    (s.wakeAll chan [p]).wakeAll chan l = s.wakeAll chan (p :: l) := by
  have hproc : ((s.wakeAll chan [p]).wakeAll chan l).proc = (s.wakeAll chan (p :: l)).proc := by
    funext q
    by_cases hq : q = p
    · subst hq
      simp [State.wakeAll, hp]
    · simp [State.wakeAll, State.asleep, hq]
  simp only [State.wakeAll] at hproc ⊢
  rw [hproc]

theorem State.wakeAll_one (s : State) (chan p : ℕ) : s.wakeAll chan [p] =
    if s.asleep chan p then { s with toKern := s.setProc p { s.proc p with state := .runnable } }
    else s := by
  have hproc : (s.wakeAll chan [p]).proc =
      if s.asleep chan p then Function.update s.proc p { s.proc p with state := .runnable }
      else s.proc := by
    funext q
    by_cases hq : q = p
    · subst hq
      split_ifs with h <;> simp [State.wakeAll, h]
    · split_ifs <;> simp [State.wakeAll, hq]
  simp only [State.wakeAll] at hproc ⊢
  rw [hproc]
  split_ifs <;> rfl

/-- One round wakes its slot if it sleeps on the channel, and counts it. -/
theorem wakeOne_eq (chan p : ℕ) (n : ℤ) (s : State) :
    wakeOne chan n p s =
      .ok (n + if s.asleep chan p then 1 else 0) (s.wakeAll chan [p]) := by
  apply eval_of_sat
  unfold wakeOne
  rw [State.wakeAll_one, sat_bind_eq, sat_get_eq]
  split_ifs with h
  · exact ⟨rfl, rfl⟩
  · exact ⟨(add_zero n).symm, rfl⟩

/-- The loop over any slots: all that sleep on the channel, and their number. -/
theorem foldlM_wakeOne (chan : ℕ) (l : List ℕ) (hl : l.Nodup) (n : ℤ) (s : State) :
    l.foldlM (wakeOne chan) n s =
      .ok (n + (l.countP fun p => s.asleep chan p)) (s.wakeAll chan l) := by
  induction l generalizing n s with
  | nil =>
    change Outcome.ok n s = _
    simp
  | cons p l ih =>
    obtain ⟨hp, hl⟩ := nodup_cons.mp hl
    have hrest := ih hl (n + if s.asleep chan p then 1 else 0) (s.wakeAll chan [p])
    have hcount : (l.countP fun q => decide ((s.wakeAll chan [p]).asleep chan q)) =
        l.countP fun q => decide (s.asleep chan q) := by
      apply countP_congr
      intro q hq
      have hqp : q ∉ [p] := by
        rintro hmem
        exact hp (mem_singleton.mp hmem ▸ hq)
      simp only [State.asleep_wakeAll hqp]
    rw [foldlM_cons]
    change M.bind (wakeOne chan n p) (fun a => l.foldlM (wakeOne chan) a) s = _
    unfold M.bind
    rw [wakeOne_eq]
    dsimp only
    rw [hrest, hcount, State.wakeAll_cons hp, countP_cons]
    by_cases h : s.asleep chan p
    · simp [h, add_assoc, add_comm]
    · simp [h]

theorem wakeupfutex_eq (chan : ℕ) (s : State) : wakeupfutex chan s =
    .ok ((range NPROC).countP fun p => s.asleep chan p) (s.wakeAll chan (range NPROC)) := by
  unfold wakeupfutex wakeupfutex1
  rw [foldlM_wakeOne chan _ nodup_range, zero_add]

/-- The address that the process in slot `i` passes to `futex_wake`. -/
def State.arg (s : State) (i : ℕ) : Option ℕ := argptr (i = 0) (s.proc i) (s.byte i) 0 4

/-- What a call that returns does: nothing where the address is rejected, and else it wakes all
that sleep on it and returns their number. -/
def State.Wake (s : State) (i : ℕ) (r : ℤ) (t : State) : Prop :=
  match s.arg i with
  | none => r = -1 ∧ t = s
  | some loc =>
    r = ((range NPROC).countP fun p => s.asleep loc p) ∧ t = s.wakeAll loc (range NPROC)

theorem sysFutexWake_sat (s : State) (i : ℕ) :
    Sat (sysFutexWake i) s (s.Wake i) (fun t => t = s) (fun _ _ => False) := by
  unfold sysFutexWake getptr getint State.Wake
  simp only [sat_bind_eq, sat_get_eq]
  cases ha : argint (i = 0) (s.proc i) (s.byte i) 0 with
  | none =>
    have harg : s.arg i = none := by simp only [State.arg, argptr, ha]
    rw [harg]
    exact ⟨rfl, rfl⟩
  | some v =>
    unfold loadint
    simp only [sat_bind_eq, sat_get_eq]
    split_ifs
    · change Sat (match s.arg i with | none => _ | some loc => _) s _ _ _
      cases s.arg i with
      | none => exact ⟨rfl, rfl⟩
      | some loc =>
        change Sat (wakeupfutex loc) s _ _ _
        unfold Sat
        rw [wakeupfutex_eq]
        exact ⟨rfl, rfl⟩
    · exact rfl

theorem State.arg_lt {s : State} {i loc : ℕ} (h : s.arg i = some loc) : loc < (s.proc i).sz := by
  unfold State.arg argptr at h
  split at h
  · cases h
  · split_ifs at h with h1 h2
    obtain rfl := Option.some.inj h
    omega

/-- The physical byte under address `va` of slot `i`: its frame, and where in it. -/
def State.cell (s : State) (i va : ℕ) : Option (ℕ × ℕ) := (s.frame i va).map (·, va % PGSIZE)

/-- Slot `j` waits on the physical word that `loc` names in the page table of slot `i`. -/
def State.waitsOn (s : State) (i loc j : ℕ) : Prop :=
  (s.proc j).state = .sleeping ∧
    ∀ k < 4, ∃ c, s.cell i (loc + k) = some c ∧ s.cell j (s.chan j + k) = some c

/-- Some page of the memory of slot `i` is a page of slot `j` too. -/
def State.shares (s : State) (i j : ℕ) : Prop :=
  ∃ u < (s.proc i).sz, ∃ v f, s.frame i u = some f ∧ s.frame j v = some f

/-- A call of `futex_wake` by slot `i`, from `s` to `t` with result `r`, is isolated: whomever it
changes, or counts in the result, waits on the word it names, and processes that share no memory
with the caller are as before. -/
structure Isolated (s : State) (i : ℕ) (r : ℤ) (t : State) : Prop where
  woken : ∀ j, t.proc j ≠ s.proc j → ∃ loc, s.arg i = some loc ∧ s.waitsOn i loc j
  counted : r = -1 ∨ ∃ loc, s.arg i = some loc ∧
    ∃ ws : Finset ℕ, r = ws.card ∧ ∀ j ∈ ws, j < NPROC ∧ s.waitsOn i loc j
  apart : ∀ j, ¬ s.shares i j → t.proc j = s.proc j ∧ t.chan j = s.chan j

theorem State.shares_of_waitsOn {s : State} {i loc j : ℕ} (hl : loc < (s.proc i).sz)
    (h : s.waitsOn i loc j) : s.shares i j := by
  obtain ⟨c, hi, hj⟩ := h.2 0 (by omega)
  obtain ⟨f, hf, rfl⟩ := Option.map_eq_some_iff.mp hi
  obtain ⟨g, hg, hfg⟩ := Option.map_eq_some_iff.mp hj
  obtain rfl : g = f := congrArg Prod.fst hfg
  exact ⟨loc, hl, s.chan j, g, hf, hg⟩

theorem State.wakeAll_ne {s : State} {chan j : ℕ} {l : List ℕ}
    (h : (s.wakeAll chan l).proc j ≠ s.proc j) : j ∈ l ∧ s.asleep chan j := by
  by_contra hn
  exact h (if_neg hn)

/-- A call of `futex_wake` is isolated exactly when all who sleep on the address it passes wait on
the word that the address names in the caller's page table. -/
theorem futex_wake_isolated_iff (s : State) (i : ℕ) (r : ℤ) (t : State)
    (h : sysFutexWake i s = .ok r t) :
    Isolated s i r t ↔
      ∀ loc, s.arg i = some loc → ∀ j < NPROC, s.asleep loc j → s.waitsOn i loc j := by
  have hw := sat_ok (sysFutexWake_sat s i) h
  unfold State.Wake at hw
  constructor
  · intro hi loc hloc j hj hs
    rw [hloc] at hw
    have hne : t.proc j ≠ s.proc j := by
      rw [hw.2]
      intro he
      have hrun := congrArg Proc.state he
      simp [State.wakeAll, hj, hs, hs.1] at hrun
    obtain ⟨loc', hloc', hwait⟩ := hi.woken j hne
    obtain rfl := Option.some.inj (hloc.symm.trans hloc')
    exact hwait
  · intro hc
    cases hloc : s.arg i with
    | none =>
      rw [hloc] at hw
      obtain ⟨hr, rfl⟩ := hw
      exact ⟨fun j hj => (hj rfl).elim, .inl hr, fun j _ => ⟨rfl, rfl⟩⟩
    | some loc =>
      rw [hloc] at hw
      obtain ⟨hr, rfl⟩ := hw
      have hwoken : ∀ j, (s.wakeAll loc (range NPROC)).proc j ≠ s.proc j → s.waitsOn i loc j := by
        intro j hj
        obtain ⟨hmem, hs⟩ := State.wakeAll_ne hj
        exact hc loc hloc j (mem_range.mp hmem) hs
      refine ⟨fun j hj => ⟨loc, hloc, hwoken j hj⟩, .inr ⟨loc, hloc, ?_⟩, fun j hj => ⟨?_, rfl⟩⟩
      · refine ⟨(Finset.range NPROC).filter (s.asleep loc), ?_, ?_⟩
        · rw [hr, countP_eq_length_filter]
          rfl
        · intro j hj
          obtain ⟨hlt, hs⟩ := Finset.mem_filter.mp hj
          exact ⟨Finset.mem_range.mp hlt, hc loc hloc j (Finset.mem_range.mp hlt) hs⟩
      · by_contra hne
        exact hj (State.shares_of_waitsOn (State.arg_lt hloc) (hwoken j hne))

/-- A process after `exec` of a one-page program, about to make a system call. -/
def caller (pgdir : ℕ) : Proc :=
  { state := .running, pgdir := pgdir, stacklastpg := 0x2000, guardpg := 0x103000
    stacktop := 0x105000, shmbreak := 0x105000, shmnextpg := 0x105000, shmtop := 0x1105000
    sz := 0x1105000, esp := 0x104f00 }

/-- Two such processes, in slots 1 and 2 with page directories 1001 and 1002. Their stack pages
are the frames `f` and `g`, and on each stack lie the arguments `0x104f80` and 0. -/
def pair (f g : ℕ) : State :=
  { reset with
    proc := fun i => if i = 1 then caller 1001 else if i = 2 then caller 1002 else {}
    ptab := fun d k => if k = 0 then d + 100 else 0
    pte := fun d v =>
      if v = 0x104 then { p := true, w := true, u := true, ppn := if d = 1001 then f else g } else {}
    mem := fun _ => overlay (fun _ => 0) 0xf04 (le 4 0x104f80)
    chan := fun _ => 0 }

/-- Slot `i` asleep on `0x104f80`. -/
def State.dozing (s : State) (i : ℕ) : State :=
  { s with
    toKern := s.setProc i { s.proc i with state := .sleeping }
    chan := Function.update s.chan i 0x104f80 }

/-- The only page of slots 1 and 2 is the one of the stack. -/
theorem frame_dozing {f g h va : ℕ} : (((pair f g).dozing 1).frame 1 va = some h → h = f) ∧
    (((pair f g).dozing 1).frame 2 va = some h → h = g) := by
  constructor <;>
  · intro hf
    by_cases hv : va / PGSIZE = 0x104
    · simp [Kern.frame, Kern.entry, State.dozing, Kern.setProc, pair, caller, hv, NPTENTRIES] at hf
      exact hf.symm
    · simp [Kern.frame, Kern.entry, State.dozing, Kern.setProc, pair, caller, hv] at hf

/-- With one shared stack page the wake is isolated: it reaches the one process that waits. -/
theorem futex_wake_isolated_shared :
    ∃ t, sysFutexWake 2 ((pair 2000 2000).dozing 1) = .ok 1 t ∧
      Isolated ((pair 2000 2000).dozing 1) 2 1 t := by
  refine ⟨_, rfl, (futex_wake_isolated_iff _ _ _ _ rfl).mpr ?_⟩
  intro loc hloc j hj hs
  have harg : ((pair 2000 2000).dozing 1).arg 2 = some 0x104f80 := by decide +kernel
  obtain rfl := Option.some.inj (harg.symm.trans hloc)
  have hj1 : ∀ j < NPROC, ((pair 2000 2000).dozing 1).asleep 0x104f80 j → j = 1 := by decide +kernel
  obtain rfl := hj1 j hj hs
  have hword : ∀ k < 4, ((pair 2000 2000).dozing 1).cell 2 (0x104f80 + k) = some (2000, 0xf80 + k) ∧
      ((pair 2000 2000).dozing 1).cell 1 (0x104f80 + k) = some (2000, 0xf80 + k) := by decide +kernel
  exact ⟨hs.1, fun k hk => ⟨_, hword k hk⟩⟩

/-- Two processes that share no page: a `futex_wait` by one, then a `futex_wake` by the other
on the same address, which wakes it. -/
theorem futex_wake_reaches_stranger :
    ∃ s t, sysFutexWait 1 (pair 2000 3000) = .ok 0 s ∧ sysFutexWake 2 s = .ok 1 t ∧
      ¬ s.shares 2 1 ∧ (s.proc 1).state = .sleeping ∧ (t.proc 1).state = .runnable ∧
      ¬ Isolated s 2 1 t := by
  have hapart : ¬ ((pair 2000 3000).dozing 1).shares 2 1 := by
    rintro ⟨u, hu, v, f, h2, h1⟩
    have hf := frame_dozing.2 h2
    have hf' := frame_dozing.1 h1
    omega
  refine ⟨(pair 2000 3000).dozing 1, _, rfl, rfl, hapart, rfl, rfl, ?_⟩
  intro hi
  have hsame := congrArg Proc.state (hi.apart 1 hapart).1
  exact absurd hsame (by decide +kernel)

end Xv6.Futex

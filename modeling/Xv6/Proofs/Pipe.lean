import Xv6.Lib.Window
import Xv6.Spec.Pipe
import Mathlib.Tactic.Common

namespace Xv6.Pipes

open Trace Window List

variable {P : Type} {p : Pipe} {sent : List UInt8} {R i k : ℕ} {addr : ℕ → UInt8}

theorem sizes : Sizes PIPESIZE (2 ^ 32) := ⟨by decide, by decide, by decide⟩

/-- The pipe holds the bytes of the stream `sent` from the `R`-th on. -/
def Pipe.Holds (p : Pipe) (sent : List UInt8) (R : ℕ) : Prop :=
  Window.Holds PIPESIZE (2 ^ 32) p.data p.nread p.nwrite sent R

theorem Pipe.Holds.full_iff (h : p.Holds sent R) : p.isFull = true ↔ sent.length = R + PIPESIZE := by
  rw [← Window.Holds.full_iff sizes h, Pipe.isFull, decide_eq_true_iff]
  rfl

theorem Pipe.Holds.empty_iff (h : p.Holds sent R) : p.isEmpty = true ↔ R = sent.length := by
  rw [← Window.Holds.empty_iff sizes h, Pipe.isEmpty, decide_eq_true_iff]

theorem Pipe.Holds.put (h : p.Holds sent R) (hf : p.isFull = false) (b : UInt8) :
    (p.put b).Holds (sent ++ [b]) R := by
  have hlt : sent.length < R + PIPESIZE := by
    have hne : sent.length ≠ R + PIPESIZE := fun he => by simp [h.full_iff.2 he] at hf
    have := h.room
    omega
  exact Window.Holds.push sizes h hlt

theorem Pipe.Holds.take (h : p.Holds sent R) (he : p.isEmpty = false) :
    sent[R]? = some (p.data (p.nread % PIPESIZE)) ∧ p.take.Holds sent (R + 1) := by
  have hlt : R < sent.length := by
    have hne : R ≠ sent.length := fun hr => by simp [h.empty_iff.2 hr] at he
    have := h.le
    omega
  exact ⟨Window.Holds.front sizes h hlt, Window.Holds.pop h hlt⟩

theorem Pipe.Holds.count (h : p.Holds sent R) : sub32 p.nwrite p.nread = sent.length - R :=
  Window.Holds.count sizes h

theorem Pipe.Holds.contents (h : p.Holds sent R) : p.contents = sent.drop R := by
  have hle := h.le
  apply ext_getElem?
  intro j
  rw [Pipe.contents, h.count, getElem?_map, getElem?_drop]
  rcases Nat.lt_or_ge j (sent.length - R) with hj | hj
  · have hcell : u32 (p.nread + j) % PIPESIZE = (R + j) % PIPESIZE := by
      rw [u32, Nat.mod_mod_of_dvd _ sizes.dvd, h.r_eq, Nat.add_mod, Nat.mod_mod_of_dvd _ sizes.dvd,
        ← Nat.add_mod]
    rw [getElem?_range hj, h.cell (R + j) (by omega) (by omega), ← hcell]
    rfl
  · rw [getElem?_eq_none (by simpa using hj), getElem?_eq_none (by omega)]
    rfl

/-- What the loop of `pipewrite` leaves: it stops early only at a full pipe. -/
structure Filled (p : Pipe) (sent : List UInt8) (R k : ℕ) (r : Pipe × List UInt8) : Prop where
  holds : r.1.Holds (sent ++ r.2) R
  readopen : r.1.readopen = p.readopen
  writeopen : r.1.writeopen = p.writeopen
  le : r.2.length ≤ k
  full : r.2.length < k → r.1.isFull = true
  stuck : p.isFull = true → r = (p, [])

theorem Pipe.fill_filled (h : p.Holds sent R) : Filled p sent R k (p.fill addr i k) := by
  induction k generalizing p sent i with
  | zero => exact ⟨by simpa [Pipe.fill] using h, rfl, rfl, le_rfl, fun h => by simp at h, fun _ => rfl⟩
  | succ k ih =>
    by_cases hf : p.isFull = true
    · have he : p.fill addr i (k + 1) = (p, []) := by simp only [Pipe.fill, hf, if_true]
      rw [he]
      exact ⟨by simpa using h, rfl, rfl, Nat.zero_le _, fun _ => hf, fun _ => rfl⟩
    · have he : p.fill addr i (k + 1) = (((p.put (addr i)).fill addr (i + 1) k).1,
          addr i :: ((p.put (addr i)).fill addr (i + 1) k).2) := by
        simp only [Pipe.fill, if_neg hf]
      have hr := ih (i := i + 1) (h.put (by simpa using hf) (addr i))
      rw [he]
      refine ⟨by simpa using hr.holds, hr.readopen, hr.writeopen, by simpa using hr.le, fun hlt => hr.full ?_,
        fun hp => absurd hp hf⟩
      simpa using hlt

structure Drained (p : Pipe) (sent : List UInt8) (R k : ℕ) (r : Pipe × List UInt8) : Prop where
  holds : r.1.Holds sent (R + r.2.length)
  readopen : r.1.readopen = p.readopen
  writeopen : r.1.writeopen = p.writeopen
  bytes : sent.take R ++ r.2 = sent.take (R + r.2.length)
  nil : r.2 = [] → k = 0 ∨ p.isEmpty = true
  stuck : p.isEmpty = true → r = (p, [])

theorem Pipe.drain_drained (h : p.Holds sent R) : Drained p sent R k (p.drain k) := by
  induction k generalizing p R with
  | zero => exact ⟨by simpa [Pipe.drain] using h, rfl, rfl, by simp [Pipe.drain], fun _ => .inl rfl, fun _ => rfl⟩
  | succ k ih =>
    by_cases he : p.isEmpty = true
    · have heq : p.drain (k + 1) = (p, []) := by simp only [Pipe.drain, he, if_true]
      rw [heq]
      exact ⟨by simpa using h, rfl, rfl, by simp, fun _ => .inr he, fun _ => rfl⟩
    · have heq : p.drain (k + 1) = ((p.take.drain k).1, p.data (p.nread % PIPESIZE) :: (p.take.drain k).2) := by
        simp only [Pipe.drain, if_neg he]
      obtain ⟨hb, ht⟩ := h.take (by simpa using he)
      have hr := ih ht
      have hlen : R + (p.data (p.nread % PIPESIZE) :: (p.take.drain k).2).length
          = R + 1 + (p.take.drain k).2.length := by
        rw [length_cons]
        omega
      rw [heq]
      refine ⟨?_, hr.readopen, hr.writeopen, ?_, fun hn => by simp at hn, fun hp => absurd hp he⟩
      · rw [hlen]
        exact hr.holds
      · rw [hlen, ← hr.bytes, take_add_one, hb]
        simp

section

variable (s : State P)

variable [DecidableEq P]

@[simp] theorem goto_pipe (q : P) (c : Pc) : (s.goto q c).pipe = s.pipe := rfl
@[simp] theorem sleep_pipe (q : P) (c : Pc) (raced : Bool) : (s.sleep q c raced).pipe = s.pipe := rfl
@[simp] theorem kill_pipe (q : P) : (s.kill q).pipe = s.pipe := rfl

theorem goto_pc (q r : P) (c : Pc) : ((s.goto q c).proc r).pc = if r = q then c else (s.proc r).pc := by
  by_cases h : r = q
  · subst h
    simp [State.goto]
  · simp [State.goto, h]

theorem sleep_pc (q r : P) (c : Pc) (raced : Bool) :
    ((s.sleep q c raced).proc r).pc = if r = q then c else (s.proc r).pc := by
  by_cases h : r = q
  · subst h
    simp [State.sleep]
  · simp [State.sleep, h]

theorem kill_pc (q r : P) :
    ((s.kill q).proc r).pc = if r = q then (s.proc r).pc.wakeRead.wakeWrite else (s.proc r).pc := by
  by_cases h : r = q
  · subst h
    simp [State.kill]
  · simp [State.kill, h]

end

variable [DecidableEq P] {s s' : State P} {e : Act P × Out} {es : List (Act P × Out)} {q : P} {raced : Bool} {n : ℤ}
  {o : State P × Out} {c : Pc}

/-- What a step does to the bytes in the pipe. -/
inductive Flow (p : Pipe) (o : Out) (p' : Pipe) : Prop where
  | none (hs : o.stored = []) (hd : o.delivered = []) (hdata : p'.data = p.data) (hr : p'.nread = p.nread)
      (hw : p'.nwrite = p.nwrite)
  | fill (addr : ℕ → UInt8) (i k : ℕ) (hp : (p', o.stored) = p.fill addr i k) (hd : o.delivered = [])
  | drain (k : ℕ) (hs : o.stored = []) (hp : (p', o.delivered) = p.drain k)

/-- The three ways in which a section of `pipewrite` ends. -/
inductive Wrote (s : State P) (q : P) (raced : Bool) (n : ℤ) (i : ℕ) (r : Pipe × List UInt8) :
    State P × Out → Prop where
  | all (h : n.toNat ≤ i + r.2.length) :
      Wrote s q raced n i r ({ s with pipe := r.1 }.wakeRead.goto q .out, { stored := r.2, ret := some n })
  | fails (h : i + r.2.length < n.toNat) (hk : r.1.readopen = false ∨ (s.proc q).killed = true) :
      Wrote s q raced n i r ({ s with pipe := r.1 }.goto q .out, { stored := r.2, ret := some (-1) })
  | sleeps (h : i + r.2.length < n.toNat) (ho : r.1.readopen = true) (hk : (s.proc q).killed = false) :
      Wrote s q raced n i r
        ({ s with pipe := r.1 }.wakeRead.sleep q (.full n (i + r.2.length)) raced, { stored := r.2 })

theorem pipewrite_wrote (q : P) (addr : ℕ → UInt8) (raced : Bool) (n : ℤ) (i : ℕ) :
    Wrote s q raced n i (s.pipe.fill addr i (n.toNat - i)) (s.pipewrite q addr raced n i) := by
  unfold State.pipewrite
  dsimp only
  split_ifs with h hk
  · exact .all h
  · exact .fails (Nat.lt_of_not_le h) hk
  · rw [not_or, Bool.not_eq_false, Bool.not_eq_true] at hk
    exact .sleeps (Nat.lt_of_not_le h) hk.1 hk.2

inductive Took (s : State P) (q : P) (raced : Bool) (n : ℤ) : State P × Out → Prop where
  | killed (he : s.pipe.isEmpty = true) (ho : s.pipe.writeopen = true) :
      Took s q raced n (s.goto q .out, { ret := some (-1) })
  | sleeps (he : s.pipe.isEmpty = true) (ho : s.pipe.writeopen = true) :
      Took s q raced n (s.sleep q (.empty n) raced, {})
  | takes (he : s.pipe.isEmpty = true → s.pipe.writeopen = false) (r : Pipe × List UInt8)
      (hr : r = s.pipe.drain n.toNat) :
      Took s q raced n
        ({ s with pipe := r.1 }.wakeWrite.goto q .out, { delivered := r.2, ret := some (r.2.length : ℤ) })

theorem piperead_took (q : P) (raced : Bool) (n : ℤ) : Took s q raced n (s.piperead q raced n) := by
  unfold State.piperead
  split_ifs with h hk
  · exact .killed h.1 h.2
  · exact .sleeps h.1 h.2
  · exact .takes (fun he => Bool.not_eq_true _ ▸ fun ho => h ⟨he, ho⟩) _ rfl

theorem Wrote.flow (h : Wrote s q raced n i (s.pipe.fill addr i k) o) : Flow s.pipe o.2 o.1.pipe := by
  cases h with
  | all _ => exact .fill addr i k rfl rfl
  | fails _ _ => exact .fill addr i k rfl rfl
  | sleeps _ _ _ => exact .fill addr i k rfl rfl

theorem Took.flow (h : Took s q raced n o) : Flow s.pipe o.2 o.1.pipe := by
  cases h with
  | killed => exact .none rfl rfl rfl rfl rfl
  | sleeps => exact .none rfl rfl rfl rfl rfl
  | takes _ r hr => exact .drain n.toNat rfl hr

theorem Step.flow (h : Step s e s') : Flow s.pipe e.2 s'.pipe := by
  cases h with
  | write => exact .none rfl rfl rfl rfl rfl
  | read => exact .none rfl rfl rfl rfl rfl
  | runWrite => exact (pipewrite_wrote ..).flow
  | runRead => exact (piperead_took ..).flow
  | closeWrite => exact .none rfl rfl rfl rfl rfl
  | closeRead => exact .none rfl rfl rfl rfl rfl
  | kill => exact .none rfl rfl rfl rfl rfl

omit [DecidableEq P] in
theorem stored_snoc : stored (es ++ [e]) = stored es ++ e.2.stored := by
  simp [stored]

omit [DecidableEq P] in
theorem delivered_snoc : delivered (es ++ [e]) = delivered es ++ e.2.delivered := by
  simp [delivered]

/-- The bytes delivered in a run are the first of those stored, the pipe holds the others. -/
def Piped (es : List (Act P × Out)) (s : State P) : Prop :=
  ∃ R, s.pipe.Holds (stored es) R ∧ delivered es = (stored es).take R

theorem Piped.step (h : Piped es s) (hs : Step s e s') : Piped (es ++ [e]) s' := by
  obtain ⟨R, hh, hd⟩ := h
  unfold Piped
  rw [stored_snoc, delivered_snoc]
  cases hs.flow with
  | none hst hde hdata hr hw =>
    refine ⟨R, ?_, by simpa [hst, hde] using hd⟩
    rw [hst, append_nil, Pipe.Holds, hdata, hr, hw]
    exact hh
  | fill addr i k hp hde =>
    have hf : Filled s.pipe (stored es) R k (s.pipe.fill addr i k) := Pipe.fill_filled hh
    rw [← hp] at hf
    refine ⟨R, hf.holds, ?_⟩
    rw [hde, append_nil, hd, take_append_of_le_length hh.le]
  | drain k hst hp =>
    have hf := Pipe.drain_drained (k := k) hh
    rw [← hp] at hf
    refine ⟨R + e.2.delivered.length, ?_, ?_⟩
    · rw [hst, append_nil]
      exact hf.holds
    · rw [hst, append_nil, hd]
      exact hf.bytes

theorem Run.piped (h : Run (system P) es s) : Piped es s := by
  apply h.invariant
  · intro s h0
    obtain ⟨⟨data, hp⟩, -⟩ := h0
    refine ⟨0, ?_, rfl⟩
    rw [hp]
    exact Window.Holds.empty
  · intro es s e s' _ hi hs
    exact hi.step hs

theorem Took.eof (hp : s.pipe.Holds sent R) (h : Took s q raced n o) (hn : 0 < n) (hr : o.2.ret = some 0) :
    s.pipe.nread = s.pipe.nwrite ∧ s.pipe.writeopen = false := by
  cases h with
  | killed => simp at hr
  | sleeps => simp at hr
  | takes he r hd =>
    have hnil : r.2 = [] := by simpa using hr
    have hd' := Pipe.drain_drained (k := n.toNat) hp
    rw [← hd] at hd'
    have hemp : s.pipe.isEmpty = true := (hd'.nil hnil).resolve_left (by omega)
    exact ⟨of_decide_eq_true hemp, he hemp⟩

/-- A pipe is a queue of at most `PIPESIZE` bytes over all interleavings, also when the counters wrap: what
was delivered and what the pipe holds is what was stored, in order. A read of `n > 0` returns 0 at the end
of the stream only. -/
theorem pipe_fifo {es : List (Act P × Out)} {s : State P} (h : Run (system P) es s) :
    sub32 s.pipe.nwrite s.pipe.nread ≤ PIPESIZE ∧
      delivered es <+: stored es ∧ delivered es ++ s.pipe.contents = stored es ∧
      ∀ q addr raced n o s', (s.proc q).pc = .read n → 0 < n → o.ret = some 0 →
        (system P).step s (.run q addr raced, o) s' →
        s.pipe.nread = s.pipe.nwrite ∧ s.pipe.writeopen = false := by
  obtain ⟨R, hp, hd⟩ := Run.piped h
  have hroom := hp.room
  refine ⟨?_, ?_, ?_, fun q addr raced n o s' hq hn hr hs => ?_⟩
  · rw [hp.count]
    omega
  · rw [hd]
    exact take_prefix R _
  · rw [hd, hp.contents, take_append_drop]
  · cases hs with
    | runWrite hw => simp [hw] at hq
    | runRead hq' =>
      obtain rfl : _ = n := by simpa [hq'] using hq
      exact (piperead_took ..).eof hp hn hr

theorem pipe_fifo_write_read : ∃ es s, Run (system (Fin 2)) es s ∧ stored es = [7, 8] ∧ delivered es = [7] ∧
    delivered es ++ s.pipe.contents = stored es := by
  have h0 : Run (system (Fin 2)) [] ⟨Pipe.alloc fun _ => 0, fun _ => {}⟩ := .start ⟨⟨_, rfl⟩, fun _ => rfl⟩
  have h1 := h0.snoc (Step.read (q := 0) (n := 1) rfl rfl)
  have h2 := h1.snoc (Step.write (q := 1) (n := 2) rfl rfl)
  have h3 := h2.snoc (@Step.runWrite _ _ _ 1 (fun i => if i = 0 then 7 else 8) false 2 0 rfl)
  have h4 := h3.snoc (@Step.runRead _ _ _ 0 (fun _ => 0) false 1 rfl)
  exact ⟨_, _, h4, by decide +kernel, by decide +kernel, (pipe_fifo h4).2.2.1⟩

/-! ### Sleepers -/

/-- Who sleeps on the pipe has a reason to. -/
structure Quiet (s : State P) : Prop where
  empty : ∀ q n, (s.proc q).pc = .empty n → s.pipe.isEmpty = true ∧ s.pipe.writeopen = true
  full : ∀ q n i, (s.proc q).pc = .full n i → s.pipe.isFull = true ∧ s.pipe.readopen = true
  readers : s.pipe.readopen = false → ∀ q, (s.proc q).pc.reads = false

theorem wakeRead_ne_empty (c : Pc) (n : ℤ) : c.wakeRead ≠ .empty n := by
  cases c <;> simp [Pc.wakeRead]

theorem wakeWrite_ne_full (c : Pc) (n : ℤ) (i : ℕ) : c.wakeWrite ≠ .full n i := by
  cases c <;> simp [Pc.wakeWrite]

@[simp] theorem wakeRead_eq_full : c.wakeRead = .full n i ↔ c = .full n i := by
  cases c <;> simp [Pc.wakeRead]

@[simp] theorem wakeWrite_eq_empty : c.wakeWrite = .empty n ↔ c = .empty n := by
  cases c <;> simp [Pc.wakeWrite]

@[simp] theorem wakeRead_reads (c : Pc) : c.wakeRead.reads = c.reads := by
  cases c <;> rfl

@[simp] theorem wakeWrite_reads (c : Pc) : c.wakeWrite.reads = c.reads := by
  cases c <;> rfl

/-- One process goes to a place where it may be, all others stay where they are. -/
theorem Quiet.move (h : Quiet s) (hp : s'.pipe = s.pipe)
    (hpc : ∀ r, (s'.proc r).pc = if r = q then c else (s.proc r).pc)
    (he : ∀ n, c = .empty n → s.pipe.isEmpty = true ∧ s.pipe.writeopen = true)
    (hf : ∀ n i, c = .full n i → s.pipe.isFull = true ∧ s.pipe.readopen = true)
    (hr : s.pipe.readopen = false → c.reads = false) : Quiet s' := by
  refine ⟨fun r n hn => ?_, fun r n i hn => ?_, fun ho r => ?_⟩
  · rw [hpc] at hn
    rw [hp]
    split_ifs at hn
    · exact he n hn
    · exact h.empty r n hn
  · rw [hpc] at hn
    rw [hp]
    split_ifs at hn
    · exact hf n i hn
    · exact h.full r n i hn
  · rw [hp] at ho
    rw [hpc]
    split_ifs
    · exact hr ho
    · exact h.readers ho r

theorem Quiet.out (h : Quiet s) (q : P) : Quiet (s.goto q .out) := by
  apply h.move (goto_pipe s q _) (goto_pc s q · .out)
  · intro n hn
    simp at hn
  · intro n i hn
    simp at hn
  · intro _
    rfl

theorem Quiet.kill (h : Quiet s) (q : P) : Quiet (s.kill q) := by
  have hpc : ∀ r, ((s.kill q).proc r).pc = if r = q then (s.proc q).pc.wakeRead.wakeWrite else (s.proc r).pc := by
    intro r
    rw [kill_pc]
    split_ifs with hr
    · rw [hr]
    · rfl
  apply h.move (kill_pipe s q) hpc
  · intro n hn
    exact absurd (wakeWrite_eq_empty.1 hn) (wakeRead_ne_empty _ n)
  · intro n i hn
    exact absurd hn (wakeWrite_ne_full _ n i)
  · intro ho
    simpa using h.readers ho q

omit [DecidableEq P] in
theorem Quiet.closeWrite (h : Quiet s) (hq : ∀ q, (s.proc q).pc.writes = false) : Quiet (s.pipeclose true) := by
  refine ⟨fun r n hn => ?_, fun r n i hn => ?_, fun ho r => ?_⟩
  · exact absurd hn (wakeRead_ne_empty _ n)
  · have hw := hq r
    rw [wakeRead_eq_full.1 hn] at hw
    simp [Pc.writes] at hw
  · exact (wakeRead_reads _).trans (h.readers ho r)

omit [DecidableEq P] in
theorem Quiet.closeRead (hq : ∀ q, (s.proc q).pc.reads = false) : Quiet (s.pipeclose false) := by
  refine ⟨fun r n hn => ?_, fun r n i hn => ?_, fun _ r => ?_⟩
  · have hw := hq r
    rw [wakeWrite_eq_empty.1 hn] at hw
    simp [Pc.reads] at hw
  · exact absurd hn (wakeWrite_ne_full _ n i)
  · exact (wakeWrite_reads _).trans (hq r)

section

variable {r : Pipe × List UInt8} {q : P} {n : ℤ}

omit [DecidableEq P] in
theorem Quiet.filled_full (h : Quiet s) (hf : Filled s.pipe sent R k r)
    (hq : (s.proc q).pc = .full n i) : r.1.isFull = true ∧ r.1.readopen = true := by
  obtain ⟨hfull, ho⟩ := h.full q n i hq
  rw [hf.stuck hfull]
  exact ⟨hfull, ho⟩

omit [DecidableEq P] in
theorem Quiet.filled_wake (h : Quiet s) (hf : Filled s.pipe sent R k r) :
    Quiet { s with pipe := r.1 }.wakeRead := by
  refine ⟨fun q n hn => ?_, fun q n i hn => ?_, fun ho q => ?_⟩
  · exact absurd hn (wakeRead_ne_empty _ n)
  · exact h.filled_full hf (wakeRead_eq_full.1 hn)
  · exact (wakeRead_reads _).trans (h.readers (hf.readopen ▸ ho) q)

omit [DecidableEq P] in
theorem Quiet.filled (h : Quiet s) (hf : Filled s.pipe sent R k r) (he : ∀ q n, (s.proc q).pc ≠ .empty n) :
    Quiet { s with pipe := r.1 } := by
  refine ⟨fun q n hn => ?_, fun q n i hn => ?_, fun ho q => ?_⟩
  · exact absurd hn (he q n)
  · exact h.filled_full hf hn
  · exact h.readers (hf.readopen ▸ ho) q

/-- The bytes that a section which stops at a full pipe has stored are those there was room for. -/
theorem Filled.short (hp : p.Holds sent R) (hf : Filled p sent R k r) (hk : r.2.length < k) :
    PIPESIZE - sub32 p.nwrite p.nread < k := by
  have hfull := hf.holds.full_iff.1 (hf.full hk)
  rw [length_append] at hfull
  rw [hp.count]
  have := hp.le
  omega

theorem Wrote.quiet (hp : s.pipe.Holds sent R) (h : Quiet s)
    (hf : Filled s.pipe sent R (n.toNat - i) r) (hw : Wrote s q raced n i r o)
    (hc : (s.proc q).killed = true → s.pipe.readopen = true →
      PIPESIZE - sub32 s.pipe.nwrite s.pipe.nread < n.toNat - i → ∀ x m, (s.proc x).pc ≠ .empty m) :
    Quiet o.1 := by
  cases hw with
  | all _ => exact (h.filled_wake hf).out q
  | fails hlt hk =>
    apply Quiet.out
    apply h.filled hf
    intro x m hx
    by_cases ho : s.pipe.readopen = true
    · have hk : (s.proc q).killed = true := hk.resolve_left (by simp [hf.readopen, ho])
      exact hc hk ho (hf.short hp (by omega)) x m hx
    · have hr := h.readers (by simpa using ho) x
      rw [hx] at hr
      simp [Pc.reads] at hr
  | sleeps hlt ho _ =>
    apply (h.filled_wake hf).move (sleep_pipe _ q _ raced) (sleep_pc _ q · _ raced)
    · intro n hn
      simp at hn
    · intro _ _ _
      exact ⟨hf.full (by omega), ho⟩
    · intro _
      rfl

end

theorem Took.quiet (hp : s.pipe.Holds sent R) (h : Quiet s)
    (hq : (s.proc q).pc = .read n) (ht : Took s q raced n o) : Quiet o.1 := by
  have hopen : s.pipe.readopen ≠ false := by
    intro ho
    have hr := h.readers ho q
    rw [hq] at hr
    simp [Pc.reads] at hr
  cases ht with
  | killed => exact h.out q
  | sleeps he ho =>
    apply h.move (sleep_pipe s q _ raced) (sleep_pc s q · _ raced)
    · intro _ _
      exact ⟨he, ho⟩
    · intro m i hm
      simp at hm
    · intro hr
      exact absurd hr hopen
  | takes he r hr =>
    have hd := Pipe.drain_drained (k := n.toNat) hp
    rw [← hr] at hd
    apply Quiet.out
    refine ⟨fun x m hx => ?_, fun x m i hx => ?_, fun ho x => ?_⟩
    · obtain ⟨hemp, ho⟩ := h.empty x m (wakeWrite_eq_empty.1 hx)
      rw [he hemp] at ho
      simp at ho
    · exact absurd hx (wakeWrite_ne_full _ m i)
    · exact absurd (hd.readopen ▸ ho) hopen

theorem Quiet.step (hp : s.pipe.Holds sent R) (h : Quiet s) (hs : Step s e s') (hc : Calm s e) : Quiet s' := by
  cases hs with
  | @write q n ho hq =>
    apply h.move (goto_pipe s q _) (goto_pc s q · _)
    · intro m hm
      simp at hm
    · intro m i hm
      simp at hm
    · intro _
      rfl
  | @read q n ho hq =>
    apply h.move (goto_pipe s q _) (goto_pc s q · _)
    · intro m hm
      simp at hm
    · intro m i hm
      simp at hm
    · intro hr
      simp [ho] at hr
  | runWrite hq =>
    exact (pipewrite_wrote ..).quiet hp h (Pipe.fill_filled hp) (hc _ _ _ _ _ rfl hq)
  | runRead hq => exact (piperead_took ..).quiet hp h hq
  | closeWrite _ hq => exact h.closeWrite hq
  | closeRead _ hq => exact Quiet.closeRead hq
  | kill => exact h.kill _

theorem Run.quiet (h : Run ((system P).restrict Calm) es s) : Quiet s := by
  apply h.invariant (I := fun _ s => Quiet s)
  · intro s h0
    obtain ⟨⟨data, hp⟩, hq⟩ := h0
    refine ⟨fun q n hn => ?_, fun q n i hn => ?_, fun ho => ?_⟩
    · simp [hq q] at hn
    · simp [hq q] at hn
    · simp [hp, Pipe.alloc] at ho
  · intro es s e s' hr hi hs
    obtain ⟨R, hp, -⟩ := Run.piped hr.of_restrict
    exact hi.step hp hs.2 hs.1

omit [DecidableEq P] in
theorem Quiet.not_stuck (hp : s.pipe.Holds sent R) (h : Quiet s) : ¬ s.Stuck := by
  intro hst
  rcases hst with ⟨q, n, hq, hbad⟩ | ⟨q, n, i, hq, hbad⟩
  · obtain ⟨he, ho⟩ := h.empty q n hq
    have heq : s.pipe.nread = s.pipe.nwrite := of_decide_eq_true he
    simp [heq, ho] at hbad
  · obtain ⟨hf, ho⟩ := h.full q n i hq
    have hlen := hp.full_iff.1 hf
    rw [hp.count, hlen] at hbad
    simp [ho] at hbad

/-- A killed writer that fills the pipe returns without a wakeup. -/
theorem Wrote.stuck {x : P} {m : ℤ} {r : Pipe × List UInt8}
    (hp : s.pipe.Holds sent R) (h : Quiet s) (hf : Filled s.pipe sent R (n.toNat - i) r)
    (hw : Wrote s q raced n i r o) (hk : (s.proc q).killed = true) (hne : x ≠ q)
    (hx : (s.proc x).pc = .empty m) (hlt : PIPESIZE - sub32 s.pipe.nwrite s.pipe.nread < n.toNat - i) :
    o.1.Stuck := by
  -- the pipe is empty, since a reader sleeps, and has room for `PIPESIZE` bytes
  have hR := hp.empty_iff.1 (h.empty x m hx).1
  have hroom := hf.holds.room
  rw [length_append] at hroom
  rw [hp.count] at hlt
  have hshort : r.2.length < n.toNat - i := by omega
  cases hw with
  | all hall => omega
  | sleeps _ _ hk' => simp [hk'] at hk
  | fails _ _ =>
    have hfull := hf.holds.full_iff.1 (hf.full hshort)
    rw [length_append] at hfull
    refine .inl ⟨x, m, ?_, .inl fun heq => ?_⟩
    · rw [goto_pc, if_neg hne]
      exact hx
    · have hr := hf.holds.empty_iff.1 (decide_eq_true heq)
      rw [length_append] at hr
      have : 0 < PIPESIZE := sizes.pos
      omega

/-- From a quiet state the condition is met by exactly the steps that leave nobody stuck. -/
theorem Quiet.stuck_of_not_calm (hp : s.pipe.Holds sent R) (h : Quiet s) (hs : Step s e s') (hc : ¬ Calm s e) :
    s'.Stuck := by
  unfold Calm at hc
  push Not at hc
  obtain ⟨q, addr, raced, n, i, he, hq, hk, -, hlt, x, m, hx⟩ := hc
  have hne : x ≠ q := by
    intro hxq
    rw [hxq, hq] at hx
    simp at hx
  cases hs with
  | @runWrite q' addr' raced' n' i' hq' =>
    obtain ⟨rfl, rfl, rfl⟩ : q' = q ∧ addr' = addr ∧ raced' = raced := by simpa using he
    obtain ⟨rfl, rfl⟩ : n' = n ∧ i' = i := by simpa [hq'] using hq
    exact (pipewrite_wrote ..).stuck hp h (Pipe.fill_filled hp) hk hne hx hlt
  | runRead hq' =>
    obtain ⟨rfl, -⟩ : _ = q ∧ _ := by simpa using he
    simp [hq'] at hq
  | write => simp at he
  | read => simp at he
  | closeWrite => simp at he
  | closeRead => simp at he
  | kill => simp at he

/-- In every run in which no killed writer fills the pipe while a reader sleeps, no process is asleep on a
channel of the pipe with nothing to wait for; and such a writer leaves the reader stuck. -/
theorem no_stuck_pipe_user {es : List (Act P × Out)} {s : State P} (h : Run ((system P).restrict Calm) es s) :
    ¬ s.Stuck ∧ ∀ e s', (system P).step s e s' → (s'.Stuck ↔ ¬ Calm s e) := by
  obtain ⟨R, hp, hd⟩ := Run.piped h.of_restrict
  have hq := Run.quiet h
  refine ⟨hq.not_stuck hp, fun e s' hs => ⟨fun hst hc => ?_, hq.stuck_of_not_calm hp hs⟩⟩
  obtain ⟨R', hp', -⟩ := Piped.step ⟨R, hp, hd⟩ hs
  exact (hq.step hp hs hc).not_stuck hp' hst

theorem no_stuck_pipe_user_read : ∃ es s, Run ((system (Fin 2)).restrict Calm) es s ∧
    (s.proc 0).pc = .empty 1 ∧ ¬ s.Stuck := by
  have h0 : Run ((system (Fin 2)).restrict Calm) [] ⟨Pipe.alloc fun _ => 0, fun _ => {}⟩ :=
    .start ⟨⟨_, rfl⟩, fun _ => rfl⟩
  have h1 := h0.snoc ⟨fun _ _ _ _ _ he => by simp at he, Step.read (q := 0) (n := 1) rfl rfl⟩
  have h2 := h1.snoc ⟨fun q _ _ n i he hq => by
    obtain ⟨rfl, -⟩ : 0 = q ∧ _ := by simpa using he
    simp [goto_pc] at hq, @Step.runRead _ _ _ 0 (fun _ => 0) false 1 rfl⟩
  exact ⟨_, _, h2, rfl, (no_stuck_pipe_user h2).1⟩

/-- Process 0 reads from the new pipe and sleeps; process 1 is killed and then writes more than
`PIPESIZE` bytes: it returns, and process 0 sleeps on. -/
theorem killed_writer_leaves_reader : ∃ es s, Run (system (Fin 2)) es s ∧ s.Stuck := by
  have h0 : Run (system (Fin 2)) [] ⟨Pipe.alloc fun _ => 0, fun _ => {}⟩ := .start ⟨⟨_, rfl⟩, fun _ => rfl⟩
  have h1 := h0.snoc (Step.read (q := 0) (n := 1) rfl rfl)
  have h2 := h1.snoc (@Step.runRead _ _ _ 0 (fun _ => 0) false 1 rfl)
  have h3 := h2.snoc (Step.write (q := 1) (n := 513) rfl rfl)
  have h4 := h3.snoc (Step.kill (q := 1))
  have h5 := h4.snoc (@Step.runWrite _ _ _ 1 (fun _ => 0) false 513 0 rfl)
  exact ⟨_, _, h5, .inl ⟨0, 1, by decide +kernel, .inl (by decide +kernel)⟩⟩

end Xv6.Pipes

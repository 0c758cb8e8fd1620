import Xv6.Spec.Ide
import Mathlib.Data.Fintype.Card

/-! The queue of disk requests over whole runs: requests are started one at a time and in order, each is completed once, and a
buffer comes back with the contents of its block. -/

namespace Xv6.Ide

open Linked Bio Function List Option Trace

variable {s s' : State} {Q : List (Fin NBUF)} {b : Fin NBUF} {p : Fin NPROC} {x y : Buf} {c : Cmd} {as : List Act}

theorem drive_bits : ∀ d < 2, ∀ n < 16, (0xe0 ||| d <<< 4 ||| n) % 16 = n ∧ (0xe0 ||| d <<< 4 ||| n) / 16 % 2 = d := by
  decide

/-- The registers name the block of the buffer. -/
theorem idestart_ok (h : idestart x = .ok c) :
    x.blockno < FSSIZE ∧ c.disk = x.dev % 2 ∧ c.sector = x.blockno ∧ c.write = if x.dirty then some x.data else none := by
  have hlt : x.blockno < FSSIZE := by
    by_contra hno
    rw [idestart, if_pos (Nat.not_lt.1 hno)] at h
    exact absurd h (by simp)
  rw [idestart, if_neg (Nat.not_le.2 hlt)] at h
  obtain rfl := Except.ok.inj h
  have hbits := drive_bits (x.dev % 2) (Nat.mod_lt _ (by decide)) (x.blockno * (BSIZE / SECTOR_SIZE) / 2 ^ 24 % 16)
    (Nat.mod_lt _ (by decide))
  refine ⟨hlt, hbits.2, ?_, rfl⟩
  simp only [Cmd.sector, hbits.1]
  have hone : BSIZE / SECTOR_SIZE = 1 := by decide
  rw [hone]
  unfold FSSIZE at hlt
  omega

theorem idestart_of_lt (h : x.blockno < FSSIZE) : ∃ c, idestart x = .ok c := by
  unfold idestart
  rw [if_neg (Nat.not_le.2 h)]
  exact ⟨_, rfl⟩

/-- What `iderw` waits for. -/
def Buf.ready (x : Buf) : Prop := x.valid = true ∧ x.dirty = false

/-- The command of a buffer is performed: its data are on the disk, or the disk's are in the controller. -/
def Performed (s : State) (x : Buf) : Prop :=
  if x.dirty then s.disk (x.dev % 2) x.blockno = x.data else s.drq = s.disk (x.dev % 2) x.blockno

/-- What holds whenever `idelock` is free. -/
structure Inv (s : State) (Q : List (Fin NBUF)) : Prop where
  chain : Chain s.qnext s.idequeue Q
  nodup : Q.Nodup
  queued : s.queued = s.completed ++ Q
  started : s.started = s.completed ++ Q.head?.toList
  cmd : ∀ c, s.cmd = some c ↔ ∃ b, Q.head? = some b ∧ idestart (s.buf b) = .ok c
  head : ∀ b, Q.head? = some b → ∃ c, idestart (s.buf b) = .ok c
  done : s.done = true → ∃ b, Q.head? = some b ∧ Performed s (s.buf b)
  inj : ∀ p q b, s.proc p = some b → s.proc q = some b → p = q
  waits : ∀ b ∈ Q, (∃ p, s.proc p = some b) ∧ ¬ (s.buf b).ready
  back : ∀ p b, s.proc p = some b → b ∉ Q → (s.buf b).ready

theorem Inv.init (h : system.init s) : Inv s [] where
  chain := h.1
  nodup := nodup_nil
  queued := by rw [h.2.2.2.2.1, h.2.2.2.2.2.2]; rfl
  started := by rw [h.2.2.2.2.2.1, h.2.2.2.2.2.2]; rfl
  cmd c := by simp [h.2.1]
  head b hb := by simp at hb
  done hd := by simp [h.2.2.1] at hd
  inj p q b hp := by simp [h.2.2.2.1] at hp
  waits b hb := by simp at hb
  back p b hp := by simp [h.2.2.2.1] at hp

/-- The buffers in the queue have processes that wait for them. -/
theorem Inv.not_mem (h : Inv s Q) (hb : ∀ q, s.proc q ≠ some b) : b ∉ Q := by
  intro hmem
  obtain ⟨⟨p, hp⟩, -⟩ := h.waits b hmem
  exact hb p hp

theorem Inv.length_le (h : Inv s Q) : Q.length ≤ NBUF := by
  have hle := List.Nodup.length_le_card h.nodup
  rw [Fintype.card_fin] at hle
  exact hle

/-- The buffer goes to the end of the queue. -/
theorem Inv.append (h : Inv s Q) (hb : b ∉ Q) (x : Buf) :
    Chain (State.append { s with buf := update s.buf b x } b).qnext
      (State.append { s with buf := update s.buf b x } b).idequeue (Q ++ [b]) := by
  unfold State.append
  have hchain : Chain (update s.qnext b none) s.idequeue Q :=
    h.chain.congr fun y hy => update_of_ne (ne_of_mem_of_not_mem hy hb) _ _
  cases hq : s.idequeue with
  | none =>
    have hnil : Q = [] := head?_eq_none_iff.1 (h.chain.head.symm.trans hq)
    rw [hnil]
    exact ⟨rfl, update_self _ _ _⟩
  | some y =>
    rw [hq] at hchain
    exact (hchain.append h.nodup hb (update_self _ _ _) (h.length_le.trans (Nat.le_succ _))).1

section

variable (s b)

@[simp] theorem append_buf : (s.append b).buf = s.buf := by
  unfold State.append
  cases s.idequeue <;> rfl

@[simp] theorem append_disk : (s.append b).disk = s.disk := by
  unfold State.append
  cases s.idequeue <;> rfl

@[simp] theorem append_cmd : (s.append b).cmd = s.cmd := by
  unfold State.append
  cases s.idequeue <;> rfl

@[simp] theorem append_done : (s.append b).done = s.done := by
  unfold State.append
  cases s.idequeue <;> rfl

@[simp] theorem append_drq : (s.append b).drq = s.drq := by
  unfold State.append
  cases s.idequeue <;> rfl

@[simp] theorem append_queued : (s.append b).queued = s.queued ++ [b] := by
  unfold State.append
  cases s.idequeue <;> rfl

@[simp] theorem append_started : (s.append b).started = s.started := by
  unfold State.append
  cases s.idequeue <;> rfl

@[simp] theorem append_completed : (s.append b).completed = s.completed := by
  unfold State.append
  cases s.idequeue <;> rfl

end

theorem start_ok (h : s.start b = .ok s') :
    ∃ c, idestart (s.buf b) = .ok c ∧ s' = { s with cmd := some c, started := s.started ++ [b] } := by
  unfold State.start at h
  cases hc : idestart (s.buf b) with
  | error e =>
    rw [hc] at h
    exact absurd h (by simp)
  | ok c =>
    rw [hc] at h
    exact ⟨c, rfl, (Except.ok.inj h).symm⟩

theorem iderw_ok (h : iderw s p b = .ok s') :
    ¬ (s.buf b).ready ∧
      (if (s.append b).idequeue = some b then
        State.start { s.append b with proc := update s.proc p (some b) } b = .ok s'
       else s' = { s.append b with proc := update s.proc p (some b) }) := by
  unfold iderw at h
  split_ifs at h with hready hdev
  refine ⟨hready, ?_⟩
  dsimp only at h
  split_ifs at h ⊢ with hhead
  · exact h
  · exact (Except.ok.inj h).symm

/-- The queue after a call, and the processes that wait. -/
theorem Inv.call_waits (h : Inv s Q) (hp : s.proc p = none) (hb : ∀ q, s.proc q ≠ some b) (hx : ¬ x.ready) :
    (∀ p₁ p₂ b₁, update s.proc p (some b) p₁ = some b₁ → update s.proc p (some b) p₂ = some b₁ → p₁ = p₂) ∧
    (∀ b₁ ∈ Q ++ [b], (∃ q, update s.proc p (some b) q = some b₁) ∧ ¬ (update s.buf b x b₁).ready) ∧
    ∀ q b₁, update s.proc p (some b) q = some b₁ → b₁ ∉ Q ++ [b] → (update s.buf b x b₁).ready := by
  have hnot := h.not_mem hb
  refine ⟨fun p₁ p₂ b₁ h₁ h₂ => ?_, fun b₁ hb₁ => ?_, fun q b₁ hq hb₁ => ?_⟩
  · by_cases e₁ : p₁ = p
    · by_cases e₂ : p₂ = p
      · rw [e₁, e₂]
      · rw [e₁, update_self] at h₁
        rw [update_of_ne e₂, ← h₁] at h₂
        exact absurd h₂ (hb p₂)
    · rw [update_of_ne e₁] at h₁
      by_cases e₂ : p₂ = p
      · rw [e₂, update_self] at h₂
        rw [← h₂] at h₁
        exact absurd h₁ (hb p₁)
      · rw [update_of_ne e₂] at h₂
        exact h.inj p₁ p₂ b₁ h₁ h₂
  · by_cases e : b₁ = b
    · rw [e, update_self]
      exact ⟨⟨p, update_self _ _ _⟩, hx⟩
    · have hmem : b₁ ∈ Q := by simpa [e] using hb₁
      obtain ⟨⟨q, hq⟩, hready⟩ := h.waits b₁ hmem
      have hqp : q ≠ p := by
        rintro rfl
        rw [hp] at hq
        exact absurd hq (by simp)
      rw [update_of_ne e]
      exact ⟨⟨q, by rw [update_of_ne hqp, hq]⟩, hready⟩
  · rw [mem_append, not_or, mem_singleton] at hb₁
    have hqp : q ≠ p := by
      rintro rfl
      rw [update_self] at hq
      exact hb₁.2 (some.inj hq).symm
    rw [update_of_ne hqp] at hq
    rw [update_of_ne hb₁.2]
    exact h.back q b₁ hq hb₁.1

theorem Performed.congr (hd : s'.disk = s.disk) (hq : s'.drq = s.drq) (h : Performed s y) : Performed s' y := by
  unfold Performed at h ⊢
  rw [hd, hq]
  exact h

theorem Inv.call (h : Inv s Q) (hp : s.proc p = none) (hb : ∀ q, s.proc q ≠ some b)
    (hs : iderw { s with buf := update s.buf b x } p b = .ok s') : Inv s' (Q ++ [b]) := by
  have hnot := h.not_mem hb
  have hchain := h.append hnot x
  obtain ⟨hx, hs⟩ := iderw_ok hs
  dsimp only at hx
  rw [update_self] at hx
  obtain ⟨hinj, hwaits, hback⟩ := h.call_waits hp hb hx
  have hnodup : (Q ++ [b]).Nodup := by
    rw [nodup_append_comm]
    exact nodup_cons.2 ⟨hnot, h.nodup⟩
  have hhead := hchain.head
  cases Q with
  | nil =>
    -- the queue was empty, so the disk is started
    rw [hhead, nil_append, head?_cons, if_pos rfl] at hs
    obtain ⟨c, hc, rfl⟩ := start_ok hs
    have hstarted := h.started
    have hqueued := h.queued
    rw [append_buf] at hc
    refine ⟨hchain, hnodup, ?_, ?_, ?_, ?_, ?_, hinj, ?_, ?_⟩
    · simp [hqueued]
    · simp [hstarted]
    · intro c'
      simp only [nil_append, head?_cons, append_buf, some.injEq, exists_eq_left', hc, Except.ok.injEq]
    · intro b' hb'
      obtain rfl : b = b' := by simpa using hb'
      exact ⟨c, by rw [append_buf]; exact hc⟩
    · intro hd
      simp only [append_done] at hd
      obtain ⟨y, hy, -⟩ := h.done hd
      exact absurd hy (by simp)
    · simpa using hwaits
    · simpa using hback
  | cons y Q =>
    have hyb : y ≠ b := ne_of_mem_of_not_mem mem_cons_self hnot
    have hne : some y ≠ some b := fun he => hyb (some.inj he)
    rw [hhead, cons_append, head?_cons, if_neg hne] at hs
    subst hs
    refine ⟨hchain, hnodup, ?_, ?_, ?_, ?_, ?_, hinj, ?_, ?_⟩
    · simp [h.queued]
    · simp [h.started]
    · intro c'
      have hcmd := h.cmd c'
      simpa [update_of_ne hyb] using hcmd
    · intro b' hb'
      obtain rfl : y = b' := by simpa using hb'
      obtain ⟨c, hc⟩ := h.head y rfl
      refine ⟨c, ?_⟩
      simpa [update_of_ne hyb] using hc
    · intro hd
      simp only [append_done] at hd
      obtain ⟨b', hb', hperf⟩ := h.done hd
      obtain rfl : y = b' := by simpa using hb'
      refine ⟨y, by simp, ?_⟩
      have hbuf : update s.buf b x y = s.buf y := update_of_ne hyb _ _
      simp only [append_buf, hbuf]
      exact hperf.congr (by simp) (by simp)
    · simpa using hwaits
    · simpa using hback

/-- The disk writes a sector or reads one. -/
theorem perform_fields (s : State) (c : Cmd) :
    (s.perform c).buf = s.buf ∧ (s.perform c).qnext = s.qnext ∧ (s.perform c).idequeue = s.idequeue ∧
      (s.perform c).cmd = s.cmd ∧ (s.perform c).proc = s.proc ∧ (s.perform c).queued = s.queued ∧
      (s.perform c).started = s.started ∧ (s.perform c).completed = s.completed := by
  unfold State.perform
  cases c.write <;> exact ⟨rfl, rfl, rfl, rfl, rfl, rfl, rfl, rfl⟩

/-- The disk performs the command of the head of the queue. -/
theorem Inv.perform (h : Inv s Q) (hc : s.cmd = some c) : Inv (s.perform c) Q := by
  obtain ⟨b, hb, hstart⟩ := (h.cmd c).1 hc
  obtain ⟨-, hdisk, hsector, hwrite⟩ := idestart_ok hstart
  obtain ⟨hbuf, hqnext, hqueue, hcmd, hproc, hqueued, hstarted, hcompleted⟩ := perform_fields s c
  constructor
  · rw [hqnext, hqueue]
    exact h.chain
  · exact h.nodup
  · rw [hqueued, hcompleted]
    exact h.queued
  · rw [hstarted, hcompleted]
    exact h.started
  · rw [hcmd, hbuf]
    exact h.cmd
  · rw [hbuf]
    exact h.head
  · intro _
    refine ⟨b, hb, ?_⟩
    rw [hbuf]
    unfold Performed State.perform
    rw [hwrite]
    by_cases hdirty : (s.buf b).dirty = true
    · rw [if_pos hdirty, if_pos hdirty]
      dsimp only
      rw [← hdisk, ← hsector, update_self, update_self]
    · rw [if_neg hdirty, if_neg hdirty]
      dsimp only
      rw [hdisk, hsector]
  · rw [hproc]
    exact h.inj
  · rw [hproc, hbuf]
    exact h.waits
  · rw [hproc, hbuf]
    exact h.back

/-- The buffer that the interrupt is for, as `ideintr` leaves it. -/
def finished (s : State) (x : Buf) : Buf := { x with data := if x.dirty then x.data else s.drq, valid := true, dirty := false }

/-- `ideintr` completes the head of the queue and starts the next one. -/
theorem ideintr_cons (h : Inv s (b :: Q)) (hs : ideintr s = .ok s') :
    ∃ t, t = { s with idequeue := s.qnext b, buf := update s.buf b (finished s (s.buf b)), cmd := none, done := false,
                      completed := s.completed ++ [b] } ∧
      (Q = [] ∧ s' = t ∨ ∃ b' c, Q.head? = some b' ∧ idestart (t.buf b') = .ok c ∧
        s' = { t with cmd := some c, started := t.started ++ [b'] }) := by
  refine ⟨_, rfl, ?_⟩
  have hnext : s.qnext b = Q.head? := h.chain.2.head
  unfold ideintr at hs
  rw [h.chain.head, head?_cons] at hs
  dsimp only at hs
  cases hq : s.qnext b with
  | none =>
    rw [hq] at hs
    exact .inl ⟨head?_eq_none_iff.1 (hnext.symm.trans hq), (Except.ok.inj hs).symm⟩
  | some b' =>
    rw [hq] at hs
    obtain ⟨c, hc, he⟩ := start_ok hs
    exact .inr ⟨b', c, hnext.symm.trans hq, hc, he⟩

theorem finished_ready (s : State) (x : Buf) : (finished s x).ready := ⟨rfl, rfl⟩

theorem Inv.intr (h : Inv s (b :: Q)) (hs : ideintr s = .ok s') : Inv s' Q := by
  obtain ⟨t, ht, hs⟩ := ideintr_cons h hs
  obtain ⟨hnot, hnodup⟩ := nodup_cons.1 h.nodup
  have hbuf : ∀ y ∈ Q, update s.buf b (finished s (s.buf b)) y = s.buf y := by
    intro y hy
    exact update_of_ne (ne_of_mem_of_not_mem hy hnot) _ _
  have hqueued : s.queued = s.completed ++ [b] ++ Q := by rw [h.queued]; simp
  have hstarted : s.started = s.completed ++ [b] := h.started
  have hwaits : ∀ y ∈ Q, (∃ p, s.proc p = some y) ∧ ¬ (update s.buf b (finished s (s.buf b)) y).ready := by
    intro y hy
    rw [hbuf y hy]
    exact h.waits y (mem_cons_of_mem _ hy)
  have hback : ∀ p y, s.proc p = some y → y ∉ Q → (update s.buf b (finished s (s.buf b)) y).ready := by
    intro p y hp hy
    by_cases he : y = b
    · rw [he, update_self]
      exact finished_ready s _
    · rw [update_of_ne he]
      apply h.back p y hp
      rw [mem_cons, not_or]
      exact ⟨he, hy⟩
  have hchain : Chain s.qnext (s.qnext b) Q := h.chain.2
  rcases hs with ⟨rfl, rfl⟩ | ⟨b', c, hhead, hc, rfl⟩
  · subst ht
    exact ⟨hchain, hnodup, hqueued, by simpa using hstarted, by simp, by simp, by simp, h.inj, hwaits, hback⟩
  · subst ht
    refine ⟨hchain, hnodup, hqueued, ?_, ?_, ?_, by simp, h.inj, hwaits, hback⟩
    · rw [hhead]
      simp [hstarted]
    · intro c'
      simp only [hhead, some.injEq, exists_eq_left']
      rw [hc, Except.ok.injEq]
    · intro y hy
      obtain rfl : b' = y := some.inj (hhead.symm.trans hy)
      exact ⟨c, hc⟩

theorem Inv.ret (h : Inv s Q) (hp : s.proc p = some b) (hr : (s.buf b).ready) :
    Inv { s with proc := update s.proc p none } Q := by
  have hold : ∀ q y, update s.proc p none q = some y → q ≠ p ∧ s.proc q = some y := by
    intro q y hq
    by_cases he : q = p
    · rw [he, update_self] at hq
      exact absurd hq (by simp)
    · rw [update_of_ne he] at hq
      exact ⟨he, hq⟩
  refine ⟨h.chain, h.nodup, h.queued, h.started, h.cmd, h.head, h.done, ?_, ?_, ?_⟩
  · intro q r y hq hr
    exact h.inj q r y (hold q y hq).2 (hold r y hr).2
  · intro y hy
    obtain ⟨⟨q, hq⟩, hready⟩ := h.waits y hy
    refine ⟨⟨q, ?_⟩, hready⟩
    have hqp : q ≠ p := by
      rintro rfl
      rw [hp] at hq
      exact hready (some.inj hq ▸ hr)
    exact (update_of_ne hqp _ _).trans hq
  · intro q y hq hy
    exact h.back q y (hold q y hq).2 hy

/-- What one step does to the requests. -/
theorem Inv.step {a : Act} (h : Inv s Q) (hs : Step s a s') :
    match a with
    | .call p b x => s.proc p = none ∧ (∀ q, s.proc q ≠ some b) ∧ Inv s' (Q ++ [b]) ∧ s'.buf = update s.buf b x ∧
        s'.disk = s.disk ∧ s'.proc = update s.proc p (some b) ∧ s'.completed = s.completed ∧ s'.done = s.done
    | .perform => ∃ c b Q', s.cmd = some c ∧ Q = b :: Q' ∧ idestart (s.buf b) = .ok c ∧ s' = s.perform c ∧ Inv s' Q
    | .intr => ∃ b Q', Q = b :: Q' ∧ Performed s (s.buf b) ∧ Inv s' Q' ∧
        s'.buf = update s.buf b (finished s (s.buf b)) ∧ s'.disk = s.disk ∧ s'.proc = s.proc ∧
        s'.queued = s.queued ∧ s'.completed = s.completed ++ [b]
    | .ret p => Inv s' Q ∧ s' = { s with proc := update s.proc p none } := by
  cases hs with
  | @call _ p b x hp hb hs =>
    refine ⟨hp, hb, h.call hp hb hs, ?_⟩
    obtain ⟨-, hs⟩ := iderw_ok hs
    split_ifs at hs
    · obtain ⟨c, -, rfl⟩ := start_ok hs
      simp
    · subst hs
      simp
  | @perform c hc hd =>
    obtain ⟨b, hb, hstart⟩ := (h.cmd c).1 hc
    obtain ⟨Q', hQ⟩ := head?_eq_some_iff.1 hb
    exact ⟨c, b, Q', hc, hQ, hstart, rfl, h.perform hc⟩
  | intr hd hs =>
    obtain ⟨b, hb, hperf⟩ := h.done hd
    obtain ⟨Q', rfl⟩ := head?_eq_some_iff.1 hb
    refine ⟨b, Q', rfl, hperf, h.intr hs, ?_⟩
    obtain ⟨t, rfl, hs⟩ := ideintr_cons h hs
    rcases hs with ⟨-, rfl⟩ | ⟨b', c, -, -, rfl⟩ <;> exact ⟨rfl, rfl, rfl, rfl, rfl⟩
  | ret hp hr => exact ⟨h.ret hp hr, rfl⟩

/-- The block of a buffer: the disk and the sector on it. -/
def Buf.block (x : Buf) : ℕ × ℕ := (x.dev % 2, x.blockno)

/-- The buffers of the cache are for different blocks, so processes with different buffers are too; and the block is on the
disk. -/
def OwnBlock (s : State) : Act → Prop
  | .call _ _ x => x.blockno < FSSIZE ∧ ∀ q b, s.proc q = some b → (s.buf b).block ≠ x.block
  | _ => True

/-- What holds on top when each process has a block of its own. -/
structure Synced (s : State) (Q : List (Fin NBUF)) : Prop extends Inv s Q where
  apart : ∀ p q b b', s.proc p = some b → s.proc q = some b' → b ≠ b' → (s.buf b).block ≠ (s.buf b').block
  data : ∀ p b, s.proc p = some b → b ∉ Q → (s.buf b).data = s.disk ((s.buf b).dev % 2) (s.buf b).blockno
  small : ∀ b ∈ Q, (s.buf b).blockno < FSSIZE

theorem Synced.call {p : Fin NPROC} (h : Synced s Q) (hown : OwnBlock s (.call p b x)) (hs : Step s (.call p b x) s') :
    Synced s' (Q ++ [b]) := by
  obtain ⟨hp, hb, hinv, hbuf, hdisk, hproc, -⟩ := h.toInv.step hs
  obtain ⟨hlt, hown⟩ := hown
  have hne : ∀ q y, s.proc q = some y → y ≠ b := by
    rintro q y hq rfl
    exact hb q hq
  have hold : ∀ q y, s'.proc q = some y → y = b ∨ s.proc q = some y := by
    intro q y hq
    rw [hproc] at hq
    by_cases he : q = p
    · rw [he, update_self] at hq
      exact .inl (some.inj hq).symm
    · rw [update_of_ne he] at hq
      exact .inr hq
  refine ⟨hinv, ?_, ?_, ?_⟩
  · intro q r y z hq hr hyz
    rw [hbuf]
    rcases hold q y hq with rfl | hq
    · rcases hold r z hr with rfl | hr
      · exact absurd rfl hyz
      · rw [update_self, update_of_ne (Ne.symm hyz)]
        exact (hown r z hr).symm
    · rcases hold r z hr with rfl | hr
      · rw [update_self, update_of_ne hyz]
        exact hown q y hq
      · rw [update_of_ne (hne q y hq), update_of_ne (hne r z hr)]
        exact h.apart q r y z hq hr hyz
  · intro q y hq hy
    rw [mem_append, not_or, mem_singleton] at hy
    rw [hbuf, hdisk, update_of_ne hy.2]
    exact h.data q y ((hold q y hq).resolve_left hy.2) hy.1
  · intro y hy
    rw [hbuf]
    rcases mem_append.1 hy with hy | hy
    · rw [update_of_ne (ne_of_mem_of_not_mem hy (h.not_mem hb))]
      exact h.small y hy
    · rw [mem_singleton.1 hy, update_self]
      exact hlt

/-- A write changes the block of the head of the queue only. -/
theorem perform_disk (hc : idestart x = .ok c) (hy : y.block ≠ x.block) :
    (s.perform c).disk (y.dev % 2) y.blockno = s.disk (y.dev % 2) y.blockno := by
  obtain ⟨-, hdisk, hsector, -⟩ := idestart_ok hc
  unfold State.perform
  cases c.write with
  | none => rfl
  | some d =>
    dsimp only
    rw [hdisk, hsector]
    by_cases he : y.dev % 2 = x.dev % 2
    · have hb : y.blockno ≠ x.blockno := fun hb => hy (Prod.ext he hb)
      rw [he, update_self, update_of_ne hb]
    · rw [update_of_ne he]

theorem Synced.perform (h : Synced s Q) (hs : Step s .perform s') : Synced s' Q := by
  obtain ⟨c, b, Q', hc, rfl, hstart, rfl, hinv⟩ := h.toInv.step hs
  obtain ⟨hbuf, -, -, -, hproc, -⟩ := perform_fields s c
  refine ⟨hinv, ?_, ?_, ?_⟩
  · rw [hproc, hbuf]
    exact h.apart
  · intro q y hq hy
    rw [hproc] at hq
    obtain ⟨⟨r, hr⟩, -⟩ := h.waits b mem_cons_self
    have hyb : y ≠ b := fun he => hy (he ▸ mem_cons_self)
    rw [hbuf, perform_disk hstart (h.apart q r y b hq hr hyb)]
    exact h.data q y hq hy
  · rw [hbuf]
    exact h.small

theorem finished_data (h : Performed s x) : (finished s x).data = s.disk (x.dev % 2) x.blockno := by
  unfold Performed at h
  unfold finished
  dsimp only
  split_ifs at h ⊢
  · exact h.symm
  · exact h

theorem Synced.intr (h : Synced s Q) (hs : Step s .intr s') :
    ∃ b Q', Q = b :: Q' ∧ Synced s' Q' ∧ s'.queued = s.queued ∧ s'.completed = s.completed ++ [b] := by
  obtain ⟨b, Q', rfl, hperf, hinv, hbuf, hdisk, hproc, hqueued, hcompleted⟩ := h.toInv.step hs
  have hblock : ∀ y, (s'.buf y).block = (s.buf y).block := by
    intro y
    rw [hbuf]
    by_cases he : y = b
    · rw [he, update_self]
      rfl
    · rw [update_of_ne he]
  refine ⟨b, Q', rfl, ⟨hinv, ?_, ?_, ?_⟩, hqueued, hcompleted⟩
  · intro p q y z hp hq hne
    rw [hproc] at hp hq
    rw [hblock, hblock]
    exact h.apart p q y z hp hq hne
  · intro p y hp hy
    rw [hproc] at hp
    rw [hdisk, hbuf]
    by_cases he : y = b
    · rw [he, update_self]
      exact finished_data hperf
    · rw [update_of_ne he]
      apply h.data p y hp
      rw [mem_cons, not_or]
      exact ⟨he, hy⟩
  · intro y hy
    have hsecond := congrArg Prod.snd (hblock y)
    exact hsecond.trans_lt (h.small y (mem_cons_of_mem _ hy))

theorem Synced.ret {p : Fin NPROC} (h : Synced s Q) (hs : Step s (.ret p) s') : Synced s' Q := by
  obtain ⟨hinv, rfl⟩ := h.toInv.step hs
  have hold : ∀ q y, update s.proc p none q = some y → s.proc q = some y := by
    intro q y hq
    by_cases he : q = p
    · rw [he, update_self] at hq
      exact absurd hq (by simp)
    · rw [update_of_ne he] at hq
      exact hq
  refine ⟨hinv, ?_, ?_, h.small⟩
  · intro q r y z hq hr
    exact h.apart q r y z (hold q y hq) (hold r z hr)
  · intro q y hq
    exact h.data q y (hold q y hq)

/-- The interrupts of a run. -/
def Act.isIntr : Act → Bool
  | .intr => true
  | _ => false

theorem run_synced (h : Run (system.restrict OwnBlock) as s) :
    (∃ Q, Synced s Q) ∧ s.completed.length = as.countP Act.isIntr := by
  refine Run.invariant
    (I := fun as s => (∃ Q, Synced s Q) ∧ s.completed.length = as.countP Act.isIntr) ?_ ?_ h
  · intro s hs
    refine ⟨⟨[], Inv.init hs, ?_, ?_, ?_⟩, ?_⟩
    · intro p q b b' hp
      rw [hs.2.2.2.1 p] at hp
      exact absurd hp (by simp)
    · intro p b hp
      rw [hs.2.2.2.1 p] at hp
      exact absurd hp (by simp)
    · intro b hb
      exact absurd hb (by simp)
    · rw [hs.2.2.2.2.2.2]
      rfl
  · rintro as s a s' - ⟨⟨Q, hQ⟩, hlen⟩ ⟨hown, hs⟩
    rw [countP_append, countP_singleton]
    cases a with
    | call p b x => exact ⟨⟨_, hQ.call hown hs⟩, by rw [(hQ.toInv.step hs).2.2.2.2.2.2.1, hlen]; rfl⟩
    | perform =>
      obtain ⟨c, -, -, -, -, -, rfl, -⟩ := hQ.toInv.step hs
      exact ⟨⟨_, hQ.perform hs⟩, by rw [(perform_fields s c).2.2.2.2.2.2.2, hlen]; rfl⟩
    | intr =>
      obtain ⟨b, Q', -, hQ', -, hcompleted⟩ := hQ.intr hs
      refine ⟨⟨Q', hQ'⟩, ?_⟩
      rw [hcompleted, length_append, hlen]
      rfl
    | ret p =>
      refine ⟨⟨_, hQ.ret hs⟩, ?_⟩
      rw [(hQ.toInv.step hs).2]
      exact hlen

/-- A call for a block of the disk is taken, whatever the queue holds. -/
theorem exists_call (hp : s.proc p = none) (hb : ∀ q, s.proc q ≠ some b) (hx : ¬ x.ready) (hdev : x.dev = 0)
    (hlt : x.blockno < FSSIZE) : ∃ s', Step s (.call p b x) s' := by
  suffices hok : ∃ s', iderw { s with buf := update s.buf b x } p b = .ok s' by
    obtain ⟨s', hs⟩ := hok
    exact ⟨s', .call hp hb hs⟩
  obtain ⟨c, hc⟩ := idestart_of_lt hlt
  have hbuf : update s.buf b x b = x := update_self _ _ _
  unfold iderw
  dsimp only
  simp only [hbuf]
  have hx' : ¬ (x.valid = true ∧ x.dirty = false) := hx
  rw [if_neg hx', if_neg (fun hno => hno.1 hdev)]
  split_ifs
  · unfold State.start
    simp only [append_buf, hbuf, hc]
    exact ⟨_, rfl⟩
  · exact ⟨_, rfl⟩

/-- With a request in the queue the disk has a command, and its interrupt goes through. -/
theorem Inv.exists_perform (h : Inv s (b :: Q)) (hd : s.done = false) : ∃ c, Step s .perform (s.perform c) := by
  obtain ⟨c, hc⟩ := h.head b rfl
  exact ⟨c, .perform ((h.cmd c).2 ⟨b, rfl, hc⟩) hd⟩

theorem perform_done (s : State) (c : Cmd) : (s.perform c).done = true := by
  unfold State.perform
  cases c.write <;> rfl

theorem Inv.exists_intr (h : Inv s (b :: Q)) (hQ : ∀ y ∈ Q, (s.buf y).blockno < FSSIZE) (hd : s.done = true) :
    ∃ s', Step s .intr s' := by
  have hnext : s.qnext b = Q.head? := h.chain.2.head
  suffices hok : ∃ s', ideintr s = .ok s' by
    obtain ⟨s', hs⟩ := hok
    exact ⟨s', .intr hd hs⟩
  unfold ideintr
  rw [h.chain.head, head?_cons]
  dsimp only
  cases hq : s.qnext b with
  | none => exact ⟨_, rfl⟩
  | some b' =>
    have hmem : b' ∈ Q := mem_of_mem_head? (hnext.symm.trans hq)
    have hne : b' ≠ b := ne_of_mem_of_not_mem hmem (nodup_cons.1 h.nodup).1
    obtain ⟨c, hc⟩ := idestart_of_lt (hQ b' hmem)
    unfold State.start
    dsimp only
    rw [update_of_ne hne, hc]
    exact ⟨_, rfl⟩

/-- The disk alone completes what is queued. -/
theorem Synced.drain (h : Synced s Q) (hr : Run (system.restrict OwnBlock) as s) :
    ∃ bs s', (∀ a ∈ bs, a = .perform ∨ a = .intr) ∧ Run (system.restrict OwnBlock) (as ++ bs) s' ∧ Synced s' [] ∧
      s'.proc = s.proc ∧ s'.queued = s.queued := by
  induction Q generalizing as s with
  | nil => exact ⟨[], s, by simp, by simpa using hr, h, rfl, rfl⟩
  | cons b Q ih =>
    -- once its command is performed, the head is completed by the interrupt
    have hintr : ∀ {as : List Act} {t : State}, Synced t (b :: Q) → t.done = true →
        Run (system.restrict OwnBlock) as t →
        ∃ bs s', (∀ a ∈ bs, a = .perform ∨ a = .intr) ∧ Run (system.restrict OwnBlock) (as ++ bs) s' ∧
          Synced s' [] ∧ s'.proc = t.proc ∧ s'.queued = t.queued := by
      intro as t ht hd hr
      obtain ⟨u, hu⟩ := ht.exists_intr (fun y hy => ht.small y (mem_cons_of_mem _ hy)) hd
      obtain ⟨_, _, -, -, -, -, -, hproc, -⟩ := ht.toInv.step hu
      obtain ⟨b', Q', hQ, hsynced, hqueued, -⟩ := ht.intr hu
      obtain rfl : Q = Q' := (cons.inj hQ).2
      obtain ⟨bs, s', hbs, hrun, hs', hp, hq⟩ := ih hsynced (hr.snoc (a := Act.intr) ⟨trivial, hu⟩)
      refine ⟨.intr :: bs, s', ?_, by simpa using hrun, hs', hp.trans hproc, hq.trans hqueued⟩
      intro a ha
      rcases mem_cons.1 ha with rfl | ha
      · exact .inr rfl
      · exact hbs a ha
    cases hd : s.done with
    | true => exact hintr h hd hr
    | false =>
      obtain ⟨c, hstep⟩ := h.exists_perform hd
      obtain ⟨-, -, -, -, hproc, hqueued, -⟩ := perform_fields s c
      obtain ⟨bs, s', hbs, hrun, hs', hp, hq⟩ := hintr (h.perform hstep) (perform_done s c)
        (hr.snoc (a := Act.perform) ⟨trivial, hstep⟩)
      refine ⟨.perform :: bs, s', ?_, by simpa using hrun, hs', hp.trans hproc, hq.trans hqueued⟩
      intro a ha
      rcases mem_cons.1 ha with rfl | ha
      · exact .inl rfl
      · exact hbs a ha

/-- Along every run in which each process is in `iderw` for a block of its own: the queue holds the requests that are not
completed, in order, and only its head is started; one interrupt completes one request; a process comes back with the
contents of the block; and the disk, left alone, completes every request. -/
theorem iderw_queue {as : List Act} (h : Run (system.restrict OwnBlock) as s) :
    (∃ Q, Chain s.qnext s.idequeue Q ∧ Q.Nodup ∧ s.queued = s.completed ++ Q ∧
        s.started = s.completed ++ s.idequeue.toList) ∧
      (∀ c, s.cmd = some c ↔ ∃ b, s.idequeue = some b ∧ idestart (s.buf b) = .ok c) ∧
      (∀ b, s.idequeue = some b → s.cmd ≠ none) ∧
      s.completed.length = as.countP Act.isIntr ∧
      (∀ p s', Step s (.ret p) s' → ∃ b, s.proc p = some b ∧ (s.buf b).valid = true ∧ (s.buf b).dirty = false ∧
        (s.buf b).data = s.disk ((s.buf b).dev % 2) (s.buf b).blockno) ∧
      ∃ bs s', (∀ a ∈ bs, a = .perform ∨ a = .intr) ∧ Run (system.restrict OwnBlock) (as ++ bs) s' ∧
        s'.queued = s.queued ∧ s'.started = s.queued ∧ s'.completed = s.queued ∧
        ∀ p, s.proc p ≠ none → ∃ s'', Step s' (.ret p) s'' := by
  obtain ⟨⟨Q, hQ⟩, hlen⟩ := run_synced h
  have hhead := hQ.chain.head
  refine ⟨⟨Q, hQ.chain, hQ.nodup, hQ.queued, ?_⟩, ?_, ?_, hlen, ?_, ?_⟩
  · rw [hhead]
    exact hQ.started
  · rw [hhead]
    exact hQ.cmd
  · intro b hb hnone
    rw [hhead] at hb
    obtain ⟨c, hc⟩ := hQ.head b hb
    rw [(hQ.cmd c).2 ⟨b, hb, hc⟩] at hnone
    exact absurd hnone (by simp)
  · intro p s' hs
    cases hs with
    | @ret _ b hp hready =>
      have hnot : b ∉ Q := fun hmem => (hQ.waits b hmem).2 hready
      exact ⟨b, hp, hready.1, hready.2, hQ.data p b hp hnot⟩
  · obtain ⟨bs, s', hbs, hrun, hs', hproc, hqueued⟩ := hQ.drain h
    have hcompleted : s'.completed = s.queued := by
      rw [← hqueued, hs'.queued, append_nil]
    refine ⟨bs, s', hbs, hrun, hqueued, ?_, hcompleted, ?_⟩
    · rw [hs'.started, hcompleted]
      exact append_nil _
    · intro p hp
      obtain ⟨b, hb⟩ := ne_none_iff_exists'.1 hp
      rw [← hproc] at hb
      exact ⟨_, .ret hb (hs'.back p b hb (by simp))⟩

/-- The state at the start, all zero. -/
def blank : State where
  buf _ := ⟨false, false, 0, 0, fun _ => 0⟩
  qnext _ := none
  idequeue := none
  havedisk1 := false
  disk _ _ _ := 0
  cmd := none
  done := false
  drq _ := 0
  proc _ := none
  queued := []
  started := []
  completed := []

/-- A buffer for block 5, to be written. -/
def toWrite (v : UInt8) : Buf := ⟨true, true, 0, 5, fun _ => v⟩

theorem Inv.idle (h : Inv s []) : s.done = false := by
  apply eq_false_of_ne_true
  intro hd
  obtain ⟨b, hb, -⟩ := h.done hd
  exact absurd hb (by simp)

/-- A write, from the call to the interrupt, on the idle disk. -/
theorem Inv.write_steps (h : Inv s []) (hr : Run system as s) (hp : s.proc p = none)
    (hb : ∀ q, s.proc q ≠ some b) (v : UInt8) :
    ∃ t, Run system (as ++ [.call p b (toWrite v), .perform, .intr]) t ∧ Inv t [] ∧
      (∀ y ≠ b, t.buf y = s.buf y) ∧ (t.buf b).block = (0, 5) ∧ (t.buf b).data = (fun _ => v) ∧
      t.disk 0 5 = (fun _ => v) ∧ t.proc = update s.proc p (some b) := by
  obtain ⟨s₁, h₁⟩ := exists_call (x := toWrite v) hp hb (fun hready => absurd hready.2 (by simp [toWrite])) rfl
    (by simp [toWrite, FSSIZE])
  obtain ⟨-, -, hinv₁, hbuf₁, -, hproc₁, -, hdone₁⟩ := h.step h₁
  obtain ⟨c, h₂⟩ := hinv₁.exists_perform (hdone₁.trans h.idle)
  obtain ⟨_, _, _, -, -, -, -, hinv₂⟩ := hinv₁.step h₂
  obtain ⟨hbuf₂, -, -, -, hproc₂, -⟩ := perform_fields s₁ c
  obtain ⟨t, h₃⟩ := hinv₂.exists_intr (by simp) (perform_done s₁ c)
  obtain ⟨b', Q', hQ, hperf, hinv₃, hbuf₃, hdisk₃, hproc₃, -⟩ := hinv₂.step h₃
  obtain ⟨rfl, rfl⟩ : b = b' ∧ [] = Q' := by simpa using hQ
  have hx : (s₁.perform c).buf b = toWrite v := by rw [hbuf₂, hbuf₁, update_self]
  rw [hx] at hperf hbuf₃
  have hrun := ((hr.snoc h₁).snoc h₂).snoc h₃
  refine ⟨t, by simpa using hrun, hinv₃, ?_, ?_, ?_, ?_, ?_⟩
  · intro y hy
    rw [hbuf₃, update_of_ne hy, hbuf₂, hbuf₁, update_of_ne hy]
  · rw [hbuf₃, update_self]
    rfl
  · rw [hbuf₃, update_self]
    rfl
  · rw [hdisk₃]
    exact hperf
  · rw [hproc₃, hproc₂, hproc₁]

theorem blank_run (G : State → Act → Prop) : Run (system.restrict G) [] blank :=
  .start ⟨rfl, rfl, rfl, fun _ => rfl, rfl, rfl, rfl⟩

/-- Two processes, each with a buffer for a block of its own: the second request waits behind the first, and both are
completed, in order. -/
theorem iderw_queue_two : ∃ (p q : Fin NPROC) (b c : Fin NBUF) (s : State),
    Run (system.restrict OwnBlock) [.call p b (toWrite 1), .call q c { toWrite 2 with blockno := 6 }] s ∧
      b ≠ c ∧ s.queued = [b, c] ∧ s.started = [b] ∧ s.idequeue = some b ∧ s.qnext b = some c ∧
      ∃ bs s', (∀ a ∈ bs, a = .perform ∨ a = .intr) ∧ s'.completed = [b, c] ∧
        Run (system.restrict OwnBlock)
          ([.call p b (toWrite 1), .call q c { toWrite 2 with blockno := 6 }] ++ bs) s' := by
  have hnone : ∀ q, blank.proc q = none := fun _ => rfl
  obtain ⟨s, hs⟩ := exists_call (x := toWrite 1) (p := ⟨0, by decide⟩) (b := ⟨0, by decide⟩) (hnone _)
    (fun q hq => by simp [hnone] at hq) (fun hready => absurd hready.2 (by simp [toWrite])) rfl (by simp [toWrite, FSSIZE])
  obtain ⟨-, -, hinv, hbuf, -, hproc, -⟩ := (Inv.init ⟨rfl, rfl, rfl, hnone, rfl, rfl, rfl⟩).step hs
  have hat : ∀ q b, s.proc q = some b → q = ⟨0, by decide⟩ ∧ b = ⟨0, by decide⟩ := by
    intro q b hq
    rw [hproc, update_apply] at hq
    split_ifs at hq with h
    · exact ⟨h, (some.inj hq).symm⟩
    · simp [hnone] at hq
  obtain ⟨t, ht⟩ := exists_call (s := s) (x := { toWrite 2 with blockno := 6 }) (p := ⟨1, by decide⟩) (b := ⟨1, by decide⟩)
    (by rw [hproc, update_of_ne (by decide)]; exact hnone _) (fun q hq => absurd (hat q _ hq).2 (by decide))
    (fun hready => absurd hready.2 (by simp [toWrite])) rfl (by simp [FSSIZE])
  have hown : OwnBlock blank (.call ⟨0, by decide⟩ ⟨0, by decide⟩ (toWrite 1)) :=
    ⟨by simp [toWrite, FSSIZE], fun q b hq => by simp [hnone] at hq⟩
  have hown' : OwnBlock s (.call ⟨1, by decide⟩ ⟨1, by decide⟩ { toWrite 2 with blockno := 6 }) := by
    refine ⟨by simp [FSSIZE], fun q b hq => ?_⟩
    rw [(hat q b hq).2, hbuf, update_self]
    decide
  have hrun := ((blank_run OwnBlock).snoc ⟨hown, hs⟩).snoc ⟨hown', ht⟩
  obtain ⟨-, -, hinv', -⟩ := hinv.step ht
  obtain ⟨-, -, -, hlen, -, bs, s', hbs, hrun', -, -, hcompleted, -⟩ := iderw_queue hrun
  have hc : t.completed = [] := eq_nil_of_length_eq_zero hlen
  have hq : t.queued = [⟨0, by decide⟩, ⟨1, by decide⟩] := by rw [hinv'.queued, hc]; rfl
  refine ⟨_, _, _, _, t, hrun, by decide, hq, ?_, ?_, ?_, bs, s', hbs, hcompleted.trans hq, hrun'⟩
  · rw [hinv'.started, hc]
    rfl
  · exact hinv'.chain.1
  · exact hinv'.chain.2.1

/-- Two buffers for one block: the first process comes back with data that the second has since overwritten on the disk. -/
theorem stale_of_ne {q : Fin NPROC} {b' : Fin NBUF} (hpq : p ≠ q) (hbb : b ≠ b') :
    ∃ as s s', Run system as s ∧ Step s (.ret p) s' ∧ s.proc p = some b ∧
      (s.buf b).data ≠ s.disk ((s.buf b).dev % 2) (s.buf b).blockno := by
  have h₀ := (blank_run fun _ _ => True).of_restrict
  have hinv₀ : Inv blank [] := Inv.init ⟨rfl, rfl, rfl, fun _ => rfl, rfl, rfl, rfl⟩
  obtain ⟨s, hs, hinv, -, hblock, hdata, -, hproc⟩ :=
    hinv₀.write_steps (p := p) (b := b) h₀ rfl (fun q hq => absurd hq (by simp [blank])) 1
  have hfree : ∀ r, s.proc r ≠ some b' := by
    intro r hr
    rw [hproc] at hr
    by_cases he : r = p
    · rw [he, update_self] at hr
      exact hbb (some.inj hr)
    · rw [update_of_ne he] at hr
      exact absurd hr (by simp [blank])
  have hq : s.proc q = none := by
    rw [hproc, update_of_ne hpq.symm]
    rfl
  obtain ⟨t, ht, hinvt, hbuft, -, -, hdiskt, hproct⟩ := hinv.write_steps hs hq hfree 2
  have hp : t.proc p = some b := by
    rw [hproct, update_of_ne hpq, hproc, update_self]
  have hdev : (s.buf b).dev % 2 = 0 := congrArg Prod.fst hblock
  have hno : (s.buf b).blockno = 5 := congrArg Prod.snd hblock
  refine ⟨_, t, _, ht, .ret hp (hinvt.back p b hp (by simp)), hp, ?_⟩
  rw [hbuft b hbb, hdata, hdev, hno, hdiskt]
  intro he
  exact absurd (congrFun he 0) (by decide)

theorem iderw_stale_block : ∃ as s s', ∃ b : Fin NBUF, ∃ p : Fin NPROC, Run system as s ∧ Step s (.ret p) s' ∧
    s.proc p = some b ∧ (s.buf b).data ≠ s.disk ((s.buf b).dev % 2) (s.buf b).blockno := by
  have hp : (⟨0, by decide⟩ : Fin NPROC) ≠ ⟨1, by decide⟩ := by decide
  have hb : (⟨0, by decide⟩ : Fin NBUF) ≠ ⟨1, by decide⟩ := by decide
  obtain ⟨as, s, s', h⟩ := stale_of_ne hp hb
  exact ⟨as, s, s', _, _, h⟩

end Xv6.Ide

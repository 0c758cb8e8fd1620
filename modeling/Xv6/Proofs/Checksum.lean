import Xv6.Spec.Checksum
import Xv6.Lib.Window
import Mathlib.Algebra.BigOperators.Fin
import Mathlib.Algebra.BigOperators.Group.Finset.Piecewise
import Mathlib.Algebra.Order.BigOperators.Group.Finset
import Mathlib.Tactic.Abel

/-! The sum of `checksum.c` does not depend on the schedule: each byte read is with a consumer, in the ring, or with one waiting
producer. -/

namespace Xv6.Checksum

open Window Function Finset

variable {toInt : UInt8 → ℤ} {file : List UInt8} {s s' : State} {items : List UInt8} {p : Fin NUMP} {c : Fin NUMC}
  {x : Producer} {b : UInt8} {n : BitVec 32}

/-- One process changes its place. -/
theorem sum_update {ι γ β : Type} [Fintype ι] [DecidableEq ι] [AddCommMonoid β] (g : γ → β) (f : ι → γ) (i : ι) (x : γ) :
    ∑ j, g (update f i x j) + g (f i) = ∑ j, g (f j) + g x := by
  have hnew : ∑ j, g (update f i x j) = g x + ∑ j ∈ univ \ {i}, g (f j) := by
    rw [← sum_update_of_mem (mem_univ i) (fun j => g (f j)) (g x)]
    apply sum_congr rfl
    intro j _
    by_cases hj : j = i
    · rw [hj, update_self, update_self]
    · rw [update_of_ne hj, update_of_ne hj]
  have hold : ∑ j, g (f j) = g (f i) + ∑ j ∈ univ \ {i}, g (f j) := by
    rw [← sum_update_of_mem (mem_univ i), update_eq_self i fun j => g (f j)]
  rw [hnew, hold, add_right_comm, add_comm (g x)]
  exact add_right_comm _ _ _

/-- The byte a producer waits with. -/
def Producer.pending : Producer → Multiset UInt8
  | .waiting b => {b}
  | _ => 0

def Producer.done : Producer → ℕ
  | .exited => 1
  | _ => 0

/-- What a consumer has not added to the total yet. -/
def Consumer.csum : Consumer → BitVec 32
  | .top n => n
  | .waiting n => n
  | .exited => 0

/-- the bytes between `head` and `tail` -/
def ring (m : Shm) : List UInt8 :=
  (List.range ((m.tail + BUFFERSIZE - m.head) % BUFFERSIZE)).map fun i => m.buff ((m.head + i) % BUFFERSIZE)

/-- What holds whenever the mutex is free. -/
structure Inv (toInt : UInt8 → ℤ) (file : List UInt8) (s : State) (items : List UInt8) : Prop where
  ring : Ring BUFFERSIZE s.shm.buff s.shm.head s.shm.tail items
  offset : s.read ++ s.rest = file
  kept : (s.read : Multiset UInt8) = s.got + items + ∑ p, (s.prod p).pending
  sums : s.shm.total + ∑ c, (s.cons c).csum = BitVec.ofInt 32 (s.got.map toInt).sum
  done : s.shm.pdone = ∑ p, (s.prod p).done
  eof : (∃ p, s.prod p = .exited) → s.rest = []
  last : (∃ c, s.cons c = .exited) → (∀ p, s.prod p = .exited) ∧ items = []

theorem pending_update (x : Producer) :
    ∑ q, (update s.prod p x q).pending + (s.prod p).pending = ∑ q, (s.prod q).pending + x.pending :=
  sum_update Producer.pending s.prod p x

theorem done_update (x : Producer) :
    ∑ q, (update s.prod p x q).done + (s.prod p).done = ∑ q, (s.prod q).done + x.done :=
  sum_update Producer.done s.prod p x

theorem csum_update (x : Consumer) :
    ∑ d, (update s.cons c x d).csum + (s.cons c).csum = ∑ d, (s.cons d).csum + x.csum :=
  sum_update Consumer.csum s.cons c x

/-- When the count has reached the number of producers, all have exited. -/
theorem Inv.all_exited (h : Inv toInt file s items) (hdone : ¬ s.shm.pdone < NUMP) (p : Fin NUMP) : s.prod p = .exited := by
  by_contra hp
  apply hdone
  have hle : ∀ q ∈ univ, (s.prod q).done ≤ 1 := by
    intro q _
    cases s.prod q <;> simp [Producer.done]
  have hlt : (s.prod p).done < 1 := by
    cases hq : s.prod p with
    | top => exact Nat.zero_lt_one
    | waiting b => exact Nat.zero_lt_one
    | exited => exact absurd hq hp
  rw [h.done]
  calc ∑ q, (s.prod q).done < ∑ _q : Fin NUMP, 1 := sum_lt_sum hle ⟨p, mem_univ p, hlt⟩
    _ = NUMP := by simp

theorem Inv.start : Inv toInt file (start file) [] where
  ring := Ring.empty (by decide)
  offset := rfl
  kept := by simp [Checksum.start, Producer.pending]
  sums := by simp [Checksum.start, Consumer.csum]
  done := by simp [Checksum.start, Producer.done]
  eof := fun ⟨p, hp⟩ => Producer.noConfusion hp
  last := fun ⟨c, hc⟩ => Consumer.noConfusion hc

theorem Producer.done_of_ne (h : x ≠ .exited) : x.done = 0 := by
  cases x with
  | top => rfl
  | waiting b => rfl
  | exited => exact absurd rfl h

/-- A producer that has not exited moves on, with a byte that counts once more than what it waited with. -/
theorem Inv.moved {m : Shm} {items' : List UInt8} (hp : s.prod p ≠ .exited) (hx : x ≠ .exited)
    (hring : Ring BUFFERSIZE m.buff m.head m.tail items') (hoff : s.read ++ s.rest = file)
    (hkept : (s.read : Multiset UInt8) + (s.prod p).pending = s.got + items + ∑ q, (s.prod q).pending + {b})
    (hitems : (items' : Multiset UInt8) + x.pending = items + {b})
    (hsums : m.total + ∑ c, (s.cons c).csum = BitVec.ofInt 32 (s.got.map toInt).sum)
    (hdone : m.pdone = ∑ q, (s.prod q).done) (heof : (∃ q, s.prod q = .exited) → s.rest = [])
    (hlast : (∃ c, s.cons c = .exited) → ∀ q, s.prod q = .exited) :
    Inv toInt file { s with shm := m, prod := update s.prod p x } items' where
  ring := hring
  offset := hoff
  kept := by
    have hpend := pending_update (s := s) (p := p) x
    apply add_right_cancel (b := (s.prod p).pending)
    calc (s.read : Multiset UInt8) + (s.prod p).pending
        = s.got + items + ∑ q, (s.prod q).pending + {b} := hkept
      _ = s.got + (items + {b}) + ∑ q, (s.prod q).pending := by abel
      _ = s.got + (items' + x.pending) + ∑ q, (s.prod q).pending := by rw [hitems]
      _ = s.got + items' + (∑ q, (s.prod q).pending + x.pending) := by abel
      _ = s.got + items' + (∑ q, (update s.prod p x q).pending + (s.prod p).pending) := by rw [hpend]
      _ = s.got + items' + ∑ q, (update s.prod p x q).pending + (s.prod p).pending := by abel
  sums := hsums
  done := by
    have := done_update (s := s) (p := p) x
    rw [Producer.done_of_ne hp, Producer.done_of_ne hx, add_zero, add_zero] at this
    exact hdone.trans this.symm
  eof := by
    rintro ⟨q, hq⟩
    apply heof
    by_cases he : q = p
    · rw [he] at hq
      exact absurd ((update_self p x s.prod).symm.trans hq) hx
    · exact ⟨q, (update_of_ne he x s.prod).symm.trans hq⟩
  last hc := absurd (hlast hc p) hp

theorem Inv.tryPut (hp : s.prod p ≠ .exited)
    (hring : Ring BUFFERSIZE s.shm.buff s.shm.head s.shm.tail items) (hoff : s.read ++ s.rest = file)
    (hkept : (s.read : Multiset UInt8) + (s.prod p).pending = s.got + items + ∑ q, (s.prod q).pending + {b})
    (hsums : s.shm.total + ∑ c, (s.cons c).csum = BitVec.ofInt 32 (s.got.map toInt).sum)
    (hdone : s.shm.pdone = ∑ q, (s.prod q).done) (heof : (∃ q, s.prod q = .exited) → s.rest = [])
    (hlast : (∃ c, s.cons c = .exited) → ∀ q, s.prod q = .exited) :
    ∃ items', Inv toInt file (Checksum.tryPut s p b) items' := by
  unfold Checksum.tryPut put
  by_cases hfull : (s.shm.tail + 1) % BUFFERSIZE = s.shm.head
  · rw [if_pos hfull]
    exact ⟨items, Inv.moved hp (by simp) hring hoff hkept rfl hsums hdone heof hlast⟩
  · rw [if_neg hfull]
    have hroom : items.length + 1 < BUFFERSIZE := by
      have hlt := hring.room
      have hne : items.length + 1 ≠ BUFFERSIZE := fun he => hfull (hring.full_iff.2 he)
      omega
    refine ⟨items ++ [b], Inv.moved hp (by simp) (hring.push hroom) hoff hkept ?_ hsums hdone heof hlast⟩
    rw [← Multiset.coe_add, Multiset.coe_singleton]
    exact add_zero _

theorem Inv.producer (h : Inv toInt file s items) (hs : producer s p = some s') : ∃ items', Inv toInt file s' items' := by
  have hlast := fun hc => (h.last hc).1
  unfold Checksum.producer at hs
  cases hp : s.prod p with
  | top =>
    rw [hp] at hs
    dsimp only at hs
    cases hrest : s.rest with
    | nil =>
      -- the end of the file
      rw [hrest] at hs
      obtain rfl := Option.some.inj hs
      have hpend := pending_update (s := s) (p := p) .exited
      have hdone := done_update (s := s) (p := p) .exited
      rw [hp] at hpend hdone
      refine ⟨items, h.ring, ?_, ?_, h.sums, ?_, fun _ => rfl, fun hc => ?_⟩
      · rw [← hrest]
        exact h.offset
      · rw [h.kept]
        congr 1
        simpa [Producer.pending] using hpend.symm
      · rw [h.done]
        simpa [Producer.done] using hdone.symm
      · exact absurd (hlast hc p) (by rw [hp]; simp)
    | cons b rest =>
      rw [hrest] at hs
      obtain rfl := Option.some.inj hs
      have hne : s.prod p ≠ .exited := by rw [hp]; simp
      refine Inv.tryPut hne h.ring ?_ ?_ h.sums h.done ?_ hlast
      · rw [List.append_assoc, List.singleton_append, ← hrest]
        exact h.offset
      · have hnone : (s.prod p).pending = 0 := by rw [hp]; rfl
        dsimp only
        rw [hnone, add_zero, ← Multiset.coe_add, h.kept, Multiset.coe_singleton]
      · intro hex
        rw [h.eof hex] at hrest
        exact absurd hrest (by simp)
  | waiting b =>
    rw [hp] at hs
    obtain rfl := Option.some.inj hs
    have hne : s.prod p ≠ .exited := by rw [hp]; simp
    refine Inv.tryPut hne h.ring h.offset ?_ h.sums h.done h.eof hlast
    rw [h.kept, hp, Producer.pending]
  | exited =>
    rw [hp] at hs
    exact absurd hs (by simp)

/-- A consumer moves on without a byte; what it adds to the total is what it had. -/
theorem Inv.added {x : Consumer} (h : Inv toInt file s items) (hsum : n + x.csum = (s.cons c).csum)
    (hx : x = .exited → (∀ p, s.prod p = .exited) ∧ items = []) :
    Inv toInt file { s with shm := { s.shm with total := s.shm.total + n }, cons := update s.cons c x } items where
  ring := h.ring
  offset := h.offset
  kept := h.kept
  sums := by
    have hup := csum_update (s := s) (c := c) x
    rw [← h.sums]
    apply add_right_cancel (b := (s.cons c).csum)
    calc s.shm.total + n + ∑ d, (update s.cons c x d).csum + (s.cons c).csum
        = s.shm.total + n + (∑ d, (update s.cons c x d).csum + (s.cons c).csum) := by abel
      _ = s.shm.total + n + (∑ d, (s.cons d).csum + x.csum) := by rw [hup]
      _ = s.shm.total + ∑ d, (s.cons d).csum + (n + x.csum) := by abel
      _ = s.shm.total + ∑ d, (s.cons d).csum + (s.cons c).csum := by rw [hsum]
  done := h.done
  eof := h.eof
  last := by
    rintro ⟨d, hd⟩
    by_cases he : d = c
    · rw [he] at hd
      exact hx ((update_self c x s.cons).symm.trans hd)
    · exact h.last ⟨d, (update_of_ne he x s.cons).symm.trans hd⟩

/-- A consumer takes a byte. -/
theorem Inv.taken (h : Inv toInt file s (b :: items)) (hc : s.cons c = .top n) :
    Inv toInt file { s with shm := { s.shm with head := (s.shm.head + 1) % BUFFERSIZE }, got := s.got ++ [b],
                            cons := update s.cons c (.top (n + BitVec.ofInt 32 (toInt b))) } items where
  ring := h.ring.pop
  offset := h.offset
  kept := by
    dsimp only
    rw [h.kept, ← Multiset.coe_add, Multiset.coe_singleton, ← Multiset.cons_coe, ← Multiset.singleton_add]
    abel
  sums := by
    have hup := csum_update (s := s) (c := c) (.top (n + BitVec.ofInt 32 (toInt b)))
    rw [hc] at hup
    dsimp only
    rw [List.map_append, List.sum_append, List.map_singleton, List.sum_singleton, BitVec.ofInt_add, ← h.sums]
    apply add_right_cancel (b := n)
    calc s.shm.total + ∑ d, (update s.cons c (.top (n + BitVec.ofInt 32 (toInt b))) d).csum + n
        = s.shm.total + (∑ d, (update s.cons c (.top (n + BitVec.ofInt 32 (toInt b))) d).csum + n) := by abel
      _ = s.shm.total + (∑ d, (s.cons d).csum + (n + BitVec.ofInt 32 (toInt b))) := congrArg (s.shm.total + ·) hup
      _ = s.shm.total + ∑ d, (s.cons d).csum + BitVec.ofInt 32 (toInt b) + n := by abel
  done := h.done
  eof := h.eof
  last := by
    rintro ⟨d, hd⟩
    by_cases he : d = c
    · rw [he] at hd
      exact absurd ((update_self c _ s.cons).symm.trans hd) (by simp)
    · exact absurd (h.last ⟨d, (update_of_ne he _ s.cons).symm.trans hd⟩).2 (by simp)

theorem Inv.consumer (h : Inv toInt file s items) (hs : consumer toInt s c = some s') : ∃ items', Inv toInt file s' items' := by
  unfold Checksum.consumer at hs
  cases hc : s.cons c with
  | top n =>
    rw [hc] at hs
    dsimp only at hs
    split_ifs at hs with hgo
    · unfold get at hs
      by_cases hempty : s.shm.tail = s.shm.head
      · rw [if_pos hempty] at hs
        obtain rfl := Option.some.inj hs
        have hmoved := h.added (c := c) (x := .waiting n) (n := 0) (by rw [hc, zero_add]; rfl) (by simp)
        rw [add_zero] at hmoved
        exact ⟨items, hmoved⟩
      · rw [if_neg hempty] at hs
        obtain rfl := Option.some.inj hs
        cases items with
        | nil => exact absurd (h.ring.empty_iff.2 rfl) hempty
        | cons b items =>
          rw [h.ring.front]
          exact ⟨items, h.taken hc⟩
    · -- all producers are done and the ring is empty
      obtain rfl := Option.some.inj hs
      rw [not_or] at hgo
      have hempty : items = [] := by
        apply h.ring.empty_iff.1
        simpa [isempty] using hgo.2
      exact ⟨items, h.added (by rw [hc]; exact add_zero _) fun _ => ⟨h.all_exited hgo.1, hempty⟩⟩
  | waiting n =>
    rw [hc] at hs
    obtain rfl := Option.some.inj hs
    have hmoved := h.added (c := c) (x := .top n) (n := 0) (by rw [hc, zero_add]; rfl) (by simp)
    rw [add_zero] at hmoved
    exact ⟨items, hmoved⟩
  | exited =>
    rw [hc] at hs
    exact absurd hs (by simp)

theorem run_inv {acts : List Act} (h : Trace.Run (system toInt file) acts s) : ∃ items, Inv toInt file s items := by
  refine h.invariant (I := fun _ s => ∃ items, Inv toInt file s items) ?_ ?_
  · rintro s rfl
    exact ⟨[], Inv.start⟩
  · rintro acts s a s' - ⟨items, hinv⟩ hstep
    cases a with
    | producer p => exact hinv.producer hstep
    | consumer c => exact hinv.consumer hstep

/-- Whenever the mutex is free, the bytes read are those the consumers have summed, those in the ring and those that producers
wait with; and when all processes have exited the total is the sum of the file. -/
theorem checksum_correct (toInt : UInt8 → ℤ) (file : List UInt8) {acts : List Act} {s : State}
    (h : Trace.Run (system toInt file) acts s) :
    ((s.read : Multiset UInt8) = s.got + ring s.shm + ∑ p, (s.prod p).pending ∧ s.read ++ s.rest = file ∧
      s.shm.total + ∑ c, (s.cons c).csum = BitVec.ofInt 32 (s.got.map toInt).sum) ∧
    ((∀ p, s.prod p = .exited) → (∀ c, s.cons c = .exited) → s.shm.total = BitVec.ofInt 32 (file.map toInt).sum) := by
  obtain ⟨items, hinv⟩ := run_inv h
  have hring : ring s.shm = items := hinv.ring.items_eq
  refine ⟨⟨by rw [hring]; exact hinv.kept, hinv.offset, hinv.sums⟩, fun hp hc => ?_⟩
  obtain ⟨-, hempty⟩ := hinv.last ⟨0, hc 0⟩
  have hrest := hinv.eof ⟨0, hp 0⟩
  have hall : (file : Multiset UInt8) = s.got := by
    have hkept := hinv.kept
    simp only [hp, hempty, Producer.pending, sum_const_zero, Multiset.coe_nil, add_zero] at hkept
    rw [← hinv.offset, hrest, List.append_nil, hkept]
  have hsums := hinv.sums
  simp only [hc, Consumer.csum, sum_const_zero, add_zero] at hsums
  rw [hsums, (List.Perm.map toInt (Multiset.coe_eq_coe.1 hall)).sum_eq]

/-- `(int) c` where `char` is signed -/
def signedChar (b : UInt8) : ℤ := if b < 128 then b.toNat else (b.toNat : ℤ) - 256

/-- A schedule for a file of one byte. -/
def oneByte : List Act :=
  [.producer 0, .consumer 0, .consumer 1, .producer 0, .producer 1, .producer 2, .producer 3, .consumer 1, .consumer 0,
    .consumer 1, .consumer 2, .consumer 3]

theorem oneByte_run : ∃ s, oneByte.foldlM (act signedChar) (start [0x41]) = some s ∧ (∀ p, s.prod p = .exited) ∧
    ∀ c, s.cons c = .exited := ⟨_, rfl, by decide, by decide⟩

theorem checksum_correct_one : ∃ s, Trace.Run (system signedChar [0x41]) oneByte s ∧ s.shm.total = 0x41 := by
  obtain ⟨s, hs, hp, hc⟩ := oneByte_run
  have hrun : Trace.Run (system signedChar [0x41]) oneByte s :=
    Trace.Run.of_foldlM (S := system signedChar [0x41]) (fun _ _ _ h => h) rfl hs
  exact ⟨s, hrun, ((checksum_correct signedChar [0x41] hrun).2 hp hc).trans (by decide)⟩

end Xv6.Checksum

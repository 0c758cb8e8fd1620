import Xv6.Spec.Bio
import Mathlib.Data.Fintype.Card

/-! The buffer cache is transparent. Who uses a buffer is counted by `refcnt`, so a buffer that is
recycled is nobody's; and block by block, what was last written is in the block's buffer if that is
dirty, and on the disk if not. -/

namespace Xv6.Bio

open Count Trace Function

/-- The buffer that a stage holds a reference for, without its lock. -/
def Stage.uses : Stage → Option (Fin NBUF)
  | .acquiring i _ _ | .dropping i => some i
  | _ => none

def State.users (s : State) (i : Fin NBUF) : ℕ := refs Finset.univ (fun p => (s.stage p).uses) (some i)

/-- In `bread`, with the buffer for `dev` and `b`. -/
def Stage.wants (x : Stage) (i : Fin NBUF) (dev b : ℕ) : Prop :=
  x = .acquiring i dev b ∨ x = .locked i dev b

/-- What the flags of a buffer say about it; `c` is whether it has been changed. -/
structure Buf.Fits (b : Buf) (c : Bool) : Prop where
  valid : b.valid = true → b.dev = ROOTDEV
  dirty : b.dirty = true → b.valid = true
  changed : c = true → b.lock ≠ none

/-- The structure of the cache. -/
structure Inv (s : State) : Prop where
  ring : ∃ l, Ring.Is s.links l ∧ ∀ i, i ∈ l
  fits : ∀ i, (s.buf i).Fits (s.changed i)
  uniq : ∀ i j, (s.buf i).dev = ROOTDEV → (s.buf j).dev = ROOTDEV →
    (s.buf i).blockno = (s.buf j).blockno → i = j
  count : ∀ i, (s.buf i).refcnt = s.users i + if (s.buf i).lock = none then 0 else 1
  named : ∀ p i dev b, (s.stage p).wants i dev b → (s.buf i).dev = dev ∧ (s.buf i).blockno = b
  locked : ∀ p i dev b, s.stage p = .locked i dev b → (s.buf i).lock = some p ∧ s.changed i = false
  had : ∀ p i, (s.buf i).lock = some p → (∃ dev b, s.stage p = .locked i dev b) ∨ (s.buf i).valid = true

section Structure

variable {s s' : State} {p q : Fin NPROC} {i j : Fin NBUF} {x : Stage} {y : Buf} {c : Bool}

/-- A process changes its stage. -/
theorem users_goto (hs : s'.stage = update s.stage p x) :
    s'.users j + (if (s.stage p).uses = some j then 1 else 0) = s.users j + (if x.uses = some j then 1 else 0) := by
  have h := refs_set (S := Finset.univ) (E := fun q => (s.stage q).uses) (D := fun q => (s'.stage q).uses)
    (x := some j) (Finset.mem_univ p) (fun q _ hq => by simp only [hs, update_of_ne hq])
  rwa [show (s'.stage p).uses = x.uses by rw [hs, update_self]] at h

/-- A buffer that a process is in `bread` for has users. -/
theorem Inv.refcnt_pos (hi : Inv s) {dev b : ℕ} (h : (s.stage p).wants i dev b) : 0 < (s.buf i).refcnt := by
  rw [hi.count i]
  rcases h with h | h
  · have : 0 < s.users i := refs_pos (Finset.mem_univ p) (by rw [h]; rfl)
    omega
  · rw [(hi.locked p i dev b h).1]
    simp

/-- Process `p` goes on to stage `x`, and buffer `i` becomes `y`: what has to be shown of them. -/
structure Moves (s : State) (p : Fin NPROC) (i : Fin NBUF) (x : Stage) (y : Buf) (c : Bool) : Prop where
  fits : y.Fits c
  /-- the buffer keeps its block, or nobody wants it and no other buffer has the new one -/
  ident : (y.dev = (s.buf i).dev ∧ y.blockno = (s.buf i).blockno) ∨ ((s.buf i).refcnt = 0 ∧
    (y.dev = ROOTDEV → ∀ j, j ≠ i → (s.buf j).dev = ROOTDEV → (s.buf j).blockno ≠ y.blockno))
  count : y.refcnt + (if (s.stage p).uses = some i then 1 else 0) + (if (s.buf i).lock = none then 0 else 1) =
    (s.buf i).refcnt + (if x.uses = some i then 1 else 0) + (if y.lock = none then 0 else 1)
  /-- the process is about no other buffer -/
  about : ∀ j, j ≠ i → (s.stage p).uses ≠ some j ∧ x.uses ≠ some j ∧
    (∀ dev b, s.stage p ≠ .locked j dev b ∧ x ≠ .locked j dev b)
  named : ∀ dev b, x.wants i dev b → y.dev = dev ∧ y.blockno = b
  locked : ∀ dev b, x = .locked i dev b → y.lock = some p ∧ c = false
  had : y.lock = some p → (∃ dev b, x = .locked i dev b) ∨ y.valid = true
  /-- the lock and the contents stay if another process has the lock, which `p` cannot get then -/
  other : ∀ q, q ≠ p → (s.buf i).lock = some q ∨ y.lock = some q →
    y.lock = (s.buf i).lock ∧ y.valid = (s.buf i).valid ∧ c = s.changed i

theorem Inv.move (hi : Inv s) (hm : Moves s p i x y c) (hb : s'.buf = update s.buf i y)
    (hs : s'.stage = update s.stage p x) (hc : s'.changed = update s.changed i c)
    (hring : ∃ l, Ring.Is s'.links l ∧ ∀ i, i ∈ l) : Inv s' := by
  have hbi : s'.buf i = y := by rw [hb, update_self]
  have hbj : ∀ j, j ≠ i → s'.buf j = s.buf j := fun j hj => by rw [hb, update_of_ne hj]
  have hsp : s'.stage p = x := by rw [hs, update_self]
  have hsq : ∀ q, q ≠ p → s'.stage q = s.stage q := fun q hq => by rw [hs, update_of_ne hq]
  have hci : s'.changed i = c := by rw [hc, update_self]
  have hcj : ∀ j, j ≠ i → s'.changed j = s.changed j := fun j hj => by rw [hc, update_of_ne hj]
  -- no other buffer has the block of `i`
  have hnew : ∀ j, j ≠ i → y.dev = ROOTDEV → (s.buf j).dev = ROOTDEV → (s.buf j).blockno ≠ y.blockno := by
    intro j hj hy hd
    rcases hm.ident with ⟨h1, h2⟩ | ⟨-, h⟩
    · rw [h2]
      exact fun h => hj (hi.uniq j i hd (h1 ▸ hy) h)
    · exact h hy j hj hd
  refine ⟨hring, fun j => ?_, fun j k hj hk he => ?_, fun j => ?_, fun q j dev b hq => ?_,
    fun q j dev b hq => ?_, fun q j hq => ?_⟩
  · rcases eq_or_ne j i with rfl | hne
    · rw [hbi, hci]
      exact hm.fits
    · rw [hbj j hne, hcj j hne]
      exact hi.fits j
  · rcases eq_or_ne j i with rfl | hne
    · rcases eq_or_ne k j with rfl | hne'
      · rfl
      · rw [hbi] at hj he
        rw [hbj k hne'] at hk he
        exact absurd he.symm (hnew k hne' hj hk)
    · rw [hbj j hne] at hj he
      rcases eq_or_ne k i with rfl | hne'
      · rw [hbi] at hk he
        exact absurd he (hnew j hne hk hj)
      · rw [hbj k hne'] at hk he
        exact hi.uniq j k hj hk he
  · have hu := users_goto (j := j) hs
    rcases eq_or_ne j i with rfl | hne
    · rw [hbi]
      have h1 := hm.count
      have h2 := hi.count j
      omega
    · rw [hbj j hne, hi.count j]
      obtain ⟨h1, h2, -⟩ := hm.about j hne
      rw [if_neg h1, if_neg h2] at hu
      rw [Nat.add_zero, Nat.add_zero] at hu
      rw [hu]
  · rcases eq_or_ne q p with rfl | hne
    · rw [hsp] at hq
      rcases eq_or_ne j i with rfl | hj
      · rw [hbi]
        exact hm.named dev b hq
      · obtain ⟨-, h2, h3⟩ := hm.about j hj
        rcases hq with rfl | rfl
        · exact absurd rfl h2
        · exact absurd rfl (h3 dev b).2
    · rw [hsq q hne] at hq
      rcases eq_or_ne j i with rfl | hj
      · rw [hbi]
        rcases hm.ident with ⟨h1, h2⟩ | ⟨h0, -⟩
        · rw [h1, h2]
          exact hi.named q j dev b hq
        · exact absurd h0 (hi.refcnt_pos hq).ne'
      · rw [hbj j hj]
        exact hi.named q j dev b hq
  · rcases eq_or_ne q p with rfl | hne
    · rw [hsp] at hq
      rcases eq_or_ne j i with rfl | hj
      · rw [hbi, hci]
        exact hm.locked dev b hq
      · exact absurd hq ((hm.about j hj).2.2 dev b).2
    · rw [hsq q hne] at hq
      obtain ⟨h1, h2⟩ := hi.locked q j dev b hq
      rcases eq_or_ne j i with rfl | hj
      · obtain ⟨h3, -, h4⟩ := hm.other q hne (.inl h1)
        rw [hbi, hci, h3, h4]
        exact ⟨h1, h2⟩
      · rw [hbj j hj, hcj j hj]
        exact ⟨h1, h2⟩
  · rcases eq_or_ne j i with rfl | hj
    · rw [hbi] at hq ⊢
      rcases eq_or_ne q p with rfl | hne
      · rw [hsp]
        exact hm.had hq
      · obtain ⟨h3, h4, -⟩ := hm.other q hne (.inr hq)
        rw [hsq q hne, h4]
        exact hi.had q j (h3 ▸ hq)
    · rw [hbj j hj] at hq ⊢
      rcases hi.had q j hq with ⟨dev, b, h⟩ | h
      · rcases eq_or_ne q p with rfl | hne
        · exact absurd h ((hm.about j hj).2.2 dev b).1
        · rw [hsq q hne]
          exact .inl ⟨dev, b, h⟩
      · exact .inr h

end Structure

/-- Where the last version of each block, `L b`, is. -/
structure Fresh (L : ℕ → Sector) (s : State) : Prop where
  clean : ∀ i, (s.buf i).dev = ROOTDEV → (s.buf i).valid = true → s.changed i = false →
    (s.buf i).data = L (s.buf i).blockno
  synced : ∀ i, (s.buf i).dev = ROOTDEV → (s.buf i).dirty = false →
    s.disk (s.buf i).blockno = L (s.buf i).blockno
  absent : ∀ b, (∀ i, (s.buf i).dev = ROOTDEV → (s.buf i).blockno ≠ b) → s.disk b = L b

section Contents

variable {s s' : State} {p q : Fin NPROC} {i j : Fin NBUF} {x : Stage} {y : Buf} {c : Bool} {L : ℕ → Sector}
  {dev b : ℕ} {a : Act}

/-- A buffer becomes `y` for the same block, and the disk stays. -/
theorem Fresh.move (hf : Fresh L s) (hb : s'.buf = update s.buf i y)
    (hc : s'.changed = update s.changed i c) (hd : s'.disk = s.disk)
    (hid : y.dev = (s.buf i).dev ∧ y.blockno = (s.buf i).blockno)
    (hclean : y.dev = ROOTDEV → y.valid = true → c = false → y.data = L y.blockno)
    (hdirty : y.dirty = false → (s.buf i).dirty = false) : Fresh L s' := by
  have hbi : s'.buf i = y := by rw [hb, update_self]
  have hbj : ∀ j, j ≠ i → s'.buf j = s.buf j := fun j hj => by rw [hb, update_of_ne hj]
  refine ⟨fun j => ?_, fun j => ?_, fun b h => ?_⟩
  · rcases eq_or_ne j i with rfl | hne
    · rw [hbi, hc, update_self]
      exact hclean
    · rw [hbj j hne, hc, update_of_ne hne]
      exact hf.clean j
  · rw [hd]
    rcases eq_or_ne j i with rfl | hne
    · rw [hbi, hid.1, hid.2]
      exact fun h1 h2 => hf.synced j h1 (hdirty h2)
    · rw [hbj j hne]
      exact hf.synced j
  · rw [hd]
    refine hf.absent b fun j hj => ?_
    rcases eq_or_ne j i with rfl | hne
    · rw [← hid.2, ← hbi]
      refine h j ?_
      rw [hbi, hid.1]
      exact hj
    · rw [← hbj j hne] at hj ⊢
      exact h j hj

/-- The holder of the lock passes block `b` on, with `data`: to the log or to the disk. -/
theorem Fresh.write (hi : Inv s) (hf : Fresh L s) (hb : s'.buf = update s.buf i y)
    (hc : s'.changed = update s.changed i c) (hdev : (s.buf i).dev = ROOTDEV)
    (hid : y.dev = (s.buf i).dev ∧ y.blockno = (s.buf i).blockno ∧ y.data = (s.buf i).data)
    (hd : ∀ b, b ≠ (s.buf i).blockno → s'.disk b = s.disk b)
    (hdirty : y.dirty = false → s'.disk (s.buf i).blockno = (s.buf i).data) :
    Fresh (update L (s.buf i).blockno (s.buf i).data) s' := by
  obtain ⟨h1, h2, h3⟩ := hid
  have hbi : s'.buf i = y := by rw [hb, update_self]
  have hbj : ∀ j, j ≠ i → s'.buf j = s.buf j := fun j hj => by rw [hb, update_of_ne hj]
  have hne : ∀ j, j ≠ i → (s.buf j).dev = ROOTDEV → (s.buf j).blockno ≠ (s.buf i).blockno :=
    fun j hj hdj h => hj (hi.uniq j i hdj hdev h)
  refine ⟨fun j => ?_, fun j => ?_, fun b h => ?_⟩
  · rcases eq_or_ne j i with rfl | hj
    · rw [hbi, h2, h3, update_self]
      exact fun _ _ _ => rfl
    · rw [hbj j hj, hc, update_of_ne hj]
      intro hdj
      rw [update_of_ne (hne j hj hdj)]
      exact hf.clean j hdj
  · rcases eq_or_ne j i with rfl | hj
    · rw [hbi, h2, update_self]
      exact fun _ hdj => hdirty hdj
    · rw [hbj j hj]
      intro hdj
      rw [update_of_ne (hne j hj hdj), hd _ (hne j hj hdj)]
      exact hf.synced j hdj
  · have hb : b ≠ (s.buf i).blockno := by
      rintro rfl
      refine h i ?_ ?_
      · rw [hbi, h1, hdev]
      · rw [hbi, h2]
    rw [update_of_ne hb, hd b hb]
    refine hf.absent b fun j hj => ?_
    rcases eq_or_ne j i with rfl | hji
    · exact hb.symm
    · rw [← hbj j hji] at hj ⊢
      exact h j hj

/-- An unused buffer is given to block `b`, which no buffer had. -/
theorem Fresh.recycle (hf : Fresh L s) (hb : s'.buf = update s.buf i y)
    (hc : s'.changed = s.changed) (hd : s'.disk = s.disk) (hy : y.dev = dev ∧ y.blockno = b)
    (hv : y.valid = false) (hno : ∀ j, s.isBlock dev b j = false) (hu : (s.buf i).dirty = false) :
    Fresh L s' := by
  have hbi : s'.buf i = y := by rw [hb, update_self]
  have hbj : ∀ j, j ≠ i → s'.buf j = s.buf j := fun j hj => by rw [hb, update_of_ne hj]
  refine ⟨fun j => ?_, fun j => ?_, fun b' h => ?_⟩
  · rcases eq_or_ne j i with rfl | hj
    · rw [hbi, hv]
      exact fun _ h => by cases h
    · rw [hbj j hj, hc]
      exact hf.clean j
  · rw [hd]
    rcases eq_or_ne j i with rfl | hj
    · rw [hbi, hy.1, hy.2]
      intro hdev _
      refine hf.absent b fun k hk hkb => ?_
      have := hno k
      simp [State.isBlock, hk, hkb, hdev] at this
    · rw [hbj j hj]
      exact hf.synced j
  · rw [hd]
    by_cases hold : (s.buf i).dev = ROOTDEV ∧ (s.buf i).blockno = b'
    · -- the block whose buffer goes: it was not dirty
      rw [← hold.2]
      exact hf.synced i hold.1 hu
    · refine hf.absent b' fun j hj hjb => ?_
      rcases eq_or_ne j i with rfl | hji
      · exact hold ⟨hj, hjb⟩
      · rw [← hbj j hji] at hj hjb
        exact h j hj hjb

theorem iderw_cases (h : s.iderw i = some s') : (s.buf i).dev = ROOTDEV ∧
    (((s.buf i).dirty = true ∧ s' = { s.setBuf i { s.buf i with dirty := false, valid := true } with
        disk := update s.disk (s.buf i).blockno (s.buf i).data }) ∨
      ((s.buf i).dirty = false ∧
        s' = s.setBuf i { s.buf i with data := s.disk (s.buf i).blockno, valid := true })) := by
  unfold State.iderw at h
  dsimp only at h
  split_ifs at h with h1 h2 h3 h4 h5
  · cases h
    exact ⟨not_not.1 h3, .inl ⟨h5, rfl⟩⟩
  · cases h
    exact ⟨not_not.1 h3, .inr ⟨by simpa using h5, rfl⟩⟩

theorem bwrite_eq (h : s.bwrite i = some s') :
    s' = { s.setBuf i { s.buf i with dirty := false, valid := true } with
      disk := update s.disk (s.buf i).blockno (s.buf i).data } := by
  obtain ⟨-, hcase⟩ := iderw_cases h
  rw [show (s.setBuf i { s.buf i with dirty := true }).buf i = { s.buf i with dirty := true } from
    update_self ..] at hcase
  rcases hcase with ⟨-, rfl⟩ | ⟨hd, -⟩
  · simp [State.setBuf]
  · cases hd

/-- The last versions after a step. -/
def Act.upd (L : ℕ → Sector) : Act → ℕ → Sector
  | .logWrite _ _ b data | .bwrite _ _ b data => update L b data
  | _ => L

/-- A process that has a buffer has the lock of a valid buffer of the root device. -/
theorem Inv.of_has (hi : Inv s) (h : s.has p i) : (s.buf i).valid = true ∧ (s.buf i).dev = ROOTDEV := by
  obtain ⟨ho, hl⟩ := h
  have hv : (s.buf i).valid = true := by
    rcases hi.had p i hl with ⟨dev, b, h⟩ | h
    · rw [ho] at h
      cases h
    · exact h
  exact ⟨hv, (hi.fits i).valid hv⟩

theorem out_about (ho : s.stage p = .out) (j : Fin NBUF) : (s.stage p).uses ≠ some j ∧
    (s.stage p).uses ≠ some j ∧ ∀ dev b, s.stage p ≠ .locked j dev b ∧ s.stage p ≠ .locked j dev b := by
  rw [ho]
  exact ⟨nofun, nofun, fun _ _ => ⟨nofun, nofun⟩⟩

/-- The holder of a buffer changes its contents or its flags. -/
theorem Inv.hold (hi : Inv s) (hp : s.has p i) (hfit : y.Fits c) (hv : y.valid = true)
    (hid : y.dev = (s.buf i).dev ∧ y.blockno = (s.buf i).blockno ∧ y.refcnt = (s.buf i).refcnt ∧
      y.lock = (s.buf i).lock)
    (hb : s'.buf = update s.buf i y) (hs : s'.stage = s.stage)
    (hc : s'.changed = update s.changed i c) (hl : s'.links = s.links) : Inv s' := by
  obtain ⟨h1, h2, h3, h4⟩ := hid
  refine hi.move (p := p) (x := s.stage p) ⟨hfit, .inl ⟨h1, h2⟩, ?_, fun j _ => out_about hp.1 j, ?_, ?_,
    fun _ => .inr hv, fun q hq hlock => ?_⟩ hb (by rw [hs, update_eq_self]) hc (hl ▸ hi.ring)
  · rw [h3, h4]
  · rw [hp.1]
    rintro dev b (h | h) <;> cases h
  · rw [hp.1]
    exact nofun
  · rw [h4, or_self, hp.2] at hlock
    cases hlock
    exact absurd rfl hq

/-- No buffer has the block, if the search of `bget` finds none. -/
theorem Inv.not_cached (hi : Inv s) (h : s.cached dev b = none) (j : Fin NBUF) : s.isBlock dev b j = false := by
  obtain ⟨l, ⟨hseg, hnd⟩, hall⟩ := hi.ring
  refine hseg.find_none ?_ h j (hall j)
  have := List.Nodup.length_le_card hnd
  rwa [Fintype.card_fin] at this

theorem Inv.bget (hi : Inv s) (hf : Fresh L s) {dev b : ℕ} (hp : s.stage p = .out)
    (h : s.bget p dev b = some s') : Inv s' ∧ Fresh L s' := by
  have hchg : ∀ i, s.changed = update s.changed i (s.changed i) :=
    fun i => (update_eq_self i s.changed).symm
  have hab : ∀ i j : Fin NBUF, j ≠ i → (s.stage p).uses ≠ some j ∧ (Stage.acquiring i dev b).uses ≠ some j ∧
      ∀ dev' b', s.stage p ≠ .locked j dev' b' ∧ Stage.acquiring i dev b ≠ .locked j dev' b' := by
    intro i j hj
    rw [hp]
    exact ⟨nofun, fun h => hj (Option.some.inj h).symm, fun _ _ => ⟨nofun, nofun⟩⟩
  unfold State.bget at h
  cases hfind : s.cached dev b with
  | some i =>
    rw [hfind] at h
    cases h
    have hblock : (s.buf i).dev = dev ∧ (s.buf i).blockno = b := by
      simpa [State.isBlock] using Ring.find_sound hfind
    constructor
    · refine hi.move (p := p) (x := .acquiring i dev b) (c := s.changed i)
        (y := { s.buf i with refcnt := (s.buf i).refcnt + 1 }) ⟨⟨(hi.fits i).valid, (hi.fits i).dirty,
        (hi.fits i).changed⟩, .inl ⟨rfl, rfl⟩, ?_, hab i, ?_, nofun, fun hl => ?_, fun q hq _ =>
        ⟨rfl, rfl, rfl⟩⟩ rfl rfl (hchg i) hi.ring
      · rw [hp]
        simp [Stage.uses]
      · rintro dev' b' (h | h)
        · cases h
          exact hblock
        · cases h
      · rcases hi.had p i hl with ⟨dev', b', h⟩ | h
        · rw [hp] at h
          cases h
        · exact .inr h
    · exact hf.move rfl (hchg i) rfl ⟨rfl, rfl⟩ (hf.clean i) (fun h => h)
  | none =>
    rw [hfind] at h
    dsimp only at h
    have hno := hi.not_cached hfind
    cases hrec : s.recyclable with
    | none =>
      rw [hrec] at h
      cases h
    | some i =>
      rw [hrec] at h
      cases h
      have hun : (s.buf i).refcnt = 0 ∧ (s.buf i).dirty = false := by
        simpa [State.unused] using Ring.find_sound hrec
      have hlock : (s.buf i).lock = none := by
        have hcount := hi.count i
        rw [hun.1] at hcount
        by_contra hne
        rw [if_neg hne] at hcount
        omega
      constructor
      · refine hi.move (p := p) (x := .acquiring i dev b) (c := s.changed i)
          (y := { s.buf i with dev := dev, blockno := b, valid := false, dirty := false, refcnt := 1 })
          ⟨⟨nofun, nofun, (hi.fits i).changed⟩,
          .inr ⟨hun.1, fun hd j _ hj hjb => ?_⟩, ?_, hab i, ?_, nofun, fun hl => ?_,
          fun q _ hl => ?_⟩ rfl rfl (hchg i) hi.ring
        · have hjno := hno j
          simp only [State.isBlock, hj, hjb, ← hd] at hjno
          simp at hjno
        · rw [hp, hun.1, hlock]
          simp [Stage.uses]
        · rintro dev' b' (h | h) <;> cases h
          exact ⟨rfl, rfl⟩
        · rw [hlock] at hl
          cases hl
        · rw [hlock] at hl
          rcases hl with h | h <;> cases h
      · exact hf.recycle rfl rfl rfl ⟨rfl, rfl⟩ rfl hno hun.2

theorem Inv.lock (hi : Inv s) (hf : Fresh L s) {dev b : ℕ} (hp : s.stage p = .acquiring i dev b)
    (hl : (s.buf i).lock = none) :
    Inv ((s.setBuf i { s.buf i with lock := some p }).goto p (.locked i dev b)) ∧
      Fresh L ((s.setBuf i { s.buf i with lock := some p }).goto p (.locked i dev b)) := by
  have hchg : s.changed = update s.changed i (s.changed i) :=
    (update_eq_self i s.changed).symm
  have hclean : s.changed i = false := by
    rw [← Bool.not_eq_true]
    exact fun h => (hi.fits i).changed h hl
  have hblock := hi.named p i dev b (.inl hp)
  constructor
  · refine hi.move (p := p) (x := .locked i dev b) (c := s.changed i) (y := { s.buf i with lock := some p })
      ⟨⟨(hi.fits i).valid, (hi.fits i).dirty, fun _ => nofun⟩,
      .inl ⟨rfl, rfl⟩, ?_, fun j hj => ?_, ?_, fun _ _ _ => ⟨rfl, hclean⟩, fun _ => .inl ⟨dev, b, rfl⟩,
      fun q hq h => ?_⟩ rfl rfl hchg hi.ring
    · rw [hp, hl]
      simp [Stage.uses]
    · rw [hp]
      refine ⟨fun h => hj (Option.some.inj h).symm, nofun, fun _ _ => ⟨nofun, ?_⟩⟩
      rintro ⟨⟩
      exact hj rfl
    · rintro dev' b' (h | h) <;> cases h
      exact hblock
    · rw [hl] at h
      rcases h with h | h
      · cases h
      · cases h
        exact absurd rfl hq
  · exact hf.move rfl hchg rfl ⟨rfl, rfl⟩ (hf.clean i) (fun h => h)

/-- A process changes its stage only, and leaves `bread` with buffer `i`. -/
theorem Inv.return (hi : Inv s) (hp : s.stage p = .locked i dev b) (hv : y.valid = true)
    (hy : y.dev = (s.buf i).dev ∧ y.blockno = (s.buf i).blockno ∧ y.refcnt = (s.buf i).refcnt ∧
      y.lock = (s.buf i).lock) (hdev : y.dev = ROOTDEV) (hb : s'.buf = update s.buf i y)
    (hs : s'.stage = update s.stage p .out) (hc : s'.changed = s.changed)
    (hl : s'.links = s.links) : Inv s' := by
  obtain ⟨h1, h2, h3, h4⟩ := hy
  obtain ⟨hlock, hclean⟩ := hi.locked p i dev b hp
  refine hi.move (p := p) (x := .out) (c := s.changed i) ⟨⟨fun _ => hdev, fun _ => hv, fun h => ?_⟩,
    .inl ⟨h1, h2⟩, ?_, fun j hj => ?_, ?_, nofun, fun _ => .inr hv, fun q hq h => ?_⟩ hb hs
    (by rw [hc, update_eq_self]) (hl ▸ hi.ring)
  · rw [hclean] at h
    cases h
  · rw [h3, h4, hp]
    simp [Stage.uses]
  · rw [hp]
    refine ⟨nofun, nofun, fun _ _ => ⟨?_, nofun⟩⟩
    rintro ⟨⟩
    exact hj rfl
  · rintro _ _ (h | h) <;> cases h
  · rw [h4, or_self, hlock] at h
    cases h
    exact absurd rfl hq

theorem Inv.read (hi : Inv s) (hf : Fresh L s) {dev b : ℕ} (hp : s.stage p = .locked i dev b)
    (hv : (s.buf i).valid = false) (h : s.iderw i = some s') :
    Inv (s'.goto p .out) ∧ Fresh L (s'.goto p .out) := by
  have hd : (s.buf i).dirty = false := by
    rw [← Bool.not_eq_true]
    intro hd
    rw [(hi.fits i).dirty hd] at hv
    cases hv
  obtain ⟨hdev, ⟨hd', -⟩ | ⟨-, rfl⟩⟩ := iderw_cases h
  · rw [hd] at hd'
    cases hd'
  · constructor
    · exact hi.return hp (y := { s.buf i with data := s.disk (s.buf i).blockno, valid := true }) rfl
        ⟨rfl, rfl, rfl, rfl⟩ hdev rfl rfl rfl rfl
    · exact hf.move (y := { s.buf i with data := s.disk (s.buf i).blockno, valid := true }) rfl
        (update_eq_self i s.changed).symm rfl ⟨rfl, rfl⟩ (fun _ _ _ => hf.synced i hdev hd)
        (fun h => h)

theorem Inv.bwrite (hi : Inv s) (hf : Fresh L s) (hp : s.has p i) (h : s.bwrite i = some s') :
    Inv (s'.mark i false) ∧
      Fresh (update L (s.buf i).blockno (s.buf i).data) (s'.mark i false) := by
  obtain ⟨hv, hdev⟩ := hi.of_has hp
  rw [bwrite_eq h]
  constructor
  · exact hi.hold hp (y := { s.buf i with dirty := false, valid := true }) (c := false)
      ⟨fun _ => hdev, nofun, nofun⟩ rfl ⟨rfl, rfl, rfl, rfl⟩ rfl rfl rfl rfl
  · exact hf.write hi (y := { s.buf i with dirty := false, valid := true }) rfl rfl hdev ⟨rfl, rfl, rfl⟩
      (fun b hne => update_of_ne hne ..) (fun _ => update_self ..)

theorem Inv.brelse (hi : Inv s) (hf : Fresh L s) (hp : s.has p i) (hc : s.changed i = false) :
    Inv ((s.setBuf i { s.buf i with lock := none }).goto p (.dropping i)) ∧
      Fresh L ((s.setBuf i { s.buf i with lock := none }).goto p (.dropping i)) := by
  have hchg : s.changed = update s.changed i false := by
    rw [← hc, update_eq_self]
  constructor
  · refine hi.move (p := p) (x := .dropping i) (c := false) (y := { s.buf i with lock := none })
      ⟨⟨(hi.fits i).valid, (hi.fits i).dirty, nofun⟩, .inl ⟨rfl, rfl⟩, ?_, fun j hj => ?_, ?_, nofun, nofun,
      fun q hq h => ?_⟩ rfl rfl hchg hi.ring
    · rw [hp.1, hp.2]
      simp [Stage.uses]
    · rw [hp.1]
      exact ⟨nofun, fun h => hj (Option.some.inj h).symm, fun _ _ => ⟨nofun, nofun⟩⟩
    · rintro _ _ (h | h) <;> cases h
    · rw [hp.2] at h
      rcases h with h | h
      · cases h
        exact absurd rfl hq
      · cases h
  · exact hf.move rfl hchg rfl ⟨rfl, rfl⟩ (fun h1 h2 _ => hf.clean i h1 h2 hc) (fun h => h)

theorem Inv.unref (hi : Inv s) (hf : Fresh L s) (hp : s.stage p = .dropping i) :
    Inv ((s.unref i).goto p .out) ∧ Fresh L ((s.unref i).goto p .out) := by
  have hchg : s.changed = update s.changed i (s.changed i) :=
    (update_eq_self i s.changed).symm
  have hpos : 0 < (s.buf i).refcnt := by
    have hu : 0 < s.users i := refs_pos (Finset.mem_univ p) (by rw [hp]; rfl)
    rw [hi.count i]
    omega
  have hbuf : ((s.unref i).goto p .out).buf =
      update s.buf i { s.buf i with refcnt := (s.buf i).refcnt - 1 } := by
    unfold State.unref
    dsimp only
    split_ifs <;> rfl
  have hstage : ((s.unref i).goto p .out).stage = update s.stage p .out := by
    unfold State.unref
    dsimp only
    split_ifs <;> rfl
  have hchanged : ((s.unref i).goto p .out).changed = s.changed := by
    unfold State.unref
    dsimp only
    split_ifs <;> rfl
  have hdisk : ((s.unref i).goto p .out).disk = s.disk := by
    unfold State.unref
    dsimp only
    split_ifs <;> rfl
  have hring : ∃ l, Ring.Is ((s.unref i).goto p .out).links l ∧ ∀ i, i ∈ l := by
    obtain ⟨l, hl, hall⟩ := hi.ring
    unfold State.unref
    dsimp only
    split_ifs
    · obtain ⟨l', hl', hperm⟩ := hl.front (hall i)
      exact ⟨l', hl', fun j => hperm.mem_iff.2 (hall j)⟩
    · exact ⟨l, hl, hall⟩
  constructor
  · refine hi.move (p := p) (x := .out) (c := s.changed i)
      (y := { s.buf i with refcnt := (s.buf i).refcnt - 1 }) ⟨⟨(hi.fits i).valid, (hi.fits i).dirty,
      (hi.fits i).changed⟩, .inl ⟨rfl, rfl⟩, ?_, fun j hj => ?_, ?_, nofun, fun hl => ?_,
      fun q hq h => ⟨rfl, rfl, rfl⟩⟩ hbuf hstage (hchanged.trans hchg) hring
    · rw [hp]
      simp only [Stage.uses, if_true, reduceCtorEq, if_false]
      omega
    · rw [hp]
      exact ⟨fun h => hj (Option.some.inj h).symm, nofun, fun _ _ => ⟨nofun, nofun⟩⟩
    · rintro _ _ (h | h) <;> cases h
    · rcases hi.had p i hl with ⟨dev, b, h⟩ | h
      · rw [hp] at h
        cases h
      · exact .inr h
  · exact hf.move hbuf (hchanged.trans hchg) hdisk ⟨rfl, rfl⟩ (hf.clean i) (fun h => h)

/-- Every step keeps both invariants. -/
theorem Inv.step (hi : Inv s) (hf : Fresh L s) (h : Step s a s') : Inv s' ∧ Fresh (a.upd L) s' := by
  cases h with
  | bget hp h => exact hi.bget hf hp h
  | lock hp hl => exact hi.lock hf hp hl
  | @hit p i dev b hp hv =>
    have hself : s.buf = update s.buf i (s.buf i) := (update_eq_self i s.buf).symm
    constructor
    · exact hi.return hp hv ⟨rfl, rfl, rfl, rfl⟩ ((hi.fits i).valid hv) hself rfl rfl rfl
    · exact hf.move hself (update_eq_self i s.changed).symm rfl ⟨rfl, rfl⟩ (hf.clean i) (fun h => h)
  | read hp hv h => exact hi.read hf hp hv h
  | @modify p i data hp =>
    obtain ⟨hv, hdev⟩ := hi.of_has hp
    constructor
    · exact hi.hold hp (y := { s.buf i with data := data }) (c := true)
        ⟨(hi.fits i).valid, (hi.fits i).dirty, fun _ => by simp [hp.2]⟩ hv ⟨rfl, rfl, rfl, rfl⟩ rfl rfl rfl rfl
    · exact hf.move (y := { s.buf i with data := data }) (c := true) rfl rfl rfl ⟨rfl, rfl⟩ nofun (fun h => h)
  | @logWrite p i hp =>
    obtain ⟨hv, hdev⟩ := hi.of_has hp
    constructor
    · exact hi.hold hp (y := { s.buf i with dirty := true }) (c := false)
        ⟨(hi.fits i).valid, fun _ => hv, nofun⟩ hv ⟨rfl, rfl, rfl, rfl⟩ rfl rfl rfl rfl
    · exact hf.write hi (y := { s.buf i with dirty := true }) rfl rfl hdev ⟨rfl, rfl, rfl⟩ (fun _ _ => rfl) nofun
  | bwrite hp h => exact hi.bwrite hf hp h
  | brelse hp hc => exact hi.brelse hf hp hc
  | unref hp => exact hi.unref hf hp

theorem binit_ring : ∃ l, Ring.Is binit l ∧ ∀ i, i ∈ l := by
  have h : ∀ (xs l : List (Fin NBUF)) (r : Ring.Links (Fin NBUF)), Ring.Is r l → (xs ++ l).Nodup →
      Ring.Is (xs.foldl Ring.Links.push r) (xs.reverse ++ l) := by
    intro xs
    induction xs with
    | nil => exact fun l r hr _ => hr
    | cons x xs ih =>
      intro l r hr hn
      have hmid : (xs ++ x :: l).Nodup := List.nodup_middle.2 hn
      have hx : x ∉ l := (List.nodup_cons.1 (List.nodup_append.1 hmid).2.1).1
      simpa using ih (x :: l) (r.push x) (hr.push hx) hmid
  refine ⟨_, h (List.finRange NBUF) [] .empty Ring.is_empty ?_, fun i => by simp⟩
  rw [List.append_nil]
  exact List.nodup_finRange NBUF

/-- What was last written, or the contents at the start. -/
def latest (disk : ℕ → Sector) (as : List Act) (b : ℕ) : Sector := (written as b).getD (disk b)

theorem latest_snoc (disk : ℕ → Sector) (as : List Act) (a : Act) :
    latest disk (as ++ [a]) = a.upd (latest disk as) := by
  funext b
  unfold latest written
  rw [List.foldl_append]
  cases a with
  | logWrite p i b' data =>
    rcases eq_or_ne b b' with rfl | hne
    · simp [Act.upd]
    · simp [Act.upd, update_of_ne hne, hne.symm]
  | bwrite p i b' data =>
    rcases eq_or_ne b b' with rfl | hne
    · simp [Act.upd]
    · simp [Act.upd, update_of_ne hne, hne.symm]
  | _ => rfl

theorem inv_of_run {disk : ℕ → Sector} {disksize : ℕ} {as : List Act} (h : Run (system disk disksize) as s) :
    Inv s ∧ Fresh (latest disk as) s := by
  refine h.invariant (I := fun as s => Inv s ∧ Fresh (latest disk as) s) ?_ ?_
  · rintro s rfl
    refine ⟨⟨binit_ring, fun _ => ⟨nofun, nofun, nofun⟩, fun i j h => ?_, fun i => ?_, ?_, nofun, nofun⟩,
      fun i h => ?_, fun i h => ?_, fun b _ => rfl⟩
    · cases h
    · have : ({ links := binit, disk := disk, disksize := disksize } : State).users i = 0 :=
        refs_eq_zero.2 fun _ _ => nofun
      simp [this]
    · rintro _ _ _ _ (h | h) <;> cases h
    · cases h
    · cases h
  · rintro as s a s' - ⟨hi, hf⟩ hs
    rw [latest_snoc]
    exact hi.step hf hs

/-- A buffer changes its block only while nobody uses it and it is not dirty. -/
theorem Step.recycled (h : Step s a s')
    (hne : (s'.buf i).dev ≠ (s.buf i).dev ∨ (s'.buf i).blockno ≠ (s.buf i).blockno) :
    (s.buf i).refcnt = 0 ∧ (s.buf i).dirty = false := by
  -- whatever is done to one buffer, if it keeps its block
  have hset : ∀ (j : Fin NBUF) (y : Buf), y.dev = (s.buf j).dev → y.blockno = (s.buf j).blockno →
      ((update s.buf j y) i).dev = (s.buf i).dev ∧
        ((update s.buf j y) i).blockno = (s.buf i).blockno := by
    intro j y h1 h2
    rcases eq_or_ne i j with rfl | hij
    · rw [update_self]
      exact ⟨h1, h2⟩
    · rw [update_of_ne hij]
      exact ⟨rfl, rfl⟩
  have hkeep : (s'.buf i).dev = (s.buf i).dev ∧ (s'.buf i).blockno = (s.buf i).blockno →
      (s.buf i).refcnt = 0 ∧ (s.buf i).dirty = false := fun hk => by
    rcases hne with h | h
    · exact absurd hk.1 h
    · exact absurd hk.2 h
  cases h with
  | @bget _ p dev b hp h =>
    unfold State.bget at h
    cases hfind : s.cached dev b with
    | some j =>
      rw [hfind] at h
      cases h
      exact hkeep (hset j _ rfl rfl)
    | none =>
      rw [hfind] at h
      dsimp only at h
      cases hrec : s.recyclable with
      | none =>
        rw [hrec] at h
        cases h
      | some j =>
        rw [hrec] at h
        cases h
        rcases eq_or_ne i j with rfl | hij
        · simpa [State.unused] using Ring.find_sound hrec
        · refine hkeep ?_
          change ((update s.buf j _) i).dev = _ ∧ ((update s.buf j _) i).blockno = _
          rw [update_of_ne hij]
          exact ⟨rfl, rfl⟩
  | lock hp hl => exact hkeep (hset _ _ rfl rfl)
  | hit hp hv => exact hkeep ⟨rfl, rfl⟩
  | read hp hv h =>
    obtain ⟨-, ⟨-, rfl⟩ | ⟨-, rfl⟩⟩ := iderw_cases h
    · exact hkeep (hset _ _ rfl rfl)
    · exact hkeep (hset _ _ rfl rfl)
  | modify hp => exact hkeep (hset _ _ rfl rfl)
  | logWrite hp => exact hkeep (hset _ _ rfl rfl)
  | @bwrite _ p j hp h =>
    rw [bwrite_eq h] at hkeep
    exact hkeep (hset j _ rfl rfl)
  | brelse hp hc => exact hkeep (hset _ _ rfl rfl)
  | @unref p j hp =>
    refine hkeep ?_
    have hbuf : ((s.unref j).goto p .out).buf =
        update s.buf j { s.buf j with refcnt := (s.buf j).refcnt - 1 } := by
      unfold State.unref
      dsimp only
      split_ifs <;> rfl
    rw [hbuf]
    exact hset _ _ rfl rfl

theorem Inv.bread_fresh (hi : Inv s) (hf : Fresh L s) {data : Sector}
    (h : Step s (.bread p i ROOTDEV b data) s') : data = L b := by
  cases h with
  | hit hp hv =>
    obtain ⟨hdev, hb⟩ := hi.named p i _ b (.inr hp)
    rw [hf.clean i hdev hv (hi.locked p i _ b hp).2, hb]
  | read hp hv h =>
    obtain ⟨hdev, hb⟩ := hi.named p i _ b (.inr hp)
    have hd : (s.buf i).dirty = false := by
      rw [← Bool.not_eq_true]
      intro hd
      rw [(hi.fits i).dirty hd] at hv
      cases hv
    obtain ⟨-, ⟨hd', -⟩ | ⟨-, rfl⟩⟩ := iderw_cases h
    · rw [hd] at hd'
      cases hd'
    · rw [← hb, ← hf.synced i hdev hd]
      simp [State.setBuf]

/-- In every state of every run: what `bread` returns; that a block has one buffer; that the links
make one ring of all the buffers; and which buffers can be recycled. -/
theorem buffer_cache_transparent {disk : ℕ → Sector} {disksize : ℕ} {as : List Act}
    (h : Run (system disk disksize) as s) :
    (∀ p i b data s', Step s (.bread p i ROOTDEV b data) s' → data = latest disk as b) ∧
      (∀ i j, (s.buf i).dev = ROOTDEV → (s.buf j).dev = ROOTDEV →
        (s.buf i).blockno = (s.buf j).blockno → i = j) ∧
      (∃ l, Ring.Is s.links l ∧ l.Perm (List.finRange NBUF)) ∧
      ∀ a s' i, Step s a s' →
        (s'.buf i).dev ≠ (s.buf i).dev ∨ (s'.buf i).blockno ≠ (s.buf i).blockno →
        (s.buf i).refcnt = 0 ∧ (s.buf i).dirty = false := by
  obtain ⟨hi, hf⟩ := inv_of_run h
  refine ⟨fun p i b data s' hs => hi.bread_fresh hf hs, hi.uniq, ?_, fun a s' i hs => hs.recycled⟩
  obtain ⟨l, hl, hall⟩ := hi.ring
  refine ⟨l, hl, (List.perm_ext_iff_of_nodup hl.2 (List.nodup_finRange NBUF)).2 fun i => ?_⟩
  simp [hall i]

def p0 : Fin NPROC := ⟨0, NPROC_pos⟩

def b0 : Fin NBUF := ⟨0, by decide⟩

/-- A block is read, changed and logged, and read again. -/
def logAndRead : List Act :=
  [.bget p0 ROOTDEV 5, .lock p0, .bread p0 b0 ROOTDEV 5 fun _ => 0, .modify p0 b0 fun _ => 7,
    .logWrite p0 b0 5 fun _ => 7, .brelse p0 b0, .unref p0, .bget p0 ROOTDEV 5, .lock p0]

theorem buffer_cache_transparent_logged : ∃ s s' data, Run (system (fun _ _ => 0) FSSIZE) logAndRead s ∧
    Step s (.bread p0 b0 ROOTDEV 5 data) s' ∧ data = fun _ => 7 := by
  have h1 : Run (system (fun _ _ => 0) FSSIZE) [.bget p0 ROOTDEV 5] _ := (Run.start rfl).snoc (.bget rfl rfl)
  have h2 := h1.snoc (@Step.lock _ p0 b0 ROOTDEV 5 rfl rfl)
  have h3 := h2.snoc (@Step.read _ _ p0 b0 ROOTDEV 5 rfl rfl rfl)
  have h4 := h3.snoc (@Step.modify _ p0 b0 (fun _ => 7) ⟨rfl, rfl⟩)
  have h5 := h4.snoc (@Step.logWrite _ p0 b0 ⟨rfl, rfl⟩)
  have h6 := h5.snoc (@Step.brelse _ p0 b0 ⟨rfl, rfl⟩ rfl)
  have h7 := h6.snoc (@Step.unref _ p0 b0 rfl)
  have h8 := h7.snoc (@Step.bget _ _ p0 ROOTDEV 5 rfl rfl)
  have h9 := h8.snoc (@Step.lock _ p0 b0 ROOTDEV 5 rfl rfl)
  refine ⟨_, _, _, h9, @Step.hit _ p0 b0 ROOTDEV 5 rfl rfl, ?_⟩
  exact (buffer_cache_transparent h9).1 p0 b0 5 _ _ (@Step.hit _ p0 b0 ROOTDEV 5 rfl rfl)

end Contents

end Xv6.Bio

import Xv6.Proofs.FileMap
import Mathlib.Order.Interval.Finset.Nat
import Mathlib.Data.Finset.Card
import Mathlib.Data.Finset.Dedup

/-! How many blocks one transaction of `filewrite` logs. -/

namespace Xv6

open Prog Bytes Nat
open Finset (union_singleton card_insert_of_notMem union_empty)
open Function (update_self update_of_ne)

variable {s s' t : Fs} {n b addr i j : ℕ} {a : Prop}

/-- `bmap` logs block `x` for block `n` of the file, given what it is mapped to after. -/
def BmapLogs (s s' : Fs) (n x : ℕ) : Prop :=
  addrOf s n = 0 ∧ (x = bitmapBlock ∨ x = addrOf s' n ∨ (NDIRECT ≤ n ∧ x = indOf s'))

/-- What `bmap` does when it returns. -/
structure Mapped (s : Fs) (n addr : ℕ) (s' : Fs) : Prop where
  ok : FsOk s'
  eq : addrOf s' n = addr
  ne : addr ≠ 0
  other : ∀ k < MAXFILE, k ≠ n → addrOf s' k = addrOf s k
  kept : addrOf s n ≠ 0 → addrOf s' n = addrOf s n
  ind_kept : indOf s ≠ 0 → indOf s' = indOf s
  ind_ne : NDIRECT ≤ n → indOf s' ≠ 0
  size : s'.ip.size = s.ip.size
  log : ∀ x, x ∈ s'.log ↔ x ∈ s.log ∨ BmapLogs s s' n x

/-- What it has logged when there is no free block: nothing, or a new indirect block. -/
def OutOfBlocks (s : Fs) (n : ℕ) (s' : Fs) : Prop :=
  addrOf s n = 0 ∧ (s'.log = s.log ∨
    (NDIRECT ≤ n ∧ indOf s = 0 ∧ ∃ x, s'.log = s.log ++ [bitmapBlock, x]))

theorem Mapped.refl (h : FsOk s) (h0 : addrOf s n ≠ 0) (hi : NDIRECT ≤ n → indOf s ≠ 0) :
    Mapped s n (addrOf s n) s :=
  ⟨h, rfl, h0, fun _ _ _ => rfl, fun _ => rfl, fun _ => rfl, hi, rfl, by simp [BmapLogs, h0]⟩

theorem addrOf_direct (hn : n < NDIRECT) : addrOf s n = s.ip.addrs n := by simp [addrOf, hn]

theorem addrOf_indirect (hn : NDIRECT ≤ n) (hi : indOf s ≠ 0) :
    addrOf s n = getWord (s.block (indOf s)) (n - NDIRECT) := by
  simp [addrOf, hi, not_lt.mpr hn]

theorem FsOk.free_ne_zero (h : FsOk s) (hb : used s b = false) : b ≠ 0 := by
  have := h.map.free_ge hb
  have : 0 < nmeta := by decide
  omega

theorem sat_bmapDirect_ne {k : ℕ} {R : Fs → Prop} {N : String → Fs → Prop} (h : s.ip.addrs k ≠ 0) :
    Sat (bmapDirect k) s (fun x s' => x = s.ip.addrs k ∧ s' = s) R N := by
  simp [bmapDirect, h]

theorem sat_bmapDirect (h : FsOk s) (hn : n < NDIRECT) :
    Sat (bmapDirect n) s (Mapped s n) (fun _ => False) (fun _ s' => OutOfBlocks s n s') := by
  have hlt : n < MAXFILE := by simp only [NDIRECT, MAXFILE, NINDIRECT, BSIZE] at *; omega
  have haddr := addrOf_direct (s := s) hn
  simp only [bmapDirect, sat_bind_eq, sat_get_eq]
  split_ifs with h0
  · rw [← haddr] at h0
    rw [sat_bind_eq]
    refine sat_balloc (N := fun _ s' => OutOfBlocks s n s') h.sb (fun b hb hfree => ?_) ⟨h0, Or.inl rfl⟩
    rw [sat_bind_eq, sat_setAddr, sat_pure_eq]
    obtain ⟨hok, ha, hi⟩ := h.direct hn h0 hfree hb
    have hself : addrOf ((s.taken b).withAddr n b) n = b := by rw [ha, update_self]
    refine ⟨hok, hself, h.free_ne_zero hfree, fun k _ hk => by rw [ha, update_of_ne hk],
      fun h0' => absurd h0 h0', fun _ => hi, fun hd => by omega, rfl, ?_⟩
    intro x
    rw [BmapLogs, hself]
    simp [Fs.withAddr, Fs.taken, h0, not_le.mpr hn]
  · rw [← haddr] at h0 ⊢
    exact Mapped.refl h h0 (fun hd => by omega)

theorem sat_bmapIndirect (h : FsOk s) (hd : NDIRECT ≤ n) (hn : n < MAXFILE) (hi : indOf s ≠ 0) :
    Sat (bmapIndirect (indOf s) (n - NDIRECT)) s (Mapped s n) (fun _ => False)
      (fun _ s' => addrOf s n = 0 ∧ s'.log = s.log) := by
  have haddr := addrOf_indirect hd hi
  simp only [bmapIndirect, sat_bind_eq, bread, sat_get_eq, sat_pure_eq]
  split_ifs with h0
  · rw [← haddr] at h0
    rw [sat_bind_eq]
    refine sat_balloc (N := fun _ s' => addrOf s n = 0 ∧ s'.log = s.log) h.sb
      (fun b hb hfree => ?_) ⟨h0, rfl⟩
    rw [sat_bind_eq, sat_logWrite, sat_pure_eq]
    obtain ⟨hok, ha, hi'⟩ := h.entry hi hn hd h0 hfree hb
    have hself := (ha n hn).trans (update_self ..)
    refine ⟨hok, hself, h.free_ne_zero hfree, fun k hk hkn => by rw [ha k hk, update_of_ne hkn],
      fun h0' => absurd h0 h0', fun _ => hi', fun _ => hi'.trans_ne hi, rfl, ?_⟩
    intro x
    rw [BmapLogs, hself, hi']
    simp [Fs.logged, Fs.taken, h0, hd]
  · rw [← haddr] at h0 ⊢
    exact Mapped.refl h h0 (fun _ => hi)

private theorem or_absorb {p q r : Prop} : (p ∨ q ∨ r) ∨ q ∨ a ∨ r ↔ p ∨ q ∨ a ∨ r := by tauto

theorem sat_bmap (h : FsOk s) (hn : n < MAXFILE) :
    Sat (bmap n) s (Mapped s n) (fun _ => False) (fun _ s' => OutOfBlocks s n s') := by
  unfold bmap
  split_ifs with hd hk
  · exact sat_bmapDirect h hd
  · have hd' : NDIRECT ≤ n := by omega
    by_cases hi : indOf s = 0
    · -- a new indirect block, which is zeroed, and then a new block in it
      have h0 : addrOf s n = 0 := by simp [addrOf, hd, hi]
      simp only [bmapDirect, sat_bind_eq, sat_get_eq]
      rw [if_pos (show s.ip.addrs NDIRECT = 0 from hi)]
      simp only [sat_bind_eq]
      refine sat_balloc (N := fun _ s' => OutOfBlocks s n s') h.sb (fun b hb hfree => ?_)
        ⟨h0, Or.inl rfl⟩
      rw [sat_setAddr, sat_pure_eq]
      obtain ⟨hok, ha, hi'⟩ := h.indirect hi hfree hb
      have hne := h.free_ne_zero hfree
      have hrest := sat_bmapIndirect hok hd' hn (hi'.trans_ne hne)
      rw [hi'] at hrest
      refine sat_mono hrest ?_ (fun _ hf => hf) ?_
      · intro addr s' hm
        refine ⟨hm.ok, hm.eq, hm.ne, fun k hk hkn => (hm.other k hk hkn).trans (ha k),
          fun h0' => absurd h0 h0', fun hi0 => absurd hi hi0, hm.ind_ne, hm.size, ?_⟩
        have hind : indOf s' = b := (hm.ind_kept (hi'.trans_ne hne)).trans hi'
        intro x
        rw [hm.log, BmapLogs, BmapLogs, hind, ha, h0]
        simp only [Fs.withAddr, Fs.taken, List.mem_append, List.mem_cons, List.not_mem_nil, or_false,
          true_and, hd']
        exact or_absorb
      · rintro _ s' ⟨-, hlog⟩
        exact ⟨h0, Or.inr ⟨hd', hi, b, hlog⟩⟩
    · refine sat_bind (sat_bmapDirect_ne (k := NDIRECT) hi) ?_
      rintro _ _ ⟨rfl, rfl⟩
      exact sat_mono (sat_bmapIndirect h hd' hn hi) (fun _ _ hm => hm) (fun _ hf => hf)
        (fun _ _ hf => ⟨hf.1, Or.inl hf.2⟩)
  · simp only [MAXFILE, NDIRECT, NINDIRECT] at *
    omega

/-! The loop of `writei`. -/

/-- Some block of the file from `i` up to `j` has to be allocated. -/
def NewBlock (s : Fs) (i j : ℕ) : Prop := ∃ k ∈ Finset.Ico i j, addrOf s k = 0

/-- Some block behind the indirect block has to be. -/
def NewIndirect (s : Fs) (i j : ℕ) : Prop := ∃ k ∈ Finset.Ico i j, NDIRECT ≤ k ∧ addrOf s k = 0

instance (s : Fs) (i j : ℕ) : Decidable (NewBlock s i j) := inferInstanceAs (Decidable (∃ _ ∈ _, _))
instance (s : Fs) (i j : ℕ) : Decidable (NewIndirect s i j) :=
  inferInstanceAs (Decidable (∃ _ ∈ _, _))

theorem newBlock_succ (h : i ≤ j) : NewBlock s i (j + 1) ↔ NewBlock s i j ∨ addrOf s j = 0 := by
  simp [NewBlock, Nat.Ico_succ_right_eq_insert_Ico h, or_comm]

theorem newIndirect_succ (h : i ≤ j) :
    NewIndirect s i (j + 1) ↔ NewIndirect s i j ∨ (NDIRECT ≤ j ∧ addrOf s j = 0) := by
  simp [NewIndirect, Nat.Ico_succ_right_eq_insert_Ico h, or_comm]

private theorem logs_step {img bm nb ni ind ind' z d : Prop} (h : ni → (ind' ↔ ind)) :
    ((img ∨ nb ∧ bm ∨ ni ∧ ind) ∨ z ∧ (bm ∨ a ∨ d ∧ ind')) ∨ a ↔
      (a ∨ img) ∨ (nb ∨ z) ∧ bm ∨ (ni ∨ d ∧ z) ∧ ind' := by
  by_cases hn : ni
  · simp only [hn, h hn, true_and, true_or]
    tauto
  · tauto

/-- The blocks from `first` up to `cur` have been written. -/
structure Wrote (s₀ : Fs) (first cur : ℕ) (s : Fs) : Prop where
  ok : FsOk s
  le : first ≤ cur
  ahead : ∀ k < MAXFILE, cur ≤ k → addrOf s k = addrOf s₀ k
  mapped : ∀ k, first ≤ k → k < cur → addrOf s k ≠ 0
  ind_ne : NewIndirect s₀ first cur → indOf s ≠ 0
  size : s.ip.size = s₀.ip.size
  log : ∀ x, x ∈ s.log ↔ x ∈ (Finset.Ico first cur).image (addrOf s) ∨
    (NewBlock s₀ first cur ∧ x = bitmapBlock) ∨ (NewIndirect s₀ first cur ∧ x = indOf s)

section

variable {s₀ : Fs} {first cur last m off tot : ℕ} {src : ℕ → UInt8}

theorem Wrote.start (h : FsOk s) (hl : s.log = []) : Wrote s first first s := by
  refine ⟨h, le_rfl, fun _ _ _ => rfl, fun k h1 h2 => by omega, ?_, rfl, ?_⟩
  · rintro ⟨k, hk, -⟩
    simp at hk
  · simp [hl, NewBlock, NewIndirect]

/-- One more block is mapped and written. -/
theorem Wrote.step (h : Wrote s₀ first cur s) (hcur : cur < MAXFILE) (hm : Mapped s cur addr s')
    (data : Sector) : Wrote s₀ first (cur + 1) (s'.logged addr data) := by
  obtain ⟨hok, haddr, hind⟩ := hm.ok.write hcur hm.eq hm.ne data
  have hcur0 : addrOf s cur = addrOf s₀ cur := h.ahead cur hcur le_rfl
  have hold : ∀ k < MAXFILE, k ≠ cur → addrOf (s'.logged addr data) k = addrOf s k :=
    fun k hk hne => (haddr k).trans (hm.other k hk hne)
  have hindEq : NewIndirect s₀ first cur → indOf s' = indOf s := fun hn => hm.ind_kept (h.ind_ne hn)
  refine ⟨hok, by have := h.le; omega, ?_, ?_, ?_, hm.size.trans h.size, ?_⟩
  · intro k hk hle
    exact (hold k hk (by omega)).trans (h.ahead k hk (by omega))
  · intro k h1 h2
    by_cases hkc : k = cur
    · rw [hkc, haddr, hm.eq]
      exact hm.ne
    · rw [hold k (by omega) hkc]
      exact h.mapped k h1 (by omega)
  · rw [newIndirect_succ h.le, hind]
    rintro (hn | ⟨hd, -⟩)
    · rw [hindEq hn]
      exact h.ind_ne hn
    · exact hm.ind_ne hd
  · intro x
    have himg : x ∈ (Finset.Ico first (cur + 1)).image (addrOf (s'.logged addr data)) ↔
        x = addr ∨ x ∈ (Finset.Ico first cur).image (addrOf s) := by
      have himage : (Finset.Ico first cur).image (addrOf (s'.logged addr data)) =
          (Finset.Ico first cur).image (addrOf s) := by
        refine Finset.image_congr fun k hk => ?_
        have := Finset.mem_Ico.mp (Finset.mem_coe.mp hk)
        exact hold k (by omega) (by omega)
      rw [Nat.Ico_succ_right_eq_insert_Ico h.le, Finset.image_insert, Finset.mem_insert,
        haddr, hm.eq, himage]
    have hlog : x ∈ (s'.logged addr data).log ↔ x ∈ s'.log ∨ x = addr := by simp [Fs.logged]
    have hindx : NewIndirect s₀ first cur → (x = indOf s' ↔ x = indOf s) := fun hn => by rw [hindEq hn]
    rw [hlog, hm.log, h.log, himg, newBlock_succ h.le, newIndirect_succ h.le, hind, BmapLogs, hcur0, hm.eq]
    exact logs_step hindx

/-- The blocks logged when `bmap` finds no free block are among those a whole write would log. -/
theorem Wrote.outOfBlocks (h : Wrote s₀ first cur s) (hcur : cur < MAXFILE) (ho : OutOfBlocks s cur s') :
    ∃ y, ∀ x ∈ s'.log, x ∈ (Finset.Ico first cur).image (addrOf s) ∨
      (NewBlock s₀ first (cur + 1) ∧ x = bitmapBlock) ∨ (NewIndirect s₀ first (cur + 1) ∧ x = y) := by
  obtain ⟨h0, hlog⟩ := ho
  rw [h.ahead cur hcur le_rfl] at h0
  rw [newBlock_succ h.le, newIndirect_succ h.le]
  rcases hlog with hlog | ⟨hd, hi, y, hlog⟩
  · refine ⟨indOf s, fun x hx => ?_⟩
    rw [hlog, h.log] at hx
    tauto
  · refine ⟨y, fun x hx => ?_⟩
    have hnot : ¬ NewIndirect s₀ first cur := fun hn => h.ind_ne hn hi
    rw [hlog, List.mem_append, h.log] at hx
    simp only [List.mem_cons, List.not_mem_nil, or_false] at hx
    tauto

/-- The distinct blocks that writing the file's blocks from `i` up to `j` logs: those blocks, the
bitmap if one has to be allocated, the indirect block if one behind it has to be. -/
def dataCost (s : Fs) (i j : ℕ) : ℕ :=
  (j - i) + (if NewBlock s i j then 1 else 0) + if NewIndirect s i j then 1 else 0

theorem dataCost_mono {k : ℕ} (h : j ≤ k) : dataCost s i j ≤ dataCost s i k := by
  have hb : NewBlock s i j → NewBlock s i k :=
    fun ⟨x, hx, h0⟩ => ⟨x, Finset.Ico_subset_Ico le_rfl h hx, h0⟩
  have hi : NewIndirect s i j → NewIndirect s i k :=
    fun ⟨x, hx, h0⟩ => ⟨x, Finset.Ico_subset_Ico le_rfl h hx, h0⟩
  unfold dataCost
  split_ifs <;> first | omega | (exfalso; tauto)

/-- A set that a list of three kinds of block covers. -/
theorem card_le_cost {A L : Finset ℕ} {y : ℕ} {p q : Prop} [Decidable p] [Decidable q]
    (hA : A.card ≤ m) (h : ∀ x ∈ L, x ∈ A ∨ (p ∧ x = bitmapBlock) ∨ (q ∧ x = y)) :
    L.card ≤ m + (if p then 1 else 0) + if q then 1 else 0 := by
  have hsub : L ⊆ A ∪ ((if p then {bitmapBlock} else ∅) ∪ if q then {y} else ∅) := by
    intro x hx
    rcases h x hx with hx | ⟨hp, rfl⟩ | ⟨hq, rfl⟩
    · simp [hx]
    · simp [hp]
    · simp [hq]
  have hc : ∀ (r : Prop) [Decidable r] (z : ℕ), (if r then {z} else (∅ : Finset ℕ)).card ≤ if r then 1 else 0 := by
    intro r _ z
    split_ifs <;> simp
  calc L.card ≤ _ := Finset.card_le_card hsub
    _ ≤ A.card + (_ + _) := (Finset.card_union_le _ _).trans
        (Nat.add_le_add_left (Finset.card_union_le _ _) _)
    _ ≤ m + ((if p then 1 else 0) + if q then 1 else 0) :=
        Nat.add_le_add hA (Nat.add_le_add (hc p _) (hc q _))
    _ = _ := by omega

/-- What is logged when `bmap` finds no free block. -/
theorem Wrote.card_outOfBlocks (h : Wrote s₀ first cur s) (hcur : cur < MAXFILE) (hlast : cur < last)
    (ho : OutOfBlocks s cur s') : s'.log.toFinset.card ≤ dataCost s₀ first last := by
  obtain ⟨y, hy⟩ := h.outOfBlocks hcur ho
  have hA : ((Finset.Ico first cur).image (addrOf s)).card ≤ cur + 1 - first := by
    refine Finset.card_image_le.trans ?_
    rw [card_Ico]
    omega
  refine le_trans ?_ (dataCost_mono (succ_le_of_lt hlast))
  exact card_le_cost hA fun x hx => hy x (List.mem_toFinset.mp hx)

/-- The blocks of the three kinds are distinct. -/
theorem Wrote.card (h : Wrote s₀ first cur s) (hcur : cur ≤ MAXFILE) :
    s.log.toFinset.card = dataCost s₀ first cur := by
  have hmap := h.ok.map
  have hmeta := nmeta_gt_bitmap
  have hset : s.log.toFinset = ((Finset.Ico first cur).image (addrOf s) ∪
      (if NewBlock s₀ first cur then {bitmapBlock} else ∅)) ∪
      if NewIndirect s₀ first cur then {indOf s} else ∅ := by
    ext x
    rw [List.mem_toFinset, h.log, Finset.mem_union, Finset.mem_union]
    split_ifs with h1 h2 h2 <;> simp [h1, h2, or_assoc]
  have hinj : ((Finset.Ico first cur).image (addrOf s)).card = cur - first := by
    rw [Finset.card_image_of_injOn, card_Ico]
    intro k hk k' hk' heq
    have hk := Finset.mem_Ico.mp (Finset.mem_coe.mp hk)
    have hk' := Finset.mem_Ico.mp (Finset.mem_coe.mp hk')
    exact hmap.inj k (by omega) k' (by omega) heq (h.mapped k hk.1 hk.2)
  have hge : ∀ x ∈ (Finset.Ico first cur).image (addrOf s), nmeta ≤ x ∧ x ≠ indOf s := by
    intro x hx
    obtain ⟨k, hk, rfl⟩ := Finset.mem_image.mp hx
    have hk := Finset.mem_Ico.mp hk
    have h0 := h.mapped k hk.1 hk.2
    refine ⟨(hmap.addr_ok k (by omega) h0).1, fun hi => ?_⟩
    exact hmap.ind_ne (fun hi0 => h0 (hi.trans hi0)) k (by omega) hi
  have hbit : bitmapBlock ∉ (Finset.Ico first cur).image (addrOf s) := by
    intro hx
    have := (hge _ hx).1
    omega
  have hind : indOf s ∉ (Finset.Ico first cur).image (addrOf s) := fun hx => (hge _ hx).2 rfl
  rw [hset, dataCost]
  split_ifs with h1 h2 h2
  · have hne : indOf s ≠ bitmapBlock := by
      have := (hmap.ind_ok (h.ind_ne h2)).1
      omega
    rw [union_singleton, union_singleton,
      card_insert_of_notMem (by simp only [Finset.mem_insert, not_or]; exact ⟨hne, hind⟩),
      card_insert_of_notMem hbit, hinj]
  · rw [union_empty, union_singleton, card_insert_of_notMem hbit, hinj]
  · rw [union_empty, union_singleton, card_insert_of_notMem hind, hinj]
  · rw [union_empty, union_empty, hinj, Nat.add_zero]

/-- How far the loop of `writei` has come after `tot` bytes. -/
def wroteTo (off tot : ℕ) : ℕ := if tot = 0 then off / BSIZE else (off + tot - 1) / BSIZE + 1

theorem wroteTo_eq (h : tot = 0 ∨ (off + tot) % BSIZE = 0) : wroteTo off tot = (off + tot) / BSIZE := by
  unfold wroteTo
  simp only [BSIZE] at *
  split_ifs with h0
  · rw [h0, add_zero]
  · omega

theorem wroteTo_add (hm : 0 < m) (hle : m ≤ BSIZE - (off + tot) % BSIZE) :
    wroteTo off (tot + m) = (off + tot) / BSIZE + 1 := by
  rw [wroteTo, if_neg (by omega)]
  simp only [BSIZE] at *
  omega

/-- One round of the loop. -/
theorem sat_writeBlock (h : Wrote s₀ (off / BSIZE) (wroteTo off tot) s) (ht : tot = 0 ∨ (off + tot) % BSIZE = 0)
    (hn : tot < n) (hmax : off + n ≤ MAXFILE * BSIZE) :
    Sat (writeBlock src off n tot) s
      (fun tot' s' => tot < tot' ∧ tot' ≤ n ∧ (tot' = n ∨ (off + tot') % BSIZE = 0) ∧
        Wrote s₀ (off / BSIZE) (wroteTo off tot') s')
      (fun _ => False) (fun _ s' => s'.log.toFinset.card ≤ dataCost s₀ (off / BSIZE) (wroteTo off n)) := by
  have hmod : (off + tot) % BSIZE < BSIZE := mod_lt _ (by decide)
  have hcur : (off + tot) / BSIZE < MAXFILE := Nat.div_lt_of_lt_mul (by rw [Nat.mul_comm]; omega)
  have hlast : (off + tot) / BSIZE < wroteTo off n := by
    rw [wroteTo, if_neg (by omega)]
    exact Nat.lt_succ_of_le (Nat.div_le_div_right (by omega))
  rw [wroteTo_eq ht] at h
  unfold writeBlock
  refine sat_bind (sat_mono (sat_bmap h.ok hcur) (fun _ _ hm => hm) (fun _ hf => hf)
    (fun _ s' ho => h.card_outOfBlocks hcur hlast ho)) ?_
  intro addr s' hm
  simp only [bread, sat_bind_eq, sat_get_eq, sat_pure_eq, sat_logWrite]
  set m := min (n - tot) (BSIZE - (off + tot) % BSIZE) with hmdef
  refine ⟨by omega, by omega, ?_, ?_⟩
  · by_cases hmn : m = n - tot
    · left
      omega
    · right
      have : m = BSIZE - (off + tot) % BSIZE := by omega
      simp only [BSIZE] at *
      omega
  · rw [wroteTo_add (by omega) (by omega)]
    exact h.step hcur hm _

theorem sat_writeLoop (h : FsOk s) (hl : s.log = []) (hmax : off + n ≤ MAXFILE * BSIZE) : Sat (loop 0 n fun tot => do
        let tot ← writeBlock src off n tot
        return some tot) s
      (fun _ s' => Wrote s (off / BSIZE) (wroteTo off n) s') (fun _ => False)
      (fun _ s' => s'.log.toFinset.card ≤ dataCost s (off / BSIZE) (wroteTo off n)) := by
  refine sat_loop (fun tot s' => tot ≤ n ∧ (tot = n ∨ tot = 0 ∨ (off + tot) % BSIZE = 0) ∧
    Wrote s (off / BSIZE) (wroteTo off tot) s') ⟨zero_le _, by simp, Wrote.start h hl⟩ ?_ ?_
  · rintro tot s' ht ⟨-, hal, hw⟩
    rw [sat_bind_eq]
    refine sat_post (sat_writeBlock hw (hal.resolve_left (by omega)) ht hmax) ?_
    rintro tot' s'' ⟨h1, h2, h3, h4⟩
    exact ⟨h1, h2, h3.imp id Or.inr, h4⟩
  · rintro tot s' ht ⟨hle, -, hw⟩
    obtain rfl : tot = n := by omega
    exact hw

/-! One transaction. -/

/-- The distinct blocks that a `writei` of `n` bytes at `off` logs. -/
def writeCost (s : Fs) (off n : ℕ) : ℕ :=
  dataCost s (off / BSIZE) (wroteTo off n) + if off + n > s.ip.size then 1 else 0

/-- A block before the data blocks, but not the bitmap, gets new contents. -/
theorem FsOk.logMeta (h : FsOk s) (hb : b < nmeta) (hne : b ≠ bitmapBlock) (data : Sector) :
    FsOk (s.logged b data) := by
  have hind : indOf (s.logged b data) = indOf s := rfl
  have haddr : ∀ k, addrOf (s.logged b data) k = addrOf s k := by
    intro k
    unfold addrOf
    rw [hind]
    split_ifs with h1 h2
    · rfl
    · rfl
    · have := (h.map.ind_ok h2).1
      rw [show (s.logged b data).block (indOf s) = s.block (indOf s) by
        simp [Fs.logged, update_of_ne (show indOf s ≠ b by omega)]]
  refine ⟨h.sb, h.inum, ?_⟩
  rw [hind]
  refine h.map.congr (fun c _ => ?_) (fun k _ => haddr k)
  simp [used, Fs.logged, update_of_ne hne.symm]

theorem iblock_lt (h : FsOk s) : IBLOCK s.sb s.ip.inum < bitmapBlock := by
  have hi := h.inum
  rw [h.sb]
  simp only [IBLOCK, IPB, BSIZE, sizeofDinode, mkfsSb, bitmapBlock, LOGSIZE, MAXOPBLOCKS] at *
  omega

theorem Wrote.iblock_not_logged (h : Wrote s₀ first cur s) (hcur : cur ≤ MAXFILE) :
    IBLOCK s.sb s.ip.inum ∉ s.log := by
  have hlt := iblock_lt h.ok
  have hmeta := nmeta_gt_bitmap
  rw [h.log]
  rintro (hx | ⟨-, hx⟩ | ⟨hn, hx⟩)
  · obtain ⟨k, hk, hx⟩ := Finset.mem_image.mp hx
    have hk := Finset.mem_Ico.mp hk
    have := (h.ok.map.addr_ok k (by omega) (h.mapped k hk.1 hk.2)).1
    omega
  · omega
  · have := (h.ok.map.ind_ok (h.ind_ne hn)).1
    omega

theorem wroteTo_le (hmax : off + n ≤ MAXFILE * BSIZE) : wroteTo off n ≤ MAXFILE := by
  unfold wroteTo
  simp only [MAXFILE, NDIRECT, NINDIRECT, BSIZE] at *
  split_ifs <;> omega

/-- `writei` goes ahead: not a device, no gap before `off`, and not past the largest file. -/
structure Proceeds (s : Fs) (off n : ℕ) : Prop where
  file : s.ip.type ≠ T_DEV
  off_le : off ≤ s.ip.size
  fits : off + n ≤ MAXFILE * BSIZE

/-- What a transaction that writes `n` bytes at `off` logs, and that it leaves a sound file. -/
theorem sat_writeSection {dev : Inode → ℕ → ℤ} {src : ℕ → UInt8} {off n : ℕ} (h : FsOk s) (hn : 0 < n)
    (hp : Proceeds s off n) :
    Sat (writeSection dev src off n) s
      (fun r s' => r = n ∧ FsOk s' ∧ s'.log.toFinset.card = writeCost s off n) (fun _ => False)
      (fun _ s' => s'.log.toFinset.card ≤ writeCost s off n) := by
  have hfits := hp.fits
  have h32 : u32 (off + n) = off + n := by
    refine mod_eq_of_lt ?_
    simp only [MAXFILE, NDIRECT, NINDIRECT, BSIZE] at hfits
    omega
  set t : Fs := { s with log := [] } with ht
  have hok : FsOk t := ⟨h.sb, h.inum, h.map⟩
  have hcost : dataCost t = dataCost s := rfl
  simp only [writeSection, writei, sat_bind_eq, sat_modify_eq, sat_get_eq]
  rw [if_neg hp.file, h32, if_neg (by have := hp.off_le; simp only [not_or]; omega), if_neg (by omega)]
  simp only [sat_bind_eq, sat_get_eq]
  refine sat_mono (sat_writeLoop hok rfl hfits) ?_ (fun _ hf => hf) ?_
  · intro _ s' hw
    have hcard := hw.card (wroteTo_le hfits)
    rw [hcost] at hcard
    rw [hw.size]
    have hiff : (n > 0 ∧ off + n > s.ip.size) ↔ off + n > s.ip.size := by simp [hn]
    simp only [hiff]
    split_ifs with hsz
    · have hlt := iblock_lt hw.ok
      have hmeta := nmeta_gt_bitmap
      simp only [sat_bind_eq, sat_modify_eq, iupdate, sat_get_eq, bread, sat_pure_eq, sat_logWrite]
      refine ⟨trivial, FsOk.logMeta (s := { s' with ip := { s'.ip with size := off + n } })
        ⟨hw.ok.sb, hw.ok.inum, hw.ok.map⟩ (by omega) (by omega) _, ?_⟩
      have hnot := hw.iblock_not_logged (wroteTo_le hfits)
      simp only [Fs.logged, List.toFinset_append, List.toFinset_cons, List.toFinset_nil]
      rw [Finset.union_comm, LawfulSingleton.insert_empty_eq, Finset.singleton_union,
        card_insert_of_notMem (by rwa [List.mem_toFinset]), hcard, writeCost, if_pos hsz]
    · exact ⟨rfl, hw.ok, by rw [hcard, writeCost, if_neg hsz, add_zero]⟩
  · intro _ s' hle
    rw [hcost] at hle
    unfold writeCost
    omega

/-- A `writei` that does not go ahead logs nothing. -/
theorem sat_writeSection_stops {dev : Inode → ℕ → ℤ} (hn : off + n < 2 ^ 32) (hp : ¬ Proceeds s off n) :
    Sat (writeSection dev src off n) s (fun _ s' => s' = { s with log := [] }) (fun _ => False)
      (fun _ _ => False) := by
  simp only [writeSection, writei, sat_bind_eq, sat_modify_eq, sat_get_eq]
  split_ifs with h1 h2 h3
  · rfl
  · rfl
  · rfl
  · rw [u32, mod_eq_of_lt hn] at h2 h3
    exact absurd ⟨h1, by omega, by omega⟩ hp

end

/-- How many distinct blocks a transaction of `filewrite` logs, and so whether it keeps to the
`MAXOPBLOCKS` that `begin_op` reserves for it. Where the disk runs out of blocks on the way, it has
logged no more than it would have. -/
theorem filewrite_transaction_within_iff (dev : Inode → ℕ → ℤ) (src : ℕ → UInt8) (s : Fs) (off n1 : ℕ)
    (h : FsOk s) (hn : 0 < n1) (hoff : off + n1 < 2 ^ 32) :
    Sat (writeSection dev src off n1) s
      (fun _ s' => s'.log.toFinset.card ≤ MAXOPBLOCKS ↔
        ¬ Proceeds s off n1 ∨ writeCost s off n1 ≤ MAXOPBLOCKS)
      (fun _ => False) (fun _ s' => s'.log.toFinset.card ≤ writeCost s off n1) := by
  by_cases hp : Proceeds s off n1
  · refine sat_mono (sat_writeSection h hn hp) ?_ (fun _ hf => hf) (fun _ _ hle => hle)
    rintro r s' ⟨-, -, hcard⟩
    rw [hcard]
    simp [hp]
  · refine sat_mono (sat_writeSection_stops hoff hp) ?_ (fun _ hf => hf) (fun _ _ hf => hf.elim)
    rintro r _ rfl
    simp [hp]

/-- A file system with a file of thirteen blocks: 59 to 70, and 72 behind the indirect block 71. -/
def thirteenBlocks : Fs :=
  { sb := mkfsSb
    block := fun b k =>
      if b = bitmapBlock then (if k < 9 then 255 else if k = 9 then 1 else 0)
      else if b = 71 ∧ k = 0 then 72 else 0
    ip :=
      { inum := 2, type := 2, major := 0, minor := 0, nlink := 1, size := 13 * BSIZE
        addrs := fun k => if k ≤ NDIRECT then 59 + k else 0 } }

theorem thirteenBlocks_addrOf (n : ℕ) (hn : n < MAXFILE) :
    addrOf thirteenBlocks n = if n < 12 then 59 + n else if n = 12 then 72 else 0 := by
  revert n
  decide

theorem thirteenBlocks_ok : FsOk thirteenBlocks := by
  refine ⟨rfl, by decide, ⟨by decide, ?_, ?_, fun _ => by decide, ?_⟩⟩
  · intro n hn h0
    rw [thirteenBlocks_addrOf n hn] at h0 ⊢
    split_ifs at h0 ⊢ with h1 h2
    · interval_cases n <;> decide
    · decide
    · exact absurd rfl h0
  · intro n hn n' hn' heq h0
    rw [thirteenBlocks_addrOf n hn] at heq h0
    rw [thirteenBlocks_addrOf n' hn'] at heq
    split_ifs at heq h0 <;> omega
  · intro _ n hn
    rw [thirteenBlocks_addrOf n hn]
    have hi : indOf thirteenBlocks = 71 := by decide
    rw [hi]
    split_ifs <;> omega

/-- Writing ten bytes inside the file. -/
theorem filewrite_transaction_within_iff_ten :
    Sat (writeSection (fun _ _ => -1) (fun _ => 0) 100 10) thirteenBlocks
      (fun _ s' => s'.log.toFinset.card ≤ MAXOPBLOCKS) (fun _ => False) (fun _ _ => True) := by
  refine sat_mono (filewrite_transaction_within_iff (fun _ _ => -1) (fun _ => 0) thirteenBlocks 100 10
    thirteenBlocks_ok (by decide) (by decide)) ?_ (fun _ hf => hf) (fun _ _ _ => trivial)
  intro _ s' hiff
  exact hiff.mpr (Or.inr (by decide))

/-- The result of a run and the blocks logged. -/
def logOf : Outcome Fs ℤ → Option (ℤ × List ℕ)
  | .ok r s => some (r, s.log)
  | _ => none

/-- Writing the file over in one call: one transaction, of thirteen blocks. -/
theorem filewrite_exceeds_reservation :
    FsOk thirteenBlocks ∧ ∃ l, logOf (filewrite (fun _ _ => -1) true (fun _ => 0) 0 filewriteMax
      thirteenBlocks) = some ((filewriteMax : ℤ), l) ∧ MAXOPBLOCKS < l.toFinset.card := by
  refine ⟨thirteenBlocks_ok, (List.range 12).map (59 + ·) ++ [72], by decide +kernel, by decide⟩

end Xv6

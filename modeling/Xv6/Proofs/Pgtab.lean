import Xv6.Spec.Pgtab
import Xv6.Proofs.Dealloc
import Mathlib.Order.Interval.Finset.Nat
import Mathlib.Tactic.SplitIfs

/-! `mappages` is an update of the map from virtual pages to entries, and it is made if there are pages for the page tables. -/

namespace Xv6.Pgtab

open Function Nat

variable {m m' : Pmem} {d va v k t i f n : ℕ} {w e : Word} {rest : List ℕ} {S : Finset ℕ}

/-- A page directory: its page tables are frames of their own, and none of these frames is free. -/
structure IsDir (m : Pmem) (d : ℕ) : Prop where
  inj : ∀ j k, j < NPDENTRIES → k < NPDENTRIES → present (m.words d j) → present (m.words d k) →
    frame (m.words d j) = frame (m.words d k) → j = k
  ne : ∀ k < NPDENTRIES, present (m.words d k) → frame (m.words d k) ≠ d
  used : ∀ k < NPDENTRIES, present (m.words d k) → frame (m.words d k) ∉ m.freelist
  dir : d ∉ m.freelist
  nodup : m.freelist.Nodup
  small : ∀ f ∈ m.freelist, f < 2 ^ 20

/-- There is a free page for each entry of the directory in `S` that has no page table. -/
def Enough (m : Pmem) (d : ℕ) (S : Finset ℕ) : Prop := {k ∈ S | ¬ present (m.words d k)}.card ≤ m.freelist.length

theorem enough_insert (hp : present (m.words d k)) : Enough m d (insert k S) ↔ Enough m d S := by
  rw [Enough, Enough, Finset.filter_insert, if_neg (not_not.2 hp)]

/-- The entry of the kernel model that a word is. -/
def decode (e : Word) : Pte :=
  { p := e.getLsbD 0, w := e.getLsbD 1, u := e.getLsbD 2, cow := e.getLsbD 11, ppn := frame e }

theorem present_iff_decode (e : Word) : present e ↔ (decode e).p = true := by
  have hbit : e &&& PTE_P = BitVec.setWidth 32 (BitVec.ofBool (e.getLsbD 0)) := BitVec.and_one_eq_setWidth_ofBool_getLsbD
  rw [present, hbit]
  change _ ↔ e.getLsbD 0 = true
  cases e.getLsbD 0 <;> decide

/-- The address of a page, with flags. -/
theorem decode_or (hf : f < 2 ^ 20) (hw : w.toNat < PGSIZE) :
    decode (BitVec.ofNat 32 (f * PGSIZE) ||| w) = { decode w with ppn := f } := by
  have hmul : f * PGSIZE = f <<< 12 := (shiftLeft_eq f 12).symm
  have hlt : f <<< 12 < 2 ^ 32 := by
    rw [shiftLeft_eq]
    omega
  have hframe : frame (BitVec.ofNat 32 (f * PGSIZE) ||| w) = f := by
    rw [hmul, frame, BitVec.toNat_or, BitVec.toNat_ofNat, mod_eq_of_lt hlt,
      ← shiftLeft_add_eq_or_of_lt (show w.toNat < 2 ^ 12 from hw), shiftLeft_eq]
    unfold PGSIZE at *
    omega
  have hbit : ∀ i < 12, (BitVec.ofNat 32 (f * PGSIZE) ||| w).getLsbD i = w.getLsbD i := by
    intro i hi
    rw [hmul, BitVec.getLsbD_or, BitVec.getLsbD_ofNat, testBit_shiftLeft]
    simp [not_le.2 hi]
  simp only [decode, hframe, hbit, zero_lt_succ, show 1 < 12 by decide, show 2 < 12 by decide, show 11 < 12 by decide]

/-- The entry that `walkpgdir` writes for a new page table. -/
theorem newTab_entry (hf : f < 2 ^ 20) :
    present (BitVec.ofNat 32 (f * PGSIZE) ||| PTE_P ||| PTE_W ||| PTE_U) ∧
      frame (BitVec.ofNat 32 (f * PGSIZE) ||| PTE_P ||| PTE_W ||| PTE_U) = f := by
  have hdec := decode_or (w := PTE_P ||| (PTE_W ||| PTE_U)) hf (by decide)
  rw [← BitVec.or_assoc, ← BitVec.or_assoc] at hdec
  rw [present_iff_decode]
  exact ⟨(congrArg (fun e : Pte => e.p) hdec).trans (show (decode (PTE_P ||| (PTE_W ||| PTE_U))).p = true by decide),
    congrArg Pte.ppn hdec⟩

theorem walk_present (h : present (m.words d (PDX va))) (alloc : Bool) :
    walkpgdir d va alloc m = (some (frame (m.words d (PDX va)), PTX va), m) := if_pos h

theorem walk_absent (h : ¬ present (m.words d (PDX va))) : walkpgdir d va false m = (none, m) := by
  unfold walkpgdir
  dsimp only
  rw [if_neg h, if_pos rfl]

theorem walk_full (h : ¬ present (m.words d (PDX va))) (hf : m.freelist = []) : walkpgdir d va true m = (none, m) := by
  unfold walkpgdir
  dsimp only
  rw [if_neg h, if_neg (by decide), hf]

theorem walk_new (h : ¬ present (m.words d (PDX va))) (hf : m.freelist = f :: rest) :
    walkpgdir d va true m = (some (f, PTX va), m.newTab d (PDX va) f rest) := by
  unfold walkpgdir
  dsimp only
  rw [if_neg h, if_neg (by decide), hf]

theorem PDX_page (h : v < 2 ^ 20) : PDX (v * PGSIZE) = v / NPTENTRIES := by
  unfold PDX PTSIZE PGSIZE NPDENTRIES NPTENTRIES
  omega

theorem PTX_page (v : ℕ) : PTX (v * PGSIZE) = v % NPTENTRIES := by
  unfold PTX PGSIZE NPTENTRIES
  omega

theorem tab_lt (h : v < 2 ^ 20) : v / NPTENTRIES < NPDENTRIES := by
  unfold NPTENTRIES NPDENTRIES
  omega

/-- The next round is for the next page. -/
theorem next_page (h : v + (n + 1) < 2 ^ 20) :
    v * PGSIZE ≠ (v + (n + 1)) * PGSIZE ∧ u32 (v * PGSIZE + PGSIZE) = (v + 1) * PGSIZE := by
  unfold u32 PGSIZE
  omega

theorem lookup_eq (h : v < 2 ^ 20) : lookup m d v =
    if present (m.words d (v / NPTENTRIES)) then m.words (frame (m.words d (v / NPTENTRIES))) (v % NPTENTRIES) else 0 := by
  rw [← PTX_page, ← PDX_page h, lookup]
  split_ifs with hp
  · rw [walk_present hp]
  · rw [walk_absent hp]

@[simp] theorem set_words (m : Pmem) (f i : ℕ) (w : Word) :
    (m.set f i w).words = update m.words f (update (m.words f) i w) := rfl

/-- The words after a page table is added: the entry, the cleared page, and the rest as it was. -/
theorem newTab_words (hfd : f ≠ d) :
    (m.newTab d k f rest).words d = update (m.words d) k (BitVec.ofNat 32 (f * PGSIZE) ||| PTE_P ||| PTE_W ||| PTE_U) ∧
      (∀ i, (m.newTab d k f rest).words f i = 0) ∧
      ∀ x, x ≠ d → x ≠ f → (m.newTab d k f rest).words x = m.words x := by
  simp only [Pmem.newTab, set_words]
  refine ⟨?_, fun i => ?_, fun x hx hx' => ?_⟩
  · rw [update_self, update_of_ne hfd.symm]
  · rw [update_of_ne hfd, update_self]
  · rw [update_of_ne hx, update_of_ne hx']

/-- The entries of the directory after that: the new one, and those that were there. -/
theorem IsDir.newTab_dir (h : IsDir m d) (hf : m.freelist = f :: rest) :
    f ≠ d ∧ present ((m.newTab d k f rest).words d k) ∧ frame ((m.newTab d k f rest).words d k) = f ∧
      ∀ j, j ≠ k → (m.newTab d k f rest).words d j = m.words d j := by
  have hmem : f ∈ m.freelist := by rw [hf]; exact List.mem_cons_self
  have hfd : f ≠ d := ne_of_mem_of_not_mem hmem h.dir
  obtain ⟨hpres, hframe⟩ := newTab_entry (h.small f hmem)
  rw [(newTab_words hfd).1, update_self]
  exact ⟨hfd, hpres, hframe, fun j hj => update_of_ne hj _ _⟩

/-- A new page table keeps the directory one, and no lookup sees it. It takes a page, and one page less is needed. -/
theorem IsDir.newTab (h : IsDir m d) (habs : ¬ present (m.words d k)) (hf : m.freelist = f :: rest) (hk : k ∈ S) :
    IsDir (m.newTab d k f rest) d ∧ (∀ v < 2 ^ 20, lookup (m.newTab d k f rest) d v = lookup m d v) ∧
      (Enough m d S ↔ Enough (m.newTab d k f rest) d S) := by
  have hmem : f ∈ m.freelist := by rw [hf]; exact List.mem_cons_self
  have hrest : ∀ x ∈ rest, x ∈ m.freelist := by
    intro x hx
    rw [hf]
    exact List.mem_cons_of_mem _ hx
  obtain ⟨hfd, hpres, hframe, hold⟩ := h.newTab_dir (k := k) hf
  obtain ⟨-, hzero, hother⟩ := @newTab_words m d k f rest hfd
  have hnodup : f ∉ rest ∧ rest.Nodup := by
    rw [← List.nodup_cons, ← hf]
    exact h.nodup
  have hnef : ∀ j < NPDENTRIES, present (m.words d j) → frame (m.words d j) ≠ f :=
    fun j hj hp => (ne_of_mem_of_not_mem hmem (h.used j hj hp)).symm
  refine ⟨⟨?_, ?_, ?_, ?_, hnodup.2, fun x hx => h.small x (hrest x hx)⟩, ?_, ?_⟩
  · intro i j hi hj hpi hpj he
    by_cases hik : i = k
    · by_cases hjk : j = k
      · rw [hik, hjk]
      · rw [hold j hjk] at hpj he
        rw [hik, hframe] at he
        exact absurd he.symm (hnef j hj hpj)
    · rw [hold i hik] at hpi he
      by_cases hjk : j = k
      · rw [hjk, hframe] at he
        exact absurd he (hnef i hi hpi)
      · rw [hold j hjk] at hpj he
        exact h.inj i j hi hj hpi hpj he
  · intro j hj hp
    by_cases hjk : j = k
    · rw [hjk, hframe]
      exact hfd
    · rw [hold j hjk] at hp ⊢
      exact h.ne j hj hp
  · intro j hj hp
    by_cases hjk : j = k
    · rw [hjk, hframe]
      exact hnodup.1
    · rw [hold j hjk] at hp ⊢
      exact fun hx => h.used j hj hp (hrest _ hx)
  · exact fun hx => h.dir (hrest d hx)
  · intro v hv
    have hj := tab_lt hv
    rw [lookup_eq hv, lookup_eq hv]
    by_cases hjk : v / NPTENTRIES = k
    · rw [hjk, if_pos hpres, hframe, hzero, if_neg habs]
    · rw [hold _ hjk]
      split_ifs with hp
      · rw [hother _ (h.ne _ hj hp) (hnef _ hj hp)]
      · rfl
  · have hlack : {j ∈ S | ¬ present ((m.newTab d k f rest).words d j)} = {j ∈ S | ¬ present (m.words d j)}.erase k := by
      ext j
      by_cases hjk : j = k
      · simp [hjk, hpres]
      · simp [hjk, hold j hjk]
    have hmem : k ∈ {j ∈ S | ¬ present (m.words d j)} := Finset.mem_filter.2 ⟨hk, habs⟩
    have hpos := Finset.card_pos.2 ⟨k, hmem⟩
    rw [Enough, Enough, hlack, Finset.card_erase_of_mem hmem, hf, List.length_cons]
    change _ ↔ _ ≤ rest.length
    omega

/-- A store to an entry changes the lookup of its page only. -/
theorem IsDir.set (h : IsDir m d) (hv : v < 2 ^ 20) (hp : present (m.words d (v / NPTENTRIES)))
    (ht : t = frame (m.words d (v / NPTENTRIES))) :
    IsDir (m.set t (v % NPTENTRIES) w) d ∧ (m.set t (v % NPTENTRIES) w).words d = m.words d ∧
      ∀ u < 2 ^ 20, lookup (m.set t (v % NPTENTRIES) w) d u = if u = v then w else lookup m d u := by
  have htd : t ≠ d := ht ▸ h.ne _ (tab_lt hv) hp
  have hd : (m.set t (v % NPTENTRIES) w).words d = m.words d := by
    rw [set_words, update_of_ne htd.symm]
  refine ⟨?_, hd, ?_⟩
  · constructor
    · rw [hd]
      exact h.inj
    · rw [hd]
      exact h.ne
    · rw [hd]
      exact h.used
    · exact h.dir
    · exact h.nodup
    · exact h.small
  · intro u hu
    rw [lookup_eq hu, lookup_eq hu, hd]
    by_cases hk : u / NPTENTRIES = v / NPTENTRIES
    · rw [hk, if_pos hp, if_pos hp, ← ht, set_words, update_self]
      by_cases huv : u = v
      · rw [if_pos huv, huv, update_self]
      · have hne : u % NPTENTRIES ≠ v % NPTENTRIES := by
          unfold NPTENTRIES at *
          omega
        rw [if_neg huv, update_of_ne hne]
    · have huv : u ≠ v := fun he => hk (by rw [he])
      rw [if_neg huv]
      split_ifs with hp'
      · have hne : frame (m.words d (u / NPTENTRIES)) ≠ t := by
          rw [ht]
          exact fun he => hk (h.inj _ _ (tab_lt hu) (tab_lt hv) hp' hp he)
        rw [set_words, update_of_ne hne]
      · rfl

/-- `walkpgdir` with `alloc` finds the entry of the page, in a directory whose lookups are as before, or the pages for page
tables are not enough. -/
theorem IsDir.walk (h : IsDir m d) (hv : v < 2 ^ 20) (hS : v / NPTENTRIES ∈ S) :
    walkpgdir d (v * PGSIZE) true m = (none, m) ∧ ¬ Enough m d S ∨
      ∃ t m', walkpgdir d (v * PGSIZE) true m = (some (t, v % NPTENTRIES), m') ∧ IsDir m' d ∧
        (∀ u < 2 ^ 20, lookup m' d u = lookup m d u) ∧ (Enough m d S ↔ Enough m' d S) ∧ present (m'.words d (v / NPTENTRIES)) ∧
        t = frame (m'.words d (v / NPTENTRIES)) := by
  rw [← PDX_page hv] at hS ⊢
  rw [← PTX_page v]
  by_cases hp : present (m.words d (PDX (v * PGSIZE)))
  · exact .inr ⟨_, m, walk_present hp true, h, fun _ _ => rfl, .rfl, hp, rfl⟩
  · cases hf : m.freelist with
    | nil =>
      refine .inl ⟨walk_full hp hf, fun he => ?_⟩
      rw [Enough, hf] at he
      exact Finset.card_ne_zero_of_mem (Finset.mem_filter.2 ⟨hS, hp⟩) (le_zero.1 he)
    | cons f rest =>
      obtain ⟨hdir, hlook, henough⟩ := h.newTab hp hf hS
      obtain ⟨-, hpres, hframe, -⟩ := h.newTab_dir (k := PDX (v * PGSIZE)) hf
      exact .inr ⟨f, _, walk_new hp hf, hdir, hlook, henough, hpres, hframe.symm⟩

/-- One round of the loop: the walk fails, or the entry of the page is set. -/
theorem mapLoop_round (last : ℕ) (pa perm : Word) (fuel : ℕ) (h : IsDir m d) (hv : v < 2 ^ 20)
    (habs : ¬ present (lookup m d v)) (hS : v / NPTENTRIES ∈ S) :
    mapLoop d last perm (fuel + 1) (v * PGSIZE) pa m = some (.ret false, m) ∧ ¬ Enough m d S ∨
      ∃ m', mapLoop d last perm (fuel + 1) (v * PGSIZE) pa m =
          (if v * PGSIZE = last then some (.ret true, m')
           else mapLoop d last perm fuel (u32 (v * PGSIZE + PGSIZE)) (pa + BitVec.ofNat 32 PGSIZE) m') ∧
        IsDir m' d ∧ (∀ u < 2 ^ 20, lookup m' d u = if u = v then pa ||| perm ||| PTE_P else lookup m d u) ∧
        (Enough m d S ↔ Enough m' d S) ∧ present (m'.words d (v / NPTENTRIES)) := by
  rcases h.walk hv hS with ⟨hw, hno⟩ | ⟨t, m₁, hw, h₁, hlook, henough, hp, ht⟩
  · left
    rw [mapLoop, hw]
    exact ⟨rfl, hno⟩
  · right
    obtain ⟨h₂, hd, hset⟩ := h₁.set (w := pa ||| perm ||| PTE_P) hv hp ht
    have hentry : m₁.words t (v % NPTENTRIES) = lookup m d v := by
      rw [← hlook v hv, lookup_eq hv, if_pos hp, ht]
    refine ⟨_, ?_, h₂, fun u hu => ?_, henough.trans ?_, ?_⟩
    · rw [mapLoop, hw]
      dsimp only
      rw [hentry, if_neg habs]
    · rw [hset u hu, hlook u hu]
    · rw [Enough, Enough, hd]
      rfl
    · rw [hd]
      exact hp

/-- The rounds from page `v` on, with `n` more pages to come. -/
theorem mapLoop_update (perm : Word) (n : ℕ) (pa : Word) {fuel : ℕ} (h : IsDir m d) (hv : v + n < 2 ^ 20) (hfuel : n < fuel)
    (habs : ∀ u, v ≤ u → u ≤ v + n → ¬ present (lookup m d u)) :
    ∃ ok m', mapLoop d ((v + n) * PGSIZE) perm fuel (v * PGSIZE) pa m = some (.ret ok, m') ∧ IsDir m' d ∧
      (ok = true ↔ Enough m d (Finset.Icc (v / NPTENTRIES) ((v + n) / NPTENTRIES))) ∧
      (ok = true → (∀ i ≤ n, lookup m' d (v + i) = pa + BitVec.ofNat 32 (i * PGSIZE) ||| perm ||| PTE_P) ∧
        ∀ u < 2 ^ 20, ¬ (v ≤ u ∧ u ≤ v + n) → lookup m' d u = lookup m d u) := by
  induction n generalizing v m pa fuel with
  | zero =>
    obtain ⟨fuel, rfl⟩ := exists_eq_succ_of_ne_zero (ne_of_gt hfuel)
    rw [add_zero] at hv ⊢
    rw [Finset.Icc_self]
    rcases mapLoop_round (v * PGSIZE) pa perm fuel h hv (habs v (le_refl v) (le_refl v))
      (Finset.mem_singleton_self (v / NPTENTRIES)) with ⟨hr, hno⟩ | ⟨m', hr, h', hlook, henough, hp⟩
    · exact ⟨false, m, hr, h, iff_of_false Bool.false_ne_true hno, by simp⟩
    · rw [if_pos rfl] at hr
      rw [← insert_empty_eq, enough_insert hp] at henough
      refine ⟨true, m', hr, h', iff_of_true rfl (henough.2 (zero_le _)), fun _ => ⟨fun i hi => ?_, fun u hu hne => ?_⟩⟩
      · obtain rfl : i = 0 := le_zero.1 hi
        rw [add_zero, hlook v hv, if_pos rfl, zero_mul]
        simp
      · rw [hlook u hu, if_neg (by omega)]
  | succ n ih =>
    obtain ⟨fuel, rfl⟩ := exists_eq_succ_of_ne_zero (ne_of_gt (zero_lt_of_lt hfuel))
    have hv' : v < 2 ^ 20 := by omega
    obtain ⟨hnot, hnext⟩ := next_page hv
    have hlast : v + (n + 1) = v + 1 + n := by omega
    -- the entry of this page has its page table from here on
    have hIcc : Finset.Icc (v / NPTENTRIES) ((v + 1 + n) / NPTENTRIES) =
        insert (v / NPTENTRIES) (Finset.Icc ((v + 1) / NPTENTRIES) ((v + 1 + n) / NPTENTRIES)) := by
      ext k
      rw [Finset.mem_insert, Finset.mem_Icc, Finset.mem_Icc]
      unfold NPTENTRIES
      omega
    rcases mapLoop_round ((v + (n + 1)) * PGSIZE) pa perm fuel h hv' (habs v (le_refl v) (le_add_right _ _))
      (hIcc ▸ Finset.mem_insert_self _ _) with ⟨hr, hno⟩ | ⟨m₁, hr, h₁, hlook, henough, hp⟩
    · exact ⟨false, m, hr, h, iff_of_false Bool.false_ne_true (hlast ▸ hno), by simp⟩
    · rw [if_neg hnot, hnext] at hr
      rw [hIcc, enough_insert hp, ← hIcc] at henough
      have habs₁ : ∀ u, v + 1 ≤ u → u ≤ v + 1 + n → ¬ present (lookup m₁ d u) := by
        intro u hu hu'
        rw [hlook u (by omega), if_neg (by omega)]
        exact habs u (by omega) (by omega)
      obtain ⟨ok, m', hr', h', hok, hmap⟩ := ih (pa + BitVec.ofNat 32 PGSIZE) h₁ (by omega) (lt_of_succ_lt_succ hfuel) habs₁
      rw [hlast] at hr ⊢
      refine ⟨ok, m', hr.trans hr', h', hok.trans henough.symm, fun hok => ⟨fun i hi => ?_, fun u hu hne => ?_⟩⟩
      · cases i with
        | zero =>
          rw [add_zero, (hmap hok).2 v hv' (by omega), hlook v hv', if_pos rfl, zero_mul]
          simp
        | succ i =>
          have hi' := (hmap hok).1 i (by omega)
          rw [add_assoc, add_comm 1 i] at hi'
          rw [hi', BitVec.add_assoc, ← BitVec.ofNat_add, succ_mul, add_comm PGSIZE]
      · rw [(hmap hok).2 u hu (by omega), hlook u hu, if_neg (by omega)]

/-- The loop that `mappages` runs, over `n + 1` pages. -/
theorem mappages_eq {size : ℕ} (hsize : 1 ≤ size) (hend : va + size - 1 < 2 ^ 32) :
    ∃ n, (va + size - 1) / PGSIZE = va / PGSIZE + n ∧ va / PGSIZE + n < 2 ^ 20 ∧ ∀ fuel pa perm, mappages fuel d va size pa perm m =
      mapLoop d ((va / PGSIZE + n) * PGSIZE) perm fuel (va / PGSIZE * PGSIZE) pa m := by
  have hle : va / PGSIZE ≤ (va + size - 1) / PGSIZE := Nat.div_le_div_right (by omega)
  obtain ⟨n, hn⟩ := Nat.exists_eq_add_of_le hle
  have hlast : sub32 (u32 (va + size)) 1 = va + size - 1 := by
    unfold sub32 u32
    omega
  refine ⟨n, hn, ?_, fun fuel pa perm => ?_⟩
  · rw [← hn]
    unfold PGSIZE
    omega
  · rw [mappages, hlast, PGROUNDDOWN, hn, PGROUNDDOWN]

/-- `mappages` ends, also at the top of the address space. It returns 0 if and only if there are pages for the page tables,
and then it has updated the map: the pages from the one of `va` to the one of `va + size - 1` have their entries, and the
lookups of all other pages are as they were. -/
theorem mappages_update {m : Pmem} {d va size : ℕ} {pa perm : Word} (h : IsDir m d) (hsize : 1 ≤ size)
    (hend : va + size - 1 < 2 ^ 32)
    (habs : ∀ v, va / PGSIZE ≤ v → v ≤ (va + size - 1) / PGSIZE → ¬ present (lookup m d v))
    {fuel : ℕ} (hfuel : (va + size - 1) / PGSIZE - va / PGSIZE < fuel) :
    ∃ ok m', mappages fuel d va size pa perm m = some (.ret ok, m') ∧ IsDir m' d ∧
      (ok = true ↔ Enough m d (Finset.Icc (va / PGSIZE / NPTENTRIES) ((va + size - 1) / PGSIZE / NPTENTRIES))) ∧
      (ok = true →
        (∀ i, va / PGSIZE + i ≤ (va + size - 1) / PGSIZE →
          lookup m' d (va / PGSIZE + i) = pa + BitVec.ofNat 32 (i * PGSIZE) ||| perm ||| PTE_P) ∧
        ∀ v < 2 ^ 20, ¬ (va / PGSIZE ≤ v ∧ v ≤ (va + size - 1) / PGSIZE) → lookup m' d v = lookup m d v) := by
  obtain ⟨n, hn, htop, heq⟩ := mappages_eq (m := m) (d := d) hsize hend
  rw [hn] at habs hfuel ⊢
  obtain ⟨ok, m', hr, h', hok, hmap⟩ := mapLoop_update perm n pa h htop (show n < fuel by omega) habs
  exact ⟨ok, m', (heq ..).trans hr, h', hok, fun hok => ⟨fun i hi => (hmap hok).1 i (by omega), (hmap hok).2⟩⟩

/-! The same in the kernel model: its entries are the words, decoded. -/

section

variable {s s' : Kern} {perm : Flags} {ppn last : ℕ}

/-- The bits of the flags. -/
def flagBits (e : Flags) : Word :=
  (if e.p then PTE_P else 0) ||| (if e.w then PTE_W else 0) ||| (if e.u then PTE_U else 0) ||| if e.cow then PTE_COW else 0

theorem decode_flagBits (perm : Flags) (hf : f < 2 ^ 20) :
    decode (BitVec.ofNat 32 (f * PGSIZE) ||| flagBits perm ||| PTE_P) = { perm with p := true, ppn := f } := by
  have hbits : (flagBits perm ||| PTE_P).toNat < PGSIZE ∧ decode (flagBits perm ||| PTE_P) = { perm with p := true } := by
    rcases perm with ⟨_ | _, _ | _, _ | _, _ | _⟩ <;> decide
  rw [BitVec.or_assoc, decode_or hf hbits.1, hbits.2]

/-- The words of the directory and its page tables are what the kernel state says of it, and no call of `kalloc` is made to
fail. -/
structure Refines (m : Pmem) (d : ℕ) (s : Kern) : Prop where
  dir : IsDir m d
  free : s.freelist = m.freelist
  sure : s.fails = []
  null : 0 ∉ m.freelist
  tab : ∀ k < NPDENTRIES, s.ptab d k = if present (m.words d k) then frame (m.words d k) else 0
  tab_ne : ∀ k < NPDENTRIES, present (m.words d k) → frame (m.words d k) ≠ 0
  entry : ∀ v < 2 ^ 20, s.entry d v = decode (lookup m d v)

theorem Refines.tab_of_present (h : Refines m d s) (hk : k < NPDENTRIES) (hp : present (m.words d k)) : s.ptab d k ≠ 0 := by
  rw [h.tab k hk, if_pos hp]
  exact h.tab_ne k hk hp

theorem Refines.newTab (h : Refines m d s) (habs : ¬ present (m.words d k))
    (hf : m.freelist = f :: rest) (he : s'.entry = s.entry) (hfree : s'.freelist = rest) (hs : s'.fails = [])
    (htab : s'.ptab d = update (s.ptab d) k f) : Refines (m.newTab d k f rest) d s' := by
  obtain ⟨hdir, hlook, -⟩ := h.dir.newTab habs hf (Finset.mem_singleton_self k)
  obtain ⟨-, hpres, hframe, hold⟩ := h.dir.newTab_dir (k := k) hf
  have hnull := h.null
  rw [hf, List.mem_cons, not_or] at hnull
  refine ⟨hdir, hfree, hs, hnull.2, fun j hj => ?_, fun j hj hp => ?_, fun v hv => ?_⟩
  · rw [htab]
    by_cases hjk : j = k
    · rw [hjk, update_self, if_pos hpres, hframe]
    · rw [update_of_ne hjk, hold j hjk, h.tab j hj]
  · by_cases hjk : j = k
    · rw [hjk, hframe]
      exact Ne.symm hnull.1
    · rw [hold j hjk] at hp ⊢
      exact h.tab_ne j hj hp
  · rw [he, h.entry v hv, hlook v hv]

/-- Both walks fail, or both find the entry of the page. -/
theorem Refines.walk (h : Refines m d s) (hv : v < 2 ^ 20) :
    (∃ s', Xv6.walkpgdir d (v * PGSIZE) true s = .ok none s' ∧ walkpgdir d (v * PGSIZE) true m = (none, m) ∧
      Refines m d s') ∨
    ∃ m' s', Xv6.walkpgdir d (v * PGSIZE) true s = .ok (some (d, v)) s' ∧ walkpgdir d (v * PGSIZE) true m =
      (some (frame (m'.words d (v / NPTENTRIES)), v % NPTENTRIES), m') ∧ Refines m' d s' ∧
      present (m'.words d (v / NPTENTRIES)) := by
  have hk : PDX (v * PGSIZE) < NPDENTRIES := PDX_lt
  have hpage : v * PGSIZE / PGSIZE = v := Nat.mul_div_cancel v PGSIZE_pos
  rw [← PDX_page hv, ← PTX_page v]
  by_cases hp : present (m.words d (PDX (v * PGSIZE)))
  · have hw := walkpgdir_some (h.tab_of_present hk hp) true
    rw [hpage] at hw
    exact .inr ⟨m, s, hw, walk_present hp true, h, hp⟩
  · have h0 := h.tab _ hk
    rw [if_neg hp] at h0
    cases hf : m.freelist with
    | nil =>
      refine .inl ⟨{ s with fails := [], misses := s.misses + 1 }, walkpgdir_full h0 ?_, walk_full hp hf,
        h.dir, h.free, rfl, h.null, h.tab, h.tab_ne, h.entry⟩
      simp [kalloc, h.sure, h.free, hf]
    | cons f rest =>
      have hw := walkpgdir_new h0 (show kalloc s = .ok (some f) { s with
        fails := [], freelist := rest, refCount := update s.refCount f 1 } by simp [kalloc, h.sure, h.free, hf])
      rw [hpage] at hw
      obtain ⟨-, hpres, hframe, -⟩ := h.dir.newTab_dir (k := PDX (v * PGSIZE)) hf
      refine .inr ⟨m.newTab d (PDX (v * PGSIZE)) f rest, _, hw, ?_, ?_, hpres⟩
      · rw [hframe]
        exact walk_new hp hf
      · exact h.newTab hp hf (entry_newTab h0) rfl rfl (update_self ..)

/-- The same entry is stored. -/
theorem Refines.set {x : Pte} (h : Refines m d s) (hv : v < 2 ^ 20) (hp : present (m.words d (v / NPTENTRIES)))
    (ht : t = frame (m.words d (v / NPTENTRIES))) (hx : decode w = x) :
    Refines (m.set t (v % NPTENTRIES) w) d (s.setPte d v x) := by
  obtain ⟨hdir, hd, hlook⟩ := h.dir.set (w := w) hv hp ht
  refine ⟨hdir, h.free, h.sure, h.null, by rw [hd]; exact h.tab, by rw [hd]; exact h.tab_ne, fun u hu => ?_⟩
  rw [entry_setPte (h.tab_of_present (tab_lt hv) hp), hlook u hu]
  by_cases huv : u = v
  · rw [if_pos huv, huv, upd_same, hx]
  · rw [if_neg huv, upd_ne_page huv, h.entry u hu]

/-- The outcomes of the two: the same value or message, in states that agree. -/
def Same (d : ℕ) (r : Option (Ret × Pmem)) : Prog.Outcome Kern Bool → Prop
  | .ok ok s' => ∃ m', r = some (.ret ok, m') ∧ Refines m' d s'
  | .fault _ => False
  | .panic msg s' => ∃ m', r = some (.panic msg, m') ∧ Refines m' d s'

theorem mapLoop_some (hw : Xv6.walkpgdir d va true s = .ok (some (d, v)) s') :
    Xv6.mapLoop d perm (n + 1) va ppn s = if (s'.pte d v).p = false then
      Xv6.mapLoop d perm n (u32 (va + PGSIZE)) (ppn + 1) (s'.setPte d v { perm with p := true, ppn := ppn })
    else .panic "remap" s' := by
  rw [Xv6.mapLoop, Prog.bind_ok hw]
  change (Prog.check ((s'.pte d v).p = false) "remap" >>= fun _ => storePte (d, v) _ >>= fun _ => _) s' = _
  unfold Prog.check
  split_ifs <;> rfl

/-- One round of the two loops. -/
theorem Refines.round (h : Refines m d s) (hv : v < 2 ^ 20) (hppn : ppn < 2 ^ 20) (last fuel : ℕ)
    (hnext : ∀ m' s', Refines m' d s' → Same d
      (if v * PGSIZE = last then some (.ret true, m')
       else mapLoop d last (flagBits perm) fuel (u32 (v * PGSIZE + PGSIZE)) (BitVec.ofNat 32 ((ppn + 1) * PGSIZE)) m')
      (Xv6.mapLoop d perm n (u32 (v * PGSIZE + PGSIZE)) (ppn + 1) s')) :
    Same d (mapLoop d last (flagBits perm) (fuel + 1) (v * PGSIZE) (BitVec.ofNat 32 (ppn * PGSIZE)) m)
      (Xv6.mapLoop d perm (n + 1) (v * PGSIZE) ppn s) := by
  rcases h.walk hv with ⟨s', hw, hw', h'⟩ | ⟨m', s', hw, hw', h', hp⟩
  · rw [mapLoop, hw', Xv6.mapLoop, Prog.bind_ok hw]
    exact ⟨m, rfl, h'⟩
  · have hlook := h'.entry v hv
    rw [entry_of_tab (h'.tab_of_present (tab_lt hv) hp), lookup_eq hv, if_pos hp] at hlook
    have hpa : BitVec.ofNat 32 (ppn * PGSIZE) + BitVec.ofNat 32 PGSIZE = BitVec.ofNat 32 ((ppn + 1) * PGSIZE) := by
      rw [← BitVec.ofNat_add, succ_mul]
    rw [mapLoop, hw', mapLoop_some hw, hlook]
    dsimp only
    rw [hpa]
    by_cases hpres : present (m'.words (frame (m'.words d (v / NPTENTRIES))) (v % NPTENTRIES))
    · rw [if_pos hpres, (present_iff_decode _).1 hpres]
      exact ⟨m', rfl, h'⟩
    · rw [if_neg hpres, Bool.eq_false_iff.2 fun hp => hpres ((present_iff_decode _).2 hp)]
      exact hnext _ _ (h'.set hv hp rfl (decode_flagBits perm hppn))

theorem Refines.mapLoop {fuel : ℕ} (h : Refines m d s) (hv : v + n < 2 ^ 20) (hppn : ppn + n < 2 ^ 20) (hfuel : n < fuel) :
    Same d (mapLoop d ((v + n) * PGSIZE) (flagBits perm) fuel (v * PGSIZE) (BitVec.ofNat 32 (ppn * PGSIZE)) m)
      (Xv6.mapLoop d perm (n + 1) (v * PGSIZE) ppn s) := by
  induction n generalizing v m s ppn fuel with
  | zero =>
    obtain ⟨fuel, rfl⟩ := exists_eq_succ_of_ne_zero (ne_of_gt hfuel)
    refine h.round (by omega) (by omega) _ _ fun m' s' h' => ?_
    rw [if_pos (by rw [add_zero])]
    exact ⟨m', rfl, h'⟩
  | succ n ih =>
    obtain ⟨fuel, rfl⟩ := exists_eq_succ_of_ne_zero (ne_of_gt (zero_lt_of_lt hfuel))
    refine h.round (by omega) (by omega) _ _ fun m' s' h' => ?_
    obtain ⟨hnot, hnext⟩ := next_page hv
    rw [if_neg hnot, hnext, show v + (n + 1) = v + 1 + n by omega]
    exact ih h' (by omega) (by omega) (by omega)

/-- `mappages` on words does what it does in the kernel model. -/
theorem Refines.mappages {size fuel : ℕ} (h : Refines m d s) (hsize : 1 ≤ size) (hend : va + size - 1 < 2 ^ 32)
    (hppn : ppn + ((va + size - 1) / PGSIZE - va / PGSIZE) < 2 ^ 20)
    (hfuel : (va + size - 1) / PGSIZE - va / PGSIZE < fuel) :
    Same d (mappages fuel d va size (BitVec.ofNat 32 (ppn * PGSIZE)) (flagBits perm) m)
      (Xv6.mappages d va size ppn perm s) := by
  obtain ⟨n, hn, htop, heq⟩ := mappages_eq (m := m) (d := d) hsize hend
  have hrounds : sub32 (PGROUNDDOWN (u32 (va + size - 1))) (PGROUNDDOWN va) / PGSIZE = n := by
    unfold sub32 PGROUNDDOWN u32 PGSIZE at *
    omega
  rw [heq, Xv6.mappages, hrounds]
  exact h.mapLoop htop (by omega) (by omega)

end

/-- A directory without page tables, and one page for one. -/
def emptyDir : Pmem := { words := fun _ _ => 0, freelist := [5] }

theorem emptyDir_absent (k : ℕ) : ¬ present (emptyDir.words 1 k) := show ¬ present 0 by decide

theorem emptyDir_isDir : IsDir emptyDir 1 :=
  ⟨fun j _ _ _ hp => absurd hp (emptyDir_absent j), fun k _ hp => absurd hp (emptyDir_absent k),
    fun k _ hp => absurd hp (emptyDir_absent k), by decide, by decide, by decide⟩

/-- The same in the kernel model. -/
theorem emptyDir_refines : Refines emptyDir 1
    ⟨[5], fun _ => 0, fun _ _ => 0, fun _ => false, fun _ _ => 0, fun _ _ => {}, fun _ => {}, 1, 0, 0, [], [], [], 0⟩ where
  dir := emptyDir_isDir
  free := rfl
  sure := rfl
  null := by decide
  tab k _ := (if_neg (emptyDir_absent k)).symm
  tab_ne k _ hp := absurd hp (emptyDir_absent k)
  entry v hv := by
    rw [lookup_eq hv, if_neg (emptyDir_absent _)]
    rfl

/-- The last page of the address space. -/
theorem mappages_update_top : ∃ m', mappages 1 1 0xFFFFF000 PGSIZE 0x1000 PTE_W emptyDir = some (.ret true, m') ∧
    lookup m' 1 0xFFFFF = 0x1000 ||| PTE_W ||| PTE_P := by
  have habs : ∀ v, 0xFFFFF000 / PGSIZE ≤ v → v ≤ (0xFFFFF000 + PGSIZE - 1) / PGSIZE → ¬ present (lookup emptyDir 1 v) := by
    intro v _ hv
    rw [lookup_eq (lt_of_le_of_lt hv (by decide)), if_neg (emptyDir_absent _)]
    decide
  obtain ⟨ok, m', hr, -, hiff, hmap⟩ := @mappages_update emptyDir 1 0xFFFFF000 PGSIZE 0x1000 PTE_W emptyDir_isDir (by decide)
    (by decide) habs 1 (by decide)
  obtain rfl : ok = true := hiff.2 (show Finset.card _ ≤ 1 by decide)
  exact ⟨m', hr, (hmap rfl).1 0 (by decide)⟩

end Xv6.Pgtab

import Xv6.Spec.Sharing
import Xv6.Proofs.VmTrace

/-! Concurrent releases of shared frames. -/

namespace Xv6.Sharing

open Prog Trace Shares Function

/-! ### One step of one process -/

section Task

variable {L : Linker} {t : Task} {s s' : Kern} {p p' : Pc} {a f n k v oldsz va d : ℕ} {fv : Bool} {e : Pte}
  {Q : Unit → Kern → Prop} {F : Kern → Prop} {N : String → Kern → Prop}

theorem Task.pageName_empty (t : Task) (v : ℕ) : t.pageName v {} = 0 := ite_self 0

theorem Task.pageName_of_no_tab (h : s.ptab t.d (v / NPTENTRIES) = 0) : t.pageName v (s.entry t.d v) = 0 := by
  rw [entry_of_no_tab h, t.pageName_empty]

/-- The loop of `deallocuvm` at address `a`. -/
structure Loop (t : Task) (s : Kern) (a oldsz : ℕ) (fv : Bool) : Prop where
  dvd : PGSIZE ∣ a
  le : oldsz ≤ KERNBASE
  all : fv = true → oldsz = KERNBASE ∧ s.dir t.d = true ∧ ∀ v, v * PGSIZE < a → t.pageName v (s.entry t.d v) = 0

/-- After that loop in `freevm`. -/
structure Cleared (t : Task) (s : Kern) : Prop where
  page : ∀ v < NUPG, t.pageName v (s.entry t.d v) = 0
  dir : s.dir t.d = true

/-- What a process knows of its own page table. -/
def Local (t : Task) (s : Kern) : Pc → Prop
  | .dealloc a oldsz fv => Loop t s a oldsz fv
  | .freePage a oldsz fv f _ =>
    Loop t s a oldsz fv ∧ a < oldsz ∧ s.ptab t.d (a / PGSIZE / NPTENTRIES) ≠ 0 ∧ t.pageName (a / PGSIZE) (s.entry t.d (a / PGSIZE)) = f ∧ f ≠ 0
  | .tabs _ => Cleared t s
  | .freeTab k f _ => Cleared t s ∧ k < NPDENTRIES ∧ s.ptab t.d k = f ∧ f ≠ 0
  | .freeDir => s.dir t.d = true
  | .cow va => va < KERNBASE ∧ ((s.entry t.d (va / PGSIZE)).cow = true → t.maps (va / PGSIZE) (s.entry t.d (va / PGSIZE)) = true)
  | .copy va e => va < KERNBASE ∧ s.ptab t.d (va / PGSIZE / NPTENTRIES) ≠ 0 ∧ t.pageName (va / PGSIZE) (s.entry t.d (va / PGSIZE)) = e.ppn
  | .drop _ => True
  | .done => True

/-- A count of 1 that was read is still the count. -/
def Pc.Last (cnt : ℕ → ℕ) : Pc → Prop
  | .freePage _ _ _ f n => n = 1 → cnt f = 1
  | .freeTab _ f n => n = 1 → cnt f = 1
  | _ => True

/-- The count that was read is still the count. -/
def Pc.Exact (cnt : ℕ → ℕ) : Pc → Prop
  | .freePage _ _ _ f n => cnt f = n
  | .freeTab _ f n => cnt f = n
  | .copy _ e => 1 < cnt e.ppn
  | .drop f => 1 < cnt f
  | _ => True

theorem Pc.Exact.last {cnt : ℕ → ℕ} (h : p.Exact cnt) : p.Last cnt := by
  cases p with
  | freePage a oldsz fv f n => exact fun hn => Eq.trans h hn
  | freeTab k f n => exact fun hn => Eq.trans h hn
  | _ => trivial

theorem Pc.exact_of_between {cnt : ℕ → ℕ} (h : p.between = none) : p.Exact cnt := by
  cases p with
  | freePage a oldsz fv f n => simp [Pc.between] at h
  | freeTab k f n => simp [Pc.between] at h
  | copy va e => simp [Pc.between] at h
  | drop f => simp [Pc.between] at h
  | _ => trivial

/-- Only the page directory `d` and what belongs to it is changed. -/
structure Rows (d : ℕ) (s s' : Kern) : Prop where
  ptab : ∀ d' ≠ d, s'.ptab d' = s.ptab d'
  pte : ∀ d' ≠ d, s'.pte d' = s.pte d'
  dir : ∀ d' ≠ d, s'.dir d' = s.dir d'
  own : s'.dir d = true → s.dir d = true

/-- Whether a process goes on with a count that it has read. -/
inductive Next (t : Task) (p : Pc) (s : Kern) (p' : Pc) (s' : Kern) : Prop where
  | clear (h : p'.between = none)
  | read (h : p'.between = t.reads s p) (hx : p'.Exact s'.refCount)
  | keep (f : ℕ) (hp : p.between = some f) (hp' : p' = .drop f) (hx : p.Exact s.refCount → 1 < s.refCount f)
      (hc : f ∉ s.freelist → s'.refCount f = s.refCount f)

/-- The frames whose count a step may decrement. -/
def Drops (p : Pc) (s : Kern) (f : ℕ) : Prop := p.between = some f ∧ (p.Exact s.refCount → s.refCount f ≠ 1)

/-- What a step of a process does to the places, the counts and the free list. -/
structure Effect (t : Task) (p : Pc) (s : Kern) (p' : Pc) (s' : Kern) : Prop where
  change : Shares.Change 0 (Drops p s) (t.names s p) s.refCount s.freelist (t.names s' p') s'.refCount s'.freelist
  next : Next t p s p' s'

theorem effect_quiet (hn : t.names s' p' = t.names s p) (hc : s'.refCount = s.refCount)
    (hf : s'.freelist = s.freelist) (hx : Next t p s p' s') : Effect t p s p' s' := by
  refine ⟨?_, hx⟩
  rw [hn, hc, hf]
  exact .quiet

theorem effect_kfree {a : Place} (ha : t.names s p a = f) (h0 : f ≠ 0) (h1 : s.refCount f = 1)
    (hn : t.names s' p' = update (t.names s p) a 0) (hc : s'.refCount = update s.refCount f 0)
    (hf : s'.freelist = f :: s.freelist) (hb : p'.between = none) : Effect t p s p' s' := by
  refine ⟨?_, .clear hb⟩
  rw [hn, hc, hf]
  exact .release a f h0 ha h1

theorem effect_decl {a : Place} (ha : t.names s p a = f) (hp : p.between = some f)
    (h1 : p.Exact s.refCount → s.refCount f ≠ 1) (hn : t.names s' p' = update (t.names s p) a 0)
    (hc : s'.refCount = update s.refCount f (decl (s.refCount f))) (hf : s'.freelist = s.freelist)
    (hb : p'.between = none) : Effect t p s p' s' := by
  refine ⟨?_, .clear hb⟩
  rw [hn, hc, hf]
  exact .decl a f _ ⟨hp, h1⟩ ha fun hpos => if_neg hpos.ne'

theorem effect_copy {a : Place} {r : ℕ} (ha : t.names s p a = f) (hne : a ≠ .copied)
    (hb : t.names s p .copied = 0) (hp : p.between = some f) (h1 : p.Exact s.refCount → 1 < s.refCount f)
    (hn : t.names s' p' = update (update (t.names s p) a r) .copied f) (hc : s'.refCount = update s.refCount r 1)
    (hf : s.freelist = r :: s'.freelist) (hp' : p' = .drop f) : Effect t p s p' s' := by
  refine ⟨?_, .keep f hp hp' h1 fun hnot => ?_⟩
  · rw [hn, hc]
    exact .swap a .copied f r _ ha hb hne hf
  · rw [hc, update_of_ne]
    rintro rfl
    exact hnot (hf ▸ List.mem_cons_self)

theorem Task.names_congr (hpage : ∀ v < NUPG, t.pageName v (s'.entry t.d v) = t.pageName v (s.entry t.d v))
    (htab : s'.ptab t.d = s.ptab t.d) (hdir : s'.dir t.d = s.dir t.d) (hp : p'.copied = p.copied) :
    t.names s' p' = t.names s p := by
  funext a
  cases a with
  | page v => exact hpage v v.2
  | tab k => exact congrFun htab k
  | dir => simp only [Task.names, hdir]
  | copied => exact hp

/-- A page-table entry is written. -/
theorem Task.names_setPte (hv : v < NUPG) (htab : s.ptab t.d (v / NPTENTRIES) ≠ 0) (hp : p'.copied = p.copied) :
    t.names (s.setPte t.d v e) p' = update (t.names s p) (.page ⟨v, hv⟩) (t.pageName v e) := by
  funext a
  cases a with
  | page w =>
    simp only [Task.names, entry_setPte htab]
    by_cases hw : w.1 = v
    · obtain rfl : w = ⟨v, hv⟩ := Fin.ext hw
      rw [upd_same, update_self]
    · rw [upd_ne_page hw, update_of_ne (by rintro ⟨⟩; exact hw rfl)]
      rfl
  | tab k => rw [update_of_ne (by simp)]; rfl
  | dir => rw [update_of_ne (by simp)]; rfl
  | copied => rw [update_of_ne (by simp)]; exact hp

/-- A page-table page without entries that name a frame goes. -/
theorem Task.names_dropTab (hk : k < NPDENTRIES) (hc : ∀ v < NUPG, t.pageName v (s.entry t.d v) = 0)
    (hp : p'.copied = p.copied) :
    t.names (s.dropTab t.d k) p' = update (t.names s p) (.tab ⟨k, hk⟩) 0 := by
  funext a
  cases a with
  | page v =>
    rw [update_of_ne (by simp)]
    simp only [Task.names, entry_dropTab, hc v v.2]
    split_ifs
    · exact t.pageName_empty v
    · exact hc v v.2
  | tab j =>
    by_cases hj : j.1 = k
    · obtain rfl : j = ⟨k, hk⟩ := Fin.ext hj
      rw [update_self]
      simp [Task.names, Kern.dropTab]
    · rw [update_of_ne (by rintro ⟨⟩; exact hj rfl)]
      simp [Task.names, Kern.dropTab, hj]
  | dir => rw [update_of_ne (by simp)]; rfl
  | copied => rw [update_of_ne (by simp)]; exact hp

/-- Only the frame that is about to be given up depends on where the process is. -/
theorem Task.names_pc (p p' : Pc) : t.names s p' = update (t.names s p) .copied p'.copied := by
  funext a
  cases a with
  | copied => rw [update_self]; rfl
  | page v => rw [update_of_ne (by simp)]; rfl
  | tab k => rw [update_of_ne (by simp)]; rfl
  | dir => rw [update_of_ne (by simp)]; rfl

theorem Rows.refl (d : ℕ) (s : Kern) : Rows d s s := ⟨fun _ _ => rfl, fun _ _ => rfl, fun _ _ => rfl, id⟩

theorem rows_pte {r : ℕ → Pte} (hptab : s'.ptab = s.ptab) (hpte : s'.pte = update s.pte d r)
    (hdir : s'.dir = s.dir) : Rows d s s' where
  ptab d' _ := by rw [hptab]
  pte d' hd := by rw [hpte, update_of_ne hd]
  dir d' _ := by rw [hdir]
  own h := by rwa [hdir] at h

theorem rows_ptab {r : ℕ → ℕ} (hptab : s'.ptab = update s.ptab d r) (hpte : s'.pte = s.pte)
    (hdir : s'.dir = s.dir) : Rows d s s' where
  ptab d' hd := by rw [hptab, update_of_ne hd]
  pte d' _ := by rw [hpte]
  dir d' _ := by rw [hdir]
  own h := by rwa [hdir] at h

/-- What a step returns with. -/
structure Post (t : Task) (p : Pc) (s : Kern) (p' : Pc) (s' : Kern) : Prop where
  effect : Effect t p s p' s'
  own : Local t s' p'
  rows : Rows t.d s s'

/-- The assertion of `kfree`. -/
def assertion : String := "kfree2 ref_count!=1"

/-- The step ends with `Post`, also if it faults and ends the call, and stops at the assertion of `kfree` only if a count that was read as 1, or that of
the page directory, is not 1. -/
def Fine (L : Linker) (t : Task) (p : Pc) (s : Kern) : Prop :=
  Sat (t.step L p) s (Post t p s) (Post t p s .done) fun m _ => m = assertion →
    ¬ p.Last s.refCount ∨ p = .freeDir ∧ s.refCount t.d ≠ 1

/-- The step moves on without a change. -/
theorem post_stay (hp : p'.copied = p.copied) (hx : Next t p s p' s) (hl : Local t s p') : Post t p s p' s :=
  ⟨effect_quiet (Task.names_congr (fun _ _ => rfl) rfl rfl hp) rfl rfl hx, hl, .refl _ _⟩

theorem lt_of_page {b : ℕ} (hd : PGSIZE ∣ a) (h : b * PGSIZE < a + PGSIZE) (hne : b ≠ a / PGSIZE) : b * PGSIZE < a := by
  obtain ⟨c, rfl⟩ := hd
  unfold PGSIZE at *
  omega

/-- The next round of the loop, when page `a` names nothing. -/
theorem Loop.next (h : Loop t s a oldsz fv) (h0 : t.pageName (a / PGSIZE) (s.entry t.d (a / PGSIZE)) = 0) :
    Loop t s (a + PGSIZE) oldsz fv where
  dvd := Nat.dvd_add h.dvd (Nat.dvd_refl _)
  le := h.le
  all hfv := by
    obtain ⟨h1, h2, h3⟩ := h.all hfv
    refine ⟨h1, h2, fun v hv => ?_⟩
    by_cases hva : v = a / PGSIZE
    · rw [hva]
      exact h0
    · exact h3 v (lt_of_page h.dvd hv hva)

/-- Past the addresses of an absent page table. -/
theorem Loop.skip (h : Loop t s a oldsz fv) (ha : a < oldsz) (h0 : s.ptab t.d (PDX a) = 0) :
    Loop t s ((PDX a + 1) * PTSIZE) oldsz fv := by
  have ha32 : a < 2 ^ 32 := lt_of_lt_of_le (ha.trans_le h.le) (by simp [KERNBASE])
  obtain ⟨-, hd, hpage⟩ := next_table ha32
  refine ⟨hd, h.le, fun hfv => ?_⟩
  obtain ⟨h1, h2, h3⟩ := h.all hfv
  refine ⟨h1, h2, fun v hv => ?_⟩
  by_cases hva : v * PGSIZE < a
  · exact h3 v hva
  · apply Task.pageName_of_no_tab
    rw [hpage v (Nat.le_of_not_lt hva) hv]
    exact h0

/-- The end of the loop in `freevm`. -/
theorem Loop.cleared (h : Loop t s a oldsz true) (ha : ¬ a < oldsz) : Cleared t s := by
  obtain ⟨h1, h2, h3⟩ := h.all rfl
  refine ⟨fun v hv => h3 v ?_, h2⟩
  unfold NUPG KERNBASE PGSIZE at *
  omega

theorem page_lt (h : a < KERNBASE) : a / PGSIZE < NUPG := by
  unfold NUPG KERNBASE PGSIZE at *
  omega

theorem PDX_page (h : a < KERNBASE) : PDX a = a / PGSIZE / NPTENTRIES :=
  PDX_eq (h.trans (by simp [KERNBASE]))

theorem Task.maps_of_p (h : e.p = true) : t.maps v e = true := by simp [Task.maps, h]

theorem Task.pageName_of_maps (h : t.maps v e = true) : t.pageName v e = e.ppn := if_pos h

/-- A page that is present: its count is read. -/
theorem post_read (h : Loop t s a oldsz fv) (ha : a < oldsz) (htab : s.ptab t.d (a / PGSIZE / NPTENTRIES) ≠ 0)
    (hm : t.maps (a / PGSIZE) (s.entry t.d (a / PGSIZE)) = true) (h0 : (s.entry t.d (a / PGSIZE)).ppn ≠ 0) :
    Post t (.dealloc a oldsz fv) s (.freePage a oldsz fv (s.entry t.d (a / PGSIZE)).ppn
      (s.refCount (s.entry t.d (a / PGSIZE)).ppn)) s := by
  refine post_stay rfl (.read ?_ rfl) ⟨h, ha, htab, Task.pageName_of_maps hm, h0⟩
  exact (if_pos ⟨ha, hm⟩).symm

theorem Task.maps_of_guard (hd : PGSIZE ∣ a) (h : t.guard = some a) : t.maps (a / PGSIZE) e = true := by
  simp [Task.maps, h, page_mul hd]

/-- The guard page keeps its frame when it is marked as present. -/
theorem pageName_mark (hd : PGSIZE ∣ a) (htab : s.ptab t.d (a / PGSIZE / NPTENTRIES) ≠ 0) (hg : t.guard = some a)
    (w : ℕ) : t.pageName w ((s.setPte t.d (a / PGSIZE) { s.entry t.d (a / PGSIZE) with p := true }).entry t.d w) =
      t.pageName w (s.entry t.d w) := by
  rw [entry_setPte htab]
  by_cases hw : w = a / PGSIZE
  · rw [hw, upd_same, Task.pageName_of_maps (Task.maps_of_guard hd hg), Task.pageName_of_maps (Task.maps_of_guard hd hg)]
  · rw [upd_ne_page hw]

/-- The guard page is marked as present, then its count is read. -/
theorem post_guard (h : Loop t s a oldsz fv) (ha : a < oldsz) (htab : s.ptab t.d (a / PGSIZE / NPTENTRIES) ≠ 0)
    (hg : t.guard = some a) (h0 : (s.entry t.d (a / PGSIZE)).ppn ≠ 0) :
    Post t (.dealloc a oldsz fv) s (.freePage a oldsz fv (s.entry t.d (a / PGSIZE)).ppn
      (s.refCount (s.entry t.d (a / PGSIZE)).ppn))
      (s.setPte t.d (a / PGSIZE) { s.entry t.d (a / PGSIZE) with p := true }) := by
  have hm := pageName_mark h.dvd htab hg
  have hmaps : t.maps (a / PGSIZE) (s.entry t.d (a / PGSIZE)) = true := Task.maps_of_guard h.dvd hg
  refine ⟨effect_quiet (Task.names_congr (fun v _ => hm v) rfl rfl rfl) rfl rfl (.read ?_ rfl), ⟨?_, ha, htab, ?_, h0⟩,
    rows_pte rfl rfl rfl⟩
  · exact (if_pos ⟨ha, hmaps⟩).symm
  · refine ⟨h.dvd, h.le, fun hfv => ?_⟩
    obtain ⟨h1, h2, h3⟩ := h.all hfv
    exact ⟨h1, h2, fun v hv => (hm v).trans (h3 v hv)⟩
  · exact (hm _).trans (Task.pageName_of_maps hmaps)

theorem fine_dealloc (h : Loop t s a oldsz fv) : Fine L t (.dealloc a oldsz fv) s := by
  unfold Fine
  rw [Task.step]
  by_cases ha : a < oldsz
  · have hlt : a < KERNBASE := ha.trans_le h.le
    have hd := page_mul h.dvd
    rw [if_pos ha, sat_bind_eq, walkpgdir, sat_bind_eq, sat_get_eq]
    by_cases htab : s.ptab t.d (PDX a) = 0
    · rw [if_neg (not_not.2 htab), if_pos rfl, sat_pure_eq]
      dsimp only
      split_ifs
      · exact post_stay rfl (.clear rfl) trivial
      · exact post_stay rfl (.clear rfl) (h.skip ha htab)
    · rw [if_pos htab, sat_pure_eq]
      dsimp only
      rw [PDX_page hlt] at htab
      have he : s.pte t.d (a / PGSIZE) = s.entry t.d (a / PGSIZE) := (entry_of_tab htab).symm
      rw [sat_bind_eq, markGuard]
      by_cases hg : t.guard = some a
      · -- the guard page is marked as present first
        rw [if_pos hg, sat_bind_eq, loadPte, sat_bind_eq, sat_get_eq, sat_pure_eq, he, storePte, sat_modify_eq, sat_bind_eq,
          sat_bind_eq, sat_get_eq, sat_pure_eq]
        have he' : (s.setPte t.d (a / PGSIZE) { s.entry t.d (a / PGSIZE) with p := true }).pte t.d (a / PGSIZE) =
            { s.entry t.d (a / PGSIZE) with p := true } := upd_same
        rw [he', if_pos rfl, sat_bind_eq]
        apply sat_check
        · intro h0
          exact post_guard h ha htab hg h0
        · intro _ hm
          exact absurd hm (by decide)
      · rw [if_neg hg, sat_pure_eq, sat_bind_eq, loadPte, sat_bind_eq, sat_get_eq, sat_pure_eq, he]
        by_cases hp : (s.entry t.d (a / PGSIZE)).p = true
        · rw [if_pos hp, sat_bind_eq]
          apply sat_check
          · intro h0
            rw [sat_bind_eq, getRefCount, sat_bind_eq, sat_get_eq]
            exact post_read h ha htab (Task.maps_of_p hp) h0
          · intro _ hm
            exact absurd hm (by decide)
        · rw [if_neg hp, sat_pure_eq]
          have hm : t.pageName (a / PGSIZE) (s.entry t.d (a / PGSIZE)) = 0 := by
            simp [Task.pageName, Task.maps, hp, hd, hg]
          exact post_stay rfl (.clear rfl) (h.next hm)
  · rw [if_neg ha, sat_pure_eq]
    cases fv with
    | false => exact post_stay rfl (.clear rfl) trivial
    | true => exact post_stay rfl (.clear rfl) (h.cleared ha)

theorem sat_kfree (hQ : L.ok f → s.refCount f = 1 → Q () (Kern.push { s with mem := update s.mem f fun _ => 1 } f))
    (hok : ¬ L.ok f → ∀ s', N "kfree1" s') (h1 : s.refCount f ≠ 1 → ∀ s', N assertion s') :
    Sat (kfree L f) s Q F N := by
  rw [kfree, sat_bind_eq]
  refine sat_check (fun hf => ?_) fun hf => hok hf _
  rw [sat_bind_eq, memset, sat_modify_eq, sat_bind_eq, getRefCount, sat_bind_eq, sat_get_eq, sat_pure_eq, sat_bind_eq]
  exact sat_check (fun hc => hQ hf hc) fun hc => h1 hc _

/-- `if(n == 1) kfree(f) else declRefCount(f)`, up to what is done after it. -/
theorem sat_giveUp (hfree : n = 1 → s.refCount f = 1 → Q () (Kern.push { s with mem := update s.mem f fun _ => 1 } f))
    (hdecl : n ≠ 1 → Q () { s with refCount := update s.refCount f (decl (s.refCount f)) })
    (hok : ∀ s', N "kfree1" s') (h1 : n = 1 → s.refCount f ≠ 1 → ∀ s', N assertion s') :
    Sat (giveUp L f n) s Q F N := by
  unfold giveUp
  split_ifs with hn
  · exact sat_kfree (fun _ hc => hfree hn hc) (fun _ => hok) (h1 hn)
  · exact hdecl hn

/-- A page-table entry is cleared. -/
theorem names_clear (hv : v < NUPG) (htab : s.ptab t.d (v / NPTENTRIES) ≠ 0) (hp : p'.copied = p.copied) :
    t.names (s.setPte t.d v {}) p' = update (t.names s p) (.page ⟨v, hv⟩) 0 := by
  rw [Task.names_setPte hv htab hp, t.pageName_empty]

theorem Loop.clear (h : Loop t s a oldsz fv) (htab : s.ptab t.d (a / PGSIZE / NPTENTRIES) ≠ 0) :
    Loop t (s.setPte t.d (a / PGSIZE) {}) (a + PGSIZE) oldsz fv := by
  have hlt : ∀ v, v * PGSIZE < a → v ≠ a / PGSIZE := by
    rintro v hv rfl
    rw [page_mul h.dvd] at hv
    exact Nat.lt_irrefl _ hv
  have h' : Loop t (s.setPte t.d (a / PGSIZE) {}) a oldsz fv := by
    refine ⟨h.dvd, h.le, fun hfv => ?_⟩
    obtain ⟨h1, h2, h3⟩ := h.all hfv
    refine ⟨h1, h2, fun v hv => ?_⟩
    rw [entry_setPte htab, upd_ne_page (hlt v hv)]
    exact h3 v hv
  apply h'.next
  rw [entry_setPte htab, upd_same, t.pageName_empty]

theorem fine_freePage (h : Local t s (.freePage a oldsz fv f n)) : Fine L t (.freePage a oldsz fv f n) s := by
  obtain ⟨hloop, ha, htab, hf, h0⟩ := h
  have hv : a / PGSIZE < NUPG := page_lt (ha.trans_le hloop.le)
  unfold Fine
  rw [Task.step, sat_bind_eq]
  apply sat_giveUp
  · intro _ hc
    refine ⟨effect_kfree (a := .page ⟨_, hv⟩) hf h0 hc ?_ rfl rfl rfl, ?_, rows_pte rfl rfl rfl⟩
    · exact names_clear hv htab rfl
    · exact Loop.clear ⟨hloop.dvd, hloop.le, hloop.all⟩ htab
  · intro hn
    refine ⟨effect_decl (a := .page ⟨_, hv⟩) hf rfl (fun hx => ?_) ?_ rfl rfl rfl, ?_, rows_pte rfl rfl rfl⟩
    · rw [show s.refCount f = n from hx]
      exact hn
    · exact names_clear hv htab rfl
    · exact Loop.clear ⟨hloop.dvd, hloop.le, hloop.all⟩ htab
  · intro _ hm
    exact absurd hm (by decide)
  · intro hn hc _ _
    exact .inl fun hlast => hc (hlast hn)

theorem fine_tabs (h : Cleared t s) : Fine L t (.tabs k) s := by
  unfold Fine
  rw [Task.step]
  by_cases hk : k < NPDENTRIES
  · rw [if_pos hk, sat_bind_eq, sat_get_eq]
    by_cases h0 : s.ptab t.d k = 0
    · rw [if_neg (not_not.2 h0), sat_pure_eq]
      exact post_stay rfl (.clear rfl) h
    · rw [if_pos h0, sat_bind_eq, getRefCount, sat_bind_eq, sat_get_eq, sat_pure_eq]
      refine post_stay rfl (.read ?_ rfl) ⟨h, hk, rfl, h0⟩
      exact (if_pos ⟨hk, h0⟩).symm
  · rw [if_neg hk, sat_pure_eq]
    exact post_stay rfl (.clear rfl) h.dir

theorem Cleared.dropTab (h : Cleared t s) (k : ℕ) : Cleared t (s.dropTab t.d k) := by
  refine ⟨fun v hv => ?_, h.dir⟩
  rw [entry_dropTab]
  split_ifs
  · exact t.pageName_empty v
  · exact h.page v hv

theorem fine_freeTab (h : Local t s (.freeTab k f n)) : Fine L t (.freeTab k f n) s := by
  obtain ⟨hcl, hk, hf, h0⟩ := h
  unfold Fine
  rw [Task.step, sat_bind_eq]
  apply sat_giveUp
  · intro _ hc
    refine ⟨effect_kfree (a := .tab ⟨k, hk⟩) hf h0 hc ?_ rfl rfl rfl, ?_, rows_ptab rfl rfl rfl⟩
    · exact Task.names_dropTab hk hcl.page rfl
    · exact ⟨(hcl.dropTab k).page, hcl.dir⟩
  · intro hn
    refine ⟨effect_decl (a := .tab ⟨k, hk⟩) hf rfl (fun hx => ?_) ?_ rfl rfl rfl, ?_, rows_ptab rfl rfl rfl⟩
    · rw [show s.refCount f = n from hx]
      exact hn
    · exact Task.names_dropTab hk hcl.page rfl
    · exact ⟨(hcl.dropTab k).page, hcl.dir⟩
  · intro _ hm
    exact absurd hm (by decide)
  · intro hn hc _ _
    exact .inl fun hlast => hc (hlast hn)

theorem fine_freeDir (h : s.dir t.d = true) : Fine L t .freeDir s := by
  unfold Fine
  rw [Task.step, sat_bind_eq]
  apply sat_kfree
  · intro hok hc
    have hdir : t.names s .freeDir .dir = t.d := by simp [Task.names, h]
    refine ⟨effect_kfree hdir (L.ok_ne_zero hok) hc ?_ rfl rfl rfl, trivial,
      ⟨fun _ _ => rfl, fun _ _ => rfl, fun _ hd => update_of_ne hd _ _, fun _ => h⟩⟩
    funext a
    cases a with
    | dir => rw [update_self]; simp [Task.names]
    | page v => rw [update_of_ne (by simp)]; rfl
    | tab k => rw [update_of_ne (by simp)]; rfl
    | copied => rw [update_of_ne (by simp)]; rfl
  · intro _ _ hm
    exact absurd hm (by decide)
  · intro hc _ _
    exact .inr ⟨rfl, hc⟩

theorem fine_cow (h : Local t s (.cow va)) : Fine L t (.cow va) s := by
  obtain ⟨hva, hmaps⟩ := h
  unfold Fine
  rw [Task.step, sat_bind_eq, walkpgdir, sat_bind_eq, sat_get_eq]
  by_cases htab : s.ptab t.d (PDX va) = 0
  · rw [if_neg (not_not.2 htab), if_pos rfl, sat_pure_eq]
    exact post_stay rfl (.clear rfl) trivial
  rw [if_pos htab, sat_pure_eq]
  dsimp only
  rw [PDX_page hva] at htab
  have he : s.pte t.d (va / PGSIZE) = s.entry t.d (va / PGSIZE) := (entry_of_tab htab).symm
  rw [sat_bind_eq, loadPte, sat_bind_eq, sat_get_eq, sat_pure_eq, he]
  by_cases hcow : (s.entry t.d (va / PGSIZE)).cow = true
  · have hm := hmaps hcow
    rw [if_pos hcow, sat_bind_eq, getRefCount, sat_bind_eq, sat_get_eq, sat_pure_eq]
    split_ifs with h1 h2
    · refine post_stay rfl (.read ?_ h1) ⟨hva, htab, Task.pageName_of_maps hm⟩
      exact (if_pos hcow).symm
    · -- the last reference: the page becomes writable
      refine ⟨effect_quiet ?_ rfl rfl (.clear rfl), trivial, rows_pte rfl rfl rfl⟩
      refine (Task.names_setPte (page_lt hva) htab rfl).trans (update_eq_self_iff.2 ?_)
      rfl
    · intro hm
      exact absurd hm (by decide)
  · rw [if_neg hcow, sat_pure_eq]
    exact post_stay rfl (.clear rfl) trivial

theorem sat_kalloc {Q : Option ℕ → Kern → Prop}
    (hnone : Q none { s with fails := s.fails.tail, misses := s.misses + 1 })
    (hsome : ∀ r rest, s.freelist = r :: rest → Q (some r)
      { s with fails := s.fails.tail, freelist := rest, refCount := update s.refCount r 1 }) :
    Sat kalloc s Q F N := by
  rcases kalloc_cases s with ⟨hk, -⟩ | ⟨r, rest, hl, -, hk⟩
  · rw [Sat, hk]
    exact hnone
  · rw [Sat, hk]
    exact hsome r rest hl

/-- The entry of a copied page is written, and the old frame is to be given up. -/
theorem names_copy (hv : v < NUPG) (htab : s.ptab t.d (v / NPTENTRIES) ≠ 0) (f : ℕ) :
    t.names (s.setPte t.d v e) (.drop f) =
      update (update (t.names s p) (.page ⟨v, hv⟩) (t.pageName v e)) .copied f := by
  rw [Task.names_pc p (.drop f), Task.names_setPte hv htab rfl]
  rfl

theorem fine_copy (h : Local t s (.copy va e)) : Fine L t (.copy va e) s := by
  obtain ⟨hva, htab, hname⟩ := h
  unfold Fine
  rw [Task.step, sat_bind_eq]
  apply sat_kalloc
  · exact ⟨effect_quiet (Task.names_congr (fun _ _ => rfl) rfl rfl rfl) rfl rfl (.clear rfl), trivial,
      ⟨fun _ _ => rfl, fun _ _ => rfl, fun _ _ => rfl, id⟩⟩
  · intro r rest hf
    rw [sat_bind_eq, copypage, sat_modify_eq, sat_bind_eq, storePte, sat_modify_eq, sat_pure_eq]
    refine ⟨effect_copy (a := .page ⟨_, page_lt hva⟩) hname (by simp) rfl rfl id ?_ rfl hf rfl, trivial,
      rows_pte rfl rfl rfl⟩
    exact names_copy (p := .copy va e) (page_lt hva) htab e.ppn

theorem fine_drop : Fine L t (.drop f) s := by
  unfold Fine
  rw [Task.step, sat_bind_eq, declRefCount, sat_modify_eq, sat_pure_eq]
  refine ⟨effect_decl (a := .copied) rfl rfl (fun hx => Nat.ne_of_gt hx) ?_ rfl rfl rfl, trivial,
    ⟨fun _ _ => rfl, fun _ _ => rfl, fun _ _ => rfl, id⟩⟩
  exact Task.names_pc (.drop f) .done

/-- Every step of a process. -/
theorem step_fine (h : Local t s p) : Fine L t p s := by
  cases p with
  | dealloc a oldsz fv => exact fine_dealloc h
  | freePage a oldsz fv f n => exact fine_freePage h
  | tabs k => exact fine_tabs h
  | freeTab k f n => exact fine_freeTab h
  | freeDir => exact fine_freeDir h
  | cow va => exact fine_cow h
  | copy va e => exact fine_copy h
  | drop f => exact fine_drop
  | done => exact post_stay rfl (.clear rfl) trivial

/-- The frame that a process has yet to act on is named at one of its places. -/
theorem Local.named (h : Local t s p) (hb : p.between = some f) : ∃ a, t.names s p a = f := by
  cases p with
  | freePage a oldsz fv g n =>
    obtain ⟨hloop, ha, -, hf, -⟩ := h
    obtain rfl : g = f := by simpa [Pc.between] using hb
    exact ⟨.page ⟨_, page_lt (ha.trans_le hloop.le)⟩, hf⟩
  | freeTab k g n =>
    obtain ⟨-, hk, hf, -⟩ := h
    obtain rfl : g = f := by simpa [Pc.between] using hb
    exact ⟨.tab ⟨k, hk⟩, hf⟩
  | copy va e =>
    obtain ⟨hva, -, hf⟩ := h
    obtain rfl : e.ppn = f := by simpa [Pc.between] using hb
    exact ⟨.page ⟨_, page_lt hva⟩, hf⟩
  | drop g =>
    obtain rfl : g = f := by simpa [Pc.between] using hb
    exact ⟨.copied, rfl⟩
  | _ => simp [Pc.between] at hb

theorem Rows.entry {d' : ℕ} (h : Rows d s s') (hd : d' ≠ d) (v : ℕ) : s'.entry d' v = s.entry d' v := by
  unfold Kern.entry
  rw [h.ptab d' hd, h.pte d' hd]

theorem Rows.names (h : Rows d s s') (hd : t.d ≠ d) : t.names s' p = t.names s p :=
  Task.names_congr (fun v _ => by rw [h.entry hd]) (h.ptab _ hd) (h.dir _ hd) rfl

theorem Rows.local (h : Rows d s s') (hd : t.d ≠ d) (hl : Local t s p) : Local t s' p := by
  have he := h.entry hd
  have hloop : ∀ {a oldsz fv}, Loop t s a oldsz fv → Loop t s' a oldsz fv := by
    intro a oldsz fv hl
    refine ⟨hl.dvd, hl.le, fun hfv => ?_⟩
    rw [h.dir _ hd]
    simp only [he]
    exact hl.all hfv
  have hcl : Cleared t s → Cleared t s' := by
    intro hl
    refine ⟨fun v hv => ?_, by rw [h.dir _ hd, hl.dir]⟩
    rw [he]
    exact hl.page v hv
  cases p with
  | dealloc a oldsz fv => exact hloop hl
  | freePage a oldsz fv f n =>
    obtain ⟨h1, h2, h3, h4, h5⟩ := hl
    exact ⟨hloop h1, h2, by rwa [h.ptab _ hd], by rwa [he], h5⟩
  | tabs k => exact hcl hl
  | freeTab k f n =>
    obtain ⟨h1, h2, h3, h4⟩ := hl
    exact ⟨hcl h1, h2, by rwa [h.ptab _ hd], h4⟩
  | freeDir => exact (h.dir _ hd).trans hl
  | cow va =>
    obtain ⟨h1, h2⟩ := hl
    exact ⟨h1, by rwa [he]⟩
  | copy va e =>
    obtain ⟨h1, h2, h3⟩ := hl
    exact ⟨h1, by rwa [h.ptab _ hd], by rwa [he]⟩
  | drop f => trivial
  | done => trivial

end Task

/-! ### All processes -/

section System

variable {ι : Type} [Fintype ι] [DecidableEq ι] {L : Linker} {t : ι → Task} {ext cnt : ℕ → ℕ} {T : ℕ → Prop}
  {s s' s₀ : State ι} {i j : ι} {k : Kern} {p' p : Pc} {f : ℕ} {as : List ι}

/-- The page directories are those of the processes, one each. -/
structure Dirs (t : ι → Task) : Prop where
  inj : ∀ i j, (t i).d = (t j).d → i = j
  ne : ∀ i, (t i).d ≠ 0

/-- What holds while the kernel runs, whatever the interleaving. -/
structure Good (t : ι → Task) (T : ℕ → Prop) (ext : ℕ → ℕ) (s : State ι) : Prop where
  account : Account 0 T ext (s.names t) s.kern.refCount s.kern.freelist
  own : ∀ i, Local (t i) s.kern (s.pc i)
  last : ∀ i, (s.pc i).Last s.kern.refCount
  dir : ∀ i, s.kern.dir (t i).d = true → s.kern.refCount (t i).d = 1

/-- The state after a step that returns. -/
def State.next (s : State ι) (i : ι) (p' : Pc) (k : Kern) : State ι := { s with kern := k, pc := update s.pc i p' }

omit [Fintype ι] in
theorem names_next_self (a : Place) : (s.next i p' k).names t (i, a) = (t i).names k p' a := by
  simp [State.names, State.next]

omit [Fintype ι] in
theorem names_next_ne (hd : Dirs t) (hr : Rows (t i).d s.kern k) (hj : j ≠ i) (a : Place) :
    (s.next i p' k).names t (j, a) = s.names t (j, a) := by
  have hdj : (t j).d ≠ (t i).d := fun he => hj (hd.inj j i he)
  have hpc : (s.next i p' k).pc j = s.pc j := update_of_ne hj _ _
  change (t j).names k ((s.next i p' k).pc j) a = (t j).names s.kern (s.pc j) a
  rw [hpc, hr.names hdj]

omit [Fintype ι] in
theorem change_next (hd : Dirs t) (hp : Post (t i) (s.pc i) s.kern p' k) :
    Shares.Change 0 (Drops (s.pc i) s.kern) (s.names t) s.kern.refCount s.kern.freelist
      ((s.next i p' k).names t) k.refCount k.freelist :=
  hp.effect.change.lift (fun _ => rfl) names_next_self fun _ a hj => names_next_ne hd hp.rows hj a

/-- A process that has read a count of 1 names the frame. -/
theorem Local.last_cases {t : Task} (h : Local t k p) (hl : p.Last cnt) :
    (∀ cnt', p.Last cnt') ∨ ∃ a f, f ≠ 0 ∧ t.names k p a = f ∧ cnt f = 1 ∧ ∀ cnt', cnt' f = 1 → p.Last cnt' := by
  cases p with
  | freePage a oldsz fv f n =>
    obtain ⟨b, hb⟩ := h.named (p := .freePage a oldsz fv f n) rfl
    by_cases hn : n = 1
    · exact .inr ⟨b, f, h.2.2.2.2, hb, hl hn, fun _ h1 _ => h1⟩
    · exact .inl fun _ h1 => absurd h1 hn
  | freeTab k f n =>
    obtain ⟨b, hb⟩ := h.named (p := .freeTab k f n) rfl
    by_cases hn : n = 1
    · exact .inr ⟨b, f, h.2.2.2, hb, hl hn, fun _ h1 _ => h1⟩
    · exact .inl fun _ h1 => absurd h1 hn
  | _ => exact .inl fun _ => trivial

theorem Next.last {t : Task} {p : Pc} {k' : Kern} (h : Next t p k p' k') : p'.Last k'.refCount := by
  cases h with
  | clear h => exact (Pc.exact_of_between h).last
  | read _ hx => exact hx.last
  | keep f _ hp' =>
    subst hp'
    trivial

theorem Good.next (hd : Dirs t) (h : Good t T ext s) (hp : Post (t i) (s.pc i) s.kern p' k) :
    Good t T ext (s.next i p' k) := by
  have hc := change_next hd hp
  have hpc : ∀ j, j ≠ i → (s.next i p' k).pc j = s.pc j := fun j hj => update_of_ne hj _ _
  have hpi : (s.next i p' k).pc i = p' := update_self _ _ _
  refine ⟨h.account.change hc, fun j => ?_, fun j => ?_, fun j hdir => ?_⟩
  · by_cases hj : j = i
    · subst hj
      rw [hpi]
      exact hp.own
    · rw [hpc j hj]
      exact hp.rows.local (fun he => hj (hd.inj j i he)) (h.own j)
  · by_cases hj : j = i
    · subst hj
      rw [hpi]
      exact hp.effect.next.last
    · rw [hpc j hj]
      rcases (h.own j).last_cases (h.last j) with hl | ⟨a, f, h0, ha, h1, hl⟩
      · exact hl _
      · have ha' : (s.next i p' k).names t (j, a) = f := (names_next_ne hd hp.rows hj a).trans ha
        exact hl _ (hc.last (b := (j, a)) h.account h0 ha ha' h1)
  · have hdir₀ : s.kern.dir (t j).d = true := by
      by_cases hj : j = i
      · subst hj
        exact hp.rows.own hdir
      · rw [← hp.rows.dir _ fun he => hj (hd.inj j i he)]
        exact hdir
    have hname : s.names t (j, .dir) = (t j).d := if_pos hdir₀
    have hname' : (s.next i p' k).names t (j, .dir) = (t j).d := if_pos hdir
    exact hc.last h.account (hd.ne j) hname hname' (h.dir j hdir₀)

theorem Good.step (hd : Dirs t) (h : Good t T ext s) (hs : Step L t s i s') :
    s'.stop ≠ some assertion ∧ (s'.stop = none → Good t T ext s') := by
  have hfine := step_fine (L := L) (h.own i)
  cases hs with
  | @ok p k h0 hk => exact ⟨by simp [h0], fun _ => h.next hd (sat_ok hfine hk)⟩
  | @fault k h0 hk => exact ⟨by simp [h0], fun _ => h.next hd (sat_of_fault hfine hk)⟩
  | @panic m k h0 hk =>
    refine ⟨fun hm => ?_, by simp⟩
    obtain rfl : m = assertion := by simpa using hm
    rcases sat_of_panic hfine hk rfl with hl | ⟨hp, hc⟩
    · exact hl (h.last i)
    · have hown := h.own i
      rw [hp] at hown
      exact hc (h.dir i hown)

/-- What holds while no count is read that another processor is about to act on. -/
structure Exclusive (t : ι → Task) (T : ℕ → Prop) (ext : ℕ → ℕ) (s : State ι) : Prop where
  tight : Tight T ext (s.names t) s.kern.freelist
  exact : ∀ i, (s.pc i).Exact s.kern.refCount
  apart : ∀ i j f, i ≠ j → (s.pc i).between = some f → (s.pc j).between ≠ some f

omit [Fintype ι] in
theorem Pc.Exact.congr {cnt' : ℕ → ℕ} (h : p.Exact cnt)
    (hc : ∀ f, p.between = some f → cnt' f = cnt f) : p.Exact cnt' := by
  cases p with
  | freePage a oldsz fv f n => exact (hc f rfl).trans h
  | freeTab k f n => exact (hc f rfl).trans h
  | copy va e => exact lt_of_lt_of_eq h (hc _ rfl).symm
  | drop f => exact lt_of_lt_of_eq h (hc f rfl).symm
  | _ => trivial

omit [DecidableEq ι] in
/-- A count that the process goes on with is its own, or one that nobody else is about to act on. -/
theorem Next.apart (he : Exclusive t T ext s) (hal : Alone t s i) (h : Next (t i) (s.pc i) s.kern p' k)
    (hb : p'.between = some f) (hj : j ≠ i) : (s.pc j).between ≠ some f := by
  cases h with
  | clear h =>
    rw [h] at hb
    simp at hb
  | read h _ => exact hal f (h.symm.trans hb) j hj
  | keep g hp hp' =>
    subst hp'
    obtain rfl : g = f := by simpa [Pc.between] using hb
    exact he.apart i j g hj.symm hp

theorem Exclusive.next (hd : Dirs t) (h : Good t T ext s) (he : Exclusive t T ext s) (hal : Alone t s i)
    (hp : Post (t i) (s.pc i) s.kern p' k) : Exclusive t T ext (s.next i p' k) := by
  have hc := change_next hd hp
  have hpc : ∀ j, j ≠ i → (s.next i p' k).pc j = s.pc j := fun j hj => update_of_ne hj _ _
  have hpi : (s.next i p' k).pc i = p' := update_self _ _ _
  refine ⟨?_, fun j => ?_, fun a b f hab hf => ?_⟩
  · refine Tight.change h.account he.tight (fun x hx h0 => ?_) hc
    obtain ⟨a, ha⟩ := (h.own i).named hx.1
    have h1 := h.account.count_pos (a := (i, a)) h0 ha
    have h2 := hx.2 (he.exact i)
    omega
  · by_cases hj : j = i
    · subst hj
      rw [hpi]
      cases hp.effect.next with
      | clear hb => exact Pc.exact_of_between hb
      | read _ hx => exact hx
      | keep f hb hp' hx hsame =>
        subst hp'
        obtain ⟨a, ha⟩ := (h.own j).named hb
        have hfree : f ∉ s.kern.freelist := h.account.not_free (a := (j, a)) ha
        exact lt_of_lt_of_eq (hx (he.exact j)) (hsame hfree).symm
    · rw [hpc j hj]
      refine (he.exact j).congr fun f hb => ?_
      obtain ⟨a, ha⟩ := (h.own j).named hb
      have ha' : (s.next i p' k).names t (j, a) = f := (names_next_ne hd hp.rows hj a).trans ha
      have hdrop : ¬ Drops (s.pc i) s.kern f := fun hdr => he.apart j i f hj hb hdr.1
      exact hc.count_eq (b := (j, a)) h.account hdrop ha ha'
  · by_cases ha : a = i
    · subst ha
      rw [hpi] at hf
      rw [hpc b hab.symm]
      exact hp.effect.next.apart he hal hf hab.symm
    · rw [hpc a ha] at hf
      by_cases hb : b = i
      · subst hb
        rw [hpi]
        exact fun hbf => hp.effect.next.apart he hal hbf ha hf
      · rw [hpc b hb]
        exact he.apart a b f hab hf

/-! ### From the start -/

theorem Task.start_between (t : Task) : t.start.between = none := by
  unfold Task.start
  split
  · rfl
  · split_ifs <;> rfl
  · rfl
  · split_ifs <;> rfl

omit [DecidableEq ι] in
theorem Init.dirs (h : Init t ext s₀) : Dirs t := ⟨h.inj, fun i => (h.dir i).1⟩

/-- The frames that the processes name or can get. -/
def Tracked (t : ι → Task) (s : State ι) (f : ℕ) : Prop := f ≠ 0 ∧ (f ∈ s.kern.freelist ∨ ∃ a, s.names t a = f)

omit [DecidableEq ι] in
theorem Init.good (h : Init t ext s₀) : Good t (Tracked t s₀) ext s₀ where
  account :=
    { null := fun h0 => h0.1 rfl
      named := fun a => or_iff_not_imp_left.2 fun h0 => ⟨h0, .inr ⟨a, rfl⟩⟩
      count := by
        intro f hf
        rcases hf.2 with hf | ⟨a, ha⟩
        · obtain ⟨-, hc, hn, he⟩ := h.free f hf
          rw [hc, he, held_eq_zero.2 hn]
        · exact h.count a f hf.1 ha
      nodup := h.nodup
      free := fun f hf => ⟨⟨(h.free f hf).1, .inl hf⟩, (h.free f hf).2.1⟩ }
  own i := by
    rw [h.pc i, Task.start]
    split
    · trivial
    · rename_i oldsz newsz hcall
      split_ifs
      · trivial
      · exact ⟨Nat.dvd_mul_left _ _, h.size i _ _ hcall, fun hfv => absurd hfv (by simp)⟩
    · exact ⟨Nat.dvd_zero _, Nat.le_refl _, fun _ => ⟨rfl, (h.dir i).2.1, fun v hv => absurd hv (Nat.not_lt_zero _)⟩⟩
    · rename_i cr2 hcall
      obtain ⟨hlt, hcow⟩ := h.cow i cr2 hcall
      split_ifs
      · trivial
      · have hpage : PGROUNDDOWN cr2 / PGSIZE = cr2 / PGSIZE := Nat.mul_div_cancel _ (by decide)
        refine ⟨(Nat.div_mul_le_self _ _).trans_lt hlt, ?_⟩
        rw [hpage]
        exact hcow
  last i := by
    rw [h.pc i]
    exact (Pc.exact_of_between (t i).start_between).last
  dir i _ := (h.dir i).2.2

omit [DecidableEq ι] in
theorem Init.exclusive (h : Init t ext s₀) : Exclusive t (Tracked t s₀) ext s₀ where
  tight f hf _ h0 := hf.2.resolve_right fun ⟨a, ha⟩ => held_eq_zero.1 h0 a ha
  exact i := by
    rw [h.pc i]
    exact Pc.exact_of_between (t i).start_between
  apart i j f _ hf := by
    rw [h.pc i, (t i).start_between] at hf
    simp at hf

omit [Fintype ι] in
theorem Step.running (h : Step L t s i s') : s.stop = none := by
  cases h with
  | ok hs _ => exact hs
  | fault hs _ => exact hs
  | panic hs _ => exact hs

theorem run_good (h : Init t ext s₀) (hr : Run (system L t s₀) as s) :
    s.stop ≠ some assertion ∧ (s.stop = none → Good t (Tracked t s₀) ext s) := by
  refine hr.invariant (I := fun _ s => s.stop ≠ some assertion ∧ (s.stop = none → Good t (Tracked t s₀) ext s)) ?_ ?_
  · rintro s rfl
    exact ⟨by simp [h.stop], fun _ => h.good⟩
  · intro as s i s' _ hi hs
    exact (hi.2 (Step.running hs)).step h.dirs hs

theorem run_exclusive (h : Init t ext s₀) (hr : Run ((system L t s₀).restrict (Alone t)) as s) :
    s.stop = none → Exclusive t (Tracked t s₀) ext s := by
  refine hr.invariant (I := fun _ s => s.stop = none → Exclusive t (Tracked t s₀) ext s) ?_ ?_
  · rintro s rfl _
    exact h.exclusive
  · intro as s i s' hr hi ⟨hal, hs⟩ hstop
    have hgood := (run_good h hr.of_restrict).2 (Step.running hs)
    have hfine := step_fine (L := L) (hgood.own i)
    cases hs with
    | ok h0 hk => exact (hi h0).next h.dirs hgood hal (sat_ok hfine hk)
    | fault h0 hk => exact (hi h0).next h.dirs hgood hal (sat_of_fault hfine hk)
    | panic h0 hk => simp at hstop

/-- No interleaving runs into the assertion of `kfree`. Where no processor reads a count that another one has read
and not yet acted on, a frame that no process names any more when all calls have returned is free. -/
theorem shared_frames_released (h : Init t ext s₀) :
    (∀ as s, Run (system L t s₀) as s → s.stop ≠ some "kfree2 ref_count!=1") ∧
    ∀ as s, Run ((system L t s₀).restrict (Alone t)) as s → s.Final → ∀ f, f ≠ 0 →
      (f ∈ s₀.kern.freelist ∨ ∃ a, s₀.names t a = f) → ext f = 0 → (∀ a, s.names t a ≠ f) → f ∈ s.kern.freelist := by
  refine ⟨fun as s hr => (run_good h hr).1, fun as s hr hfin f h0 hf he hn => ?_⟩
  exact (run_exclusive h hr hfin.1).tight f ⟨h0, hf⟩ he (held_eq_zero.2 hn)

end System

/-! ### Two processes that share a page -/

/-- Two page directories, each with a page table whose first entry maps frame 604 copy-on-write. -/
def pairKern : Kern where
  freelist := []
  refCount f := if f = 604 then 2 else if 600 ≤ f ∧ f < 604 then 1 else 0
  mem _ _ := 0
  dir d := d = 600 ∨ d = 601
  ptab d k := if k = 0 then if d = 600 then 602 else if d = 601 then 603 else 0 else 0
  pte _ v := if v = 0 then { p := true, u := true, cow := true, ppn := 604 } else {}
  proc _ := {}
  nextpid := 1
  vdsoText := 0
  vdsoTicks := 0
  pipes := []
  cpustacks := []
  fails := []
  misses := 0

/-- Both give up their first page. -/
def pairTask (i : Fin 2) : Task := ⟨600 + i.val, none, .deallocuvm PGSIZE 0⟩

def pair : State (Fin 2) := ⟨pairKern, fun i => (pairTask i).start, none⟩

/-- The place that page 0 is. -/
def page0 : Place := .page ⟨0, by decide⟩
def tab0 : Place := .tab ⟨0, by decide⟩

theorem pair_names (i : Fin 2) : (pairTask i).names pairKern (pairTask i).start =
    update (update (update (fun _ => 0) page0 604) tab0 (602 + i.val)) .dir (600 + i.val) := by
  have hi : i = 0 ∨ i = 1 := by omega
  funext a
  cases a with
  | page v =>
    by_cases hv : v = ⟨0, by decide⟩
    · subst hv
      rcases hi with rfl | rfl <;> rfl
    · have hne : Place.page v ≠ page0 := fun he => hv (Place.page.inj he)
      have hv0 : v.1 ≠ 0 := fun h0 => hv (Fin.ext h0)
      rw [update_of_ne (by simp), update_of_ne (by simp [tab0]), update_of_ne hne]
      simp [Task.names, Task.pageName, Kern.entry, pairKern, hv0]
  | tab k =>
    by_cases hk : k = ⟨0, by decide⟩
    · subst hk
      rcases hi with rfl | rfl <;> rfl
    · have hne : Place.tab k ≠ tab0 := fun he => hk (Place.tab.inj he)
      have hk0 : k.1 ≠ 0 := fun h0 => hk (Fin.ext h0)
      rw [update_of_ne (by simp), update_of_ne hne, update_of_ne (by simp [page0])]
      simp [Task.names, pairKern, hk0]
  | dir => rcases hi with rfl | rfl <;> rfl
  | copied => rcases hi with rfl | rfl <;> rfl

local instance two_neZero : NeZero 2 := ⟨two_ne_zero⟩

/-- The places that name frame 604, the page tables and the page directories. -/
def pairNames : List ((Fin 2 × Place) × ℕ) :=
  [((0, page0), 604), ((1, page0), 604), ((0, tab0), 602), ((1, tab0), 603), ((0, .dir), 600), ((1, .dir), 601)]

theorem pair_named {a : Fin 2 × Place} {f : ℕ} (h0 : f ≠ 0) :
    pair.names pairTask a = f ↔ (a, f) ∈ pairNames := by
  obtain ⟨i, pl⟩ := a
  have hn : pair.names pairTask (i, pl) =
      update (update (update (fun _ => 0) page0 604) tab0 (602 + i.val)) .dir (600 + i.val) pl :=
    congrFun (pair_names i) pl
  have hpt : page0 ≠ tab0 := by simp [page0, tab0]
  have hpd : page0 ≠ .dir := by simp [page0]
  have htd : tab0 ≠ .dir := by simp [tab0]
  have hi : i = 0 ∨ i = 1 := by omega
  rw [hn, update_apply, update_apply, update_apply]
  rcases hi with rfl | rfl <;> split_ifs with h1 h2 h3 <;>
    simp [pairNames, h0.symm, hpt.symm, hpd.symm, htd.symm, eq_comm, *]

theorem held_pair {f : ℕ} (h0 : f ≠ 0) :
    held (pair.names pairTask) f = ((pairNames.filter fun q => q.2 = f).map Prod.fst).length := by
  have hnodup : (pairNames.map Prod.fst).Nodup := by simp [pairNames, page0, tab0]
  apply held_eq_length
  · exact hnodup.sublist (List.filter_sublist.map _)
  · intro a
    simp [pair_named h0]

theorem pair_init : Init pairTask (fun _ => 0) pair where
  pc _ := rfl
  stop := rfl
  inj i j h := by
    have : 600 + i.val = 600 + j.val := h
    omega
  dir i := by
    have hi : i = 0 ∨ i = 1 := by omega
    rcases hi with rfl | rfl <;> decide
  count a f h0 ha := by
    have hmem : f ∈ pairNames.map Prod.snd := List.mem_map.2 ⟨_, (pair_named h0).1 ha, rfl⟩
    rw [held_pair h0]
    simp only [pairNames, List.map_cons, List.map_nil, List.mem_cons, List.not_mem_nil, or_false] at hmem
    rcases hmem with rfl | rfl | rfl | rfl | rfl | rfl <;> rfl
  nodup := List.nodup_nil
  free f hf := absurd hf List.not_mem_nil
  size i oldsz newsz h := by
    obtain ⟨rfl, rfl⟩ : PGSIZE = oldsz ∧ 0 = newsz := by simpa [pairTask] using h
    decide
  cow i cr2 h := by simp [pairTask] at h

/-- The linker's symbols, for frames from 512 on. -/
def pairLinker : Linker := ⟨300, 512, [], [], Linker.data_300, Linker.data_512, Linker.kend_512⟩

theorem pair_next {as : List (Fin 2)} {s : State (Fin 2)} {p' : Pc} {k : Kern} {i : Fin 2}
    (h : Run (system pairLinker pairTask pair) as s) (hs : s.stop = none)
    (hk : (pairTask i).step pairLinker (s.pc i) s.kern = .ok p' k) :
    Run (system pairLinker pairTask pair) (as ++ [i]) (s.next i p' k) := h.snoc (Step.ok hs hk)

/-- Frame 604 is not named where the entries of page 0 are cleared. -/
theorem names_ne_of_cleared {s : State (Fin 2)} (hp : ∀ i, s.pc i = .done) (htab : s.kern.ptab = pairKern.ptab)
    (hdir : s.kern.dir = pairKern.dir)
    (hpte : s.kern.pte = update (update pairKern.pte 600 (update (pairKern.pte 600) 0 {})) 601
      (update (pairKern.pte 601) 0 {})) (a : Fin 2 × Place) : s.names pairTask a ≠ 604 := by
  obtain ⟨i, pl⟩ := a
  have hi : i = 0 ∨ i = 1 := by omega
  cases pl with
  | page v =>
    have h0 : s.kern.entry (pairTask i).d v = {} := by
      unfold Kern.entry
      rw [hpte]
      by_cases hv : v.1 = 0
      · rcases hi with rfl | rfl <;> simp [pairTask, hv]
      · rcases hi with rfl | rfl <;> simp [pairTask, pairKern, hv]
    change (pairTask i).pageName v (s.kern.entry (pairTask i).d v) ≠ 604
    rw [h0, Task.pageName_empty]
    decide
  | tab k =>
    change s.kern.ptab (pairTask i).d k ≠ 604
    rw [htab]
    change (if k.1 = 0 then if (pairTask i).d = 600 then 602 else if (pairTask i).d = 601 then 603 else 0 else 0) ≠ 604
    split_ifs <;> decide
  | dir =>
    change (if s.kern.dir (pairTask i).d = true then (pairTask i).d else 0) ≠ 604
    rw [hdir]
    rcases hi with rfl | rfl <;> decide
  | copied =>
    change (s.pc i).copied ≠ 604
    rw [hp]
    decide

/-- After the first process has given up the page. -/
def oneKern : Kern := Kern.setPte { pairKern with refCount := update pairKern.refCount 604 1 } 600 0 {}

theorem pair_done {s : State (Fin 2)} (h0 : s.pc 0 = .done) (h1 : s.pc 1 = .done) (i : Fin 2) : s.pc i = .done := by
  have hi : i = 0 ∨ i = 1 := by omega
  rcases hi with rfl | rfl
  · exact h0
  · exact h1

/-- A step while the other process has read no count. -/
theorem pair_next_alone {as : List (Fin 2)} {s : State (Fin 2)} {p' : Pc} {k : Kern} (i : Fin 2)
    (h : Run ((system pairLinker pairTask pair).restrict (Alone pairTask)) as s) (hs : s.stop = none)
    (hb : (s.pc (1 - i)).between = none) (hk : (pairTask i).step pairLinker (s.pc i) s.kern = .ok p' k) :
    Run ((system pairLinker pairTask pair).restrict (Alone pairTask)) (as ++ [i]) (s.next i p' k) := by
  refine h.snoc ⟨fun f _ j hj => ?_, Step.ok hs hk⟩
  obtain rfl : j = 1 - i := by omega
  simp [hb]

/-- The first process returns before the second one begins. -/
theorem shared_frames_released_pair : ∃ as s, Run ((system pairLinker pairTask pair).restrict (Alone pairTask)) as s ∧
    s.Final ∧ 604 ∈ s.kern.freelist := by
  have h2 := pair_next_alone 0 (pair_next_alone 0 (.start rfl) rfl rfl rfl) rfl rfl rfl
  have h4 := pair_next_alone 1 (pair_next_alone 0 h2 rfl rfl rfl) rfl rfl rfl
  have h6 := pair_next_alone 1 (pair_next_alone 1 h4 rfl rfl rfl) rfl rfl rfl
  refine ⟨_, _, h6, ⟨rfl, pair_done rfl rfl⟩, ?_⟩
  exact (shared_frames_released pair_init).2 _ _ h6 ⟨rfl, pair_done rfl rfl⟩ 604 (by decide) (.inr ⟨(0, page0), rfl⟩) rfl
    (names_ne_of_cleared (pair_done rfl rfl) rfl rfl rfl)

/-- After both processes have read the count 2. -/
def bothRead : State (Fin 2) :=
  (pair.next 0 (.freePage 0 PGSIZE false 604 2) pairKern).next 1 (.freePage 0 PGSIZE false 604 2) pairKern

/-- The page tables after both have decremented it. -/
def bothKern : Kern := Kern.setPte { oneKern with refCount := update oneKern.refCount 604 0 } 601 0 {}

/-- After both have returned. -/
def bothDone : State (Fin 2) :=
  (((bothRead.next 0 (.dealloc PGSIZE PGSIZE false) oneKern).next 1 (.dealloc PGSIZE PGSIZE false) bothKern).next 0
    .done bothKern).next 1 .done bothKern

theorem bothDone_run : Run (system pairLinker pairTask pair) [0, 1, 0, 1, 0, 1] bothDone := by
  have hread : Run (system pairLinker pairTask pair) [0, 1] bothRead :=
    pair_next (pair_next (.start rfl) rfl rfl) rfl rfl
  exact pair_next (pair_next (pair_next (pair_next hread rfl rfl) rfl rfl) rfl rfl) rfl rfl

/-- Both processes read the count 2 and decrement it: the frame is lost. -/
theorem both_decrement : ∃ as s, Run (system pairLinker pairTask pair) as s ∧ s.Final ∧ Init pairTask (fun _ => 0) pair ∧
    (∃ a, pair.names pairTask a = 604) ∧ (∀ a, s.names pairTask a ≠ 604) ∧ 604 ∉ s.kern.freelist := by
  have hpc : ∀ i, bothDone.pc i = .done := pair_done rfl rfl
  exact ⟨_, _, bothDone_run, ⟨rfl, hpc⟩, pair_init, ⟨(0, page0), rfl⟩, names_ne_of_cleared hpc rfl rfl rfl,
    List.not_mem_nil⟩

end Xv6.Sharing

import Xv6.Proofs.VmTrace
import Mathlib.Order.Interval.Finset.Nat

/-! Making and tearing down whole page tables: `setupkvm`, `freevm`, and the functions that change
the flags of one entry. -/

namespace Xv6

open Prog Count Relation Function List

section

variable {L : Linker} {P : Perm} {s s' s'' : Kern} {g g' g'' : Ghost} {d v k m r f va v₀ n : ℕ} {e : Pte}
  {F : Kern → Prop} {N : String → Prop} {perm : Flags}

/-! `freevm`. -/

/-- What the kernel holds, but for the free and the vdso pages, has one reference. -/
theorem Inv.own_cls {o : Owner} (hI : Inv L s g) (h : s.holds o f) (hfree : o ≠ .free) (hvdso : o ≠ .vdso) :
    g.cls f = .own o ∧ L.ok f ∧ s.refCount f = 1 := by
  have hc := (hI.holds o f).1 h
  have hok : L.ok f := hI.ok_of_ne_raw (by rw [hc]; simp)
  refine ⟨hc, hok, ?_⟩
  rw [hI.refCount_of_not_user (by simp [hc, Cls.user, hvdso]) hok, hc]
  cases o with
  | free => exact absurd rfl hfree
  | _ => rfl

theorem Inv.dir_cls (hI : Inv L s g) (hd : s.dir d = true) : g.cls d = .own .dir ∧ L.ok d ∧ s.refCount d = 1 :=
  hI.own_cls (o := .dir) hd (by simp) (by simp)

/-- Frees of one kernel frame: its class was not `held`. -/
theorem frees_freed {s₁ : Kern} (hc : g.cls r ≠ .held) (hproc : s₁.proc = s.proc)
    (hfail : s₁.fails = s.fails) (hfree : s₁.freelist = r :: s.freelist)
    (hmem : ∀ f, f ≠ r → s₁.mem f = s.mem f) (hcls : ∀ f, f ≠ r → g'.cls f = g.cls f)
    (hr : g'.cls r = .own .free) : Frees s s₁ g g' := by
  refine ⟨hproc, hfail, ?_, fun f hf => ?_, fun f hf => ?_⟩
  · rw [hfree, length_cons]
    omega
  · have hne : f ≠ r := fun h => hc (h ▸ hf)
    rw [hcls f hne]
    exact hf
  · have hne : f ≠ r := by
      rintro rfl
      exact hf hr
    exact ⟨hcls f hne, hmem f hne⟩

theorem tr_freeTab (hI : Inv L s g) (hT : ∀ v, v / NPTENTRIES = k → P.touch d v) :
    Tr (Ev L P) (freeTab L d k) s g
      (fun _ s' g' => Frees s s' g g' ∧ s'.dir = s.dir ∧ s'.ptab = (s.dropTab d k).ptab ∧
        s'.entry = (s.dropTab d k).entry) F N := by
  unfold freeTab
  refine tr_get ?_
  by_cases h0 : s.ptab d k = 0
  · simp only [h0, ne_eq, not_true, if_false]
    have hsame : s.dropTab d k = s := by
      unfold Kern.dropTab
      rw [← h0, update_eq_self, update_eq_self]
    rw [hsame]
    exact tr_pure ⟨.refl, rfl, rfl, rfl⟩
  · simp only [ne_eq, h0, not_false_eq_true, if_true]
    obtain ⟨hc, hok, h1⟩ := hI.own_cls (o := .tab d k) ⟨rfl, h0⟩ (by simp) (by simp)
    unfold Tr
    rw [sat_eval (release_last hok h1)]
    have hent : ((s.freed (s.ptab d k)).dropTab d k).entry = (s.dropTab d k).entry := rfl
    refine ⟨(g.loseTab s d k).set (s.ptab d k) (.own .free), .single ?_, ?_, rfl, rfl, hent⟩
    · refine .untab hT rfl h0 ⟨rfl, rfl, rfl, rfl, rfl, rfl, rfl⟩ rfl hent rfl fun f hf => ?_
      exact update_of_ne hf _ _
    · refine frees_freed (by rw [hc]; simp) rfl rfl rfl
        (fun f hf => update_of_ne hf _ _) (fun f hf => Ghost.set_ne _ _ hf) (Ghost.set_self _ _ _)

theorem ptab_dropTab {d' k' : ℕ} :
    (s.dropTab d k).ptab d' k' = if d' = d ∧ k' = k then 0 else s.ptab d' k' := by
  unfold Kern.dropTab
  rcases eq_or_ne d' d with rfl | hd
  · rcases eq_or_ne k' k with rfl | hk
    · simp
    · simp [hk]
  · simp [hd]

/-- The directory page itself, once no page table is left. -/
theorem Ev.undir (hI : Inv L s g) (hd : s.dir d = true) (h0 : ∀ k, s.ptab d k = 0) (hT : ∀ v, P.touch d v) :
    Ev L P (s, g) ({ s.freed d with dir := update s.dir d false }, g.set d (.own .free)) := by
  obtain ⟨hc, hok, h1⟩ := hI.dir_cls hd
  have hown : ∀ o, s.holds o d → o = .dir := by
    intro o hh
    rw [hI.holds, hc] at hh
    exact (Cls.own.inj hh).symm
  refine .pass_of hI hok (.inr (.inr ⟨hc, hT⟩)) (by simp) rfl rfl (fun o f h1 h2 => ?_) (fun o f h => ?_) ?_
    ⟨nodup_cons.2 ⟨fun h => by simpa using hown .free h, hI.nodup.1⟩, hI.nodup.2⟩
    (fun f hf => update_of_ne hf _ _) (fun d' h' => ?_)
  · cases o with
    | free => exact absurd rfl h2
    | dir => exact absurd hc h1
    | _ => rfl
  · rw [hc] at h
    by_cases hf : f = d
    · rcases h with h | h <;> cases h <;> simp [Kern.holds, Kern.freed, Kern.push, hf]
    · rcases h with h | h <;> cases h <;> simp [Kern.holds, Kern.freed, Kern.push, hf]
  · intro d' k' h'
    have hne : d' ≠ d := by
      rintro rfl
      exact h' (h0 k')
    refine ⟨?_, (hI.tab d' k' h').2⟩
    exact (update_of_ne hne _ _).trans (hI.tab d' k' h').1
  · rcases eq_or_ne d' d with rfl | hne
    · exact .inr hT
    · exact .inl ((update_of_ne hne _ _).trans h')

theorem PGROUNDUP_zero : PGROUNDUP 0 = 0 := by decide

theorem tr_freevm (guard : Option ℕ) (hI : Inv L s g) (hd : s.dir d = true) (hT : ∀ v, P.touch d v)
    (hnull : guard = some 0 → (s.entry d 0).p = true)
    (hF : ∀ a s', guard = some a → a < KERNBASE → s.ptab d (PDX a) = 0 → F s')
    (hN : ∀ v, emptied s d 0 KERNBASE guard v → s.ptab d (v / NPTENTRIES) ≠ 0 → (s.entry d v).ppn = 0 →
      N "kfree") :
    Tr (Ev L P) (freevm L d guard) s g
      (fun _ s' g' => Frees s s' g g' ∧ s'.dir = update s.dir d false ∧
        ∀ d' v, s'.entry d' v = if d' = d then {} else s.entry d' v) F N := by
  have hd0 : d ≠ 0 := L.ok_ne_zero (hI.dir_cls hd).2.1
  unfold freevm
  refine tr_check (fun _ => ?_) (fun h => absurd hd0 h)
  refine tr_bind (tr_deallocuvm hI le_rfl (fun v _ _ => hT v) (fun h _ => hnull h)
    (fun a s' h1 _ h3 h4 => hF a s' h1 h3 h4) (fun v h1 h2 h3 => hN v (by rw [PGROUNDUP_zero] at h1; exact h1) h2 h3)) ?_
  rintro _ s₁ g₁ h₁ ⟨-, hsh, hent⟩
  have hI₁ := Evs.inv h₁ hI
  refine tr_bind (tr_loop (Q := fun _ s' g' => Frees s s' g g' ∧ s'.dir = s.dir ∧
      (∀ d' k', s'.ptab d' k' = if d' = d then 0 else s.ptab d' k') ∧
      ∀ d' v, d' ≠ d → s'.entry d' v = s.entry d' v)
    (fun k s' g' => Frees s s' g g' ∧ s'.dir = s.dir ∧
      (∀ d' k', s'.ptab d' k' = if d' = d ∧ k' < k then 0 else s.ptab d' k') ∧
      ∀ d' v, d' ≠ d → s'.entry d' v = s.entry d' v) ?_ ?_ ?_) ?_
  · refine ⟨hsh.toFrees, hsh.dir, fun d' k' => ?_, fun d' v hne => ?_⟩
    · rw [if_neg (by omega), hsh.ptab]
    · rw [hent, if_neg (fun h => hne h.1)]
  · rintro k s₂ g₂ h₂ hk ⟨hfr, hdir, hptab, hent₂⟩
    refine tr_bind (tr_freeTab (Evs.inv h₂ hI₁) fun v _ => hT v) ?_
    rintro _ s₃ g₃ - ⟨hfr', hdir', hptab', hent'⟩
    refine tr_pure ⟨Nat.lt_succ_self k, hfr.trans hfr', hdir'.trans hdir, fun d' k' => ?_, fun d' v hne => ?_⟩
    · rw [hptab', ptab_dropTab, hptab]
      by_cases hq : d' = d ∧ k' = k
      · rw [if_pos hq, if_pos ⟨hq.1, by omega⟩]
      · rw [if_neg hq]
        refine if_congr (and_congr_right fun hd' => ?_) rfl rfl
        rw [not_and] at hq
        have := hq hd'
        omega
    · rw [hent', entry_dropTab, if_neg (fun h => hne h.1)]
      exact hent₂ d' v hne
  · rintro k s₂ g₂ - hk ⟨hfr, hdir, hptab, hent₂⟩
    refine ⟨hfr, hdir, fun d' k' => ?_, hent₂⟩
    rw [hptab]
    by_cases hq : d' = d
    · rw [if_pos hq]
      split_ifs with hk'
      · rfl
      · -- no directory has an entry number above the last
        by_contra h
        have := (hI.tab d' k' h).2
        omega
    · rw [if_neg hq, if_neg (fun h => hq h.1)]
  · rintro _ s₂ g₂ h₂ ⟨hfr, hdir, hptab, hent₂⟩
    have hI₂ := Evs.inv h₂ hI₁
    have hd₂ : s₂.dir d = true := by rw [hdir]; exact hd
    obtain ⟨hc, hok, h1⟩ := hI₂.dir_cls hd₂
    have h0 : ∀ k, s₂.ptab d k = 0 := fun k => by rw [hptab, if_pos rfl]
    unfold Tr
    rw [sat_eval (kfree_eval hok h1)]
    refine ⟨_, .single (.undir hI₂ hd₂ h0 hT), hfr.trans ?_, ?_, fun d' v => ?_⟩
    · exact frees_freed (by rw [hc]; simp) rfl rfl rfl
        (fun f hf => update_of_ne hf _ _) (fun f hf => Ghost.set_ne _ _ hf) (Ghost.set_self _ _ _)
    · change update s₂.dir d false = _
      rw [hdir]
    · by_cases hq : d' = d
      · rw [if_pos hq, hq]
        exact entry_of_no_tab (h0 _)
      · rw [if_neg hq]
        exact hent₂ d' v hq

/-! `setupkvm`. -/

/-- The number of pages of each part of `kmap`, and where they start. -/
theorem kmap_pages (L : Linker) :
    (KERNBASE + EXTMEM) / PGSIZE = 0x80100 ∧ (KERNBASE + L.data * PGSIZE) / PGSIZE = 0x80000 + L.data ∧
    sub32 (L.data * PGSIZE) EXTMEM / PGSIZE = L.data - 0x100 ∧
    sub32 PHYSTOP (L.data * PGSIZE) / PGSIZE = 0xE000 - L.data := by
  have h1 := L.data_gt
  have h2 := L.data_lt
  have h3 := L.kend_le
  simp only [EXTMEM, PGSIZE, PTSIZE, KERNBASE, PHYSTOP, sub32] at *
  refine ⟨by decide, ?_, ?_, ?_⟩ <;> omega

theorem data_range (L : Linker) : 0x100 < L.data ∧ L.data < 0x400 := ⟨L.data_gt, L.data_lt.trans_le L.kend_le⟩

/-- The pages that each line of `kmap` covers. -/
theorem kmap_covers (L : Linker) (v : ℕ) :
    ((⟨KERNBASE, 0, EXTMEM, { w := true }⟩ : Kmap).covers v ↔ 0x80000 ≤ v ∧ v < 0x80100) ∧
    ((⟨KERNBASE + EXTMEM, EXTMEM, L.data * PGSIZE, {}⟩ : Kmap).covers v ↔ 0x80100 ≤ v ∧ v < 0x80000 + L.data) ∧
    ((⟨KERNBASE + L.data * PGSIZE, L.data * PGSIZE, PHYSTOP, { w := true }⟩ : Kmap).covers v ↔
      0x80000 + L.data ≤ v ∧ v < 0x8E000) ∧
    ((⟨DEVSPACE, DEVSPACE, 0, { w := true }⟩ : Kmap).covers v ↔ 0xFE000 ≤ v ∧ v < 0x100000) := by
  obtain ⟨h1, h2⟩ := data_range L
  obtain ⟨e1, e2, e3, e4⟩ := kmap_pages L
  have e5 : KERNBASE / PGSIZE = 0x80000 := by decide
  have e6 : DEVSPACE / PGSIZE = 0xFE000 := by decide
  have e7 : sub32 EXTMEM 0 / PGSIZE = 0x100 := by decide
  have e8 : sub32 0 DEVSPACE / PGSIZE = 0x2000 := by decide
  simp only [Kmap.covers, e1, e2, e3, e4, e5, e6, e7, e8]
  refine ⟨trivial, ?_, ?_, trivial⟩ <;> omega

/-- Frames below `PHYSTOP` appear at `KERNBASE`, and the devices at the top. -/
theorem kentry_eq (L : Linker) (v : ℕ) : kentry L v =
    if 0x80000 ≤ v ∧ v < 0x80100 then { p := true, w := true, ppn := v - 0x80000 }
    else if 0x80100 ≤ v ∧ v < 0x80000 + L.data then { p := true, ppn := v - 0x80000 }
    else if 0x80000 + L.data ≤ v ∧ v < 0x8E000 then { p := true, w := true, ppn := v - 0x80000 }
    else if 0xFE000 ≤ v ∧ v < 0x100000 then { p := true, w := true, ppn := v }
    else {} := by
  obtain ⟨h1, h2⟩ := data_range L
  obtain ⟨e1, e2, -, -⟩ := kmap_pages L
  obtain ⟨c1, c2, c3, c4⟩ := kmap_covers L v
  have e5 : KERNBASE / PGSIZE = 0x80000 := by decide
  have e6 : DEVSPACE / PGSIZE = 0xFE000 := by decide
  have f2 : EXTMEM / PGSIZE = 0x100 := by decide
  have f3 : L.data * PGSIZE / PGSIZE = L.data := Nat.mul_div_cancel _ (by decide)
  unfold kentry kmap
  by_cases d1 : 0x80000 ≤ v ∧ v < 0x80100
  · rw [find?_cons_of_pos (by simpa only [decide_eq_true_eq] using c1.2 d1), if_pos d1]
    simp only [e5, Nat.zero_div, Nat.zero_add]
  · rw [find?_cons_of_neg (by simpa only [decide_eq_true_eq] using fun h => d1 (c1.1 h)), if_neg d1]
    by_cases d2 : 0x80100 ≤ v ∧ v < 0x80000 + L.data
    · rw [find?_cons_of_pos (by simpa only [decide_eq_true_eq] using c2.2 d2), if_pos d2]
      simp only [e1, f2, show 0x100 + (v - 0x80100) = v - 0x80000 by omega]
    · rw [find?_cons_of_neg (by simpa only [decide_eq_true_eq] using fun h => d2 (c2.1 h)), if_neg d2]
      by_cases d3 : 0x80000 + L.data ≤ v ∧ v < 0x8E000
      · rw [find?_cons_of_pos (by simpa only [decide_eq_true_eq] using c3.2 d3), if_pos d3]
        simp only [e2, f3, show L.data + (v - (0x80000 + L.data)) = v - 0x80000 by omega]
      · rw [find?_cons_of_neg (by simpa only [decide_eq_true_eq] using fun h => d3 (c3.1 h)), if_neg d3]
        by_cases d4 : 0xFE000 ≤ v ∧ v < 0x100000
        · rw [find?_cons_of_pos (by simpa only [decide_eq_true_eq] using c4.2 d4), if_pos d4]
          simp only [e6, show 0xFE000 + (v - 0xFE000) = v by omega]
        · rw [find?_cons_of_neg (by simpa only [decide_eq_true_eq] using fun h => d4 (c4.1 h)), if_neg d4]
          rfl

theorem mappages_pages (hn : 0 < n) (hv : v₀ + n ≤ 2 ^ 20) :
    mappages d (v₀ * PGSIZE) (n * PGSIZE) r perm = mapLoop d perm n (u32 (v₀ * PGSIZE)) r := by
  unfold mappages
  have h1 : PGROUNDDOWN (v₀ * PGSIZE) = v₀ * PGSIZE := by
    simp only [PGROUNDDOWN, PGSIZE]
    omega
  have h2 : u32 (v₀ * PGSIZE) = v₀ * PGSIZE := by
    simp only [u32, PGSIZE]
    omega
  have h3 : sub32 (PGROUNDDOWN (u32 (v₀ * PGSIZE + n * PGSIZE - 1))) (v₀ * PGSIZE) / PGSIZE + 1 = n := by
    simp only [sub32, PGROUNDDOWN, u32, PGSIZE]
    omega
  dsimp only
  rw [h1, h2, h3]

/-- The directory entries that `kmap` needs page tables for. -/
def kernTabs : Finset ℕ := Finset.Ico 512 568 ∪ Finset.Ico 1016 1024

/-- Where the loop of `mappages` got to, in the kernel part of `d`. -/
structure KernPart (d : ℕ) (s s' : Kern) (g g' : Ghost) : Prop where
  grows : Grows d s'.entry (fun _ => False) s s' g g'
  other : ∀ d' v, d' ≠ d ∨ v < NUPG → s'.entry d' v = s.entry d' v
  tab : ∀ k, k ∉ kernTabs → s'.ptab d k = s.ptab d k

theorem KernPart.trans (h : KernPart d s s' g g') (h' : KernPart d s' s'' g' g'') : KernPart d s s'' g g'' where
  grows := (h.grows.trans h'.grows).weaken fun _ hf => hf.elim (fun h => h.elim) (fun h => h.elim)
  other d' v hq := (h'.other d' v hq).trans (h.other d' v hq)
  tab k hk := (h'.tab k hk).trans (h.tab k hk)

theorem tr_mapLoop_kern : ∀ (n v₀ ppn : ℕ) (s : Kern) (g : Ghost), Inv L s g → s.dir d = true →
    NUPG ≤ v₀ → v₀ + n ≤ 2 ^ 20 → (∀ v, NUPG ≤ v → P.touch d v) → (∀ i, i < n → (v₀ + i) / NPTENTRIES ∈ kernTabs) →
    (∀ i, i < n → ({ perm with p := true, ppn := ppn + i } : Pte) = kentry L (v₀ + i)) →
    (∀ i, i < n → (s.entry d (v₀ + i)).p = false) →
    Tr (Ev L P) (mapLoop d perm n (u32 (v₀ * PGSIZE)) ppn) s g
      (fun ok s' g' => KernPart d s s' g g' ∧ match ok with
        | true => (∀ v, s'.entry d v = if v₀ ≤ v ∧ v < v₀ + n then kentry L v else s.entry d v) ∧
            ∀ K, (∀ i, i < n → (v₀ + i) / NPTENTRIES ∈ K) → ∀ m,
              (Rich (m + s.miss d K) s ↔ Rich (m + s'.miss d K) s')
        | false => ∀ K, (∀ i, i < n → (v₀ + i) / NPTENTRIES ∈ K) → ¬ Rich (s.miss d K) s) F N := by
  intro n
  induction n with
  | zero =>
    intro v₀ ppn s g _ _ _ _ _ _ _ _
    unfold mapLoop
    refine tr_pure ⟨⟨Tabs.refl, fun _ _ _ => rfl, fun _ _ => rfl⟩, fun v => ?_, fun _ _ _ => Iff.rfl⟩
    rw [if_neg (by omega)]
  | succ n ih =>
    intro v₀ ppn s g hI hd hlo hhi hT hin hk hp
    have ha : u32 (v₀ * PGSIZE) = v₀ * PGSIZE := by
      simp only [u32, PGSIZE]
      omega
    have h32 : v₀ * PGSIZE < 2 ^ 32 := by
      simp only [PGSIZE]
      omega
    have hdiv : v₀ * PGSIZE / PGSIZE = v₀ := Nat.mul_div_cancel _ (by decide)
    have hpdx : PDX (v₀ * PGSIZE) = v₀ / NPTENTRIES := by rw [PDX_eq h32, hdiv]
    rw [ha]
    unfold mapLoop
    refine tr_bind (tr_walkpgdir hI hd) ?_
    rintro x s₁ g₁ h₁ ⟨ht, hkeep, hx⟩
    have hne : ∀ k, k ∉ kernTabs → s₁.ptab d k = s.ptab d k := by
      intro k hk
      refine hkeep k ?_
      rw [hpdx]
      rintro rfl
      exact hk (hin 0 (Nat.succ_pos n))
    have hkp : KernPart d s s₁ g g₁ := ⟨{ ht with entry := rfl }, fun _ _ _ => by rw [ht.entry], hne⟩
    cases x with
    | none =>
      refine tr_pure ⟨hkp, fun K hK => hx.2.2 K ?_⟩
      rw [hpdx]
      exact hK 0 (by omega)
    | some q =>
      obtain ⟨rfl, htab, hR⟩ := hx
      rw [hdiv]
      have htab' : s₁.ptab d (v₀ / NPTENTRIES) ≠ 0 := by rw [← hpdx]; exact htab
      refine tr_loadPte htab' ?_
      rw [ht.entry]
      refine tr_check (fun _ => ?_) (fun h => absurd (hp 0 (by omega)) h)
      have he : ({ perm with p := true, ppn := ppn } : Pte) = kentry L v₀ := hk 0 (by omega)
      rw [he]
      have hb := becomes_setPte (e := kentry L v₀) htab'
      refine tr_modify (.single (.change (.kern hlo (hT _ hlo)) hb rfl)) ?_
      have hI₂ : Inv L (s₁.setPte d v₀ (kentry L v₀)) g₁ :=
        (Ev.change (P := P) (.kern hlo (hT _ hlo)) hb rfl).inv (Evs.inv h₁ hI)
      have hent₂ : (s₁.setPte d v₀ (kentry L v₀)).entry = upd s.entry d v₀ (kentry L v₀) := by
        rw [hb.entry, ht.entry]
      have hkp₂ : KernPart d s (s₁.setPte d v₀ (kentry L v₀)) g g₁ := by
        refine ⟨{ ht with entry := rfl }, fun d' v hq => ?_, hne⟩
        rw [hent₂, upd_ne]
        rintro ⟨rfl, rfl⟩
        rcases hq with hq | hq
        · exact hq rfl
        · omega
      have hnext : u32 (v₀ * PGSIZE + PGSIZE) = u32 ((v₀ + 1) * PGSIZE) := by rw [Nat.succ_mul]
      rw [hnext]
      refine tr_post (ih (v₀ + 1) (ppn + 1) _ g₁ hI₂ (by change s₁.dir d = true; rw [ht.dir]; exact hd) (by omega)
        (by omega) hT (fun i hi => ?_) (fun i hi => ?_) (fun i hi => ?_)) ?_
      · rw [show v₀ + 1 + i = v₀ + (i + 1) by omega]
        exact hin (i + 1) (by omega)
      · have := hk (i + 1) (by omega)
        rw [show ppn + 1 + i = ppn + (i + 1) by omega, show v₀ + 1 + i = v₀ + (i + 1) by omega]
        exact this
      · rw [hent₂, upd_ne_page (by omega), show v₀ + 1 + i = v₀ + (i + 1) by omega]
        exact hp (i + 1) (by omega)
      · rintro ok s₃ g₃ - ⟨hkp₃, hQ⟩
        refine ⟨hkp₂.trans hkp₃, ?_⟩
        have hmiss : ∀ K, (s₁.setPte d v₀ (kentry L v₀)).miss d K = s₁.miss d K := fun K => rfl
        have hrich : ∀ m, Rich m (s₁.setPte d v₀ (kentry L v₀)) ↔ Rich m s₁ := fun m => Iff.rfl
        cases ok with
        | true =>
          obtain ⟨hent₃, hR₃⟩ := hQ
          refine ⟨fun v => ?_, fun K hK m => ?_⟩
          · rw [hent₃, hent₂]
            by_cases hv : v = v₀
            · subst hv
              rw [if_neg (by omega), upd_same, if_pos (by omega)]
            · rw [upd_ne_page hv]
              refine if_congr ?_ rfl rfl
              omega
          · have h1 := hR K m (by rw [hpdx]; exact hK 0 (by omega))
            have h2 := hR₃ K (fun i hi => by
              rw [show v₀ + 1 + i = v₀ + (i + 1) by omega]
              exact hK (i + 1) (by omega)) m
            rw [hmiss, hrich] at h2
            exact h1.trans h2
        | false =>
          intro K hK hRR
          refine hQ K (fun i hi => by
            rw [show v₀ + 1 + i = v₀ + (i + 1) by omega]
            exact hK (i + 1) (by omega)) ?_
          rw [hmiss, hrich, ← Nat.zero_add (s₁.miss d K), ← hR K 0 (by rw [hpdx]; exact hK 0 (by omega)), Nat.zero_add]
          exact hRR

/-- A line of `kmap`: whole pages of the kernel part, mapped to the entries of the table. -/
structure Kmap.Ok (L : Linker) (k : Kmap) (v₀ n : ℕ) : Prop where
  virt : k.virt = v₀ * PGSIZE
  size : sub32 k.physEnd k.physStart = n * PGSIZE
  pos : 0 < n
  lo : NUPG ≤ v₀
  hi : v₀ + n ≤ 2 ^ 20
  entry : ∀ i, i < n → ({ k.perm with p := true, ppn := k.physStart / PGSIZE + i } : Pte) = kentry L (v₀ + i)

theorem Kmap.Ok.covers {k : Kmap} (h : k.Ok L v₀ n) : k.covers v ↔ v₀ ≤ v ∧ v < v₀ + n := by
  unfold Kmap.covers
  rw [h.virt, h.size, Nat.mul_div_cancel _ (by decide), Nat.mul_div_cancel _ (by decide)]

theorem kmap_ok (L : Linker) : ∀ k ∈ kmap L, ∃ v₀ n, k.Ok L v₀ n := by
  obtain ⟨h1, h2⟩ := data_range L
  have hn : NUPG = 0x80000 := by decide
  have hpg : PGSIZE = 4096 := rfl
  unfold kmap
  rw [forall_mem_cons, forall_mem_cons, forall_mem_cons, forall_mem_singleton]
  refine ⟨⟨0x80000, 0x100, by decide, by decide, by decide, by decide, by decide, fun i hi => ?_⟩,
    ⟨0x80100, L.data - 0x100, by change KERNBASE + EXTMEM = _; decide, ?_, by omega, by rw [hn]; omega, by omega, fun i hi => ?_⟩,
    ⟨0x80000 + L.data, 0xE000 - L.data, ?_, ?_, by omega, by rw [hn]; omega, by omega, fun i hi => ?_⟩,
    ⟨0xFE000, 0x2000, by decide, by decide, by decide, by decide, by decide, fun i hi => ?_⟩⟩
  · rw [kentry_eq, if_pos (by omega), Nat.zero_div, show 0x80000 + i - 0x80000 = 0 + i by omega]
  · simp only [sub32, EXTMEM, PGSIZE]
    omega
  · rw [kentry_eq, if_neg (by omega), if_pos (by omega), show EXTMEM / PGSIZE = 0x100 by decide,
      show 0x80100 + i - 0x80000 = 0x100 + i by omega]
  · simp only [KERNBASE, PGSIZE]
    omega
  · simp only [sub32, PHYSTOP, PGSIZE]
    omega
  · rw [kentry_eq, if_neg (by omega), if_neg (by omega), if_pos (by omega), Nat.mul_div_cancel _ (by decide),
      show 0x80000 + L.data + i - 0x80000 = L.data + i by omega]
  · rw [kentry_eq, if_neg (by omega), if_neg (by omega), if_neg (by omega), if_pos (by omega),
      show DEVSPACE / PGSIZE = 0xFE000 by decide]

/-- No page is mapped by two lines. -/
theorem kmap_disjoint (L : Linker) : (kmap L).Pairwise fun k k' => ∀ v, k.covers v → ¬ k'.covers v := by
  have h1 := data_range L
  have c := kmap_covers L
  unfold kmap
  simp only [pairwise_cons, mem_cons, not_mem_nil, or_false, forall_eq_or_imp, forall_eq, (c _).1, (c _).2.1, (c _).2.2.1,
    (c _).2.2.2, List.Pairwise.nil, and_true, false_imp_iff, implies_true]
  refine ⟨⟨fun v => ?_, fun v => ?_, fun v => ?_⟩, ⟨fun v => ?_, fun v => ?_⟩, fun v => ?_⟩ <;> omega

theorem tr_kmapLoop : ∀ (ks : List Kmap) (s : Kern) (g : Ghost), Inv L s g → s.dir d = true →
    (∀ v, NUPG ≤ v → P.touch d v) → (∀ k ∈ ks, ∃ v₀ n, k.Ok L v₀ n) →
    (ks.Pairwise fun k k' => ∀ v, k.covers v → ¬ k'.covers v) →
    (∀ k ∈ ks, ∀ v, k.covers v → v / NPTENTRIES ∈ kernTabs) → (∀ k ∈ ks, ∀ v, k.covers v → (s.entry d v).p = false) →
    Tr (Ev L P) (kmapLoop d ks) s g
      (fun ok s' g' => KernPart d s s' g g' ∧ match ok with
        | true => (∀ v, s'.entry d v = if ∃ k ∈ ks, k.covers v then kentry L v else s.entry d v) ∧
            ∀ K, (∀ k ∈ ks, ∀ v, k.covers v → v / NPTENTRIES ∈ K) → ∀ m,
              (Rich (m + s.miss d K) s ↔ Rich (m + s'.miss d K) s')
        | false => ∀ K, (∀ k ∈ ks, ∀ v, k.covers v → v / NPTENTRIES ∈ K) → ¬ Rich (s.miss d K) s) F N := by
  intro ks
  induction ks with
  | nil =>
    intro s g _ _ _ _ _ _ _
    unfold kmapLoop
    refine tr_pure ⟨⟨Tabs.refl, fun _ _ _ => rfl, fun _ _ => rfl⟩, fun v => ?_, fun _ _ _ => Iff.rfl⟩
    rw [if_neg (by simp)]
  | cons k ks ih =>
    intro s g hI hd hT hok hdis hin hp
    obtain ⟨v₀, n, hk⟩ := hok k (by simp)
    rw [pairwise_cons] at hdis
    unfold kmapLoop
    rw [hk.virt, hk.size, mappages_pages hk.pos hk.hi]
    refine tr_bind (tr_mapLoop_kern n v₀ _ s g hI hd hk.lo hk.hi hT (fun i hi => ?_) hk.entry (fun i hi => ?_)) ?_
    · exact hin k (by simp) _ (hk.covers.2 ⟨by omega, by omega⟩)
    · exact hp k (by simp) _ (hk.covers.2 ⟨by omega, by omega⟩)
    · rintro ok s₁ g₁ h₁ ⟨hkp, hQ⟩
      have hcov : ∀ K : Finset ℕ, (∀ k' ∈ k :: ks, ∀ v, k'.covers v → v / NPTENTRIES ∈ K) →
          ∀ i, i < n → (v₀ + i) / NPTENTRIES ∈ K := fun K hK i hi =>
        hK k (by simp) _ (hk.covers.2 ⟨by omega, by omega⟩)
      cases ok with
      | true =>
        obtain ⟨hent, hR⟩ := hQ
        refine tr_post (ih s₁ g₁ (Evs.inv h₁ hI) (by rw [hkp.grows.dir]; exact hd) hT
          (fun k' h' => hok k' (mem_cons_of_mem _ h')) hdis.2 (fun k' h' => hin k' (mem_cons_of_mem _ h'))
          (fun k' h' v hv => ?_)) ?_
        · rw [hent, if_neg]
          · exact hp k' (mem_cons_of_mem _ h') v hv
          · intro hin
            exact hdis.1 k' h' v (hk.covers.2 hin) hv
        · rintro ok s₂ g₂ - ⟨hkp₂, hQ₂⟩
          refine ⟨hkp.trans hkp₂, ?_⟩
          cases ok with
          | true =>
            obtain ⟨hent₂, hR₂⟩ := hQ₂
            refine ⟨fun v => ?_, fun K hK m => ?_⟩
            · rw [hent₂, hent]
              by_cases hc : ∃ k' ∈ ks, k'.covers v
              · obtain ⟨k', h', hv⟩ := hc
                rw [if_pos ⟨k', h', hv⟩, if_pos ⟨k', mem_cons_of_mem _ h', hv⟩]
              · rw [if_neg hc]
                refine if_congr ?_ rfl rfl
                rw [← hk.covers]
                refine ⟨fun hv => ⟨k, by simp, hv⟩, ?_⟩
                rintro ⟨k', h', hv⟩
                rcases mem_cons.1 h' with rfl | h'
                · exact hv
                · exact absurd ⟨k', h', hv⟩ hc
            · exact (hR K (hcov K hK) m).trans
                (hR₂ K (fun k' h' => hK k' (mem_cons_of_mem _ h')) m)
          | false =>
            intro K hK hRR
            refine hQ₂ K (fun k' h' => hK k' (mem_cons_of_mem _ h')) ?_
            rw [← Nat.zero_add (s₁.miss d K), ← hR K (hcov K hK) 0, Nat.zero_add]
            exact hRR
      | false => exact tr_pure ⟨hkp, fun K hK => hQ K (hcov K hK)⟩

theorem covers_kernTabs {k : Kmap} (hk : k ∈ kmap L) (hv : k.covers v) : v / NPTENTRIES ∈ kernTabs := by
  have h1 := data_range L
  obtain ⟨c1, c2, c3, c4⟩ := kmap_covers L v
  have hn : NPTENTRIES = 1024 := rfl
  unfold kernTabs
  rw [Finset.mem_union, Finset.mem_Ico, Finset.mem_Ico, hn]
  simp only [kmap, mem_cons, not_mem_nil, or_false] at hk
  rcases hk with rfl | rfl | rfl | rfl
  · rw [c1] at hv
    omega
  · rw [c2] at hv
    omega
  · rw [c3] at hv
    omega
  · rw [c4] at hv
    omega

theorem kentry_of_not_covered (h : ¬ ∃ k ∈ kmap L, k.covers v) : kentry L v = {} := by
  unfold kentry
  rw [find?_eq_none.2]
  intro k hk
  simpa using fun hc => h ⟨k, hk, hc⟩

theorem kentry_user (hv : v < NUPG) : kentry L v = {} := by
  have hn : NUPG = 0x80000 := by decide
  rw [kentry_eq, if_neg (by omega), if_neg (by omega), if_neg (by omega), if_neg (by omega)]

/-- The kernel's pages are not for the user, and never copy-on-write. -/
theorem kentry_flags (L : Linker) (v : ℕ) : (kentry L v).u = false ∧ (kentry L v).cow = false := by
  rw [kentry_eq]
  split_ifs <;> exact ⟨rfl, rfl⟩

/-- A page directory that maps the kernel has its page tables. -/
theorem kern_tab (h : ∀ v, NUPG ≤ v → s.entry d v = kentry L v) (hk : k ∈ kernTabs) : s.ptab d k ≠ 0 := by
  have h1 := data_range L
  have hk' : (512 ≤ k ∧ k < 568) ∨ (1016 ≤ k ∧ k < 1024) := by simpa [kernTabs] using hk
  have hn : NUPG = 0x80000 := by decide
  have hpt : NPTENTRIES = 1024 := rfl
  have hdiv : k * NPTENTRIES / NPTENTRIES = k := Nat.mul_div_cancel _ (by decide)
  have hpres : (s.entry d (k * NPTENTRIES)).p = true := by
    rw [hpt, h _ (by omega), kentry_eq]
    split_ifs <;> first | rfl | (exfalso; omega)
  intro h0
  rw [Kern.entry, if_pos (by rw [hdiv]; exact h0)] at hpres
  simp at hpres

/-- `d` is a new page table with the kernel part only. -/
structure NewDir (L : Linker) (d : ℕ) (s s' : Kern) : Prop where
  fresh : s.dir d = false
  dir : s'.dir = update s.dir d true
  entry : ∀ d' v, s'.entry d' v = if d' = d then kentry L v else s.entry d' v
  tab : ∀ k, k ∉ kernTabs → s'.ptab d k = 0
  proc : s'.proc = s.proc

/-- All that page tables and processes show is as it was. -/
structure Unseen (s s' : Kern) : Prop where
  dir : s'.dir = s.dir
  entry : s'.entry = s.entry
  proc : s'.proc = s.proc

theorem Ev.newDir (hI : Inv L s g) (hr : g.cls r = .held) :
    Ev L P (s, g) (s.newDir r, g.set r (.own .dir)) := by
  have hnd : s.dir r = false := by
    by_contra h
    have hc := (hI.dir_cls (by simpa using h)).1
    rw [hr] at hc
    simp at hc
  have h0 : ∀ k, s.ptab r k = 0 := by
    intro k
    by_contra h
    rw [(hI.tab r k h).1] at hnd
    simp at hnd
  have hptab : (s.newDir r).ptab = s.ptab := by
    unfold Kern.newDir
    rw [show (fun _ => 0) = s.ptab r from (funext h0).symm, update_eq_self]
  refine .pass_of hI (hI.held_ok hr) (.inr (.inl hr)) (by simp) (entry_newDir h0) ?_
    (fun o f _ h2 => ?_) (fun o f h => ?_) ?_ hI.nodup (fun _ _ => rfl) (fun d' h' => .inl ?_)
  · change s.refCount = update s.refCount r 1
    rw [← (hI.held_count hr).1, update_eq_self]
  · cases o with
    | dir => exact absurd rfl h2
    | tab d k => simp only [Kern.holds, hptab]
    | _ => rfl
  · obtain rfl : o = .dir := by
      rw [hr] at h
      rcases h with h | h <;> cases h
      rfl
    by_cases hf : f = r
    · simp [Kern.holds, Kern.newDir, hf]
    · simp [Kern.holds, Kern.newDir, hf]
  · intro d' k' h'
    rw [hptab] at h'
    obtain ⟨h1, h2⟩ := hI.tab d' k' h'
    refine ⟨?_, h2⟩
    have hne : d' ≠ r := by
      rintro rfl
      rw [h1] at hnd
      simp at hnd
    exact (update_of_ne hne _ _).trans h1
  · change update s.dir r true d' = true
    rcases eq_or_ne d' r with rfl | hne
    · exact update_self _ _ _
    · exact (update_of_ne hne _ _).trans h'

theorem tr_setupkvm (hI : Inv L s g) (hT : ∀ d, s.dir d = false → ∀ v, P.touch d v) :
    Tr (Ev L P) (setupkvm L) s g
      (fun x s' _ => match x with
        | some d => NewDir L d s s' ∧
            ∀ K, kernTabs ⊆ K → ∀ m, (Rich (m + 1 + K.card) s ↔ Rich (m + s'.miss d K) s')
        | none => Unseen s s' ∧ ∀ K, kernTabs ⊆ K → ¬ Rich (1 + K.card) s) F N := by
  unfold setupkvm
  refine tr_bind (tr_kalloc (d := 0) hI) ?_
  rintro x s₁ g₁ h₁ ⟨ht, hpt, hx⟩
  have hI₁ := Evs.inv h₁ hI
  cases x with
  | none =>
    exact tr_pure ⟨⟨ht.dir, ht.entry, ht.proc⟩, fun K _ hR => hx (hR.mono (by omega))⟩
  | some d =>
    obtain ⟨hheld, hfree, hR⟩ := hx
    refine tr_modify (.single (.fill hheld fun _ => 0)) ?_
    have hI₂ := (Ev.fill (L := L) (P := P) (s := s₁) hheld (fun _ => 0)).inv hI₁
    refine tr_modify (.single (.newDir hI₂ hheld)) ?_
    have hI₃ := (Ev.newDir (P := P) hI₂ hheld).inv hI₂
    set s₃ : Kern := ({ s₁ with mem := update s₁.mem d fun _ => 0 } : Kern).newDir d with hs₃
    have hnd : s.dir d = false := by
      by_contra h
      have hc := (hI.dir_cls (by simpa using h)).1
      rw [hfree] at hc
      simp at hc
    have h0 : ∀ k, s.ptab d k = 0 := by
      intro k
      by_contra h
      rw [(hI.tab d k h).1] at hnd
      simp at hnd
    have hptab₃ : s₃.ptab = s.ptab := by
      change update s₁.ptab d (fun _ => 0) = s.ptab
      rw [hpt, show (fun _ => 0) = s.ptab d from (funext h0).symm, update_eq_self]
    have hent₃ : s₃.entry = s.entry := by
      rw [← ht.entry]
      exact entry_newDir (s := { s₁ with mem := update s₁.mem d fun _ => 0 })
        fun k => by change s₁.ptab d k = 0; rw [hpt, h0]
    have hdir₃ : s₃.dir = update s.dir d true := by
      change update s₁.dir d true = _
      rw [ht.dir]
    have hempty : ∀ v, s.entry d v = {} := fun v => entry_of_no_tab (h0 _)
    have hmiss₃ : ∀ K, s₃.miss d K = K.card := by
      intro K
      unfold Kern.miss
      rw [hptab₃, Finset.filter_true_of_mem fun k _ => h0 k]
    refine tr_check (fun _ => ?_) (fun h => absurd (by decide) h)
    have hd₃ : s₃.dir d = true := by rw [hdir₃, update_self]
    refine tr_bind (tr_kmapLoop (kmap L) s₃ _ hI₃ hd₃ (fun v _ => hT d hnd v) (kmap_ok L) (kmap_disjoint L)
      (fun k hk v => covers_kernTabs hk) (fun k _ v _ => by rw [hent₃, hempty])) ?_
    rintro ok s₄ g₄ h₄ ⟨hkp, hQ⟩
    have hg := hkp.grows
    cases ok with
    | true =>
      obtain ⟨hent, hR₄⟩ := hQ
      refine tr_pure ⟨⟨hnd, hg.dir.trans hdir₃, fun d' v => ?_, fun k hk => ?_, hg.proc.trans ht.proc⟩, fun K hK m => ?_⟩
      · by_cases hd : d' = d
        · rw [if_pos hd, hd, hent, hent₃, hempty]
          split_ifs with hc
          · rfl
          · exact (kentry_of_not_covered hc).symm
        · rw [if_neg hd, hkp.other d' v (.inl hd), hent₃]
      · rw [hkp.tab k hk, hptab₃, h0]
      · have := hR₄ K (fun k hk v hv => hK (covers_kernTabs hk hv)) m
        rw [hmiss₃] at this
        rw [← this, show m + 1 + K.card = m + K.card + 1 by omega]
        exact hR _
    | false =>
      have hnp : ∀ v, v < NUPG → s₄.entry d v = {} := fun v hv => by
        rw [hkp.other d v (.inr hv), hent₃, hempty]
      refine tr_bind (tr_freevm none (Evs.inv h₄ hI₃) (by rw [hg.dir]; exact hd₃) (hT d hnd)
        (fun h => by simp at h) (fun a s' h => by simp at h) (fun v hv _ => ?_)) ?_
      · obtain ⟨-, h2, h3⟩ := hv
        have hv : v < NUPG := by
          simp only [KERNBASE, PGSIZE, NUPG] at *
          omega
        rw [hnp v hv] at h3
        rcases h3 with h3 | h3 <;> simp at h3
      · rintro _ s₅ g₅ - ⟨hfr, hdir, hent⟩
        refine tr_pure ⟨⟨?_, ?_, hfr.proc.trans (hg.proc.trans ht.proc)⟩, fun K hK hRR => ?_⟩
        · rw [hdir, hg.dir, hdir₃, update_idem, ← hnd, update_eq_self]
        · funext d' v
          rw [hent]
          split_ifs with hd
          · rw [hd, hempty]
          · rw [hkp.other d' v (.inl hd), hent₃]
        · refine hQ K (fun k hk v hv => hK (covers_kernTabs hk hv)) ?_
          rw [hmiss₃]
          rw [Nat.add_comm] at hRR
          exact (hR _).1 hRR

end

end Xv6

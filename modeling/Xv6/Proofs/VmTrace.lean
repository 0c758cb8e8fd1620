import Xv6.Proofs.Isolation

/-! The functions of `kalloc.c` and `vm.c` as chains of small steps: for each function, what it does
to the entries of the page table it works on, when it can panic or fault, and how many free
frames it needs. -/

namespace Xv6

open Prog Count Relation Function Nat

/-- The next `m` calls of `kalloc` succeed. -/
def Rich (m : ℕ) (s : Kern) : Prop := m ≤ s.freelist.length ∧ ∀ b ∈ s.fails.take m, b = false

/-- The page tables of `d` among `K` that are yet to be allocated. -/
def Kern.miss (s : Kern) (d : ℕ) (K : Finset ℕ) : ℕ := (K.filter fun k => s.ptab d k = 0).card

/-- The entries become `E`, and otherwise only free frames are taken, for page tables of `d` or
to be held; frames of `X` may pass to another use. -/
structure Grows (d : ℕ) (E : ℕ → ℕ → Pte) (X : ℕ → Prop) (s s' : Kern) (g g' : Ghost) : Prop where
  entry : s'.entry = E
  proc : s'.proc = s.proc
  dir : s'.dir = s.dir
  tab : ∀ d' k, s.ptab d' k ≠ 0 → s'.ptab d' k ≠ 0
  vdsoText : s'.vdsoText = s.vdsoText
  vdsoTicks : s'.vdsoTicks = s.vdsoTicks
  used : ∀ f, g.cls f ≠ .own .free → g'.cls f ≠ .own .free
  cls : ∀ f, ¬ X f → g.cls f ≠ .own .free → g'.cls f = g.cls f
  mem : ∀ f, g.cls f ≠ .own .free → s'.mem f = s.mem f

/-- The entries stay too. -/
abbrev Tabs (d : ℕ) (s s' : Kern) (g g' : Ghost) : Prop := Grows d s.entry (fun _ => False) s s' g g'

section

variable {L : Linker} {P : Perm} {s s' s'' s₁ : Kern} {g g' g'' g₁ : Ghost} {d v k m r f va a oldsz newsz b : ℕ}
  {e : Pte} {F : Kern → Prop} {N : String → Prop} {E E' : ℕ → ℕ → Pte} {X : ℕ → Prop} {rest : List ℕ}
  {perm : Flags} {α : Type} {guard : Option ℕ}

theorem Tabs.refl : Tabs d s s g g :=
  ⟨rfl, rfl, rfl, fun _ _ h => h, rfl, rfl, fun _ h => h, fun _ _ _ => rfl, fun _ _ => rfl⟩

theorem Grows.trans {X' : ℕ → Prop} (h : Grows d E X s s' g g')
    (h' : Grows d E' X' s' s'' g' g'') : Grows d E' (fun f => X f ∨ X' f) s s'' g g'' where
  entry := h'.entry
  proc := h'.proc.trans h.proc
  dir := h'.dir.trans h.dir
  tab d' k hk := h'.tab d' k (h.tab d' k hk)
  vdsoText := h'.vdsoText.trans h.vdsoText
  vdsoTicks := h'.vdsoTicks.trans h.vdsoTicks
  used f hf := h'.used f (h.used f hf)
  cls f hX hf := (h'.cls f (fun h => hX (.inr h)) (h.used f hf)).trans (h.cls f (fun h => hX (.inl h)) hf)
  mem f hf := (h'.mem f (h.used f hf)).trans (h.mem f hf)

/-- Frames that were free do not count as changed. -/
theorem Grows.weaken {Y : ℕ → Prop} (h : Grows d E X s s' g g')
    (hX : ∀ f, X f → Y f ∨ g.cls f = .own .free) : Grows d E Y s s' g g' :=
  { h with cls := fun f hY hf => h.cls f (fun hx => (hX f hx).elim hY hf) hf }

theorem Grows.comp (h : Grows d E (fun _ => False) s s' g g')
    (h' : Grows d E' (fun _ => False) s' s'' g' g'') : Grows d E' (fun _ => False) s s'' g g'' :=
  (h.trans h').weaken fun _ hf => hf.elim (fun h => h.elim) (fun h => h.elim)

theorem rich_zero : Rich 0 s := ⟨zero_le _, by simp⟩

theorem Rich.mono {n : ℕ} (h : Rich n s) (hm : m ≤ n) : Rich m s := by
  refine ⟨hm.trans h.1, fun b hb => h.2 b ?_⟩
  exact (List.take_prefix_take_left hm).subset hb

/-- `kalloc`, with its three outcomes. -/
theorem kalloc_cases (s : Kern) :
    (kalloc s = .ok none { s with fails := s.fails.tail, misses := s.misses + 1 } ∧ ¬ Rich 1 s) ∨
    ∃ r rest, s.freelist = r :: rest ∧ s.fails.headD false = false ∧
      kalloc s = .ok (some r) { s with
        fails := s.fails.tail, freelist := rest, refCount := update s.refCount r 1 } := by
  unfold kalloc
  cases hf : s.fails.headD false with
  | true =>
    refine .inl ⟨by simp, fun h => ?_⟩
    cases hl : s.fails with
    | nil => simp [hl] at hf
    | cons b bs =>
      have := h.2 b (by simp [hl])
      simp [hl, this] at hf
  | false =>
    cases hl : s.freelist with
    | nil => exact .inl ⟨by simp, fun h => by simpa [hl] using h.1⟩
    | cons r rest => exact .inr ⟨r, rest, rfl, rfl, by simp⟩

theorem rich_tail (hl : s.freelist = r :: rest) (hf : s.fails.headD false = false)
    (h1 : s'.freelist = rest) (h2 : s'.fails = s.fails.tail) : Rich (m + 1) s ↔ Rich m s' := by
  unfold Rich
  rw [hl, h1, h2, List.length_cons, add_le_add_iff_right]
  refine and_congr_right fun _ => ?_
  cases hs : s.fails with
  | nil => simp
  | cons b bs =>
    rw [hs] at hf
    simp at hf
    simp [hf]

theorem Inv.free_not_user (hI : Inv L s g) (hr : r ∈ s.freelist) :
    g.cls r = .own .free ∧ L.ok r ∧ ¬ (g.cls r).user := by
  have hc : g.cls r = .own .free := (hI.holds .free r).1 hr
  refine ⟨hc, hI.ok_of_ne_raw (by rw [hc]; simp), ?_⟩
  rw [hc]
  simp [Cls.user]

/-- A frame in the hands of the caller. -/
theorem Ev.take (hI : Inv L s g) (hl : s.freelist = r :: rest)
    (hs : s' = { s with fails := s.fails.tail, freelist := rest, refCount := update s.refCount r 1 }) :
    Ev L P (s, g) (s', g.set r .held) := by
  subst hs
  obtain ⟨hc, hok, -⟩ := hI.free_not_user (r := r) (by simp [hl])
  have hnd := hI.nodup.1
  rw [hl, List.nodup_cons] at hnd
  refine .pass_of hI hok (.inl hc) (by simp) rfl rfl (fun o f h1 _ => ?_) (fun o f h => ?_) hI.tab ⟨hnd.2, hI.nodup.2⟩
    (fun _ _ => rfl) (fun _ h => .inl h)
  · cases o with
    | free => exact absurd hc h1
    | _ => rfl
  · obtain rfl : o = .free := by
      rw [hc] at h
      rcases h with h | h <;> cases h
      rfl
    simp only [Kern.holds, hl, List.mem_cons]
    refine ⟨fun h => .inl ⟨fun h' => hnd.1 (h' ▸ h), .inr h⟩, ?_⟩
    rintro (⟨h1, h2⟩ | ⟨-, h⟩)
    · exact h2.resolve_left h1
    · simp at h

theorem tr_kalloc (hI : Inv L s g) : Tr (Ev L P) kalloc s g
    (fun x s' g' => Tabs d s s' g g' ∧ s'.ptab = s.ptab ∧ match x with
      | none => ¬ Rich 1 s
      | some r => g'.cls r = .held ∧ g.cls r = .own .free ∧ ∀ m, Rich (m + 1) s ↔ Rich m s') F N := by
  unfold Tr Sat
  rcases kalloc_cases s with ⟨hk, hn⟩ | ⟨r, rest, hl, hf, hk⟩
  · rw [hk]
    refine ⟨g, .single (.quiet ⟨⟨rfl, rfl, rfl, rfl, rfl, rfl, rfl⟩, rfl, rfl, rfl⟩ fun _ _ => rfl), ?_⟩
    exact ⟨⟨rfl, rfl, rfl, fun _ _ h => h, rfl, rfl, fun _ h => h, fun _ _ _ => rfl, fun _ _ => rfl⟩, rfl, hn⟩
  · rw [hk]
    have hc := (hI.free_not_user (r := r) (by simp [hl])).1
    refine ⟨g.set r .held, .single (.take hI hl rfl), ?_, rfl, Ghost.set_self _ _ _, hc,
      fun m => rich_tail hl hf rfl rfl⟩
    have hne : ∀ f, g.cls f ≠ .own .free → (g.set r .held).cls f = g.cls f := by
      intro f hf'
      exact Ghost.set_ne _ _ fun h => hf' (h ▸ hc)
    exact ⟨rfl, rfl, rfl, fun _ _ h => h, rfl, rfl,
      fun f hf' => by rw [hne f hf']; exact hf', fun f _ hf' => hne f hf', fun _ _ => rfl⟩

/-! Page addresses. -/

theorem PDX_eq (h : va < 2 ^ 32) : PDX va = va / PGSIZE / NPTENTRIES := by
  simp only [PDX, PGSIZE, NPTENTRIES, PTSIZE, NPDENTRIES] at *
  omega

theorem PDX_lt : PDX va < NPDENTRIES := mod_lt _ (by decide)

theorem page_lt (h : va < KERNBASE) : va / PGSIZE < NUPG := by
  simp only [KERNBASE, PGSIZE, NUPG] at *
  omega

theorem PGSIZE_pos : 0 < PGSIZE := by decide

theorem PGROUNDUP_dvd (a : ℕ) : PGSIZE ∣ PGROUNDUP a := Dvd.intro_left _ rfl

theorem le_PGROUNDUP (a : ℕ) : a ≤ PGROUNDUP a := by
  simp only [PGROUNDUP, PGSIZE]
  omega

/-! `walkpgdir`. -/

/-- What `walkpgdir` adds when it allocates. -/
theorem Ev.newTab (hI : Inv L s g) (hd : s.dir d = true) (hk : k < NPDENTRIES) (h0 : s.ptab d k = 0)
    (hr : g.cls r = .held) : Ev L P (s, g) (s.newTab d k r, g.set r (.own (.tab d k))) := by
  have hr0 := hI.held_ne_zero hr
  have hptab : ∀ d' k', (s.newTab d k r).ptab d' k' = if d' = d ∧ k' = k then r else s.ptab d' k' := by
    intro d' k'
    unfold Kern.newTab
    rcases eq_or_ne d' d with rfl | hd'
    · rcases eq_or_ne k' k with rfl | hk'
      · simp
      · simp [hk']
    · simp [hd']
  refine .pass_of hI (hI.held_ok hr) (.inr (.inl hr)) (by simp) (entry_newTab h0) ?_
    (fun o f _ h2 => ?_) (fun o f h => ?_) ?_ hI.nodup (fun _ _ => rfl) (fun _ h => .inl h)
  · change s.refCount = update s.refCount r 1
    rw [← (hI.held_count hr).1, update_eq_self]
  · cases o with
    | tab d' k' =>
      have hq : ¬ (d' = d ∧ k' = k) := fun hq => h2 (by rw [hq.1, hq.2])
      simp only [Kern.holds, hptab, if_neg hq]
    | _ => rfl
  · obtain rfl : o = .tab d k := by
      rw [hr] at h
      rcases h with h | h <;> cases h
      rfl
    simp only [Kern.holds, hptab, and_self, if_true, h0]
    constructor
    · rintro ⟨rfl, -⟩
      exact .inr ⟨rfl, trivial⟩
    · rintro (⟨-, rfl, h⟩ | ⟨rfl, -⟩)
      · exact absurd rfl h
      · exact ⟨rfl, hr0⟩
  · intro d' k' h'
    rw [hptab] at h'
    split_ifs at h' with hq
    · rw [hq.1, hq.2]
      exact ⟨hd, hk⟩
    · exact hI.tab d' k' h'

/-- Writing a page that the caller holds. -/
theorem Ev.fill (hr : g.cls r = .held) (p : ℕ → UInt8) :
    Ev L P (s, g) ({ s with mem := update s.mem r p }, g) := by
  refine .quiet ⟨⟨rfl, rfl, rfl, rfl, rfl, rfl, rfl⟩, rfl, rfl, rfl⟩ fun f hf => ?_
  have hne : f ≠ r := fun h => hf (h ▸ hr)
  exact update_of_ne hne _ _

theorem miss_newTab {t : Kern} {K : Finset ℕ} (h0 : s.ptab d k = 0) (hr : r ≠ 0) (hk : k ∈ K)
    (h1 : t.ptab = (s.newTab d k r).ptab) : s.miss d K = t.miss d K + 1 := by
  unfold Kern.miss
  rw [h1]
  have hset : K.filter (fun k' => s.ptab d k' = 0) =
      insert k (K.filter fun k' => (s.newTab d k r).ptab d k' = 0) := by
    ext k'
    simp only [Finset.mem_filter, Finset.mem_insert, Kern.newTab, update_self]
    rcases eq_or_ne k' k with rfl | hk'
    · simp [hk, h0]
    · simp [hk']
  rw [hset, Finset.card_insert_of_notMem]
  simp [Kern.newTab, hr]

theorem miss_congr {K : Finset ℕ} (h : s'.ptab d = s.ptab d) : s'.miss d K = s.miss d K := by
  unfold Kern.miss
  rw [h]

theorem tr_walkpgdir (hI : Inv L s g) (hd : s.dir d = true) : Tr (Ev L P) (walkpgdir d va true) s g
    (fun x s' g' => Tabs d s s' g g' ∧ (∀ k, k ≠ PDX va → s'.ptab d k = s.ptab d k) ∧ match x with
      | none => s'.ptab = s.ptab ∧ s.ptab d (PDX va) = 0 ∧ ∀ K, PDX va ∈ K → ¬ Rich (s.miss d K) s
      | some q => q = (d, va / PGSIZE) ∧ s'.ptab d (PDX va) ≠ 0 ∧
          ∀ K m, PDX va ∈ K → (Rich (m + s.miss d K) s ↔ Rich (m + s'.miss d K) s')) F N := by
  unfold walkpgdir
  refine tr_get ?_
  by_cases h0 : s.ptab d (PDX va) = 0
  · simp only [h0, ne_eq, not_true, if_false, Bool.true_eq_false]
    refine tr_bind (tr_kalloc (d := d) hI) ?_
    rintro x s₁ g₁ h₁ ⟨ht, hpt, hx⟩
    have hI₁ := Evs.inv h₁ hI
    have hmiss : ∀ K, PDX va ∈ K → 0 < s.miss d K := fun K hK =>
      Finset.card_pos.2 ⟨PDX va, Finset.mem_filter.2 ⟨hK, h0⟩⟩
    cases x with
    | none =>
      refine tr_pure ⟨ht, fun k _ => by rw [hpt], hpt, trivial, fun K hK hR => hx (hR.mono (hmiss K hK))⟩
    | some r =>
      obtain ⟨hheld, hfree, hR⟩ := hx
      refine tr_modify (.single (.fill hheld _)) ?_
      have hI₂ := (Ev.fill (L := L) (P := P) (s := s₁) hheld (fun _ => 0)).inv hI₁
      have h0' : s₁.ptab d (PDX va) = 0 := by rw [hpt]; exact h0
      have hd' : s₁.dir d = true := by rw [ht.dir]; exact hd
      refine tr_modify (.single (.newTab hI₂ hd' PDX_lt h0' hheld)) (tr_pure ?_)
      have hr0 := hI₁.held_ne_zero hheld
      have hne : ∀ f, g.cls f ≠ .own .free → f ≠ r := fun f hf h => hf (h ▸ hfree)
      refine ⟨⟨(entry_newTab h0').trans ht.entry, ht.proc, ht.dir, ?_, ht.vdsoText, ht.vdsoTicks,
        ?_, ?_, ?_⟩, fun k hk => by simp [Kern.newTab, hk, hpt], rfl, ?_, ?_⟩
      · intro d' k' h'
        unfold Kern.newTab
        rcases eq_or_ne d' d with rfl | hd'
        · rcases eq_or_ne k' (PDX va) with rfl | hk'
          · simpa using hr0
          · simpa [hk', hpt] using h'
        · simpa [hd', hpt] using h'
      · intro f hf
        rw [Ghost.set_ne _ _ (hne f hf)]
        exact ht.used f hf
      · intro f _ hf
        rw [Ghost.set_ne _ _ (hne f hf)]
        exact ht.cls f id hf
      · intro f hf
        exact (update_of_ne (hne f hf) _ _).trans (ht.mem f hf)
      · simpa [Kern.newTab] using hr0
      · intro K m hK
        have hms : s.miss d K = s₁.miss d K := (miss_congr (by rw [hpt])).symm
        rw [hms, miss_newTab (t := Kern.newTab { s₁ with mem := _ } d (PDX va) r) h0' hr0 hK rfl, ← add_assoc]
        exact hR _
  · simp only [h0, ne_eq, not_false_eq_true, if_true]
    exact tr_pure ⟨.refl, fun _ _ => rfl, rfl, h0, fun _ _ _ => Iff.rfl⟩

/-! `mappages`, for one page. -/

theorem mappages_page (hva : PGSIZE ∣ va) (hlt : va < 2 ^ 32) :
    mappages d va PGSIZE r perm = mapLoop d perm 1 va r := by
  obtain ⟨n, rfl⟩ := hva
  unfold mappages
  simp only [PGROUNDDOWN, u32, sub32, PGSIZE] at *
  congr 1 <;> omega

theorem tr_walk_false {f : Option (ℕ × ℕ) → K α} {Q : α → Kern → Ghost → Prop}
    (h1 : s.ptab d (PDX va) ≠ 0 → Tr (Ev L P) (f (some (d, va / PGSIZE))) s g Q F N)
    (h0 : s.ptab d (PDX va) = 0 → Tr (Ev L P) (f none) s g Q F N) :
    Tr (Ev L P) (walkpgdir d va false >>= f) s g Q F N := by
  unfold Tr walkpgdir
  rw [sat_bind_eq, sat_bind_eq, sat_get_eq]
  by_cases h : s.ptab d (PDX va) = 0
  · simp only [h, ne_eq, not_true, if_false, if_true, sat_pure_eq]
    exact h0 h
  · simp only [h, ne_eq, not_false_eq_true, if_true, sat_pure_eq]
    exact h1 h

theorem tr_loadPte {f : Pte → K α} {Q : α → Kern → Ghost → Prop}
    (ht : s.ptab d (v / NPTENTRIES) ≠ 0) (h : Tr (Ev L P) (f (s.entry d v)) s g Q F N) :
    Tr (Ev L P) (loadPte (d, v) >>= f) s g Q F N := by
  rw [entry_of_tab ht] at h
  exact h

theorem becomes_setPte (ht : s.ptab d (v / NPTENTRIES) ≠ 0) :
    Becomes s (s.setPte d v e) (upd s.entry d v e) s.refCount :=
  ⟨⟨rfl, rfl, rfl, rfl, rfl, rfl, rfl⟩, rfl, entry_setPte ht, rfl⟩

/-- Mapping a page that the caller holds. -/
theorem tr_map (hI : Inv L s g) (hd : s.dir d = true) (hva : PGSIZE ∣ va) (hlt : va < KERNBASE)
    (hT : P.touch d (va / PGSIZE)) (hr : g.cls r = .held) (hcow : perm.cow = false)
    (hN : (s.entry d (va / PGSIZE)).p = true → N "remap") :
    Tr (Ev L P) (mappages d va PGSIZE r perm) s g
      (fun ok s' g' => match ok with
        | true => Grows d (upd s.entry d (va / PGSIZE) { perm with p := true, ppn := r }) (· = r) s s' g g' ∧
            g'.cls r = cond (P.area d (va / PGSIZE)) .shm .priv ∧ (s.entry d (va / PGSIZE)).p = false ∧
            s'.ptab d (PDX va) ≠ 0 ∧ (∀ k, k ≠ PDX va → s'.ptab d k = s.ptab d k) ∧
            ∀ K m, PDX va ∈ K → (Rich (m + s.miss d K) s ↔ Rich (m + s'.miss d K) s')
        | false => Tabs d s s' g g' ∧ s'.ptab = s.ptab ∧ s.ptab d (PDX va) = 0 ∧
            ∀ K, PDX va ∈ K → ¬ Rich (s.miss d K) s) F N := by
  have h32 : va < 2 ^ 32 := hlt.trans (by decide)
  rw [mappages_page hva h32]
  unfold mapLoop
  refine tr_bind (tr_walkpgdir hI hd) ?_
  rintro x s₁ g₁ h₁ ⟨ht, hkeep, hx⟩
  cases x with
  | none => exact tr_pure ⟨ht, hx⟩
  | some q =>
    obtain ⟨rfl, htab, hR⟩ := hx
    have htab' : s₁.ptab d (va / PGSIZE / NPTENTRIES) ≠ 0 := by rw [← PDX_eq h32]; exact htab
    have hr₁ : g₁.cls r = .held := (ht.cls r id (by rw [hr]; simp)).trans hr
    refine tr_loadPte htab' ?_
    rw [ht.entry]
    refine tr_check (fun hp => ?_) (fun hp => hN (by simpa using hp))
    refine tr_modify (.single (.map hT (page_lt hlt) htab' (by rw [ht.entry]; exact hp) hr₁ hcow
      (becomes_setPte htab') rfl)) (tr_pure ?_)
    have hcls : ∀ f, f ≠ r → ((g₁.lose (s₁.entry d (va / PGSIZE)).ppn).set r
        (cond (P.area d (va / PGSIZE)) .shm .priv)).cls f = g₁.cls f := by
      intro f hf
      rw [Ghost.set_ne _ _ hf, Ghost.lose_cls]
    refine ⟨⟨?_, ht.proc, ht.dir, ht.tab, ht.vdsoText, ht.vdsoTicks, ?_, ?_, ht.mem⟩,
      Ghost.set_self _ _ _, hp, htab, hkeep, hR⟩
    · rw [(becomes_setPte htab').entry, ht.entry]
    · intro f hf
      rcases eq_or_ne f r with rfl | hne
      · rw [Ghost.set_self]
        cases P.area d (va / PGSIZE) <;> simp
      · rw [hcls f hne]
        exact ht.used f hf
    · intro f hX hf
      rw [hcls f hX]
      exact ht.cls f id hf

/-- `allocvdso` maps one of the shared pages, and counts it. -/
theorem tr_vshare (hI : Inv L s g) (hd : s.dir d = true) (hva : PGSIZE ∣ va) (hlt : va < KERNBASE)
    (h0 : va / PGSIZE ≠ 0) (hT : P.touch d (va / PGSIZE)) (hf : g.cls f = .own .vdso)
    (hN : (s.entry d (va / PGSIZE)).p = true → N "remap") :
    Tr (Ev L P) (mapshare d va { u := true, ppn := f }) s g
      (fun ok s' g' => match ok with
        | true => Grows d (upd s.entry d (va / PGSIZE) { p := true, u := true, ppn := f }) (fun _ => False) s s' g g' ∧
            (s.entry d (va / PGSIZE)).p = false
        | false => Tabs d s s' g g') F N := by
  have h32 : va < 2 ^ 32 := hlt.trans (by decide)
  unfold mapshare
  rw [mappages_page hva h32]
  unfold mapLoop
  unfold Tr
  rw [sat_bind_eq, sat_bind_eq]
  refine sat_mono (tr_walkpgdir (F := F) (N := N) hI hd) ?_ (fun _ h => h) (fun _ _ h => h)
  rintro x s₁ ⟨g₁, h₁, ht, -, hx⟩
  cases x with
  | none => exact ⟨g₁, h₁, ht⟩
  | some q =>
    obtain ⟨rfl, htab, -⟩ := hx
    have htab' : s₁.ptab d (va / PGSIZE / NPTENTRIES) ≠ 0 := by rw [← PDX_eq h32]; exact htab
    have hload : s₁.pte d (va / PGSIZE) = s.entry d (va / PGSIZE) := by
      rw [← entry_of_tab htab', ht.entry]
    by_cases hp : (s.entry d (va / PGSIZE)).p = false
    · have hb : Becomes s₁ { s₁.setPte d (va / PGSIZE) { p := true, u := true, ppn := f } with
            refCount := update s₁.refCount f (s₁.refCount f + 1) }
          (upd s₁.entry d (va / PGSIZE) { p := true, u := true, ppn := f })
          (update s₁.refCount f (s₁.refCount f + 1)) :=
        ⟨⟨rfl, rfl, rfl, rfl, rfl, rfl, rfl⟩, rfl, entry_setPte htab', rfl⟩
      have hf₁ : g₁.cls f = .own .vdso := (ht.cls _ id (by rw [hf]; simp)).trans hf
      have hE : Ev L P (s₁, g₁) (_, g₁.lose (s₁.entry d (va / PGSIZE)).ppn) :=
        .vshare hT (page_lt hlt) h0 htab' (by rw [ht.entry]; exact hp) hf₁ hb rfl
      simp only [sat_bind_eq, loadPte, sat_get_eq, sat_pure_eq, hload, check, hp, if_true, storePte, mapLoop,
        sat_modify_eq, inclRefCount]
      refine ⟨_, h₁.tail hE, ⟨?_, ht.proc, ht.dir, ht.tab, ht.vdsoText, ht.vdsoTicks, ?_, ?_, ht.mem⟩, trivial⟩
      · rw [← ht.entry]
        exact hb.entry
      · intro f hf
        rw [Ghost.lose_cls]
        exact ht.used f hf
      · intro f _ hf
        rw [Ghost.lose_cls]
        exact ht.cls f id hf
    · have hp' : (s.entry d (va / PGSIZE)).p = true := by simpa using hp
      simp only [sat_bind_eq, loadPte, sat_get_eq, sat_pure_eq, hload, check, hp', Bool.true_eq_false, if_false]
      exact hN hp'

/-! Freeing. -/

/-- Frame `f` after `kfree`. -/
def Kern.freed (s : Kern) (f : ℕ) : Kern := ({ s with mem := update s.mem f (fun _ => 1) }).push f

theorem kfree_eval (hok : L.ok f) (h1 : s.refCount f = 1) : kfree L f s = .ok () (s.freed f) := by
  refine eval_of_sat ?_
  unfold kfree
  simp [check, hok, memset, getRefCount, h1, Kern.freed]

theorem release_last (hok : L.ok f) (h1 : s.refCount f = 1) : release L f s = .ok () (s.freed f) := by
  refine eval_of_sat ?_
  unfold release
  simp only [sat_bind_eq, getRefCount, sat_get_eq, sat_pure_eq, h1, if_true]
  rw [Sat, kfree_eval hok h1]
  exact ⟨trivial, rfl⟩

theorem release_more (h0 : 0 < s.refCount f) (h1 : s.refCount f ≠ 1) :
    release L f s = .ok () { s with refCount := update s.refCount f (s.refCount f - 1) } := by
  refine eval_of_sat ?_
  unfold release
  simp [getRefCount, h1, declRefCount, decl, h0.ne']

/-- Some frames become free, and otherwise all that is not a page table stays. -/
structure Frees (s s' : Kern) (g g' : Ghost) : Prop where
  proc : s'.proc = s.proc
  fails : s'.fails = s.fails
  free : s.freelist.length ≤ s'.freelist.length
  held : ∀ f, g.cls f = .held → g'.cls f = .held
  cls : ∀ f, g'.cls f ≠ .own .free → g'.cls f = g.cls f ∧ s'.mem f = s.mem f

/-- The page tables stay too, but for their entries. -/
structure Shrinks (s s' : Kern) (g g' : Ghost) : Prop extends Frees s s' g g' where
  dir : s'.dir = s.dir
  ptab : s'.ptab = s.ptab
  lost : g'.lost = g.lost
  weight : ∀ f, (g'.cls f).weight = (g.cls f).weight

theorem Frees.refl : Frees s s g g :=
  ⟨rfl, rfl, le_rfl, fun _ h => h, fun _ _ => ⟨rfl, rfl⟩⟩

theorem Frees.trans (h : Frees s s' g g') (h' : Frees s' s'' g' g'') : Frees s s'' g g'' where
  proc := h'.proc.trans h.proc
  fails := h'.fails.trans h.fails
  free := h.free.trans h'.free
  held f hf := h'.held f (h.held f hf)
  cls f hf := by
    obtain ⟨h1, h2⟩ := h'.cls f hf
    obtain ⟨h3, h4⟩ := h.cls f (by rw [← h1]; exact hf)
    exact ⟨h1.trans h3, h2.trans h4⟩

theorem Shrinks.refl : Shrinks s s g g := ⟨.refl, rfl, rfl, rfl, fun _ => rfl⟩

theorem Shrinks.trans (h : Shrinks s s' g g') (h' : Shrinks s' s'' g' g'') : Shrinks s s'' g g'' :=
  ⟨h.toFrees.trans h'.toFrees, h'.dir.trans h.dir, h'.ptab.trans h.ptab, h'.lost.trans h.lost,
    fun f => (h'.weight f).trans (h.weight f)⟩

/-- Whether `deallocuvm` empties the entry `e` of the page at `a`. -/
def goes (guard : Option ℕ) (a : ℕ) (e : Pte) : Prop := e.p = true ∨ guard = some a

instance (guard : Option ℕ) (a : ℕ) (e : Pte) : Decidable (goes guard a e) :=
  inferInstanceAs (Decidable (_ ∨ _))

/-- Giving up the reference of an entry, from a state `s₀` where only its `PTE_P` may be new. -/
theorem ev_unmap {s₀ : Kern} {e₀ : Pte} (hI : Inv L s g) (hv : v < NUPG) (hT : P.touch d v)
    (htab : s.ptab d (v / NPTENTRIES) ≠ 0) (he : s.entry d v = e) (h0 : v = 0 → e.p = true) (hp : e.ppn ≠ 0)
    (hs : s₀ = s ∨ s₀ = s.setPte d v e₀) :
    ∃ s₁ g', release L e.ppn s₀ = .ok () s₁ ∧ Ev L P (s, g) (s₁.setPte d v {}, g') ∧
      Shrinks s (s₁.setPte d v {}) g g' ∧ (s₁.setPte d v {}).entry = upd s.entry d v {} := by
  have hok : L.ok e.ppn := he ▸ hI.ok_ppn hv (he ▸ hp)
  have hcls : (g.cls e.ppn).user := he ▸ (hI.named d v hv).resolve_left (he ▸ hp)
  have hnh : g.cls e.ppn ≠ .held := fun h => Cls.held_not_user (h ▸ hcls)
  have hentry : ∀ s₁ : Kern, s₁.ptab = s.ptab → s₁.pte = s₀.pte →
      (s₁.setPte d v {}).entry = upd s.entry d v {} := by
    intro s₁ h1 h2
    funext d' v'
    by_cases hq : d' = d ∧ v' = v
    · obtain ⟨rfl, rfl⟩ := hq
      rw [entry_setPte (by rw [h1]; exact htab), upd_same, upd_same]
    · rw [entry_setPte (by rw [h1]; exact htab), upd_ne hq, upd_ne hq]
      unfold Kern.entry
      rw [h1, h2]
      rcases hs with rfl | rfl
      · rfl
      · rw [show (s.setPte d v e₀).pte d' v' = s.pte d' v' from upd_ne (E := s.pte) hq]
  have hrc : s₀.refCount = s.refCount := by rcases hs with rfl | rfl <;> rfl
  by_cases h1 : s.refCount e.ppn = 1
  · refine ⟨s₀.freed e.ppn, g.set e.ppn (.own .free), release_last hok (by rw [hrc]; exact h1), ?_, ?_, ?_⟩
    · refine .last hT hv he h0 hp h1 ?_ ?_ (hentry _ ?_ rfl) ?_ ?_
      · rcases hs with rfl | rfl <;> exact ⟨rfl, rfl, rfl, rfl, rfl, rfl, rfl⟩
      · rcases hs with rfl | rfl <;> rfl
      · rcases hs with rfl | rfl <;> rfl
      · rcases hs with rfl | rfl <;> rfl
      · intro f hf
        rcases hs with rfl | rfl <;> exact update_of_ne hf _ _
    · have hmem : ∀ f, f ≠ e.ppn → ((s₀.freed e.ppn).setPte d v {}).mem f = s.mem f := by
        intro f hf
        rcases hs with rfl | rfl <;> exact update_of_ne hf _ _
      have hfree : ((s₀.freed e.ppn).setPte d v {}).freelist = e.ppn :: s.freelist := by
        rcases hs with rfl | rfl <;> rfl
      refine ⟨⟨?_, ?_, ?_, ?_, ?_⟩, ?_, ?_, rfl, fun f => ?_⟩
      iterate 2 rcases hs with rfl | rfl <;> rfl
      · rw [hfree, List.length_cons]
        omega
      · intro f hf
        have hne : f ≠ e.ppn := fun h => hnh (h ▸ hf)
        rw [Ghost.set_ne _ _ hne]
        exact hf
      · intro f hf
        rcases eq_or_ne f e.ppn with rfl | hne
        · rw [Ghost.set_self] at hf
          exact absurd rfl hf
        · exact ⟨Ghost.set_ne _ _ hne, hmem f hne⟩
      iterate 2 rcases hs with rfl | rfl <;> rfl
      · rcases eq_or_ne f e.ppn with rfl | hne
        · -- the entry accounts for the one reference
          have hc := hI.count _ hok
          have hu : 0 < s.uref e.ppn := he ▸ hI.uref_pos hv (he ▸ hp)
          have hw : (g.cls e.ppn).weight = 0 := by omega
          rw [Ghost.set_self, hw]
          rfl
        · rw [Ghost.set_ne _ _ hne]
    · refine hentry _ ?_ rfl
      rcases hs with rfl | rfl <;> rfl
  · refine ⟨_, g, release_more (by rw [hrc]; exact he ▸ hI.refCount_pos hv (he ▸ hp)) (by rw [hrc]; exact h1), ?_, ?_, ?_⟩
    · refine .drop hT hv he h0 hp h1 ⟨?_, ?_, hentry _ ?_ rfl, ?_⟩ ?_
      · rcases hs with rfl | rfl <;> exact ⟨rfl, rfl, rfl, rfl, rfl, rfl, rfl⟩
      all_goals rcases hs with rfl | rfl <;> rfl
    · refine ⟨⟨?_, ?_, ?_, fun _ h => h, fun f _ => ⟨rfl, ?_⟩⟩, ?_, ?_, rfl, fun _ => rfl⟩
      iterate 2 rcases hs with rfl | rfl <;> rfl
      · rcases hs with rfl | rfl <;> exact le_rfl
      iterate 3 rcases hs with rfl | rfl <;> rfl
    · refine hentry _ ?_ rfl
      rcases hs with rfl | rfl <;> rfl

theorem markGuard_eval (guard : Option ℕ) (a : ℕ) (htab : s.ptab d (v / NPTENTRIES) ≠ 0) :
    ∃ s₀ e₀, markGuard guard a (d, v) s = .ok () s₀ ∧ (s₀ = s ∨ s₀ = s.setPte d v e₀) ∧ s₀.pte d v = e₀ ∧
      e₀.ppn = (s.entry d v).ppn ∧ (e₀.p = true ↔ goes guard a (s.entry d v)) ∧
      (¬ goes guard a (s.entry d v) → s₀ = s) := by
  rw [entry_of_tab htab]
  by_cases hg : guard = some a
  · refine ⟨s.setPte d v { s.pte d v with p := true }, { s.pte d v with p := true }, ?_, .inr rfl,
      upd_same (E := s.pte), rfl, iff_of_true rfl (.inr hg), fun h => absurd (.inr hg) h⟩
    refine eval_of_sat ?_
    simp [markGuard, hg, loadPte, storePte]
  · refine ⟨s, s.pte d v, ?_, .inl rfl, rfl, rfl, ?_, fun _ => rfl⟩
    · refine eval_of_sat ?_
      simp [markGuard, hg]
    · unfold goes
      simp [hg]

theorem tr_deallocPage (hI : Inv L s g) (hlt : a < KERNBASE)
    (hT : P.touch d (a / PGSIZE)) (hnull : a / PGSIZE = 0 → guard = some a → (s.entry d 0).p = true)
    (hF : guard = some a → s.ptab d (PDX a) = 0 → F s)
    (hN : goes guard a (s.entry d (a / PGSIZE)) → s.ptab d (PDX a) ≠ 0 →
      (s.entry d (a / PGSIZE)).ppn = 0 → N "kfree") :
    Tr (Ev L P) (deallocPage L d guard a) s g
      (fun a' s' g' => Shrinks s s' g g' ∧
        (s.ptab d (PDX a) = 0 → a' = (PDX a + 1) * PTSIZE ∧ s'.entry = s.entry) ∧
        (s.ptab d (PDX a) ≠ 0 → a' = a + PGSIZE ∧ s'.entry =
          if goes guard a (s.entry d (a / PGSIZE)) then upd s.entry d (a / PGSIZE) {} else s.entry)) F N := by
  have h32 : a < 2 ^ 32 := hlt.trans (by decide)
  unfold deallocPage
  refine tr_walk_false (fun htab => ?_) (fun h0 => ?_)
  · have htab' : s.ptab d (a / PGSIZE / NPTENTRIES) ≠ 0 := by rw [← PDX_eq h32]; exact htab
    obtain ⟨s₀, e₀, hmark, hs₀, hload, hppn, hp₀, hstay⟩ := markGuard_eval guard a htab'
    have hld : loadPte (d, a / PGSIZE) s₀ = .ok e₀ s₀ := eval_of_sat (by simp [loadPte, hload])
    unfold Tr deallocEntry
    dsimp only
    rw [M.assoc, sat_eval hmark, M.assoc, sat_eval hld]
    by_cases hgo : goes guard a (s.entry d (a / PGSIZE))
    · rw [if_pos (hp₀.2 hgo), M.assoc, sat_bind_eq]
      refine sat_check (fun hp => ?_) (fun hp => hN hgo htab (by rw [← hppn]; simpa using hp))
      have h0 : a / PGSIZE = 0 → (s.entry d (a / PGSIZE)).p = true := by
        intro hz
        rcases hgo with hep | hg
        · exact hep
        · rw [hz]
          exact hnull hz hg
      obtain ⟨s₁, g', hrel, hev, hsh, hent⟩ := ev_unmap (L := L) (P := P) hI (page_lt hlt) hT htab' rfl h0
        (by rw [← hppn]; exact hp) hs₀
      rw [hppn, M.assoc, sat_eval hrel]
      refine ⟨g', .single hev, hsh, fun h => absurd h htab, fun _ => ⟨rfl, ?_⟩⟩
      rw [if_pos hgo]
      exact hent
    · rw [if_neg (fun h => hgo (hp₀.1 h)), hstay hgo]
      exact ⟨g, .refl, .refl, fun h => absurd h htab, fun _ => ⟨rfl, (if_neg hgo).symm⟩⟩
  · by_cases hg : guard = some a
    · simp only [hg, if_true]
      exact tr_fault (hF hg h0)
    · simp only [hg, if_false]
      exact tr_pure ⟨.refl, fun _ => ⟨rfl, rfl⟩, fun h => absurd h0 h⟩

/-- The pages of a range that `deallocuvm` empties. -/
def emptied (s : Kern) (d lo hi : ℕ) (guard : Option ℕ) (v : ℕ) : Prop :=
  lo ≤ v * PGSIZE ∧ v * PGSIZE < hi ∧ goes guard (v * PGSIZE) (s.entry d v)

instance (s : Kern) (d lo hi : ℕ) (guard : Option ℕ) (v : ℕ) : Decidable (emptied s d lo hi guard v) :=
  inferInstanceAs (Decidable (_ ∧ _))

theorem page_mul (h : PGSIZE ∣ a) : a / PGSIZE * PGSIZE = a := Nat.div_mul_cancel h

/-- The next address after an absent page table. -/
theorem next_table (h : a < 2 ^ 32) : a < (PDX a + 1) * PTSIZE ∧ PGSIZE ∣ (PDX a + 1) * PTSIZE ∧
      ∀ v, a ≤ v * PGSIZE → v * PGSIZE < (PDX a + 1) * PTSIZE → v / NPTENTRIES = PDX a := by
  simp only [PDX, PGSIZE, PTSIZE, NPTENTRIES, NPDENTRIES] at *
  refine ⟨by omega, ?_, fun v h1 h2 => by omega⟩
  exact Dvd.dvd.mul_left (by decide) _

theorem tr_deallocuvm (hI : Inv L s g) (hle : oldsz ≤ KERNBASE)
    (hT : ∀ v, PGROUNDUP newsz ≤ v * PGSIZE → v * PGSIZE < oldsz → P.touch d v)
    (hnull : guard = some 0 → newsz = 0 → (s.entry d 0).p = true)
    (hF : ∀ a s', guard = some a → PGROUNDUP newsz ≤ a → a < oldsz → s.ptab d (PDX a) = 0 → F s')
    (hN : ∀ v, emptied s d (PGROUNDUP newsz) oldsz guard v → s.ptab d (v / NPTENTRIES) ≠ 0 →
      (s.entry d v).ppn = 0 → N "kfree") :
    Tr (Ev L P) (deallocuvm L d oldsz newsz guard) s g
      (fun r s' g' => r = (if newsz ≥ oldsz then oldsz else newsz) ∧ Shrinks s s' g g' ∧
        ∀ d' v, s'.entry d' v = if d' = d ∧ emptied s d (PGROUNDUP newsz) oldsz guard v then {}
          else s.entry d' v) F N := by
  unfold deallocuvm
  have hlo := le_PGROUNDUP newsz
  by_cases hge : newsz ≥ oldsz
  · simp only [hge, if_true]
    refine tr_pure ⟨rfl, .refl, fun d' v => ?_⟩
    rw [if_neg]
    rintro ⟨-, h1, h2, -⟩
    omega
  · simp only [hge, if_false]
    -- after the pages below `a` are done
    refine tr_bind (tr_loop (Q := fun _ s' g' => Shrinks s s' g g' ∧
        ∀ d' v, s'.entry d' v = if d' = d ∧ emptied s d (PGROUNDUP newsz) oldsz guard v then {} else s.entry d' v)
      (fun a s' g' => PGSIZE ∣ a ∧ PGROUNDUP newsz ≤ a ∧ Shrinks s s' g g' ∧
        ∀ d' v, s'.entry d' v =
          if d' = d ∧ v * PGSIZE < a ∧ emptied s d (PGROUNDUP newsz) oldsz guard v then {} else s.entry d' v)
      ⟨PGROUNDUP_dvd _, le_rfl, .refl, fun d' v => ?_⟩ ?_ ?_) ?_
    · rw [if_neg]
      rintro ⟨-, h1, h2, -⟩
      omega
    · rintro a s₁ g₁ h₁ ha ⟨hdvd, hloa, hsh, hent⟩
      have h32 : a < 2 ^ 32 := (ha.trans_le hle).trans (by decide)
      have hpa := page_mul hdvd
      have hsame : s₁.entry d (a / PGSIZE) = s.entry d (a / PGSIZE) := by
        rw [hent, if_neg]
        rintro ⟨-, h1, -⟩
        omega
      have hem : goes guard a (s.entry d (a / PGSIZE)) ↔
          emptied s d (PGROUNDUP newsz) oldsz guard (a / PGSIZE) := by
        unfold emptied
        rw [hpa]
        exact ⟨fun h => ⟨hloa, ha, h⟩, fun h => h.2.2⟩
      refine tr_bind (tr_deallocPage (Evs.inv h₁ hI) (ha.trans_le hle) (hT _ (by rw [hpa]; exact hloa)
        (by rw [hpa]; exact ha)) ?_ ?_ ?_) ?_
      · intro hz hg
        have ha0 : a = 0 := by rw [← hpa, hz, zero_mul]
        subst ha0
        rw [show s₁.entry d 0 = s.entry d 0 from hsame]
        exact hnull hg (by omega)
      · intro hg h0
        exact hF a s₁ hg hloa ha (by rw [← hsh.ptab]; exact h0)
      · intro hgo htab hp
        rw [hsame] at hgo hp
        refine hN _ (hem.1 hgo) ?_ hp
        rw [← PDX_eq h32, ← hsh.ptab]
        exact htab
      · rintro a' s₂ g₂ h₂ ⟨hsh', hno, hyes⟩
        refine tr_pure ?_
        by_cases h0 : s₁.ptab d (PDX a) = 0
        · obtain ⟨rfl, he⟩ := hno h0
          obtain ⟨hlt', hdvd', hin⟩ := next_table h32
          refine ⟨hlt', hdvd', hloa.trans hlt'.le, hsh.trans hsh', fun d' v => ?_⟩
          rw [he, hent]
          -- the pages skipped have no entry to empty
          by_cases hsk : d' = d ∧ a ≤ v * PGSIZE ∧ v * PGSIZE < (PDX a + 1) * PTSIZE
          · obtain ⟨rfl, h1, h2⟩ := hsk
            have hz : s.entry d' v = {} := by
              refine entry_of_no_tab ?_
              rw [hin v h1 h2, ← hsh.ptab]
              exact h0
            rw [hz, ite_self, ite_self]
          · refine if_congr (and_congr_right fun hd => and_congr_left fun _ => ?_) rfl rfl
            rw [not_and, not_and] at hsk
            have := hsk hd
            omega
        · obtain ⟨rfl, he⟩ := hyes h0
          refine ⟨by simp [PGSIZE], (Nat.dvd_add_right hdvd).2 (dvd_refl _), by omega, hsh.trans hsh', fun d' v => ?_⟩
          rw [he, hsame]
          by_cases hq : d' = d ∧ v = a / PGSIZE
          · obtain ⟨rfl, rfl⟩ := hq
            have hlt' : a / PGSIZE * PGSIZE < a + PGSIZE := by rw [hpa]; simp [PGSIZE]
            by_cases hgo : goes guard a (s.entry d' (a / PGSIZE))
            · rw [if_pos hgo, upd_same, if_pos ⟨rfl, hlt', hem.1 hgo⟩]
            · rw [if_neg hgo, if_neg (fun h => hgo (hem.2 h.2.2)), hsame]
          · have hne : (if goes guard a (s.entry d (a / PGSIZE)) then upd s₁.entry d (a / PGSIZE) {} else s₁.entry)
                d' v = s₁.entry d' v := by
              split_ifs
              · rw [upd_ne hq]
              · rfl
            rw [hne, hent]
            refine if_congr (and_congr_right fun hd => and_congr_left fun _ => ?_) rfl rfl
            rw [not_and] at hq
            have hva := hq hd
            constructor
            · intro h; omega
            · intro h
              by_contra hlt'
              refine hva ?_
              simp only [PGSIZE] at *
              omega
    · rintro a s₁ g₁ - ha ⟨-, -, hsh, hent⟩
      refine ⟨hsh, fun d' v => ?_⟩
      rw [hent]
      refine if_congr (and_congr_right fun _ => and_iff_right_of_imp fun h => ?_) rfl rfl
      exact h.2.1.trans_le ha
    · rintro - s₁ g₁ - ⟨hsh, hent⟩
      exact tr_pure ⟨rfl, hsh, hent⟩

/-! `allocuvm`. -/

/-- The entry of a page that was free when the call began: writable, for the user, zeroed. -/
structure Fresh (P : Perm) (s' : Kern) (g g' : Ghost) (d v : ℕ) : Prop where
  entry : s'.entry d v = { p := true, w := true, u := true, ppn := (s'.entry d v).ppn }
  ppn : (s'.entry d v).ppn ≠ 0
  free : g.cls (s'.entry d v).ppn = .own .free
  cls : g'.cls (s'.entry d v).ppn = cond (P.area d v) .shm .priv
  mem : s'.mem (s'.entry d v).ppn = fun _ => 0

theorem Fresh.grows {g₀ : Ghost} (h : Fresh P s g₀ g d v)
    (hg : Grows d E X s s' g g') (he : s'.entry d v = s.entry d v)
    (hX : ¬ X (s.entry d v).ppn) : Fresh P s' g₀ g' d v := by
  have hc : g.cls (s.entry d v).ppn ≠ .own .free := by
    rw [h.cls]
    cases P.area d v <;> simp
  refine ⟨by rw [he]; exact h.entry, by rw [he]; exact h.ppn, by rw [he]; exact h.free, ?_, ?_⟩
  · rw [he, hg.cls _ hX hc]
    exact h.cls
  · rw [he, hg.mem _ hc]
    exact h.mem

/-- After a failed allocation the entries of the range are as they were, or empty. -/
structure Fell (d lo hi : ℕ) (s s' : Kern) : Prop where
  entry : ∀ d' v, s'.entry d' v = s.entry d' v ∨
    (d' = d ∧ lo ≤ v * PGSIZE ∧ v * PGSIZE < hi ∧ s'.entry d' v = {})
  proc : s'.proc = s.proc
  dir : s'.dir = s.dir
  tab : ∀ d' k, s.ptab d' k ≠ 0 → s'.ptab d' k ≠ 0

/-- The entries are as they were, but for some of the range that are present now. -/
def Filled (d lo hi : ℕ) (s s' : Kern) : Prop := ∀ d' v, s'.entry d' v = s.entry d' v ∨
  (d' = d ∧ lo ≤ v * PGSIZE ∧ v * PGSIZE < hi ∧ (s'.entry d v).p = true ∧ (s'.entry d v).ppn ≠ 0)

/-- What the clean-up of `allocuvm` may do, and how it can go wrong. -/
structure Cleans (P : Perm) (F : Kern → Prop) (N : String → Prop) (d oldsz newsz : ℕ) (guard : Option ℕ) (s : Kern) :
    Prop where
  touch : ∀ v, PGROUNDUP oldsz ≤ v * PGSIZE → v * PGSIZE < newsz → P.touch d v
  null : guard = some 0 → oldsz ≠ 0
  fault : ∀ a s', guard = some a → PGROUNDUP oldsz ≤ a → a < newsz → s.ptab d (PDX a) = 0 → F s'
  kfree : ∀ v, emptied s d (PGROUNDUP oldsz) newsz guard v → (s.entry d v).ppn = 0 → N "kfree"

/-- The clean-up of `allocuvm`, from a state `s₁` of the loop. -/
theorem tr_cleanup (hI : Inv L s₁ g₁) (hlt : newsz < KERNBASE) (hc : Cleans P F N d oldsz newsz guard s)
    (hg : Grows d E X s s₁ g g₁) (hent : Filled d (PGROUNDUP oldsz) newsz s s₁) :
    Tr (Ev L P) (deallocuvm L d newsz oldsz guard) s₁ g₁
      (fun _ s' g' => Fell d (PGROUNDUP oldsz) newsz s s' ∧ ∀ f, g₁.cls f = .held → g'.cls f = .held) F N := by
  refine tr_post (tr_deallocuvm hI hlt.le hc.touch (fun h h' => absurd h' (hc.null h)) ?_ ?_) ?_
  · intro a s' h1 h2 h3 h4
    refine hc.fault a s' h1 h2 h3 ?_
    by_contra h5
    exact hg.tab d _ h5 h4
  · rintro v ⟨h1, h2, h3⟩ - h5
    rcases hent d v with he | ⟨-, -, -, -, he⟩
    · rw [he] at h3 h5
      exact hc.kfree v ⟨h1, h2, h3⟩ h5
    · exact absurd h5 he
  · rintro _ s' g' - ⟨-, hsh, he⟩
    refine ⟨⟨fun d' v => ?_, hsh.proc.trans hg.proc, hsh.dir.trans hg.dir, ?_⟩, hsh.held⟩
    · rw [he]
      split_ifs with hq
      · exact .inr ⟨hq.1, hq.2.1, hq.2.2.1, rfl⟩
      · rcases hent d' v with h' | ⟨rfl, h1, h2, hp, -⟩
        · exact .inl h'
        · exact absurd ⟨rfl, h1, h2, .inl hp⟩ hq
    · intro d' k hk
      rw [hsh.ptab]
      exact hg.tab d' k hk

theorem Ev.give (hI : Inv L s g) (hr : g.cls r = .held) : Ev L P (s, g) (s.freed r, g.set r (.own .free)) := by
  have hown : ∀ o, ¬ s.holds o r := by
    intro o hh
    rw [hI.holds, hr] at hh
    simp at hh
  refine .pass_of hI (hI.held_ok hr) (.inr (.inl hr)) (by simp) rfl rfl
    (fun o f _ h2 => ?_) (fun o f h => ?_) hI.tab
    ⟨List.nodup_cons.2 ⟨hown .free, hI.nodup.1⟩, hI.nodup.2⟩ (fun f hf => update_of_ne hf _ _)
    (fun _ h => .inl h)
  · cases o with
    | free => exact absurd rfl h2
    | _ => rfl
  · obtain rfl : o = .free := by
      rw [hr] at h
      rcases h with h | h <;> cases h
      rfl
    by_cases hf : f = r
    · simp [Kern.holds, Kern.freed, Kern.push, hf]
    · simp [Kern.holds, Kern.freed, Kern.push, hf]

theorem tr_allocPage (hI : Inv L s₁ g₁) (hd : s₁.dir d = true) (hlt : newsz < KERNBASE)
    (hc : Cleans P F N d oldsz newsz guard s) (hg : Grows d s₁.entry (fun _ => False) s s₁ g g₁)
    (hent : Filled d (PGROUNDUP oldsz) newsz s s₁)
    (ha : PGSIZE ∣ a) (hlo : PGROUNDUP oldsz ≤ a) (hhi : a < newsz)
    (hN' : (s₁.entry d (a / PGSIZE)).p = true → N "remap") :
    Tr (Ev L P) (allocPage L d oldsz newsz guard a) s₁ g₁
      (fun ok s' g' => match ok with
        | true => (∃ e, Grows d (upd s₁.entry d (a / PGSIZE) e) (fun _ => False) s₁ s' g₁ g') ∧
            Fresh P s' g₁ g' d (a / PGSIZE) ∧ (s₁.entry d (a / PGSIZE)).p = false ∧ s'.ptab d (PDX a) ≠ 0 ∧
            (∀ k, k ≠ PDX a → s'.ptab d k = s₁.ptab d k) ∧
            ∀ K m, PDX a ∈ K → (Rich (m + 1 + s₁.miss d K) s₁ ↔ Rich (m + s'.miss d K) s')
        | false => Fell d (PGROUNDUP oldsz) newsz s s' ∧
            ∀ K, PDX a ∈ K → ¬ Rich (1 + s₁.miss d K) s₁) F N := by
  unfold allocPage
  refine tr_bind (tr_kalloc (d := d) hI) ?_
  rintro x s₂ g₂ h₂ ⟨ht, hpt, hx⟩
  have hI₂ := Evs.inv h₂ hI
  have hg₂ := hg.trans ht
  have hent₂ : Filled d (PGROUNDUP oldsz) newsz s s₂ := by
    rw [Filled, ht.entry]
    exact hent
  cases x with
  | none =>
    refine tr_bind (tr_cleanup hI₂ hlt hc hg₂ hent₂) ?_
    rintro _ s₃ g₃ - ⟨hfell, -⟩
    exact tr_pure ⟨hfell, fun K _ hR => hx (hR.mono (by omega))⟩
  | some r =>
    obtain ⟨hheld, hfree, hR⟩ := hx
    refine tr_modify (.single (.fill hheld fun _ => 0)) ?_
    have hI₃ := (Ev.fill (L := L) (P := P) (s := s₂) hheld (fun _ => 0)).inv hI₂
    set s₃ : Kern := { s₂ with mem := update s₂.mem r (fun _ => 0) } with hs₃
    have hne : ∀ f, g₁.cls f ≠ .own .free → f ≠ r := fun f hf h => hf (h ▸ hfree)
    have hmem₃ : ∀ f, g₁.cls f ≠ .own .free → s₃.mem f = s₁.mem f := fun f hf =>
      (update_of_ne (hne f hf) _ _).trans (ht.mem f hf)
    have ht₃ : Tabs d s₁ s₃ g₁ g₂ := { ht with mem := hmem₃ }
    have hpa := page_mul ha
    have hva : a < KERNBASE := hhi.trans hlt
    have hmiss₃ : ∀ K, s₃.miss d K = s₁.miss d K := fun K => miss_congr (by rw [hs₃, hpt])
    refine tr_bind (tr_map hI₃ (by rw [ht₃.dir]; exact hd) ha hva (hc.touch _ (by rw [hpa]; exact hlo)
      (by rw [hpa]; exact hhi)) hheld rfl (by rw [ht₃.entry]; exact hN')) ?_
    rintro ok s₄ g₄ h₄ hQ
    have hrs : ∀ m, Rich (m + 1) s₁ ↔ Rich m s₃ := hR
    rw [ht₃.entry] at hQ
    cases ok with
    | true =>
      obtain ⟨hgr, hcls, hp, htab, hkeep, hR'⟩ := hQ
      have he : s₄.entry d (a / PGSIZE) = { p := true, w := true, u := true, ppn := r } := by
        rw [hgr.entry, upd_same]
      have hgrows : Grows d (upd s₁.entry d (a / PGSIZE) { p := true, w := true, u := true, ppn := r })
          (fun _ => False) s₁ s₄ g₁ g₄ := by
        refine (ht₃.trans hgr).weaken ?_
        rintro f (h | rfl)
        · exact h.elim
        · exact .inr hfree
      have hkeep' : ∀ k, k ≠ PDX a → s₄.ptab d k = s₁.ptab d k := fun k hk => by
        rw [hkeep k hk, hs₃, hpt]
      refine tr_pure ⟨⟨_, hgrows⟩, ⟨?_, ?_, ?_, ?_, ?_⟩, hp, htab, hkeep', fun K m hK => ?_⟩
      · rw [he]
      · rw [he]
        exact hI₂.held_ne_zero hheld
      · rw [he]
        exact hfree
      · rw [he]
        exact hcls
      · rw [he, hgr.mem r (by rw [hheld]; simp)]
        exact update_self _ _ _
      · have := hR' K m hK
        rw [hmiss₃] at this
        rw [← this, ← hrs]
        rw [show m + 1 + s₁.miss d K = m + s₁.miss d K + 1 by omega]
    | false =>
      obtain ⟨ht₄, -, -, hR₄⟩ := hQ
      have hheld₄ : g₄.cls r = .held := (ht₄.cls r id (by rw [hheld]; simp)).trans hheld
      have hg₄ := hg.trans (ht₃.trans ht₄)
      have hent₄ : Filled d (PGROUNDUP oldsz) newsz s s₄ := by
        rw [Filled, hg₄.entry, ht₃.entry]
        exact hent
      refine tr_bind (tr_cleanup (Evs.inv h₄ hI₃) hlt hc hg₄ hent₄) ?_
      rintro _ s₅ g₅ h₅ ⟨hfell, hkeep⟩
      have hI₅ := Evs.inv h₅ (Evs.inv h₄ hI₃)
      have hr₅ := hkeep r hheld₄
      have hke := kfree_eval (hI₅.held_ok hr₅) (hI₅.held_count hr₅).1
      unfold Tr
      rw [sat_eval hke]
      refine ⟨_, .single (.give hI₅ hr₅), ⟨hfell.entry, hfell.proc, hfell.dir, hfell.tab⟩, fun K hK hRR => hR₄ K hK ?_⟩
      rw [hmiss₃, ← hrs, add_comm]
      exact hRR

theorem PGROUNDUP_le (h : a ≤ b) (hb : PGSIZE ∣ b) : PGROUNDUP a ≤ b := by
  obtain ⟨n, rfl⟩ := hb
  simp only [PGROUNDUP, PGSIZE] at *
  omega

theorem PGROUNDUP_mono (h : a ≤ b) : PGROUNDUP a ≤ PGROUNDUP b :=
  PGROUNDUP_le (h.trans (le_PGROUNDUP b)) (PGROUNDUP_dvd b)

theorem next_page_le (ha : PGSIZE ∣ a) (hb : PGSIZE ∣ b) (h : a < b) : a + PGSIZE ≤ b := by
  obtain ⟨n, rfl⟩ := ha
  obtain ⟨m, rfl⟩ := hb
  simp only [PGSIZE] at *
  omega

/-- `allocuvm` when its sizes are in order: fresh pages for the whole range, or a failed `kalloc`. -/
theorem tr_allocuvm (hI : Inv L s g) (hd : s.dir d = true) (hlt : newsz < KERNBASE) (hle : oldsz ≤ newsz)
    (hc : Cleans P F N d oldsz newsz guard s)
    (hN' : ∀ v s₁ g₁, PGROUNDUP oldsz ≤ v * PGSIZE → v * PGSIZE < newsz → (s.entry d v).p = true →
      Evs L P (s, g) (s₁, g₁) → (∀ v', PGROUNDUP oldsz ≤ v' * PGSIZE → v' < v → Fresh P s₁ g g₁ d v') → N "remap") :
    Tr (Ev L P) (allocuvm L d oldsz newsz guard) s g
      (fun r s' g' =>
        (r = newsz ∧ Grows d s'.entry (fun _ => False) s s' g g' ∧
          (∀ d' v, ¬ (d' = d ∧ PGROUNDUP oldsz ≤ v * PGSIZE ∧ v * PGSIZE < newsz) → s'.entry d' v = s.entry d' v) ∧
          (∀ v, PGROUNDUP oldsz ≤ v * PGSIZE → v * PGSIZE < newsz →
            Fresh P s' g g' d v ∧ (s.entry d v).p = false ∧ s'.ptab d (v / NPTENTRIES) ≠ 0 ∧
              ∀ v', PGROUNDUP oldsz ≤ v' * PGSIZE → v' < v → (s'.entry d v').ppn ≠ (s'.entry d v).ppn) ∧
          (∀ k, (∀ v, PGROUNDUP oldsz ≤ v * PGSIZE → v * PGSIZE < newsz → v / NPTENTRIES ≠ k) →
            s'.ptab d k = s.ptab d k) ∧
          ∀ K, (∀ v, PGROUNDUP oldsz ≤ v * PGSIZE → v * PGSIZE < newsz → v / NPTENTRIES ∈ K) → ∀ m,
            (Rich (m + (PGROUNDUP newsz - PGROUNDUP oldsz) / PGSIZE + s.miss d K) s ↔ Rich (m + s'.miss d K) s')) ∨
        (r = 0 ∧ Fell d (PGROUNDUP oldsz) newsz s s' ∧
          ∀ K, (∀ v, PGROUNDUP oldsz ≤ v * PGSIZE → v * PGSIZE < newsz → v / NPTENTRIES ∈ K) →
            ¬ Rich ((PGROUNDUP newsz - PGROUNDUP oldsz) / PGSIZE + s.miss d K) s)) F N := by
  unfold allocuvm
  rw [if_neg (by omega), if_neg (by omega)]
  have hup : PGROUNDUP oldsz ≤ PGROUNDUP newsz := PGROUNDUP_mono hle
  -- the invariant of the loop, at address `a`
  let I (a : ℕ) (s' : Kern) (g' : Ghost) : Prop :=
    PGSIZE ∣ a ∧ PGROUNDUP oldsz ≤ a ∧ a ≤ PGROUNDUP newsz ∧ Grows d s'.entry (fun _ => False) s s' g g' ∧
    (∀ d' v, ¬ (d' = d ∧ PGROUNDUP oldsz ≤ v * PGSIZE ∧ v * PGSIZE < a) → s'.entry d' v = s.entry d' v) ∧
    (∀ v, PGROUNDUP oldsz ≤ v * PGSIZE → v * PGSIZE < a →
      Fresh P s' g g' d v ∧ (s.entry d v).p = false ∧ s'.ptab d (v / NPTENTRIES) ≠ 0 ∧
        ∀ v', PGROUNDUP oldsz ≤ v' * PGSIZE → v' < v → (s'.entry d v').ppn ≠ (s'.entry d v).ppn) ∧
    (∀ k, (∀ v, PGROUNDUP oldsz ≤ v * PGSIZE → v * PGSIZE < newsz → v / NPTENTRIES ≠ k) →
      s'.ptab d k = s.ptab d k) ∧
    ∀ K, (∀ v, PGROUNDUP oldsz ≤ v * PGSIZE → v * PGSIZE < newsz → v / NPTENTRIES ∈ K) → ∀ m,
      (Rich (m + (a - PGROUNDUP oldsz) / PGSIZE + s.miss d K) s ↔ Rich (m + s'.miss d K) s')
  refine tr_bind (tr_loop (Q := fun done s' g' => match done with
      | true => I (PGROUNDUP newsz) s' g'
      | false => Fell d (PGROUNDUP oldsz) newsz s s' ∧
          ∀ K, (∀ v, PGROUNDUP oldsz ≤ v * PGSIZE → v * PGSIZE < newsz → v / NPTENTRIES ∈ K) →
            ¬ Rich ((PGROUNDUP newsz - PGROUNDUP oldsz) / PGSIZE + s.miss d K) s) I ?_ ?_ ?_) ?_
  · refine ⟨PGROUNDUP_dvd _, le_rfl, hup, Tabs.refl, fun _ _ _ => rfl, fun v h1 h2 => ?_, fun _ _ => rfl,
      fun K _ m => ?_⟩
    · omega
    · rw [Nat.sub_self, Nat.zero_div]
      rfl
  · rintro a s₁ g₁ h₁ ha ⟨hdvd, hlo, hhi, hg, hout, hin, hkt, hR⟩
    have hpa := page_mul hdvd
    have h32 : a < 2 ^ 32 := (ha.trans hlt).trans (by decide)
    have hI₁ := Evs.inv h₁ hI
    have hent : Filled d (PGROUNDUP oldsz) newsz s s₁ := by
      intro d' v
      by_cases hq : d' = d ∧ PGROUNDUP oldsz ≤ v * PGSIZE ∧ v * PGSIZE < a
      · obtain ⟨hf, -, -⟩ := hin v hq.2.1 hq.2.2
        exact .inr ⟨hq.1, hq.2.1, by omega, by rw [hf.entry], hf.ppn⟩
      · exact .inl (hout d' v hq)
    have hsame : s₁.entry d (a / PGSIZE) = s.entry d (a / PGSIZE) := by
      refine hout d _ ?_
      rintro ⟨-, -, h⟩
      omega
    have hnext := next_page_le hdvd (PGROUNDUP_dvd newsz) (ha.trans_le (le_PGROUNDUP newsz))
    refine tr_bind (tr_allocPage (s := s) (g := g) hI₁ (by rw [hg.dir]; exact hd) hlt hc hg hent hdvd hlo ha
      ?_) ?_
    · intro hp
      rw [hsame] at hp
      refine hN' _ s₁ g₁ (by rw [hpa]; exact hlo) (by rw [hpa]; exact ha) hp h₁ fun v' h1 h2 => (hin v' h1 ?_).1
      rw [← hpa]
      exact mul_lt_mul_of_pos_right h2 (by decide)
    rintro ok s₂ g₂ h₂ hQ
    refine tr_pure ?_
    cases ok with
    | true =>
      obtain ⟨⟨e, hgr⟩, hfr, hp, htab, hkeep, hR'⟩ := hQ
      rw [hsame] at hp
      have hne : ∀ v, v * PGSIZE < a → ¬ (d = d ∧ v = a / PGSIZE) := by
        rintro v hv ⟨-, rfl⟩
        omega
      refine ⟨by simp [PGSIZE], (Nat.dvd_add_right hdvd).2 (dvd_refl _), by omega, hnext, ?_, ?_, ?_, ?_, ?_⟩
      · have := (hg.trans hgr).weaken (Y := fun _ => False) (fun f h => h.elim (fun h => h.elim) (fun h => h.elim))
        exact { this with entry := rfl }
      · intro d' v hq
        rw [hgr.entry, upd_ne]
        · refine hout d' v fun h => hq ⟨h.1, h.2.1, by omega⟩
        · rintro ⟨rfl, rfl⟩
          exact hq ⟨rfl, by omega, by rw [hpa]; simp [PGSIZE]⟩
      · intro v h1 h2
        by_cases hva : v * PGSIZE < a
        · obtain ⟨hf, hp', ht', hdist⟩ := hin v h1 hva
          have hkept : s₂.entry d v = s₁.entry d v := by rw [hgr.entry, upd_ne (hne v hva)]
          refine ⟨hf.grows hgr hkept id, hp', hgr.tab _ _ ht', fun v' h1' hlt => ?_⟩
          have hva' := (mul_lt_mul_of_pos_right hlt PGSIZE_pos).trans hva
          rw [hkept, hgr.entry, upd_ne (hne v' hva')]
          exact hdist v' h1' hlt
        · have hv : v = a / PGSIZE := by
            simp only [PGSIZE] at *
            omega
          subst hv
          refine ⟨⟨hfr.entry, hfr.ppn, ?_, hfr.cls, hfr.mem⟩, hp, by rw [← PDX_eq h32]; exact htab, fun v' h1' hlt he => ?_⟩
          · by_contra hnf
            exact hg.used _ hnf hfr.free
          · -- the frames of earlier pages are in use when this one is taken
            have hva' : v' * PGSIZE < a := by
              have := mul_lt_mul_of_pos_right hlt PGSIZE_pos
              omega
            have hcls := (hin v' h1' hva').1.cls
            have hfree := hfr.free
            rw [← he, hgr.entry, upd_ne (hne v' hva'), hcls] at hfree
            cases hb : P.area d v' <;> rw [hb] at hfree <;> cases hfree
      · intro k hk
        rw [hkeep, hkt k hk]
        rw [PDX_eq h32]
        exact (hk _ (by rw [hpa]; exact hlo) (by rw [hpa]; exact ha)).symm
      · intro K hK m
        have hk : PDX a ∈ K := by
          rw [PDX_eq h32]
          exact hK _ (by rw [hpa]; exact hlo) (by rw [hpa]; exact ha)
        have hdiv : (a + PGSIZE - PGROUNDUP oldsz) / PGSIZE = (a - PGROUNDUP oldsz) / PGSIZE + 1 := by
          rw [show a + PGSIZE - PGROUNDUP oldsz = a - PGROUNDUP oldsz + PGSIZE by omega, add_div_right _ (by decide)]
        rw [hdiv, ← hR' K m hk, ← hR K hK (m + 1)]
        rw [show m + ((a - PGROUNDUP oldsz) / PGSIZE + 1) = m + 1 + (a - PGROUNDUP oldsz) / PGSIZE by omega]
    | false =>
      refine ⟨hQ.1, fun K hK hRR => hQ.2 K ?_ ?_⟩
      · rw [PDX_eq h32]
        exact hK _ (by rw [hpa]; exact hlo) (by rw [hpa]; exact ha)
      · rw [← hR K hK]
        refine hRR.mono ?_
        have hd1 : (a - PGROUNDUP oldsz) / PGSIZE + 1 ≤ (PGROUNDUP newsz - PGROUNDUP oldsz) / PGSIZE := by
          rw [← add_div_right _ (by decide)]
          exact Nat.div_le_div_right (by omega)
        omega
  · rintro a s₁ g₁ h₁ ha hI'
    have haeq : a = PGROUNDUP newsz := le_antisymm hI'.2.2.1 (PGROUNDUP_le ha hI'.1)
    subst haeq
    exact hI'
  · rintro done s₁ g₁ h₁ hQ
    refine tr_pure ?_
    cases done with
    | true =>
      obtain ⟨-, -, -, hg, hout, hin, hkt, hR⟩ := hQ
      have hpg : ∀ v, v * PGSIZE < newsz ↔ v * PGSIZE < PGROUNDUP newsz := by
        intro v
        simp only [PGROUNDUP, PGSIZE]
        omega
      refine .inl ⟨rfl, hg, ?_, ?_, hkt, hR⟩
      · intro d' v hq
        rw [hpg v] at hq
        exact hout d' v hq
      · intro v h1 h2
        exact hin v h1 ((hpg v).1 h2)
    | false => exact .inr ⟨rfl, hQ⟩

end

end Xv6

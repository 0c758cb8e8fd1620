import Xv6.Proofs.KvmTrace
import Xv6.Spec.Proc

/-! What `exec` needs beside the user's pages, as chains of small steps: the flags of single entries, the fields of a process
and the vdso pages. -/

namespace Xv6

open Prog Count Relation Function

section

variable {L : Linker} {P : Perm} {s s' s'' : Kern} {g g' g'' : Ghost} {d v k m r f va i j oldsz newsz n pid : ℕ}
  {e : Pte} {p : Proc} {o : Owner} {F : Kern → Prop} {N : String → Prop} {α : Type} {guard x : Option ℕ}
  {q : ℕ → UInt8} {Q : α → Kern → Ghost → Prop}

-- unification must not count in units of bytes
attribute [local irreducible] loop PGSIZE

/-! The flags of one entry. -/

theorem setPte_setPte {e' : Pte} : (s.setPte d v e).setPte d v e' = s.setPte d v e' := by
  unfold Kern.setPte
  simp

theorem tr_changePte {fn : Pte → Pte} {msg : String} (hlt : va < 2 ^ 32)
    (hc : s.ptab d (PDX va) ≠ 0 → Change L P s d (va / PGSIZE) (fn (s.entry d (va / PGSIZE))))
    (hN : s.ptab d (PDX va) = 0 → N msg) :
    Tr (Ev L P) (changePte d va fn msg) s g (fun _ s' g' => g' = g ∧ s.ptab d (PDX va) ≠ 0 ∧
      s' = s.setPte d (va / PGSIZE) (fn (s.entry d (va / PGSIZE)))) F N := by
  unfold changePte
  refine tr_walk_false (fun htab => ?_) (fun h0 => tr_panic (hN h0))
  have htab' : s.ptab d (va / PGSIZE / NPTENTRIES) ≠ 0 := by rw [← PDX_eq hlt]; exact htab
  refine tr_loadPte htab' ?_
  exact tr_modify_end (.single (.change (hc htab) (becomes_setPte htab') rfl)) ⟨rfl, htab, rfl⟩

/-- `clearpteu` and `clearptep` of one page, as they are called together. -/
theorem tr_hide {fn : Unit → K α} (hlt : va < KERNBASE)
    (hf : P.flag d (va / PGSIZE)) (hN : s.ptab d (PDX va) = 0 → N "clearpteu")
    (h : s.ptab d (PDX va) ≠ 0 → Tr (Ev L P) (fn ())
      (s.setPte d (va / PGSIZE) { s.entry d (va / PGSIZE) with p := false, u := false }) g Q F N) :
    Tr (Ev L P) (clearpteu d va >>= fun _ => clearptep d va >>= fn) s g Q F N := by
  have h32 : va < 2 ^ 32 := hlt.trans (by decide)
  have hv := page_lt hlt
  refine tr_bind (tr_changePte h32 (fun _ => .clear hv hf (fun h => h) (fun h => by simp at h)) hN) ?_
  rintro _ s₁ g₁ - ⟨rfl, htab, rfl⟩
  have htab' : s.ptab d (va / PGSIZE / NPTENTRIES) ≠ 0 := by rw [← PDX_eq h32]; exact htab
  have hent : (s.setPte d (va / PGSIZE) { s.entry d (va / PGSIZE) with u := false }).entry d (va / PGSIZE) =
      { s.entry d (va / PGSIZE) with u := false } := by rw [entry_setPte htab', upd_same]
  refine tr_bind (tr_changePte h32 (fun _ => .clear hv hf (fun h => by simp at h) (fun h => h))
    (fun h0 => absurd h0 htab)) ?_
  rintro _ s₂ g₂ - ⟨rfl, -, rfl⟩
  rw [hent, setPte_setPte]
  exact h htab

/-! The size and the fields of a process. -/

theorem PGROUNDUP_self {a : ℕ} (h : PGSIZE ∣ a) : PGROUNDUP a = a :=
  le_antisymm (PGROUNDUP_le le_rfl h) (le_PGROUNDUP a)

theorem tr_getProc {f : Proc → K α}
    (h : Tr (Ev L P) (f (s.proc i)) s g Q F N) : Tr (Ev L P) (getProc i >>= f) s g Q F N := h

theorem Ev.setProc (hk : p.kstack = (s.proc i).kstack) : Ev L P (s, g) (s.setProc i p, g) := by
  refine .procs fun j => ?_
  rcases eq_or_ne j i with rfl | hj
  · rw [update_self, hk]
  · rw [update_of_ne hj]

theorem tr_setProc_then {f : Unit → K α}
    (hk : p.kstack = (s.proc i).kstack) (h : Tr (Ev L P) (f ()) (s.setProc i p) g Q F N) :
    Tr (Ev L P) (setProc i p >>= f) s g Q F N :=
  tr_modify (.single (.setProc hk)) h

theorem PGROUNDDOWN_le (a : ℕ) : PGROUNDDOWN a ≤ a := Nat.div_mul_le_self a PGSIZE

theorem setProc_self : s.setProc i (s.proc i) = s := by
  unfold Kern.setProc
  rw [update_eq_self]

theorem allocuvm_high (h : newsz ≥ KERNBASE) : allocuvm L d oldsz newsz guard = pure 0 := by
  unfold allocuvm
  rw [if_pos h]

theorem allocuvm_back (h : ¬ newsz ≥ KERNBASE) (h' : newsz < oldsz) :
    allocuvm L d oldsz newsz guard = pure oldsz := by
  unfold allocuvm
  rw [if_neg h, if_pos h']

theorem deallocuvm_none (h : newsz ≥ oldsz) : deallocuvm L d oldsz newsz guard = pure oldsz := by
  unfold deallocuvm
  rw [if_pos h]

/-! A kernel frame changes hands. -/

theorem Cls.weight_own (ho : o ≠ .free) : (Cls.own o).weight = 1 := by
  cases o <;> first | rfl | exact absurd rfl ho

/-- A frame in the hands of the caller is put where `o` says. -/
theorem Ev.hand (hI : Inv L s g) (hr : g.cls r = .held) (ho : o ≠ .free) (he : s'.entry = s.entry)
    (href : s'.refCount = s.refCount) (hother : ∀ o' f, o' ≠ o → (s'.holds o' f ↔ s.holds o' f))
    (hthis : ∀ f, s'.holds o f ↔ s.holds o f ∨ f = r)
    (ht : ∀ d k, s'.ptab d k ≠ 0 → s'.dir d = true ∧ k < NPDENTRIES) (hn : s'.freelist.Nodup ∧ s'.pipes.Nodup)
    (hm : s'.mem = s.mem) (hd : ∀ d, s.dir d = true → s'.dir d = true) :
    Ev L P (s, g) (s', g.set r (.own o)) := by
  refine .pass_of hI (hI.held_ok hr) (.inr (.inl hr)) (by simp) he ?_ (fun o' f _ h2 => ?_)
    (fun o' f h => ?_) ht hn (fun _ _ => by rw [hm]) (fun d h => .inl (hd d h))
  · rw [Cls.weight_own ho, href, ← (hI.held_count hr).1, update_eq_self]
  · exact hother o' f fun h => h2 (by rw [h])
  · obtain rfl : o' = o := by
      rw [hr] at h
      rcases h with h | h <;> cases h
      rfl
    have hnr : ¬ s.holds o' r := fun h => by
      rw [hI.holds, hr] at h
      simp at h
    rw [hthis]
    constructor
    · rintro (h | rfl)
      · exact .inl ⟨fun hf => hnr (hf ▸ h), h⟩
      · exact .inr ⟨rfl, rfl⟩
    · rintro (⟨-, h⟩ | ⟨h, -⟩)
      · exact .inl h
      · exact .inr h

/-! The vdso pages. -/

/-- Directory `d` may have got vdso pages, and the shared ones may have been allocated for that. -/
structure Vdso (d : ℕ) (s s' : Kern) (g g' : Ghost) : Prop where
  entry : ∀ d' v, s'.entry d' v = s.entry d' v ∨ (d' = d ∧ VDSOTEXT / PGSIZE ≤ v ∧ v < NUPG ∧
    (s.entry d v).p = false ∧ ∃ f, f ≠ 0 ∧ s'.entry d v = { p := true, u := true, ppn := f })
  proc : s'.proc = s.proc
  dir : s'.dir = s.dir
  used : ∀ f, g.cls f ≠ .own .free → g'.cls f ≠ .own .free
  cls : ∀ f, g.cls f ≠ .own .free → g'.cls f = g.cls f
  mem : ∀ f, g.cls f ≠ .own .free → s'.mem f = s.mem f

theorem Tabs.vdso (h : Tabs d s s' g g') : Vdso d s s' g g' where
  entry d' v := .inl (by rw [h.entry])
  proc := h.proc
  dir := h.dir
  used := h.used
  cls f hf := h.cls f id hf
  mem := h.mem

theorem Vdso.refl : Vdso d s s g g := Tabs.refl.vdso

theorem Vdso.trans (h : Vdso d s s' g g') (h' : Vdso d s' s'' g' g'') : Vdso d s s'' g g'' where
  entry d' v := by
    rcases h'.entry d' v with h1 | ⟨hd, h1, h2, h3, h4⟩
    · rcases h.entry d' v with h2 | ⟨rfl, h2, h3, h4, f, h5, h6⟩
      · exact .inl (h1.trans h2)
      · exact .inr ⟨rfl, h2, h3, h4, f, h5, h1.trans h6⟩
    · rcases h.entry d v with h5 | ⟨-, -, -, -, f, -, h5⟩
      · exact .inr ⟨hd, h1, h2, h5 ▸ h3, h4⟩
      · rw [h5] at h3
        simp at h3
  proc := h'.proc.trans h.proc
  dir := h'.dir.trans h.dir
  used f hf := h'.used f (h.used f hf)
  cls f hf := (h'.cls f (h.used f hf)).trans (h.cls f hf)
  mem f hf := (h'.mem f (h.used f hf)).trans (h.mem f hf)

/-- One more page of `d`, mapped read-only for the user. -/
theorem Grows.vdso (h : Grows d (upd s.entry d v { p := true, u := true, ppn := f }) (fun _ => False) s s' g g')
    (hlo : VDSOTEXT / PGSIZE ≤ v) (hv : v < NUPG) (hp : (s.entry d v).p = false)
    (hf : f ≠ 0) : Vdso d s s' g g' where
  entry d' v' := by
    rw [h.entry]
    by_cases hq : d' = d ∧ v' = v
    · obtain ⟨rfl, rfl⟩ := hq
      exact .inr ⟨rfl, hlo, hv, hp, f, hf, upd_same⟩
    · exact .inl (upd_ne hq)
  proc := h.proc
  dir := h.dir
  used := h.used
  cls f hf := h.cls f id hf
  mem := h.mem

/-- A step of `allocvdso`, for the vdso page at `va`. -/
def VdsoStep (d va : ℕ) (s : Kern) (g : Ghost) (s' : Kern) (g' : Ghost) : Prop :=
  Vdso d s s' g g' ∧ ∀ v, v ≠ va / PGSIZE → s'.entry d v = s.entry d v

theorem vdso_page (hn : n ≤ 2) : PGSIZE ∣ VDSOTEXT + n * PGSIZE ∧ VDSOTEXT + n * PGSIZE < KERNBASE ∧
    (VDSOTEXT + n * PGSIZE) / PGSIZE ≠ 0 ∧ VDSOTEXT / PGSIZE ≤ (VDSOTEXT + n * PGSIZE) / PGSIZE ∧
    (VDSOTEXT + n * PGSIZE) / PGSIZE < NUPG := by
  obtain rfl | rfl | rfl : n = 0 ∨ n = 1 ∨ n = 2 := by omega
  all_goals decide +kernel

theorem vdso_pages_ne : (VDSOTEXT + VDSO_GETPID * PGSIZE) / PGSIZE ≠ VDSOTEXT / PGSIZE ∧
    (VDSOTEXT + VDSO_GETTICKS * PGSIZE) / PGSIZE ≠ (VDSOTEXT + VDSO_GETPID * PGSIZE) / PGSIZE ∧
    (VDSOTEXT + VDSO_GETTICKS * PGSIZE) / PGSIZE ≠ VDSOTEXT / PGSIZE := by
  decide +kernel

attribute [local irreducible] VDSOTEXT mapshare mappages

/-- `allocvdso` maps the shared page `f` at the `n`-th vdso address. -/
theorem tr_mapVdso (hn : n ≤ 2) (hI : Inv L s g) (hd : s.dir d = true)
    (hT : ∀ v, v < NUPG → P.touch d v) (hf : g.cls f = .own .vdso)
    (hN : (s.entry d ((VDSOTEXT + n * PGSIZE) / PGSIZE)).p = true → N "remap") :
    Tr (Ev L P) (mapshare d (VDSOTEXT + n * PGSIZE) { u := true, ppn := f }) s g
      (fun _ s' g' => VdsoStep d (VDSOTEXT + n * PGSIZE) s g s' g') F N := by
  obtain ⟨h1, h2, h3, h4, h5⟩ := vdso_page hn
  refine tr_post (tr_vshare hI hd h1 h2 h3 (hT _ h5) hf hN) ?_
  rintro ok s' g' - hQ
  cases ok with
  | true =>
    refine ⟨hQ.1.vdso h4 h5 hQ.2 (vdso_ne_zero (b := (s, g)) hI hf), fun v hv => ?_⟩
    rw [hQ.1.entry, upd_ne_page hv]
  | false => exact ⟨hQ.vdso, fun v _ => by rw [hQ.entry]⟩

/-- The shared page `f` of the vdso is there, or `kalloc` has failed. -/
def VdsoPage (d : ℕ) (s : Kern) (g : Ghost) (x : Option ℕ) (s' : Kern) (g' : Ghost) : Prop :=
  Vdso d s s' g g' ∧ s'.entry = s.entry ∧ ∀ f, x = some f → g'.cls f = .own .vdso

/-- The page in the hands of the caller becomes one of the two shared ones. -/
theorem Ev.vdso (hI : Inv L s g) (hr : g.cls r = .held)
    (hs : (s.vdsoText = 0 ∧ s' = { s with vdsoText := r }) ∨ (s.vdsoTicks = 0 ∧ s' = { s with vdsoTicks := r })) :
    Ev L P (s, g) (s', g.set r (.own .vdso)) := by
  have hr0 := hI.held_ne_zero hr
  rcases hs with ⟨h0, rfl⟩ | ⟨h0, rfl⟩
  · refine .hand hI hr (by simp) rfl rfl (fun o' f ho => ?_) (fun f => ?_) hI.tab hI.nodup rfl fun _ h => h
    · cases o' <;> first | rfl | exact absurd rfl ho
    · simp only [Kern.holds, h0]
      grind
  · refine .hand hI hr (by simp) rfl rfl (fun o' f ho => ?_) (fun f => ?_) hI.tab hI.nodup rfl fun _ h => h
    · cases o' <;> first | rfl | exact absurd rfl ho
    · simp only [Kern.holds, h0]
      grind

/-- `kalloc` gave frame `r`, it was filled with `q`, and it is one of the shared pages now. -/
theorem VdsoPage.new (ht : Tabs d s s' g g') (hfree : g.cls r = .own .free)
    (hs : s'' = { s' with mem := update s'.mem r q, vdsoText := r } ∨
      s'' = { s' with mem := update s'.mem r q, vdsoTicks := r }) :
    VdsoPage d s g (some r) s'' (g'.set r (.own .vdso)) := by
  have hne : ∀ f, g.cls f ≠ .own .free → f ≠ r := fun f hf h => hf (h ▸ hfree)
  have hcls : ∀ f, g.cls f ≠ .own .free → (g'.set r (.own .vdso)).cls f = g.cls f := fun f hf => by
    rw [Ghost.set_ne _ _ (hne f hf), ht.cls f id hf]
  have hmem : ∀ f, g.cls f ≠ .own .free → update s'.mem r q f = s.mem f := fun f hf => by
    rw [update_of_ne (hne f hf), ht.mem f hf]
  have hu : ∀ f, g.cls f ≠ .own .free → (g'.set r (.own .vdso)).cls f ≠ .own .free := fun f hf => by
    rw [hcls f hf]
    exact hf
  refine ⟨?_, ?_, ?_⟩
  · rcases hs with rfl | rfl <;> exact ⟨ht.vdso.entry, ht.proc, ht.dir, hu, hcls, hmem⟩
  · rcases hs with rfl | rfl <;> exact ht.entry
  · rintro f ⟨⟩
    exact Ghost.set_self _ _ _

theorem tr_vdsoTextPage (hI : Inv L s g) : Tr (Ev L P) (vdsoTextPage L) s g (VdsoPage d s g) F N := by
  unfold vdsoTextPage vdsoPage
  refine tr_get ?_
  by_cases h0 : s.vdsoText ≠ 0
  · rw [if_pos h0]
    refine tr_pure ⟨.refl, rfl, ?_⟩
    rintro f ⟨⟩
    exact (hI.holds .vdso _).1 ⟨.inl rfl, h0⟩
  rw [if_neg h0]
  rw [not_not] at h0
  refine tr_bind (tr_kalloc (d := d) hI) ?_
  rintro x s₁ g₁ h₁ ⟨ht, hpt, hx⟩
  cases x with
  | none => exact tr_pure ⟨ht.vdso, ht.entry, by simp⟩
  | some r =>
    have hev := Ev.fill (L := L) (P := P) (s := s₁) hx.1 (Bytes.overlay (s₁.mem r) 0 L.vdso)
    refine tr_modify (.single hev) ?_
    refine tr_modify (.single (.vdso (hev.inv (Evs.inv h₁ hI)) hx.1 (.inl ⟨ht.vdsoText.trans h0, rfl⟩))) (tr_pure ?_)
    exact .new ht hx.2.1 (.inl rfl)

theorem tr_vdsoTicksPage (hI : Inv L s g) : Tr (Ev L P) vdsoTicksPage s g (VdsoPage d s g) F N := by
  unfold vdsoTicksPage vdsoPage
  refine tr_get ?_
  by_cases h0 : s.vdsoTicks ≠ 0
  · rw [if_pos h0]
    refine tr_pure ⟨.refl, rfl, ?_⟩
    rintro f ⟨⟩
    exact (hI.holds .vdso _).1 ⟨.inr rfl, h0⟩
  rw [if_neg h0]
  rw [not_not] at h0
  refine tr_bind (tr_kalloc (d := d) hI) ?_
  rintro x s₁ g₁ h₁ ⟨ht, hpt, hx⟩
  cases x with
  | none => exact tr_pure ⟨ht.vdso, ht.entry, by simp⟩
  | some r =>
    have hev := Ev.fill (L := L) (P := P) (s := s₁) hx.1 (fun _ => 0)
    refine tr_modify (.single hev) ?_
    refine tr_modify (.single (.vdso (hev.inv (Evs.inv h₁ hI)) hx.1 (.inr ⟨ht.vdsoTicks.trans h0, rfl⟩))) (tr_pure ?_)
    exact .new ht hx.2.1 (.inr rfl)

/-- Mapping after the page is there. -/
theorem VdsoStep.of_page (h : VdsoPage d s g x s' g') (h' : VdsoStep d va s' g' s'' g'') :
    VdsoStep d va s g s'' g'' :=
  ⟨h.1.trans h'.1, fun v hv => by rw [h'.2 v hv, h.2.1]⟩

theorem VdsoPage.step (h : VdsoPage d s g x s' g') : VdsoStep d va s g s' g' :=
  .of_page h ⟨.refl, fun _ _ => rfl⟩

theorem tr_mapVdsoText (hI : Inv L s g) (hd : s.dir d = true) (hT : ∀ v, v < NUPG → P.touch d v)
    (hN0 : ¬ L.vdso.length ≤ PGSIZE → N "vdso text larger than a page")
    (hN : (s.entry d (VDSOTEXT / PGSIZE)).p = true → N "remap") :
    Tr (Ev L P) (mapVdsoText L d) s g (fun _ s' g' => VdsoStep d VDSOTEXT s g s' g') F N := by
  unfold mapVdsoText
  refine tr_bind (tr_vdsoTextPage (d := d) hI) ?_
  intro x s₁ g₁ h₁ hpage
  cases x with
  | none => exact tr_pure hpage.step
  | some f =>
    refine tr_check (fun _ => ?_) hN0
    have hd₁ : s₁.dir d = true := by rw [hpage.1.dir]; exact hd
    have hN₁ : (s₁.entry d ((VDSOTEXT + 0 * PGSIZE) / PGSIZE)).p = true → N "remap" := by
      rw [hpage.2.1, Nat.zero_mul]
      exact hN
    have hmap := tr_mapVdso (F := F) (Nat.zero_le 2) (Evs.inv h₁ hI) hd₁ hT (hpage.2.2 f rfl) hN₁
    rw [Nat.zero_mul, Nat.add_zero] at hmap
    exact tr_post hmap fun _ _ _ _ hstep => .of_page hpage hstep

theorem tr_mapVdsoTicks (hI : Inv L s g) (hd : s.dir d = true) (hT : ∀ v, v < NUPG → P.touch d v)
    (hN : (s.entry d ((VDSOTEXT + VDSO_GETTICKS * PGSIZE) / PGSIZE)).p = true → N "remap") :
    Tr (Ev L P) (mapVdsoTicks d) s g (fun _ s' g' => VdsoStep d (VDSOTEXT + VDSO_GETTICKS * PGSIZE) s g s' g') F N := by
  unfold mapVdsoTicks
  refine tr_bind (tr_vdsoTicksPage (d := d) hI) ?_
  intro x s₁ g₁ h₁ hpage
  cases x with
  | none => exact tr_pure hpage.step
  | some f =>
    have hd₁ : s₁.dir d = true := by rw [hpage.1.dir]; exact hd
    refine tr_post (tr_mapVdso (n := VDSO_GETTICKS) (by decide) (Evs.inv h₁ hI) hd₁ hT (hpage.2.2 f rfl)
      (by rw [hpage.2.1]; exact hN)) ?_
    exact fun _ _ _ _ hstep => .of_page hpage hstep

/-- A page taken by `kalloc` and filled with `q`. -/
theorem Tabs.fill (h : Tabs d s s' g g') (hfree : g.cls r = .own .free) :
    Tabs d s { s' with mem := update s'.mem r q } g g' :=
  { h with
    mem := fun f hf => by
      have hne : f ≠ r := fun he => hf (he ▸ hfree)
      exact (update_of_ne hne _ _).trans (h.mem f hf) }

theorem tr_mapVdsoPid (hI : Inv L s g) (hd : s.dir d = true) (hT : ∀ v, v < NUPG → P.touch d v)
    (hN : (s.entry d ((VDSOTEXT + VDSO_GETPID * PGSIZE) / PGSIZE)).p = true → N "remap") :
    Tr (Ev L P) (mapVdsoPid d pid) s g (fun _ s' g' => VdsoStep d (VDSOTEXT + VDSO_GETPID * PGSIZE) s g s' g') F N := by
  obtain ⟨h1, h2, h3, h4, h5⟩ := vdso_page (n := VDSO_GETPID) (by decide)
  unfold mapVdsoPid
  refine tr_bind (tr_kalloc (d := d) hI) ?_
  rintro x s₁ g₁ h₁ ⟨ht, hpt, hx⟩
  cases x with
  | none => exact tr_pure ⟨ht.vdso, fun v _ => by rw [ht.entry]⟩
  | some r =>
    have hh := hx.1
    have hfree := hx.2.1
    have hev := Ev.fill (L := L) (P := P) (s := s₁) hh (fun _ => 0)
    have hev' := Ev.fill (L := L) (P := P) (s := { s₁ with mem := update s₁.mem r (fun _ => 0) }) hh
      (Bytes.overlay (update s₁.mem r (fun _ => 0) r) 0 (Bytes.le 4 pid))
    refine tr_modify (.single hev) (tr_modify (.single hev') ?_)
    have ht' := (ht.fill (q := fun _ => 0) hfree).fill
      (q := Bytes.overlay (update s₁.mem r (fun _ => 0) r) 0 (Bytes.le 4 pid)) hfree
    have hI₂ := hev'.inv (hev.inv (Evs.inv h₁ hI))
    refine tr_post (tr_map hI₂ (by rw [ht'.dir]; exact hd) h1 h2 (hT _ h5) hh rfl (by rw [ht'.entry]; exact hN)) ?_
    rintro ok s₂ g₂ - hQ
    cases ok with
    | true =>
      have hgrow := (ht'.trans hQ.1).weaken (Y := fun _ => False) (fun f hf => .inr (hf.elim (fun h => h.elim) fun h => h ▸ hfree))
      have hp := hQ.2.2.1
      rw [ht'.entry] at hgrow hp
      refine ⟨hgrow.vdso h4 h5 hp ((Evs.inv h₁ hI).held_ne_zero hh), fun v hv => ?_⟩
      rw [hgrow.entry, upd_ne_page hv]
    | false =>
      have hgrow := ht'.comp hQ.1
      rw [ht'.entry] at hgrow
      exact ⟨Tabs.vdso hgrow, fun v _ => by rw [hgrow.entry]⟩

theorem tr_allocvdso (hI : Inv L s g) (hd : s.dir d = true) (hT : ∀ v, v < NUPG → P.touch d v)
    (hN0 : ¬ L.vdso.length ≤ PGSIZE → N "vdso text larger than a page")
    (hN : ∀ v, VDSOTEXT / PGSIZE ≤ v → v < NUPG → (s.entry d v).p = true → N "remap") :
    Tr (Ev L P) (allocvdso L d pid) s g (fun _ s' g' => Vdso d s s' g g') F N := by
  obtain ⟨-, -, -, h0, h0'⟩ := vdso_page (n := 0) (by decide)
  obtain ⟨-, -, -, h1, h1'⟩ := vdso_page (n := VDSO_GETTICKS) (by decide)
  obtain ⟨-, -, -, h2, h2'⟩ := vdso_page (n := VDSO_GETPID) (by decide)
  obtain ⟨hne, hne', hne''⟩ := vdso_pages_ne
  rw [Nat.zero_mul, Nat.add_zero] at h0'
  unfold allocvdso
  refine tr_bind (tr_mapVdsoText hI hd hT hN0 (hN _ le_rfl h0')) ?_
  rintro ok s₁ g₁ h₁ ⟨hV, hother⟩
  have hI₁ := Evs.inv h₁ hI
  cases ok with
  | false => exact tr_pure hV
  | true =>
    have hd₁ : s₁.dir d = true := by rw [hV.dir]; exact hd
    refine tr_bind (tr_mapVdsoPid hI₁ hd₁ hT (by rw [hother _ hne]; exact hN _ h2 h2')) ?_
    rintro ok s₂ g₂ h₂ ⟨hV₂, hother₂⟩
    cases ok with
    | false => exact tr_pure (hV.trans hV₂)
    | true =>
      have hd₂ : s₂.dir d = true := by rw [hV₂.dir]; exact hd₁
      refine tr_post (tr_mapVdsoTicks (Evs.inv h₂ hI₁) hd₂ hT
        (by rw [hother₂ _ hne', hother _ hne'']; exact hN _ h1 h1')) ?_
      rintro ok s₃ g₃ - ⟨hV₃, -⟩
      exact (hV.trans hV₂).trans hV₃

end

end Xv6

import Xv6.Proofs.ExecTrace

/-! `exec` as a chain of small steps: the guard page, the stack and the arguments on it. -/

namespace Xv6

open Prog Count Relation Bytes Nat
open Finset (mem_union_left mem_insert mem_singleton mem_union mem_image mem_filter)

section

variable {L : Linker} {P : Perm} {s s' s'' t s₁ s₂ : Kern} {g g' g'' g₁ : Ghost}
  {d v k m r f va sz va₀ a b n hi sp : ℕ} {e : Pte} {F : Kern → Prop} {N : String → Prop} {B : String → Kern → Prop}
  {img : ℕ → UInt8} {ip : Readi} {elf : Elfhdr} {arg : List UInt8} {argv : List (List UInt8)} {as : List ℕ}

attribute [local irreducible] loop PGSIZE

/-- Where `exec` puts the guard page above an image of `sz` bytes, and the top of the stack. -/
def guardOf (sz : ℕ) : ℕ := PGROUNDUP sz + MAX_STACK + PGSIZE
def topOf (sz : ℕ) : ℕ := guardOf sz + 2 * PGSIZE

theorem guardOf_dvd (sz : ℕ) : PGSIZE ∣ guardOf sz := by
  refine (Nat.dvd_add_right ((Nat.dvd_add_right (PGROUNDUP_dvd sz)).2 ?_)).2 dvd_rfl
  simp [MAX_STACK, PGSIZE]

theorem le_guardOf (sz : ℕ) : sz < guardOf sz := by
  have := le_PGROUNDUP sz
  have := PGSIZE_pos
  unfold guardOf
  omega

/-- The two pages of `[guardOf sz, topOf sz)`. -/
theorem guard_or_stack (h1 : guardOf sz ≤ v * PGSIZE) (h2 : v * PGSIZE < topOf sz) :
    v * PGSIZE = guardOf sz ∨ v * PGSIZE = guardOf sz + PGSIZE := by
  obtain ⟨c, hc⟩ := guardOf_dvd sz
  unfold topOf at h2
  simp only [PGSIZE] at *
  omega

/-- The page tables for an image of `sz` bytes with those for the stack. -/
def stackTabs (sz : ℕ) : Finset ℕ :=
  imageTabs sz ∪ {guardOf sz / PGSIZE / NPTENTRIES, (guardOf sz / PGSIZE + 1) / NPTENTRIES}

/-- The frames for an image of `sz` bytes with those for the stack. -/
def stackCost (sz : ℕ) : ℕ := 1 + (PGROUNDUP sz / PGSIZE + 2) + (stackTabs sz).card

theorem mem_stackTabs (hsz : sz < KERNBASE)
    (h : v * PGSIZE < sz ∨ (guardOf sz ≤ v * PGSIZE ∧ v * PGSIZE < topOf sz)) : v / NPTENTRIES ∈ stackTabs sz := by
  have hpos := PGSIZE_pos
  rcases h with h | ⟨h1, h2⟩
  · exact mem_union_left _ (mem_imageTabs hsz h)
  · refine Finset.mem_union_right _ ?_
    rw [mem_insert, mem_singleton]
    rcases guard_or_stack h1 h2 with h | h
    · rw [← h, Nat.mul_div_cancel _ hpos]
      exact .inl rfl
    · have hv : v = guardOf sz / PGSIZE + 1 := by
        refine Nat.eq_of_mul_eq_mul_right hpos ?_
        rw [h, add_mul, one_mul, page_mul (guardOf_dvd sz)]
      rw [← hv]
      exact .inr rfl

theorem kernTabs_subset_stackTabs (sz : ℕ) : kernTabs ⊆ stackTabs sz :=
  fun _ h => mem_union_left _ (mem_union_left _ h)

/-- `d` holds an image of `sz` bytes, the guard page and a page of stack. -/
structure Imaged (L : Linker) (d sz : ℕ) (s s' : Kern) : Prop extends Made L d s s' where
  page : ∀ v, v * PGSIZE < sz → s'.entry d v = imagePte v (s'.entry d v).ppn ∧ (s'.entry d v).ppn ≠ 0
  guard : ∀ v, v * PGSIZE = guardOf sz → s'.entry d v = { w := true, ppn := (s'.entry d v).ppn } ∧ (s'.entry d v).ppn ≠ 0
  stack : ∀ v, v * PGSIZE = guardOf sz + PGSIZE →
    s'.entry d v = { p := true, w := true, u := true, ppn := (s'.entry d v).ppn } ∧ (s'.entry d v).ppn ≠ 0
  empty : ∀ v, v < NUPG → sz ≤ v * PGSIZE → v * PGSIZE ≠ guardOf sz → v * PGSIZE ≠ guardOf sz + PGSIZE →
    s'.entry d v = {}
  tabs : ∀ k, s'.ptab d k ≠ 0 → k ∈ stackTabs sz
  cost : ∀ K, kernTabs ⊆ K → (∀ v, v * PGSIZE < sz ∨ (guardOf sz ≤ v * PGSIZE ∧ v * PGSIZE < topOf sz) →
    v / NPTENTRIES ∈ K) → ∀ m, (Rich (m + 1 + (PGROUNDUP sz / PGSIZE + 2) + K.card) s ↔ Rich (m + s'.miss d K) s')

theorem Imaged.inked (h : Imaged L d sz s s') (hi : Inked d s' s'') : Imaged L d sz s s'' := by
  have hm := h.toMade.inked hi
  obtain ⟨m, rfl⟩ := hi.eq_with
  exact ⟨hm, h.page, h.guard, h.stack, h.empty, h.tabs, h.cost⟩

theorem Laid.imaged (hl : Laid L d sz s s₁) (hm : Made L d s s₂)
    (hp : Paged d (guardOf sz) (topOf sz) s₁ s₂) (hlt : topOf sz < KERNBASE) (hv : va₀ * PGSIZE = guardOf sz) :
    Imaged L d sz s (s₂.setPte d va₀ { s₂.entry d va₀ with p := false, u := false }) := by
  have hpos := PGSIZE_pos
  have htop : guardOf sz + PGSIZE < topOf sz := by unfold topOf; omega
  have hgt := le_guardOf sz
  have hsz : sz < KERNBASE := by omega
  obtain ⟨he, hne⟩ := hp.page va₀ hv.ge (by omega)
  have htab : s₂.ptab d (va₀ / NPTENTRIES) ≠ 0 := tab_of_w (by rw [he])
  have hpn : ∀ v, v * PGSIZE ≠ guardOf sz → v ≠ va₀ := by
    rintro v h rfl
    exact h hv
  refine ⟨hm.setPte (lt_NUPG (by omega)) htab ⟨by rw [he], hne⟩, fun v h => ?_, fun v h => ?_, fun v h => ?_,
    fun v hv' h1 h2 h3 => ?_, fun k hk => ?_, fun K hK hv' m => ?_⟩
  · rw [entry_setPte htab, upd_ne_page (hpn v (by omega)), hp.other d v (by omega)]
    exact hl.page v h
  · obtain rfl : v = va₀ := eq_of_mul_eq_mul_right hpos (h.trans hv.symm)
    rw [entry_setPte htab, upd_same, he]
    exact ⟨rfl, hne⟩
  · rw [entry_setPte htab, upd_ne_page (hpn v (by omega))]
    exact hp.page v (by omega) (by omega)
  · rw [entry_setPte htab, upd_ne_page (hpn v h2), hp.other d v]
    · exact hl.empty v hv' h1
    · rintro ⟨-, h4, h5⟩
      rcases guard_or_stack h4 h5 with h | h
      · exact h2 h
      · exact h3 h
  · by_cases hin : ∃ v, guardOf sz ≤ v * PGSIZE ∧ v * PGSIZE < topOf sz ∧ v / NPTENTRIES = k
    · obtain ⟨v, h1, h2, rfl⟩ := hin
      exact mem_stackTabs hsz (.inr ⟨h1, h2⟩)
    · refine mem_union_left _ (hl.tabs k ?_)
      rw [← hp.tab k fun v h1 h2 h3 => hin ⟨v, h1, h2, h3⟩]
      exact hk
  · have h1 : PGROUNDUP (topOf sz) = topOf sz :=
      PGROUNDUP_self ((Nat.dvd_add_right (guardOf_dvd sz)).2 (Nat.dvd_mul_left _ _))
    have h2 : (topOf sz - guardOf sz) / PGSIZE = 2 := by
      rw [topOf, Nat.add_sub_cancel_left, Nat.mul_div_cancel _ hpos]
    have hc := hp.cost K (fun v h h' => hv' v (.inr ⟨h, h'⟩)) m
    rw [h1, h2] at hc
    have hl' := hl.cost K hK (fun v h => hv' v (.inl h)) (m + 2)
    have hsum : m + 1 + (PGROUNDUP sz / PGSIZE + 2) + K.card = m + 2 + 1 + PGROUNDUP sz / PGSIZE + K.card := by omega
    rw [hsum]
    exact hl'.trans hc

/-! Which addresses the new page table gives to the user, and for which it has page tables. -/

theorem topOf_eq (sz : ℕ) : topOf sz = guardOf sz + PGSIZE + PGSIZE := by
  unfold topOf
  omega

/-- The page of an address. -/
theorem page_eq (hb : PGSIZE ∣ b) (h1 : b ≤ a) (h2 : a < b + PGSIZE) : a / PGSIZE * PGSIZE = b := by
  obtain ⟨c, rfl⟩ := hb
  simp only [PGSIZE] at *
  omega

theorem Imaged.usable_stack (h : Imaged L d sz s t) (h1 : guardOf sz + PGSIZE ≤ a) (h2 : a < topOf sz) :
    t.usable d a = true := by
  have hpa := page_eq ((Nat.dvd_add_right (guardOf_dvd sz)).2 dvd_rfl) h1 (by rw [← topOf_eq]; exact h2)
  unfold Kern.usable
  rw [(h.stack _ hpa).1]
  rfl

theorem Imaged.backed_stack (h : Imaged L d sz s t) (h1 : guardOf sz + PGSIZE ≤ a) (h2 : a + n ≤ topOf sz) :
    t.Backed d a n := by
  intro i hi
  have hpa := page_eq ((Nat.dvd_add_right (guardOf_dvd sz)).2 dvd_rfl) (h1.trans (Nat.le_add_right a i))
    (by rw [← topOf_eq]; omega)
  exact (h.stack _ hpa).2

theorem Imaged.not_usable_guard (h : Imaged L d sz s t) (h1 : guardOf sz ≤ a) (h2 : a < guardOf sz + PGSIZE) :
    t.usable d a = false := by
  unfold Kern.usable
  rw [(h.guard _ (page_eq (guardOf_dvd sz) h1 h2)).1]
  rfl

theorem Made.not_usable_kern (h : Made L d s t) (h1 : KERNBASE ≤ a) : t.usable d a = false := by
  have hv : NUPG ≤ a / PGSIZE := by
    simp only [NUPG, PGSIZE, KERNBASE] at *
    omega
  unfold Kern.usable
  rw [h.kern _ hv, (kentry_flags L _).1, Bool.and_false]

/-- Below the stack there are page tables everywhere. -/
theorem Imaged.tab_below (h : Imaged L d sz s t) (hpos : 0 < sz) (hlt : topOf sz < KERNBASE) (ha : a < topOf sz) :
    t.ptab d (PDX a) ≠ 0 := by
  have hpg := PGSIZE_pos
  have h32 : KERNBASE < 2 ^ 32 := by simp [KERNBASE]
  have hguard : t.ptab d (guardOf sz / PGSIZE / NPTENTRIES) ≠ 0 :=
    tab_of_w (by rw [(h.guard _ (page_mul (guardOf_dvd sz))).1])
  rw [PDX_eq (by omega)]
  by_cases hlo : a < PGROUNDUP sz
  · exact tab_of_w (by rw [(h.page _ (page_of_lt_PGROUNDUP hlo)).1]; rfl)
  by_cases hhi : guardOf sz + PGSIZE ≤ a
  · refine tab_of_w ?_
    rw [(h.stack _ (page_eq ((Nat.dvd_add_right (guardOf_dvd sz)).2 dvd_rfl) hhi (by rw [← topOf_eq]; exact ha))).1]
  -- the gap is shorter than what one page table maps
  have hlast : t.ptab d ((PGROUNDUP sz - 1) / PGSIZE / NPTENTRIES) ≠ 0 := by
    have hup := le_PGROUNDUP sz
    exact tab_of_w (by rw [(h.page _ (page_of_lt_PGROUNDUP (by omega))).1]; rfl)
  have hor : a / PGSIZE / NPTENTRIES = (PGROUNDUP sz - 1) / PGSIZE / NPTENTRIES ∨
      a / PGSIZE / NPTENTRIES = guardOf sz / PGSIZE / NPTENTRIES := by
    have hup := le_PGROUNDUP sz
    obtain ⟨c, hc⟩ := PGROUNDUP_dvd sz
    simp only [guardOf, MAX_STACK, PGSIZE, NPTENTRIES] at *
    omega
  rcases hor with he | he
  · rw [he]
    exact hlast
  · rw [he]
    exact hguard

/-- The kernel's page tables, and the gap between them. -/
theorem Imaged.tab_kern (h : Imaged L d sz s t) (hlt : topOf sz < KERNBASE) (h1 : KERNBASE ≤ a) (h2 : a < 2 ^ 32) :
    t.ptab d (PDX a) = 0 ↔ KERNBASE + PHYSTOP ≤ a ∧ a < DEVSPACE := by
  have hmem : PDX a ∈ kernTabs ↔ ¬ (KERNBASE + PHYSTOP ≤ a ∧ a < DEVSPACE) := by
    simp only [kernTabs, mem_union, Finset.mem_Ico, PDX, KERNBASE, PHYSTOP, DEVSPACE, PTSIZE, NPDENTRIES] at *
    omega
  constructor
  · intro h0
    by_contra hn
    exact kern_tab h.kern (hmem.2 hn) h0
  · intro hgap
    by_contra h0
    -- the page tables of the image are below
    have hlow : ∀ v, v < NUPG → v / NPTENTRIES ≠ PDX a := by
      intro v hv
      simp only [PDX, NUPG, KERNBASE, PGSIZE, PTSIZE, NPTENTRIES, NPDENTRIES] at *
      omega
    have hg : guardOf sz + PGSIZE < KERNBASE := by
      have := topOf_eq sz
      omega
    have hgd := guardOf_dvd sz
    rcases mem_union.1 (h.tabs _ h0) with hk | hk
    · rcases mem_union.1 hk with hk | hk
      · exact hmem.1 hk hgap
      · obtain ⟨v, hv, he⟩ := mem_image.1 hk
        exact hlow v (Finset.mem_range.1 (mem_filter.1 hv).1) he
    · rw [mem_insert, mem_singleton] at hk
      rcases hk with hk | hk
      · refine hlow _ (lt_NUPG ?_) hk.symm
        rw [page_mul hgd]
        omega
      · refine hlow _ (lt_NUPG ?_) hk.symm
        rw [add_mul, page_mul hgd, one_mul]
        exact hg

/-! The addresses of the arguments. -/

/-- The stack pointer once a string is pushed. -/
def pushed (sp : ℕ) (arg : List UInt8) : ℕ := sub32 sp (arg.length + 1) / 4 * 4

/-- Where the strings go if they stay above `lo`: the stack pointer after them, and their addresses. -/
def pushes (lo : ℕ) : ℕ → List (List UInt8) → Option (ℕ × List ℕ)
  | sp, [] => some (sp, [])
  | sp, arg :: argv =>
    if lo + (arg.length + 1) ≤ sp then (pushes lo (pushed sp arg) argv).map fun r => (r.1, pushed sp arg :: r.2)
    else none

/-- The first string that does not stay above `lo` is so long that its address wraps round to where the kernel has no
page table. -/
def lost (lo : ℕ) : ℕ → List (List UInt8) → Prop
  | _, [] => False
  | sp, arg :: argv =>
    if lo + (arg.length + 1) ≤ sp then lost lo (pushed sp arg) argv
    else KERNBASE + PHYSTOP ≤ pushed sp arg ∧ pushed sp arg < DEVSPACE

section Addresses

variable {lo sp : ℕ} {arg : List UInt8} {argv : List (List UInt8)} {sp' : ℕ} {as : List ℕ}

theorem pushed_dvd : 4 ∣ pushed sp arg := dvd_mul_left _ _

/-- A string that stays above `lo`. -/
theorem pushed_room (hlo : 4 ∣ lo) (hsp : sp < 2 ^ 32) (h : lo + (arg.length + 1) ≤ sp) :
    lo ≤ pushed sp arg ∧ pushed sp arg + (arg.length + 1) ≤ sp := by
  unfold pushed sub32
  omega

/-- A string that does not, in an address space where it does not wrap round. -/
theorem pushed_below (hlo : 4 ∣ lo) (h : ¬ lo + (arg.length + 1) ≤ sp) (hlt : arg.length + 1 ≤ sp) (hsp : sp < 2 ^ 32) :
    pushed sp arg < lo ∧ pushed sp arg + (arg.length + 1) ≤ sp ∧ sp < pushed sp arg + (arg.length + 1) + 4 := by
  unfold pushed sub32
  omega

theorem pushed_wraps (hsp : sp < arg.length + 1) (hlen : arg.length < KERNBASE) :
    KERNBASE ≤ pushed sp arg ∧ pushed sp arg < 2 ^ 32 := by
  simp only [pushed, sub32, KERNBASE] at *
  omega

/-- The strings lie one below the other, at multiples of 4. -/
theorem pushes_spec (hlo : 4 ∣ lo) (hsp : sp < 2 ^ 32) (hle : lo ≤ sp) (hal : 4 ∣ sp) (h : pushes lo sp argv = some (sp', as)) :
    lo ≤ sp' ∧ sp' ≤ sp ∧ 4 ∣ sp' ∧
      List.Forall₂ (fun arg a => 4 ∣ a ∧ sp' ≤ a ∧ a + (arg.length + 1) ≤ sp) argv as := by
  induction argv generalizing sp as with
  | nil =>
    obtain ⟨rfl, rfl⟩ := Prod.mk.inj (Option.some.inj h)
    exact ⟨hle, le_rfl, hal, .nil⟩
  | cons arg argv ih =>
    rw [pushes] at h
    split_ifs at h with hfit
    obtain ⟨⟨sp₁, as₁⟩, h1, h2⟩ := Option.map_eq_some_iff.1 h
    obtain ⟨rfl, rfl⟩ := Prod.mk.inj h2
    obtain ⟨hroom, hend⟩ := pushed_room hlo hsp hfit
    obtain ⟨h3, h4, h5, h6⟩ := ih (by omega) hroom pushed_dvd h1
    refine ⟨h3, by dsimp only at *; omega, h5, .cons ⟨pushed_dvd, h4, hend⟩ (h6.imp fun arg a h => ?_)⟩
    exact ⟨h.1, h.2.1, by omega⟩

theorem pushes_of_lost (h : lost lo sp argv) : pushes lo sp argv = none := by
  induction argv generalizing sp with
  | nil => exact h.elim
  | cons arg argv ih =>
    rw [lost] at h
    rw [pushes]
    split_ifs at h ⊢ with hfit
    · rw [ih h]
      rfl
    · rfl

end Addresses

/-! Pushing the arguments. -/

/-- The lowest address of the stack above an image of `sz` bytes. -/
def lowOf (sz : ℕ) : ℕ := guardOf sz + PGSIZE

theorem lowOf_dvd (sz : ℕ) : PGSIZE ∣ lowOf sz := (Nat.dvd_add_right (guardOf_dvd sz)).2 dvd_rfl

theorem four_dvd_of_page (h : PGSIZE ∣ a) : 4 ∣ a := Nat.dvd_trans (by simp [PGSIZE]) h

/-- `copyout` of a string to its place on the stack. -/
theorem sat_pushString (h : Imaged L d sz s t) (hpos : 0 < sz)
    (hlt : topOf sz < KERNBASE) (hlo : lowOf sz ≤ sp) (hhi : sp ≤ topOf sz) (hlen : arg.length < KERNBASE) :
    Sat (copyout d (pushed sp arg) (arg ++ [0])) t
      (fun ok t' => if lowOf sz + (arg.length + 1) ≤ sp then ok = true ∧ t' = t.copied d (pushed sp arg) (arg ++ [0])
        else ok = false ∧ ¬ (KERNBASE + PHYSTOP ≤ pushed sp arg ∧ pushed sp arg < DEVSPACE))
      (fun _ => ¬ lowOf sz + (arg.length + 1) ≤ sp ∧ KERNBASE + PHYSTOP ≤ pushed sp arg ∧ pushed sp arg < DEVSPACE) B := by
  have h4 := four_dvd_of_page (lowOf_dvd sz)
  have h32 : KERNBASE < 2 ^ 32 := by simp [KERNBASE]
  have hl : (arg ++ [0]).length = arg.length + 1 := by simp
  by_cases hfit : lowOf sz + (arg.length + 1) ≤ sp
  · obtain ⟨h1, h2⟩ := pushed_room h4 (by omega) hfit
    have hall : t.reach d (pushed sp arg) (arg ++ [0]).length = (arg ++ [0]).length :=
      reach_eq_iff.2 fun i hi => h.usable_stack (h1.trans (le_add_right _ i)) (by omega)
    refine sat_copyout (by omega) (fun _ => ?_) (fun c hc hlt' => ?_) (fun c hc hlt' => ?_)
    · rw [if_pos hfit]
      exact ⟨rfl, rfl⟩
    · omega
    · omega
  · simp only [hfit, if_false, not_false_eq_true, true_and]
    by_cases hwrap : sp < arg.length + 1
    · obtain ⟨h1, h2⟩ := pushed_wraps hwrap hlen
      have hiff := h.tab_kern hlt h1 h2
      refine sat_copyout_refused h2 (by simp) (h.not_usable_kern h1) (fun h0 => ⟨rfl, fun hg => h0 (hiff.2 hg)⟩) fun h0 => hiff.1 h0
    · obtain ⟨h1, h2, h3⟩ := pushed_below h4 hfit (not_lt.1 hwrap) (by omega)
      -- the copy does not get past the guard page
      have hpg : 4 ≤ PGSIZE := by simp [PGSIZE]
      have hlow : lowOf sz = guardOf sz + PGSIZE := rfl
      obtain ⟨x, hx1, hx2, hx3, hx4⟩ : ∃ x, guardOf sz ≤ x ∧ x < lowOf sz ∧ pushed sp arg ≤ x ∧
          x < pushed sp arg + (arg.length + 1) :=
        ⟨max (pushed sp arg) (guardOf sz), le_max_right _ _, max_lt h1 (by omega), le_max_left _ _,
          max_lt (by omega) (by omega)⟩
      have hno : t.usable d x = false := h.not_usable_guard hx1 hx2
      have hreach : t.reach d (pushed sp arg) (arg ++ [0]).length ≤ x - pushed sp arg := by
        by_contra hgt
        have := usable_of_reach (not_le.1 hgt)
        rw [show pushed sp arg + (x - pushed sp arg) = x by omega, hno] at this
        cases this
      refine sat_copyout (by omega) (fun hr => ?_) (fun c _ _ _ => ⟨rfl, ?_⟩) (fun c hc _ h0 => ?_)
      · omega
      · omega
      · exact absurd h0 (h.tab_below hpos hlt (by omega))

theorem tr_pushString (h : Imaged L d sz s t) (hpos : 0 < sz) (hlt : topOf sz < KERNBASE)
    (hlo : lowOf sz ≤ sp) (hhi : sp ≤ topOf sz) (hlen : arg.length < KERNBASE) (hW : ∀ v, v < NUPG → P.write d v)
    (hF : ¬ lowOf sz + (arg.length + 1) ≤ sp → KERNBASE + PHYSTOP ≤ pushed sp arg ∧ pushed sp arg < DEVSPACE →
      ∀ t', F t') :
    Tr (Ev L P) (copyout d (pushed sp arg) (arg ++ [0])) t g (fun ok t' g' => g' = g ∧ Inked d t t' ∧
      if lowOf sz + (arg.length + 1) ≤ sp then ok = true ∧ t' = t.copied d (pushed sp arg) (arg ++ [0])
        else ok = false ∧ ¬ (KERNBASE + PHYSTOP ≤ pushed sp arg ∧ pushed sp arg < DEVSPACE)) F N := by
  have h32 : pushed sp arg < 2 ^ 32 := by
    unfold pushed sub32
    omega
  have htr : Tr (Ev L P) (copyout d _ (arg ++ [0])) t g _ (fun _ => True) N := tr_copyout h32 hW h.plain fun _ _ => trivial
  refine tr_mono (tr_and_sat htr (sat_pushString (B := fun _ _ => True) h hpos hlt hlo hhi hlen)) ?_ ?_ fun _ h => h
  · rintro ok t' g' - ⟨⟨hg, hink⟩, hex⟩
    exact ⟨hg, hink, hex⟩
  · rintro t' ⟨-, h1, h2⟩
    exact hF h1 h2 t'

/-- The strings are at their addresses, and what is not between the stack pointers stays. -/
structure Stacked (d sp sp' : ℕ) (argv : List (List UInt8)) (as : List ℕ) (t t' : Kern) : Prop where
  strings : List.Forall₂ (fun arg a => t'.Has d a (arg ++ [0])) argv as
  other : ∀ x, x < KERNBASE → x < sp' ∨ sp ≤ x → t'.byteAt d x = t.byteAt d x

theorem Inked.apart (h : Inked d s s') (ha : s.Apart d hi) : s'.Apart d hi := by
  unfold Kern.Apart
  rw [h.entry]
  exact ha

/-- One more string, pushed before the others. -/
theorem Stacked.cons {sp sp' : ℕ} {arg : List UInt8} {argv : List (List UInt8)} {as : List ℕ} {t₁ : Kern}
    (h : Stacked d (pushed sp arg) sp' argv as t₁ s') (ht : t₁ = t.copied d (pushed sp arg) (arg ++ [0]))
    (hap : t.Apart d KERNBASE) (hb : t.Backed d (pushed sp arg) (arg ++ [0]).length)
    (hend : pushed sp arg + (arg.length + 1) ≤ sp) (hle : sp' ≤ pushed sp arg) (hk : sp ≤ KERNBASE) :
    Stacked d sp sp' (arg :: argv) (pushed sp arg :: as) t s' := by
  have hl : (arg ++ [0]).length = arg.length + 1 := by simp
  refine ⟨.cons (fun j hj => ?_) h.strings, fun x hx hout => ?_⟩
  · rw [h.other _ (by omega) (.inr (le_add_right _ j)), ht]
    exact has_copied hap hb (by omega) j hj
  · rw [h.other x hx (by omega), ht, byteAt_copied hap hb (by omega) hx, if_neg (by omega)]

theorem tr_pushArgs (hpos : 0 < sz) (hlt : topOf sz < KERNBASE) (hW : ∀ v, v < NUPG → P.write d v) :
    ∀ (argv : List (List UInt8)) (sp : ℕ) (ptrs : List ℕ) (t : Kern), Imaged L d sz s t → t.Apart d KERNBASE →
    lowOf sz ≤ sp → sp ≤ topOf sz → (∀ arg ∈ argv, arg.length < KERNBASE) → ptrs.length ≤ MAXARG →
    (∀ t', lost (lowOf sz) sp argv → F t') →
    Tr (Ev L P) (pushArgs d argv sp ptrs) t g (fun x t' g' => g' = g ∧ Inked d t t' ∧ match x with
      | some y => ∃ as, pushes (lowOf sz) sp argv = some (y.1, as) ∧ y.2 = ptrs ++ as ∧ y.2.length ≤ MAXARG ∧
          Stacked d sp y.1 argv as t t'
      | none => ptrs.length + argv.length ≤ MAXARG → pushes (lowOf sz) sp argv = none ∧ ¬ lost (lowOf sz) sp argv) F N := by
  intro argv
  induction argv with
  | nil =>
    intro sp ptrs t _ _ _ _ _ hmax _
    exact tr_pure ⟨rfl, .refl, [], rfl, (List.append_nil _).symm, hmax, .nil, fun _ _ _ => rfl⟩
  | cons arg argv ih =>
    intro sp ptrs t him hap hlo hhi hlen hmax hF
    unfold pushArgs
    by_cases hfull : ptrs.length ≥ MAXARG
    · rw [if_pos hfull]
      refine tr_pure ⟨rfl, .refl, fun h => ?_⟩
      rw [List.length_cons] at h
      omega
    rw [if_neg hfull]
    have h4 := four_dvd_of_page (lowOf_dvd sz)
    have h32 : KERNBASE < 2 ^ 32 := by simp [KERNBASE]
    change Tr (Ev L P) (copyout d (pushed sp arg) (arg ++ [0]) >>= fun ok =>
      if ok then pushArgs d argv (pushed sp arg) (ptrs ++ [pushed sp arg]) else pure none) t g _ F N
    refine tr_bind (tr_pushString him hpos hlt hlo hhi (hlen arg List.mem_cons_self) hW fun h1 h2 t' => hF t' ?_) ?_
    · rw [lost, if_neg h1]
      exact h2
    rintro ok t₁ g₁ - ⟨rfl, hink, hex⟩
    rw [pushes, lost]
    split_ifs at hex with hfit
    · obtain ⟨rfl, ht₁⟩ := hex
      obtain ⟨hroom, hend⟩ := pushed_room h4 (by omega) hfit
      rw [if_pos rfl]
      refine tr_post (ih (pushed sp arg) (ptrs ++ [pushed sp arg]) t₁ (him.inked hink) (hink.apart hap) hroom (by omega)
        (fun a h => hlen a (List.mem_cons_of_mem _ h)) ?_ fun t' hno => ?_) ?_
      · rw [List.length_append, List.length_singleton]
        omega
      · refine hF t' ?_
        rw [lost, if_pos hfit]
        exact hno
      · rintro x t₂ g₂ - ⟨rfl, hink₂, hx⟩
        refine ⟨rfl, hink.trans hink₂, ?_⟩
        simp only [hfit, if_true]
        cases x with
        | none =>
          intro hle
          obtain ⟨h1, h2⟩ := hx (by rw [List.length_append, List.length_singleton]; rw [List.length_cons] at hle; omega)
          rw [h1]
          exact ⟨rfl, h2⟩
        | some y =>
          obtain ⟨as, h1, h2, h3, h5⟩ := hx
          have hsp' := (pushes_spec h4 (by omega) hroom pushed_dvd h1).2.1
          refine ⟨pushed sp arg :: as, ?_, ?_, h3, ?_⟩
          · rw [h1]
            rfl
          · rw [h2, List.append_assoc]
            rfl
          · have hl : (arg ++ [0]).length = arg.length + 1 := by simp
            exact h5.cons ht₁ hap (him.backed_stack hroom (by omega)) hend hsp' (by omega)
    · obtain ⟨rfl, hnot⟩ := hex
      refine tr_pure ⟨rfl, hink, fun _ => ?_⟩
      simp only [hfit, if_false]
      exact ⟨trivial, hnot⟩

/-- The stack pointer for `main` and the addresses of the strings, if these and the words of `ustack` stay above `lo`. -/
def framed (lo sp : ℕ) (argv : List (List UInt8)) : Option (ℕ × List ℕ) :=
  match pushes lo sp argv with
  | none => none
  | some (sp', as) => if lo + (3 + as.length + 1) * 4 ≤ sp' then some (sp' - (3 + as.length + 1) * 4, as) else none

/-- What `main` finds on its stack: a return address, the number of arguments and where the pointers to them are. -/
structure ArgFrame (d lo hi sp : ℕ) (argv : List (List UInt8)) (as : List ℕ) (t : Kern) : Prop where
  ret : t.wordAt d sp = 0xffffffff
  argc : t.wordAt d (sp + 4) = argv.length
  table : t.wordAt d (sp + 8) = sp + 12
  ptrs : ∀ (k a : ℕ), as[k]? = some a → t.wordAt d (sp + 12 + 4 * k) = a
  null : t.wordAt d (sp + 12 + 4 * argv.length) = 0
  strings : List.Forall₂ (fun arg a => t.Has d a (arg ++ [0])) argv as
  inside : List.Forall₂ (fun arg a => 4 ∣ a ∧ sp + 12 + 4 * (argv.length + 1) ≤ a ∧ a + (arg.length + 1) ≤ hi) argv as
  aligned : 4 ∣ sp
  low : lo ≤ sp
  high : sp + 12 + 4 * (argv.length + 1) ≤ hi

/-- The words of `ustack`. -/
def ustack (sp : ℕ) (as : List ℕ) : List ℕ := [0xffffffff, as.length, sp - (as.length + 1) * 4] ++ as ++ [0]

theorem length_ustack (sp : ℕ) (as : List ℕ) : (ustack sp as).length = 3 + as.length + 1 := by
  unfold ustack
  rw [List.length_append, List.length_append]
  rfl

/-- The words of `ustack` below the strings make the frame. -/
theorem Stacked.frame {lo : ℕ} {t₁ : Kern}
    (h : Stacked d hi sp argv as t t₁) (hp : List.Forall₂ (fun arg a => 4 ∣ a ∧ sp ≤ a ∧ a + (arg.length + 1) ≤ hi) argv as)
    (hal : 4 ∣ sp) (hap : t₁.Apart d KERNBASE) (hfit : lo + (3 + as.length + 1) * 4 ≤ sp) (hk : hi ≤ KERNBASE) (hsp : sp ≤ hi)
    (hb : t₁.Backed d (sp - (3 + as.length + 1) * 4) ((ustack sp as).flatMap (le 4)).length) :
    ArgFrame d lo hi (sp - (3 + as.length + 1) * 4) argv as
      (t₁.copied d (sp - (3 + as.length + 1) * 4) ((ustack sp as).flatMap (le 4))) := by
  have h32 : KERNBASE < 2 ^ 32 := by simp [KERNBASE]
  have hlen := hp.length_eq
  have hl : ((ustack sp as).flatMap (le 4)).length = (3 + as.length + 1) * 4 := by
    rw [length_words, length_ustack, mul_comm]
  have hhas := has_copied hap hb (by omega)
  have hword : ∀ {k w : ℕ}, (ustack sp as)[k]? = some w → w < 2 ^ 32 → _ := fun hk hw => hhas.wordAt hk hw
  have has : ∀ (k a : ℕ), as[k]? = some a → a < 2 ^ 32 := by
    intro k a hk
    obtain ⟨hk', rfl⟩ := List.getElem?_eq_some_iff.1 hk
    have := (List.forall₂_iff_get.1 hp).2 k (by omega) hk'
    simp only [List.get_eq_getElem] at this
    omega
  refine ⟨hword (k := 0) rfl (by norm_num), ?_, ?_, fun k a hk => ?_, ?_, ?_, hp.imp fun arg a h => ?_, by omega, by omega, by omega⟩
  · rw [hlen]
    exact hword (k := 1) rfl (by omega)
  · have := hword (k := 2) rfl (by omega)
    rw [show sp - (as.length + 1) * 4 = sp - (3 + as.length + 1) * 4 + 12 by omega] at this
    exact this
  · have hidx : (ustack sp as)[3 + k]? = some a := by
      have hk' := (List.getElem?_eq_some_iff.1 hk).1
      unfold ustack
      rw [List.append_assoc, List.getElem?_append_right (by simp), List.getElem?_append_left (by simpa using hk')]
      simpa using hk
    have := hword hidx (has k a hk)
    rw [show sp - (3 + as.length + 1) * 4 + 12 + 4 * k = sp - (3 + as.length + 1) * 4 + 4 * (3 + k) by omega]
    exact this
  · have hidx : (ustack sp as)[3 + as.length]? = some 0 := by
      have hl' : ([0xffffffff, as.length, sp - (as.length + 1) * 4] ++ as).length = 3 + as.length := by
        rw [List.length_append]
        rfl
      unfold ustack
      rw [List.getElem?_append_right hl'.le, hl', Nat.sub_self]
      rfl
    have := hword hidx (by norm_num)
    rw [hlen, show sp - (3 + as.length + 1) * 4 + 12 + 4 * as.length = sp - (3 + as.length + 1) * 4 + 4 * (3 + as.length) by omega]
    exact this
  · refine List.forall₂_iff_get.2 ⟨hlen, fun k h1 h2 => ?_⟩
    have hs := (List.forall₂_iff_get.1 h.strings).2 k h1 h2
    have hi := (List.forall₂_iff_get.1 hp).2 k h1 h2
    have hl' : ∀ arg : List UInt8, (arg ++ [0]).length = arg.length + 1 := fun arg => by simp
    refine hs.copied hap hb ?_ ?_
    · omega
    · rw [hl']
      omega
  · refine ⟨h.1, ?_, h.2.2⟩
    omega

/-- `copyout` of the words of `ustack` below the strings. -/
theorem sat_pushWords (h : Imaged L d sz s t) (hpos : 0 < sz)
    (hlt : topOf sz < KERNBASE) (hlo : lowOf sz ≤ sp) (hhi : sp ≤ topOf sz) (hmax : as.length ≤ MAXARG) :
    Sat (copyout d (sp - (3 + as.length + 1) * 4) ((ustack sp as).flatMap (le 4))) t
      (fun ok t' => if lowOf sz + (3 + as.length + 1) * 4 ≤ sp then ok = true ∧
          t' = t.copied d (sp - (3 + as.length + 1) * 4) ((ustack sp as).flatMap (le 4))
        else ok = false) (fun _ => False) B := by
  have h32 : KERNBASE < 2 ^ 32 := by simp [KERNBASE]
  have hl : ((ustack sp as).flatMap (le 4)).length = (3 + as.length + 1) * 4 := by
    rw [length_words, length_ustack, mul_comm]
  by_cases hfit : lowOf sz + (3 + as.length + 1) * 4 ≤ sp
  · have hall : t.reach d (sp - (3 + as.length + 1) * 4) ((ustack sp as).flatMap (le 4)).length =
        ((ustack sp as).flatMap (le 4)).length :=
      reach_eq_iff.2 fun i hi => h.usable_stack (show lowOf sz ≤ _ by omega) (by omega)
    refine sat_copyout (by omega) (fun _ => ?_) (fun c hc hlt' => ?_) (fun c hc hlt' => ?_)
    · rw [if_pos hfit]
      exact ⟨rfl, rfl⟩
    · omega
    · omega
  · -- the frame starts in the guard page
    have hpg : (3 + MAXARG + 1) * 4 ≤ PGSIZE := by simp [MAXARG, PGSIZE]
    have hlow : lowOf sz = guardOf sz + PGSIZE := rfl
    have hno := h.not_usable_guard (a := sp - (3 + as.length + 1) * 4) (by omega) (by omega)
    refine sat_copyout_refused (by omega) (fun hnil => ?_) hno (fun _ => ?_) fun h0 => ?_
    · rw [hnil, List.length_nil] at hl
      omega
    · rw [if_neg hfit]
    · exact absurd h0 (h.tab_below hpos hlt (by omega))

theorem tr_pushStack (h : Imaged L d sz s t) (hap : t.Apart d KERNBASE) (hpos : 0 < sz)
    (hlt : topOf sz < KERNBASE) (hW : ∀ v, v < NUPG → P.write d v) (hlen : ∀ arg ∈ argv, arg.length < KERNBASE)
    (hF : ∀ t', lost (lowOf sz) (topOf sz) argv → F t') :
    Tr (Ev L P) (pushStack d (topOf sz) argv) t g (fun x t' g' => g' = g ∧ Inked d t t' ∧ match x with
      | some sp => ∃ as, framed (lowOf sz) (topOf sz) argv = some (sp, as) ∧
          ArgFrame d (lowOf sz) (topOf sz) sp argv as t' ∧ ∀ x, x < lowOf sz → t'.byteAt d x = t.byteAt d x
      | none => argv.length ≤ MAXARG → framed (lowOf sz) (topOf sz) argv = none ∧ ¬ lost (lowOf sz) (topOf sz) argv) F N := by
  have h32 : KERNBASE < 2 ^ 32 := by simp [KERNBASE]
  have htop : lowOf sz ≤ topOf sz := by
    rw [topOf_eq, lowOf]
    omega
  have h4 := four_dvd_of_page (lowOf_dvd sz)
  have h4' : 4 ∣ topOf sz := by
    rw [topOf_eq]
    exact (Nat.dvd_add_right h4).2 (four_dvd_of_page dvd_rfl)
  unfold pushStack
  refine tr_bind (tr_pushArgs hpos hlt hW argv (topOf sz) [] t h hap htop le_rfl hlen (Nat.zero_le _) hF) ?_
  rintro x t₁ g₁ - ⟨rfl, hink, hx⟩
  cases x with
  | none =>
    refine tr_pure ⟨rfl, hink, fun hle => ?_⟩
    obtain ⟨h1, h2⟩ := hx (by rw [List.length_nil]; omega)
    rw [framed, h1]
    exact ⟨rfl, h2⟩
  | some y =>
    obtain ⟨sp, as⟩ := y
    obtain ⟨_, h1, rfl, hmax, hst⟩ := hx
    obtain ⟨h5, h6, h7, h8⟩ := pushes_spec h4 (by omega) htop h4' h1
    dsimp only at h1 hmax hst h5 h6 h7 h8 ⊢
    have hlow : lowOf sz = guardOf sz + PGSIZE := rfl
    have hpg : (3 + MAXARG + 1) * 4 ≤ PGSIZE := by simp [MAXARG, PGSIZE]
    have e1 : sub32 sp ((3 + as.length + 1) * 4) = sp - (3 + as.length + 1) * 4 := by
      unfold sub32
      omega
    have e2 : sub32 sp ((as.length + 1) * 4) = sp - (as.length + 1) * 4 := by
      unfold sub32
      omega
    rw [e1, e2]
    change Tr (Ev L P) (copyout d (sp - (3 + as.length + 1) * 4) ((ustack sp as).flatMap (le 4)) >>= _) t₁ g₁ _ F N
    have him := h.inked hink
    have htr : Tr (Ev L P) (copyout d (sp - (3 + as.length + 1) * 4) ((ustack sp as).flatMap (le 4))) t₁ g₁ _ (fun _ => True) N :=
      tr_copyout (by omega) hW him.plain fun _ _ => trivial
    refine tr_bind (tr_mono (tr_and_sat htr (sat_pushWords (B := fun _ _ => True) him hpos hlt h5 h6 hmax))
      (fun _ _ _ _ h => h) (fun _ h => h.2.elim) fun _ h => h) ?_
    rintro ok t₂ g₂ - ⟨⟨rfl, hink₂⟩, hex⟩
    split_ifs at hex with hfit
    · obtain ⟨rfl, rfl⟩ := hex
      have hl : ((ustack sp as).flatMap (le 4)).length = (3 + as.length + 1) * 4 := by
        rw [length_words, length_ustack, mul_comm]
      have hap₁ := hink.apart hap
      have hb : t₁.Backed d (sp - (3 + as.length + 1) * 4) ((ustack sp as).flatMap (le 4)).length :=
        him.backed_stack (show lowOf sz ≤ _ by omega) (by omega)
      refine tr_pure ⟨rfl, hink.trans hink₂, as, ?_, hst.frame h8 h7 hap₁ hfit hlt.le h6 hb, fun x hx => ?_⟩
      · rw [framed, h1]
        exact if_pos hfit
      · rw [byteAt_copied hap₁ hb (by omega) (by omega), if_neg (by omega), hst.other x (by omega) (.inl (by omega))]
    · subst hex
      refine tr_pure ⟨rfl, hink.trans hink₂, fun _ => ⟨?_, fun hlost => ?_⟩⟩
      · rw [framed, h1]
        exact if_neg hfit
      · rw [pushes_of_lost hlost] at h1
        cases h1

/-! The stack part of `loadImage`. -/

theorem Laid.rich (hl : Laid L d sz s s') (hsz : sz < KERNBASE) : Rich (imageCost sz) s := by
  have h0 : s'.miss d (imageTabs sz) = 0 := by
    unfold Kern.miss
    rw [Finset.card_eq_zero, Finset.filter_eq_empty_iff]
    intro k hk
    rcases mem_union.1 hk with hk | hk
    · exact kern_tab hl.kern hk
    · obtain ⟨v, hv, rfl⟩ := mem_image.1 hk
      exact tab_of_w (by rw [(hl.page v (mem_filter.1 hv).2).1]; rfl)
  have h := hl.cost (imageTabs sz) Finset.subset_union_left (fun v => mem_imageTabs hsz) 0
  rw [h0] at h
  have := h.2 rich_zero
  rw [zero_add] at this
  exact this

/-- With image and stack in place their page tables are all there. -/
theorem Imaged.miss_stack (h : Imaged L d sz s s') : s'.miss d (stackTabs sz) = 0 := by
  have hpos := PGSIZE_pos
  have hpa : guardOf sz / PGSIZE * PGSIZE = guardOf sz := page_mul (guardOf_dvd sz)
  unfold Kern.miss
  rw [Finset.card_eq_zero, Finset.filter_eq_empty_iff]
  intro k hk
  simp only [stackTabs, imageTabs, mem_union, mem_singleton, mem_insert, mem_image,
    mem_filter] at hk
  rcases hk with (hk | ⟨v, ⟨-, hv⟩, rfl⟩) | rfl | rfl
  · exact kern_tab h.kern hk
  · exact tab_of_w (by rw [(h.page v hv).1]; rfl)
  · exact tab_of_w (by rw [(h.guard _ hpa).1])
  · refine tab_of_w ?_
    rw [(h.stack (guardOf sz / PGSIZE + 1) (by rw [add_mul, hpa, one_mul])).1]

theorem Imaged.rich (h : Imaged L d sz s s') (hsz : sz < KERNBASE) : Rich (stackCost sz) s := by
  have hc := h.cost (stackTabs sz) (kernTabs_subset_stackTabs sz) (fun v => mem_stackTabs hsz) 0
  rw [h.miss_stack] at hc
  have := hc.2 rich_zero
  rw [zero_add] at this
  exact this

theorem topOf_lt (hle : sz ≤ MAXPAGES * PGSIZE) : topOf sz + MAX_SHM + PGSIZE < KERNBASE := by
  simp only [topOf, guardOf, PGROUNDUP, MAX_STACK, MAX_SHM, MAXPAGES, PHYSTOP, PGSIZE, KERNBASE] at *
  omega

/-- The layout that `exec` commits to above an image of `sz` bytes. -/
structure Image.Of (im : Image) (sz : ℕ) : Prop where
  stacklastpg : im.stacklastpg = PGROUNDUP sz
  guardpg : im.guardpg = guardOf sz
  stacktop : im.stacktop = topOf sz
  sz_eq : im.sz = topOf sz
  le : sz ≤ MAXPAGES * PGSIZE

theorem Kern.Apart.setPte (h : s.Apart d hi) (htab : s.ptab d (v / NPTENTRIES) ≠ 0)
    (he : e.ppn = (s.entry d v).ppn) : (s.setPte d v e).Apart d hi := by
  have hppn : ∀ v', ((s.setPte d v e).entry d v').ppn = (s.entry d v').ppn := by
    intro v'
    rw [entry_setPte htab]
    by_cases hv : v' = v
    · rw [hv, upd_same, he]
    · rw [upd_ne_page hv]
  intro v₁ v₂ h1 h2 h0 heq
  rw [hppn] at h0
  rw [hppn, hppn] at heq
  exact h v₁ v₂ h1 h2 h0 heq

/-- What lies below the guard page stays when that and the stack are added. -/
theorem Shows.above (h : Shows d sz img s₁) (hl : Laid L d sz s s₁)
    (hlt : sz < KERNBASE) (hp : Paged d (guardOf sz) (topOf sz) s₁ s₂) (hv : va₀ * PGSIZE = guardOf sz)
    (htab : s₂.ptab d (va₀ / NPTENTRIES) ≠ 0) : Shows d sz img (s₂.setPte d va₀ e) := by
  refine ⟨fun a ha => ?_, h.rest⟩
  have hpage := page_of_lt_PGROUNDUP ha
  have hgt := le_guardOf sz
  have he : s₂.entry d (a / PGSIZE) = s₁.entry d (a / PGSIZE) := hp.other d _ (by omega)
  have hne : a / PGSIZE ≠ va₀ := by
    intro heq
    rw [heq] at hpage
    omega
  rw [← h.byte a ha]
  refine byteAt_congr ?_ (hp.old _ (lt_NUPG (hpage.trans hlt)) (hl.page _ hpage).2)
  rw [entry_setPte htab, upd_ne_page hne, he]

/-- The second part of `loadImage`: the guard page, the stack and the arguments. -/
def layStack (L : Linker) (d : ℕ) (argv : List (List UInt8)) (sz : ℕ) : K (Option Image) := do
  let stacklastpg := PGROUNDUP sz
  let guardpg := stacklastpg + MAX_STACK + PGSIZE
  let stacktop := guardpg + 2 * PGSIZE
  let sz ← allocuvm L d guardpg (guardpg + 2 * PGSIZE) none
  check (sz ≠ 0) "panic stackptr failed"
  clearpteu d guardpg
  clearptep d guardpg
  match ← pushStack d sz argv with
  | none => return none
  | some sp => return some ⟨stacklastpg, guardpg, stacktop, sz, sp⟩

theorem loadImage_eq : loadImage L d ip elf argv = loadProgram L d ip elf >>= fun x => match x with
      | none => pure none
      | some sz => layStack L d argv sz := by
  unfold loadImage loadProgram
  rw [M.assoc]
  refine congrArg _ (funext fun sz => ?_)
  by_cases h : sz = 0
  · rw [if_pos h, if_pos h]
    rfl
  · rw [if_neg h, if_neg h, M.assoc]
    rfl

theorem tr_layStack (hS : Sound L P.area s₁ g₁)
    (hl : Laid L d sz s s₁) (hsh : Shows d sz img s₁) (hpos : 0 < sz) (hsz : sz < KERNBASE)
    (hT : ∀ v, v < NUPG → P.touch d v) (hf : ∀ v, v < NUPG → P.flag d v) (hW : ∀ v, v < NUPG → P.write d v)
    (hlen : ∀ arg ∈ argv, arg.length < KERNBASE)
    (hF : ∀ s', Rich (stackCost sz) s → lost (lowOf sz) (topOf sz) argv → F s')
    (hN : ¬ Rich (stackCost sz) s → N "panic stackptr failed") :
    Tr (Ev L P) (layStack L d argv sz) s₁ g₁ (fun x s' _ => match x with
      | none => Made L d s s' ∧ Rich (stackCost sz) s ∧
          (argv.length ≤ MAXARG → framed (lowOf sz) (topOf sz) argv = none ∧ ¬ lost (lowOf sz) (topOf sz) argv)
      | some im => im.Of sz ∧ Imaged L d sz s s' ∧ Shows d sz img s' ∧ ∃ as,
          framed (lowOf sz) (topOf sz) argv = some (im.sp, as) ∧ ArgFrame d (lowOf sz) (topOf sz) im.sp argv as s') F N := by
  have hle := hl.sz_le hS hsz
  have htop := topOf_lt hle
  have hgt := le_guardOf sz
  have hlt : topOf sz < KERNBASE := by omega
  change Tr (Ev L P) (allocuvm L d (guardOf sz) (topOf sz) none >>= _) s₁ g₁ _ F N
  refine tr_bind (tr_layRange hS.inv hl.toMade (fun v h1 h2 => hl.empty v (lt_NUPG (h2.trans hlt)) (by omega))
    (le_add_right _ _) hlt hT) ?_
  rintro x s₂ g₂ h₂ (⟨rfl, hm, hp⟩ | ⟨rfl, hm, hR⟩)
  · rw [PGROUNDUP_self (guardOf_dvd sz)] at hp
    have hpa : guardOf sz / PGSIZE * PGSIZE = guardOf sz := page_mul (guardOf_dvd sz)
    have hglt : guardOf sz < KERNBASE := by
      unfold topOf at hlt
      omega
    have hpos' := PGSIZE_pos
    have htop0 : topOf sz ≠ 0 := by
      unfold topOf
      omega
    refine tr_check (fun _ => ?_) fun h => absurd htop0 h
    have him := hl.imaged hm hp hlt hpa
    have htab : s₂.ptab d (guardOf sz / PGSIZE / NPTENTRIES) ≠ 0 := by
      refine tab_of_w ?_
      rw [(hp.page _ hpa.ge (by unfold topOf; omega)).1]
    have hsh' := hsh.above (e := { s₂.entry d (guardOf sz / PGSIZE) with p := false, u := false }) hl hsz hp hpa htab
    have hap := (hm.apart (hS.evs h₂)).setPte (e := { s₂.entry d (guardOf sz / PGSIZE) with p := false, u := false }) htab rfl
    refine tr_hide hglt (hf _ (page_lt hglt)) (fun h0 => ?_) fun _ => ?_
    · change s₂.ptab d (PDX (guardOf sz)) = 0 at h0
      rw [PDX_eq (hglt.trans (by simp [KERNBASE]))] at h0
      exact absurd h0 htab
    refine tr_bind (tr_pushStack him hap hpos hlt hW hlen fun s' => hF s' (him.rich hsz)) ?_
    rintro x s₃ g₃ - ⟨-, hink, hx⟩
    cases x with
    | none => exact tr_pure ⟨him.toMade.inked hink, him.rich hsz, hx⟩
    | some sp =>
      obtain ⟨as, h1, h2, h3⟩ := hx
      refine tr_pure ⟨⟨rfl, rfl, rfl, rfl, hle⟩, him.inked hink, ⟨fun a ha => ?_, hsh.rest⟩, as, h1, h2⟩
      refine (h3 a ?_).trans (hsh'.byte a ha)
      unfold lowOf guardOf
      omega
  · refine tr_check (fun h => absurd rfl h) fun _ => hN fun hRR => ?_
    refine hR (stackTabs sz) (fun v h1 h2 => mem_stackTabs hsz (.inr ⟨h1, h2⟩)) ?_
    have h1 : PGROUNDUP (topOf sz) = topOf sz :=
      PGROUNDUP_self ((Nat.dvd_add_right (guardOf_dvd sz)).2 (Nat.dvd_mul_left _ _))
    rw [h1, PGROUNDUP_self (guardOf_dvd sz), topOf, Nat.add_sub_cancel_left, Nat.mul_div_cancel _ PGSIZE_pos,
      ← hl.cost (stackTabs sz) (kernTabs_subset_stackTabs sz) fun v h => mem_stackTabs hsz (.inl h)]
    refine hRR.mono ?_
    unfold stackCost
    omega

/-- A file has one image. -/
theorem Segments.unique {off : ℕ} (h : Segments ip n off sz a) (h' : Segments ip n off sz b) : a = b := by
  induction h with
  | done =>
    cases h'
    rfl
  | skip hb _ ht _ ih =>
    cases h' with
    | skip _ _ _ h' => exact ih h'
    | load hb' _ ht' => exact absurd (by rw [hb, ← hb', ht']) ht
  | load hb _ ht hs _ ih =>
    cases h' with
    | skip hb' _ ht' => exact absurd (by rw [hb', ← hb, ht]) ht'
    | load hb' _ _ hs' h' =>
      subst hb hb'
      rw [hs'.end_eq, ← hs.end_eq] at h'
      exact ih h'

/-- What `loadImage` makes of a file and the arguments. -/
structure Loaded (L : Linker) (d : ℕ) (ip : Readi) (elf : Elfhdr) (argv : List (List UInt8)) (im : Image) (sz : ℕ)
    (s s' : Kern) : Prop extends Imaged L d sz s s' where
  segments : Segments ip elf.phnum elf.phoff PGSIZE sz
  layout : im.Of sz
  shows_ : Shows d sz (overSegments ip elf.phnum elf.phoff fun _ => 0) s'
  frame : ∃ as, framed (lowOf sz) (topOf sz) argv = some (im.sp, as) ∧
    ArgFrame d (lowOf sz) (topOf sz) im.sp argv as s'

theorem tr_loadImage (hS : Sound L P.area s₁ g₁) (hl : Laid L d 0 s s₁) (hT : ∀ v, v < NUPG → P.touch d v)
    (hf : ∀ v, v < NUPG → P.flag d v) (hW : ∀ v, v < NUPG → P.write d v) (hlen : ∀ arg ∈ argv, arg.length < KERNBASE)
    (hF : ∀ sz s', Segments ip elf.phnum elf.phoff PGSIZE sz → Rich (stackCost sz) s → lost (lowOf sz) (topOf sz) argv → F s')
    (hN : ∀ sz, Segments ip elf.phnum elf.phoff PGSIZE sz → Rich (imageCost sz) s → ¬ Rich (stackCost sz) s →
      N "panic stackptr failed") :
    Tr (Ev L P) (loadImage L d ip elf argv) s₁ g₁ (fun x s' _ => match x with
      | none => Made L d s s' ∧ ∀ sz, Segments ip elf.phnum elf.phoff PGSIZE sz → Rich (imageCost sz) s →
          Rich (stackCost sz) s ∧
            (argv.length ≤ MAXARG → framed (lowOf sz) (topOf sz) argv = none ∧ ¬ lost (lowOf sz) (topOf sz) argv)
      | some im => ∃ sz, Loaded L d ip elf argv im sz s s') F N := by
  have hpg : PGSIZE < KERNBASE := by simp [PGSIZE, KERNBASE]
  rw [loadImage_eq]
  refine tr_bind (tr_loadProgram hS hl hT hf hW) ?_
  rintro (_ | sz) s₂ g₂ h₂ hQ
  · obtain ⟨hm, hno⟩ := hQ
    exact tr_pure ⟨hm, fun sz hseg hR => absurd hR (hno sz hseg)⟩
  · obtain ⟨hseg, hl₂, hsh⟩ := hQ
    refine tr_post (tr_layStack (hS.evs h₂) hl₂ hsh (PGSIZE_pos.trans_le hseg.le) (hseg.lt hpg) hT hf hW hlen
      (hF sz · hseg) (hN sz hseg (hl₂.rich (hseg.lt hpg)))) ?_
    rintro (_ | im) s₃ g₃ - hQ
    · refine ⟨hQ.1, fun sz' hseg' hR => ?_⟩
      rw [hseg'.unique hseg]
      exact hQ.2
    · obtain ⟨hof, him, hsh₃, hfr⟩ := hQ
      exact ⟨sz, him, hseg, hof, hsh₃, hfr⟩

end

end Xv6

import Xv6.Proofs.VdsoTrace
import Xv6.Proofs.Copyout

/-! `exec` as a chain of small steps: writing to the pages of a new page table, and the segments of the
file. -/

namespace Xv6

open Prog Count Relation Bytes Nat
open Finset (mem_filter mem_range)
open Function (update)

section

variable {L : Linker} {P P' : Perm} {s s' s'' s₁ s₂ : Kern} {g g' g'' g₁ : Ghost}
  {d v k m r f va i off offset sz new x n sz' : ℕ} {e : Pte} {p : Proc} {F : Kern → Prop} {N : String → Prop}
  {α : Type} {ip : Readi} {a b : Kern × Ghost} {ph : Proghdr} {Q : α → Kern → Ghost → Prop}

attribute [local irreducible] loop PGSIZE

/-! Writing to the pages of a page table that is being built. -/

/-- Only memory has changed, and only pages that `d` maps writable. -/
structure Inked (d : ℕ) (s s' : Kern) : Prop where
  same : s' = { s with mem := s'.mem }
  mem : ∀ f, (∀ v, v < NUPG → (s.entry d v).w = true → (s.entry d v).ppn ≠ f) → s'.mem f = s.mem f

theorem Inked.refl : Inked d s s := ⟨rfl, fun _ _ => rfl⟩

theorem Inked.entry (h : Inked d s s') : s'.entry = s.entry := by
  rw [h.same]
  rfl

theorem Inked.ptab (h : Inked d s s') : s'.ptab = s.ptab := by rw [h.same]

theorem Inked.trans (h : Inked d s s') (h' : Inked d s' s'') : Inked d s s'' where
  same := by
    rw [h'.same, h.same]
  mem f hf := by
    rw [h'.mem f (by rw [h.entry]; exact hf), h.mem f hf]

/-- Writing bytes to a writable page of `d`. -/
theorem tr_memwrite {fn : Unit → K α} {bs : List UInt8}
    (hv : v < NUPG) (hW : P.write d v) (he : s.entry d v = e) (hw : e.w = true)
    (h : ∀ s', s' = { s with mem := update s.mem e.ppn (overlay (s.mem e.ppn) off bs) } → Inked d s s' →
      Tr (Ev L P) (fn ()) s' g Q F N) :
    Tr (Ev L P) (memwrite e.ppn off bs >>= fn) s g Q F N := by
  subst he
  have hmem : ∀ f, f ≠ (s.entry d v).ppn →
      update s.mem (s.entry d v).ppn (overlay (s.mem (s.entry d v).ppn) off bs) f = s.mem f :=
    fun f hf => Function.update_of_ne hf _ _
  refine tr_modify (.single (.write hW hv hw ⟨⟨rfl, rfl, rfl, rfl, rfl, rfl, rfl⟩, rfl, rfl, rfl⟩ hmem)) (h _ rfl ⟨rfl, fun f hf => ?_⟩)
  exact hmem f fun h' => hf v hv hw h'.symm

/-- The page tables for the bytes `[va, va + len)` exist. -/
def Spans (s : Kern) (d va len : ℕ) : Prop :=
  va + len ≤ 2 ^ 32 ∧ ∀ a, va ≤ a → a < va + len → s.ptab d (PDX a) ≠ 0

/-- The pages of `d` that user code can use are writable, and lie below `KERNBASE`. -/
def Plain (s : Kern) (d : ℕ) : Prop :=
  ∀ v, (s.entry d v).u = true → v < NUPG ∧ (s.entry d v).w = true

theorem tr_uva2ka (hlt : va < 2 ^ 32) (hF : s.ptab d (PDX va) = 0 → F s) :
    Tr (Ev L P) (uva2ka d va) s g (fun x s' g' => s' = s ∧ g' = g ∧
      ∀ f, x = some f → (s.entry d (va / PGSIZE)).u = true ∧ f = (s.entry d (va / PGSIZE)).ppn) F N := by
  unfold uva2ka
  refine tr_walk_false (fun htab => ?_) fun h0 => tr_fault (hF h0)
  refine tr_loadPte (by rw [← PDX_eq hlt]; exact htab) (tr_pure ⟨rfl, rfl, fun f hf => ?_⟩)
  split_ifs at hf with hpu
  exact ⟨hpu.2, (Option.some.inj hf).symm⟩

theorem Spans.next {len : ℕ} (h : Spans s d va len)
    (hlen : min (PGSIZE - (va - PGROUNDDOWN va)) len < len) :
    Spans s d (u32 (PGROUNDDOWN va + PGSIZE)) (len - min (PGSIZE - (va - PGROUNDDOWN va)) len) := by
  have hn := next_round hlen
  have h1 := h.1
  have hu : u32 (PGROUNDDOWN va + PGSIZE) = PGROUNDDOWN va + PGSIZE := mod_eq_of_lt (by omega)
  rw [hu, hn]
  exact ⟨by omega, fun a ha hlt => h.2 a (by omega) (by omega)⟩

theorem tr_copyoutLoop (hW : ∀ v, v < NUPG → P.write d v) : ∀ (n va : ℕ) (buf : List UInt8) (s : Kern),
    buf.length ≤ n → va < 2 ^ 32 → Plain s d →
    (∀ s', ¬ Spans s d va buf.length → F s') →
    Tr (Ev L P) (copyoutLoop d n va buf) s g (fun _ s' g' => g' = g ∧ Inked d s s') F N := by
  intro n
  induction n with
  | zero =>
    intro va buf s hn _ _ _
    obtain rfl : buf = [] := List.eq_nil_of_length_eq_zero (by omega)
    exact tr_pure ⟨rfl, .refl⟩
  | succ n ih =>
    intro va buf s hn hva hpl hF
    cases buf with
    | nil => exact tr_pure ⟨rfl, .refl⟩
    | cons b bs =>
      have hle : PGROUNDDOWN va ≤ va := PGROUNDDOWN_le va
      refine tr_bind (tr_uva2ka (hle.trans_lt hva) fun h0 => hF s fun h => ?_) ?_
      · rw [PDX_PGROUNDDOWN] at h0
        exact h.2 va le_rfl (by simp) h0
      rintro x s₁ g₁ - ⟨rfl, rfl, hx⟩
      cases x with
      | none => exact tr_pure ⟨rfl, .refl⟩
      | some f =>
        obtain ⟨hu, rfl⟩ := hx f rfl
        obtain ⟨hv, hw⟩ := hpl _ hu
        refine tr_memwrite hv (hW _ hv) rfl hw fun s₂ _ h₂ => ?_
        set len := (b :: bs).length with hlen
        set m := min (PGSIZE - (va - PGROUNDDOWN va)) len with hm
        have hdrop : ((b :: bs).drop m).length = len - m := List.length_drop
        have hpos : 0 < m := by
          have h1 : 0 < len := by simp [hlen]
          have h2 : va - PGROUNDDOWN va < PGSIZE := by
            simp only [PGROUNDDOWN, PGSIZE]
            omega
          omega
        refine tr_post (ih _ _ s₂ (by omega) (mod_lt _ (by norm_num)) ?_ fun s' hno => ?_) ?_
        · intro v
          rw [h₂.entry]
          exact hpl v
        · refine hF s' fun hsp => hno ?_
          rw [hdrop]
          by_cases hlt : m < len
          · have := hsp.next hlt
            unfold Spans
            rw [h₂.ptab]
            exact this
          · have h0 : len - m = 0 := by omega
            rw [h0]
            exact ⟨(mod_lt _ (by norm_num)).le, fun a h1 h2 => by omega⟩
        · rintro _ s₃ g₃ - ⟨rfl, h₃⟩
          exact ⟨rfl, h₂.trans h₃⟩

theorem tr_copyout {buf : List UInt8} (hva : va < 2 ^ 32) (hW : ∀ v, v < NUPG → P.write d v) (hpl : Plain s d)
    (hF : ∀ s', ¬ Spans s d va buf.length → F s') :
    Tr (Ev L P) (copyout d va buf) s g (fun _ s' g' => g' = g ∧ Inked d s s') F N :=
  tr_copyoutLoop hW _ _ _ _ le_rfl hva hpl hF

/-- `readi` finds all the bytes for the page at `i` of a segment of `sz` bytes. -/
def Readi.gets (ip : Readi) (offset sz i : ℕ) : Prop :=
  ((ip (u32 (offset + i)) (if sz - i < PGSIZE then sz - i else PGSIZE)).take
    (if sz - i < PGSIZE then sz - i else PGSIZE)).length = if sz - i < PGSIZE then sz - i else PGSIZE

/-- `readi` finds all of the segment. -/
def Readi.full (ip : Readi) (offset sz : ℕ) : Prop := ∀ i, i < sz → PGSIZE ∣ i → ip.gets offset sz i

/-- The byte at `j` of a segment of `sz` bytes, as `readi` gives it with the page it is in. -/
def Readi.byte (ip : Readi) (offset sz j : ℕ) : UInt8 :=
  let i := j / PGSIZE * PGSIZE
  (ip (u32 (offset + i)) (if sz - i < PGSIZE then sz - i else PGSIZE)).getD (j - i) 0

def Readi.data (ip : Readi) (offset sz : ℕ) : List UInt8 := (List.range sz).map (ip.byte offset sz)

theorem Readi.length_data (ip : Readi) (offset sz : ℕ) : (ip.data offset sz).length = sz := by
  unfold Readi.data
  rw [List.length_map, List.length_range]

theorem Readi.getD_data {j : ℕ} (h : j < sz) : (ip.data offset sz).getD j 0 = ip.byte offset sz j := by
  rw [List.getD_eq_getElem?_getD, List.getElem?_eq_getElem (by rw [ip.length_data]; exact h), Option.getD_some]
  simp only [Readi.data, List.getElem_map, List.getElem_range]

/-- The bytes of one page of a segment. -/
theorem Readi.data_page {a : ℕ} (hdvd : PGSIZE ∣ a) (hg : ip.gets offset sz a) :
    (ip (u32 (offset + a)) (if sz - a < PGSIZE then sz - a else PGSIZE)).take (if sz - a < PGSIZE then sz - a else PGSIZE) =
      ((ip.data offset sz).drop a).take PGSIZE := by
  unfold Readi.gets at hg
  have hlen : (((ip.data offset sz).drop a).take PGSIZE).length = if sz - a < PGSIZE then sz - a else PGSIZE := by
    rw [List.length_take, List.length_drop, ip.length_data]
    split_ifs <;> omega
  refine List.ext_getElem (hg.trans hlen.symm) fun k hk hk' => ?_
  have hpage : (a + k) / PGSIZE * PGSIZE = a := by
    rw [hg] at hk
    obtain ⟨c, rfl⟩ := hdvd
    split_ifs at hk <;> simp only [PGSIZE] at * <;> omega
  rw [List.getElem_take, List.getElem_take, List.getElem_drop]
  simp only [Readi.data, List.getElem_map, List.getElem_range, Readi.byte]
  rw [hpage, Nat.add_sub_cancel_left, List.getD_eq_getElem?_getD, List.getElem?_eq_getElem, Option.getD_some]

theorem tab_of_w (h : (s.entry d v).w = true) : s.ptab d (v / NPTENTRIES) ≠ 0 := by
  intro h0
  rw [entry_of_no_tab h0] at h
  simp at h

theorem tr_loaduvm {addr : ℕ} (hal : PGSIZE ∣ addr) (hlt : addr + sz ≤ KERNBASE)
    (hpg : ∀ v, addr ≤ v * PGSIZE → v * PGSIZE < addr + sz → (s.entry d v).w = true)
    (hW : ∀ v, v < NUPG → P.write d v) :
    Tr (Ev L P) (loaduvm d addr ip offset sz) s g
      (fun ok s' g' => g' = g ∧ Inked d s s' ∧ (ok = true ↔ ip.full offset sz) ∧
        (ok = true → s' = s.copied d addr (ip.data offset sz))) F N := by
  unfold loaduvm
  refine tr_check (fun _ => ?_) fun h => absurd (mod_eq_zero_of_dvd hal) h
  -- the pages below `a` are read
  refine tr_loop (fun a s' g' => PGSIZE ∣ a ∧ g' = g ∧ Inked d s s' ∧ s' = s.copied d addr ((ip.data offset sz).take a) ∧
    ∀ i, i < a → i < sz → PGSIZE ∣ i → ip.gets offset sz i) ?_ ?_ ?_
  · exact ⟨dvd_zero _, rfl, .refl, rfl, fun i h => absurd h (not_lt_zero _)⟩
  · rintro a s₁ g₁ - ha ⟨hdvd, rfl, hink, hcop, hall⟩
    have hk : addr + a < KERNBASE := by omega
    have h32 : addr + a < 2 ^ 32 := hk.trans (by simp [KERNBASE])
    have hu : u32 (addr + a) = addr + a := mod_eq_of_lt h32
    have hpa : (addr + a) / PGSIZE * PGSIZE = addr + a := page_mul ((Nat.dvd_add_right hal).2 hdvd)
    have hv : (addr + a) / PGSIZE < NUPG := page_lt hk
    have hw : (s₁.entry d ((addr + a) / PGSIZE)).w = true := by
      rw [hink.entry]
      exact hpg _ (by omega) (by omega)
    rw [hu]
    refine tr_walk_false (fun htab => ?_) fun h0 => absurd h0 (by rw [PDX_eq h32]; exact tab_of_w hw)
    refine tr_loadPte (tab_of_w hw) (tr_memwrite hv (hW _ hv) rfl hw fun s₂ hs₂ h₂ => tr_pure ?_)
    by_cases hb : ip.gets offset sz a
    · have hlen := hb
      unfold Readi.gets at hlen
      rw [if_pos hlen]
      refine ⟨Nat.lt_add_of_pos_right PGSIZE_pos, (Nat.dvd_add_right hdvd).2 (dvd_refl _), rfl, hink.trans h₂, ?_, ?_⟩
      · rw [hs₂, Readi.data_page hdvd hb]
        have h0 : (addr + a) % PGSIZE = 0 := Nat.mod_eq_zero_of_dvd ((Nat.dvd_add_right hal).2 hdvd)
        have hle : (((ip.data offset sz).drop a).take PGSIZE).length ≤ PGSIZE := List.length_take_le _ _
        have hc := @copied_page s₁ d (addr + a) (((ip.data offset sz).drop a).take PGSIZE) (by rw [h0]; omega)
        rw [h0] at hc
        refine hc.trans ?_
        have ha' : ((ip.data offset sz).take a).length = a := by
          rw [List.length_take, ip.length_data]
          omega
        rw [hcop, List.take_add, copied_append, ha']
      intro i hi his hid
      by_cases hia : i < a
      · exact hall i hia his hid
      · obtain rfl : i = a := by
          have := next_page_le hdvd hid
          omega
        exact hb
    · have hlen := hb
      unfold Readi.gets at hlen
      rw [if_neg hlen]
      exact ⟨rfl, hink.trans h₂, iff_of_false (by simp) fun h => hb (h a ha hdvd), fun h => by simp at h⟩
  · rintro a s₁ g₁ - hend ⟨-, rfl, hink, hcop, hall⟩
    refine ⟨rfl, hink, iff_of_true rfl fun i hi => hall i (by omega) hi, fun _ => ?_⟩
    rw [hcop, List.take_of_length_le (by rw [ip.length_data]; exact hend)]

/-! Chains that spare some of what they are allowed to touch. -/

/-- `P` allows all that `Q` does, and asks for the same. -/
structure Perm.Covers (P Q : Perm) : Prop where
  touch : ∀ d v, Q.touch d v → P.touch d v
  flag : ∀ d v, Q.flag d v → P.flag d v
  write : ∀ d v, Q.write d v → P.write d v
  area : P.area = Q.area

theorem Change.mono (hP : P'.Covers P) (h : Change L P s d v e) : Change L P' s d v e := by
  cases h with
  | kern hv ht => exact .kern hv (hP.touch _ _ ht)
  | clear hv hf hp hu => exact .clear hv (hP.flag _ _ hf) hp hu
  | claim hv hf hc h1 => exact .claim hv (hP.flag _ _ hf) hc h1

theorem Ev.mono (hP : P'.Covers P) (h : Ev L P a b) : Ev L P' a b := by
  cases h with
  | quiet h hm => exact .quiet h hm
  | procs hk => exact .procs hk
  | pass r c hok hr hc he href hh ho ht hn hm hd =>
    exact .pass r c hok (hr.imp_right (.imp_right fun h => ⟨h.1, fun v => hP.touch _ _ (h.2 v)⟩)) hc he href hh ho ht hn hm
      fun d h => (hd d h).imp id fun h v => hP.touch _ _ (h v)
  | change hc h hm => exact .change (hc.mono hP) h hm
  | map ht hv htab hp hheld hcow h hm =>
    rw [← hP.area]
    exact .map (hP.touch _ _ ht) hv htab hp hheld hcow h hm
  | vshare ht hv h0 htab hp hf h hm => exact .vshare (hP.touch _ _ ht) hv h0 htab hp hf h hm
  | drop ht hv hsrc hp hf0 h1 h hm => exact .drop (hP.touch _ _ ht) hv hsrc hp hf0 h1 h hm
  | last ht hv hsrc hp hf0 h1 hk hf he hr hm => exact .last (hP.touch _ _ ht) hv hsrc hp hf0 h1 hk hf he hr hm
  | untab ht hsrc hr0 hk hf he hr hm => exact .untab (fun v h => hP.touch _ _ (ht v h)) hsrc hr0 hk hf he hr hm
  | write ht hv hw h hm => exact .write (hP.write _ _ ht) hv hw h hm

theorem Evs.mono (hP : P'.Covers P) (h : Evs L P a b) : Evs L P' a b := by
  induction h with
  | refl => exact .refl
  | tail _ h ih => exact ih.tail (h.mono hP)

/-- A run that spares more is a run, and where it gets is reached sparingly. -/
theorem tr_spare {x : K α} (hP : P'.Covers P) (h : Tr (Ev L P) x s g Q F N) :
    Tr (Ev L P') x s g (fun a s' g' => Evs L P (s, g) (s', g') ∧ Q a s' g')
      (fun s' => F s' ∧ ∃ g', Evs L P (s, g) (s', g')) N := by
  refine sat_mono h ?_ ?_ fun _ _ h => h
  · rintro a s' ⟨g', he, hq⟩
    exact ⟨g', Evs.mono hP he, he, hq⟩
  · rintro s' ⟨hF, g', he⟩
    exact ⟨⟨hF, g', he⟩, g', Evs.mono hP he⟩

/-! The segments. -/

/-- `d` is a new page table for the kernel and for writable pages of its own. -/
structure Made (L : Linker) (d : ℕ) (s s' : Kern) : Prop where
  fresh : s.dir d = false
  dir : s'.dir = update s.dir d true
  other : ∀ d' v, d' ≠ d → s'.entry d' v = s.entry d' v
  kern : ∀ v, NUPG ≤ v → s'.entry d v = kentry L v
  user : ∀ v, v < NUPG → s'.entry d v = {} ∨ ((s'.entry d v).w = true ∧ (s'.entry d v).ppn ≠ 0)
  proc : s'.proc = s.proc

/-- The entry of page `v` of a new image, for frame `f`: `PTE_P` is clear for the null page. -/
def imagePte (v f : ℕ) : Pte := { p := decide (v ≠ 0), w := true, u := true, ppn := f }

/-- The page tables for an image of `sz` bytes. -/
def imageTabs (sz : ℕ) : Finset ℕ :=
  kernTabs ∪ ((Finset.range NUPG).filter fun v => v * PGSIZE < sz).image (· / NPTENTRIES)

/-- The pages of `[0, sz)` are laid out in `d`, at the cost of a frame for each, for the directory and
for its page tables. -/
structure Laid (L : Linker) (d sz : ℕ) (s s' : Kern) : Prop extends Made L d s s' where
  page : ∀ v, v * PGSIZE < sz → s'.entry d v = imagePte v (s'.entry d v).ppn ∧ (s'.entry d v).ppn ≠ 0
  empty : ∀ v, v < NUPG → sz ≤ v * PGSIZE → s'.entry d v = {}
  tabs : ∀ k, s'.ptab d k ≠ 0 → k ∈ imageTabs sz
  cost : ∀ K, kernTabs ⊆ K → (∀ v, v * PGSIZE < sz → v / NPTENTRIES ∈ K) → ∀ m,
    (Rich (m + 1 + PGROUNDUP sz / PGSIZE + K.card) s ↔ Rich (m + s'.miss d K) s')

theorem Inked.eq_with (h : Inked d s s') : ∃ m, s' = { s with mem := m } := ⟨_, h.same⟩

theorem Made.inked (h : Made L d s s') (hi : Inked d s' s'') : Made L d s s'' := by
  obtain ⟨m, rfl⟩ := hi.eq_with
  exact ⟨h.fresh, h.dir, h.other, h.kern, h.user, h.proc⟩

theorem Laid.inked (h : Laid L d sz s s') (hi : Inked d s' s'') : Laid L d sz s s'' := by
  have hm := h.toMade.inked hi
  obtain ⟨m, rfl⟩ := hi.eq_with
  exact ⟨hm, h.page, h.empty, h.tabs, h.cost⟩

theorem Made.fell {lo hi : ℕ} (h : Made L d s s') (hf : Fell d lo hi s' s'') (hlt : hi ≤ KERNBASE) : Made L d s s'' where
  fresh := h.fresh
  dir := hf.dir.trans h.dir
  other d' v hd := (hf.entry d' v).elim (fun he => he.trans (h.other d' v hd)) fun he => absurd he.1 hd
  kern v hv := by
    rcases hf.entry d v with he | ⟨-, -, hlt', -⟩
    · rw [he, h.kern v hv]
    · exfalso
      simp only [NUPG, PGSIZE, KERNBASE] at *
      omega
  user v hv := by
    rcases hf.entry d v with he | ⟨-, -, -, he⟩
    · rw [he]
      exact h.user v hv
    · exact .inl he
  proc := hf.proc.trans h.proc

theorem PGROUNDUP_pages {a b : ℕ} (h : a ≤ b) :
    PGROUNDUP b / PGSIZE = PGROUNDUP a / PGSIZE + (PGROUNDUP b - PGROUNDUP a) / PGSIZE := by
  simp only [PGROUNDUP, PGSIZE]
  omega

theorem PGROUNDUP_le_page {a : ℕ} : PGROUNDUP a ≤ v * PGSIZE ↔ a ≤ v * PGSIZE :=
  ⟨(le_PGROUNDUP a).trans, fun h => PGROUNDUP_le h (Dvd.intro_left _ rfl)⟩

theorem lt_NUPG (h : v * PGSIZE < KERNBASE) : v < NUPG := by
  simp only [NUPG, PGSIZE, KERNBASE] at *
  omega

/-- The pages of `[lo, hi)` are new in `d`. -/
structure Paged (d lo hi : ℕ) (s s' : Kern) : Prop where
  other : ∀ d' v, ¬ (d' = d ∧ lo ≤ v * PGSIZE ∧ v * PGSIZE < hi) → s'.entry d' v = s.entry d' v
  page : ∀ v, lo ≤ v * PGSIZE → v * PGSIZE < hi →
    s'.entry d v = { p := true, w := true, u := true, ppn := (s'.entry d v).ppn } ∧ (s'.entry d v).ppn ≠ 0
  zero : ∀ v, lo ≤ v * PGSIZE → v * PGSIZE < hi → s'.mem (s'.entry d v).ppn = fun _ => 0
  old : ∀ v, v < NUPG → (s.entry d v).ppn ≠ 0 → s'.mem (s.entry d v).ppn = s.mem (s.entry d v).ppn
  tab : ∀ k, (∀ v, lo ≤ v * PGSIZE → v * PGSIZE < hi → v / NPTENTRIES ≠ k) → s'.ptab d k = s.ptab d k
  cost : ∀ K, (∀ v, lo ≤ v * PGSIZE → v * PGSIZE < hi → v / NPTENTRIES ∈ K) → ∀ m,
    (Rich (m + (PGROUNDUP hi - lo) / PGSIZE + s.miss d K) s ↔ Rich (m + s'.miss d K) s')

/-- `allocuvm` where a new page table is still empty. -/
theorem tr_layRange {old : ℕ} (hI : Inv L s₁ g₁) (hm : Made L d s s₁)
    (hempty : ∀ v, old ≤ v * PGSIZE → v * PGSIZE < new → s₁.entry d v = {}) (hle : old ≤ new) (hlt : new < KERNBASE)
    (hT : ∀ v, v < NUPG → P.touch d v) :
    Tr (Ev L P) (allocuvm L d old new none) s₁ g₁ (fun x s' _ =>
      (x = new ∧ Made L d s s' ∧ Paged d (PGROUNDUP old) new s₁ s') ∨
      (x = 0 ∧ Made L d s s' ∧ ∀ K, (∀ v, old ≤ v * PGSIZE → v * PGSIZE < new →
        v / NPTENTRIES ∈ K) → ¬ Rich ((PGROUNDUP new - PGROUNDUP old) / PGSIZE + s₁.miss d K) s₁)) F N := by
  refine tr_post (tr_allocuvm hI (by rw [hm.dir, Function.update_self]) hlt hle
    ⟨fun v _ h => hT v (lt_NUPG (h.trans hlt)), by simp, by simp, fun v hv => ?_⟩ fun v s₂ g₂ h1 h2 hp => ?_) ?_
  · have := hv.2.2
    rw [goes, hempty v (PGROUNDUP_le_page.1 hv.1) hv.2.1] at this
    simp at this
  · rw [hempty v (PGROUNDUP_le_page.1 h1) h2] at hp
    simp at hp
  · rintro x s' g' - (⟨rfl, hg, hother, hfresh, htab, hR⟩ | ⟨rfl, hf, hR⟩)
    · refine .inl ⟨rfl, ⟨hm.fresh, hg.dir.trans hm.dir, fun d' v hd => ?_, fun v hv => ?_, fun v hv => ?_,
        hg.proc.trans hm.proc⟩, hother, fun v h1 h2 => ?_,
        fun v h1 h2 => (hfresh v h1 h2).1.mem, fun v hv hp => hg.mem _ ?_, htab, hR⟩
      · rw [hother d' v (fun h => hd h.1), hm.other d' v hd]
      · rw [hother d v, hm.kern v hv]
        rintro ⟨-, -, h⟩
        exact absurd (lt_NUPG (h.trans hlt)) (not_lt.2 hv)
      · by_cases hr : PGROUNDUP old ≤ v * PGSIZE ∧ v * PGSIZE < x
        · obtain ⟨hf, -, -⟩ := hfresh v hr.1 hr.2
          rw [hf.entry]
          exact .inr ⟨rfl, hf.ppn⟩
        · rw [hother d v (fun h => hr h.2)]
          exact hm.user v hv
      · exact ⟨(hfresh v h1 h2).1.entry, (hfresh v h1 h2).1.ppn⟩
      · intro hfree
        have huser := (hI.named d v hv).resolve_left hp
        rw [hfree] at huser
        simp [Cls.user] at huser
    · exact .inr ⟨rfl, hm.fell hf hlt.le, fun K hK => hR K fun v h => hK v (PGROUNDUP_le_page.1 h)⟩

/-- The frames for an image of `sz` bytes. -/
def imageCost (sz : ℕ) : ℕ := 1 + PGROUNDUP sz / PGSIZE + (imageTabs sz).card

theorem mem_imageTabs (hsz : sz < KERNBASE) (h : v * PGSIZE < sz) : v / NPTENTRIES ∈ imageTabs sz :=
  Finset.mem_union_right _ (Finset.mem_image_of_mem _ (mem_filter.2
    ⟨mem_range.2 (lt_NUPG (h.trans hsz)), h⟩))

theorem imageTabs_mono {a b : ℕ} (h : a ≤ b) : imageTabs a ⊆ imageTabs b := by
  refine Finset.union_subset_union_right (Finset.image_subset_image fun v hv => ?_)
  obtain ⟨h1, h2⟩ := mem_filter.1 hv
  exact mem_filter.2 ⟨h1, h2.trans_le h⟩

theorem imageCost_mono {a b : ℕ} (h : a ≤ b) : imageCost a ≤ imageCost b := by
  have hpages : PGROUNDUP a / PGSIZE ≤ PGROUNDUP b / PGSIZE := Nat.div_le_div_right (PGROUNDUP_mono h)
  have htabs : (imageTabs a).card ≤ (imageTabs b).card := Finset.card_le_card (imageTabs_mono h)
  unfold imageCost
  omega

/-- The pages of an image of `sz` bytes hold `img`, which is 0 after them. -/
structure Shows (d sz : ℕ) (img : ℕ → UInt8) (s : Kern) : Prop where
  byte : ∀ a, a < PGROUNDUP sz → s.byteAt d a = img a
  rest : ∀ a, PGROUNDUP sz ≤ a → img a = 0

theorem page_lt_PGROUNDUP {a : ℕ} : v * PGSIZE < PGROUNDUP a ↔ v * PGSIZE < a := by
  rw [← not_le, ← not_le, PGROUNDUP_le_page]

theorem page_of_lt_PGROUNDUP {a : ℕ} (h : x < PGROUNDUP a) : x / PGSIZE * PGSIZE < a :=
  page_lt_PGROUNDUP.1 ((div_mul_le_self x PGSIZE).trans_lt h)

theorem byteAt_congr {t : Kern} (he : (t.entry d (x / PGSIZE)).ppn = (s.entry d (x / PGSIZE)).ppn)
    (hm : t.mem (s.entry d (x / PGSIZE)).ppn = s.mem (s.entry d (x / PGSIZE)).ppn) : t.byteAt d x = s.byteAt d x := by
  unfold Kern.byteAt Kern.place
  rw [he, hm]

/-- Where the pages up to `new` are too many, the image of `new` bytes is too large. -/
theorem Laid.poor (hl : Laid L d sz s s₁) (hle : sz ≤ new) (hlt : new < KERNBASE)
    (hR : ∀ K, (∀ v, sz ≤ v * PGSIZE → v * PGSIZE < new → v / NPTENTRIES ∈ K) →
      ¬ Rich ((PGROUNDUP new - PGROUNDUP sz) / PGSIZE + s₁.miss d K) s₁) : ¬ Rich (imageCost new) s := by
  intro hRR
  have hpages := PGROUNDUP_pages hle
  have hin : ∀ v, v * PGSIZE < new → v / NPTENTRIES ∈ imageTabs new := fun v h => mem_imageTabs hlt h
  refine hR (imageTabs new) (fun v _ h => hin v h) ?_
  rw [← hl.cost (imageTabs new) Finset.subset_union_left fun v h => hin v (h.trans_le hle)]
  refine hRR.mono ?_
  unfold imageCost
  omega

/-- More pages at the end of an image. -/
theorem tr_layPages (hI : Inv L s₁ g₁) (hl : Laid L d sz s s₁) (hpos : 0 < sz)
    (hle : sz ≤ new) (hlt : new < KERNBASE) (hT : ∀ v, v < NUPG → P.touch d v) :
    Tr (Ev L P) (allocuvm L d sz new none) s₁ g₁ (fun x s' _ =>
      (x = new ∧ Laid L d new s s' ∧ ∀ img, Shows d sz img s₁ → Shows d new img s') ∨
      (x = 0 ∧ Made L d s s' ∧ ¬ Rich (imageCost new) s)) F N := by
  have hpages := PGROUNDUP_pages hle
  refine tr_post (tr_layRange hI hl.toMade (fun v h1 h2 => hl.empty v (lt_NUPG (h2.trans hlt)) h1) hle hlt hT) ?_
  rintro x s' g' - (⟨rfl, hm, hp⟩ | ⟨rfl, hm, hR⟩)
  · refine .inl ⟨rfl, ⟨hm, fun v hv => ?_, fun v hv h => ?_, fun k hk => ?_, fun K hK hv m => ?_⟩, fun img himg =>
      ⟨fun a ha => ?_, fun a ha => himg.rest a ((PGROUNDUP_mono hle).trans ha)⟩⟩
    · by_cases hr : PGROUNDUP sz ≤ v * PGSIZE
      · have h0 : v ≠ 0 := by
          rintro rfl
          have := le_PGROUNDUP sz
          omega
        rw [imagePte, decide_eq_true h0]
        exact hp.page v hr hv
      · rw [hp.other d v (fun h => hr h.2.1)]
        refine hl.page v ?_
        by_contra hn
        exact hr (PGROUNDUP_le_page.2 (not_lt.1 hn))
    · rw [hp.other d v (fun h' => absurd h'.2.2 (not_lt.2 h))]
      exact hl.empty v hv (hle.trans h)
    · by_cases hin : ∃ v, v * PGSIZE < x ∧ v / NPTENTRIES = k
      · obtain ⟨v, hv, rfl⟩ := hin
        exact mem_imageTabs hlt hv
      · rw [hp.tab k fun v _ h2 h3 => hin ⟨v, h2, h3⟩] at hk
        exact imageTabs_mono hle (hl.tabs k hk)
    · rw [← hp.cost K (fun v _ h => hv v h), ← hl.cost K hK fun v h => hv v (h.trans_le hle), hpages]
      congr! 1
      omega
    · have hpa := page_of_lt_PGROUNDUP ha
      by_cases hr : PGROUNDUP sz ≤ a / PGSIZE * PGSIZE
      · -- a new page is zero
        rw [himg.rest a (hr.trans (div_mul_le_self a PGSIZE))]
        unfold Kern.byteAt Kern.place
        rw [hp.zero _ hr hpa]
      · have hlo : a < PGROUNDUP sz := by
          obtain ⟨c, hc⟩ := PGROUNDUP_dvd sz
          simp only [PGSIZE] at *
          omega
        have hent := hp.other d (a / PGSIZE) fun h => hr h.2.1
        rw [← himg.byte a hlo]
        refine byteAt_congr (by rw [hent]) (hp.old _ (lt_NUPG (hpa.trans hlt)) ?_)
        exact (hl.page _ (page_of_lt_PGROUNDUP hlo)).2
  · exact .inr ⟨rfl, hm, hl.poor hle hlt hR⟩

theorem NewDir.laid (h : NewDir L d s s')
    (hR : ∀ K, kernTabs ⊆ K → ∀ m, (Rich (m + 1 + K.card) s ↔ Rich (m + s'.miss d K) s')) : Laid L d 0 s s' where
  fresh := h.fresh
  dir := h.dir
  other d' v hd := by rw [h.entry, if_neg hd]
  kern v _ := by rw [h.entry, if_pos rfl]
  user v hv := .inl (by rw [h.entry, if_pos rfl, kentry_user hv])
  proc := h.proc
  page v hv := absurd hv (not_lt_zero _)
  empty v hv _ := by rw [h.entry, if_pos rfl, kentry_user hv]
  tabs k hk := by
    by_contra hn
    exact hk (h.tab k fun h' => hn (Finset.mem_union_left _ h'))
  cost K hK _ m := by
    rw [PGROUNDUP_zero, Nat.zero_div, Nat.add_zero]
    exact hR K hK m

/-- The segment loads into an image of `sz` bytes, if there is memory for it, and leaves one of `sz'`. -/
structure Proghdr.Loads (ph : Proghdr) (ip : Readi) (sz sz' : ℕ) : Prop where
  size : ph.filesz ≤ ph.memsz
  wrap : ph.vaddr ≤ u32 (ph.vaddr + ph.memsz)
  lt : u32 (ph.vaddr + ph.memsz) < KERNBASE
  aligned : PGSIZE ∣ ph.vaddr
  full : ip.full ph.off ph.filesz
  end_eq : sz' = max sz (u32 (ph.vaddr + ph.memsz))

theorem word_lt (bs : List UInt8) (off : ℕ) : word bs off < 2 ^ 32 := by
  have h : ((bs.drop off).take 4).length ≤ 4 := List.length_take_le _ _
  calc word bs off < 256 ^ ((bs.drop off).take 4).length := unle_lt _
    _ ≤ 256 ^ 4 := Nat.pow_le_pow_right (by norm_num) h
    _ = 2 ^ 32 := by norm_num

theorem KERNBASE_dvd : PGSIZE ∣ KERNBASE := by simp [PGSIZE, KERNBASE]

/-- The writable pages of one page table have frames of their own. -/
theorem Made.apart (hm : Made L d s s') (hS : Sound L P.area s' g') : s'.Apart d KERNBASE := by
  intro v v' hv hv' h0 he
  have hlt := lt_NUPG hv
  refine hS.page d v d v' hlt (lt_NUPG hv') h0 he ?_
  rcases hm.user v hlt with h | ⟨hw, -⟩
  · rw [h] at h0
    exact absurd rfl h0
  · rcases hS.excl.one d v hlt hw h0 with h | ⟨h, -⟩
    · rw [h]
      simp
    · rw [h]
      simp

theorem Made.plain (h : Made L d s s') : Plain s' d := by
  intro v hu
  by_cases hv : v < NUPG
  · rcases h.user v hv with he | ⟨hw, -⟩
    · rw [he] at hu
      simp at hu
    · exact ⟨hv, hw⟩
  · rw [h.kern v (not_lt.1 hv), (kentry_flags L v).1] at hu
    simp at hu

/-- Bytes within an image. -/
theorem Laid.backed (hl : Laid L d sz s s') (hle : va + n ≤ PGROUNDUP sz) : s'.Backed d va n := by
  intro i hi
  exact (hl.page _ (page_of_lt_PGROUNDUP (by omega))).2

/-- An image with the file part of a segment over it. -/
def Proghdr.over (ph : Proghdr) (ip : Readi) (img : ℕ → UInt8) (a : ℕ) : UInt8 :=
  if ph.vaddr ≤ a ∧ a < ph.vaddr + ph.filesz then ip.byte ph.off ph.filesz (a - ph.vaddr) else img a

theorem Shows.over {img : ℕ → UInt8} (h : Shows d sz img s') (hl : Laid L d sz s s')
    (hS : Sound L P.area s' g') (hlt : sz < KERNBASE) (hle : ph.vaddr + ph.filesz ≤ sz) :
    Shows d sz (ph.over ip img) (s'.copied d ph.vaddr (ip.data ph.off ph.filesz)) where
  byte a ha := by
    have hup := le_PGROUNDUP sz
    have hk := PGROUNDUP_le hlt.le KERNBASE_dvd
    have hb : s'.Backed d ph.vaddr (ip.data ph.off ph.filesz).length := hl.backed (by rw [ip.length_data]; omega)
    rw [byteAt_copied (hl.apart hS) hb (by rw [ip.length_data]; omega) (ha.trans_le hk), ip.length_data, h.byte a ha,
      Proghdr.over]
    split_ifs with hin
    · exact Readi.getD_data (by omega)
    · rfl
  rest a ha := by
    have hup := le_PGROUNDUP sz
    rw [Proghdr.over, if_neg (by omega)]
    exact h.rest a ha

theorem tr_loadSegment (hS : Sound L P.area s₁ g₁)
    (hl : Laid L d sz s s₁) (hpos : 0 < sz) (hlt : sz < KERNBASE) (hvad : ph.vaddr < 2 ^ 32) (hmem : ph.memsz < 2 ^ 32)
    (hT : ∀ v, v < NUPG → P.touch d v) (hW : ∀ v, v < NUPG → P.write d v) :
    Tr (Ev L P) (loadSegment L d ip ph sz) s₁ g₁ (fun x s' _ => match x with
      | some sz' => ph.Loads ip sz sz' ∧ Laid L d sz' s s' ∧ ∀ img, Shows d sz img s₁ → Shows d sz' (ph.over ip img) s'
      | none => Made L d s s' ∧ ∀ sz', ph.Loads ip sz sz' → ¬ Rich (imageCost sz') s) F N := by
  unfold loadSegment
  by_cases h1 : ph.memsz < ph.filesz
  · rw [if_pos h1]
    exact tr_pure ⟨hl.toMade, fun _ h => absurd h.size (not_le.2 h1)⟩
  rw [if_neg h1]
  by_cases h2 : u32 (ph.vaddr + ph.memsz) < ph.vaddr
  · rw [if_pos h2]
    exact tr_pure ⟨hl.toMade, fun _ h => absurd h.wrap (not_le.2 h2)⟩
  rw [if_neg h2]
  have hu : u32 (ph.vaddr + ph.memsz) = ph.vaddr + ph.memsz := by
    unfold u32 at h2 ⊢
    omega
  set new := u32 (ph.vaddr + ph.memsz) with hnew
  by_cases h3 : new ≥ KERNBASE
  · rw [allocuvm_high h3]
    exact tr_pure ⟨hl.toMade, fun _ h => absurd h.lt (not_lt.2 h3)⟩
  -- in either case the image ends at the larger of the two sizes
  have halloc : Tr (Ev L P) (allocuvm L d sz new none) s₁ g₁ (fun x s' _ =>
      (x = max sz new ∧ Laid L d (max sz new) s s' ∧ ∀ img, Shows d sz img s₁ → Shows d (max sz new) img s') ∨
      (x = 0 ∧ Made L d s s' ∧ ¬ Rich (imageCost (max sz new)) s)) F N := by
    by_cases h4 : new < sz
    · rw [allocuvm_back h3 h4, max_eq_left h4.le]
      exact tr_pure (.inl ⟨rfl, hl, fun _ h => h⟩)
    · rw [max_eq_right (not_lt.1 h4)]
      exact tr_layPages hS.inv hl hpos (not_lt.1 h4) (not_le.1 h3) hT
  refine tr_bind halloc ?_
  rintro x s₂ g₂ h₂ (⟨rfl, hl₂, himg⟩ | ⟨rfl, hmade, hpoor⟩)
  · rw [if_neg (by omega : ¬ max sz new = 0)]
    by_cases h5 : ph.vaddr % PGSIZE ≠ 0
    · rw [if_pos h5]
      exact tr_pure ⟨hl₂.toMade, fun _ h => absurd (mod_eq_zero_of_dvd h.aligned) h5⟩
    rw [if_neg h5]
    have hal : PGSIZE ∣ ph.vaddr := dvd_of_mod_eq_zero (not_not.1 h5)
    refine tr_bind (tr_loaduvm hal (by omega) (fun v _ hv => ?_) hW) ?_
    · rw [(hl₂.page v (by omega)).1]
      rfl
    · rintro ok s₃ g₃ - ⟨-, hink, hok, hcop⟩
      cases ok with
      | true =>
        refine tr_pure ⟨⟨by omega, by omega, by omega, hal, hok.1 rfl, rfl⟩, hl₂.inked hink, fun img h => ?_⟩
        rw [hcop rfl]
        exact (himg img h).over hl₂ (hS.evs h₂) (max_lt hlt (not_le.1 h3)) (by omega)
      | false =>
        refine tr_pure ⟨(hl₂.inked hink).toMade, fun _ h => ?_⟩
        exact absurd (hok.2 h.full) Bool.false_ne_true
  · rw [if_pos rfl]
    refine tr_pure ⟨hmade, fun sz' h => ?_⟩
    rw [h.end_eq]
    exact hpoor

/-- The program headers, `n` of them from offset `off` on, take an image of `sz` bytes to one of `sz'`. -/
inductive Segments (ip : Readi) : ℕ → ℕ → ℕ → ℕ → Prop where
  | done {off sz : ℕ} : Segments ip 0 off sz sz
  | skip {n off sz sz' : ℕ} {bs : List UInt8} (hb : bs = (ip off sizeofProghdr).take sizeofProghdr)
      (hl : bs.length = sizeofProghdr) (ht : (proghdr bs).type ≠ ELF_PROG_LOAD)
      (h : Segments ip n (u32 (off + sizeofProghdr)) sz sz') : Segments ip (n + 1) off sz sz'
  | load {n off sz sz₁ sz' : ℕ} {bs : List UInt8} (hb : bs = (ip off sizeofProghdr).take sizeofProghdr)
      (hl : bs.length = sizeofProghdr) (ht : (proghdr bs).type = ELF_PROG_LOAD) (hs : (proghdr bs).Loads ip sz sz₁)
      (h : Segments ip n (u32 (off + sizeofProghdr)) sz₁ sz') : Segments ip (n + 1) off sz sz'

/-- An image with the segments of the program headers over it, in their order. -/
def overSegments (ip : Readi) : ℕ → ℕ → (ℕ → UInt8) → ℕ → UInt8
  | 0, _, img => img
  | n + 1, off, img =>
    let ph := proghdr ((ip off sizeofProghdr).take sizeofProghdr)
    overSegments ip n (u32 (off + sizeofProghdr)) (if ph.type = ELF_PROG_LOAD then ph.over ip img else img)

theorem Segments.le (h : Segments ip n off sz sz') : sz ≤ sz' := by
  induction h with
  | done => exact le_rfl
  | skip _ _ _ _ ih => exact ih
  | load _ _ _ hs _ ih =>
    rw [hs.end_eq] at ih
    exact (le_max_left _ _).trans ih

theorem Segments.lt (h : Segments ip n off sz sz') (hsz : sz < KERNBASE) : sz' < KERNBASE := by
  induction h with
  | done => exact hsz
  | skip _ _ _ _ ih => exact ih hsz
  | load _ _ _ hs _ ih =>
    refine ih ?_
    rw [hs.end_eq]
    exact max_lt hsz hs.lt

theorem tr_loadSegments (hT : ∀ v, v < NUPG → P.touch d v) (hW : ∀ v, v < NUPG → P.write d v) :
    ∀ (n off sz : ℕ) (s₁ : Kern) (g₁ : Ghost), Sound L P.area s₁ g₁ → Laid L d sz s s₁ → 0 < sz → sz < KERNBASE →
    Tr (Ev L P) (loadSegments L d ip n off sz) s₁ g₁ (fun x s' _ => match x with
      | some sz' => Segments ip n off sz sz' ∧ Laid L d sz' s s' ∧
          ∀ img, Shows d sz img s₁ → Shows d sz' (overSegments ip n off img) s'
      | none => Made L d s s' ∧ ∀ sz', Segments ip n off sz sz' → ¬ Rich (imageCost sz') s) F N := by
  intro n
  induction n with
  | zero =>
    intro off sz s₁ g₁ _ hl _ _
    exact tr_pure ⟨.done, hl, fun _ h => h⟩
  | succ n ih =>
    intro off sz s₁ g₁ hS hl hpos hlt
    unfold loadSegments overSegments
    generalize hbs : (ip off sizeofProghdr).take sizeofProghdr = bs
    dsimp only
    by_cases h1 : bs.length ≠ sizeofProghdr
    · rw [if_pos h1]
      refine tr_pure ⟨hl.toMade, fun sz' h => ?_⟩
      cases h with
      | skip hb hlen => exact absurd (hbs ▸ hb ▸ hlen) h1
      | load hb hlen => exact absurd (hbs ▸ hb ▸ hlen) h1
    rw [if_neg h1]
    by_cases h2 : (proghdr bs).type ≠ ELF_PROG_LOAD
    · rw [if_pos h2]
      refine tr_post (ih _ sz s₁ g₁ hS hl hpos hlt) ?_
      rintro (_ | sz') s₂ g₂ - hQ
      · refine ⟨hQ.1, fun sz' h => ?_⟩
        cases h with
        | skip _ _ _ h => exact hQ.2 sz' h
        | load hb _ ht => exact absurd (hbs ▸ hb ▸ ht) h2
      · refine ⟨.skip hbs.symm (not_not.1 h1) h2 hQ.1, hQ.2.1, fun img h => ?_⟩
        rw [if_neg h2]
        exact hQ.2.2 img h
    rw [if_neg h2]
    refine tr_bind (tr_loadSegment hS hl hpos hlt (word_lt _ _) (word_lt _ _) hT hW) ?_
    rintro (_ | sz₁) s₂ g₂ h₂ hQ
    · refine tr_pure ⟨hQ.1, fun sz' h => ?_⟩
      cases h with
      | skip hb _ ht => exact absurd (by rw [hb, hbs]; exact not_not.1 h2) ht
      | load hb _ _ hs h =>
        rw [hb, hbs] at hs
        exact fun hR => hQ.2 _ hs (hR.mono (imageCost_mono h.le))
    · obtain ⟨hs, hl₂, himg⟩ := hQ
      have hpos₁ : 0 < sz₁ := by
        have := hs.end_eq
        omega
      have hlt₁ : sz₁ < KERNBASE := by
        rw [hs.end_eq]
        exact max_lt hlt hs.lt
      refine tr_post (ih _ sz₁ s₂ g₂ (hS.evs h₂) hl₂ hpos₁ hlt₁) ?_
      rintro (_ | sz') s₃ g₃ - hQ
      · refine ⟨hQ.1, fun sz' h => ?_⟩
        cases h with
        | skip hb _ ht => exact absurd (by rw [hb, hbs]; exact not_not.1 h2) ht
        | load hb _ _ hs' h =>
          rw [hb, hbs] at hs'
          rw [hs'.end_eq, ← hs.end_eq] at h
          exact hQ.2 sz' h
      · refine ⟨.load hbs.symm (not_not.1 h1) (not_not.1 h2) hs hQ.1, hQ.2.1, fun img h => ?_⟩
        rw [if_pos (not_not.1 h2)]
        exact hQ.2.2 _ (himg img h)

theorem Made.setPte (h : Made L d s s') (hv : v < NUPG) (htab : s'.ptab d (v / NPTENTRIES) ≠ 0)
    (he : e.w = true ∧ e.ppn ≠ 0) : Made L d s (s'.setPte d v e) where
  fresh := h.fresh
  dir := h.dir
  other d' v' hd := by
    rw [entry_setPte htab, upd_ne_dir hd]
    exact h.other d' v' hd
  kern v' hv' := by
    have hne : v' ≠ v := by omega
    rw [entry_setPte htab, upd_ne_page hne]
    exact h.kern v' hv'
  user v' hv' := by
    rw [entry_setPte htab]
    by_cases hne : v' = v
    · subst hne
      rw [upd_same]
      exact .inr he
    · rw [upd_ne_page hne]
      exact h.user v' hv'
  proc := h.proc

theorem page_lt_PGSIZE : v * PGSIZE < PGSIZE ↔ v = 0 := by
  simp only [PGSIZE]
  omega

/-- The null page, once its `PTE_P` is cleared. -/
theorem Laid.null (hl : Laid L d 0 s s₁) (hm : Made L d s s₂) (hp : Paged d 0 PGSIZE s₁ s₂) :
    Laid L d PGSIZE s (s₂.setPte d 0 { s₂.entry d 0 with p := false }) := by
  have hpg : PGSIZE < KERNBASE := by simp [PGSIZE, KERNBASE]
  have hpos : 0 * PGSIZE < PGSIZE := page_lt_PGSIZE.2 rfl
  obtain ⟨he, hne⟩ := hp.page 0 (zero_le _) hpos
  have htab : s₂.ptab d (0 / NPTENTRIES) ≠ 0 := tab_of_w (by rw [he])
  have hNU : 0 < NUPG := by simp [NUPG, PGSIZE, KERNBASE]
  refine ⟨hm.setPte hNU htab ⟨by rw [he], hne⟩, fun v hv => ?_, fun v hv h => ?_, fun k hk => ?_, fun K hK hv m => ?_⟩
  · obtain rfl := page_lt_PGSIZE.1 hv
    rw [entry_setPte htab, upd_same, he]
    exact ⟨rfl, hne⟩
  · have hv0 : v ≠ 0 := by
      rintro rfl
      omega
    rw [entry_setPte htab, upd_ne_page hv0, hp.other d v, hl.empty v hv (zero_le _)]
    exact fun h' => absurd h'.2.2 (not_lt.2 h)
  · by_cases hk0 : k = 0
    · subst hk0
      have h := mem_imageTabs (v := 0) hpg hpos
      rw [Nat.zero_div] at h
      exact h
    · refine imageTabs_mono (Nat.zero_le _) (hl.tabs k ?_)
      rw [← hp.tab k]
      · exact hk
      · intro v _ h h'
        rw [page_lt_PGSIZE.1 h, Nat.zero_div] at h'
        exact hk0 h'.symm
  · have h1 : PGROUNDUP PGSIZE = PGSIZE := PGROUNDUP_self dvd_rfl
    have h2 : PGSIZE / PGSIZE = 1 := Nat.div_self PGSIZE_pos
    have hc := hp.cost K (fun v _ h => hv v h) m
    rw [h1, Nat.sub_zero, h2] at hc
    have hl' := hl.cost K hK (fun v h => absurd h (Nat.not_lt_zero _)) (m + 1)
    rw [PGROUNDUP_zero, Nat.zero_div, Nat.add_zero] at hl'
    rw [h1, h2]
    exact hl'.trans hc

/-- There are only `MAXPAGES` frames, so an image is no larger than that. -/
theorem Laid.sz_le (hl : Laid L d sz s s') (hS : Sound L P.area s' g') (hsz : sz < KERNBASE) :
    sz ≤ MAXPAGES * PGSIZE := by
  by_contra hn
  have hpage : ∀ v ∈ Finset.range (MAXPAGES + 1), v * PGSIZE < sz := by
    intro v hv
    have hv' : v ≤ MAXPAGES := Nat.lt_succ_iff.1 (mem_range.1 hv)
    exact (Nat.mul_le_mul_right _ hv').trans_lt (Nat.not_le.1 hn)
  have hcard := Finset.card_le_card_of_injOn (s := Finset.range (MAXPAGES + 1)) (t := Finset.range MAXPAGES)
    (fun v => (s'.entry d v).ppn) (fun v hv => ?_) fun v hv v' hv' he => ?_
  · simp at hcard
  · have hne := (hl.page v (hpage v hv)).2
    exact mem_range.2 (hS.inv.ok_ppn (lt_NUPG ((hpage v hv).trans hsz)) hne).2
  · exact (hl.apart hS v v' ((hpage v hv).trans hsz) ((hpage v' hv').trans hsz) (hl.page v (hpage v hv)).2 he.symm).symm

/-- The first page of an image is zero. -/
theorem Shows.null (hp : Paged d 0 PGSIZE s₁ s₂) :
    Shows d PGSIZE (fun _ => 0) (s₂.setPte d 0 { s₂.entry d 0 with p := false }) := by
  have hpos : 0 * PGSIZE < PGSIZE := page_lt_PGSIZE.2 rfl
  have htab : s₂.ptab d (0 / NPTENTRIES) ≠ 0 := tab_of_w (by rw [(hp.page 0 (zero_le _) hpos).1])
  refine ⟨fun a ha => ?_, fun _ _ => rfl⟩
  have h0 : a / PGSIZE = 0 := page_lt_PGSIZE.1 (page_of_lt_PGROUNDUP ha)
  unfold Kern.byteAt Kern.place
  rw [h0, entry_setPte htab, upd_same]
  exact congrFun (hp.zero 0 (zero_le _) hpos) _

/-- The first part of `loadImage`: the null page, and the loop over the program headers. -/
def loadProgram (L : Linker) (d : ℕ) (ip : Readi) (elf : Elfhdr) : K (Option ℕ) := do
  let sz ← allocuvm L d 0 PGSIZE none
  if sz = 0 then return none
  else do
    clearptep d 0
    loadSegments L d ip elf.phnum elf.phoff sz

theorem tr_loadProgram {elf : Elfhdr} (hS : Sound L P.area s₁ g₁)
    (hl : Laid L d 0 s s₁) (hT : ∀ v, v < NUPG → P.touch d v) (hf : ∀ v, v < NUPG → P.flag d v)
    (hW : ∀ v, v < NUPG → P.write d v) :
    Tr (Ev L P) (loadProgram L d ip elf) s₁ g₁ (fun x s' _ => match x with
      | some sz => Segments ip elf.phnum elf.phoff PGSIZE sz ∧ Laid L d sz s s' ∧
          Shows d sz (overSegments ip elf.phnum elf.phoff fun _ => 0) s'
      | none => Made L d s s' ∧ ∀ sz, Segments ip elf.phnum elf.phoff PGSIZE sz → ¬ Rich (imageCost sz) s) F N := by
  have hpg : PGSIZE < KERNBASE := by simp [PGSIZE, KERNBASE]
  have hNU : 0 < NUPG := by simp [NUPG, PGSIZE, KERNBASE]
  unfold loadProgram
  refine tr_bind (tr_layRange hS.inv hl.toMade (fun v h1 h2 => hl.empty v (lt_NUPG (h2.trans hpg)) h1) (zero_le _)
    hpg hT) ?_
  rintro x s₂ g₂ h₂ (⟨rfl, hm, hp⟩ | ⟨rfl, hm, hR⟩)
  swap
  · rw [if_pos rfl]
    refine tr_pure ⟨hm, fun sz hseg hRR => ?_⟩
    exact hl.poor (zero_le _) hpg hR (hRR.mono (imageCost_mono hseg.le))
  rw [if_neg PGSIZE_pos.ne']
  rw [PGROUNDUP_zero] at hp
  have hl₂ := hl.null hm hp
  have htab : s₂.ptab d (PDX 0) ≠ 0 := by
    rw [PDX_eq (by norm_num), Nat.zero_div]
    exact tab_of_w (by rw [(hp.page 0 (Nat.zero_le _) (page_lt_PGSIZE.2 rfl)).1])
  unfold clearptep
  refine tr_bind (tr_changePte (by norm_num)
    (fun _ => .clear (by rw [Nat.zero_div]; exact hNU) (by rw [Nat.zero_div]; exact hf 0 hNU) (fun h => by simp at h)
      fun h => h) fun h0 => absurd h0 htab) ?_
  rintro - s₃ g₃ h₃ ⟨rfl, -, rfl⟩
  have hS₃ := (hS.evs h₂).evs h₃
  rw [Nat.zero_div] at hS₃ ⊢
  refine tr_post (tr_loadSegments hT hW _ _ _ _ _ hS₃ hl₂ PGSIZE_pos hpg) ?_
  rintro (_ | sz) s₄ g₄ - hQ
  · exact hQ
  · exact ⟨hQ.1, hQ.2.1, hQ.2.2 _ (.null hp)⟩

end

end Xv6

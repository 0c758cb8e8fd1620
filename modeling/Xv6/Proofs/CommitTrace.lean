import Xv6.Proofs.StackTrace

/-! `exec` as a chain of small steps: the commit, and the call as a whole. -/

namespace Xv6

open Prog Count Relation Function

section

variable {L : Linker} {P : Perm} {s s' s'' : Kern} {g g' g'' : Ghost} {d v k m r f va i sz : ℕ} {e : Pte} {p : Proc}
  {F : Kern → Prop} {N : String → Prop} {ip : Readi} {argv : List (List UInt8)}

attribute [local irreducible] loop PGSIZE

/-- The permissions of `P` but for directory `d₀`, and for `d₀` only. -/
def Perm.spare (P : Perm) (d₀ : ℕ) : Perm :=
  { P with
    touch := fun d v => d ≠ d₀ ∧ P.touch d v
    flag := fun d v => d ≠ d₀ ∧ P.flag d v
    write := fun d v => d ≠ d₀ ∧ P.write d v }
def Perm.only (P : Perm) (d₀ : ℕ) : Perm :=
  { P with
    touch := fun d v => d = d₀ ∧ P.touch d v
    flag := fun d v => d = d₀ ∧ P.flag d v
    write := fun d v => d = d₀ ∧ P.write d v }

theorem Perm.covers_spare (P : Perm) (d₀ : ℕ) : P.Covers (P.spare d₀) :=
  ⟨fun _ _ h => h.2, fun _ _ h => h.2, fun _ _ h => h.2, rfl⟩

theorem Perm.covers_only (P : Perm) (d₀ : ℕ) : P.Covers (P.only d₀) :=
  ⟨fun _ _ h => h.2, fun _ _ h => h.2, fun _ _ h => h.2, rfl⟩

/-- The file starts with an ELF header, and its program headers load an image of `sz` bytes. -/
def Readi.elf (ip : Readi) : Elfhdr := elfhdr ((ip 0 sizeofElfhdr).take sizeofElfhdr)
structure Readi.Program (ip : Readi) (sz : ℕ) : Prop where
  header : ((ip 0 sizeofElfhdr).take sizeofElfhdr).length = sizeofElfhdr
  magic : ip.elf.magic = ELF_MAGIC
  segments : Segments ip ip.elf.phnum ip.elf.phoff PGSIZE sz

/-- `exec` has returned 0; `t` is the state before the commit. -/
structure Execed (L : Linker) (i d : ℕ) (ip : Readi) (argv : List (List UInt8)) (im : Image) (sz : ℕ)
    (p : Proc) (s t s' : Kern) : Prop where
  proc : s'.proc = update s.proc i (committed p d ip.elf.entry im)
  loaded : Loaded L d ip ip.elf argv im sz s t
  image : ∀ v, s'.entry d v = t.entry d v ∨ (VDSOTEXT / PGSIZE ≤ v ∧ v < NUPG ∧
    (t.entry d v).p = false ∧ ∃ f, f ≠ 0 ∧ s'.entry d v = { p := true, u := true, ppn := f })
  mem : ∀ v, v < NUPG → (t.entry d v).ppn ≠ 0 → s'.mem (t.entry d v).ppn = t.mem (t.entry d v).ppn

attribute [local irreducible] VDSOTEXT

/-- The file loads, and the arguments fit in the stack page. -/
def Passes (ip : Readi) (argv : List (List UInt8)) : Prop :=
  ∃ sz x, ip.Program sz ∧ framed (lowOf sz) (topOf sz) argv = some x

/-- How `exec` of a file with an ELF header can go wrong: in the last three ways only once it commits. -/
structure ExecRisks (F : Kern → Prop) (N : String → Prop) (ip : Readi) (argv : List (List UInt8)) (s : Kern) : Prop where
  lost : ∀ sz s', ip.Program sz → Rich (stackCost sz) s → lost (lowOf sz) (topOf sz) argv → F s'
  stack : ∀ sz, ip.Program sz → Rich (imageCost sz) s → ¬ Rich (stackCost sz) s → N "panic stackptr failed"
  fault : ∀ s', Passes ip argv → F s'
  vdso : Passes ip argv → N "vdso text larger than a page"
  kfree : Passes ip argv → N "kfree"

theorem topOf_le_vdso (hle : sz ≤ MAXPAGES * PGSIZE) (hv : VDSOTEXT / PGSIZE ≤ v) : topOf sz ≤ v * PGSIZE := by
  simp only [topOf, guardOf, PGROUNDUP, MAX_STACK, MAXPAGES, PHYSTOP, PGSIZE, VDSOTEXT] at *
  omega

/-- An image leaves the vdso pages alone. -/
theorem Imaged.vdso_empty (h : Imaged L d sz s s') (hle : sz ≤ MAXPAGES * PGSIZE) (h1 : VDSOTEXT / PGSIZE ≤ v)
    (h2 : v < NUPG) : s'.entry d v = {} := by
  have htop := topOf_le_vdso hle h1
  have hgt := le_guardOf sz
  have hpos := PGSIZE_pos
  unfold topOf at htop
  exact h.empty v h2 (by omega) (by omega) (by omega)

theorem committed_kstack (p : Proc) (d entry : ℕ) (im : Image) : (committed p d entry im).kstack = p.kstack := by
  unfold committed
  -- the kernel would compare the sizes in unary
  generalize PGROUNDUP (im.sz + MAX_SHM) = z
  rfl

/-- The end of `exec`, once the new image is complete. -/
theorem tr_commit {im : Image} {t : Kern}
    {g₁ : Ghost} (hp : s.proc i = p) (hS : Sound L P.area t g₁) (hd : s.dir p.pgdir = true)
    (hT : ∀ d, s.dir d = false ∨ d = p.pgdir → ∀ v, P.touch d v)
    (hnull : p.guardpg = 0 → (s.entry p.pgdir 0).p = true) (hr : ExecRisks F N ip argv s)
    (hA : ∀ d, s.dir d = false → ∀ v, P.area d v = false) (him : Loaded L d ip ip.elf argv im sz s t)
    (hpass : Passes ip argv) :
    Tr (Ev L P) (do
      let p ← getProc i
      let _ ← allocvdso L d p.pid
      setProc i (committed p d ip.elf.entry im)
      freevm L p.pgdir (some p.guardpg)
      return (0 : ℤ)) t g₁ (fun r s' _ => r = 0 ∧ Execed L i d ip argv im sz p s t s') F N := by
  have hpt : t.proc i = p := by rw [him.proc, hp]
  have hne : p.pgdir ≠ d := by
    rintro rfl
    rw [him.fresh] at hd
    simp at hd
  have hfree : ∀ v, VDSOTEXT / PGSIZE ≤ v → v < NUPG → (t.entry d v).p = true → N "remap" := by
    intro v h1 h2 h3
    rw [him.vdso_empty him.layout.le h1 h2] at h3
    simp at h3
  refine tr_getProc ?_
  rw [hpt]
  refine tr_bind (tr_allocvdso hS.inv (by rw [him.dir, update_self]) (fun v _ => hT d (.inl him.fresh) v)
    (fun _ => hr.vdso hpass) hfree) ?_
  intro _ t₁ g₂ h₂ hV
  have hk : (committed p d ip.elf.entry im).kstack = (t₁.proc i).kstack := by rw [hV.proc, hpt, committed_kstack]
  have hev : Ev L P (t₁, g₂) (t₁.setProc i (committed p d ip.elf.entry im), g₂) := .setProc hk
  refine tr_setProc_then hk ?_
  have hS₂ : Sound L P.area (t₁.setProc i (committed p d ip.elf.entry im)) g₂ := (hS.evs h₂).evs (.single hev)
  generalize ht₂ : t₁.setProc i (committed p d ip.elf.entry im) = t₂ at hS₂ ⊢
  have hproc₂ : t₂.proc = update s.proc i (committed p d ip.elf.entry im) := by
    rw [← ht₂]
    change update t₁.proc i _ = _
    rw [hV.proc, him.proc]
  have hent₂ : t₂.entry = t₁.entry := by rw [← ht₂]; rfl
  have hmem₂ : t₂.mem = t₁.mem := by rw [← ht₂]; rfl
  have hdir₂ : t₂.dir p.pgdir = true := by
    have h : t₂.dir = t₁.dir := by rw [← ht₂]; rfl
    rw [h, hV.dir, him.dir, update_of_ne hne, hd]
  -- only the old page table is touched from here on
  have hfv := tr_freevm (P := P.only p.pgdir) (F := F) (N := N) (some p.guardpg) hS₂.inv hdir₂
    (fun v => ⟨rfl, hT _ (.inr rfl) v⟩) ?_ (fun _ _ _ _ _ => hr.fault _ hpass) fun _ _ _ _ => hr.kfree hpass
  · refine tr_bind (tr_mono (tr_spare (P.covers_only p.pgdir) hfv) (fun _ _ _ _ h => h) (fun _ h => h.1) fun _ h => h) ?_
    rintro - s' g' - ⟨he, hfr, -, hent⟩
    refine tr_pure ⟨rfl, hfr.proc.trans hproc₂, him, fun v => ?_, fun v hv h0 => ?_⟩
    · rw [hent, if_neg hne.symm, hent₂]
      exact (hV.entry d v).imp id fun h => ⟨h.2.1, h.2.2.1, h.2.2.2⟩
    have hent_eq : t₂.entry d v = t.entry d v := by
      rw [hent₂]
      refine (hV.entry d v).resolve_right fun h => h0 ?_
      rw [him.toImaged.vdso_empty him.layout.le h.2.1 h.2.2.1]
    have hcls : g₁.cls (t.entry d v).ppn ≠ .own .free := by
      intro hc
      have hu := (hS.inv.named d v hv).resolve_left h0
      rw [hc] at hu
      simp [Cls.user] at hu
    have hmem := Evs.mem_of_untouched (d := d) (v := v) he hS₂ (fun h => hne h.1.symm) (fun h => hne h.1.symm) hv
      (by rw [hent_eq]; exact h0) fun hsh => ?_
    · rw [hent_eq] at hmem
      exact hmem.trans ((congrFun hmem₂ _).trans (hV.mem _ hcls))
    · have ha := hS₂.area.shm d v hv (by rw [hent_eq]; exact h0) hsh
      rw [hA d him.fresh v] at ha
      cases ha
  · intro h
    rw [hent₂, (hV.entry _ _).resolve_right fun h => hne h.1, him.other _ _ hne]
    exact hnull (Option.some.inj h)

/-- If there is memory for the image, there is some for the stack too, and the arguments do not fit in its page, while none
of their addresses is where there is no page table. -/
def Crowded (ip : Readi) (argv : List (List UInt8)) (s : Kern) : Prop :=
  ∀ sz, ip.Program sz → Rich (imageCost sz) s → Rich (stackCost sz) s ∧
    (argv.length ≤ MAXARG → framed (lowOf sz) (topOf sz) argv = none ∧ ¬ lost (lowOf sz) (topOf sz) argv)

theorem crowded_of_poor (h : ∀ K, kernTabs ⊆ K → ¬ Rich (1 + K.card) s) : Crowded ip argv s := by
  intro sz _ hR
  refine absurd (hR.mono ?_) (h (imageTabs sz) Finset.subset_union_left)
  exact Nat.add_le_add_right (Nat.le_add_right 1 _) _

theorem tr_exec {file : Option Readi} (hp : s.proc i = p) (hS : Sound L P.area s g)
    (hd : s.dir p.pgdir = true) (hT : ∀ d, s.dir d = false ∨ d = p.pgdir → ∀ v, P.touch d v)
    (hf : ∀ d, s.dir d = false → ∀ v, v < NUPG → P.flag d v ∧ P.write d v)
    (hA : ∀ d, s.dir d = false → ∀ v, P.area d v = false) (hlen : ∀ arg ∈ argv, arg.length < KERNBASE)
    (hnull : p.guardpg = 0 → (s.entry p.pgdir 0).p = true)
    (hr : ∀ ip, file = some ip → ExecRisks F N ip argv s) :
    Tr (Ev L P) (exec L i file argv) s g (fun r s' g' =>
      (r = -1 ∧ Unseen s s' ∧ Evs L (P.spare p.pgdir) (s, g) (s', g') ∧ ∀ ip, file = some ip → Crowded ip argv s) ∨
      (r = 0 ∧ ∃ ip d im sz t, file = some ip ∧ ip.Program sz ∧ Execed L i d ip argv im sz p s t s')) F N := by
  unfold exec
  have hsame : Unseen s s := ⟨rfl, rfl, rfl⟩
  cases file with
  | none => exact tr_pure (.inl ⟨rfl, hsame, .refl, by simp⟩)
  | some ip =>
    have hr := hr ip rfl
    dsimp only
    change Tr (Ev L P) (if ((ip 0 sizeofElfhdr).take sizeofElfhdr).length ≠ sizeofElfhdr then _
      else if ip.elf.magic ≠ ELF_MAGIC then _ else _) s g _ F N
    by_cases h1 : ((ip 0 sizeofElfhdr).take sizeofElfhdr).length ≠ sizeofElfhdr
    · rw [if_pos h1]
      refine tr_pure (.inl ⟨rfl, hsame, .refl, ?_⟩)
      rintro _ ⟨⟩ sz hprog
      exact absurd hprog.header h1
    rw [if_neg h1]
    by_cases h2 : ip.elf.magic ≠ ELF_MAGIC
    · rw [if_pos h2]
      refine tr_pure (.inl ⟨rfl, hsame, .refl, ?_⟩)
      rintro _ ⟨⟩ sz hprog
      exact absurd hprog.magic h2
    rw [if_neg h2]
    rw [not_not] at h1 h2
    have hnd : ∀ d, s.dir d = false → d ≠ p.pgdir := by
      rintro d h rfl
      rw [hd] at h
      simp at h
    have hc := P.covers_spare p.pgdir
    have hsetup := tr_setupkvm (P := P.spare p.pgdir) (F := fun _ => False) (N := N) hS.inv
      fun d h v => ⟨hnd d h, hT d (.inl h) v⟩
    refine tr_bind (tr_mono (tr_spare hc hsetup) (fun _ _ _ _ h => h) (fun _ h => h.1.elim) fun _ h => h) ?_
    rintro x s₁ g₁ h₁ ⟨he₁, hQ⟩
    cases x with
    | none =>
      refine tr_pure (.inl ⟨rfl, hQ.1, he₁, ?_⟩)
      rintro _ ⟨⟩
      exact crowded_of_poor hQ.2
    | some d =>
      have hl := hQ.1.laid hQ.2
      have hfr := hl.fresh
      refine tr_bind (tr_mono (tr_spare hc (tr_loadImage (hS.evs he₁) hl (fun v _ => ⟨hnd d hfr, hT d (.inl hfr) v⟩)
        (fun v hv => ⟨hnd d hfr, (hf d hfr v hv).1⟩) (fun v hv => ⟨hnd d hfr, (hf d hfr v hv).2⟩) hlen
        (fun sz s' hseg => hr.lost sz s' ⟨h1, h2, hseg⟩) fun sz hseg => hr.stack sz ⟨h1, h2, hseg⟩))
        (fun _ _ _ _ h => h) (fun _ h => h.1) fun _ h => h) ?_
      rintro x s₂ g₂ h₂ ⟨he₂, hQ₂⟩
      have hS₂ : Sound L P.area s₂ g₂ := (hS.evs h₁).evs h₂
      cases x with
      | none =>
        have hm : Made L d s s₂ := hQ₂.1
        have hfree := tr_freevm (P := P.spare p.pgdir) (F := fun _ => False) (N := N) none hS₂.inv
          (by rw [hm.dir, update_self]) (fun v => ⟨hnd d hfr, hT d (.inl hfr) v⟩) (by simp) (by simp) fun v hv _ h0 => ?_
        · refine tr_bind (tr_mono (tr_spare hc hfree) (fun _ _ _ _ h => h) (fun _ h => h.1.elim) fun _ h => h) ?_
          rintro - s₃ g₃ - ⟨he₃, hF₃, hdir, hent⟩
          refine tr_pure (.inl ⟨rfl, ⟨?_, ?_, hF₃.proc.trans hm.proc⟩, (he₁.trans he₂).trans he₃, ?_⟩)
          · rw [hdir, hm.dir, update_idem, ← hfr, update_eq_self]
          · funext d' v
            rw [hent]
            split_ifs with h
            · rw [h, hS.inv.entry_of_no_dir hfr]
            · exact hm.other d' v h
          · rintro _ ⟨⟩ sz hprog
            exact hQ₂.2 sz hprog.segments
        · rcases hm.user v (lt_NUPG hv.2.1) with h | ⟨-, h⟩
          · have hgo := hv.2.2
            rw [goes, h] at hgo
            simp at hgo
          · exact absurd h0 h
      | some im =>
        obtain ⟨sz, him⟩ := hQ₂
        obtain ⟨as, hfr, -⟩ := him.frame
        refine tr_post (tr_commit hp hS₂ hd hT hnull hr hA him ⟨sz, _, ⟨h1, h2, him.segments⟩, hfr⟩) ?_
        rintro r s' g' - ⟨rfl, hx⟩
        exact .inr ⟨rfl, ip, d, im, sz, s₂, rfl, ⟨h1, h2, him.segments⟩, hx⟩

end

end Xv6

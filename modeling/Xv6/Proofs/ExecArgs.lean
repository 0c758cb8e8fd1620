import Xv6.Proofs.Exec

/-! The arguments that `exec` passes: what the new process finds on its stack, and when they do not fit. -/

namespace Xv6

open Prog Count Relation Bytes List

section Space

variable {lo sp : ℕ} {argv : List (List UInt8)}

/-- The bytes that the strings take on the stack, each rounded up to a word. -/
def stringSpace (argv : List (List UInt8)) : ℕ := (argv.map fun arg => (arg.length + 4) / 4 * 4).sum

/-- The bytes that strings and words take. -/
def argSpace (argv : List (List UInt8)) : ℕ := stringSpace argv + (3 + argv.length + 1) * 4

theorem pushed_eq {arg : List UInt8} (hal : 4 ∣ sp) (hsp : sp < 2 ^ 32) (h : arg.length + 1 ≤ sp) :
    pushed sp arg + (arg.length + 4) / 4 * 4 = sp := by
  have h32 : sub32 sp (arg.length + 1) = sp - (arg.length + 1) := by
    unfold sub32
    omega
  unfold pushed
  rw [h32]
  omega

theorem pushes_space (argv : List (List UInt8)) (hlo : 4 ∣ lo) (hal : 4 ∣ sp) (hsp : sp < 2 ^ 32) (hle : lo ≤ sp) :
    match pushes lo sp argv with
    | none => sp < lo + stringSpace argv
    | some r => r.1 + stringSpace argv = sp ∧ lo ≤ r.1 ∧ r.2.length = argv.length := by
  induction argv generalizing sp with
  | nil => exact ⟨rfl, hle, rfl⟩
  | cons arg argv ih =>
    have hsum : stringSpace (arg :: argv) = (arg.length + 4) / 4 * 4 + stringSpace argv := rfl
    rw [pushes, hsum]
    by_cases hfit : lo + (arg.length + 1) ≤ sp
    · rw [if_pos hfit]
      have hlen : arg.length + 1 ≤ sp := by omega
      have heq := pushed_eq hal hsp hlen
      have hlow : lo ≤ pushed sp arg := by omega
      have h := ih pushed_dvd (by omega) hlow
      cases hp : pushes lo (pushed sp arg) argv with
      | none =>
        rw [hp] at h
        dsimp only [Option.map_none] at h ⊢
        omega
      | some r =>
        rw [hp] at h
        obtain ⟨h1, h2, h3⟩ := h
        dsimp only [Option.map_some]
        refine ⟨by omega, h2, ?_⟩
        rw [length_cons, length_cons, h3]
    · rw [if_neg hfit]
      dsimp only
      omega

/-- The arguments have no place exactly when they need more than there is. -/
theorem framed_eq_none_iff (hlo : 4 ∣ lo) (hal : 4 ∣ sp) (hsp : sp < 2 ^ 32) (hle : lo ≤ sp) :
    framed lo sp argv = none ↔ sp < lo + argSpace argv := by
  have h := pushes_space argv hlo hal hsp hle
  unfold framed argSpace
  cases hp : pushes lo sp argv with
  | none =>
    rw [hp] at h
    dsimp only at h ⊢
    exact iff_of_true rfl (by omega)
  | some r =>
    obtain ⟨sp', as⟩ := r
    rw [hp] at h
    obtain ⟨h1, h2, h3⟩ := h
    dsimp only at h1 h2 h3 ⊢
    rw [h3]
    split_ifs with hfit
    · exact iff_of_false (by simp) (by omega)
    · exact iff_of_true rfl (by omega)

end Space

section

variable {L : Linker} {A : ℕ → ℕ → Bool} {s s' t : Kern} {g : Ghost} {d i a sz : ℕ} {p : Proc} {ip : Readi} {im : Image}
  {argv : List (List UInt8)}

attribute [local irreducible] PGSIZE VDSOTEXT

/-- The frame depends only on the bytes of its page. -/
theorem ArgFrame.congr {lo hi sp : ℕ} {as : List ℕ} (h : ArgFrame d lo hi sp argv as t)
    (hb : ∀ a, lo ≤ a → a < hi → s'.byteAt d a = t.byteAt d a) : ArgFrame d lo hi sp argv as s' := by
  have hlow := h.low
  have hhigh := h.high
  have hw : ∀ a, lo ≤ a → a + 4 ≤ hi → s'.wordAt d a = t.wordAt d a := by
    intro a h1 h2
    unfold Kern.wordAt
    refine congrArg unle (map_congr_left fun j hj => hb _ (by omega) ?_)
    rw [mem_range] at hj
    omega
  have hlen := h.inside.length_eq
  refine ⟨?_, ?_, ?_, fun k a hk => ?_, ?_, ?_, h.inside, h.aligned, h.low, h.high⟩
  · rw [hw _ (by omega) (by omega), h.ret]
  · rw [hw _ (by omega) (by omega), h.argc]
  · rw [hw _ (by omega) (by omega), h.table]
  · have hk' := (List.getElem?_eq_some_iff.1 hk).1
    rw [hw _ (by omega) (by omega), h.ptrs k a hk]
  · rw [hw _ (by omega) (by omega), h.null]
  · refine List.forall₂_iff_get.2 ⟨hlen, fun k h1 h2 => ?_⟩
    have hs := (forall₂_iff_get.1 h.strings).2 k h1 h2
    have hi := (forall₂_iff_get.1 h.inside).2 k h1 h2
    intro j hj
    have hj' : j < (argv.get ⟨k, h1⟩).length + 1 := by simpa using hj
    rw [hb _ (by omega) (by omega)]
    exact hs j hj

/-- The stack page is what it was before the commit. -/
theorem Execed.stack (h : Execed L i d ip argv im sz p s t s') (h1 : lowOf sz ≤ a) (h2 : a < topOf sz) :
    s'.byteAt d a = t.byteAt d a ∧ s'.usable d a = true := by
  have hpa : a / PGSIZE * PGSIZE = guardOf sz + PGSIZE := by
    refine page_eq (lowOf_dvd sz) h1 ?_
    rw [topOf_eq] at h2
    exact h2
  have htop := topOf_lt h.loaded.layout.le
  have hv : a / PGSIZE < NUPG := lt_NUPG (by rw [topOf_eq] at htop; omega)
  obtain ⟨he, h0⟩ := h.loaded.stack _ hpa
  have hent : s'.entry d (a / PGSIZE) = t.entry d (a / PGSIZE) := by
    refine (h.image _).resolve_right fun hx => ?_
    have := topOf_le_vdso h.loaded.layout.le hx.1
    rw [hpa, topOf_eq] at this
    have := PGSIZE_pos
    omega
  refine ⟨byteAt_congr (by rw [hent]) (h.mem _ hv h0), ?_⟩
  unfold Kern.usable
  rw [hent, he]
  rfl

/-- A process that `exec` starts finds its arguments in its stack page, and `exec` refuses those that do not fit. -/
structure PassesArgs (L : Linker) (i : ℕ) (ip : Readi) (argv : List (List UInt8)) (s : Kern) : Prop where
  found : ∀ s', exec L i (some ip) argv s = .ok 0 s' →
    (∀ a, (s'.proc i).stacktop - PGSIZE ≤ a → a < (s'.proc i).stacktop → s'.usable (s'.proc i).pgdir a = true) ∧
    ∃ as, ArgFrame (s'.proc i).pgdir ((s'.proc i).stacktop - PGSIZE) (s'.proc i).stacktop (s'.proc i).esp argv as s'
  refused : PGSIZE < argSpace argv → ∃ s', exec L i (some ip) argv s = .ok (-1) s' ∧ AllKept s s'

theorem framed_none_iff (hsz : sz < KERNBASE) : framed (lowOf sz) (topOf sz) argv = none ↔ PGSIZE < argSpace argv := by
  have htop : topOf sz = lowOf sz + PGSIZE := topOf_eq sz
  have h4 := four_dvd_of_page (lowOf_dvd sz)
  have h4' : 4 ∣ topOf sz := by
    rw [htop]
    exact (Nat.dvd_add_right h4).2 (four_dvd_of_page dvd_rfl)
  have hlt : topOf sz < 2 ^ 32 := by
    simp only [topOf, guardOf, PGROUNDUP, MAX_STACK, PGSIZE, KERNBASE] at *
    omega
  rw [framed_eq_none_iff h4 h4' hlt (by omega), htop]
  omega

theorem Readi.Program.lt (h : ip.Program sz) : sz < KERNBASE := h.segments.lt (by simp [PGSIZE, KERNBASE])

theorem not_passes (h : PGSIZE < argSpace argv) : ¬ Passes ip argv := by
  rintro ⟨sz, x, hprog, hx⟩
  rw [(framed_none_iff hprog.lt).2 h] at hx
  cases hx

theorem imageCost_le_stackCost (sz : ℕ) : imageCost sz ≤ stackCost sz := by
  have htabs : (imageTabs sz).card ≤ (stackTabs sz).card := Finset.card_le_card Finset.subset_union_left
  unfold imageCost stackCost
  omega

/-- What the new process finds. -/
theorem Execed.found (h : Execed L i d ip argv im sz (s.proc i) s t s') :
    (∀ a, (s'.proc i).stacktop - PGSIZE ≤ a → a < (s'.proc i).stacktop → s'.usable (s'.proc i).pgdir a = true) ∧
    ∃ as, ArgFrame (s'.proc i).pgdir ((s'.proc i).stacktop - PGSIZE) (s'.proc i).stacktop (s'.proc i).esp argv as s' := by
  have hproc : s'.proc i = committed (s.proc i) d ip.elf.entry im := by rw [h.proc, Function.update_self]
  have hlow : (s'.proc i).stacktop - PGSIZE = lowOf sz := by
    rw [hproc]
    change im.stacktop - PGSIZE = _
    rw [h.loaded.layout.stacktop, topOf_eq, Nat.add_sub_cancel]
    rfl
  have htop : (s'.proc i).stacktop = topOf sz := by
    rw [hproc]
    exact h.loaded.layout.stacktop
  have hdir : (s'.proc i).pgdir = d := by rw [hproc]; rfl
  have hesp : (s'.proc i).esp = im.sp := by rw [hproc]; rfl
  rw [hlow, htop, hdir, hesp]
  obtain ⟨as, -, hfr⟩ := h.loaded.frame
  exact ⟨fun a h1 h2 => (h.stack h1 h2).2, as, hfr.congr fun a h1 h2 => (h.stack h1 h2).1⟩

/-- Where arguments that are too long are refused there is memory for the stack, and no address is lost. -/
theorem PassesArgs.fits (h : PassesArgs L i ip argv s) (hS : Sound L A s g) (hd : s.dir (s.proc i).pgdir = true)
    (hnull : (s.proc i).guardpg = 0 → (s.entry (s.proc i).pgdir 0).p = true) (hmax : argv.length < MAXARG)
    (hlen : ∀ arg ∈ argv, arg.length < KERNBASE) (hlong : PGSIZE < argSpace argv) (hprog : ip.Program sz)
    (hR : Rich (imageCost sz) s) : Rich (stackCost sz) s ∧ ¬ lost (lowOf sz) (topOf sz) argv := by
  obtain ⟨s', hrun, -⟩ := h.refused hlong
  rcases sat_ok (sat_exec hS hd hnull hlen) hrun with ⟨-, -, hc⟩ | ⟨h0, -⟩
  · obtain ⟨h1, h2⟩ := hc sz hprog hR
    exact ⟨h1, (h2 hmax.le).2⟩
  · cases h0

end

/-- `exec` passes its arguments, or refuses them, unless there is memory for the image but not for the stack, or a string
is so long that its address wraps round to where the kernel has no page table. -/
theorem exec_passes_args_iff {L : Linker} {A : ℕ → ℕ → Bool} {s : Kern} {g : Ghost} {i : ℕ} {ip : Readi}
    {argv : List (List UInt8)} (hS : Sound L A s g) (hd : s.dir (s.proc i).pgdir = true)
    (hnull : (s.proc i).guardpg = 0 → (s.entry (s.proc i).pgdir 0).p = true) (hmax : argv.length < MAXARG)
    (hlen : ∀ arg ∈ argv, arg.length < KERNBASE) :
    PassesArgs L i ip argv s ↔ (PGSIZE < argSpace argv → ∀ sz, ip.Program sz → Rich (imageCost sz) s →
      Rich (stackCost sz) s ∧ ¬ lost (lowOf sz) (topOf sz) argv) := by
  refine ⟨fun h hlong sz hprog hR => h.fits hS hd hnull hmax hlen hlong hprog hR, fun h => ⟨fun s' hrun => ?_, fun hlong => ?_⟩⟩
  · rcases sat_ok (sat_exec hS hd hnull hlen) hrun with ⟨h1, -⟩ | ⟨-, d, im, sz, t, -, hx⟩
    · cases h1
    · exact hx.found
  · have hsat : Sat (exec L i (some ip) argv) s (fun r s' => r = -1 ∧ AllKept s s') (fun _ => False) (fun _ _ => False) := by
      refine sat_mono (sat_exec hS hd hnull hlen) ?_ ?_ ?_
      · rintro r s' (⟨rfl, hk, -⟩ | ⟨-, d, im, sz, t, hprog, hx⟩)
        · exact ⟨rfl, hk⟩
        · obtain ⟨as, hfr, -⟩ := hx.loaded.frame
          exact absurd ⟨sz, _, hprog, hfr⟩ (not_passes hlong)
      · rintro s' (⟨sz, hprog, hR, hlost⟩ | hp)
        · exact (h hlong sz hprog (hR.mono (imageCost_le_stackCost sz))).2 hlost
        · exact not_passes hlong hp
      · rintro m s' (⟨-, sz, hprog, hR, hno⟩ | ⟨-, hp⟩)
        · exact hno (h hlong sz hprog hR).1
        · exact not_passes hlong hp
    obtain ⟨r, s', hrun, rfl, hk⟩ := sat_returns hsat
    exact ⟨s', hrun, hk⟩

/-- A file with an ELF header and no segments. -/
def nullElf : List UInt8 := le 4 ELF_MAGIC ++ replicate 48 0

theorem nullElf_program : (fileReadi nullElf).Program PGSIZE := by
  have hnum : (fileReadi nullElf).elf.phnum = 0 := by decide +kernel
  refine ⟨by decide +kernel, by decide +kernel, ?_⟩
  rw [hnum]
  exact .done

theorem card_stackTabs_le {sz : ℕ} (hlt : topOf sz < KERNBASE) : (stackTabs sz).card ≤ NPDENTRIES := by
  have hpos := PGSIZE_pos
  have htab : ∀ v, v < NUPG → v / NPTENTRIES < NPDENTRIES := by
    intro v hv
    refine Nat.div_lt_of_lt_mul (hv.trans_le ?_)
    decide
  have hguard : guardOf sz / PGSIZE + 1 < NUPG := by
    refine lt_NUPG ?_
    rw [Nat.add_mul, page_mul (guardOf_dvd sz), Nat.one_mul]
    rw [topOf_eq] at hlt
    omega
  refine (Finset.card_le_card fun k hk => ?_).trans_eq (Finset.card_range NPDENTRIES)
  rw [Finset.mem_range]
  simp only [stackTabs, Finset.mem_union, Finset.mem_insert, Finset.mem_singleton] at hk
  rcases hk with hk | rfl | rfl
  · exact Finset.mem_range.1 (imageTabs_subset sz hk)
  · exact htab _ (by omega)
  · exact htab _ hguard

theorem roomyKern_rich : Rich (stackCost PGSIZE) roomyKern := by
  refine ⟨?_, by simp [roomyKern, smallKern]⟩
  have hlen : roomyKern.freelist.length = 2000 := length_range'
  have hcard : (stackTabs PGSIZE).card ≤ 1024 := card_stackTabs_le (by decide)
  have hpages : PGROUNDUP PGSIZE / PGSIZE = 1 := by decide
  rw [hlen, stackCost, hpages]
  omega

theorem roomyKern_guard : (roomyKern.proc 0).guardpg = 0 → (roomyKern.entry (roomyKern.proc 0).pgdir 0).p = true :=
  fun h => absurd h (by decide)

/-- A string of so many bytes is lost above an image without segments exactly if it wraps round. -/
theorem lost_null {arg : List UInt8} {n : ℕ} (hn : arg.length = n) (h : PGSIZE ≤ n) :
    lost (lowOf PGSIZE) (topOf PGSIZE) [arg] ↔
      KERNBASE + PHYSTOP ≤ sub32 1064960 (n + 1) / 4 * 4 ∧ sub32 1064960 (n + 1) / 4 * 4 < DEVSPACE := by
  have htop : topOf PGSIZE = 1064960 := by decide
  have hlow : lowOf PGSIZE = 1060864 := by decide
  rw [lost, hn, if_neg (by simp only [PGSIZE] at h; omega), pushed, hn, htop]

/-- A short argument is passed; one that is longer than the stack page, but not too long, is refused. -/
theorem exec_passes_args_iff_null :
    PassesArgs smallLinker 0 (fileReadi nullElf) [[97]] roomyKern ∧
    PassesArgs smallLinker 0 (fileReadi nullElf) [replicate 5000 97] roomyKern := by
  refine ⟨(exec_passes_args_iff roomyKern_sound rfl roomyKern_guard (by decide) (by decide)).2 fun h => absurd h (by decide), ?_⟩
  have hlen : ∀ arg ∈ [replicate 5000 (97 : UInt8)], arg.length < KERNBASE := by
    intro arg harg
    rw [mem_singleton.1 harg, length_replicate]
    decide
  refine (exec_passes_args_iff roomyKern_sound rfl roomyKern_guard (by decide) hlen).2 fun _ sz hprog _ => ?_
  rw [hprog.segments.unique nullElf_program.segments, lost_null length_replicate (by decide)]
  exact ⟨roomyKern_rich, by decide⟩

theorem not_passesArgs_null {arg : List UInt8} (hlen : arg.length = 40000000) :
    ¬ PassesArgs smallLinker 0 (fileReadi nullElf) [arg] roomyKern := by
  intro h
  have hlong : PGSIZE < argSpace [arg] := by
    simp [argSpace, stringSpace, hlen, PGSIZE]
  have hshort : ∀ a ∈ [arg], a.length < KERNBASE := by
    intro a ha
    rw [mem_singleton.1 ha, hlen]
    decide
  obtain ⟨-, hno⟩ := h.fits roomyKern_sound rfl roomyKern_guard (by simp [MAXARG]) hshort hlong
    nullElf_program (roomyKern_rich.mono (imageCost_le_stackCost _))
  rw [lost_null hlen (by decide)] at hno
  exact hno (by decide)

/-- With a string of 40 million bytes `exec` does not return -1: it dereferences a null entry. -/
theorem exec_loses_string : ¬ PassesArgs smallLinker 0 (fileReadi nullElf) [replicate 40000000 97] roomyKern :=
  not_passesArgs_null length_replicate

end Xv6

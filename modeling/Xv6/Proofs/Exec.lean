import Xv6.Proofs.CommitTrace
import Xv6.Proofs.Sbrk
import Xv6.Proofs.ByteArray

/-! `exec` loads what the file says, passes its arguments on the stack, and leaves the caller as it was if it fails. -/

namespace Xv6

open Prog Count Relation Bytes List Nat

section File

variable {c : List UInt8} {off n sz sz' a j : ℕ}

/-- `readi` of a file with the given bytes. -/
def fileReadi (c : List UInt8) : Readi := fun off n =>
  if c.length < off ∨ u32 (off + n) < off then [] else (c.drop off).take n

theorem fileReadi_full (hn : 0 < n) (h : ((fileReadi c off n).take n).length = n) :
    off + n ≤ c.length ∧ fileReadi c off n = (c.drop off).take n := by
  unfold fileReadi at h ⊢
  by_cases hbad : c.length < off ∨ u32 (off + n) < off
  · rw [if_pos hbad, take_nil, length_nil] at h
    omega
  · rw [if_neg hbad] at h ⊢
    rw [take_take, min_self, length_take, length_drop] at h
    exact ⟨by omega, rfl⟩

theorem getD_window (hj : j < n) : ((c.drop off).take n).getD j 0 = c.getD (off + j) 0 := by
  rw [getD_eq_getElem?_getD, getD_eq_getElem?_getD, getElem?_take_of_lt hj, getElem?_drop]

attribute [local irreducible] PGSIZE

/-- What `loaduvm` reads for the page at `i`. -/
theorem fileReadi_gets (hc : c.length < 2 ^ 32) (hoff : off < 2 ^ 32) (h : (fileReadi c).full off sz) :
    ∀ k, k * PGSIZE < sz → u32 (off + k * PGSIZE) = off + k * PGSIZE := by
  have hpos := PGSIZE_pos
  intro k
  induction k with
  | zero =>
    intro _
    rw [zero_mul, add_zero]
    exact mod_eq_of_lt hoff
  | succ k ih =>
    intro hk
    rw [succ_mul] at hk ⊢
    have hg := h (k * PGSIZE) (by omega) (dvd_mul_left _ _)
    unfold Readi.gets at hg
    rw [if_neg (by omega), ih (by omega)] at hg
    have := (fileReadi_full hpos hg).1
    exact mod_eq_of_lt (by omega)

theorem fileReadi_byte (hc : c.length < 2 ^ 32) (hoff : off < 2 ^ 32) (h : (fileReadi c).full off sz) (hj : j < sz) :
    (fileReadi c).byte off sz j = c.getD (off + j) 0 := by
  have hpos := PGSIZE_pos
  have hle : j / PGSIZE * PGSIZE ≤ j := div_mul_le_self _ _
  have hlt : j < j / PGSIZE * PGSIZE + PGSIZE := lt_div_mul_add hpos
  have hg := h _ (hle.trans_lt hj) (dvd_mul_left _ _)
  unfold Readi.gets at hg
  unfold Readi.byte
  dsimp only
  rw [fileReadi_gets hc hoff h _ (hle.trans_lt hj)] at hg ⊢
  have hn : 0 < if sz - j / PGSIZE * PGSIZE < PGSIZE then sz - j / PGSIZE * PGSIZE else PGSIZE := by
    split_ifs <;> omega
  rw [(fileReadi_full hn hg).2, getD_window (by split_ifs <;> omega)]
  congr 1
  omega

/-- The program headers in the file. -/
def progHeaders (c : List UInt8) (n off : ℕ) : List Proghdr :=
  (range n).map fun k => proghdr ((c.drop (off + sizeofProghdr * k)).take sizeofProghdr)

/-- The file part of the segment covers `a`. -/
def Proghdr.covers (ph : Proghdr) (a : ℕ) : Bool :=
  ph.type = ELF_PROG_LOAD ∧ ph.vaddr ≤ a ∧ a < ph.vaddr + ph.filesz

/-- The byte at `a` of the image: the last segment whose file part covers it says where in the file it is. -/
def imageByte (c : List UInt8) (phs : List Proghdr) (a : ℕ) : UInt8 :=
  match phs.reverse.find? (·.covers a) with
  | some ph => c.getD (ph.off + (a - ph.vaddr)) 0
  | none => 0

theorem progHeaders_succ :
    progHeaders c (n + 1) off = proghdr ((c.drop off).take sizeofProghdr) :: progHeaders c n (off + sizeofProghdr) := by
  unfold progHeaders
  rw [List.range_succ_eq_map, List.map_cons, List.map_map, mul_zero, add_zero]
  congr 1
  refine List.map_congr_left fun k _ => ?_
  rw [Function.comp_apply, mul_succ, add_assoc, add_comm sizeofProghdr]

/-- A program header that has been read. -/
theorem header_read {bs : List UInt8} (hb : bs = (fileReadi c off sizeofProghdr).take sizeofProghdr)
    (hl : bs.length = sizeofProghdr) : off + sizeofProghdr ≤ c.length ∧ bs = (c.drop off).take sizeofProghdr := by
  obtain ⟨hle, hread⟩ := fileReadi_full (by decide) (hb ▸ hl)
  rw [hread, take_take, min_self] at hb
  exact ⟨hle, hb⟩

theorem find_reverse_cons {α : Type} (p : α → Bool) (x : α) (l : List α) :
    (x :: l).reverse.find? p = (l.reverse.find? p).or (cond (p x) (some x) none) := by
  rw [reverse_cons, find?_append, find?_cons, find?_nil]
  cases p x <;> rfl

/-- Where the file has the byte at `a`, or what was there before. -/
theorem overSegments_eq (hc : c.length < 2 ^ 32) (h : Segments (fileReadi c) n off sz sz') (img : ℕ → UInt8) :
    overSegments (fileReadi c) n off img a = match (progHeaders c n off).reverse.find? (·.covers a) with
      | some ph => c.getD (ph.off + (a - ph.vaddr)) 0
      | none => img a := by
  induction h generalizing img with
  | done => rfl
  | @skip n off sz sz' bs hb hl ht _ ih =>
    obtain ⟨hle, hbs⟩ := header_read hb hl
    have hoff : u32 (off + sizeofProghdr) = off + sizeofProghdr := mod_eq_of_lt (by omega)
    have hph : (proghdr bs).covers a = false := by simp [Proghdr.covers, ht]
    rw [overSegments, ← hb, if_neg ht, ih, hoff, progHeaders_succ, ← hbs, find_reverse_cons, hph]
    cases (progHeaders c n (off + sizeofProghdr)).reverse.find? (·.covers a) <;> rfl
  | @load n off sz sz₁ sz' bs hb hl ht hs _ ih =>
    obtain ⟨hle, hbs⟩ := header_read hb hl
    have hoff : u32 (off + sizeofProghdr) = off + sizeofProghdr := mod_eq_of_lt (by omega)
    rw [overSegments, ← hb, if_pos ht, ih, hoff, progHeaders_succ, ← hbs, find_reverse_cons]
    cases (progHeaders c n (off + sizeofProghdr)).reverse.find? (·.covers a) with
    | some ph => rfl
    | none =>
      by_cases hin : (proghdr bs).vaddr ≤ a ∧ a < (proghdr bs).vaddr + (proghdr bs).filesz
      · have hph : (proghdr bs).covers a = true := by simp [Proghdr.covers, ht, hin]
        rw [hph]
        dsimp only [Option.or_none, Option.none_or, cond_true]
        rw [Proghdr.over, if_pos hin]
        exact fileReadi_byte hc (word_lt _ _) hs.full (by omega)
      · have hph : (proghdr bs).covers a = false := by simp [Proghdr.covers, hin]
        rw [hph]
        exact if_neg hin

end File

section

variable {L : Linker} {A : ℕ → ℕ → Bool} {P : Perm} {s s' : Kern} {g g' : Ghost} {d v i : ℕ} {p : Proc} {ip : Readi}
  {argv : List (List UInt8)}

attribute [local irreducible] loop PGSIZE

/-- What `exec` may do: make a new page table, and free the caller's. -/
def execPerm (A : ℕ → ℕ → Bool) (s : Kern) (p : Proc) : Perm where
  touch d _ := s.dir d = false ∨ d = p.pgdir
  flag d _ := s.dir d = false
  write d _ := s.dir d = false
  area d v := A d v && s.dir d

theorem Inv.dir_of_named (hI : Inv L s g) (h : (s.entry d v).ppn ≠ 0) : s.dir d = true := by
  by_contra hd
  rw [hI.entry_of_no_dir (by simpa using hd)] at h
  exact h rfl

/-- Where there is no page directory there is no shared memory area. -/
theorem Sound.exec (hS : Sound L A s g) : Sound L (execPerm A s p).area s g := by
  refine ⟨hS.inv, hS.excl, ⟨fun d v hv h0 hc => ?_, fun d v hv ha hw h0 => ?_, fun d v hv ha => ?_⟩, hS.page⟩
  · exact Bool.and_eq_true_iff.2 ⟨hS.area.shm d v hv h0 hc, hS.inv.dir_of_named h0⟩
  · exact hS.area.cls d v hv (Bool.and_eq_true_iff.1 ha).1 hw h0
  · exact hS.area.cow d v hv (Bool.and_eq_true_iff.1 ha).1

/-- The frames in the caller's hands count as lost: a call that begins has none. -/
def Ghost.settle (g : Ghost) : Ghost := { g with cls := fun f => if g.cls f = .held then .lost else g.cls f }

theorem Ghost.settle_iff {f : ℕ} {c : Cls} (h : c ≠ .held) (h' : c ≠ .lost) : g.settle.cls f = c ↔ g.cls f = c := by
  by_cases hf : g.cls f = .held
  · simp [Ghost.settle, hf, h.symm, h'.symm]
  · simp [Ghost.settle, hf]

theorem Sound.settle (hS : Sound L A s g) : Sound L A s g.settle := by
  have hown {f o} : g.settle.cls f = .own o ↔ g.cls f = .own o := Ghost.settle_iff (by simp) (by simp)
  have hpriv {f} : g.settle.cls f = .priv ↔ g.cls f = .priv := Ghost.settle_iff (by simp) (by simp)
  have hshm {f} : g.settle.cls f = .shm ↔ g.cls f = .shm := Ghost.settle_iff (by simp) (by simp)
  have huser {f} : (g.settle.cls f).user ↔ (g.cls f).user := by simp [Cls.user, hown, hpriv, hshm]
  have hw (f) : (g.settle.cls f).weight = (g.cls f).weight := by
    by_cases hf : g.cls f = .held <;> simp [Ghost.settle, hf, Cls.weight]
  refine ⟨⟨fun o f => (hS.inv.holds o f).trans hown.symm, fun f h => ?_, hS.inv.nodup, hS.inv.tab,
    fun d v hv => (hS.inv.named d v hv).imp_right huser.2, fun f h => huser.2 (hS.inv.lost f h),
    fun f h => (hw f).symm ▸ hS.inv.count f h, fun f h => hS.inv.pos f (h.imp hpriv.1 hshm.1)⟩,
    ⟨hS.excl.cow, fun d v hv h h0 => ?_⟩,
    ⟨fun d v hv h0 h => hS.area.shm d v hv h0 (hshm.1 h), fun d v hv ha h h0 => hshm.2 (hS.area.cls d v hv ha h h0),
      hS.area.cow⟩,
    fun d v d' v' hv hv' h0 he h => hS.page d v d' v' hv hv' h0 he fun hc => h (hown.2 hc)⟩
  · exact (Ghost.settle_iff (by simp) (by simp)).2 (hS.inv.raw f h)
  · exact (hS.excl.one d v hv h h0).imp hshm.2 fun h => ⟨hpriv.2 h.1, h.2⟩

/-- All processes are as they were, and so is the memory but for frames that were free. -/
structure AllKept (s s' : Kern) : Prop where
  proc : s'.proc = s.proc
  dir : s'.dir = s.dir
  entry : s'.entry = s.entry
  mem : ∀ f, f ≠ 0 → f ∉ s.freelist → s'.mem f = s.mem f

theorem Unseen.allKept (h : Unseen s s') (hS : Sound L A s g)
    (he : Evs L ((execPerm A s p).spare p.pgdir) (s, g.settle) (s', g')) : AllKept s s' := by
  refine ⟨h.proc, h.dir, h.entry, fun f h0 hf => Evs.mem_of_old he (hS.settle.exec (p := p)) ?_ h0 (fun hc => hf ?_) ?_⟩
  · rintro d v (⟨hne, h | h⟩ | ⟨-, h⟩)
    · exact h
    · exact absurd h hne
    · exact h
  · exact (hS.settle.inv.holds .free f).2 hc
  · by_cases hc : g.cls f = .held <;> simp [Ghost.settle, hc]

/-- `exec` up to the end of the loop over the program headers: the new page directory and, if all is loaded, the size of
the image. -/
def execLoad (L : Linker) (ip : Readi) : K (Option (ℕ × Option ℕ)) := do
  if ((ip 0 sizeofElfhdr).take sizeofElfhdr).length ≠ sizeofElfhdr then return none
  else if ip.elf.magic ≠ ELF_MAGIC then return none
  else
    match ← setupkvm L with
    | none => return none
    | some d => do
      let sz ← loadProgram L d ip ip.elf
      return some (d, sz)

/-- The rest of `exec`. -/
def execRest (L : Linker) (i : ℕ) (ip : Readi) (argv : List (List UInt8)) : Option (ℕ × Option ℕ) → K ℤ
  | none => return -1
  | some (d, none) => do
    freevm L d none
    return -1
  | some (d, some sz) => do
    match ← layStack L d argv sz with
    | none => do
      freevm L d none
      return -1
    | some im => do
      let p ← getProc i
      let _ ← allocvdso L d p.pid
      setProc i (committed p d ip.elf.entry im)
      freevm L p.pgdir (some p.guardpg)
      return 0

theorem exec_eq : exec L i (some ip) argv = execLoad L ip >>= execRest L i ip argv := by
  unfold exec execLoad
  dsimp only
  rw [show elfhdr ((ip 0 sizeofElfhdr).take sizeofElfhdr) = ip.elf from rfl]
  by_cases h1 : ((ip 0 sizeofElfhdr).take sizeofElfhdr).length ≠ sizeofElfhdr
  · rw [if_pos h1, if_pos h1]
    rfl
  rw [if_neg h1, if_neg h1]
  by_cases h2 : ip.elf.magic ≠ ELF_MAGIC
  · rw [if_pos h2, if_pos h2]
    rfl
  rw [if_neg h2, if_neg h2, M.assoc]
  refine congrArg _ (funext fun x => ?_)
  cases x with
  | none => rfl
  | some d =>
    dsimp only
    rw [loadImage_eq, M.assoc, M.assoc]
    refine congrArg _ (funext fun x => ?_)
    rw [show ∀ a (f : Option (ℕ × Option ℕ) → K ℤ), (pure a >>= f) = f a from fun _ _ => rfl]
    cases x with
    | none => rfl
    | some sz =>
      refine congrArg (layStack L d argv sz >>= ·) (funext fun im => ?_)
      cases im <;> rfl

/-- Loading always returns; if it returns an image, that is what the program headers say, and it does so if there are
frames for it. -/
theorem tr_execLoad (hS : Sound L P.area s g) (hT : ∀ d, s.dir d = false → ∀ v, P.touch d v)
    (hf : ∀ d, s.dir d = false → ∀ v, v < NUPG → P.flag d v ∧ P.write d v) :
    Tr (Ev L P) (execLoad L ip) s g (fun x s' _ => (∀ d sz, x = some (d, some sz) → ip.Program sz ∧ Laid L d sz s s' ∧
      Shows d sz (overSegments ip ip.elf.phnum ip.elf.phoff fun _ => 0) s') ∧
      ∀ sz, ip.Program sz → Rich (imageCost sz) s → ∃ d sz, x = some (d, some sz)) (fun _ => False) (fun _ => False) := by
  unfold execLoad
  by_cases h1 : ((ip 0 sizeofElfhdr).take sizeofElfhdr).length ≠ sizeofElfhdr
  · rw [if_pos h1]
    exact tr_pure ⟨by simp, fun _ hp => absurd hp.header h1⟩
  rw [if_neg h1]
  by_cases h2 : ip.elf.magic ≠ ELF_MAGIC
  · rw [if_pos h2]
    exact tr_pure ⟨by simp, fun _ hp => absurd hp.magic h2⟩
  rw [if_neg h2]
  rw [not_not] at h1 h2
  refine tr_bind (tr_setupkvm hS.inv hT) ?_
  rintro (_ | d) s₁ g₁ h₁ hQ
  · refine tr_pure ⟨by simp, fun sz _ hR => absurd (hR.mono ?_) (hQ.2 (imageTabs sz) Finset.subset_union_left)⟩
    exact Nat.add_le_add_right (Nat.le_add_right 1 _) _
  have hl := hQ.1.laid hQ.2
  refine tr_bind (tr_loadProgram (hS.evs h₁) hl (fun v _ => hT d hl.fresh v) (fun v hv => (hf d hl.fresh v hv).1)
    fun v hv => (hf d hl.fresh v hv).2) ?_
  rintro (_ | sz) s₂ g₂ _ hx
  · exact tr_pure ⟨by simp, fun sz hp hR => absurd hR (hx.2 sz hp.segments)⟩
  · refine tr_pure ⟨fun d' sz' heq => ?_, fun _ _ _ => ⟨d, sz, rfl⟩⟩
    obtain ⟨rfl, hsz⟩ := Prod.mk.inj (Option.some.inj heq)
    obtain rfl := Option.some.inj hsz
    exact ⟨⟨h1, h2, hx.1⟩, hx.2⟩

/-- How `exec` ends: it returns -1 and leaves all processes and their memory as they were, or it commits; it faults or panics
only where the strings are lost, where there is memory for the image but not for the stack, or after the commit. -/
theorem sat_exec (hS : Sound L A s g) (hd : s.dir (s.proc i).pgdir = true)
    (hnull : (s.proc i).guardpg = 0 → (s.entry (s.proc i).pgdir 0).p = true) (hlen : ∀ arg ∈ argv, arg.length < KERNBASE) :
    Sat (exec L i (some ip) argv) s
      (fun r s' => (r = -1 ∧ AllKept s s' ∧ Crowded ip argv s) ∨
        (r = 0 ∧ ∃ d im sz t, ip.Program sz ∧ Execed L i d ip argv im sz (s.proc i) s t s'))
      (fun _ => (∃ sz, ip.Program sz ∧ Rich (stackCost sz) s ∧ lost (lowOf sz) (topOf sz) argv) ∨ Passes ip argv)
      (fun m _ => (m = "panic stackptr failed" ∧ ∃ sz, ip.Program sz ∧ Rich (imageCost sz) s ∧ ¬ Rich (stackCost sz) s) ∨
        ((m = "vdso text larger than a page" ∨ m = "kfree") ∧ Passes ip argv)) := by
  refine sat_mono (tr_exec (P := execPerm A s (s.proc i)) rfl hS.settle.exec hd (fun d h _ => h) (fun d h v _ => ⟨h, h⟩)
    (fun d h v => ?_) hlen hnull ?_) ?_ (fun _ h => h.1) fun _ _ h => h
  · change (A d v && s.dir d) = false
    rw [h, Bool.and_false]
  · rintro _ ⟨⟩
    exact ⟨fun sz _ h1 h2 h3 => .inl ⟨sz, h1, h2, h3⟩, fun sz h1 h2 h3 => .inl ⟨rfl, sz, h1, h2, h3⟩, fun _ => .inr,
      fun h => .inr ⟨.inl rfl, h⟩, fun h => .inr ⟨.inr rfl, h⟩⟩
  · rintro r s' ⟨g', -, ⟨h1, h2, h3, h4⟩ | ⟨h1, ip', d, im, sz, t, h2, h3⟩⟩
    · exact .inl ⟨h1, h2.allKept hS h3, h4 ip rfl⟩
    · cases h2
      exact .inr ⟨h1, d, im, sz, t, h3⟩

end

namespace Sys

/-- The counts of references and of open transactions, and the locks, are as they were. -/
structure Steady (k k' : Fsys) : Prop where
  ref : ∀ e, (k'.icache e).ref = (k.icache e).ref
  lock : ∀ e, (k'.icache e).locked = (k.icache e).locked
  file : k'.file = k.file
  outstanding : k'.outstanding = k.outstanding

theorem St.steady {v : View} {k k' : Fsys} (h : St v k) (h' : St v k') : Steady k k' := by
  refine ⟨fun e => ?_, fun e => ?_, h'.file.trans h.file.symm, h'.outstanding.trans h.outstanding.symm⟩
  · rw [h.ref, h'.ref]
  · exact Bool.eq_iff_iff.2 ((h'.lock e).trans (h.lock e).symm)

end Sys

/-- Whatever the file holds, loading it ends without a panic; the image is what the program headers say, and it is there
if the file is a program and there are frames for it; and an `exec` that fails leaves everything as it was. -/
theorem exec_loads_file {L : Linker} {A : ℕ → ℕ → Bool} {s : Kern} {g : Ghost} {i : ℕ} {c : List UInt8}
    {argv : List (List UInt8)} (hS : Sound L A s g) (hd : s.dir (s.proc i).pgdir = true)
    (hnull : (s.proc i).guardpg = 0 → (s.entry (s.proc i).pgdir 0).p = true) (hc : c.length < 2 ^ 32)
    (hlen : ∀ arg ∈ argv, arg.length < KERNBASE) :
    exec L i (some (fileReadi c)) argv = (execLoad L (fileReadi c) >>= execRest L i (fileReadi c) argv) ∧
    Sat (execLoad L (fileReadi c)) s (fun x s' => (∀ d sz, x = some (d, some sz) → ∀ a, PGSIZE ≤ a → a < PGROUNDUP sz →
      s'.usable d a = true ∧
        s'.byteAt d a = imageByte c (progHeaders c (fileReadi c).elf.phnum (fileReadi c).elf.phoff) a) ∧
      ∀ sz, (fileReadi c).Program sz → Rich (imageCost sz) s → ∃ d, x = some (d, some sz))
      (fun _ => False) (fun _ _ => False) ∧
    Sat (exec L i (some (fileReadi c)) argv) s (fun r s' => r = -1 → AllKept s s') (fun _ => True)
      (fun m _ => m ∉ ["loaduvm: address should exist", "loaduvm: addr must be page aligned", "remap"]) ∧
    ∀ D p v k path reads r, Sys.Good v k → (v.proc p).live = true → (∀ q ∈ reads, q.2 < 2 ^ 32) →
      Sat (Sys.sysExec D p path reads r) k (fun _ k' => Sys.Steady k k') (fun _ => False) (fun _ _ => True) := by
  refine ⟨exec_eq, ?_, ?_, ?_⟩
  · refine sat_mono (tr_execLoad (P := execPerm A s (s.proc i)) hS.exec (fun d h _ => .inl h) fun d h v _ => ⟨h, h⟩) ?_
      (fun _ h => h.1) fun _ _ h => h
    rintro x s' ⟨g', -, hx, hsome⟩
    refine ⟨fun d sz heq a ha hlt => ?_, fun sz hp hR => ?_⟩
    rotate_left
    · obtain ⟨d, sz', heq⟩ := hsome sz hp hR
      rw [hp.segments.unique (hx d sz' heq).1.segments]
      exact ⟨d, heq⟩
    obtain ⟨hprog, hl, hsh⟩ := hx d sz heq
    have hpage := hl.page _ (page_of_lt_PGROUNDUP hlt)
    have hne : a / PGSIZE ≠ 0 := (div_pos ha PGSIZE_pos).ne'
    refine ⟨?_, ?_⟩
    · unfold Kern.usable
      rw [hpage.1, imagePte]
      simp [hne]
    · rw [hsh.byte a hlt, overSegments_eq hc hprog.segments]
      rfl
  · refine sat_mono (sat_exec hS hd hnull hlen) ?_ (fun _ _ => trivial) fun m _ hm => ?_
    · rintro r s' (⟨-, h, -⟩ | ⟨rfl, -⟩) hr
      · exact h
      · cases hr
    · rcases hm with ⟨rfl, -⟩ | ⟨rfl | rfl, -⟩ <;> decide
  · intro D p v k path reads r hG hp hreads
    cases path with
    | none => exact hG.st.steady hG.st
    | some path => exact Sys.sysExec_good hG hp hreads (fun _ _ hG' => hG.st.steady hG'.st) fun _ _ _ => trivial

/-- One process with an empty page table, and 2000 free frames. -/
def roomyKern : Kern :=
  { smallKern with
    freelist := range' 513 2000, refCount := fun f => if 513 ≤ f ∧ f < 2513 then 0 else 1
    proc := fun i => if i = 0 then { sz := 8192, pgdir := 512, guardpg := 4096, state := .running } else {} }

def roomyGhost : Ghost :=
  { cls := fun f => if f = 512 then .own .dir else if 513 ≤ f ∧ f < 2513 then .own .free
      else if smallLinker.ok f then .lost else .raw
    lost := fun _ => 0 }

theorem mem_roomyKern {f : ℕ} : f ∈ roomyKern.freelist ↔ 513 ≤ f ∧ f < 2513 := mem_range'_1

theorem roomyKern_inv : Inv smallLinker roomyKern roomyGhost := by
  have hcls : ∀ f, roomyGhost.cls f = if f = 512 then .own .dir else if 513 ≤ f ∧ f < 2513 then .own .free
      else if smallLinker.ok f then .lost else .raw := fun _ => rfl
  have hproc : ∀ i, (roomyKern.proc i).kstack = 0 := by
    intro i
    simp only [roomyKern]
    split_ifs <;> rfl
  have hok : ∀ f, smallLinker.ok f ↔ 512 ≤ f ∧ f < MAXPAGES := fun _ => Iff.rfl
  have hmax : 2513 ≤ MAXPAGES := by decide
  refine ⟨fun o f => ?_, fun f hf => ?_, ⟨nodup_range', nodup_nil⟩, fun d k h => absurd rfl h,
    fun d v _ => .inl rfl, fun f h => absurd rfl h, fun f hf => ?_, fun f h => ?_⟩
  · rw [hcls]
    cases o with
    | free =>
      rw [Kern.holds, mem_roomyKern]
      split_ifs with h1 h2 h3 <;> simp <;> omega
    | kstack i => simp only [Kern.holds, hproc]; split_ifs <;> simp_all
    | _ => simp only [Kern.holds, roomyKern, smallKern]; split_ifs <;> simp_all
  · rw [hok] at hf
    rw [hcls, if_neg (by omega), if_neg (by omega), if_neg (by rw [hok]; exact hf)]
  · have hu : roomyKern.uref f = 0 := refs_eq_zero.2 fun q _ h => smallLinker.ok_ne_zero hf h.symm
    rw [hu, hcls]
    simp only [roomyKern, roomyGhost, hf, if_true]
    split_ifs with h1 h2 h3 <;> first | rfl | omega
  · rw [hcls] at h
    split_ifs at h <;> simp at h

theorem roomyKern_sound : Sound smallLinker (fun _ _ => false) roomyKern roomyGhost where
  inv := roomyKern_inv
  excl := ⟨fun _ _ _ _ => rfl, fun _ _ _ _ h => absurd rfl h⟩
  area := ⟨fun _ _ _ h => absurd rfl h, fun _ _ _ h => absurd h (by decide), fun _ _ _ h => absurd h (by decide)⟩
  page := fun _ _ _ _ _ _ h => absurd rfl h

/-- A file with one segment of two bytes, at the second page. -/
def tinyElf : List UInt8 :=
  le 4 ELF_MAGIC ++ replicate 20 0 ++ le 4 4096 ++ le 4 52 ++ replicate 12 0 ++ le 2 1 ++ replicate 6 0 ++
    (le 4 ELF_PROG_LOAD ++ le 4 84 ++ le 4 4096 ++ le 4 0 ++ le 4 2 ++ le 4 3 ++ replicate 8 0) ++ [0xeb, 0xfe]

theorem tinyElf_program : (fileReadi tinyElf).Program 4099 := by
  have helf : (fileReadi tinyElf).elf.phnum = 1 ∧ (fileReadi tinyElf).elf.phoff = 52 := by decide +kernel
  refine ⟨by decide +kernel, by decide +kernel, ?_⟩
  rw [helf.1, helf.2]
  exact .load rfl (by decide +kernel) (by decide +kernel)
    ⟨by decide +kernel, by decide +kernel, by decide +kernel, by decide +kernel,
      (by unfold Readi.full Readi.gets; decide +kernel), by decide +kernel⟩ .done

/-- No more page tables than there are directory entries. -/
theorem imageTabs_subset (sz : ℕ) : imageTabs sz ⊆ Finset.range NPDENTRIES := by
  intro k hk
  rw [Finset.mem_range]
  simp only [imageTabs, Finset.mem_union, Finset.mem_image, Finset.mem_filter, Finset.mem_range] at hk
  rcases hk with hk | ⟨v, ⟨hv, -⟩, rfl⟩
  · simp only [kernTabs, Finset.mem_union, Finset.mem_Ico] at hk
    simp only [NPDENTRIES]
    omega
  · exact Nat.div_lt_of_lt_mul (hv.trans_le (by decide))

set_option linter.constructorNameAsVariable false in
/-- Its code is where it belongs. -/
theorem exec_loads_file_tiny :
    Sat (execLoad smallLinker (fileReadi tinyElf)) roomyKern (fun x s' => ∃ d, x = some (d, some 4099) ∧
      s'.byteAt d 4097 = 0xfe) (fun _ => False) (fun _ _ => False) := by
  have h := @exec_loads_file _ _ _ _ 0 tinyElf [] roomyKern_sound rfl (fun h => absurd h (by decide)) (by decide +kernel)
    (by simp)
  have hbyte : imageByte tinyElf (progHeaders tinyElf (fileReadi tinyElf).elf.phnum (fileReadi tinyElf).elf.phoff) 4097 = 0xfe := by
    decide +kernel
  have hrich : Rich (imageCost 4099) roomyKern := by
    refine ⟨?_, by simp [roomyKern, smallKern]⟩
    have hlen : roomyKern.freelist.length = 2000 := length_range'
    have hcard : (imageTabs 4099).card ≤ 1024 := (Finset.card_le_card (imageTabs_subset _)).trans_eq (Finset.card_range _)
    have hpages : PGROUNDUP 4099 / PGSIZE = 2 := by decide
    rw [hlen, imageCost, hpages]
    omega
  -- the run itself is not evaluated
  generalize roomyKern = s at h hrich ⊢
  refine sat_post h.2.1 ?_
  rintro x s' ⟨hx, hsome⟩
  obtain ⟨d, heq⟩ := hsome 4099 tinyElf_program hrich
  exact ⟨d, heq, (hx d _ heq 4097 (by decide) (by decide)).2.trans hbyte⟩

end Xv6

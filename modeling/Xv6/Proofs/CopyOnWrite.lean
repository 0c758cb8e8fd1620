import Xv6.Proofs.Sbrk

/-! Copy-on-write. After `fork` the entries of parent and child name the same frames. A store through such an entry
traps and `pagefault` gives the process a frame of its own, so that no process can tell: whatever is stored by whom,
each address space changes as if it had all its frames to itself. -/

namespace Xv6

open Prog Count Relation Function

/-- What directory `d` maps at page `v` of the user part. -/
def Kern.view (s : Kern) (d v : ℕ) : ℕ → UInt8 := if v < NUPG then s.mem (s.entry d v).ppn else fun _ => 0

/-- A store of `b` at `va`, by the process in slot `i`. -/
structure Put where
  i : ℕ
  va : ℕ
  b : UInt8

/-- The entry that the processor finds. -/
def Put.pte (w : Put) (s : Kern) : Pte := s.entry (s.proc w.i).pgdir (w.va / PGSIZE)

def Put.done (w : Put) (s : Kern) : Kern :=
  let f := (w.pte s).ppn
  { s with mem := update s.mem f (update (s.mem f) (w.va % PGSIZE) w.b) }

/-- The processor does the store if the entry allows it. -/
def Put.poke (w : Put) : K Bool := do
  let s ← get
  if s.allows (s.proc w.i).pgdir w.va true then do
    modify w.done
    return true
  else return false

/-- The instruction with the trap it may take; it is started again when `trap` returns to the process. -/
def Put.run (L : Linker) (w : Put) : K Bool := do
  if ← w.poke then return true
  else if (← getProc w.i).killed then return false
  else do
    pagefault L w.i w.va true
    if (← getProc w.i).killed then return false else w.poke

def stores (L : Linker) : List Put → K Bool
  | [] => return true
  | w :: ws => do
    let ok ← w.run L
    return ok && (← stores L ws)

/-- The store in a memory where each directory has its own pages. -/
def Put.onto (proc : ℕ → Proc) (m : ℕ → ℕ → ℕ → UInt8) (w : Put) : ℕ → ℕ → ℕ → UInt8 :=
  let d := (proc w.i).pgdir
  let v := w.va / PGSIZE
  update m d (update (m d) v (update (m d v) (w.va % PGSIZE) w.b))

/-- A store to a page that the process may write, now or after a copy, and that is not shared memory. -/
structure Put.Ok (A : ℕ → ℕ → Bool) (s : Kern) (w : Put) : Prop where
  ne : w.va ≠ 0
  lt : w.va < KERNBASE
  alive : (s.proc w.i).killed = false
  area : A (s.proc w.i).pgdir (w.va / PGSIZE) = false
  user : (w.pte s).p = true ∧ (w.pte s).u = true
  writable : (w.pte s).w = true ∨ (w.pte s).cow = true
  ppn : (w.pte s).ppn ≠ 0

/-- Entry `v` of `d` can be written now, and all pages read as before. -/
structure Owned (d v : ℕ) (s s' : Kern) : Prop where
  entry : s'.entry = upd s.entry d v { s.entry d v with w := true, cow := false, ppn := (s'.entry d v).ppn }
  ppn : (s'.entry d v).ppn ≠ 0
  view : s'.view = s.view
  proc : s'.proc = s.proc
  rich : ∀ m, Rich (m + 1) s → Rich m s'

section

variable {L : Linker} {A : ℕ → ℕ → Bool} {s s' : Kern} {g : Ghost} {d v : ℕ} {w : Put} {e : Pte}

attribute [local irreducible] PGSIZE

/-- All steps, with shared memory in `A`. -/
def Perm.in (A : ℕ → ℕ → Bool) : Perm := { Perm.any with area := A }

theorem Sound.alone (hS : Sound L A s g) (hv : v < NUPG) (hA : A d v = false) (hw : (s.entry d v).w = true)
    (hp : (s.entry d v).ppn ≠ 0) {d' v' : ℕ} (hv' : v' < NUPG) (he : (s.entry d' v').ppn = (s.entry d v).ppn) :
    d' = d ∧ v' = v := by
  rcases hS.excl.one d v hv hw hp with hc | ⟨-, h1⟩
  · exact absurd (hS.area.shm d v hv hp hc) (by simp [hA])
  · exact hS.inv.unique hv hv' hp h1 he

theorem Owned.of {r : ℕ} (he : s.entry d v = e)
    (hent : s'.entry = upd s.entry d v { e with w := true, cow := false, ppn := r }) (hr : r ≠ 0)
    (hm : s'.mem = update s.mem r (s.mem e.ppn)) (hne : ∀ d' v', v' < NUPG → (s.entry d' v').ppn = r → r = e.ppn)
    (hproc : s'.proc = s.proc) (hrich : ∀ m, Rich (m + 1) s → Rich m s') : Owned d v s s' := by
  have hself : (s'.entry d v).ppn = r := by rw [hent, upd_same]
  refine ⟨by rw [he, hself, hent], by rw [hself]; exact hr, ?_, hproc, hrich⟩
  funext d' v'
  unfold Kern.view
  split_ifs with hv'
  · rw [hent, hm]
    by_cases hq : d' = d ∧ v' = v
    · obtain ⟨rfl, rfl⟩ := hq
      rw [upd_same, he]
      exact update_self _ _ _
    · rw [upd_ne hq]
      by_cases hf : (s.entry d' v').ppn = r
      · rw [hf, update_self, ← hne d' v' hv' hf]
      · rw [update_of_ne hf]
  · rfl

/-- The copy: the entry drops the shared frame and takes a free one with the same bytes. -/
theorem tr_cowFault (hI : Inv L s g) (hv : v < NUPG) (he : s.entry d v = e) (hp : e.p = true) (hu : e.u = true)
    (hc : e.cow = true) (hf : e.ppn ≠ 0) :
    Tr (Ev L (.in A)) (cowFault (d, v) e) s g (fun _ s' _ => Owned d v s s') (fun _ => ¬ Rich 1 s)
      (fun _ => False) := by
  have htab : s.ptab d (v / NPTENTRIES) ≠ 0 := by
    intro h0
    rw [entry_of_no_tab h0] at he
    exact hf (he ▸ rfl)
  have hpos : 0 < s.refCount e.ppn := he ▸ hI.refCount_pos hv (he.symm ▸ hf)
  unfold cowFault
  refine tr_get ?_
  by_cases h1 : s.refCount e.ppn > 1
  · rw [if_pos h1]
    unfold Tr
    rcases kalloc_cases s with ⟨hk, hn⟩ | ⟨r, rest, hl, hfl, hk⟩
    · rw [sat_eval hk]
      exact ⟨hn, g, .single (.quiet ⟨⟨rfl, rfl, rfl, rfl, rfl, rfl, rfl⟩, rfl, rfl, rfl⟩ fun _ _ => rfl)⟩
    · rw [sat_eval hk]
      obtain ⟨hcr, hokr, hur⟩ := hI.free_not_user (r := r) (by simp [hl])
      have hne : ∀ d' v', v' < NUPG → (s.entry d' v').ppn ≠ r := fun d' v' hv' =>
        hI.ppn_ne hv' hur (L.ok_ne_zero hokr)
      have hne' : e.ppn ≠ r := he ▸ hne d v hv
      have hheld : (g.set r .held).cls r = .held := Ghost.set_self _ _ _
      set s₁ : Kern := { s with fails := s.fails.tail, freelist := rest, refCount := update s.refCount r 1 }
      have hev₁ : Ev L (.in A) (s, g) (s₁, g.set r .held) := .take hI hl rfl
      have hev₂ := Ev.fill (L := L) (P := .in A) (s := s₁) hheld (s₁.mem e.ppn)
      set s₂ : Kern := { s₁ with mem := update s₁.mem r (s₁.mem e.ppn) }
      have hrc : s₂.refCount e.ppn = s.refCount e.ppn := update_of_ne hne' _ _
      have hdecl : decl (s₂.refCount e.ppn) = s₂.refCount e.ppn - 1 := if_neg (by omega)
      set C := update s₂.refCount e.ppn (s₂.refCount e.ppn - 1) with hC
      set e' : Pte := { p := true, w := true, u := true, ppn := r }
      set s₄ : Kern := { s₂.setPte d v e' with refCount := C }
      have hent : s₄.entry = upd s.entry d v e' := entry_setPte (s := s₂) htab
      -- between the two there is a state with an empty entry, which the code steps over
      let s₃ : Kern := { s₂.setPte d v {} with refCount := C }
      have h0 : s₃.entry = upd s.entry d v {} := entry_setPte (s := s₂) htab
      have hev₃ : Ev L (.in A) (s₂, g.set r .held) (s₃, g.set r .held) :=
        .drop trivial hv he (fun _ => hp) hf (by omega) ⟨⟨rfl, rfl, rfl, rfl, rfl, rfl, rfl⟩, rfl, h0, rfl⟩ rfl
      have hset : Becomes s₃ s₄ (upd s₃.entry d v e') C :=
        ⟨⟨rfl, rfl, rfl, rfl, rfl, rfl, rfl⟩, rfl, by rw [h0, upd_upd, hent], rfl⟩
      have hev₄ := Ev.map (L := L) (P := .in A) (s := s₃) trivial hv htab (by rw [h0, upd_same]) hheld rfl hset rfl
      refine tr_step (.single hev₁) (tr_modify (.single hev₂) ?_)
      simp only [Tr, declRefCount, sat_bind_eq, storePte, sat_modify_eq]
      rw [show (s₂.setPte d v e').refCount = s₂.refCount from rfl, hdecl, ← hC]
      refine ⟨_, (ReflTransGen.single hev₃).tail hev₄, .of he ?_ (L.ok_ne_zero hokr) rfl
        (fun d' v' hv' hf' => absurd hf' (hne d' v' hv')) rfl fun m => (rich_tail hl hfl rfl rfl).1⟩
      rw [hp, hu]
      exact hent
  · rw [if_neg h1, if_pos (by omega)]
    refine tr_modify_end (.single (.change (d := d) (.claim (L := L) hv trivial ?_ ?_) ?_ rfl)) ?_
    · rw [he]; exact hc
    · rw [he]; omega
    · rw [he]; exact becomes_setPte htab
    · exact .of he (entry_setPte htab) hf (update_eq_self _ _).symm (fun _ _ _ _ => rfl) rfl fun m h =>
        h.mono (Nat.le_succ m)

theorem tr_pagefault_cow (hI : Inv L s g) (h : w.Ok A s) (hc : (w.pte s).cow = true) :
    Tr (Ev L (.in A)) (pagefault L w.i w.va true) s g
      (fun _ s' _ => Owned (s.proc w.i).pgdir (w.va / PGSIZE) s s') (fun _ => ¬ Rich 1 s) (fun _ => False) := by
  have hpage : PGROUNDDOWN w.va / PGSIZE = w.va / PGSIZE := Nat.mul_div_cancel _ PGSIZE_pos
  have htab : s.ptab (s.proc w.i).pgdir (w.va / PGSIZE / NPTENTRIES) ≠ 0 := by
    intro h0
    exact h.ppn (by rw [Put.pte, entry_of_no_tab h0])
  have hlt : PGROUNDDOWN w.va < 2 ^ 32 := (PGROUNDDOWN_le _).trans_lt (h.lt.trans (by decide))
  unfold pagefault
  rw [if_neg h.ne]
  refine tr_getProc (tr_walk_false (fun _ => ?_) fun h0 => ?_)
  · rw [hpage]
    refine tr_loadPte htab ?_
    change Tr _ (if (w.pte s).cow = true then cowFault (_, _) (w.pte s) else _) _ _ _ _ _
    rw [if_pos hc]
    exact tr_cowFault hI (page_lt h.lt) rfl h.user.1 h.user.2 hc h.ppn
  · rw [PDX_eq hlt, hpage] at h0
    exact absurd h0 htab

/-- The store is seen through one entry. -/
theorem Put.Ok.view_done (h : w.Ok A s) (hS : Sound L A s g) (hw : (w.pte s).w = true) :
    (w.done s).view = w.onto s.proc s.view := by
  have hlt := page_lt h.lt
  funext d v
  unfold Put.onto
  by_cases hq : d = (s.proc w.i).pgdir ∧ v = w.va / PGSIZE
  · obtain ⟨rfl, rfl⟩ := hq
    simp only [Kern.view, if_pos hlt, update_self]
    exact update_self _ _ _
  · have hne : v < NUPG → (s.entry d v).ppn ≠ (w.pte s).ppn := fun hv he => hq (hS.alone hlt h.area hw h.ppn hv he)
    trans s.view d v
    · unfold Kern.view
      split_ifs with hv
      · exact update_of_ne (hne hv) _ _
      · rfl
    · rcases eq_or_ne d (s.proc w.i).pgdir with rfl | hd
      · rw [update_self, update_of_ne fun hv => hq ⟨rfl, hv⟩]
      · rw [update_of_ne hd]

/-- The step: the store is done, at the cost of a frame at most. -/
structure Stored (A : ℕ → ℕ → Bool) (w : Put) (s s' : Kern) : Prop where
  view : s'.view = w.onto s.proc s.view
  proc : s'.proc = s.proc
  ok : ∀ w' : Put, w'.Ok A s → w'.Ok A s'
  rich : ∀ m, Rich (m + 1) s → Rich m s'

theorem tr_poke (h : w.Ok A s) (hw : (w.pte s).w = true) {F : Kern → Prop} {N : String → Prop} :
    Tr (Ev L (.in A)) w.poke s g (fun a s' _ => a = true ∧ s' = w.done s) F N := by
  unfold Put.poke
  refine tr_get ?_
  have hok : s.allows (s.proc w.i).pgdir w.va true = true := by
    change ((w.pte s).p && (w.pte s).u && (w.pte s).w) = true
    rw [h.user.1, h.user.2, hw]
    rfl
  rw [if_pos hok]
  refine tr_modify (.single (.write trivial (page_lt h.lt) hw ⟨⟨rfl, rfl, rfl, rfl, rfl, rfl, rfl⟩, rfl, rfl, rfl⟩ ?_))
    (tr_pure ⟨rfl, rfl⟩)
  intro f hf
  exact update_of_ne hf _ _

theorem Put.Ok.keep (h : w.Ok A s) (hproc : s'.proc = s.proc) (he : w.pte s' = w.pte s ∨
      w.pte s' = { w.pte s with w := true, cow := false, ppn := (w.pte s').ppn } ∧ (w.pte s').ppn ≠ 0) : w.Ok A s' := by
  obtain ⟨h1, h2, h3, h4, h5, h6, h7⟩ := h
  rw [← hproc] at h3 h4
  rcases he with he | ⟨he, hp⟩
  · rw [← he] at h5 h6 h7
    exact ⟨h1, h2, h3, h4, h5, h6, h7⟩
  · exact ⟨h1, h2, h3, h4, by rw [he]; exact h5, .inl (by rw [he]), hp⟩

theorem Owned.ok (ho : Owned d v s s') (h : w.Ok A s) : w.Ok A s' := by
  refine h.keep ho.proc ?_
  by_cases hq : (s.proc w.i).pgdir = d ∧ w.va / PGSIZE = v
  · obtain ⟨rfl, rfl⟩ := hq
    refine .inr ?_
    unfold Put.pte
    rw [ho.proc]
    exact ⟨by rw [ho.entry, upd_same], ho.ppn⟩
  · refine .inl ?_
    unfold Put.pte
    rw [ho.proc, ho.entry, upd_ne hq]

theorem tr_run (hS : Sound L A s g) (h : w.Ok A s) :
    Tr (Ev L (.in A)) (w.run L) s g (fun a s' _ => a = true ∧ Stored A w s s') (fun _ => ¬ Rich 1 s)
      (fun _ => False) := by
  unfold Put.run
  by_cases hw : (w.pte s).w = true
  · refine tr_bind (tr_poke h hw) ?_
    rintro a s' g' - ⟨rfl, rfl⟩
    exact tr_pure ⟨rfl, h.view_done hS hw, rfl, fun _ h => h.keep rfl (.inl rfl), fun m h => h.mono (Nat.le_succ m)⟩
  · have hp : w.poke s = .ok false s := by
      unfold Put.poke
      have hno : ¬ s.allows (s.proc w.i).pgdir w.va true = true := fun h => hw (Bool.and_eq_true_iff.1 h).2
      change (if s.allows _ w.va true = true then _ else _ : K Bool) s = _
      rw [if_neg hno]
      rfl
    unfold Tr
    rw [sat_eval hp]
    change Tr _ (if (s.proc w.i).killed = true then _ else _) _ _ _ _ _
    rw [h.alive]
    refine tr_bind (tr_pagefault_cow hS.inv h (h.writable.resolve_left hw)) fun _ s₁ g₁ hev ho => ?_
    -- the restarted instruction finds an entry that lets it
    have h₁ := ho.ok h
    have hw₁ : (w.pte s₁).w = true := by
      rw [Put.pte, ho.proc, ho.entry, upd_same]
    have hS₁ : Sound L A s₁ g₁ := Sound.evs (P := .in A) hS hev
    change Tr _ (if (s₁.proc w.i).killed = true then _ else _) _ _ _ _ _
    rw [h₁.alive]
    refine tr_post (tr_poke h₁ hw₁) ?_
    rintro a s' g' - ⟨rfl, rfl⟩
    refine ⟨rfl, ?_, ho.proc, fun _ h => (ho.ok h).keep rfl (.inl rfl), ho.rich⟩
    rw [h₁.view_done hS₁ hw₁, ho.proc, ho.view]

/-- Whatever processes store to their pages, each sees its own stores and no other: copy-on-write acts as if every
page of every address space had a frame of its own. Each store takes a free frame at most. -/
theorem stores_as_private (hS : Sound L A s g) {ws : List Put} (hws : ∀ w ∈ ws, w.Ok A s) :
    Sat (stores L ws) s
      (fun ok s' => ok = true ∧ s'.view = ws.foldl (Put.onto s.proc) s.view ∧ ∃ g', Sound L A s' g')
      (fun _ => ¬ Rich ws.length s) (fun _ _ => False) := by
  induction ws generalizing s g with
  | nil => exact ⟨rfl, rfl, g, hS⟩
  | cons w ws ih =>
    have hw := hws w (by simp)
    unfold stores
    refine sat_bind (sat_mono (tr_run hS hw) (fun a s' h => h) ?_ fun _ _ h => h) ?_
    · rintro s' ⟨hn, -⟩ hr
      exact hn (hr.mono (by simp))
    · rintro a s' ⟨g', hev, rfl, hst⟩
      have hS' : Sound L A s' g' := Sound.evs (P := .in A) hS hev
      refine sat_bind (sat_mono (ih hS' fun w' hw' => hst.ok w' (hws w' (by simp [hw']))) (fun _ _ h => h) ?_
        fun _ _ h => h) ?_
      · rintro s'' hn hr
        exact hn (hst.rich _ hr)
      · rintro b s'' ⟨rfl, hv, hg⟩
        rw [hst.proc, hst.view] at hv
        exact ⟨rfl, hv, hg⟩

end

/-! ### Parent and child -/

def sharedPage : Pte := { p := true, u := true, cow := true, ppn := 514 }

/-- After `fork`: page 1 of both processes is frame 514. -/
def forkedKern : Kern :=
  { smallKern with
    freelist := [517, 518]
    refCount := fun f => if f = 517 ∨ f = 518 then 0 else if f = 514 then 2 else 1
    dir := fun d => d = 512 ∨ d = 515
    ptab := fun d k => if d = 512 ∧ k = 0 then 513 else if d = 515 ∧ k = 0 then 516 else 0
    pte := fun _ v => if v = 1 then sharedPage else {}
    proc := fun i => { pgdir := if i = 0 then 512 else if i = 1 then 515 else 0, state := .running } }

def forkedGhost : Ghost :=
  { cls := fun f => if f = 512 ∨ f = 515 then .own .dir else if f = 513 then .own (.tab 512 0)
      else if f = 516 then .own (.tab 515 0) else if f = 517 ∨ f = 518 then .own .free else if f = 514 then .priv
      else if smallLinker.ok f then .lost else .raw
    lost := fun _ => 0 }

theorem forkedKern_entry (d v : ℕ) :
    forkedKern.entry d v = if (d = 512 ∨ d = 515) ∧ v = 1 then sharedPage else {} := by
  unfold Kern.entry forkedKern
  dsimp only
  by_cases hv : v = 1
  · subst hv
    by_cases h1 : d = 512
    · simp [h1, NPTENTRIES]
    · by_cases h2 : d = 515 <;> simp [h1, h2, NPTENTRIES]
  · simp [hv]

theorem forkedKern_uref {f : ℕ} (h0 : f ≠ 0) : forkedKern.uref f = if f = 514 then 2 else 0 := by
  unfold Kern.uref refs
  simp only [forkedKern_entry]
  by_cases h : f = 514
  · have hset : slots.filter (fun q => (if (q.1 = 512 ∨ q.1 = 515) ∧ q.2 = 1 then sharedPage else {}).ppn = f) =
        {(512, 1), (515, 1)} := by
      ext ⟨d, v⟩
      rw [Finset.mem_filter, mem_slots]
      constructor
      · rintro ⟨-, hf⟩
        split_ifs at hf with hq
        · rcases hq with ⟨rfl | rfl, rfl⟩ <;> simp
        · exact absurd (hf.trans h) (by decide)
      · intro hq
        simp only [Finset.mem_insert, Finset.mem_singleton, Prod.mk.injEq] at hq
        rcases hq with ⟨rfl, rfl⟩ | ⟨rfl, rfl⟩ <;> exact ⟨by decide, h.symm⟩
    rw [if_pos h, hset]
    rfl
  · rw [if_neg h, Finset.card_eq_zero, Finset.filter_eq_empty_iff]
    rintro q - hf
    split_ifs at hf
    · exact h hf.symm
    · exact h0 hf.symm

theorem forkedKern_sound : Sound smallLinker (fun _ _ => false) forkedKern forkedGhost := by
  have hcls : ∀ f, forkedGhost.cls f = if f = 512 ∨ f = 515 then .own .dir else if f = 513 then .own (.tab 512 0)
      else if f = 516 then .own (.tab 515 0) else if f = 517 ∨ f = 518 then .own .free else if f = 514 then .priv
      else if smallLinker.ok f then .lost else .raw := fun _ => rfl
  have hent : ∀ d v, (forkedKern.entry d v).w = false ∧
      ((forkedKern.entry d v).ppn = 0 ∨ (forkedKern.entry d v).ppn = 514 ∧ v = 1) := by
    intro d v
    rw [forkedKern_entry]
    split_ifs with h
    · exact ⟨rfl, .inr ⟨rfl, h.2⟩⟩
    · exact ⟨rfl, .inl rfl⟩
  have h514 : forkedGhost.cls 514 = .priv := rfl
  refine ⟨⟨fun o f => ?_, fun f hf => ?_, by decide, fun d k h => ?_, fun d v _ => ?_, fun f h => absurd rfl h,
    fun f hf => ?_, fun f h => ?_⟩, ⟨fun d v _ h => ?_, fun d v _ h => ?_⟩, ⟨fun d v _ h0 h => ?_, fun _ _ _ h => ?_,
    fun _ _ _ h => ?_⟩, fun d v d' v' _ _ h0 h _ => ?_⟩
  · rw [hcls]
    cases o with
    | tab d k =>
      simp only [Kern.holds, forkedKern]
      constructor
      · rintro ⟨rfl, h0⟩
        split_ifs at h0 with h1 h2
        · obtain ⟨rfl, rfl⟩ := h1
          rfl
        · obtain ⟨rfl, rfl⟩ := h2
          rfl
        · exact absurd rfl h0
      · intro h
        split_ifs at h with h1 h2 h3 <;> cases h
        · exact ⟨h2.symm, by omega⟩
        · exact ⟨h3.symm, by omega⟩
    | _ => simp only [Kern.holds, forkedKern, smallKern]; split_ifs <;> simp_all <;> omega
  · have hne : ∀ g, smallLinker.ok g → f ≠ g := fun g hg h => hf (h ▸ hg)
    have h1 := hne 512 (by decide)
    have h2 := hne 513 (by decide)
    have h3 := hne 514 (by decide)
    have h4 := hne 515 (by decide)
    have h5 := hne 516 (by decide)
    have h6 := hne 517 (by decide)
    have h7 := hne 518 (by decide)
    rw [hcls]
    simp only [h1, h2, h3, h4, h5, h6, h7, hf, or_self, if_false]
  · simp only [forkedKern] at h ⊢
    split_ifs at h with h1 h2
    · simp [h1, NPDENTRIES]
    · simp [h2, NPDENTRIES]
    · exact absurd rfl h
  · rcases (hent d v).2 with h | ⟨h, -⟩
    · exact .inl h
    · exact .inr (h ▸ .inl h514)
  · rw [forkedKern_uref (smallLinker.ok_ne_zero hf), hcls]
    simp only [forkedKern, forkedGhost, hf, if_true]
    split_ifs <;> first | rfl | omega
  · have h : f = 514 := by
      rw [hcls] at h
      split_ifs at h <;> simp_all
    rw [forkedKern_uref (by omega), if_pos h]
    omega
  · exact absurd h (by simp [(hent d v).1])
  · exact absurd h (by simp [(hent d v).1])
  · rw [(hent d v).2.resolve_left h0 |>.1, h514] at h
    cases h
  · cases h
  · cases h
  · have h1 := (hent d v).2.resolve_left h0
    have h2 := (hent d' v').2.resolve_left (h ▸ h0)
    rw [h1.2, h2.2]

/-- Both processes store to the page: the first to do so gets a copy. -/
theorem stores_as_private_forked : Sound smallLinker (fun _ _ => false) forkedKern forkedGhost ∧
    (forkedKern.entry 512 1).cow = true ∧ (forkedKern.entry 512 1).ppn = (forkedKern.entry 515 1).ppn ∧
    Sat (stores smallLinker [⟨0, 4101, 9⟩, ⟨1, 4101, 8⟩]) forkedKern
      (fun ok s' => ok = true ∧ s'.view 512 1 5 = 9 ∧ s'.view 515 1 5 = 8 ∧ s'.view 512 1 6 = 7 ∧ s'.view 515 1 6 = 7)
      (fun _ => False) (fun _ _ => False) := by
  have hrich : Rich 2 forkedKern := ⟨by decide, by decide⟩
  refine ⟨forkedKern_sound, rfl, rfl, sat_mono (stores_as_private forkedKern_sound fun w hw => ?_) ?_ (fun _ h => h hrich)
    fun _ _ h => h⟩
  · simp only [List.mem_cons, List.not_mem_nil, or_false] at hw
    rcases hw with rfl | rfl <;> exact ⟨by decide, by decide, rfl, rfl, ⟨rfl, rfl⟩, .inr rfl, by decide⟩
  · rintro ok s' ⟨hok, hv, -⟩
    rw [hv]
    exact ⟨hok, by decide⟩

end Xv6

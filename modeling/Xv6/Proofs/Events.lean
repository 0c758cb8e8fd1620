import Xv6.Proofs.Frames
import Mathlib.Logic.Relation

/-! The small steps that the kernel's code is made of, as far as page frames go: a frame changes
hands, or one page-table entry changes. Every function of `vm.c` and `proc.c` is a chain of them, and
the account of the frames is kept by each. -/

namespace Xv6

open Prog Count Relation Function

/-- Whether page `v` is one of those `k` maps. -/
def Kmap.covers (k : Kmap) (v : ℕ) : Prop :=
  k.virt / PGSIZE ≤ v ∧ v < k.virt / PGSIZE + sub32 k.physEnd k.physStart / PGSIZE

instance (k : Kmap) (v : ℕ) : Decidable (k.covers v) := inferInstanceAs (Decidable (_ ∧ _))

/-- The entry of the table `kmap` for page `v`. -/
def kentry (L : Linker) (v : ℕ) : Pte :=
  match (kmap L).find? fun k => k.covers v with
  | some k => { k.perm with p := true, ppn := k.physStart / PGSIZE + (v - k.virt / PGSIZE) }
  | none => {}

/-- What a chain of steps may do. -/
structure Perm where
  /-- the entries whose frame may change -/
  touch : ℕ → ℕ → Prop
  /-- the entries whose flags may change -/
  flag : ℕ → ℕ → Prop
  /-- the entries through which user pages may be written -/
  write : ℕ → ℕ → Prop
  /-- the entries that lie in a shared memory area -/
  area : ℕ → ℕ → Bool

/-- All that holds frames, but for the free list, is as it was. -/
structure Kept (s s' : Kern) : Prop where
  dir : s'.dir = s.dir
  ptab : s'.ptab = s.ptab
  proc : s'.proc = s.proc
  pipes : s'.pipes = s.pipes
  cpustacks : s'.cpustacks = s.cpustacks
  vdsoText : s'.vdsoText = s.vdsoText
  vdsoTicks : s'.vdsoTicks = s.vdsoTicks

/-- The entries become `E` and the counts `C`. -/
structure Becomes (s s' : Kern) (E : ℕ → ℕ → Pte) (C : ℕ → ℕ) : Prop extends Kept s s' where
  freelist : s'.freelist = s.freelist
  entry : s'.entry = E
  refCount : s'.refCount = C

/-- The changes of one entry that leave its frame alone, and the entries of the kernel part. -/
inductive Change (L : Linker) (P : Perm) (s : Kern) (d v : ℕ) : Pte → Prop where
  | kern (hv : NUPG ≤ v) (ht : P.touch d v) : Change L P s d v (kentry L v)
  | clear {p u : Bool} (hv : v < NUPG) (hf : P.flag d v) (hp : p = true → (s.entry d v).p = true)
      (hu : u = true → (s.entry d v).u = true) : Change L P s d v { s.entry d v with p := p, u := u }
  | claim (hv : v < NUPG) (hf : P.flag d v) (hc : (s.entry d v).cow = true)
      (h1 : s.refCount (s.entry d v).ppn = 1) :
      Change L P s d v { s.entry d v with w := true, cow := false }

/-- The frames that may pass to another use: free ones, those in the caller's hands, and page directories all of whose
entries may be touched. -/
def Perm.passes (P : Perm) (g : Ghost) (r : ℕ) : Prop :=
  g.cls r = .own .free ∨ g.cls r = .held ∨ g.cls r = .own .dir ∧ ∀ v, P.touch r v

theorem Perm.passes.not_user {P : Perm} {g : Ghost} {r : ℕ} (h : P.passes g r) : ¬ (g.cls r).user := by
  rcases h with h | h | h <;> simp [h, Cls.user]

inductive Ev (L : Linker) (P : Perm) : Kern × Ghost → Kern × Ghost → Prop where
  /-- nothing that is accounted for; a page that is in nobody's hands may be written -/
  | quiet {s s' : Kern} {g : Ghost} (h : Becomes s s' s.entry s.refCount)
      (hm : ∀ f, g.cls f ≠ .held → s'.mem f = s.mem f) : Ev L P (s, g) (s', g)
  /-- the process table changes, but for the kernel stacks -/
  | procs {s : Kern} {g : Ghost} {p : ℕ → Proc} (hk : ∀ i, (p i).kstack = (s.proc i).kstack) :
      Ev L P (s, g) ({ s with proc := p }, g)
  /-- frame `r`, that no user entry names, passes to class `c` -/
  | pass {s s' : Kern} {g : Ghost} (r : ℕ) (c : Cls) (hok : L.ok r) (hr : P.passes g r)
      (hc : c ≠ .priv ∧ c ≠ .shm) (he : s'.entry = s.entry)
      (href : s'.refCount = update s.refCount r c.weight)
      (hh : ∀ o f, f ≠ r → (s'.holds o f ↔ s.holds o f)) (ho : ∀ o, s'.holds o r ↔ c = .own o)
      (ht : ∀ d k, s'.ptab d k ≠ 0 → s'.dir d = true ∧ k < NPDENTRIES)
      (hn : s'.freelist.Nodup ∧ s'.pipes.Nodup) (hm : ∀ f, f ≠ r → s'.mem f = s.mem f)
      (hd : ∀ d, s.dir d = true → s'.dir d = true ∨ ∀ v, P.touch d v) : Ev L P (s, g) (s', g.set r c)
  | change {s s' : Kern} {g : Ghost} {d v : ℕ} {e : Pte} (hc : Change L P s d v e)
      (h : Becomes s s' (upd s.entry d v e) s.refCount) (hm : s'.mem = s.mem) : Ev L P (s, g) (s', g)
  /-- a fresh page is mapped, over an entry that is not present -/
  | map {s s' : Kern} {g : Ghost} {d v : ℕ} {e : Pte} (ht : P.touch d v) (hv : v < NUPG)
      (htab : s.ptab d (v / NPTENTRIES) ≠ 0) (hp : (s.entry d v).p = false)
      (hheld : g.cls e.ppn = .held) (hcow : e.cow = false)
      (h : Becomes s s' (upd s.entry d v e) s.refCount) (hm : s'.mem = s.mem) :
      Ev L P (s, g) (s', (g.lose (s.entry d v).ppn).set e.ppn (cond (P.area d v) .shm .priv))
  /-- one of the vdso pages is mapped too -/
  | vshare {s s' : Kern} {g : Ghost} {d v f : ℕ} (ht : P.touch d v) (hv : v < NUPG) (h0 : v ≠ 0)
      (htab : s.ptab d (v / NPTENTRIES) ≠ 0) (hp : (s.entry d v).p = false) (hf : g.cls f = .own .vdso)
      (h : Becomes s s' (upd s.entry d v { p := true, u := true, ppn := f })
        (update s.refCount f (s.refCount f + 1))) (hm : s'.mem = s.mem) :
      Ev L P (s, g) (s', g.lose (s.entry d v).ppn)
  /-- an entry gives up its reference, which is not the last one -/
  | drop {s s' : Kern} {g : Ghost} {d v : ℕ} {e : Pte} (ht : P.touch d v) (hv : v < NUPG)
      (hsrc : s.entry d v = e) (hp : v = 0 → e.p = true) (hf0 : e.ppn ≠ 0) (h1 : s.refCount e.ppn ≠ 1)
      (h : Becomes s s' (upd s.entry d v {})
        (update s.refCount e.ppn (s.refCount e.ppn - 1))) (hm : s'.mem = s.mem) :
      Ev L P (s, g) (s', g)
  /-- an entry gives up the last reference -/
  | last {s s' : Kern} {g : Ghost} {d v : ℕ} {e : Pte} (ht : P.touch d v) (hv : v < NUPG)
      (hsrc : s.entry d v = e) (hp : v = 0 → e.p = true) (hf0 : e.ppn ≠ 0) (h1 : s.refCount e.ppn = 1)
      (hk : Kept s s') (hf : s'.freelist = e.ppn :: s.freelist) (he : s'.entry = upd s.entry d v {})
      (hr : s'.refCount = update s.refCount e.ppn 0)
      (hm : ∀ f, f ≠ e.ppn → s'.mem f = s.mem f) : Ev L P (s, g) (s', g.set e.ppn (.own .free))
  /-- a page-table page is freed, with what is left in it -/
  | untab {s s' : Kern} {g : Ghost} {d k r : ℕ} (ht : ∀ v, v / NPTENTRIES = k → P.touch d v)
      (hsrc : s.ptab d k = r) (hr0 : r ≠ 0) (hk : Kept (s.dropTab d k) s')
      (hf : s'.freelist = r :: s.freelist) (he : s'.entry = (s.dropTab d k).entry)
      (hr : s'.refCount = update s.refCount r 0) (hm : ∀ f, f ≠ r → s'.mem f = s.mem f) :
      Ev L P (s, g) (s', (g.loseTab s d k).set r (.own .free))
  /-- a user page is written -/
  | write {s s' : Kern} {g : Ghost} {d v : ℕ} (ht : P.write d v) (hv : v < NUPG)
      (hw : (s.entry d v).w = true) (h : Becomes s s' s.entry s.refCount)
      (hm : ∀ f, f ≠ (s.entry d v).ppn → s'.mem f = s.mem f) : Ev L P (s, g) (s', g)

/-- A chain of steps. -/
abbrev Evs (L : Linker) (P : Perm) : Kern × Ghost → Kern × Ghost → Prop := ReflTransGen (Ev L P)

section Account

variable {L : Linker} {P : Perm} {s s' : Kern} {g g' : Ghost} {d v k f r : ℕ} {e : Pte} {C : ℕ → ℕ} {E : ℕ → ℕ → Pte}
  {o : Owner} {c : Cls} {a b : Kern × Ghost}

theorem Kept.holds (hk : Kept s s') (ho : o ≠ .free) : s'.holds o f ↔ s.holds o f := by
  cases o with
  | free => exact absurd rfl ho
  | dir => simp [Kern.holds, hk.dir]
  | tab d k => simp [Kern.holds, hk.ptab]
  | kstack i => simp [Kern.holds, hk.proc]
  | pipe => simp [Kern.holds, hk.pipes]
  | cpu => simp [Kern.holds, hk.cpustacks]
  | vdso => simp [Kern.holds, hk.vdsoText, hk.vdsoTicks]

theorem Becomes.holds (h : Becomes s s' E C) : s'.holds o f ↔ s.holds o f := by
  rcases eq_or_ne o .free with rfl | ho
  · simp [Kern.holds, h.freelist]
  · exact h.toKept.holds ho

@[simp] theorem Ghost.set_self (g : Ghost) (f : ℕ) (c : Cls) : (g.set f c).cls f = c := by simp [Ghost.set]

theorem Ghost.set_ne (g : Ghost) (c : Cls) (h : f ≠ r) : (g.set r c).cls f = g.cls f := by
  simp [Ghost.set, h]

@[simp] theorem Ghost.set_lost (g : Ghost) (f : ℕ) (c : Cls) : (g.set f c).lost = g.lost := rfl

@[simp] theorem Ghost.lose_cls (g : Ghost) (f : ℕ) : (g.lose f).cls = g.cls := by
  unfold Ghost.lose
  split_ifs <;> rfl

theorem Ghost.lose_lost (g : Ghost) (hf : f ≠ 0) : (g.lose r).lost f = g.lost f + if r = f then 1 else 0 := by
  unfold Ghost.lose
  by_cases hr : r = 0
  · subst hr
    simp [hf.symm]
  · by_cases h : r = f
    · subst h
      simp [hr]
    · simp [hr, update_of_ne (Ne.symm h), h]

/-- What an event has to show when the kernel's own frames stay where they are. -/
theorem Inv.becomes (hI : Inv L s g) (h : Becomes s s' E C)
    (hown : ∀ f o, g'.cls f = .own o ↔ g.cls f = .own o) (hraw : ∀ f, ¬ L.ok f → g'.cls f = .raw)
    (named : ∀ d v, v < NUPG → (s'.entry d v).ppn = 0 ∨ (g'.cls (s'.entry d v).ppn).user)
    (lost : ∀ f, g'.lost f ≠ 0 → (g'.cls f).user)
    (count : ∀ f, L.ok f → s'.refCount f = s'.uref f + g'.lost f + (g'.cls f).weight)
    (pos : ∀ f, g'.cls f = .priv ∨ g'.cls f = .shm → 0 < s'.uref f + g'.lost f) : Inv L s' g' where
  holds o f := by rw [h.holds, hI.holds, hown]
  raw := hraw
  nodup := by rw [h.freelist, h.pipes]; exact hI.nodup
  tab d k := by rw [h.ptab, h.dir]; exact hI.tab d k
  named := named
  lost := lost
  count := count
  pos := pos

/-- The frames named stay the same, and so does the account. -/
theorem Inv.same_ppn (hI : Inv L s g) (h : Becomes s s' E s.refCount)
    (hp : ∀ d v, v < NUPG → (s'.entry d v).ppn = (s.entry d v).ppn) : Inv L s' g := by
  have hu : ∀ f, s'.uref f = s.uref f := fun f => uref_congr hp
  refine hI.becomes h (fun _ _ => Iff.rfl) hI.raw ?_ hI.lost ?_ ?_
  · intro d v hv
    rw [hp d v hv]
    exact hI.named d v hv
  · intro f hf
    rw [h.refCount, hu]
    exact hI.count f hf
  · intro f hf
    rw [hu]
    exact hI.pos f hf

theorem Change.ppn (hc : Change L P s d v e) (hv : v < NUPG) : e.ppn = (s.entry d v).ppn := by
  cases hc with
  | kern hk => omega
  | clear => rfl
  | claim => rfl

theorem Inv.change (hI : Inv L s g) (hc : Change L P s d v e)
    (h : Becomes s s' (upd s.entry d v e) s.refCount) : Inv L s' g := by
  refine hI.same_ppn h fun d' v' hv' => ?_
  rw [h.entry]
  by_cases hq : d' = d ∧ v' = v
  · obtain ⟨rfl, rfl⟩ := hq
    rw [upd_same]
    exact hc.ppn hv'
  · rw [upd_ne hq]

/-- A frame in the kernel's hands is not named by a user entry. -/
theorem Inv.ppn_ne (hI : Inv L s g) (hv : v < NUPG) (hr : ¬ (g.cls r).user) (hr0 : r ≠ 0) :
    (s.entry d v).ppn ≠ r := by
  intro he
  rcases hI.named d v hv with h0 | hu
  · exact hr0 (he ▸ h0)
  · exact hr (he ▸ hu)

theorem Cls.held_not_user : ¬ Cls.held.user := by simp [Cls.user]

theorem Inv.held_ok (hI : Inv L s g) (hr : g.cls r = .held) : L.ok r :=
  hI.ok_of_ne_raw (by rw [hr]; simp)

theorem Inv.held_ne_zero (hI : Inv L s g) (hr : g.cls r = .held) : r ≠ 0 := L.ok_ne_zero (hI.held_ok hr)

theorem Inv.held_count (hI : Inv L s g) (hr : g.cls r = .held) :
    s.refCount r = 1 ∧ s.uref r = 0 ∧ g.lost r = 0 := by
  have hu : ¬ (g.cls r).user := by rw [hr]; exact Cls.held_not_user
  refine ⟨?_, hI.uref_eq_zero hu (hI.held_ne_zero hr), hI.lost_eq_zero hu⟩
  rw [hI.refCount_of_not_user hu (hI.held_ok hr), hr]
  rfl

theorem Inv.named_upd (hI : Inv L s g) (he : s'.entry = upd s.entry d v e)
    (hcls : ∀ f, (g.cls f).user → (g'.cls f).user) (hnew : e.ppn = 0 ∨ (g'.cls e.ppn).user)
    (d' v' : ℕ) (hv' : v' < NUPG) : (s'.entry d' v').ppn = 0 ∨ (g'.cls (s'.entry d' v').ppn).user := by
  rw [he]
  by_cases hq : d' = d ∧ v' = v
  · obtain ⟨rfl, rfl⟩ := hq
    rw [upd_same]
    exact hnew
  · rw [upd_ne hq]
    exact (hI.named d' v' hv').imp_right (hcls _)

theorem Inv.user_of_lost_lose (hI : Inv L s g) (hv : v < NUPG) (hf : (g.lose (s.entry d v).ppn).lost f ≠ 0) :
    (g.cls f).user := by
  by_cases h0 : g.lost f = 0
  · by_cases hp : (s.entry d v).ppn = 0
    · simp [Ghost.lose, hp, h0] at hf
    · by_cases he : (s.entry d v).ppn = f
      · exact he ▸ (hI.named d v hv).resolve_left hp
      · simp [Ghost.lose, hp, update_of_ne (Ne.symm he), h0] at hf
  · exact hI.lost f h0

theorem Inv.map (hI : Inv L s g) (hv : v < NUPG) (htab : s.ptab d (v / NPTENTRIES) ≠ 0)
    (hheld : g.cls e.ppn = .held) (hc : c = .priv ∨ c = .shm)
    (h : Becomes s s' (upd s.entry d v e) s.refCount) :
    Inv L s' ((g.lose (s.entry d v).ppn).set e.ppn c) := by
  have hd : d < MAXPAGES := hI.tab_lt htab
  have hr0 := hI.held_ne_zero hheld
  obtain ⟨hc1, hu0, hl0⟩ := hI.held_count hheld
  have hnu : ¬ (g.cls e.ppn).user := by rw [hheld]; exact Cls.held_not_user
  have hold : (s.entry d v).ppn ≠ e.ppn := hI.ppn_ne hv hnu hr0
  have hcu : c.user := hc.imp_right .inl
  have hset : ∀ f, (g.cls f).user → (((g.lose (s.entry d v).ppn).set e.ppn c).cls f).user := by
    intro f hf
    rcases eq_or_ne f e.ppn with rfl | hne
    · rw [Ghost.set_self]; exact hcu
    · rw [Ghost.set_ne _ _ hne, Ghost.lose_cls]; exact hf
  have hw : c.weight = 0 := by rcases hc with rfl | rfl <;> rfl
  -- the new sum of entries and lost references, frame by frame
  have hsum : ∀ f, f ≠ 0 → s'.uref f + (g.lose (s.entry d v).ppn).lost f =
      s.uref f + g.lost f + if e.ppn = f then 1 else 0 := by
    intro f hf
    have h1 := uref_upd (f := f) hd hv h.entry
    rw [Ghost.lose_lost g hf]
    omega
  refine hI.becomes h ?_ ?_ (hI.named_upd h.entry hset (.inr (by rw [Ghost.set_self]; exact hcu))) ?_ ?_ ?_
  · intro f o
    rcases eq_or_ne f e.ppn with rfl | hne
    · rw [Ghost.set_self, hheld]
      rcases hc with rfl | rfl <;> simp
    · rw [Ghost.set_ne _ _ hne, Ghost.lose_cls]
  · intro f hf
    rcases eq_or_ne f e.ppn with rfl | hne
    · exact absurd (hI.held_ok hheld) hf
    · rw [Ghost.set_ne _ _ hne, Ghost.lose_cls]
      exact hI.raw f hf
  · intro f hf
    exact hset f (hI.user_of_lost_lose hv hf)
  · intro f hf
    have h1 := hsum f (L.ok_ne_zero hf)
    rw [h.refCount, Ghost.set_lost]
    rcases eq_or_ne f e.ppn with rfl | hne
    · rw [Ghost.set_self, hw, hc1]
      simp only [if_true] at h1
      omega
    · rw [Ghost.set_ne _ _ hne, Ghost.lose_cls, hI.count f hf]
      rw [if_neg (Ne.symm hne)] at h1
      omega
  · intro f hf
    rw [Ghost.set_lost]
    rcases eq_or_ne f e.ppn with rfl | hne
    · have h1 := hsum e.ppn hr0
      simp only [if_true] at h1
      omega
    · rw [Ghost.set_ne _ _ hne, Ghost.lose_cls] at hf
      have hf0 : f ≠ 0 := by rintro rfl; rw [hI.zero_raw] at hf; simp at hf
      have h1 := hsum f hf0
      have h2 := hI.pos f hf
      omega

/-- One more entry for a frame that user entries may name, and one more in its count. -/
theorem Inv.add_ref (hI : Inv L s g) (hv : v < NUPG) (htab : s.ptab d (v / NPTENTRIES) ≠ 0)
    (hu : e.ppn = 0 ∨ (g.cls e.ppn).user)
    (h : Becomes s s' (upd s.entry d v e) (update s.refCount e.ppn (s.refCount e.ppn + 1))) :
    Inv L s' (g.lose (s.entry d v).ppn) := by
  have hsum : ∀ f, f ≠ 0 → s'.uref f + (g.lose (s.entry d v).ppn).lost f =
      s.uref f + g.lost f + if e.ppn = f then 1 else 0 := by
    intro f hf
    have h1 := uref_upd (f := f) (hI.tab_lt htab) hv h.entry
    rw [Ghost.lose_lost g hf]
    omega
  refine hI.becomes h ?_ ?_ (hI.named_upd h.entry ?_ ?_) ?_ ?_ ?_
  · intro f o; rw [Ghost.lose_cls]
  · intro f hf; rw [Ghost.lose_cls]; exact hI.raw f hf
  · intro f hf; rw [Ghost.lose_cls]; exact hf
  · rw [Ghost.lose_cls]; exact hu
  · intro f hf; rw [Ghost.lose_cls]; exact hI.user_of_lost_lose hv hf
  · intro f hf
    have h1 := hsum f (L.ok_ne_zero hf)
    have h2 := hI.count f hf
    rw [h.refCount, Ghost.lose_cls]
    rcases eq_or_ne f e.ppn with rfl | hne
    · rw [update_self]
      simp only [if_true] at h1
      omega
    · rw [update_of_ne hne]
      rw [if_neg (Ne.symm hne)] at h1
      omega
  · intro f hf
    rw [Ghost.lose_cls] at hf
    have hf0 : f ≠ 0 := by rintro rfl; rw [hI.zero_raw] at hf; simp at hf
    have h1 := hsum f hf0
    have h2 := hI.pos f hf
    omega

/-- One entry and one in the count less, with one left. -/
theorem Inv.sub_ref (hI : Inv L s g) (hv : v < NUPG) (hf0 : (s.entry d v).ppn ≠ 0)
    (h1 : s.refCount (s.entry d v).ppn ≠ 1)
    (h : Becomes s s' (upd s.entry d v {})
      (update s.refCount (s.entry d v).ppn (s.refCount (s.entry d v).ppn - 1))) :
    Inv L s' g := by
  have hd : d < MAXPAGES := (mem_slots.1 (hI.mem_slots_of_ppn hv hf0)).1
  have hpos := hI.refCount_pos hv hf0
  have hsum : ∀ f, f ≠ 0 → s'.uref f + (if (s.entry d v).ppn = f then 1 else 0) = s.uref f :=
    fun f hf => uref_upd_empty hd hv h.entry hf
  have hcount : ∀ f, L.ok f → s'.refCount f = s'.uref f + g.lost f + (g.cls f).weight := by
    intro f hf
    have h2 := hsum f (L.ok_ne_zero hf)
    have h3 := hI.count f hf
    rw [h.refCount]
    rcases eq_or_ne f (s.entry d v).ppn with rfl | hne
    · rw [update_self]
      simp only [if_true] at h2
      omega
    · rw [update_of_ne hne]
      rw [if_neg (Ne.symm hne)] at h2
      omega
  refine hI.becomes h (fun _ _ => Iff.rfl) hI.raw (hI.named_upd h.entry (fun _ h => h) (.inl rfl)) hI.lost
    hcount ?_
  intro f hf
  have hok : L.ok f := hI.ok_of_user (hf.imp_right .inl)
  have hw : (g.cls f).weight = 0 := by rcases hf with hf | hf <;> rw [hf] <;> rfl
  rcases eq_or_ne f (s.entry d v).ppn with rfl | hne
  · have h2 := hcount _ hok
    rw [h.refCount, update_self] at h2
    omega
  · have h2 := hsum f (L.ok_ne_zero hok)
    rw [if_neg (Ne.symm hne)] at h2
    have h3 := hI.pos f hf
    omega

theorem Inv.ne_zero_of_cls (hI : Inv L s g) (hf : g.cls f = .priv ∨ g.cls f = .shm) : f ≠ 0 := by
  rintro rfl
  rw [hI.zero_raw] at hf
  simp at hf

/-- A frame with one reference, from this entry, is a user page. -/
theorem Inv.cls_of_last (hI : Inv L s g) (hv : v < NUPG) (hf0 : (s.entry d v).ppn ≠ 0)
    (h1 : s.refCount (s.entry d v).ppn = 1) :
    (g.cls (s.entry d v).ppn = .priv ∨ g.cls (s.entry d v).ppn = .shm) ∧
      s.uref (s.entry d v).ppn = 1 ∧ g.lost (s.entry d v).ppn = 0 := by
  have h2 := hI.count _ (hI.ok_ppn hv hf0)
  have h3 := hI.uref_pos hv hf0
  rcases (hI.named d v hv).resolve_left hf0 with hc | hc | hc
  · exact ⟨.inl hc, by omega, by omega⟩
  · exact ⟨.inr hc, by omega, by omega⟩
  · rw [hc] at h2
    have : (Cls.own .vdso).weight = 1 := rfl
    omega

theorem Inv.last (hI : Inv L s g) (hv : v < NUPG) (hf0 : (s.entry d v).ppn ≠ 0)
    (h1 : s.refCount (s.entry d v).ppn = 1) (hk : Kept s s')
    (hf : s'.freelist = (s.entry d v).ppn :: s.freelist) (he : s'.entry = upd s.entry d v {})
    (hr : s'.refCount = update s.refCount (s.entry d v).ppn 0) :
    Inv L s' (g.set (s.entry d v).ppn (.own .free)) := by
  set f₀ := (s.entry d v).ppn with hf₀
  obtain ⟨hcls, hu1, hl0⟩ := hI.cls_of_last hv hf0 h1
  have hd : d < MAXPAGES := (mem_slots.1 (hI.mem_slots_of_ppn hv hf0)).1
  have hown : ∀ o, g.cls f₀ ≠ .own o := by
    intro o ho
    rw [← hf₀] at hcls
    rcases hcls with h | h <;> rw [h] at ho <;> simp at ho
  have hsum : ∀ f, f ≠ 0 → s'.uref f + (if f₀ = f then 1 else 0) = s.uref f :=
    fun f hf => uref_upd_empty hd hv he hf
  have hgone : ∀ d' v', v' < NUPG → (s'.entry d' v').ppn ≠ f₀ := by
    intro d' v' hv' hp
    rw [he] at hp
    by_cases hq : d' = d ∧ v' = v
    · obtain ⟨rfl, rfl⟩ := hq
      rw [upd_same] at hp
      exact hf0 hp.symm
    · rw [upd_ne hq] at hp
      exact hq (hI.unique hv hv' hf0 h1 hp)
  constructor
  · intro o f
    rcases eq_or_ne f f₀ with rfl | hne
    · rw [Ghost.set_self]
      rcases eq_or_ne o .free with rfl | ho
      · simp [Kern.holds, hf]
      · rw [hk.holds ho, hI.holds]
        exact ⟨fun h => absurd h (hown o), fun h => absurd (Cls.own.inj h).symm ho⟩
    · rw [Ghost.set_ne _ _ hne]
      rcases eq_or_ne o .free with rfl | ho
      · rw [← hI.holds]
        simp [Kern.holds, hf, hne]
      · rw [hk.holds ho, hI.holds]
  · intro f hok
    rcases eq_or_ne f f₀ with rfl | hne
    · exact absurd (hI.ok_ppn hv hf0) hok
    · rw [Ghost.set_ne _ _ hne]; exact hI.raw f hok
  · rw [hf, hk.pipes]
    refine ⟨List.nodup_cons.2 ⟨fun hm => ?_, hI.nodup.1⟩, hI.nodup.2⟩
    exact hown .free ((hI.holds .free _).1 hm)
  · intro d k
    rw [hk.ptab, hk.dir]
    exact hI.tab d k
  · intro d' v' hv'
    have hne := hgone d' v' hv'
    rw [Ghost.set_ne _ _ hne]
    rw [he] at hne ⊢
    by_cases hq : d' = d ∧ v' = v
    · obtain ⟨rfl, rfl⟩ := hq
      rw [upd_same]
      exact .inl rfl
    · rw [upd_ne hq]
      exact hI.named d' v' hv'
  · intro f hlost
    rcases eq_or_ne f f₀ with rfl | hne
    · exact absurd hl0 hlost
    · rw [Ghost.set_ne _ _ hne]; exact hI.lost f hlost
  · intro f hok
    have h2 := hsum f (L.ok_ne_zero hok)
    have h3 := hI.count f hok
    rw [hr, Ghost.set_lost]
    rcases eq_or_ne f f₀ with rfl | hne
    · rw [update_self, Ghost.set_self]
      simp only [if_true] at h2
      change 0 = s'.uref f₀ + g.lost f₀ + 0
      omega
    · rw [update_of_ne hne, Ghost.set_ne _ _ hne]
      rw [if_neg (Ne.symm hne)] at h2
      omega
  · intro f hc
    rcases eq_or_ne f f₀ with rfl | hne
    · rw [Ghost.set_self] at hc
      simp at hc
    · rw [Ghost.set_ne _ _ hne] at hc
      have h2 := hsum f (hI.ne_zero_of_cls hc)
      rw [if_neg (Ne.symm hne)] at h2
      rw [Ghost.set_lost]
      have := hI.pos f hc
      omega

theorem tabSlots_subset : tabSlots d k ⊆ slots := Finset.filter_subset _ _

theorem mem_tabSlots {q : ℕ × ℕ} : q ∈ tabSlots d k ↔ q ∈ slots ∧ q.1 = d ∧ q.2 / NPTENTRIES = k :=
  Finset.mem_filter

/-- What a page table takes with it moves from the entries to the lost references. -/
theorem uref_dropTab (he : s'.entry = (s.dropTab d k).entry) (hf : f ≠ 0) :
    s'.uref f + (g.loseTab s d k).lost f = s.uref f + g.lost f := by
  have h := refs_clear (E := fun q : ℕ × ℕ => (s.entry q.1 q.2).ppn)
    (D := fun q : ℕ × ℕ => (s'.entry q.1 q.2).ppn) (x := f) (tabSlots_subset (d := d) (k := k)) ?_ ?_
  · have hl : (g.loseTab s d k).lost f =
        g.lost f + refs (tabSlots d k) (fun q => (s.entry q.1 q.2).ppn) f := by
      simp [Ghost.loseTab, hf]
    rw [hl]
    have hs : s.uref f = refs slots (fun q => (s.entry q.1 q.2).ppn) f := rfl
    have hs' : s'.uref f = refs slots (fun q => (s'.entry q.1 q.2).ppn) f := rfl
    rw [hs, hs', ← h]
    omega
  · rintro ⟨d', v'⟩ hq hp
    rw [he, entry_dropTab, if_pos (mem_tabSlots.1 hq).2] at hp
    exact hf hp.symm
  · rintro ⟨d', v'⟩ hS hq
    rw [he, entry_dropTab, if_neg]
    exact fun h => hq (mem_tabSlots.2 ⟨hS, h⟩)

theorem Inv.user_of_lost_tab (hI : Inv L s g) (hf : (g.loseTab s d k).lost f ≠ 0) : (g.cls f).user := by
  by_cases h0 : g.lost f = 0
  · by_cases hz : f = 0
    · simp [Ghost.loseTab, hz] at hf
      exact absurd (hI.lost 0 hf) hI.not_user_zero
    · simp only [Ghost.loseTab, hz, if_false, h0, Nat.zero_add] at hf
      obtain ⟨⟨d', v'⟩, hq, hp⟩ := exists_of_refs_pos (Nat.pos_of_ne_zero hf)
      have hv' := (mem_slots.1 (mem_tabSlots.1 hq).1).2
      rcases hI.named d' v' hv' with h | h
      · exact absurd (hp.symm.trans h) hz
      · exact hp ▸ h
  · exact hI.lost f h0

theorem Inv.tab_cls (hI : Inv L s g) (hr : s.ptab d k = r) (h0 : r ≠ 0) : g.cls r = .own (.tab d k) :=
  (hI.holds (.tab d k) r).1 ⟨hr, h0⟩

theorem Inv.tab_not_user (hI : Inv L s g) (hr : s.ptab d k = r) (h0 : r ≠ 0) : ¬ (g.cls r).user := by
  rw [hI.tab_cls hr h0]
  simp [Cls.user]

theorem Inv.untab (hI : Inv L s g) (hr0 : s.ptab d k ≠ 0) (hk : Kept (s.dropTab d k) s')
    (hf : s'.freelist = s.ptab d k :: s.freelist) (he : s'.entry = (s.dropTab d k).entry)
    (hr : s'.refCount = update s.refCount (s.ptab d k) 0) :
    Inv L s' ((g.loseTab s d k).set (s.ptab d k) (.own .free)) := by
  set r := s.ptab d k with hrdef
  have hcls := hI.tab_cls hrdef.symm hr0
  have hnu := hI.tab_not_user hrdef.symm hr0
  have hok : L.ok r := hI.ok_of_ne_raw (by rw [hcls]; simp)
  have hcs : (g.loseTab s d k).cls = g.cls := rfl
  have hptab : ∀ d' k', s'.ptab d' k' = if d' = d ∧ k' = k then 0 else s.ptab d' k' := by
    intro d' k'
    rw [hk.ptab]
    unfold Kern.dropTab
    rcases eq_or_ne d' d with rfl | hd
    · rcases eq_or_ne k' k with rfl | hk'
      · simp
      · simp [hk']
    · simp [hd]
  -- the other owners, and other page tables, keep what they hold
  have hholds : ∀ o f, o ≠ .free → o ≠ .tab d k → (s'.holds o f ↔ s.holds o f) := by
    intro o f h1 h2
    rw [hk.holds h1]
    cases o with
    | tab d' k' =>
      have hne : ¬ (d' = d ∧ k' = k) := fun h => h2 (by rw [h.1, h.2])
      have := hptab d' k'
      rw [if_neg hne, hk.ptab] at this
      simp [Kern.holds, this]
    | free => exact absurd rfl h1
    | dir => rfl
    | kstack i => rfl
    | pipe => rfl
    | cpu => rfl
    | vdso => rfl
  have htab0 : ∀ f, ¬ s'.holds (.tab d k) f := by
    rintro f ⟨h1, h2⟩
    rw [hptab, if_pos ⟨rfl, rfl⟩] at h1
    exact h2 h1.symm
  constructor
  · intro o f
    rcases eq_or_ne f r with rfl | hne
    · rw [Ghost.set_self]
      rcases eq_or_ne o .free with rfl | ho
      · simp [Kern.holds, hf]
      · rcases eq_or_ne o (.tab d k) with rfl | ho'
        · simp [htab0]
        · rw [hholds o _ ho ho', hI.holds, hcls]
          exact ⟨fun h => absurd (Cls.own.inj h).symm ho', fun h => absurd (Cls.own.inj h).symm ho⟩
    · rw [Ghost.set_ne _ _ hne, hcs]
      rcases eq_or_ne o .free with rfl | ho
      · rw [← hI.holds]
        simp [Kern.holds, hf, hne]
      · rcases eq_or_ne o (.tab d k) with rfl | ho'
        · rw [← hI.holds]
          exact ⟨fun h => absurd h (htab0 f), fun h => absurd h.1.symm hne⟩
        · rw [hholds o _ ho ho', hI.holds]
  · intro f hf'
    rcases eq_or_ne f r with rfl | hne
    · exact absurd hok hf'
    · rw [Ghost.set_ne _ _ hne]; exact hI.raw f hf'
  · rw [hf, hk.pipes]
    refine ⟨List.nodup_cons.2 ⟨fun hm => ?_, hI.nodup.1⟩, hI.nodup.2⟩
    have := (hI.holds .free _).1 hm
    rw [hcls] at this
    simp at this
  · intro d' k' h'
    rw [hptab] at h'
    split_ifs at h' with hq
    · exact absurd rfl h'
    · rw [hk.dir]
      exact hI.tab d' k' h'
  · intro d' v' hv'
    rw [he, entry_dropTab]
    split_ifs with hq
    · exact .inl rfl
    · have hne := hI.ppn_ne (d := d') hv' hnu hr0
      rw [Ghost.set_ne _ _ hne]
      exact hI.named d' v' hv'
  · intro f hl
    have hu := hI.user_of_lost_tab hl
    rcases eq_or_ne f r with rfl | hne
    · exact absurd hu hnu
    · rw [Ghost.set_ne _ _ hne]; exact hu
  · intro f hf'
    have h2 := uref_dropTab (g := g) he (L.ok_ne_zero hf')
    rw [hr, Ghost.set_lost]
    rcases eq_or_ne f r with rfl | hne
    · have h3 := hI.uref_eq_zero hnu hr0
      have h4 := hI.lost_eq_zero hnu
      rw [update_self, Ghost.set_self]
      change 0 = s'.uref r + (g.loseTab s d k).lost r + 0
      omega
    · have h3 := hI.count f hf'
      rw [update_of_ne hne, Ghost.set_ne _ _ hne, hcs]
      omega
  · intro f hc
    rcases eq_or_ne f r with rfl | hne
    · rw [Ghost.set_self] at hc
      simp at hc
    · rw [Ghost.set_ne _ _ hne] at hc
      have h2 := uref_dropTab (g := g) he (hI.ne_zero_of_cls hc)
      have h3 := hI.pos f hc
      rw [Ghost.set_lost]
      omega

theorem Inv.procs {p : ℕ → Proc} (hI : Inv L s g) (hk : ∀ i, (p i).kstack = (s.proc i).kstack) :
    Inv L { s with proc := p } g := by
  refine { hI with holds := fun o f => ?_ }
  rw [← hI.holds]
  cases o with
  | kstack i => simp [Kern.holds, hk]
  | _ => rfl

theorem Inv.pass (hI : Inv L s g) (hok : L.ok r) (hr : ¬ (g.cls r).user)
    (hc : c ≠ .priv ∧ c ≠ .shm) (he : s'.entry = s.entry)
    (href : s'.refCount = update s.refCount r c.weight)
    (hh : ∀ o f, f ≠ r → (s'.holds o f ↔ s.holds o f)) (ho : ∀ o, s'.holds o r ↔ c = .own o)
    (ht : ∀ d k, s'.ptab d k ≠ 0 → s'.dir d = true ∧ k < NPDENTRIES)
    (hn : s'.freelist.Nodup ∧ s'.pipes.Nodup) : Inv L s' (g.set r c) := by
  have hu : ∀ f, s'.uref f = s.uref f := fun f => uref_congr fun d v _ => by rw [he]
  have hset : ∀ f, (g.cls f).user → ((g.set r c).cls f).user := by
    intro f hf
    have hne : f ≠ r := fun h => hr (h ▸ hf)
    rw [Ghost.set_ne _ _ hne]
    exact hf
  refine ⟨?_, ?_, hn, ht, ?_, fun f hf => hset f (hI.lost f hf), ?_, ?_⟩
  · intro o f
    rcases eq_or_ne f r with rfl | hne
    · rw [Ghost.set_self]; exact ho o
    · rw [Ghost.set_ne _ _ hne, hh o f hne, hI.holds]
  · intro f hf
    rcases eq_or_ne f r with rfl | hne
    · exact absurd hok hf
    · rw [Ghost.set_ne _ _ hne]; exact hI.raw f hf
  · intro d v hv
    rw [he]
    exact (hI.named d v hv).imp_right (hset _)
  · intro f hf
    rw [href, hu, Ghost.set_lost]
    rcases eq_or_ne f r with rfl | hne
    · rw [update_self, Ghost.set_self, hI.uref_eq_zero hr (L.ok_ne_zero hok), hI.lost_eq_zero hr]
      omega
    · rw [update_of_ne hne, Ghost.set_ne _ _ hne]
      exact hI.count f hf
  · intro f hf
    rcases eq_or_ne f r with rfl | hne
    · rw [Ghost.set_self] at hf
      exact absurd hf (not_or.2 hc)
    · rw [Ghost.set_ne _ _ hne] at hf
      rw [hu, Ghost.set_lost]
      exact hI.pos f hf

/-- Frame `r` passes to class `c`; of the kernel's lists and pointers only the one that held it and
the one that holds it then can change, and only at `r`. -/
theorem Ev.pass_of (hI : Inv L s g) (hok : L.ok r) (hr : P.passes g r)
    (hc : c ≠ .priv ∧ c ≠ .shm) (he : s'.entry = s.entry)
    (href : s'.refCount = update s.refCount r c.weight)
    (hother : ∀ o f, g.cls r ≠ .own o → c ≠ .own o → (s'.holds o f ↔ s.holds o f))
    (hthis : ∀ o f, g.cls r = .own o ∨ c = .own o → (s'.holds o f ↔ (f ≠ r ∧ s.holds o f) ∨ (f = r ∧ c = .own o)))
    (ht : ∀ d k, s'.ptab d k ≠ 0 → s'.dir d = true ∧ k < NPDENTRIES)
    (hn : s'.freelist.Nodup ∧ s'.pipes.Nodup) (hm : ∀ f, f ≠ r → s'.mem f = s.mem f)
    (hd : ∀ d, s.dir d = true → s'.dir d = true ∨ ∀ v, P.touch d v) :
    Ev L P (s, g) (s', g.set r c) := by
  refine .pass r c hok hr hc he href (fun o f hf => ?_) (fun o => ?_) ht hn hm hd
  · by_cases h : g.cls r = .own o ∨ c = .own o
    · rw [hthis o f h]
      simp [hf]
    · exact hother o f (not_or.1 h).1 (not_or.1 h).2
  · by_cases h : g.cls r = .own o ∨ c = .own o
    · rw [hthis o r h]
      simp
    · rw [hother o r (not_or.1 h).1 (not_or.1 h).2, hI.holds]
      exact iff_of_false (not_or.1 h).1 (not_or.1 h).2

/-- Every step keeps the account. -/
theorem Ev.inv (h : Ev L P a b) (hI : Inv L a.1 a.2) : Inv L b.1 b.2 := by
  cases h with
  | quiet h _ => exact hI.same_ppn h fun d v _ => by rw [h.entry]
  | procs hk => exact hI.procs hk
  | pass r c hok hr hc he href hh ho ht hn => exact hI.pass hok hr.not_user hc he href hh ho ht hn
  | change hc h _ => exact hI.change hc h
  | map ht hv htab hp hheld hcow h _ =>
    refine hI.map hv htab hheld ?_ h
    cases P.area _ _
    · exact .inl rfl
    · exact .inr rfl
  | vshare ht hv h0 htab hp hf h _ =>
    refine hI.add_ref hv htab (.inr ?_) h
    rw [hf]
    exact .inr (.inr rfl)
  | drop ht hv hsrc hp hf0 h1 h _ =>
    subst hsrc
    exact hI.sub_ref hv hf0 h1 h
  | last ht hv hsrc hp hf0 h1 hk hf he hr _ =>
    subst hsrc
    exact hI.last hv hf0 h1 hk hf he hr
  | untab ht hsrc hr0 hk hf he hr _ =>
    subst hsrc
    exact hI.untab hr0 hk hf he hr
  | write ht hv hw h _ => exact hI.same_ppn h fun d v _ => by rw [h.entry]

theorem Evs.inv (h : Evs L P a b) (hI : Inv L a.1 a.2) : Inv L b.1 b.2 := by
  induction h with
  | refl => exact hI
  | tail _ hstep ih => exact hstep.inv ih

end Account

end Xv6

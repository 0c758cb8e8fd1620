import Xv6.Lib.Slots
import Xv6.Proofs.FsRuns

/-! Directories are finite maps from names of at most `DIRSIZ` bytes to inode numbers. -/

namespace Xv6.Sys

open Prog Count Function Finset

/-! ### Names -/

section Names

variable {s t name : List UInt8} {n : ℕ}

/-- The first `n` bytes, up to a NUL. -/
def cut (n : ℕ) (s : List UInt8) : List UInt8 := (s.take n).takeWhile (· ≠ 0)

/-- What names are compared by. -/
def key (name : List UInt8) : List UInt8 := cut DIRSIZ name

theorem cut_succ : cut (n + 1) s = if s.headD 0 ≠ 0 then s.headD 0 :: cut n s.tail else [] := by
  cases s with
  | nil => simp [cut]
  | cons c s => by_cases hc : c = 0 <;> simp [cut, hc]

theorem strncmp_eq_zero : strncmp n s t = 0 ↔ cut n s = cut n t := by
  induction n generalizing s t with
  | zero => simp [strncmp, cut]
  | succ n ih =>
    rw [strncmp, cut_succ, cut_succ]
    have ih := @ih s.tail t.tail
    generalize s.headD 0 = a at ih ⊢
    generalize t.headD 0 = b at ih ⊢
    by_cases hab : a = b
    · rw [hab]
      by_cases hb : b = 0
      · simp [hb]
      · simp [hb, ih]
    · have hne : a.toNat ≠ b.toNat := fun h => hab (UInt8.toNat_inj.1 h)
      rw [if_neg (fun h => hab h.2)]
      constructor
      · intro h
        omega
      · intro h
        split_ifs at h with ha hb hb
        · exact absurd (List.cons.inj h).1 hab
        · exact absurd (not_not.1 ha) (fun ha => hab (ha.trans (not_not.1 hb).symm))

theorem namecmp_eq_zero : namecmp s t = 0 ↔ key s = key t := strncmp_eq_zero

/-- A name in an entry, padded with zeros or cut, is compared as the name itself. -/
theorem key_strncpy : key (strncpy name DIRSIZ) = key name := by
  have hlen : (strncpy name DIRSIZ).take DIRSIZ = strncpy name DIRSIZ :=
    List.take_of_length_le (le_of_eq length_strncpy)
  have hzero : ∀ (l : List UInt8) (m : ℕ), (l ++ List.replicate m 0).takeWhile (· ≠ 0) = l.takeWhile (· ≠ 0) := by
    intro l m
    induction l with
    | nil => cases m <;> simp [List.replicate_succ]
    | cons c l ih =>
      by_cases hc : c = 0
      · simp [hc]
      · rw [List.cons_append, List.takeWhile_cons_of_pos (by simpa using hc), ih,
          List.takeWhile_cons_of_pos (by simpa using hc)]
  unfold key cut
  rw [hlen, strncpy, hzero]

end Names

/-! ### One directory -/

section Directory

variable {x y : Node} {de : Dirent} {name : List UInt8} {i j m n : ℕ} {s : List UInt8} {sb : Superblock}

/-- The name and the number in an entry that is in use. -/
def Dirent.slot (de : Dirent) : Option (List UInt8 × ℕ) := if de.inum = 0 then none else some (key de.name, de.inum)

def Node.slots (x : Node) (j : ℕ) : Option (List UInt8 × ℕ) := (x.ent j).slot

def Node.entries (x : Node) : ℕ := x.size / sizeofDirent

/-- The directory names inode `n` by `s`. -/
def Node.Binds (x : Node) (s : List UInt8) (n : ℕ) : Prop := Slots.Binds x.slots x.entries s n

/-- No two entries in use have the same name. -/
def Node.Distinct (x : Node) : Prop := Slots.Distinct x.slots x.entries

theorem slot_eq_some : de.slot = some (s, n) ↔ de.inum = n ∧ n ≠ 0 ∧ key de.name = s := by
  unfold Dirent.slot
  split_ifs with h0
  · simp only [false_iff]
    rintro ⟨rfl, hn, -⟩
    exact hn h0
  · simp only [Option.some.injEq, Prod.mk.injEq]
    constructor
    · rintro ⟨rfl, rfl⟩
      exact ⟨rfl, h0, rfl⟩
    · rintro ⟨rfl, -, rfl⟩
      exact ⟨rfl, rfl⟩

theorem slot_eq_none : de.slot = none ↔ de.inum = 0 := by
  unfold Dirent.slot
  split_ifs with h0 <;> simp [h0]

theorem lt_entries (hs : x.size % sizeofDirent = 0) : sizeofDirent * j < x.size ↔ j < x.entries := by
  unfold Node.entries
  simp only [show sizeofDirent = 16 from rfl] at *
  omega

theorem slots_setEnt (hn : de.inum < 65536) (hl : de.name.length = DIRSIZ) :
    (x.setEnt j de).slots = update x.slots j de.slot := by
  funext i
  unfold Node.slots
  by_cases hij : i = j
  · rw [hij, update_self, ent_setEnt_self hn hl]
  · rw [update_of_ne hij, ent_setEnt_ne hij]

theorem entries_setEnt (hs : x.size % sizeofDirent = 0) : (x.setEnt j de).entries = max x.entries (j + 1) := by
  unfold Node.entries
  rw [setEnt_size]
  simp only [show sizeofDirent = 16 from rfl] at *
  omega

/-- A lookup finds the entry that has the name. -/
theorem find_binds (hs : x.size % sizeofDirent = 0) (h : x.find name = some j) :
    j < x.entries ∧ x.slots j = some (key name, (x.ent j).inum) := by
  obtain ⟨h1, h2, h3⟩ := find_some h
  exact ⟨(lt_entries hs).1 h1, slot_eq_some.2 ⟨rfl, h2, (namecmp_eq_zero.1 h3).symm⟩⟩

theorem find_unbound (hs : x.size % sizeofDirent = 0) (h : x.find name = none) (n : ℕ) : ¬ x.Binds (key name) n := by
  rintro ⟨j, hj, he⟩
  obtain ⟨rfl, h0, hk⟩ := slot_eq_some.1 he
  exact find_none h ((lt_entries hs).2 hj) h0 (namecmp_eq_zero.2 hk.symm)

theorem gap_slot (hs : x.size % sizeofDirent = 0) (hm : m = max x.entries (x.gap + 1)) :
    Slots.Free x.slots x.entries x.gap m where
  free hj := slot_eq_none.2 (gap_free ((lt_entries hs).2 hj) hs)
  le := by
    have h := gap_le hs
    unfold Node.entries
    simp only [show sizeofDirent = 16 from rfl] at *
    omega
  size := hm

theorem slots_enter (hn : n < 65536) (h0 : n ≠ 0) :
    (x.enter n name).slots = update x.slots x.gap (some (key name, n)) := by
  unfold Node.enter
  rw [slots_setEnt hn length_strncpy, slot_eq_some.2 ⟨rfl, h0, key_strncpy⟩]

section Enter

variable (hs : x.size % sizeofDirent = 0) (hn : n < 65536) (h0 : n ≠ 0) (hf : x.find name = none)

include hs hn h0 hf

theorem binds_enter : (x.enter n name).Binds s m ↔ s = key name ∧ m = n ∨ s ≠ key name ∧ x.Binds s m := by
  unfold Node.Binds
  rw [slots_enter hn h0, Node.enter, entries_setEnt hs]
  exact Slots.binds_put (gap_slot hs rfl) (find_unbound hs hf)

theorem Node.Distinct.enter (h : x.Distinct) : (x.enter n name).Distinct := by
  unfold Node.Distinct
  rw [slots_enter hn h0, Node.enter, entries_setEnt hs]
  exact Slots.Distinct.put h (gap_slot hs rfl) (find_unbound hs hf)

end Enter

/-- The entry that `unlink` writes. -/
abbrev noEntry : Dirent := ⟨0, List.replicate DIRSIZ 0⟩

theorem slots_clear : (x.setEnt j noEntry).slots = update x.slots j none :=
  slots_setEnt (by decide) (List.length_replicate ..)

theorem entries_clear (hs : x.size % sizeofDirent = 0) (hj : j < x.entries) :
    (x.setEnt j noEntry).entries = x.entries := by
  rw [entries_setEnt hs]
  omega

theorem binds_clear (h : x.Distinct) (hs : x.size % sizeofDirent = 0) (hf : x.find name = some j) :
    (x.setEnt j noEntry).Binds s m ↔ s ≠ key name ∧ x.Binds s m := by
  obtain ⟨hj, hslot⟩ := find_binds hs hf
  unfold Node.Binds
  rw [slots_clear, entries_clear hs hj]
  exact Slots.binds_clear h hj hslot

theorem Node.Distinct.clear (h : x.Distinct) (hs : x.size % sizeofDirent = 0) (hj : j < x.entries) :
    (x.setEnt j noEntry).Distinct := by
  unfold Node.Distinct
  rw [slots_clear, entries_clear hs hj]
  exact Slots.Distinct.clear h

theorem Alike.slots (h : Alike x y) : x.slots = y.slots := by
  funext j
  unfold Node.slots
  rw [h.ent]

theorem Alike.entries (h : Alike x y) : x.entries = y.entries := by rw [Node.entries, Node.entries, h.size]

theorem Alike.binds (h : Alike x y) : x.Binds s n ↔ y.Binds s n := by
  unfold Node.Binds
  rw [h.slots, h.entries]

theorem Alike.distinct (h : Alike x y) : x.Distinct ↔ y.Distinct := by
  unfold Node.Distinct
  rw [h.slots, h.entries]

theorem decLink_alike : Alike x.decLink x := by constructor <;> simp only [Node.decLink]

theorem Alike.setEnt (h : Alike x y) : Alike (x.setEnt j de) (y.setEnt j de) := by
  refine ⟨h.type, ?_, ?_⟩
  · rw [setEnt_size, setEnt_size, h.size]
  · unfold Node.setEnt Node.write
    dsimp only
    rw [h.data]

theorem Alike.enter (h : Alike x y) : Alike (x.enter n name) (y.enter n name) := by
  unfold Node.enter
  rw [h.gap]
  exact h.setEnt

theorem distinct_of_empty (h : x.size = 0) : x.Distinct := by
  intro i hi
  unfold Node.entries at hi
  rw [h] at hi
  exact absurd hi (Nat.not_lt_zero i)

theorem newDir_distinct {d major minor : ℕ} (hn : n < 65536) (h0 : n ≠ 0) (hd : d < 65536) (hd0 : d ≠ 0) :
    (newDir n d major minor).Distinct := by
  have hempty : (newNode T_DIR major minor).size = 0 := rfl
  have hone : ((newNode T_DIR major minor).enter n dot).size % sizeofDirent = 0 := by
    rw [enter_size hempty]
    decide
  have h1 : ((newNode T_DIR major minor).enter n dot).Distinct :=
    (distinct_of_empty hempty).enter (by rw [hempty]; decide) hn h0 (find_of_size_zero hempty)
  exact h1.enter hone hd hd0 (find_dotdot hempty hn)

end Directory

/-! ### What the calls do to directories -/

section Effects

variable {s : Space} {nd : ℕ → Node} {path old new name : List UInt8} {d j m n type major minor : ℕ}

theorem Frees.node {a b : ℕ → Node} (h : Frees a b) (n : ℕ) : b n = a n ∨ (b n).type = 0 := by
  induction h with
  | refl => exact .inl rfl
  | tail _ hs ih =>
    obtain ⟨m, -, -, rfl⟩ := hs
    by_cases hn : n = m
    · rw [hn, update_self]
      exact .inr rfl
    · rw [update_of_ne hn]
      exact ih

theorem release_dir {node : ℕ → Node} {held : Finset ℕ} (h : (release node held n m).type = T_DIR) :
    release node held n m = node m := by
  rcases release_frees.node m with h1 | h1
  · exact h1
  · rw [h1] at h
    cases h

/-- A directory after `link`. -/
theorem linked_dir (hm : (s.linked n d name m).type = T_DIR) :
    Alike (s.linked n d name m) (if m = d then (s.node d).enter n name else s.node m) := by
  unfold Space.linked at hm ⊢
  rw [release_dir hm]
  by_cases hmd : m = d
  · rw [if_pos hmd, hmd, update_self]
    exact .refl
  · rw [if_neg hmd, update_of_ne hmd]
    by_cases hmn : m = n
    · rw [hmn, update_self]
      exact incLink_alike
    · rw [update_of_ne hmn]
      exact .refl

/-- A directory after `unlink`. -/
theorem Space.Unlinks.dir_after (h : s.Unlinks path d j m name) (hn : (s.removed d j m n).type = T_DIR) :
    Alike (s.removed d j m n) (if n = d then (s.node d).setEnt j noEntry else s.node n) := by
  unfold Space.removed at hn ⊢
  rw [release_dir hn]
  rw [release_dir hn] at hn
  by_cases hnm : n = m
  · have hnd : n ≠ d := hnm ▸ h.ne
    rw [if_neg hnd]
    rw [hnm, update_self] at hn ⊢
    rw [release_of_ne h.ne, update_of_ne h.ne]
    exact decLink_alike
  · rw [update_of_ne hnm] at hn ⊢
    rw [release_dir hn]
    by_cases hnd : n = d
    · rw [if_pos hnd, hnd, update_self]
      split_ifs
      · exact decLink_alike
      · exact .refl
    · rw [if_neg hnd, update_of_ne hnd]
      exact .refl

/-- A directory after `mkdir`, `mknod` or an `open` that creates a file. -/
theorem Space.Makes.dir_after (h : s.Makes path d n name) (hm : (s.made d n name type major minor m).type = T_DIR) :
    Alike (s.made d n name type major minor m)
      (if m = d then (s.node d).enter n name else if m = n then newDir n d major minor else s.node m) := by
  by_cases hmn : m = n
  · have hmd : m ≠ d := hmn ▸ h.ne
    rw [if_neg hmd, if_pos hmn]
    rw [hmn, made_self h.ne] at hm ⊢
    split_ifs at hm ⊢ with ht
    · exact .refl
    · exact absurd hm ht
  · unfold Space.made at hm ⊢
    dsimp only at hm ⊢
    rw [release_dir hm]
    by_cases hmd : m = d
    · rw [if_pos hmd, hmd, update_self]
      split_ifs
      · rw [update_self]
        exact incLink_alike.enter
      · rw [update_of_ne (Ne.symm h.ne)]
        exact .refl
    · rw [if_neg hmd, if_neg hmn, update_of_ne hmd]
      split_ifs
      · rw [update_of_ne hmd, update_of_ne hmn]
        exact .refl
      · rw [update_of_ne hmn]
        exact .refl

end Effects

/-! ### Runs -/

section Runs

variable {v v' : View} {k k' : Fsys} {p n m d : ℕ} {path name t : List UInt8} {sb : Superblock}

/-- Paths lead to inodes of the disk. -/
theorem walk_has {node : ℕ → Node} {C : Finset ℕ} {b : Bool} {fuel : ℕ} (hdirs : ∀ n, sb.has n → (node n).DirOk sb)
    (hn : sb.has n) (h : walk node C b fuel n path = .ok (some (m, t))) : sb.has m := by
  induction fuel generalizing n path with
  | zero =>
    cases h
    exact hn
  | succ fuel ih =>
    unfold walk at h
    split at h
    · split_ifs at h
      · cases h
      · cases h
        exact hn
    · split_ifs at h with h1 h2 h3
      · cases h
      · cases h
        exact hn
      · split at h
        · cases h
        · rename_i j hf
          split_ifs at h
          have hd : (node n).type = T_DIR := not_not.1 h2
          obtain ⟨hj, h0, -⟩ := find_some hf
          exact ih ((hdirs n hn hd).2 j hj h0) h

theorem Good.resolve_has {C : Finset ℕ} {b : Bool} (h : Good v k) (hp : (v.proc p).live = true)
    (hr : resolve v.node C (v.space p).cwd path b = .ok (some (m, t))) : v.sb.has m := by
  have hcwd : v.sb.has (v.space p).cwd := (h.st.points (.inr ⟨(h.runs hp).cwd, rfl⟩)).2.2
  unfold resolve at hr
  dsimp only at hr
  split_ifs at hr
  · exact walk_has h.st.disk.dirs h.root hr
  · exact walk_has h.st.disk.dirs hcwd hr

theorem Good.has_lt (h : Good v k) (hn : v.sb.has n) : n < 65536 ∧ n ≠ 0 := by
  have hle := h.st.disk.own.layout.ninodes
  exact ⟨lt_of_lt_of_le hn.2 hle, by have := hn.1; omega⟩

/-- No directory has a name twice. -/
def View.Distinct (v : View) : Prop := ∀ d, v.sb.has d → (v.node d).type = T_DIR → (v.node d).Distinct

/-- What a call makes of a directory: it stays, gets an entry for another node or loses one, or it is new. -/
inductive DirStep (v : View) (e : ℕ) : Node → Prop where
  | same (ht : (v.node e).type = T_DIR) : DirStep v e (v.node e)
  | enter {n : ℕ} {name : List UInt8} (ht : (v.node e).type = T_DIR) (hn : v.sb.has n) (hne : n ≠ e)
      (hf : (v.node e).find name = none) : DirStep v e ((v.node e).enter n name)
  | clear {j : ℕ} {name : List UInt8} (ht : (v.node e).type = T_DIR) (hf : (v.node e).find name = some j) :
      DirStep v e ((v.node e).setEnt j noEntry)
  | new {d major minor : ℕ} (hd : v.sb.has d) : DirStep v e (newDir e d major minor)

theorem Moved.dir {e : ℕ} (hg : Good v k) (hm : Moved v p v' k') (hdir : (v'.node e).type = T_DIR) :
    ∃ x, DirStep v e x ∧ Alike (v'.node e) x := by
  have heff := hm.effect
  generalize v'.node = nd at heff hdir ⊢
  have hsame : nd e = v.node e → ∃ x, DirStep v e x ∧ Alike (nd e) x := by
    intro h
    rw [h] at hdir ⊢
    exact ⟨_, .same hdir, .refl⟩
  cases heff with
  | frees h =>
    rcases h.node e with h1 | h1
    · exact hsame h1
    · rw [h1] at hdir
      cases hdir
  | alters h =>
    rcases h e with h1 | ⟨h1, h2, -⟩
    · exact hsame h1
    · exact absurd (h2.symm.trans hdir) h1
  | @link old new name n d h =>
    obtain ⟨t, hold⟩ := h.old
    have ha := linked_dir hdir
    refine ⟨_, ?_, ha⟩
    rw [ha.type] at hdir
    split_ifs at hdir ⊢ with hed
    · subst hed
      exact .enter h.dir (hg.resolve_has hm.live hold) (fun hn => h.file (hn ▸ h.dir)) h.fresh
    · exact .same hdir
  | @unlink path name d j m h =>
    have ha := h.dir_after hdir
    refine ⟨_, ?_, ha⟩
    rw [ha.type] at hdir
    split_ifs at hdir ⊢ with hed
    · subst hed
      exact .clear h.dir h.find
    · exact .same hdir
  | @make path name d n type major minor ht h =>
    obtain ⟨hn1, hn2, -⟩ := firstFree_type h.free
    have ha := h.dir_after hdir
    refine ⟨_, ?_, ha⟩
    rw [ha.type] at hdir
    split_ifs at hdir ⊢ with hed hen
    · subst hed
      exact .enter h.dir ⟨hn1, hn2⟩ h.ne h.fresh
    · subst hen
      exact .new (hg.resolve_has hm.live h.path)
    · exact .same hdir

theorem Moved.distinct (hg : Good v k) (hI : v.Distinct) (hm : Moved v p v' k') : v'.Distinct := by
  intro e he hdir
  rw [hm.sb] at he
  have hsize := fun ht => (hg.st.disk.dirs e he ht).1
  obtain ⟨x, hx, ha⟩ := hm.dir hg hdir
  rw [ha.distinct]
  cases hx with
  | same ht => exact hI e he ht
  | enter ht hn hne hf => exact (hI e he ht).enter (hsize ht) (hg.has_lt hn).1 (hg.has_lt hn).2 hf
  | clear ht hf => exact (hI e he ht).clear (hsize ht) (find_binds (hsize ht) hf).1
  | new hd => exact newDir_distinct (hg.has_lt he).1 (hg.has_lt he).2 (hg.has_lt hd).1 (hg.has_lt hd).2

/-- What is on disk for inode `n`. -/
def Fsys.node (k : Fsys) (n : ℕ) : Node := (getInode k.sb k.block n).node k.block

theorem St.node_eq (h : St v k) (hn : v.sb.has n) : k.node n = v.node n := by
  unfold Fsys.node
  rw [h.sb]
  exact h.disk.nodes n hn

/-- The inode cache has so many free slots. -/
def Fsys.freeSlots (k : Fsys) : ℕ := ((range NINODE).filter fun i => ¬ 0 < (k.icache i).ref).card

theorem St.cached_add_free (h : St v k) : v.cached.card + k.freeSlots = NINODE := by
  rw [h.card_cached, Fsys.freeSlots, card_filter_add_card_filter_not, card_range]

section Locked

variable {F : Fsys → Prop} {N : String → Fsys → Prop} {i : ℕ}

/-- Every node is what it was. -/
def SameNodes (k k' : Fsys) : Prop := ∀ n, k.sb.has n → k'.node n = k.node n

end Locked

/-- The last element of a path. -/
inductive LastElem : List UInt8 → List UInt8 → Prop where
  | last {path name : List UInt8} (h : skipelem path = some (name, [])) : LastElem path name
  | next {path rest t name : List UInt8} (h : skipelem path = some (t, rest)) (hl : LastElem rest name) :
    LastElem path name

theorem walk_last {node : ℕ → Node} {C : Finset ℕ} {fuel : ℕ} (hf : path.length < fuel)
    (h : walk node C true fuel n path = .ok (some (d, name))) : LastElem path name := by
  induction fuel generalizing n path with
  | zero => exact absurd hf (Nat.not_lt_zero _)
  | succ fuel ih =>
    unfold walk at h
    split at h
    · cases h
    · rename_i t rest hskip
      split_ifs at h with h1 h2 h3
      · cases h
      · cases h
        rw [h3.2] at hskip
        exact .last hskip
      · split at h
        · cases h
        · split_ifs at h
          have hlen := skipelem_length hskip
          exact .next hskip (ih (by omega) h)

theorem resolve_last {node : ℕ → Node} {C : Finset ℕ} (h : resolve node C n path true = .ok (some (d, name))) :
    LastElem path name := by
  unfold resolve at h
  dsimp only at h
  split_ifs at h
  · exact walk_last (Nat.lt_succ_self _) h
  · exact walk_last (Nat.lt_succ_self _) h

variable {D : Devsw} {as : List (ℕ × Call)} {sb : Superblock}

/-- The start on a well-formed disk on which no directory has a name twice. -/
def BootedDistinct (sb : Superblock) (k : Fsys) : Prop :=
  Booted sb k ∧ ∀ d, sb.has d → (k.node d).type = T_DIR → (k.node d).Distinct

end Runs

theorem rootImage_slots : ∀ j < 32, ((dirInode 1 1).node rootImage).slots j =
    if j = 0 then some (dot, ROOTINO) else if j = 1 then some (dotdot, ROOTINO) else none := by
  decide +kernel

theorem rootImage_dir {d : ℕ} (hd : mkfsSb.has d) (ht : ((boot mkfsSb rootImage).node d).type = T_DIR) :
    d = ROOTINO ∧ (boot mkfsSb rootImage).node d = (dirInode 1 1).node rootImage := by
  have ht : ((getInode mkfsSb rootImage d).node rootImage).type = T_DIR := ht
  obtain ⟨h1, h2⟩ := checked_one.used hd fun h0 => by
    rw [node_type] at ht
    cases ht.symm.trans h0
  obtain rfl : d = ROOTINO := le_antisymm h2 h1
  refine ⟨rfl, ?_⟩
  exact congrArg (Inode.node · rootImage) rootImage_inode

theorem rootImage_distinct : BootedDistinct mkfsSb (boot mkfsSb rootImage) := by
  refine ⟨rootImage_booted, fun d hd ht => ?_⟩
  rw [(rootImage_dir hd ht).2]
  intro i hi j hj s a b ha hb
  have hlen : ((dirInode 1 1).node rootImage).entries = 32 := by decide
  rw [hlen] at hi hj
  rw [rootImage_slots i hi] at ha
  rw [rootImage_slots j hj] at hb
  have hdots : dot ≠ dotdot := by decide
  split_ifs at ha hb <;> simp_all

end Xv6.Sys

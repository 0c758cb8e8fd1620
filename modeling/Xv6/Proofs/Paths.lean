import Xv6.Proofs.Directories
import Mathlib.Data.List.TakeWhile

/-! Path names: what `namei` and `nameiparent` find is where the elements of the path lead, one after
another, and they leave the references and locks of the inode cache as they were. -/

namespace Xv6.Sys

open Prog Bytes List

variable {node node' : ℕ → Node} {C : Finset ℕ} {path rest name c : List UInt8} {cs : List (List UInt8)}
  {n m d fuel b : ℕ}

/-! ### Elements of a path -/

/-- Dropping stops in front of an element without the property. -/
theorem dropWhile_head {f : UInt8 → Bool} {l r : List UInt8} {x : UInt8} (h : l.dropWhile f = x :: r) : f x = false := by
  have hne : l.dropWhile f ≠ [] := by
    rw [h]
    exact cons_ne_nil x r
  have hhead := head_dropWhile_not f hne
  simpa only [h, head_cons] using hhead

/-- The longest pieces without a slash, cut to `DIRSIZ` bytes. -/
def elems (path : List UInt8) : List (List UInt8) :=
  ((path.splitOn slash).filter fun w => w ≠ []).map fun w => w.take DIRSIZ

@[simp] theorem elems_nil : elems [] = [] := rfl

@[simp] theorem elems_slash : elems (slash :: path) = elems path := by
  simp [elems, splitOn_cons_eq_if_modifyHead]

theorem elems_dropWhile : elems (path.dropWhile (· = slash)) = elems path := by
  induction path with
  | nil => rfl
  | cons c path ih =>
    by_cases hc : c = slash
    · subst hc
      rw [elems_slash, ← ih]
      rfl
    · rw [dropWhile_cons_of_neg (by simpa using hc)]

/-- A path that does not start with a slash. -/
theorem elems_word {c : UInt8} (hc : c ≠ slash) :
    elems (c :: path) = ((c :: path).takeWhile (· ≠ slash)).take DIRSIZ :: elems ((c :: path).dropWhile (· ≠ slash)) := by
  have happ := takeWhile_append_dropWhile (p := fun x : UInt8 => decide (x ≠ slash)) (l := c :: path)
  have hno : ∀ x ∈ (c :: path).takeWhile (· ≠ slash), x ≠ slash := by
    intro x hx
    simpa using mem_takeWhile_imp hx
  have hne : (c :: path).takeWhile (· ≠ slash) ≠ [] := by
    rw [takeWhile_cons_of_pos (by simpa using hc)]
    exact cons_ne_nil _ _
  have hhead : ∀ x r, (c :: path).dropWhile (· ≠ slash) = x :: r → x = slash := by
    intro x r hr
    simpa using dropWhile_head hr
  generalize (c :: path).takeWhile (· ≠ slash) = w at happ hno hne ⊢
  generalize (c :: path).dropWhile (· ≠ slash) = r at happ hhead ⊢
  have hmem : slash ∉ w := fun h => hno slash h rfl
  rw [← happ]
  cases r with
  | nil =>
    rw [append_nil, elems, splitOn_eq_singleton hmem]
    simp [hne]
  | cons x r =>
    obtain rfl := hhead x r rfl
    rw [elems_slash, elems, splitOn_append_cons_self_of_not_mem hmem]
    simp [hne, elems]

theorem elems_ne_nil {c : UInt8} (hc : c ≠ slash) : elems (c :: path) ≠ [] := by
  rw [elems_word hc]
  exact cons_ne_nil _ _

theorem skipelem_none (h : skipelem path = none) : elems path = [] := by
  unfold skipelem at h
  rw [← elems_dropWhile]
  split at h
  · rename_i hp
    rw [hp]
    rfl
  · cases h

/-- What follows the element has no slash in front. -/
theorem skipelem_some (h : skipelem path = some (name, rest)) :
    elems path = name :: elems rest ∧ (elems rest = [] → rest = []) := by
  unfold skipelem at h
  rw [← elems_dropWhile]
  split at h
  · cases h
  · rename_i c p hp
    have hc : c ≠ slash := by simpa using dropWhile_head hp
    cases h
    rw [hp, elems_word hc, elems_dropWhile]
    refine ⟨rfl, fun h0 => ?_⟩
    rw [← elems_dropWhile] at h0
    generalize ((c :: p).dropWhile (· ≠ slash)) = q at h0 ⊢
    cases hq : q.dropWhile (· = slash) with
    | nil => rfl
    | cons x r =>
      rw [hq] at h0
      have hx : x ≠ slash := by simpa using dropWhile_head hq
      exact absurd h0 (elems_ne_nil hx)

/-! ### Walks -/

/-- The inode that a directory has the name for. -/
def Node.lookup (x : Node) (name : List UInt8) : Option ℕ := (x.find name).map fun j => (x.ent j).inum

/-- Where the elements lead from node `n`. -/
def follow (node : ℕ → Node) : ℕ → List (List UInt8) → Option ℕ
  | n, [] => some n
  | n, c :: cs =>
    if (node n).type = T_DIR then
      match (node n).lookup c with
      | none => none
      | some m => follow node m cs
    else none

/-- The directory that all elements but the last lead to, and the last. -/
def parentOf (node : ℕ → Node) (n : ℕ) (cs : List (List UInt8)) : Option (ℕ × List UInt8) :=
  match cs.getLast?, follow node n cs.dropLast with
  | some name, some d => if (node d).type = T_DIR then some (d, name) else none
  | _, _ => none

/-- The way goes on from a node that is free. -/
def Dangling (node : ℕ → Node) (n : ℕ) (cs : List (List UInt8)) : Prop :=
  ∃ j < cs.length, ∃ m, follow node n (cs.take j) = some m ∧ (node m).type = 0

theorem follow_dir (hd : (node n).type = T_DIR) (hl : (node n).lookup c = some m) :
    follow node n (c :: cs) = follow node m cs := by
  rw [follow, if_pos hd, hl]

theorem Dangling.here (h : (node n).type = 0) : Dangling node n (c :: cs) :=
  ⟨0, Nat.zero_lt_succ _, n, rfl, h⟩

theorem Dangling.next {c : List UInt8} (hd : (node n).type = T_DIR) (hl : (node n).lookup c = some m)
    (h : Dangling node m cs) : Dangling node n (c :: cs) := by
  obtain ⟨j, hj, e, he, h0⟩ := h
  refine ⟨j + 1, Nat.succ_lt_succ hj, e, ?_, h0⟩
  rw [take_succ_cons, follow_dir hd hl, he]

/-- One element, for the parent: the last element, or the way goes on. -/
theorem parentOf_single : parentOf node n [c] = if (node n).type = T_DIR then some (n, c) else none := rfl

theorem parentOf_cons (hcs : cs ≠ []) (hd : (node n).type = T_DIR) :
    parentOf node n (c :: cs) = match (node n).lookup c with
      | none => none
      | some m => parentOf node m cs := by
  obtain ⟨a, as, rfl⟩ := exists_cons_of_ne_nil hcs
  have hlast : (c :: a :: as).getLast? = (a :: as).getLast? := by simp [getLast?_cons]
  unfold parentOf
  rw [hlast, dropLast_cons_cons, follow, if_pos hd]
  cases hl : (node n).lookup c with
  | none =>
    dsimp only
    split <;> simp_all
  | some m => rfl

theorem parentOf_not_dir (hd : (node n).type ≠ T_DIR) : parentOf node n (c :: cs) = none := by
  cases cs with
  | nil => rw [parentOf_single, if_neg hd]
  | cons a as =>
    unfold parentOf
    rw [dropLast_cons_cons, follow, if_neg hd]
    split <;> simp_all

/-- `walk` on an error. -/
def Stops (node : ℕ → Node) (C : Finset ℕ) (n : ℕ) (cs : List (List UInt8)) (msg : String) : Prop :=
  msg = "iget: no inodes" ∧ NINODE ≤ C.card + 1 ∨ msg = "ilock: no type" ∧ Dangling node n cs

/-- Where `walk` ends. -/
def Ends (node : ℕ → Node) (b : Bool) (n : ℕ) (cs : List (List UInt8)) : Option (ℕ × List UInt8) :=
  if b then parentOf node n cs else (follow node n cs).map fun m => (m, [])

theorem walk_ends (b : Bool) (hf : path.length < fuel) :
    (∃ msg, walk node C b fuel n path = .error msg ∧ Stops node C n (elems path) msg) ∨
      walk node C b fuel n path = .ok (Ends node b n (elems path)) := by
  -- one element of the path in each round
  induction fuel generalizing n path with
  | zero => exact absurd hf (Nat.not_lt_zero _)
  | succ fuel ih =>
    unfold walk
    cases hsk : skipelem path with
    | none =>
      right
      rw [skipelem_none hsk]
      cases b <;> rfl
    | some q =>
      obtain ⟨name, rest⟩ := q
      obtain ⟨hel, hend⟩ := skipelem_some hsk
      have hlen := skipelem_length hsk
      dsimp only
      rw [hel]
      split_ifs with h0 hd hlast
      · exact .inl ⟨_, rfl, .inr ⟨rfl, .here h0⟩⟩
      · right
        unfold Ends
        cases b with
        | true => rw [if_pos rfl, parentOf_not_dir hd]
        | false => simp [follow, hd]
      · right
        obtain ⟨rfl, rfl⟩ := hlast
        have hd : (node n).type = T_DIR := not_not.1 hd
        rw [Ends, if_pos rfl, elems_nil, parentOf_single, if_pos hd]
      · have hd : (node n).type = T_DIR := not_not.1 hd
        have hstep : Ends node b n (name :: elems rest) = match (node n).lookup name with
            | none => none
            | some m => Ends node b m (elems rest) := by
          unfold Ends
          cases b with
          | true =>
            have hcs : elems rest ≠ [] := fun h => hlast ⟨rfl, hend h⟩
            simp only [if_true, parentOf_cons hcs hd]
          | false =>
            simp only [Bool.false_eq_true, if_false, follow, hd, if_true]
            cases (node n).lookup name <;> rfl
        rw [hstep]
        cases hfind : (node n).find name with
        | none =>
          right
          have hl : (node n).lookup name = none := by rw [Node.lookup, hfind]; rfl
          rw [hl]
        | some j =>
          have hl : (node n).lookup name = some ((node n).ent j).inum := by rw [Node.lookup, hfind]; rfl
          rw [hl]
          dsimp only
          split_ifs with hno
          · refine .inl ⟨_, rfl, .inl ⟨rfl, ?_⟩⟩
            exact hno.2.trans (Finset.card_insert_le n C)
          · have hrest : rest.length < fuel := by omega
            rcases ih hrest with ⟨msg, hw, hs⟩ | hw
            · refine .inl ⟨msg, hw, ?_⟩
              rcases hs with hs | ⟨hm, hs⟩
              · exact .inl hs
              · exact .inr ⟨hm, hs.next hd hl⟩
            · exact .inr hw

/-- The last step of the way is the lookup in the directory that the other elements lead to. -/
theorem follow_parentOf (h : parentOf node n cs = some (d, name)) : follow node n cs = (node d).lookup name := by
  induction cs generalizing n with
  | nil => cases h
  | cons c cs ih =>
    by_cases hd : (node n).type = T_DIR
    · by_cases hcs : cs = []
      · subst hcs
        rw [parentOf_single, if_pos hd] at h
        cases h
        rw [follow, if_pos hd]
        cases (node d).lookup name <;> rfl
      · rw [parentOf_cons hcs hd] at h
        rw [follow, if_pos hd]
        cases hl : (node n).lookup c with
        | none =>
          rw [hl] at h
          cases h
        | some m =>
          rw [hl] at h
          exact ih h
    · rw [parentOf_not_dir hd] at h
      cases h

/-! ### The kernel's lookup -/

/-- Node tables that agree on the inodes of the disk agree on where paths lead. -/
theorem follow_congr {sb : Superblock} (hdirs : ∀ n, sb.has n → (node n).DirOk sb)
    (heq : ∀ n, sb.has n → node' n = node n) (hn : sb.has n) :
    follow node' n cs = follow node n cs ∧ ∀ m, follow node n cs = some m → sb.has m := by
  induction cs generalizing n with
  | nil =>
    refine ⟨rfl, fun m hm => ?_⟩
    cases hm
    exact hn
  | cons c cs ih =>
    unfold follow
    rw [heq n hn]
    by_cases hd : (node n).type = T_DIR
    · rw [if_pos hd, if_pos hd]
      cases hl : (node n).lookup c with
      | none => exact ⟨rfl, fun m hm => by cases hm⟩
      | some m =>
        obtain ⟨j, hj, rfl⟩ := Option.map_eq_some_iff.1 hl
        obtain ⟨hlt, h0, -⟩ := find_some hj
        exact ih ((hdirs n hn hd).2 j hlt h0)
    · rw [if_neg hd, if_neg hd]
      exact ⟨rfl, fun m hm => by cases hm⟩

section Congr

variable {sb : Superblock} (hdirs : ∀ n, sb.has n → (node n).DirOk sb) (heq : ∀ n, sb.has n → node' n = node n)
  (hn : sb.has n)

include hdirs heq hn

theorem ends_congr (b : Bool) : Ends node' b n cs = Ends node b n cs := by
  unfold Ends
  cases b with
  | false => rw [if_neg Bool.false_ne_true, if_neg Bool.false_ne_true, (follow_congr hdirs heq hn).1]
  | true =>
    have hfol : follow node' n cs.dropLast = follow node n cs.dropLast := (follow_congr hdirs heq hn).1
    rw [if_pos rfl, if_pos rfl, parentOf, parentOf, hfol]
    cases hd : follow node n cs.dropLast with
    | none => split <;> simp_all
    | some d =>
      have hnode := heq d ((follow_congr hdirs heq hn).2 d hd)
      cases cs.getLast? with
      | none => rfl
      | some name => simp only [hnode]

theorem dangling_congr (h : Dangling node n cs) : Dangling node' n cs := by
  obtain ⟨j, hj, m, hm, h0⟩ := h
  have hhas := (follow_congr hdirs heq hn).2 m hm
  refine ⟨j, hj, m, (follow_congr hdirs heq hn).1.trans hm, ?_⟩
  rw [heq m hhas]
  exact h0

end Congr

/-- A lookup has returned the slot of `n`, with one reference more to it and everything else as it was. -/
structure Found (k k' : Fsys) (r n : Option ℕ) : Prop where
  inum : r.map (fun i => (k'.icache i).ip.inum) = n
  ref : ∀ j, (k'.icache j).ref = (k.icache j).ref + if r = some j then 1 else 0
  slot : ∀ j, 0 < (k.icache j).ref → (k'.icache j).ip.inum = (k.icache j).ip.inum
  unlocked : ∀ j, (k'.icache j).locked = false
  nodes : SameNodes k k'

/-- Where a path starts for process `p`. -/
def Fsys.start (k : Fsys) (p : ℕ) (path : List UInt8) : ℕ :=
  if path.head? = some slash then ROOTINO else (k.icache (k.proc p).cwd).ip.inum

section Kernel

variable {v : View} {k k' : Fsys} {p : ℕ}

theorem Good.start_eq (h : Good v k) (hp : (v.proc p).live = true) :
    k.start p path = (if path.head? = some slash then ROOTINO else v.num (v.proc p).cwd) ∧ v.sb.has (k.start p path) := by
  have hcwd := (h.st.user _ (h.runs hp).cwd).1
  have hhas := (h.st.points (.inr ⟨(h.runs hp).cwd, rfl⟩)).2.2
  unfold Fsys.start
  rw [h.st.proc, hcwd]
  refine ⟨rfl, ?_⟩
  split_ifs
  · exact h.root
  · exact hhas

/-- The call has the reference `r`, or none, and nothing is locked. -/
theorem Good.found {r n : Option ℕ} {T : Multiset (ℕ × ℕ)} (h : Good v k) (h' : St { v with tmp := T } k')
    (hT : ∀ j, (T.map Prod.fst).count j = if r = some j then 1 else 0)
    (hin : r.map (fun i => (k'.icache i).ip.inum) = n) : Found k k' r n := by
  have hmine : ∀ j, v.mine j = 0 := by
    intro j
    unfold View.mine
    rw [h.rest.tmp]
    rfl
  refine ⟨hin, fun j => ?_, fun j hj => ?_, fun j => ?_, fun m hm => ?_⟩
  · have href := h'.ref j
    unfold View.mine at href
    rw [href, h.st.ref, hmine, hT]
    rfl
  · rw [h.st.ref, hmine] at hj
    rw [(h'.user j hj).1, (h.st.user j hj).1]
  · have hl := (h'.lock j).not
    simpa [h.rest.locks] using hl
  · rw [h.st.sb] at hm
    rw [h'.node_eq hm, h.st.node_eq hm]

/-- Where a lookup from node `n` does not return. -/
def Fsys.Stuck (k : Fsys) (n : ℕ) (path : List UInt8) (msg : String) : Prop :=
  msg = "iget: no inodes" ∧ k.freeSlots < 2 ∨ msg = "ilock: no type" ∧ Dangling k.node n (elems path)

theorem Good.sat_namex (h : Good v k) (hp : (v.proc p).live = true) (b : Bool) :
    Sat (namex p path b) k
      (fun r k' => Found k k' (r.map Prod.fst) ((Ends k.node b (k.start p path) (elems path)).map Prod.fst) ∧
        r.map Prod.snd = (Ends k.node b (k.start p path) (elems path)).map Prod.snd)
      (fun _ => False) (fun msg _ => k.Stuck (k.start p path) path msg) := by
  have hhas : v.sb.has (k.start p path) := (h.start_eq hp).2
  have heq : ∀ n, v.sb.has n → k.node n = v.node n := fun n hn => h.st.node_eq hn
  have hfree := h.st.cached_add_free
  have hres : resolve v.node v.cached (v.num (v.proc p).cwd) path b =
      if noFit v.cached (k.start p path) then .error "iget: no inodes"
      else walk v.node v.cached b (path.length + 1) (k.start p path) path := by
    rw [(h.start_eq hp).1]
    rfl
  have hsafe : v.Safe := by
    intro n hn
    rw [h.rest.loose] at hn
    exact absurd hn (Finset.notMem_empty n)
  rw [ends_congr h.st.disk.dirs heq hhas b]
  -- what the walk over the nodes returns is where the elements lead
  have hok : ∀ q, resolve v.node v.cached (v.num (v.proc p).cwd) path b = .ok q →
      Ends v.node b (k.start p path) (elems path) = q := by
    intro q hq
    rw [hres] at hq
    split_ifs at hq
    rcases walk_ends b (Nat.lt_succ_self path.length) with ⟨msg, hw, -⟩ | hw
    · rw [hw] at hq
      cases hq
    · rw [hw] at hq
      cases hq
      rfl
  refine Sys.sat_namex h.st hsafe h.rest.locks h.root (h.runs hp).cwd rfl rfl (fun hr k' h' => ?_)
    (fun m t hr e k' h' => ?_) (fun msg hr k' => ?_)
  · rw [hok none hr]
    refine ⟨h.found (T := 0) ?_ (fun j => by simp) rfl, rfl⟩
    rw [← h.rest.tmp]
    exact h'
  · rw [hok _ hr]
    have hmem : (e, m) ∈ (e, m) ::ₘ v.tmp := Multiset.mem_cons_self _ _
    refine ⟨h.found h' (fun j => ?_) (congrArg some (h'.tmp _ hmem)), rfl⟩
    rw [h.rest.tmp]
    by_cases hj : e = j
    · simp [hj]
    · simp [hj, Ne.symm hj]
  · rw [hres] at hr
    split_ifs at hr with hno
    · cases hr
      have := hno.2
      exact .inl ⟨rfl, by omega⟩
    · rcases walk_ends b (Nat.lt_succ_self path.length) with ⟨msg', hw, hs⟩ | hw
      · rw [hw] at hr
        cases hr
        rcases hs with ⟨hm, hfull⟩ | ⟨hm, hd⟩
        · exact .inl ⟨hm, by omega⟩
        · exact .inr ⟨hm, dangling_congr h.st.disk.dirs heq hhas hd⟩
      · rw [hw] at hr
        cases hr

/-- `namei` returns the inode that the elements of the path lead to, and `nameiparent` the directory before the last,
with one reference to what they return and no lock. The state is any between calls (`booted_good`). -/
theorem path_lookup (hg : Good v k) (hp : (k.proc p).live = true) (path : List UInt8) :
    Sat (namei p path) k
      (fun r k' => Found k k' r (follow k.node (k.start p path) (elems path)))
      (fun _ => False) (fun msg _ => k.Stuck (k.start p path) path msg) ∧
    Sat (nameiparent p path) k
      (fun r k' => Found k k' (r.map Prod.fst) ((parentOf k.node (k.start p path) (elems path)).map Prod.fst) ∧
        r.map Prod.snd = (parentOf k.node (k.start p path) (elems path)).map Prod.snd)
      (fun _ => False) (fun msg _ => k.Stuck (k.start p path) path msg) ∧
    ∀ d name, parentOf k.node (k.start p path) (elems path) = some (d, name) →
      follow k.node (k.start p path) (elems path) = (k.node d).lookup name := by
  rw [hg.st.proc] at hp
  refine ⟨?_, hg.sat_namex hp true, fun d name => follow_parentOf⟩
  unfold namei
  rw [sat_bind_eq]
  refine sat_post (hg.sat_namex hp false) fun r k' hq => ?_
  have hend : (Ends k.node false (k.start p path) (elems path)).map Prod.fst =
      follow k.node (k.start p path) (elems path) := by
    rw [Ends, if_neg Bool.false_ne_true, Option.map_map]
    exact Option.map_id'
  rw [hend] at hq
  exact hq.1

end Kernel

/-- A file in a directory. -/
theorem path_lookup_file : ∃ k v,
    Trace.Run (system deaf (Booted mkfsSb)) [(0, .mkdir (some [100])), (0, .open (some [100, 47, 102]) 0x202)] k ∧
    Good v k ∧ elems [47, 100, 47, 102] = [[100], [102]] ∧
    Sat (namei 0 [47, 100, 47, 102]) k (fun r k' => r = some 2 ∧ Found k k' r (some 3)) (fun _ => False)
      (fun _ _ => False) := by
  obtain ⟨k, hrun, hk⟩ := run_calls (P := fun k => decide ((k.proc 0).live = true ∧
      follow k.node (k.start 0 [47, 100, 47, 102]) (elems [47, 100, 47, 102]) = some 3 ∧
      Sat (namei 0 [47, 100, 47, 102]) k (fun r _ => r = some 2) (fun _ => False) (fun _ _ => False))) rootImage_booted
    (by decide +kernel :
      ([(0, Call.mkdir (some [100])), (0, .open (some [100, 47, 102]) 0x202)].foldlM Call.next _).any _ = true)
  obtain ⟨hlive, hend, hret⟩ := of_decide_eq_true hk
  obtain ⟨v, hg⟩ := booted_good hrun
  have hlook := (path_lookup hg hlive [47, 100, 47, 102]).1
  rw [hend] at hlook
  exact ⟨k, v, hrun, hg, by decide, sat_mono (sat_and hret hlook) (fun _ _ h => h) (fun _ h => h.1) fun _ _ h => h.1⟩

/-! ### A full inode cache -/

theorem checked_chain : Checked 51 := ⟨by decide, by decide, by decide +kernel, by decide +kernel, by decide +kernel⟩

/-- A process goes down a chain of directories and leaves a child in each. -/
def crowd : List (ℕ × Call) :=
  (range 49).flatMap fun i => [(0, .fork (some (i + 1))), (0, .chdir (some dirName))]

/-- A process looks up a name of its directory while the inode cache is full. -/
theorem full_cache_panics : ∃ k, Trace.Run (system deaf (Booted mkfsSb)) crowd k ∧ (∃ v, Good v k) ∧
    (k.proc 0).live = true ∧ follow k.node (k.start 0 dirName) (elems dirName) = some 51 ∧
    Sat (namei 0 dirName) k (fun _ _ => False) (fun _ => False) (fun msg _ => msg = "iget: no inodes") := by
  have hboot : Booted mkfsSb (boot mkfsSb (dirImage 51)) := ⟨_, checked_chain.image, rfl⟩
  obtain ⟨k, hrun, hk⟩ := run_calls (P := fun k => decide ((k.proc 0).live = true ∧
      follow k.node (k.start 0 dirName) (elems dirName) = some 51 ∧
      Sat (namei 0 dirName) k (fun _ _ => False) (fun _ => False) (fun msg _ => msg = "iget: no inodes")))
    hboot (by decide +kernel : (crowd.foldlM Call.next _).any _ = true)
  exact ⟨k, hrun, booted_good hrun, of_decide_eq_true hk⟩

end Xv6.Sys

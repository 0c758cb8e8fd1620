import Xv6.Proofs.Files

/-! What the calls on names do to the nodes when they return. -/

namespace Xv6.Sys

open Function

variable {s : Space} {nd node : ℕ → Node} {a : ℤ} {d j m n type major minor : ℕ} {name path old new : List UInt8}
  {b : Bool} {r : Option (ℕ × Bool)} {x : Node}

/-- The nodes after node `n` gets the name in directory `d`. -/
def Space.linked (s : Space) (n d : ℕ) (name : List UInt8) : ℕ → Node :=
  release (update (update s.node n (s.node n).incLink) d ((s.node d).enter n name)) s.held n

/-- `link` finds the node `n` for the old name and the directory `d` for the new one. -/
structure Space.Links (s : Space) (old new : List UInt8) (n d : ℕ) (name : List UInt8) : Prop where
  old : ∃ t, resolve s.node s.held s.cwd old false = .ok (some (n, t))
  new : resolve s.node (insert n s.held) s.cwd new true = .ok (some (d, name))
  type : (s.node n).type ≠ 0
  file : (s.node n).type ≠ T_DIR
  dir : (s.node d).type = T_DIR
  fresh : (s.node d).find name = none
  room : ¬ (s.node d).full

theorem link_ret (h : s.link old new = .ret a nd) :
    a = -1 ∧ nd = s.node ∨ ∃ n d name, s.Links old new n d name ∧ a = 0 ∧ nd = s.linked n d name := by
  unfold Space.link at h
  repeat' split at h
  all_goals cases h
  all_goals try exact .inl ⟨rfl, rfl⟩
  exact .inr ⟨_, _, _, ⟨⟨_, ‹_›⟩, ‹_›, ‹_›, ‹_›, resolve_parent ‹_›, ‹_›, ‹_›⟩, rfl, rfl⟩

/-- `unlink` finds the entry `j` of directory `d`, for node `m`. -/
structure Space.Unlinks (s : Space) (path : List UInt8) (d j m : ℕ) (name : List UInt8) : Prop where
  path : resolve s.node s.held s.cwd path true = .ok (some (d, name))
  dots : namecmp name dot ≠ 0 ∧ namecmp name dotdot ≠ 0
  dir : (s.node d).type = T_DIR
  find : (s.node d).find name = some j
  inum : ((s.node d).ent j).inum = m
  ne : m ≠ d
  type : (s.node m).type ≠ 0
  nlink : ¬ short (s.node m).nlink < 1
  empty : (s.node m).type = T_DIR → (s.node m).isEmpty = true

theorem unlink_ret (h : s.unlink path = .ret a nd) :
    a = -1 ∧ nd = s.node ∨ ∃ d j m name, s.Unlinks path d j m name ∧ a = 0 ∧ nd = s.removed d j m := by
  unfold Space.unlink at h
  dsimp only at h
  repeat' split at h
  all_goals cases h
  all_goals try exact .inl ⟨rfl, rfl⟩
  refine .inr ⟨_, _, _, _, ⟨‹_›, not_or.1 ‹_›, resolve_parent ‹_›, ‹_›, rfl, ‹_›, ‹_›, ‹_›, fun ht => ?_⟩, rfl, rfl⟩
  exact (Bool.not_eq_false _).mp fun he => ‹¬ (_ ∧ _)› ⟨ht, he⟩

/-- `create` makes node `n` in directory `d`. -/
structure Space.Makes (s : Space) (path : List UInt8) (d n : ℕ) (name : List UInt8) : Prop where
  path : resolve s.node s.held s.cwd path true = .ok (some (d, name))
  dir : (s.node d).type = T_DIR
  fresh : (s.node d).find name = none
  free : firstFree s.ninodes s.node = some n
  room : ¬ (s.node d).full

theorem create_ret (h : s.create path type major minor = .ret r nd) : r = none ∧ nd = s.node ∨
    (∃ m, r = some (m, false) ∧ nd = s.node ∧ type = T_FILE ∧ (s.node m).type = T_FILE) ∨
    ∃ d n name, s.Makes path d n name ∧ r = some (n, true) ∧ nd = s.made d n name type major minor := by
  unfold Space.create at h
  dsimp only at h
  repeat' split at h
  all_goals cases h
  all_goals try exact .inl ⟨rfl, rfl⟩
  · exact .inr (.inl ⟨_, rfl, rfl, ‹_›⟩)
  · exact .inr (.inr ⟨_, _, _, ⟨‹_›, resolve_parent ‹_›, ‹_›, ‹_›, ‹_›⟩, rfl, rfl⟩)

theorem firstFree_type (h : firstFree s.ninodes s.node = some n) : 1 ≤ n ∧ n < s.ninodes ∧ (s.node n).type = 0 := by
  have h1 := List.find?_some h
  have h2 := List.mem_range.1 (List.mem_of_find?_eq_some h)
  simp only [decide_eq_true_eq] at h1
  exact ⟨h1.1, h2, h1.2⟩

theorem Space.Makes.ne (h : s.Makes path d n name) : n ≠ d := by
  rintro rfl
  exact absurd (h.dir.symm.trans (firstFree_type h.free).2.2) (by decide)

theorem release_of_ne {held : Finset ℕ} (h : m ≠ n) : release node held n m = node m := by
  unfold release
  split_ifs
  · exact update_of_ne h ..
  · rfl

/-- The node that was made. -/
theorem made_self (hne : n ≠ d) : s.made d n name type major minor n =
    if type = T_DIR then newDir n d major minor else newNode type major minor := by
  unfold Space.made
  rw [release_of_ne hne, update_of_ne hne]
  split_ifs with h
  · rw [update_of_ne hne, update_self, h]
    rfl
  · rw [update_self]
    rfl

/-- What a call leaves of the nodes in use. -/
def Space.Keeps (s : Space) (nd : ℕ → Node) : Prop :=
  ∀ m ∈ s.held, (s.node m).type ≠ 0 → (nd m).type = (s.node m).type

theorem Space.Keeps.refl : s.Keeps s.node := fun _ _ _ => rfl

theorem update_type (h : x.type = (node n).type) (m : ℕ) : (update node n x m).type = (node m).type := by
  by_cases hm : m = n
  · rw [hm, update_self, h]
  · rw [update_of_ne hm]

theorem incLink_type : x.incLink.type = x.type := rfl

theorem decLink_type : x.decLink.type = x.type := by simp only [Node.decLink]

theorem enter_type : (x.enter n name).type = x.type := rfl

theorem link_keeps (h : s.link old new = .ret a nd) : s.Keeps nd := by
  rcases link_ret h with ⟨-, rfl⟩ | ⟨n, d, name, hl, -, rfl⟩
  · exact .refl
  · intro m hm _
    have hn : ∀ m, (update s.node n (s.node n).incLink m).type = (s.node m).type := update_type incLink_type
    rw [Space.linked, release_held hm, update_type (enter_type.trans (hn d).symm) m, hn]

theorem unlink_keeps (h : s.unlink path = .ret a nd) : s.Keeps nd := by
  rcases unlink_ret h with ⟨-, rfl⟩ | ⟨d, j, m, name, hu, -, rfl⟩
  · exact .refl
  · intro e he _
    simp only [Space.removed]
    rw [release_held he, update_type decLink_type e, release_held he]
    split_ifs
    · exact update_type (decLink_type.trans setEnt_type) e
    · exact update_type setEnt_type e

theorem create_keeps (h : s.create path type major minor = .ret r nd) : s.Keeps nd := by
  rcases create_ret h with ⟨-, rfl⟩ | ⟨m, -, rfl, -⟩ | ⟨d, n, name, hm, -, rfl⟩
  · exact .refl
  · exact .refl
  · intro e he h0
    have hen : e ≠ n := by
      rintro rfl
      exact h0 (firstFree_type hm.free).2.2
    simp only [Space.made]
    rw [release_held he, update_type enter_type e]
    split_ifs
    · rw [update_type _ e, update_of_ne hen]
      rw [update_of_ne hm.ne.symm]
      exact incLink_type
    · rw [update_of_ne hen]

end Xv6.Sys

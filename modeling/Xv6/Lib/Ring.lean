import Mathlib.Data.List.Nodup
import Mathlib.Data.List.Perm.Basic
import Mathlib.Logic.Function.Basic

/-! A doubly linked ring through a head. The nodes are the elements of `ι` and the head, `none`; the
links are two functions on nodes. -/

namespace Ring

open Function
open List (mem_cons_of_mem nodup_cons)

variable {ι : Type}

structure Links (ι : Type) where
  next : Option ι → Option ι
  prev : Option ι → Option ι

/-- The head alone. -/
def Links.empty : Links ι := ⟨fun _ => none, fun _ => none⟩

/-- Take `b` out: `b->next->prev = b->prev; b->prev->next = b->next`. -/
def Links.unlink [DecidableEq ι] (r : Links ι) (b : ι) : Links ι :=
  let prev := update r.prev (r.next (some b)) (r.prev (some b))
  ⟨update r.next (prev (some b)) (r.next (some b)), prev⟩

/-- Put `b` after the head. -/
def Links.push [DecidableEq ι] (r : Links ι) (b : ι) : Links ι :=
  let next := update r.next (some b) (r.next none)
  let prev := update r.prev (some b) none
  ⟨update next none (some b), update prev (next none) (some b)⟩

/-- The first node that meets `P`, from `a` on along `link` and before the head. -/
def find (link : Option ι → Option ι) (P : ι → Bool) : ℕ → Option ι → Option ι
  | 0, _ => none
  | _ + 1, none => none
  | n + 1, some i => if P i then some i else find link P n (link (some i))

/-- The links lead from `a` along `l` to `b`, and back. -/
def Seg (r : Links ι) : Option ι → List ι → Option ι → Prop
  | a, [], b => r.next a = b ∧ r.prev b = a
  | a, i :: l, b => r.next a = some i ∧ r.prev (some i) = a ∧ Seg r (some i) l b

/-- The ring whose elements after the head are `l`. -/
def Is (r : Links ι) (l : List ι) : Prop := Seg r none l none ∧ l.Nodup

variable {r r' : Links ι} {a b c : Option ι} {i : ι} {l xs ys : List ι} {P : ι → Bool} {n : ℕ}

theorem Seg.congr (h : Seg r a l b) (hn : r'.next a = r.next a)
    (hni : ∀ i ∈ l, r'.next (some i) = r.next (some i))
    (hpi : ∀ i ∈ l, r'.prev (some i) = r.prev (some i)) (hp : r'.prev b = r.prev b) :
    Seg r' a l b := by
  induction l generalizing a with
  | nil => exact ⟨hn.trans h.1, hp.trans h.2⟩
  | cons i l ih =>
    obtain ⟨h1, h2, h3⟩ := h
    refine ⟨hn.trans h1, (hpi i (by simp)).trans h2, ih h3 (hni i (by simp)) ?_ ?_⟩
    · exact fun j hj => hni j (mem_cons_of_mem _ hj)
    · exact fun j hj => hpi j (mem_cons_of_mem _ hj)

theorem seg_append : Seg r a (xs ++ i :: ys) b ↔ Seg r a xs (some i) ∧ Seg r (some i) ys b := by
  induction xs generalizing a with
  | nil => exact and_assoc.symm
  | cons j xs ih =>
    simp only [List.cons_append, Seg, ih]
    tauto

/-- The node before the end is the last one of the segment. -/
theorem Seg.prev_mem (h : Seg r a l b) : r.prev b = a ∨ ∃ i ∈ l, r.prev b = some i := by
  induction l generalizing a with
  | nil => exact .inl h.2
  | cons i l ih =>
    rcases ih h.2.2 with h' | ⟨j, hj, h'⟩
    · exact .inr ⟨i, by simp, h'⟩
    · exact .inr ⟨j, mem_cons_of_mem _ hj, h'⟩

theorem is_empty : Is (Links.empty : Links ι) [] := ⟨⟨rfl, rfl⟩, List.nodup_nil⟩

variable [DecidableEq ι]

/-- The last link of a segment is set to lead to `c`. -/
theorem Seg.retarget (h : Seg r a l b) (ha : ∀ i ∈ l, a ≠ some i) (hl : l.Nodup)
    (hc : ∀ i ∈ l, c ≠ some i) (hn : r'.next = update r.next (r.prev b) c)
    (hp : ∀ i ∈ l, r'.prev (some i) = r.prev (some i)) (hpc : r'.prev c = r.prev b) :
    Seg r' a l c := by
  induction l generalizing a with
  | nil =>
    obtain ⟨-, h2⟩ := h
    exact ⟨by rw [hn, h2, update_self], hpc.trans h2⟩
  | cons i l ih =>
    obtain ⟨h1, h2, h3⟩ := h
    -- the last node is not `a`, which comes before all of `i :: l`
    have hlast : a ≠ r.prev b := by
      rcases h3.prev_mem with h' | ⟨j, hj, h'⟩
      · rw [h']
        exact ha i (by simp)
      · rw [h']
        exact ha j (mem_cons_of_mem _ hj)
    refine ⟨by rw [hn, update_of_ne hlast, h1], (hp i (by simp)).trans h2, ?_⟩
    refine ih h3 ?_ (nodup_cons.1 hl).2 (fun j hj => hc j (mem_cons_of_mem _ hj))
      fun j hj => hp j (mem_cons_of_mem _ hj)
    rintro j hj ⟨⟩
    exact (nodup_cons.1 hl).1 hj

theorem Is.push (h : Is r l) (hi : i ∉ l) : Is (r.push i) (i :: l) := by
  obtain ⟨hs, hl⟩ := h
  refine ⟨?_, nodup_cons.2 ⟨hi, hl⟩⟩
  have hnext : ∀ x, x ≠ none → x ≠ some i → (r.push i).next x = r.next x := by
    intro x h1 h2
    simp [Links.push, update_of_ne, h1, h2]
  have hprev : ∀ x, x ≠ r.next none → x ≠ some i → (r.push i).prev x = r.prev x := by
    intro x h1 h2
    simp [Links.push, update_of_ne, h1, h2]
  have hfirst : (r.push i).prev (r.next none) = some i := by simp [Links.push]
  have hni : (r.push i).next (some i) = r.next none := by simp [Links.push]
  have hne : r.next none ≠ some i := by
    cases l with
    | nil => simp [hs.1]
    | cons j l =>
      rw [hs.1]
      rintro ⟨⟩
      exact hi (by simp)
  refine ⟨by simp [Links.push], ?_, ?_⟩
  · simp [Links.push, update_of_ne hne.symm]
  · cases l with
    | nil => exact ⟨by rw [hni, hs.1], by rw [← hs.1, hfirst]⟩
    | cons j l =>
      obtain ⟨h1, h2, h3⟩ := hs
      obtain ⟨hjl, hl⟩ := nodup_cons.1 hl
      have hij : j ≠ i := fun h => hi (by simp [h])
      refine ⟨by rw [hni, h1], by rw [← h1, hfirst], h3.congr ?_ ?_ ?_ ?_⟩
      · exact hnext _ (by simp) (by simpa using hij)
      · intro k hk
        refine hnext _ (by simp) ?_
        rintro ⟨⟩
        exact hi (mem_cons_of_mem _ hk)
      · intro k hk
        refine hprev _ ?_ ?_
        · rw [h1]
          rintro ⟨⟩
          exact hjl hk
        · rintro ⟨⟩
          exact hi (mem_cons_of_mem _ hk)
      · exact hprev _ (by simp [h1]) (by simp)

theorem Is.unlink (h : Is r (xs ++ i :: ys)) : Is (r.unlink i) (xs ++ ys) := by
  obtain ⟨hs, hl⟩ := h
  obtain ⟨hx, hy⟩ := seg_append.1 hs
  obtain ⟨hxl, hyl, hdisj⟩ := List.nodup_append.1 hl
  obtain ⟨hiy, hyl⟩ := nodup_cons.1 hyl
  have hix : i ∉ xs := fun h => hdisj i h i (by simp) rfl
  have hyx : ∀ j ∈ ys, j ∉ xs := fun j hj hj' => hdisj j hj' j (by simp [hj]) rfl
  -- what follows `i`: the head or the first of `ys`
  have hafter : ∀ j ∈ xs, r.next (some i) ≠ some j := by
    intro j hj
    cases ys with
    | nil => simp [hy.1]
    | cons k ys =>
      rw [hy.1]
      rintro ⟨⟩
      exact hyx j (by simp) hj
  have hii : r.next (some i) ≠ some i := by
    cases ys with
    | nil => simp [hy.1]
    | cons k ys =>
      rw [hy.1]
      rintro ⟨⟩
      exact hiy (by simp)
  have hprev : (r.unlink i).prev = update r.prev (r.next (some i)) (r.prev (some i)) := rfl
  have hnext : (r.unlink i).next = update r.next (r.prev (some i)) (r.next (some i)) := by
    simp [Links.unlink, update_of_ne hii.symm]
  have hfirst : Seg (r.unlink i) none xs (r.next (some i)) := by
    refine hx.retarget (by simp) hxl hafter hnext (fun j hj => ?_) ?_
    · rw [hprev, update_of_ne (hafter j hj).symm]
    · rw [hprev, update_self]
  refine ⟨?_, List.nodup_append.2 ⟨hxl, hyl, fun j hj k hk => hdisj j hj k (by simp [hk])⟩⟩
  cases ys with
  | nil =>
    rw [hy.1] at hfirst
    simpa using hfirst
  | cons k ys =>
    obtain ⟨h1, -, h3⟩ := hy
    rw [h1] at hfirst
    -- the node before `i` is the head or in `xs`
    have hbefore : ∀ j ∈ k :: ys, some j ≠ r.prev (some i) := by
      intro j hj
      rcases hx.prev_mem with h' | ⟨m, hm, h'⟩
      · rw [h']
        simp
      · rw [h']
        rintro ⟨⟩
        exact hyx j hj hm
    refine seg_append.2 ⟨hfirst, h3.congr ?_ ?_ ?_ ?_⟩
    · rw [hnext, update_of_ne (hbefore k (by simp))]
    · intro j hj
      rw [hnext, update_of_ne (hbefore j (by simp [hj]))]
    · intro j hj
      rw [hprev, update_of_ne]
      rw [h1]
      rintro ⟨⟩
      exact (nodup_cons.1 hyl).1 hj
    · rw [hprev, update_of_ne (by simp [h1])]

/-- An element moves to the front. -/
theorem Is.front (h : Is r l) (hi : i ∈ l) : ∃ l', Is ((r.unlink i).push i) l' ∧ l'.Perm l := by
  obtain ⟨xs, ys, rfl⟩ := List.append_of_mem hi
  have hni : i ∉ xs ++ ys := by
    obtain ⟨-, hyl, hdisj⟩ := List.nodup_append.1 h.2
    rw [List.mem_append]
    rintro (h' | h')
    · exact hdisj i h' i (by simp) rfl
    · exact (nodup_cons.1 hyl).1 h'
  exact ⟨i :: (xs ++ ys), h.unlink.push hni, List.perm_middle.symm⟩

omit [DecidableEq ι] in
theorem find_sound {link : Option ι → Option ι} (h : find link P n a = some i) : P i = true := by
  induction n generalizing a with
  | zero => cases h
  | succ n ih =>
    cases a with
    | none => cases h
    | some j =>
      rw [find] at h
      split_ifs at h with hj
      · cases h
        exact hj
      · exact ih h

omit [DecidableEq ι] in
theorem Seg.find_none (h : Seg r a l none) (hn : l.length ≤ n)
    (hf : find r.next P n (r.next a) = none) : ∀ i ∈ l, P i = false := by
  induction l generalizing a n with
  | nil => simp
  | cons j l ih =>
    obtain ⟨h1, -, h3⟩ := h
    cases n with
    | zero => simp at hn
    | succ n =>
      rw [h1, find] at hf
      split_ifs at hf with hj
      intro i hi
      rcases List.mem_cons.1 hi with rfl | hi
      · simpa using hj
      · exact ih h3 (by simpa using hn) hf i hi

end Ring

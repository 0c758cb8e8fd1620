import Xv6.Proofs.Inodes

/-! Directory entries in the bytes of a node. -/

namespace Xv6.Sys

open Bytes

variable {x y : Node} {sb : Superblock} {de : Dirent} {P : Dirent → Bool} {name path : List UInt8} {fuel i j l n : ℕ}
  {node node' : ℕ → Node} {C : Finset ℕ} {b : Bool}

theorem ofBytes_bytes (h : de.inum < 65536) : Dirent.ofBytes de.bytes = de := by
  have hl : (le 2 de.inum).length = 2 := le_length ..
  have hmod : de.inum % 256 ^ 2 = de.inum := Nat.mod_eq_of_lt h
  rw [Dirent.ofBytes, Dirent.bytes, List.take_left' hl, List.drop_left' hl, unle_le, hmod]

theorem bytes_length (h : de.name.length = DIRSIZ) : de.bytes.length = sizeofDirent := by
  rw [Dirent.bytes, List.length_append, le_length, h]
  rfl

/-- What a new entry looks like. -/
structure Dirent.Ok (sb : Superblock) (de : Dirent) : Prop where
  inum : de.inum = 0 ∨ sb.has de.inum
  name : de.name.length = DIRSIZ

theorem Dirent.Ok.lt (h : de.Ok sb) (hsb : sb.Ok) : de.inum < 65536 := by
  rcases h.inum with h0 | h0
  · omega
  · exact lt_of_lt_of_le h0.2 hsb.ninodes

theorem length_strncpy : (strncpy name DIRSIZ).length = DIRSIZ := by
  rw [strncpy, List.length_append, List.length_take, List.length_replicate]
  omega

@[simp] theorem setEnt_type : (x.setEnt j de).type = x.type := rfl

theorem setEnt_size : (x.setEnt j de).size = max x.size (sizeofDirent * j + sizeofDirent) := rfl

theorem ent_setEnt_self (hn : de.inum < 65536) (hl : de.name.length = DIRSIZ) : (x.setEnt j de).ent j = de := by
  rw [Node.ent]
  have hbytes : ((List.range sizeofDirent).map fun i => (x.setEnt j de).data (sizeofDirent * j + i)) = de.bytes := by
    refine List.ext_getElem (by simp [bytes_length hl]) fun i h1 h2 => ?_
    have hi : i < sizeofDirent := by simpa using h1
    simp [Node.setEnt, Node.write, hi, List.getElem?_eq_getElem h2]
  rw [hbytes, ofBytes_bytes hn]

theorem ent_setEnt_ne (h : i ≠ j) : (x.setEnt j de).ent i = x.ent i := by
  rw [Node.ent, Node.ent]
  congr 1
  refine List.map_congr_left fun l hl => ?_
  have hl' : l < sizeofDirent := List.mem_range.1 hl
  have hout : ¬ (sizeofDirent * j ≤ sizeofDirent * i + l ∧ sizeofDirent * i + l < sizeofDirent * j + sizeofDirent) := by
    simp only [show sizeofDirent = 16 from rfl] at *
    omega
  exact if_neg hout

theorem Node.DirOk.setEnt (h : x.DirOk sb) (hsb : sb.Ok) (hj : sizeofDirent * j ≤ x.size) (hde : de.Ok sb) :
    (x.setEnt j de).DirOk sb := by
  intro ht
  obtain ⟨h1, h2⟩ := h ht
  rw [setEnt_size]
  simp only [show sizeofDirent = 16 from rfl] at *
  refine ⟨by omega, fun i hi h0 => ?_⟩
  by_cases hij : i = j
  · subst hij
    rw [ent_setEnt_self (hde.lt hsb) hde.name] at h0 ⊢
    exact hde.inum.resolve_left h0
  · rw [ent_setEnt_ne hij] at h0 ⊢
    exact h2 i (by omega) h0

/-! The first entry with a property. -/

theorem first_some (h : x.first P fuel j = some i) :
    j ≤ i ∧ sizeofDirent * i < x.size ∧ P (x.ent i) = true ∧ ∀ l, j ≤ l → l < i → P (x.ent l) = false := by
  induction fuel generalizing j with
  | zero => exact absurd h (by simp [Node.first])
  | succ fuel ih =>
    unfold Node.first at h
    by_cases hj : sizeofDirent * j < x.size
    · rw [if_pos hj] at h
      cases hP : P (x.ent j) with
      | true =>
        obtain rfl : j = i := by simpa [hP] using h
        exact ⟨le_rfl, hj, hP, fun l h1 h2 => absurd h2 (by omega)⟩
      | false =>
        obtain ⟨h1, h2, h3, h4⟩ := ih (by simpa [hP] using h)
        refine ⟨by omega, h2, h3, fun l hl hl' => ?_⟩
        by_cases hlj : l = j
        · rw [hlj, hP]
        · exact h4 l (by omega) hl'
    · rw [if_neg hj] at h
      exact absurd h (by simp)

theorem first_none (h : x.first P fuel j = none) (hfuel : x.size ≤ sizeofDirent * (j + fuel)) (hl : j ≤ l)
    (hs : sizeofDirent * l < x.size) : P (x.ent l) = false := by
  induction fuel generalizing j with
  | zero =>
    simp only [show sizeofDirent = 16 from rfl] at *
    omega
  | succ fuel ih =>
    unfold Node.first at h
    have hj : sizeofDirent * j < x.size := lt_of_le_of_lt (Nat.mul_le_mul_left _ hl) hs
    rw [if_pos hj] at h
    cases hP : P (x.ent j) with
    | true => exact absurd h (by simp [hP])
    | false =>
      by_cases hlj : l = j
      · rw [hlj, hP]
      · exact ih (by simpa [hP] using h) (by rw [show j + 1 + fuel = j + (fuel + 1) by omega]; exact hfuel) (by omega)

theorem size_le_fuel (j : ℕ) : x.size ≤ sizeofDirent * (j + x.size) := by
  simp only [show sizeofDirent = 16 from rfl]
  omega

theorem find_some (h : x.find name = some j) :
    sizeofDirent * j < x.size ∧ (x.ent j).inum ≠ 0 ∧ namecmp name (x.ent j).name = 0 := by
  obtain ⟨-, h1, h2, -⟩ := first_some h
  simpa only [decide_eq_true_eq] using And.intro h1 h2

theorem find_none (h : x.find name = none) (hl : sizeofDirent * l < x.size) (h0 : (x.ent l).inum ≠ 0) :
    namecmp name (x.ent l).name ≠ 0 := by
  have := first_none h (size_le_fuel 0) (Nat.zero_le l) hl
  simp only [decide_eq_false_iff_not] at this
  exact fun hc => this ⟨h0, hc⟩

theorem gap_le (hs : x.size % sizeofDirent = 0) : sizeofDirent * x.gap ≤ x.size := by
  unfold Node.gap
  cases hf : x.first (fun de => decide (de.inum = 0)) x.size 0 with
  | none => exact (Nat.mul_div_cancel' (Nat.dvd_of_mod_eq_zero hs)).le
  | some j => exact (first_some hf).2.1.le

/-- The next entry goes where none is in use. -/
theorem gap_free (h : sizeofDirent * x.gap < x.size) (hs : x.size % sizeofDirent = 0) : (x.ent x.gap).inum = 0 := by
  unfold Node.gap at h ⊢
  cases hf : x.first (fun de => decide (de.inum = 0)) x.size 0 with
  | none =>
    rw [hf, Option.getD_none, Nat.mul_div_cancel' (Nat.dvd_of_mod_eq_zero hs)] at h
    exact absurd h (lt_irrefl _)
  | some j => simpa using (first_some hf).2.2.1

/-! A directory that is filled from empty. -/

theorem find_of_size_zero (h : x.size = 0) : x.find name = none := by rw [Node.find, h]; rfl

theorem gap_of_size_zero (h : x.size = 0) : x.gap = 0 := by rw [Node.gap, h]; rfl

theorem first_of_one (h : x.size = sizeofDirent) (hP : P (x.ent 0) = false) : x.first P x.size 0 = none := by
  have h1 : sizeofDirent * 0 < x.size := by rw [h]; decide
  have h2 : ¬ sizeofDirent * (0 + 1) < x.size := by rw [h]; decide
  rw [h, show sizeofDirent = 14 + 1 + 1 from rfl, Node.first, if_pos h1, hP, if_neg (by simp), Node.first, if_neg h2]

theorem gap_of_one (h : x.size = sizeofDirent) (h0 : (x.ent 0).inum ≠ 0) : x.gap = 1 := by
  rw [Node.gap, first_of_one h (by simpa using h0), h]
  rfl

theorem find_of_one (h : x.size = sizeofDirent) (h0 : namecmp name (x.ent 0).name ≠ 0) : x.find name = none :=
  first_of_one h (by simp [h0])

/-- Lookups see the type and the contents of a node, and nothing else of it. -/
structure Alike (x y : Node) : Prop where
  type : x.type = y.type
  size : x.size = y.size
  data : x.data = y.data

theorem Alike.refl : Alike x x := ⟨rfl, rfl, rfl⟩

theorem Alike.ent (h : Alike x y) : x.ent = y.ent := by
  funext j
  rw [Node.ent, Node.ent, h.data]

theorem Alike.first (h : Alike x y) : x.first P fuel j = y.first P fuel j := by
  induction fuel generalizing j with
  | zero => rfl
  | succ fuel ih => rw [Node.first, Node.first, h.size, h.ent, ih]

theorem Alike.find (h : Alike x y) : x.find name = y.find name := by rw [Node.find, Node.find, h.size, h.first]

theorem Alike.gap (h : Alike x y) : x.gap = y.gap := by rw [Node.gap, Node.gap, h.size, h.first]

theorem incLink_alike : Alike x.incLink x := ⟨rfl, rfl, rfl⟩

theorem walk_congr (h : ∀ n, Alike (node' n) (node n)) : walk node' C b fuel n path = walk node C b fuel n path := by
  induction fuel generalizing n path with
  | zero => rfl
  | succ fuel ih => simp only [walk, (h n).type, (h n).find, (h n).ent, ih]

theorem resolve_congr (h : ∀ n, Alike (node' n) (node n)) : resolve node' C n path b = resolve node C n path b := by
  simp only [resolve, walk_congr h]

end Xv6.Sys

import Xv6.Lib.Count
import Mathlib.Data.Fintype.Basic
import Mathlib.Data.List.Nodup
import Mathlib.Logic.Function.Basic

/-! Counted objects with a free list. Every place names an object or none (`z`); the count of an object is the
number of places that name it and of the references `ext` from elsewhere. Giving up the last reference puts an
object on the free list, from which a place takes it again. -/

namespace Shares

open Count Function List

variable {κ α : Type} [Fintype κ] [DecidableEq α]

/-- How many places name `x`. -/
def held (E : κ → α) (x : α) : ℕ := refs Finset.univ E x

/-- The account of the objects of `T`. -/
structure Account (z : α) (T : α → Prop) (ext : α → ℕ) (E : κ → α) (cnt : α → ℕ) (free : List α) : Prop where
  null : ¬ T z
  named : ∀ a, E a = z ∨ T (E a)
  count : ∀ x, T x → cnt x = held E x + ext x
  nodup : free.Nodup
  free : ∀ x ∈ free, T x ∧ cnt x = 0

/-- An object that nothing refers to is on the free list. -/
def Tight (T : α → Prop) (ext : α → ℕ) (E : κ → α) (free : List α) : Prop :=
  ∀ x, T x → ext x = 0 → held E x = 0 → x ∈ free

variable {z x r y : α} {T : α → Prop} {ext cnt : α → ℕ} {E : κ → α} {a b : κ} {free rest : List α}

theorem held_update [DecidableEq κ] (E : κ → α) (a : κ) (y x : α) :
    held (update E a y) x + (if E a = x then 1 else 0) = held E x + (if y = x then 1 else 0) := by
  have h := refs_set (S := Finset.univ) (E := E) (D := update E a y) (x := x) (Finset.mem_univ a)
    fun b _ hb => update_of_ne hb _ _
  rwa [update_self] at h

theorem held_move [DecidableEq κ] (ha : E a = x) (hb : E b = z) (hab : a ≠ b) (hy : y ≠ z) :
    held (update (update E a z) b x) y = held E y := by
  have h1 := held_update (update E a z) b x y
  have h2 := held_update E a z y
  rw [update_of_ne hab.symm, hb, if_neg hy.symm, Nat.add_zero] at h1
  rw [if_neg hy.symm, Nat.add_zero, ha] at h2
  omega

/-- Other objects are named as before. -/
theorem held_update_of_ne [DecidableEq κ] {w : α} (h1 : E a ≠ y) (h2 : w ≠ y) : held (update E a w) y = held E y := by
  have hu := held_update E a w y
  rwa [if_neg h1, if_neg h2] at hu

theorem held_pos (h : E a = x) : 0 < held E x := refs_pos (Finset.mem_univ a) h

theorem held_unique (h : held E x ≤ 1) (ha : E a = x) (hb : E b = x) : a = b :=
  refs_unique h (Finset.mem_univ a) (Finset.mem_univ b) ha hb

theorem held_eq_zero : held E x = 0 ↔ ∀ a, E a ≠ x := by
  rw [held, refs_eq_zero]
  simp

/-- The places that name an object, one by one. -/
theorem held_eq_length [DecidableEq κ] {l : List κ} (hl : l.Nodup) (h : ∀ a, E a = x ↔ a ∈ l) :
    held E x = l.length := by
  rw [held, refs, ← toFinset_card_of_nodup hl]
  congr 1
  ext a
  simp [h]

namespace Account

variable (h : Account z T ext E cnt free)
include h

theorem mem (hx : x ≠ z) (ha : E a = x) : T x := by
  rcases h.named a with h0 | h0
  · exact absurd (ha.symm.trans h0) hx
  · exact ha ▸ h0

theorem ne_null (hx : T x) : x ≠ z := fun he => h.null (he ▸ hx)

theorem count_pos (hx : x ≠ z) (ha : E a = x) : 0 < cnt x := by
  rw [h.count x (h.mem hx ha)]
  exact Nat.add_pos_left (held_pos ha) _

/-- A free object is named nowhere. -/
theorem free_ne (hx : x ∈ free) (a : κ) : E a ≠ x := by
  intro ha
  obtain ⟨hT, h0⟩ := h.free x hx
  exact (h.count_pos (h.ne_null hT) ha).ne' h0

theorem not_free (ha : E a = x) : x ∉ free := fun hf => h.free_ne hf a ha

variable [DecidableEq κ]

/-- One reference of several is given up. -/
theorem decl (hx : x ≠ z) (ha : E a = x) : Account z T ext (update E a z) (update cnt x (cnt x - 1)) free where
  null := h.null
  named b := by
    by_cases hb : b = a
    · subst hb
      exact .inl (update_self _ _ _)
    · rw [update_of_ne hb]
      exact h.named b
  count y hy := by
    have hc := h.count y hy
    by_cases hyx : y = x
    · subst hyx
      have hu := held_update E a z y
      rw [if_neg hx.symm, if_pos ha] at hu
      rw [update_self]
      omega
    · have hay : E a ≠ y := fun he => hyx (he.symm.trans ha)
      rw [update_of_ne hyx, hc, held_update_of_ne hay (h.ne_null hy).symm]
  nodup := h.nodup
  free y hy := by
    have hyx : y ≠ x := by
      rintro rfl
      exact h.not_free ha hy
    rw [update_of_ne hyx]
    exact h.free y hy

/-- The last reference is given up. -/
theorem release (hx : x ≠ z) (ha : E a = x) (hc : cnt x = 1) :
    Account z T ext (update E a z) (update cnt x 0) (x :: free) := by
  have hd := h.decl hx ha
  rw [hc] at hd
  exact { hd with
    nodup := nodup_cons.2 ⟨h.not_free ha, h.nodup⟩
    free := by
      intro y hy
      rcases mem_cons.1 hy with rfl | hy
      · exact ⟨h.mem hx ha, update_self _ _ _⟩
      · exact hd.free y hy }

/-- A reference goes from one place to another. -/
theorem move (ha : E a = x) (hb : E b = z) (hab : a ≠ b) :
    Account z T ext (update (update E a z) b x) cnt free where
  null := h.null
  named c := by
    by_cases hcb : c = b
    · subst hcb
      rw [update_self]
      exact ha ▸ h.named a
    rw [update_of_ne hcb]
    by_cases hca : c = a
    · subst hca
      exact .inl (update_self _ _ _)
    · rw [update_of_ne hca]
      exact h.named c
  count y hy := by
    rw [h.count y hy, held_move ha hb hab (h.ne_null hy)]
  nodup := h.nodup
  free := h.free

/-- A place takes the first free object. -/
theorem take (ha : E a = z) (hf : free = r :: rest) : Account z T ext (update E a r) (update cnt r 1) rest where
  null := h.null
  named b := by
    by_cases hb : b = a
    · subst hb
      rw [update_self]
      exact .inr (h.free r (hf ▸ mem_cons_self)).1
    · rw [update_of_ne hb]
      exact h.named b
  count y hy := by
    have hc := h.count y hy
    have hay : E a ≠ y := fun he => h.ne_null hy (he.symm.trans ha)
    by_cases hyr : y = r
    · subst hyr
      have h0 := (h.free y (hf ▸ mem_cons_self)).2
      have hu := held_update E a y y
      rw [if_neg hay, if_pos rfl] at hu
      rw [update_self]
      omega
    · rw [update_of_ne hyr, hc, held_update_of_ne hay (Ne.symm hyr)]
  nodup := (nodup_cons.1 (hf ▸ h.nodup)).2
  free y hy := by
    have hyr : y ≠ r := by
      rintro rfl
      exact (nodup_cons.1 (hf ▸ h.nodup)).1 hy
    rw [update_of_ne hyr]
    exact h.free y (hf ▸ mem_cons_of_mem _ hy)

/-- A place takes the first free object and hands the one it had to another place. -/
theorem swap (ha : E a = x) (hb : E b = z) (hab : a ≠ b) (hf : free = r :: rest) :
    Account z T ext (update (update E a r) b x) (update cnt r 1) rest := by
  have h2 := (h.move ha hb hab).take (a := a) (by rw [update_of_ne hab, update_self]) hf
  rwa [update_comm hab.symm, update_idem] at h2

omit [DecidableEq κ] in
/-- Counts outside of `T` do not matter. -/
theorem congr {cnt' : α → ℕ} (hc : ∀ y, T y → cnt' y = cnt y) : Account z T ext E cnt' free where
  null := h.null
  named := h.named
  count y hy := (hc y hy).trans (h.count y hy)
  nodup := h.nodup
  free y hy := ⟨(h.free y hy).1, (hc y (h.free y hy).1).trans (h.free y hy).2⟩

/-- A count of two or more leaves a reference. -/
theorem tight_decl (ht : Tight T ext E free) (ha : E a = x) (hc : x ≠ z → 2 ≤ cnt x) :
    Tight T ext (update E a z) free := by
  intro y hy he h0
  have hz := (h.ne_null hy).symm
  by_cases hay : E a = y
  · obtain rfl : x = y := ha.symm.trans hay
    have hu := held_update E a z x
    rw [if_pos ha, if_neg hz] at hu
    have := h.count x hy
    have := hc hz.symm
    omega
  · rw [held_update_of_ne hay hz] at h0
    exact ht y hy he h0

theorem tight_release (ht : Tight T ext E free) (ha : E a = x) : Tight T ext (update E a z) (x :: free) := by
  intro y hy he h0
  by_cases hay : E a = y
  · rw [← hay, ha]
    exact mem_cons_self
  · rw [held_update_of_ne hay (h.ne_null hy).symm] at h0
    exact mem_cons_of_mem _ (ht y hy he h0)

theorem tight_move (ht : Tight T ext E free) (ha : E a = x) (hb : E b = z) (hab : a ≠ b) :
    Tight T ext (update (update E a z) b x) free := by
  intro y hy he h0
  rw [held_move ha hb hab (h.ne_null hy)] at h0
  exact ht y hy he h0

theorem tight_take (ht : Tight T ext E free) (ha : E a = z) (hf : free = r :: rest) :
    Tight T ext (update E a r) rest := by
  intro y hy he h0
  have hry : r ≠ y := fun hr => held_eq_zero.1 h0 a ((update_self _ _ _).trans hr)
  have hay : E a ≠ y := fun ha' => h.ne_null hy (ha'.symm.trans ha)
  rw [held_update_of_ne hay hry] at h0
  rcases mem_cons.1 (hf ▸ ht y hy he h0) with hyr | hmem
  · exact absurd hyr.symm hry
  · exact hmem

theorem tight_swap (ht : Tight T ext E free) (ha : E a = x) (hb : E b = z) (hab : a ≠ b) (hf : free = r :: rest) :
    Tight T ext (update (update E a r) b x) rest := by
  have h2 := (h.move ha hb hab).tight_take (h.tight_move ht ha hb hab) (a := a)
    (by rw [update_of_ne hab, update_self]) hf
  rwa [update_comm hab.symm, update_idem] at h2

end Account

/-! ### Changes of an account -/

variable [DecidableEq κ]

/-- One operation on the counts; a decrement is of an object of `D`. -/
inductive Change (z : α) (D : α → Prop) (E : κ → α) (cnt : α → ℕ) (free : List α) :
    (κ → α) → (α → ℕ) → List α → Prop where
  | quiet : Change z D E cnt free E cnt free
  | release (a : κ) (x : α) (hx : x ≠ z) (ha : E a = x) (hc : cnt x = 1) :
      Change z D E cnt free (update E a z) (update cnt x 0) (x :: free)
  | decl (a : κ) (x : α) (n : ℕ) (hd : D x) (ha : E a = x) (hn : 0 < cnt x → n = cnt x - 1) :
      Change z D E cnt free (update E a z) (update cnt x n) free
  | swap (a b : κ) (x r : α) (rest : List α) (ha : E a = x) (hb : E b = z) (hab : a ≠ b) (hf : free = r :: rest) :
      Change z D E cnt free (update (update E a r) b x) (update cnt r 1) rest

section Change

variable {D : α → Prop} {E' : κ → α} {cnt' : α → ℕ} {free' : List α}

theorem Account.change (h : Account z T ext E cnt free) (hc : Change z D E cnt free E' cnt' free') :
    Account z T ext E' cnt' free' := by
  cases hc with
  | quiet => exact h
  | release a x hx ha h1 => exact h.release hx ha h1
  | decl a x n _ ha hn =>
    by_cases hx : x = z
    · subst hx
      rw [update_eq_self_iff.2 ha.symm]
      exact h.congr fun y hy => update_of_ne (h.ne_null hy) _ _
    · rw [hn (h.count_pos hx ha)]
      exact h.decl hx ha
  | swap a b x r rest ha hb hab hf => exact h.swap ha hb hab hf

theorem Tight.change (h : Account z T ext E cnt free) (ht : Tight T ext E free)
    (hD : ∀ x, D x → x ≠ z → 2 ≤ cnt x) (hc : Change z D E cnt free E' cnt' free') : Tight T ext E' free' := by
  cases hc with
  | quiet => exact ht
  | release a x hx ha h1 => exact h.tight_release ht ha
  | decl a x n hd ha _ => exact h.tight_decl ht ha (hD x hd)
  | swap a b x r rest ha hb hab hf => exact h.tight_swap ht ha hb hab hf

/-- A count of 1 stays while its one reference does. -/
theorem Change.last (h : Account z T ext E cnt free) (hc : Change z D E cnt free E' cnt' free') (hx : x ≠ z)
    (hb : E b = x) (hb' : E' b = x) (h1 : cnt x = 1) : cnt' x = 1 := by
  have hle : held E x ≤ 1 := by
    have := h.count x (h.mem hx hb)
    omega
  -- the place that gives up its reference is not `b`, so the reference is to another object
  have hne : ∀ a, E a = x → update E a z b ≠ x := by
    rintro a ha he
    obtain rfl := held_unique hle ha hb
    rw [update_self] at he
    exact hx he.symm
  cases hc with
  | quiet => exact h1
  | release a y _ ha _ =>
    by_cases hyx : x = y
    · subst hyx
      exact absurd hb' (hne a ha)
    · rw [update_of_ne hyx, h1]
  | decl a y n _ ha _ =>
    by_cases hyx : x = y
    · subst hyx
      exact absurd hb' (hne a ha)
    · rw [update_of_ne hyx, h1]
  | swap a c y r rest _ _ _ hf =>
    by_cases hxr : x = r
    · rw [hxr, update_self]
    · rw [update_of_ne hxr, h1]

/-- The count of an object that two places name, or none, stays, unless it is decremented. -/
theorem Change.count_eq (h : Account z T ext E cnt free) (hc : Change z D E cnt free E' cnt' free') (hd : ¬ D x)
    (hb : E b = x) (hb' : E' b = x) : cnt' x = cnt x := by
  cases hc with
  | quiet => rfl
  | release a y hy ha h1 =>
    by_cases hyx : x = y
    · subst hyx
      have hle : held E x ≤ 1 := by
        have := h.count x (h.mem hy ha)
        omega
      obtain rfl := held_unique hle ha hb
      rw [update_self] at hb'
      exact absurd hb'.symm hy
    · rw [update_of_ne hyx]
  | decl a y n hdy ha _ =>
    rw [update_of_ne]
    rintro rfl
    exact hd hdy
  | swap a c y r rest _ _ _ hf =>
    rw [update_of_ne]
    rintro rfl
    exact h.not_free hb (hf ▸ mem_cons_self)

omit [Fintype κ] in
/-- The places of one of many. -/
theorem Change.lift {ι : Type} [DecidableEq ι] {i : ι} {F F' : ι × κ → α}
    (hc : Change z D E cnt free E' cnt' free') (hE : ∀ a, F (i, a) = E a) (hE' : ∀ a, F' (i, a) = E' a)
    (hF : ∀ j a, j ≠ i → F' (j, a) = F (j, a)) : Change z D F cnt free F' cnt' free' := by
  have hupd : ∀ {G : ι × κ → α} {E : κ → α} (a : κ) (y : α), (∀ b, G (i, b) = E b) →
      ∀ b, update G (i, a) y (i, b) = update E a y b := by
    intro G E a y hG b
    by_cases hb : b = a
    · rw [hb, update_self, update_self]
    · rw [update_of_ne hb, update_of_ne fun he => hb (Prod.mk.inj he).2, hG]
  have hother : ∀ {G : ι × κ → α} (a : κ) (y : α) j b, j ≠ i → update G (i, a) y (j, b) = G (j, b) := by
    intro G a y j b hj
    rw [update_of_ne fun he => hj (Prod.mk.inj he).1]
  have heq : ∀ {G : ι × κ → α}, (∀ a, F' (i, a) = G (i, a)) → (∀ j a, j ≠ i → G (j, a) = F (j, a)) → F' = G := by
    intro G h1 h2
    funext ⟨j, a⟩
    by_cases hj : j = i
    · rw [hj, h1]
    · rw [hF j a hj, h2 j a hj]
  cases hc with
  | quiet =>
    rw [heq (fun a => (hE' a).trans (hE a).symm) fun _ _ _ => rfl]
    exact .quiet
  | release a x hx ha h1 =>
    rw [heq (fun b => (hE' b).trans (hupd a z hE b).symm) (hother a z)]
    exact .release (i, a) x hx ((hE a).trans ha) h1
  | decl a x n hd ha hn =>
    rw [heq (fun b => (hE' b).trans (hupd a z hE b).symm) (hother a z)]
    exact .decl (i, a) x n hd ((hE a).trans ha) hn
  | swap a b x r rest ha hb hab hf =>
    rw [heq (fun c => (hE' c).trans (hupd b x (hupd a r hE) c).symm)
      fun j c hj => (hother b x j c hj).trans (hother a r j c hj)]
    exact .swap (i, a) (i, b) x r _ ((hE a).trans ha) ((hE b).trans hb) (fun he => hab (Prod.mk.inj he).2) hf

end Change

end Shares

import Mathlib.Data.List.Induction

/-! Labelled transition systems: runs from an initial state, with the labels taken so far, and the
induction rule for what holds along them. -/

namespace Trace

open List

structure System (σ α : Type) where
  init : σ → Prop
  step : σ → α → σ → Prop

variable {σ α : Type}

/-- The runs of a system: the labels taken, in order, and the state reached. -/
inductive Run (S : System σ α) : List α → σ → Prop where
  | start {s : σ} (h : S.init s) : Run S [] s
  | snoc {as : List α} {s s' : σ} {a : α} (h : Run S as s) (hs : S.step s a s') : Run S (as ++ [a]) s'

/-- Only the steps that meet a condition on the state before them. -/
def System.restrict (S : System σ α) (G : σ → α → Prop) : System σ α where
  init := S.init
  step s a s' := G s a ∧ S.step s a s'

variable {S : System σ α} {as bs : List α} {s s' : σ} {f : σ → α → Option σ}

/-- The invariant rule; an invariant may read the labels taken so far. -/
theorem Run.invariant {I : List α → σ → Prop} (h0 : ∀ s, S.init s → I [] s)
    (hs : ∀ as s a s', Run S as s → I as s → S.step s a s' → I (as ++ [a]) s')
    (h : Run S as s) : I as s := by
  induction h with
  | start h => exact h0 _ h
  | snoc h hstep ih => exact hs _ _ _ _ h ih hstep

theorem Run.of_restrict {G : σ → α → Prop} (h : Run (S.restrict G) as s) : Run S as s := by
  induction h with
  | start h => exact .start h
  | snoc _ hstep ih => exact .snoc ih hstep.2

/-- A run goes on along the steps that a function computes. -/
theorem Run.extend (hf : ∀ s a s', f s a = some s' → S.step s a s') (h : Run S as s) (hb : bs.foldlM f s = some s') :
    Run S (as ++ bs) s' := by
  induction bs generalizing as s with
  | nil =>
    obtain rfl : s = s' := by simpa using hb
    simpa using h
  | cons b bs ih =>
    simp only [foldlM_cons, Option.bind_eq_bind, Option.bind_eq_some_iff] at hb
    obtain ⟨t, ht, hb⟩ := hb
    simpa using ih (h.snoc (hf _ _ _ ht)) hb

theorem Run.of_foldlM (hf : ∀ s a s', f s a = some s' → S.step s a s')
    (h : S.init s) (has : as.foldlM f s = some s') : Run S as s' :=
  Run.extend hf (.start h) has

/-- A run can be cut at each of its steps. -/
theorem Run.cut {a : α} (h : Run S (as ++ a :: bs) s) : ∃ s₁ s₂, Run S as s₁ ∧ S.step s₁ a s₂ := by
  induction bs using reverseRecOn generalizing s with
  | nil =>
    generalize hc : as ++ [a] = cs at h
    cases h with
    | start _ => simp at hc
    | snoc h hstep =>
      obtain ⟨rfl, hb⟩ := append_inj' hc rfl
      obtain rfl : a = _ := by simpa using hb
      exact ⟨_, _, h, hstep⟩
  | append_singleton bs b ih =>
    generalize hc : as ++ a :: (bs ++ [b]) = cs at h
    cases h with
    | start _ => simp at hc
    | snoc h hstep =>
      rw [← cons_append, ← append_assoc] at hc
      obtain ⟨rfl, -⟩ := append_inj' hc rfl
      exact ih h

/-- An execution of `n` steps with its states: step `i` leads from `s i` to `s (i + 1)`. -/
structure Exec (S : System σ α) (n : ℕ) (s : ℕ → σ) (a : ℕ → α) : Prop where
  init : S.init (s 0)
  step : ∀ i < n, S.step (s i) (a i) (s (i + 1))

theorem Exec.run {n : ℕ} {s : ℕ → σ} {a : ℕ → α} (h : Exec S n s a) {i : ℕ} (hi : i ≤ n) :
    Run S ((range i).map a) (s i) := by
  induction i with
  | zero => exact .start h.init
  | succ i ih =>
    rw [range_succ, map_append]
    exact (ih (Nat.le_of_succ_le hi)).snoc (h.step i hi)

/-- The execution along the steps that a function computes. -/
theorem Exec.of_foldlM (hf : ∀ s a s', f s a = some s' → S.step s a s')
    {s₀ t : σ} (b : α) (h₀ : S.init s₀) (h : as.foldlM f s₀ = some t) :
    ∃ s : ℕ → σ, Exec S as.length s (fun i => as.getD i b) ∧
      ∀ i ≤ as.length, (as.take i).foldlM f s₀ = some (s i) := by
  have hpre : ∀ i, ∃ u, (as.take i).foldlM f s₀ = some u := by
    intro i
    rw [← take_append_drop i as, foldlM_append] at h
    obtain ⟨u, hu, -⟩ := Option.bind_eq_some_iff.1 h
    exact ⟨u, hu⟩
  choose s hs using hpre
  refine ⟨s, ⟨?_, fun i hi => ?_⟩, fun i _ => hs i⟩
  · have h0 := hs 0
    obtain rfl : s₀ = s 0 := by simpa using h0
    exact h₀
  · have h1 := hs (i + 1)
    rw [take_add_one, foldlM_append, hs i, getElem?_eq_getElem hi] at h1
    refine hf _ _ _ ?_
    rw [getD_eq_getElem?_getD, getElem?_eq_getElem hi]
    simpa using h1

end Trace

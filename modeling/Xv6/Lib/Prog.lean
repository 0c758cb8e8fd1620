import Mathlib.Logic.Relation
import Mathlib.Tactic.Ring

/-! Sequential programs over a state `σ`. A run returns a value, or stops where the program
touched memory that is not there (`fault`), or stops with a message (`panic`); the state at that
point is part of the outcome. `Sat` is the pre- and postcondition reading of a run and `forTo` the only
loop shape: a counter that grows until it passes a bound, with an early exit. -/

namespace Prog

inductive Outcome (σ α : Type) where
  | ok (a : α) (s : σ)
  | fault (s : σ)
  | panic (msg : String) (s : σ)

/-- The state at the end. -/
def Outcome.state {σ α : Type} : Outcome σ α → σ
  | .ok _ s => s
  | .fault s => s
  | .panic _ s => s

def Outcome.map {σ τ α : Type} (f : σ → τ) : Outcome σ α → Outcome τ α
  | .ok a s => .ok a (f s)
  | .fault s => .fault (f s)
  | .panic m s => .panic m (f s)

/-- A program: from a state to the outcome of its run. -/
def M (σ α : Type) : Type := σ → Outcome σ α

variable {σ α β : Type} {t s : σ} {x : M σ α} {f : α → M σ β}

namespace M

def pure (a : α) : M σ α := fun s => .ok a s

def bind (x : M σ α) (f : α → M σ β) : M σ β := fun s =>
  match x s with
  | .ok a s' => f a s'
  | .fault s' => .fault s'
  | .panic m s' => .panic m s'

end M

instance : Monad (M σ) where
  pure := M.pure
  bind := M.bind

def get : M σ σ := fun s => .ok s s

def modify (f : σ → σ) : M σ Unit := fun s => .ok () (f s)

def fault : M σ α := fun s => .fault s

protected def panic (m : String) : M σ α := fun s => .panic m s

def check (c : Prop) [Decidable c] (m : String) : M σ Unit :=
  if c then Pure.pure () else Prog.panic m

/-- Run `h` where `x` faults. -/
def catchFault (x h : M σ α) : M σ α := fun s =>
  match x s with
  | .ok a s' => .ok a s'
  | .fault s' => h s'
  | .panic m s' => .panic m s'

/-- `forTo body hi fuel a` runs `body` at `a`, then at the counter it returns, while that stays
below `hi`; `none` from the body leaves the loop, and the result says whether it ran to the end.
A body that always moves the counter up needs no more than `hi - a` rounds. -/
def forTo (body : ℕ → M σ (Option ℕ)) (hi : ℕ) : ℕ → ℕ → M σ Bool
  | 0, _ => Pure.pure true
  | fuel + 1, a =>
    if a < hi then do
      match ← body a with
      | none => Pure.pure false
      | some a' => forTo body hi fuel a'
    else Pure.pure true

/-- `for (a = lo; a < hi; a = next)` -/
def loop (lo hi : ℕ) (body : ℕ → M σ (Option ℕ)) : M σ Bool := forTo body hi (hi - lo) lo

/-- What a run from `s` may do: return with `Q`, fault with `F`, or panic with `N`. -/
def Sat (x : M σ α) (s : σ) (Q : α → σ → Prop) (F : σ → Prop)
    (N : String → σ → Prop) : Prop :=
  match x s with
  | .ok a s' => Q a s'
  | .fault s' => F s'
  | .panic m s' => N m s'

/-- Programs in a row. A rule to rewrite with where two programs are compared; a `LawfulMonad` instance would change what
`simp` makes of the programs everywhere. -/
theorem M.assoc {γ : Type} (x : M σ α) (f : α → M σ β) (h : β → M σ γ) : x >>= f >>= h = x >>= fun a => f a >>= h := by
  funext s
  change M.bind (M.bind x f) h s = M.bind x (fun a => M.bind (f a) h) s
  unfold M.bind
  cases x s <;> rfl

theorem M.pure_bind (a : α) (f : α → M σ β) : (Pure.pure a >>= f) = f a := rfl

theorem bind_congr_left {y : M σ α} (h : x s = y s) : (x >>= f) s = (y >>= f) s := by
  simp only [bind, M.bind, h]

theorem bind_congr_right {g : α → M σ β} (h : ∀ a t, f a t = g a t) : (x >>= f) s = (x >>= g) s := by
  simp only [bind, M.bind, h]

theorem bind_ok {a : α} (h : x s = .ok a t) : (x >>= f) s = f a t := by
  simp only [bind, M.bind, h]

section Rules

variable {x : M σ α} {f : α → M σ β} {s s' : σ} {Q Q' : α → σ → Prop} {R : β → σ → Prop} {F F' : σ → Prop}
  {N N' : String → σ → Prop} {a : α} {m : String} {body : ℕ → M σ (Option ℕ)} {hi : ℕ}

instance [∀ a s', Decidable (Q a s')] [∀ s', Decidable (F s')] [∀ m s', Decidable (N m s')] :
    Decidable (Sat x s Q F N) :=
  match h : x s with
  | .ok a s' => decidable_of_iff (Q a s') (by rw [Sat, h])
  | .fault s' => decidable_of_iff (F s') (by rw [Sat, h])
  | .panic m s' => decidable_of_iff (N m s') (by rw [Sat, h])

theorem sat_pure (h : Q a s) : Sat (Pure.pure a) s Q F N := h

theorem sat_check {c : Prop} [Decidable c] {Q : Unit → σ → Prop}
    (h : c → Q () s) (hn : ¬ c → N m s) : Sat (check c m) s Q F N := by
  unfold check
  split_ifs with hc
  · exact h hc
  · exact hn hc

theorem sat_mono (h : Sat x s Q F N) (hQ : ∀ a s', Q a s' → Q' a s') (hF : ∀ s', F s' → F' s')
    (hN : ∀ m s', N m s' → N' m s') : Sat x s Q' F' N' := by
  unfold Sat at h ⊢
  split at h
  · exact hQ _ _ h
  · exact hF _ h
  · exact hN _ _ h

theorem sat_post (h : Sat x s Q F N) (hQ : ∀ a s', Q a s' → Q' a s') : Sat x s Q' F N :=
  sat_mono h hQ (fun _ h => h) (fun _ _ h => h)

theorem sat_bind (h : Sat x s Q F N) (hf : ∀ a s', Q a s' → Sat (f a) s' R F N) :
    Sat (x >>= f) s R F N := by
  change Sat (M.bind x f) s R F N
  unfold Sat M.bind
  unfold Sat at h
  cases hx : x s with
  | ok a s' => rw [hx] at h; exact hf a s' h
  | fault s' => rw [hx] at h; exact h
  | panic m s' => rw [hx] at h; exact h

/-! The same rules as equations, to run a program symbolically. -/

@[simp] theorem sat_bind_eq : Sat (x >>= f) s R F N = Sat x s (fun a s' => Sat (f a) s' R F N) F N := by
  change Sat (M.bind x f) s R F N = _
  unfold Sat M.bind
  cases x s <;> rfl

@[simp] theorem sat_pure_eq : Sat (Pure.pure a) s Q F N = Q a s := rfl

@[simp] theorem sat_get_eq {Q : σ → σ → Prop} : Sat get s Q F N = Q s s := rfl

@[simp] theorem sat_modify_eq {g : σ → σ} {Q : Unit → σ → Prop} :
    Sat (modify g) s Q F N = Q () (g s) := rfl

/-- A step that is known to return. -/
theorem sat_eval (h : x s = .ok a s') : Sat (x >>= f) s R F N = Sat (f a) s' R F N := by
  change Sat (M.bind x f) s R F N = _
  unfold Sat M.bind
  rw [h]

theorem sat_and (h : Sat x s Q F N) (h' : Sat x s Q' F' N') :
    Sat x s (fun a s' => Q a s' ∧ Q' a s') (fun s' => F s' ∧ F' s') (fun m s' => N m s' ∧ N' m s') := by
  unfold Sat at h h' ⊢
  cases hx : x s with
  | ok a s' => rw [hx] at h h'; exact ⟨h, h'⟩
  | fault s' => rw [hx] at h h'; exact ⟨h, h'⟩
  | panic m s' => rw [hx] at h h'; exact ⟨h, h'⟩

theorem sat_ok (h : Sat x s Q F N) (hx : x s = .ok a s') : Q a s' := by
  unfold Sat at h; rw [hx] at h; exact h

theorem sat_of_fault (h : Sat x s Q F N) (hx : x s = .fault s') : F s' := by
  unfold Sat at h; rw [hx] at h; exact h

theorem sat_of_panic (h : Sat x s Q F N) (hx : x s = .panic m s') : N m s' := by
  unfold Sat at h; rw [hx] at h; exact h

/-- A run that satisfies `Q`, with no fault and no panic allowed, does return. -/
theorem sat_returns (h : Sat x s Q (fun _ => False) (fun _ _ => False)) :
    ∃ a s', x s = .ok a s' ∧ Q a s' := by
  unfold Sat at h
  cases hx : x s with
  | ok a s' => rw [hx] at h; exact ⟨a, s', rfl, h⟩
  | fault s' => rw [hx] at h; exact h.elim
  | panic m s' => rw [hx] at h; exact h.elim

theorem eval_of_sat
    (h : Sat x s (fun b t => b = a ∧ t = s') (fun _ => False) (fun _ _ => False)) : x s = .ok a s' := by
  obtain ⟨b, t, hx, rfl, rfl⟩ := sat_returns h
  exact hx

/-- The loop rule: an invariant indexed by the counter, which every round moves up. -/
theorem sat_forTo {Q : Bool → σ → Prop} (I : ℕ → σ → Prop) (hbody : ∀ a s, a < hi → I a s → Sat (body a) s
      (fun r s' => match r with
        | none => Q false s'
        | some a' => a < a' ∧ I a' s') F N)
    (hend : ∀ a s, hi ≤ a → I a s → Q true s) :
    ∀ fuel a s, hi - a ≤ fuel → I a s → Sat (forTo body hi fuel a) s Q F N := by
  intro fuel
  induction fuel with
  | zero =>
    intro a s hfuel hI
    exact hend a s (by omega) hI
  | succ fuel ih =>
    intro a s hfuel hI
    unfold forTo
    split_ifs with ha
    · refine sat_bind (hbody a s ha hI) ?_
      intro r s' hr
      rcases r with _ | a'
      · exact sat_pure hr
      · exact ih a' s' (by omega) hr.2
    · exact sat_pure (hend a s (by omega) hI)

theorem sat_loop {lo : ℕ} {Q : Bool → σ → Prop} (I : ℕ → σ → Prop) (h0 : I lo s)
    (hbody : ∀ a s, a < hi → I a s → Sat (body a) s
      (fun r s' => match r with
        | none => Q false s'
        | some a' => a < a' ∧ I a' s') F N)
    (hend : ∀ a s, hi ≤ a → I a s → Q true s) : Sat (loop lo hi body) s Q F N :=
  sat_forTo I hbody hend _ lo s le_rfl h0

end Rules

/-! A run read as a chain of small steps `E` between states that carry ghost values `γ`.
`Tr E x s g Q F N` says that wherever the run of `x` from `s` gets, it gets there along `E`; it
returns with `Q`, faults only with `F`, and panics only with a message of `N`. -/

section Trace

open Relation

variable {γ : Type}

def Tr (E : σ × γ → σ × γ → Prop) (x : M σ α) (s : σ) (g : γ) (Q : α → σ → γ → Prop) (F : σ → Prop)
    (N : String → Prop) : Prop :=
  Sat x s (fun a s' => ∃ g', ReflTransGen E (s, g) (s', g') ∧ Q a s' g')
    (fun s' => F s' ∧ ∃ g', ReflTransGen E (s, g) (s', g')) (fun m _ => N m)

variable {E : σ × γ → σ × γ → Prop} {x : M σ α} {f : α → M σ β} {s s' : σ} {g g' : γ} {Q Q' : α → σ → γ → Prop}
  {P : β → σ → γ → Prop} {F F' : σ → Prop} {N N' : String → Prop} {m : String} {t : σ → σ}

theorem tr_pure {a : α} (h : Q a s g) : Tr E (Pure.pure a) s g Q F N := ⟨g, .refl, h⟩

theorem tr_panic (h : N m) : Tr E (Prog.panic m : M σ α) s g Q F N := h

theorem tr_fault (h : F s) : Tr E (fault : M σ α) s g Q F N := ⟨h, g, .refl⟩

/-- Steps before a run. -/
theorem tr_step (h : ReflTransGen E (s, g) (s', g')) (hx : Tr E x s' g' Q F N) : Sat x s'
      (fun a t => ∃ g'', ReflTransGen E (s, g) (t, g'') ∧ Q a t g'')
      (fun t => F t ∧ ∃ g'', ReflTransGen E (s, g) (t, g'')) (fun m _ => N m) := by
  refine sat_mono hx ?_ ?_ (fun _ _ h => h)
  · rintro a t ⟨g'', h1, h2⟩
    exact ⟨g'', h.trans h1, h2⟩
  · rintro t ⟨hF, g'', h1⟩
    exact ⟨hF, g'', h.trans h1⟩

theorem tr_bind (h : Tr E x s g Q F N)
    (hf : ∀ a s' g', ReflTransGen E (s, g) (s', g') → Q a s' g' → Tr E (f a) s' g' P F N) :
    Tr E (x >>= f) s g P F N := by
  refine sat_bind h ?_
  rintro a s' ⟨g', h1, h2⟩
  exact tr_step h1 (hf a s' g' h1 h2)

theorem tr_get {f : σ → M σ β} (h : Tr E (f s) s g P F N) : Tr E (get >>= f) s g P F N := by
  unfold Tr at h ⊢
  rw [sat_bind_eq, sat_get_eq]
  exact h

/-- An update that the steps from `g` to `g'` account for. -/
theorem tr_modify {f : Unit → M σ β} (h : ReflTransGen E (s, g) (t s, g'))
    (hf : Tr E (f ()) (t s) g' P F N) : Tr E (modify t >>= f) s g P F N := by
  unfold Tr
  rw [sat_bind_eq, sat_modify_eq]
  exact tr_step h hf

theorem tr_modify_end {Q : Unit → σ → γ → Prop}
    (h : ReflTransGen E (s, g) (t s, g')) (hQ : Q () (t s) g') : Tr E (modify t) s g Q F N :=
  ⟨g', h, hQ⟩

theorem tr_check {c : Prop} [Decidable c] {f : Unit → M σ β}
    (h : c → Tr E (f ()) s g P F N) (hn : ¬ c → N m) : Tr E (check c m >>= f) s g P F N := by
  unfold check
  split_ifs with hc
  · exact h hc
  · exact hn hc

theorem tr_mono (h : Tr E x s g Q F N)
    (hQ : ∀ a s' g', ReflTransGen E (s, g) (s', g') → Q a s' g' → Q' a s' g') (hF : ∀ s', F s' → F' s')
    (hN : ∀ m, N m → N' m) : Tr E x s g Q' F' N' :=
  sat_mono h (fun a s' ⟨g', h1, h2⟩ => ⟨g', h1, hQ a s' g' h1 h2⟩) (fun s' h => ⟨hF s' h.1, h.2⟩)
    (fun m _ h => hN m h)

theorem tr_post (h : Tr E x s g Q F N)
    (hQ : ∀ a s' g', ReflTransGen E (s, g) (s', g') → Q a s' g' → Q' a s' g') :
    Tr E x s g Q' F N :=
  tr_mono h hQ (fun _ => id) fun _ => id

/-- What is known of the run apart from its steps. -/
theorem tr_and_sat {Q' : α → σ → Prop} {N' : String → σ → Prop} (h : Tr E x s g Q F N) (h' : Sat x s Q' F' N') :
    Tr E x s g (fun a s' g' => Q a s' g' ∧ Q' a s') (fun s' => F s' ∧ F' s') N := by
  refine sat_mono (sat_and h h') ?_ ?_ fun _ _ h => h.1
  · rintro a s' ⟨⟨g', h1, h2⟩, h3⟩
    exact ⟨g', h1, h2, h3⟩
  · rintro s' ⟨⟨h1, g', h2⟩, h3⟩
    exact ⟨⟨h1, h3⟩, g', h2⟩

/-- The loop rule for traces. -/
theorem tr_loop {body : ℕ → M σ (Option ℕ)} {lo hi : ℕ} {Q : Bool → σ → γ → Prop}
    (I : ℕ → σ → γ → Prop) (h0 : I lo s g)
    (hbody : ∀ a s' g', ReflTransGen E (s, g) (s', g') → a < hi → I a s' g' → Tr E (body a) s' g'
      (fun r s'' g'' => match r with
        | none => Q false s'' g''
        | some a' => a < a' ∧ I a' s'' g'') F N)
    (hend : ∀ a s' g', ReflTransGen E (s, g) (s', g') → hi ≤ a → I a s' g' → Q true s' g') :
    Tr E (loop lo hi body) s g Q F N := by
  refine sat_loop (fun a t => ∃ g', ReflTransGen E (s, g) (t, g') ∧ I a t g') ⟨g, .refl, h0⟩ ?_ ?_
  · rintro a t ha ⟨g', h1, h2⟩
    refine sat_post (tr_step h1 (hbody a t g' h1 ha h2)) ?_
    rintro r t' ⟨g'', h3, h4⟩
    rcases r with _ | a'
    · exact ⟨g'', h3, h4⟩
    · exact ⟨h4.1, g'', h3, h4.2⟩
  · rintro a t ha ⟨g', h1, h2⟩
    exact ⟨g', h1, hend a t g' h1 ha h2⟩

end Trace

end Prog

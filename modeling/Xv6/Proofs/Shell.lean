import Xv6.Proofs.ShellTokens

/-! The parser of the shell accepts its grammar, and gives the tree that the derivation denotes. -/

namespace Xv6.Shell

open Nat

open List (length_cons cons_append append_assoc nil_append length_append)

variable {k argc n : ℕ} {t t' : Tree} {ts us : List Tok} {toks toks' : List UInt8} {f g : Tree → Tree}
  {w : List UInt8} {ws : List (List UInt8)} {r : Tok} {α β : Type} {s line : Ptr} {c : Cmd} {x r' : Except Stop α}

/-! ### Soundness -/

def Tree.addArgs (ws : List (List UInt8)) (t : Tree) : Tree := ws.foldl (fun t w => t.addArg w) t

/-- Redirections go around a command, arguments into it. -/
theorem Redir.addArg (h : Redir ts f) (t : Tree) (w : List UInt8) : (f t).addArg w = f (t.addArg w) := by
  cases h <;> rfl

theorem Redirs.addArg (h : Redirs ts f) (t : Tree) (w : List UInt8) : (f t).addArg w = f (t.addArg w) := by
  induction h generalizing t with
  | nil => rfl
  | cons h _ ih => rw [Function.comp_apply, ih, h.addArg, Function.comp_apply]

theorem Redirs.addArgs (h : Redirs ts f) (t : Tree) (ws : List (List UInt8)) :
    (f t).addArgs ws = f (t.addArgs ws) := by
  induction ws generalizing t with
  | nil => rfl
  | cons w ws ih =>
    have h1 : (f t).addArgs (w :: ws) = ((f t).addArg w).addArgs ws := rfl
    rw [h1, h.addArg, ih]
    rfl

theorem addArgs_exec (ws vs : List (List UInt8)) : Tree.addArgs ws (.exec vs) = .exec (vs ++ ws) := by
  induction ws generalizing vs with
  | nil => simp [Tree.addArgs]
  | cons w ws ih =>
    have h1 : Tree.addArgs (w :: ws) (.exec vs) = Tree.addArgs ws (.exec (vs ++ [w])) := rfl
    rw [h1, ih]
    simp

/-- The tokens that `peek` asks for alone. -/
def single : List Tok := [.bar, .lpar, .rpar, .semi, .amp]

theorem eq_of_peek (hr : r ∈ single) (hp : peekT ts [r.char] = true) : ts = r :: ts.tail := by
  cases ts with
  | nil => simp [peekT] at hp
  | cons x ts =>
    have hx : x.char = r.char := by simpa [peekT] using hp
    have h0 : ∀ r ∈ single, r.char ≠ 0 := by decide
    have hinj : ∀ x ∈ [Tok.bar, .lpar, .rpar, .semi, .amp, .lt, .gt, .gtgt], ∀ r ∈ single,
        x.char = r.char → x = r := by decide
    cases x with
    | word w => exact absurd hx.symm (h0 r hr)
    | _ => exact congrArg (· :: ts) (hinj _ (by decide) r hr hx)

/-- A redirection that is seen is one of the grammar. -/
theorem redir_of_peek (hp : peekT (r :: ts) [LT, GT] = true) (w : List UInt8) :
    Redir [r, .word w] (fun t => r.redirect w t) := by
  cases r with
  | lt => exact .lt w
  | gt => exact .gt w
  | gtgt => exact .gtgt w
  | _ => exact absurd hp (by simp [peekT, Tok.char]; decide)

theorem redirsT_sound (h : redirsT k t ts = .ok (t', us)) :
    ∃ rs f, ts = rs ++ us ∧ Redirs rs f ∧ t' = f t := by
  induction k generalizing t ts with
  | zero => simp [redirsT] at h
  | succ k ih =>
    rw [redirsT_succ] at h
    split_ifs at h with hp
    · split at h
      · rename_i r w vs
        obtain ⟨rs, f, rfl, hr, rfl⟩ := ih h
        exact ⟨_, _, rfl, .cons (redir_of_peek hp w) hr, rfl⟩
      · simp at h
    · obtain ⟨rfl, rfl⟩ : t = t' ∧ ts = us := by simpa using h
      exact ⟨[], id, rfl, .nil, rfl⟩

theorem bind_eq_ok {f : α → Except Stop β} {b : β} (h : (x >>= f) = .ok b) : ∃ a, x = .ok a ∧ f a = .ok b := by
  cases x with
  | error e => simp [bind, Except.bind] at h
  | ok a => exact ⟨a, rfl, h⟩

theorem bind_of_eq_ok {a : α} (h : x = .ok a) (f : α → Except Stop β) : (x >>= f) = f a := by
  rw [h]
  rfl

theorem argsT_sound (hn : argc ≤ MAXARGS - 1) (h : argsT k argc t ts = .ok (t', us)) :
    ∃ as ws g, ts = as ++ us ∧ Args as ws g ∧ t' = g (t.addArgs ws) ∧ argc + ws.length ≤ MAXARGS - 1 := by
  induction k generalizing argc t ts with
  | zero => simp [argsT] at h
  | succ k ih =>
    rw [argsT_succ] at h
    by_cases hp : peekT ts [BAR, RPAR, AMP, SEMI] = true
    · rw [if_pos hp] at h
      obtain ⟨rfl, rfl⟩ : t = t' ∧ ts = us := by simpa using h
      exact ⟨[], [], id, rfl, .nil, rfl, hn⟩
    · rw [if_neg hp] at h
      split at h
      · obtain ⟨rfl, rfl⟩ : t = t' ∧ [] = us := by simpa using h
        exact ⟨[], [], id, rfl, .nil, rfl, hn⟩
      · rename_i w vs
        split_ifs at h with hmax
        obtain ⟨⟨t₁, ts₁⟩, hr, h⟩ := bind_eq_ok h
        obtain ⟨rs, f, rfl, hrs, rfl⟩ := redirsT_sound hr
        have hn' : argc + 1 ≤ MAXARGS - 1 := by
          unfold MAXARGS at *
          omega
        obtain ⟨as, ws, g, rfl, ha, rfl, hlen⟩ := ih hn' h
        refine ⟨_, w :: ws, g ∘ f, ?_, .cons hrs ha, ?_, ?_⟩
        · simp
        · rw [hrs.addArgs]
          rfl
        · rw [length_cons]
          omega
      · simp at h

theorem backsT_sound (h : backsT k t ts = .ok (t', us)) :
    ∃ n, ts = List.replicate n .amp ++ us ∧ t' = backs n t := by
  induction k generalizing t ts with
  | zero => simp [backsT] at h
  | succ k ih =>
    rw [backsT] at h
    split_ifs at h with hp
    · obtain ⟨n, hts, rfl⟩ := ih h
      refine ⟨n + 1, ?_, rfl⟩
      rw [eq_of_peek (r := .amp) (by decide) hp, hts, List.replicate_succ, cons_append]
    · obtain ⟨rfl, rfl⟩ : t = t' ∧ ts = us := by simpa using h
      exact ⟨0, rfl, rfl⟩

theorem parseT_sound (k : ℕ) : (∀ ts t us, lineT k ts = .ok (t, us) → ∃ xs, ts = xs ++ us ∧ Line xs t) ∧
    (∀ ts t us, pipeT k ts = .ok (t, us) → ∃ xs, ts = xs ++ us ∧ Pipe xs t) ∧
    (∀ ts t us, execT k ts = .ok (t, us) → ∃ xs, ts = xs ++ us ∧ Command xs t) ∧
    ∀ ts t us, blockT k ts = .ok (t, us) → ∃ xs, ts = xs ++ us ∧ Command xs t := by
  induction k with
  | zero => simp [lineT, pipeT, execT, blockT]
  | succ k ih =>
    obtain ⟨hline, hpipe, hexec, hblock⟩ := ih
    refine ⟨fun ts t us h => ?_, fun ts t us h => ?_, fun ts t us h => ?_, fun ts t us h => ?_⟩
    · rw [lineT] at h
      obtain ⟨⟨t₁, us₁⟩, h1, h2⟩ := bind_eq_ok h
      obtain ⟨⟨t₂, us₂⟩, h3, h4⟩ := bind_eq_ok h2
      obtain ⟨xs, rfl, hx⟩ := hpipe _ _ _ h1
      obtain ⟨n, rfl, rfl⟩ := backsT_sound h3
      split_ifs at h4 with hp
      · obtain ⟨⟨t₃, us₃⟩, h5, h6⟩ := bind_eq_ok h4
        obtain ⟨ys, hys, hy⟩ := hline _ _ _ h5
        obtain ⟨rfl, rfl⟩ : _ = t ∧ us₃ = us := by simpa using h6
        have hus : us₂ = .semi :: (ys ++ us₃) := (eq_of_peek (by decide) hp).trans (congrArg (Tok.semi :: ·) hys)
        refine ⟨_, ?_, .cons hx hy⟩
        rw [hus]
        simp
      · obtain ⟨rfl, rfl⟩ : _ = t ∧ us₂ = us := by simpa using h4
        exact ⟨_, by rw [append_assoc], .one hx⟩
    · rw [pipeT] at h
      obtain ⟨⟨t₁, us₁⟩, h1, h2⟩ := bind_eq_ok h
      obtain ⟨xs, rfl, hx⟩ := hexec _ _ _ h1
      split_ifs at h2 with hp
      · obtain ⟨⟨t₃, us₃⟩, h3, h4⟩ := bind_eq_ok h2
        obtain ⟨ys, hys, hy⟩ := hpipe _ _ _ h3
        obtain ⟨rfl, rfl⟩ : _ = t ∧ us₃ = us := by simpa using h4
        have hus : us₁ = .bar :: (ys ++ us₃) := (eq_of_peek (by decide) hp).trans (congrArg (Tok.bar :: ·) hys)
        refine ⟨_, ?_, .cons hx hy⟩
        rw [hus]
        simp
      · obtain ⟨rfl, rfl⟩ : _ = t ∧ us₁ = us := by simpa using h2
        exact ⟨xs, rfl, .one hx⟩
    · rw [execT] at h
      split_ifs at h with hp
      · exact hblock _ _ _ h
      · obtain ⟨⟨t₁, us₁⟩, h1, h2⟩ := bind_eq_ok h
        obtain ⟨rs, f, rfl, hr, rfl⟩ := redirsT_sound h1
        obtain ⟨as, ws, g, rfl, ha, rfl, hlen⟩ := argsT_sound (zero_le _) h2
        refine ⟨rs ++ as, by rw [append_assoc], ?_⟩
        rw [hr.addArgs, addArgs_exec, nil_append]
        exact .simple hr ha (by omega)
    · rw [blockT] at h
      split_ifs at h with hp
      obtain ⟨⟨t₁, us₁⟩, h1, h2⟩ := bind_eq_ok h
      obtain ⟨xs, hxs, hx⟩ := hline _ _ _ h1
      split_ifs at h2 with hq
      obtain ⟨rs, f, hrs, hr, rfl⟩ := redirsT_sound h2
      have hus : us₁ = .rpar :: (rs ++ us) :=
        (eq_of_peek (by decide) (eq_true_of_ne_false hq)).trans (congrArg (Tok.rpar :: ·) hrs)
      have hts : ts = .lpar :: (xs ++ us₁) :=
        (eq_of_peek (by decide) (eq_true_of_ne_false hp)).trans (congrArg (Tok.lpar :: ·) hxs)
      refine ⟨_, ?_, .block hx hr⟩
      rw [hts, hus]
      simp

/-! ### Completeness -/

/-- The next token, if there is one, is one of `toks`. -/
def Follow (us : List Tok) (toks : List UInt8) : Prop := us = [] ∨ peekT us toks = true

theorem Follow.mono (h : Follow us toks) (hsub : toks ⊆ toks') : Follow us toks' := by
  rcases h with rfl | h
  · exact .inl rfl
  · right
    cases us with
    | nil => simp [peekT] at h
    | cons t us =>
      have ht : t.char ∈ toks := by simpa [peekT] using h
      simpa [peekT] using hsub ht

theorem Follow.not_peek (h : Follow us toks) (hd : toks.all (· ∉ toks') = true) : peekT us toks' = false := by
  rcases h with rfl | h
  · rfl
  · cases us with
    | nil => rfl
    | cons t us =>
      have ht : t.char ∈ toks := by simpa [peekT] using h
      simpa [peekT] using List.all_eq_true.1 hd _ ht

theorem Redirs.peek_false (h : Redirs ts f) (hd : LT ∉ toks ∧ GT ∉ toks)
    (hu : peekT us toks = false) : peekT (ts ++ us) toks = false := by
  cases h with
  | nil => exact hu
  | cons h _ =>
    cases h with
    | lt => exact decide_eq_false hd.1
    | gt => exact decide_eq_false hd.2
    | gtgt => exact decide_eq_false hd.2

theorem Args.peek_false (h : Args ts ws g) (hd : 0 ∉ toks) (hu : peekT us toks = false) :
    peekT (ts ++ us) toks = false := by
  cases h with
  | nil => exact hu
  | cons _ _ => exact decide_eq_false hd

theorem redirsT_complete (h : Redirs ts f) (hk : ts.length < k) (hu : peekT us [LT, GT] = false) :
    redirsT k t (ts ++ us) = .ok (f t, us) := by
  induction h generalizing k t with
  | nil =>
    obtain ⟨k, rfl⟩ := Nat.exists_eq_add_of_lt hk
    rw [redirsT_succ, nil_append, if_neg (by simp [hu])]
    rfl
  | @cons rs vs f g hr hs ih =>
    obtain ⟨k, rfl⟩ : ∃ j, k = j + 1 := ⟨k - 1, by omega⟩
    have hlen : vs.length < k := by
      rw [length_append] at hk
      cases hr <;> simp at hk <;> omega
    rw [redirsT_succ]
    cases hr with
    | lt w => exact (if_pos rfl).trans (ih hlen)
    | gt w => exact (if_pos rfl).trans (ih hlen)
    | gtgt w => exact (if_pos rfl).trans (ih hlen)

theorem argsT_complete (h : Args ts ws g) (hk : ts.length < k) (hn : argc + ws.length ≤ MAXARGS - 1)
    (hu : Follow us [BAR, RPAR, AMP, SEMI]) : argsT k argc t (ts ++ us) = .ok (g (t.addArgs ws), us) := by
  induction h generalizing k argc t with
  | nil =>
    obtain ⟨k, rfl⟩ := Nat.exists_eq_add_of_lt hk
    rw [argsT_succ, nil_append]
    rcases hu with rfl | hu
    · rfl
    · rw [if_pos hu]
      rfl
  | @cons w rs vs ws f g hr hs ih =>
    obtain ⟨k, rfl⟩ : ∃ j, k = j + 1 := ⟨k - 1, by omega⟩
    rw [length_cons] at hn
    rw [length_append, length_cons] at hk
    have hmax : ¬ MAXARGS ≤ argc + 1 := by
      unfold MAXARGS at *
      omega
    have hnext : peekT (vs ++ us) [LT, GT] = false :=
      hs.peek_false (by decide) (hu.not_peek (by decide))
    have hr' : redirsT k (t.addArg w) (rs ++ (vs ++ us)) = .ok (f (t.addArg w), vs ++ us) :=
      redirsT_complete hr (by omega) hnext
    have hs' : argsT k (argc + 1) (f (t.addArg w)) (vs ++ us) = .ok (g ((f (t.addArg w)).addArgs ws), us) :=
      ih (by omega) (by omega)
    rw [append_assoc, cons_append, argsT_succ]
    refine (if_neg (by simp [peekT, Tok.char]; decide)).trans ?_
    refine (if_neg hmax).trans ?_
    rw [hr']
    refine hs'.trans ?_
    rw [hr.addArgs]
    rfl

theorem backsT_complete (hk : n < k) (hu : peekT us [AMP] = false) :
    backsT k t (List.replicate n .amp ++ us) = .ok (backs n t, us) := by
  induction n generalizing k t with
  | zero =>
    obtain ⟨k, rfl⟩ := Nat.exists_eq_add_of_lt hk
    rw [backsT, List.replicate_zero, nil_append, if_neg (by simp [hu])]
    rfl
  | succ n ih =>
    obtain ⟨k, rfl⟩ : ∃ j, k = j + 1 := ⟨k - 1, by omega⟩
    rw [backsT, List.replicate_succ, cons_append]
    exact (if_pos rfl).trans (ih (by omega))

theorem follow_cons (h : r.char ∈ toks) : Follow (r :: us) toks := .inr (decide_eq_true h)

theorem follow_backs (h : Follow us [RPAR, AMP, SEMI]) : Follow (List.replicate n .amp ++ us) [RPAR, AMP, SEMI] := by
  cases n with
  | zero => exact h
  | succ n => exact follow_cons (by decide)

theorem parseT_complete (k : ℕ) :
    (∀ ts t us, Line ts t → 4 * ts.length + 4 ≤ k → Follow us [RPAR] → lineT k (ts ++ us) = .ok (t, us)) ∧
    (∀ ts t us, Pipe ts t → 4 * ts.length + 3 ≤ k → Follow us [RPAR, AMP, SEMI] →
      pipeT k (ts ++ us) = .ok (t, us)) ∧
    (∀ ts t us, Command ts t → 4 * ts.length + 2 ≤ k → Follow us [BAR, RPAR, AMP, SEMI] →
      execT k (ts ++ us) = .ok (t, us)) ∧
    ∀ ts t us rs f, Line ts t → Redirs rs f → 4 * (ts.length + rs.length + 2) + 1 ≤ k →
      Follow us [BAR, RPAR, AMP, SEMI] → blockT k (.lpar :: (ts ++ .rpar :: (rs ++ us))) = .ok (f t, us) := by
  induction k with
  | zero => simp
  | succ k ih =>
    obtain ⟨hline, hpipe, hexec, hblock⟩ := ih
    refine ⟨fun ts t us h hk hu => ?_, fun ts t us h hk hu => ?_, fun ts t us h hk hu => ?_,
      fun ts t us rs f h hr hk hu => ?_⟩
    · rw [lineT]
      cases h with
      | @one xs t n h =>
        rw [length_append, List.length_replicate] at hk
        have hu' : Follow us [RPAR, AMP, SEMI] := hu.mono (by decide)
        have hx := hpipe xs t (List.replicate n .amp ++ us) h (by omega) (follow_backs hu')
        have hb : backsT k t (List.replicate n .amp ++ us) = .ok (backs n t, us) :=
          backsT_complete (by omega) (hu.not_peek (by decide))
        rw [append_assoc, bind_of_eq_ok hx, bind_of_eq_ok hb]
        have hsemi : peekT us [SEMI] = false := hu.not_peek (by decide)
        exact if_neg (by simp [hsemi])
      | @cons xs ys t u n h hs =>
        simp only [length_append, length_cons, List.length_replicate] at hk
        have hy := hline ys u us hs (by omega) hu
        have hu' : Follow (.semi :: (ys ++ us)) [RPAR, AMP, SEMI] := follow_cons (by decide)
        have hx := hpipe xs t (List.replicate n .amp ++ .semi :: (ys ++ us)) h (by omega) (follow_backs hu')
        have hb : backsT k t (List.replicate n .amp ++ .semi :: (ys ++ us)) = .ok (backs n t, .semi :: (ys ++ us)) :=
          backsT_complete (by omega) rfl
        rw [append_assoc, append_assoc, cons_append, bind_of_eq_ok hx, bind_of_eq_ok hb]
        exact (if_pos rfl).trans (bind_of_eq_ok hy _)
    · rw [pipeT]
      cases h with
      | one h =>
        rw [bind_of_eq_ok (hexec ts t us h (by omega) (hu.mono (by decide)))]
        have hbar : peekT us [BAR] = false := hu.not_peek (by decide)
        exact if_neg (by simp [hbar])
      | @cons xs ys t u h hs =>
        rw [length_append, length_cons] at hk
        have hy := hpipe ys u us hs (by omega) hu
        have hx := hexec xs t (.bar :: (ys ++ us)) h (by omega) (follow_cons (by decide))
        rw [append_assoc, cons_append, bind_of_eq_ok hx]
        exact (if_pos rfl).trans (bind_of_eq_ok hy _)
    · rw [execT]
      cases h with
      | @block xs rs t f h hr =>
        simp only [length_append, length_cons] at hk
        rw [append_assoc, cons_append, cons_append]
        exact (if_pos rfl).trans (hblock xs t us rs f h hr (by omega) hu)
      | @simple rs as ws f g hr ha hn =>
        rw [length_append] at hk
        have hlpar : peekT (rs ++ (as ++ us)) [LPAR] = false :=
          hr.peek_false (by decide) (ha.peek_false (by decide) (hu.not_peek (by decide)))
        have hnext : peekT (as ++ us) [LT, GT] = false := ha.peek_false (by decide) (hu.not_peek (by decide))
        rw [append_assoc, if_neg (by simp [hlpar]), bind_of_eq_ok (redirsT_complete hr (by omega) hnext)]
        refine (argsT_complete ha (by omega) (by omega) hu).trans ?_
        rw [hr.addArgs, addArgs_exec, nil_append]
    · rw [blockT, if_neg (by simp [peekT, Tok.char])]
      have hx := hline ts t (.rpar :: (rs ++ us)) h (by omega) (follow_cons (by decide))
      rw [List.tail_cons, bind_of_eq_ok hx]
      refine (if_neg (by simp [peekT, Tok.char])).trans ?_
      exact redirsT_complete hr (by omega) (hu.not_peek (by decide))

/-! ### Enough rounds -/

theorem bind_ne_fuel {f : α → Except Stop β} (hx : x ≠ .error .fuel)
    (hf : ∀ a, x = .ok a → f a ≠ .error .fuel) : (x >>= f) ≠ .error .fuel := by
  cases x with
  | error e =>
    intro h
    exact hx (by simpa [bind, Except.bind] using h)
  | ok a => exact hf a rfl

theorem length_of_peek (h : peekT ts toks = true) : ts.length = ts.tail.length + 1 := by
  cases ts with
  | nil => simp [peekT] at h
  | cons t ts => rfl

theorem length_le_of_eq {xs : List Tok} (h : ts = xs ++ us) : us.length ≤ ts.length := by
  rw [h, length_append]
  exact le_add_left _ _

theorem redirsT_ne_fuel (hk : ts.length < k) : redirsT k t ts ≠ .error .fuel := by
  induction k generalizing t ts with
  | zero => exact absurd hk (not_lt_zero _)
  | succ k ih =>
    rw [redirsT_succ]
    split_ifs
    · split
      · rw [length_cons, length_cons] at hk
        exact ih (by omega)
      · simp
    · simp

theorem argsT_ne_fuel (hk : ts.length < k) : argsT k argc t ts ≠ .error .fuel := by
  induction k generalizing argc t ts with
  | zero => exact absurd hk (not_lt_zero _)
  | succ k ih =>
    rw [argsT_succ]
    by_cases hp : peekT ts [BAR, RPAR, AMP, SEMI] = true
    · rw [if_pos hp]
      simp
    · rw [if_neg hp]
      split
      · simp
      · rename_i w vs
        rw [length_cons] at hk
        split_ifs
        · simp
        · apply bind_ne_fuel (redirsT_ne_fuel (by omega))
          intro ⟨t', us⟩ hr
          obtain ⟨rs, f, hvs, -⟩ := redirsT_sound hr
          have := length_le_of_eq hvs
          dsimp only
          exact ih (by omega)
      · simp

theorem backsT_ne_fuel (hk : ts.length < k) : backsT k t ts ≠ .error .fuel := by
  induction k generalizing t ts with
  | zero => exact absurd hk (not_lt_zero _)
  | succ k ih =>
    rw [backsT]
    split_ifs with hp
    · have := length_of_peek hp
      exact ih (by omega)
    · simp

theorem parseT_ne_fuel (k : ℕ) : (∀ ts, 4 * ts.length + 4 ≤ k → lineT k ts ≠ .error .fuel) ∧
    (∀ ts, 4 * ts.length + 3 ≤ k → pipeT k ts ≠ .error .fuel) ∧
    (∀ ts, 4 * ts.length + 2 ≤ k → execT k ts ≠ .error .fuel) ∧
    ∀ ts, 4 * ts.length + 1 ≤ k → blockT k ts ≠ .error .fuel := by
  induction k with
  | zero => simp
  | succ k ih =>
    obtain ⟨hline, hpipe, hexec, hblock⟩ := ih
    obtain ⟨sline, spipe, sexec, -⟩ := parseT_sound k
    refine ⟨fun ts hk => ?_, fun ts hk => ?_, fun ts hk => ?_, fun ts hk => ?_⟩
    · rw [lineT]
      apply bind_ne_fuel (hpipe ts (by omega))
      intro r hr
      obtain ⟨xs, hxs, -⟩ := spipe ts r.1 r.2 hr
      have hle := length_le_of_eq hxs
      apply bind_ne_fuel (backsT_ne_fuel (by omega))
      rintro ⟨t', us⟩ hr'
      obtain ⟨n, hn, -⟩ := backsT_sound hr'
      have hle' := length_le_of_eq hn
      dsimp only
      split_ifs with hp
      · have := length_of_peek hp
        exact bind_ne_fuel (hline _ (by omega)) fun _ _ => by simp
      · simp
    · rw [pipeT]
      apply bind_ne_fuel (hexec ts (by omega))
      intro r hr
      obtain ⟨xs, hxs, -⟩ := sexec ts r.1 r.2 hr
      have hle := length_le_of_eq hxs
      split_ifs with hp
      · have := length_of_peek hp
        exact bind_ne_fuel (hpipe _ (by omega)) fun _ _ => by simp
      · simp
    · rw [execT]
      split_ifs
      · exact hblock ts (by omega)
      · apply bind_ne_fuel (redirsT_ne_fuel (by omega))
        rintro ⟨t', us⟩ hr
        obtain ⟨rs, f, hrs, -⟩ := redirsT_sound hr
        have := length_le_of_eq hrs
        dsimp only
        exact argsT_ne_fuel (by omega)
    · rw [blockT]
      split_ifs with hp
      · simp
      · have hlen := length_of_peek (eq_true_of_ne_false hp)
        apply bind_ne_fuel (hline _ (by omega))
        intro r hr
        obtain ⟨xs, hxs, -⟩ := sline _ r.1 r.2 hr
        have hle := length_le_of_eq hxs
        split_ifs with hq
        · simp
        · have := length_of_peek (eq_true_of_ne_false hq)
          exact redirsT_ne_fuel (by omega)

theorem length_tokens_le (s : List UInt8) : (tokens s).length ≤ s.length := by
  fun_induction tokens s with
  | case1 => exact le_refl _
  | case2 c s hc ih => exact le_succ_of_le ih
  | case3 c s hc hg ih =>
    rw [List.length_tail] at ih
    rw [length_cons, length_cons]
    omega
  | case4 c s hc hg t ht ih => exact succ_le_succ ih
  | case5 c s hc hg ht ih =>
    exact succ_le_succ (ih.trans (List.dropWhile_sublist _).length_le)

/-! ### More rounds change nothing -/

/-- The second result is the first one, unless that used up its rounds. -/
def Le {α : Type} (r r' : Except Stop α) : Prop := r = .error .fuel ∨ r = r'

theorem Le.refl (r : Except Stop α) : Le r r := .inr rfl

theorem Le.bind {r : Except Stop α} {f f' : α → Except Stop β} (h : Le r r')
    (hf : ∀ a, Le (f a) (f' a)) : Le (r >>= f) (r' >>= f') := by
  rcases h with rfl | rfl
  · exact .inl rfl
  · cases r with
    | error e => exact .inr rfl
    | ok a => exact hf a

theorem Le.ite {c : Prop} [Decidable c] {r q q' : Except Stop α} (hr : Le r r') (hq : Le q q') :
    Le (if c then r else q) (if c then r' else q') := by
  split_ifs
  · exact hr
  · exact hq

theorem parseredirs_le (c : Cmd) (s : Ptr) : Le (parseredirs k c s) (parseredirs (k + 1) c s) := by
  induction k generalizing c s with
  | zero => exact .inl rfl
  | succ k ih =>
    rw [parseredirs, parseredirs]
    exact (Le.ite (.refl _) (ih _ _)).ite (.refl _)

theorem parseargs_le (c : Cmd) (s : Ptr) : Le (parseargs k argc c s) (parseargs (k + 1) argc c s) := by
  induction k generalizing argc c s with
  | zero => exact .inl rfl
  | succ k ih =>
    rw [parseargs, parseargs]
    apply (Le.refl _).ite
    apply (Le.refl _).ite
    apply (Le.refl _).ite
    apply (Le.refl _).ite
    exact (parseredirs_le _ _).bind fun r => ih r.1 r.2

theorem parsebacks_le (c : Cmd) (s : Ptr) : Le (parsebacks k c s) (parsebacks (k + 1) c s) := by
  induction k generalizing c s with
  | zero => exact .inl rfl
  | succ k ih =>
    rw [parsebacks, parsebacks]
    exact (ih _ _).ite (.refl _)

theorem parse_le (k : ℕ) : (∀ s, Le (parseline k s) (parseline (k + 1) s)) ∧
    (∀ s, Le (parsepipe k s) (parsepipe (k + 1) s)) ∧ (∀ s, Le (parseexec k s) (parseexec (k + 1) s)) ∧
    ∀ s, Le (parseblock k s) (parseblock (k + 1) s) := by
  induction k with
  | zero => exact ⟨fun _ => .inl rfl, fun _ => .inl rfl, fun _ => .inl rfl, fun _ => .inl rfl⟩
  | succ k ih =>
    obtain ⟨hline, hpipe, hexec, hblock⟩ := ih
    refine ⟨fun s => ?_, fun s => ?_, fun s => ?_, fun s => ?_⟩
    · rw [parseline, parseline]
      apply (hpipe s).bind
      intro r
      apply (parsebacks_le r.1 r.2).bind
      intro r
      exact ((hline _).bind fun _ => .refl _).ite (.refl _)
    · rw [parsepipe, parsepipe]
      apply (hexec s).bind
      intro r
      exact ((hpipe _).bind fun _ => .refl _).ite (.refl _)
    · rw [parseexec, parseexec]
      exact (hblock _).ite ((parseredirs_le _ _).bind fun r => parseargs_le r.1 r.2)
    · rw [parseblock, parseblock]
      apply (Le.refl _).ite
      apply (hline _).bind
      intro r
      exact (Le.refl _).ite (parseredirs_le _ _)

theorem parsecmd_le (s : Ptr) : Le (parsecmd k s) (parsecmd (k + 1) s) :=
  ((parse_le k).1 s).bind fun _ => .refl _

theorem parsecmd_stable (h : parsecmd k s ≠ .error .fuel) {j : ℕ} (hj : k ≤ j) : parsecmd j s = parsecmd k s := by
  induction j, hj using le_induction with
  | base => rfl
  | succ j _ ih =>
    rcases parsecmd_le (k := j) s with he | he
    · exact absurd (ih.symm.trans he) h
    · exact he.symm.trans ih

/-! ### The strings after `nulterminate` -/

/-- What `nulterminate` keeps of the line. -/
structure Keeps (line buf : List UInt8) : Prop where
  length : buf.length = line.length + 1
  word : ∀ (i : ℕ) c, (line)[i]? = some c → isWord c = true → buf[i]? = some c

/-- Bytes that are zero stay zero. -/
def Zeros (buf buf' : List UInt8) : Prop := ∀ i : ℕ, buf[i]? = some 0 → buf'[i]? = some 0

section

variable {line buf buf' : List UInt8} {q eq : Ptr} {c : Cmd}

theorem zeros_clear (n : ℕ) (p : Ptr) : Zeros buf (clear n buf p) := by
  intro i hi
  rw [clear, List.getElem?_set]
  split_ifs with h1 h2
  · rfl
  · rw [List.getElem?_eq_none (by omega)] at hi
    simp at hi
  · exact hi

theorem Keeps.clear_self (h : Keeps line buf) (p : Ptr) :
    (clear line.length buf p)[line.length - p.length]? = some 0 := by
  have hlt : line.length - p.length < buf.length := by
    rw [h.length]
    omega
  rw [clear, List.getElem?_set, if_pos rfl, if_pos hlt]

/-- The end of a word is not a byte of any word. -/
theorem Keeps.clear (h : Keeps line buf) (hw : WordAt line q eq) : Keeps line (clear line.length buf eq) where
  length := by rw [Shell.clear, List.length_set, h.length]
  word i c hi hc := by
    obtain ⟨⟨pre, rfl⟩, w, rfl, -, -, hend⟩ := hw
    rw [Shell.clear, List.getElem?_set_ne, h.word i c hi hc]
    rintro rfl
    have hidx : (pre ++ (w ++ eq)).length - eq.length = (pre ++ w).length := by
      simp only [length_append]
      omega
    rw [hidx, ← append_assoc, List.getElem?_append_right (Nat.le_refl _), Nat.sub_self,
      ← List.head?_eq_getElem?] at hi
    rw [hend c hi] at hc
    simp at hc

theorem takeWhile_eq {l : List UInt8} (h0 : ∀ c ∈ w, c ≠ 0) (hw : ∀ (i : ℕ) c, w[i]? = some c → l[i]? = some c)
    (hz : l[w.length]? = some 0) : l.takeWhile (· ≠ 0) = w := by
  induction w generalizing l with
  | nil =>
    cases l with
    | nil => rfl
    | cons d l =>
      obtain rfl : d = 0 := by simpa using hz
      rfl
  | cons c w ih =>
    cases l with
    | nil => simp at hz
    | cons d l =>
      obtain rfl : d = c := by simpa using hw 0 c rfl
      rw [List.takeWhile_cons_of_pos (by simpa using h0 d List.mem_cons_self)]
      rw [ih (fun c hc => h0 c (List.mem_cons_of_mem _ hc)) (fun i c hi => hw (i + 1) c hi) hz]

theorem Keeps.cstr_eq (h0 : 0 ∉ line) (h : Keeps line buf) (hw : WordAt line q eq)
    (hz : buf[line.length - eq.length]? = some 0) : cstr line.length buf q = text q eq := by
  obtain ⟨⟨pre, rfl⟩, w, rfl, -, hword, -⟩ := hw
  have hidx : (pre ++ (w ++ eq)).length - (w ++ eq).length = pre.length := by
    simp only [length_append]
    omega
  have hend : (pre ++ (w ++ eq)).length - eq.length = pre.length + w.length := by
    simp only [length_append]
    omega
  rw [text_append, cstr, hidx]
  rw [hend] at hz
  apply takeWhile_eq
  · rintro c hc rfl
    exact h0 (List.mem_append_right _ (List.mem_append_left _ hc))
  · intro i c hi
    have hlt : i < w.length := (List.getElem?_eq_some_iff.1 hi).1
    rw [List.getElem?_drop]
    apply h.word _ c
    · rw [List.getElem?_append_right (Nat.le_add_right _ _), Nat.add_sub_cancel_left,
        List.getElem?_append_left hlt, hi]
    · exact hword c (List.mem_of_getElem? hi)
  · rw [List.getElem?_drop, hz]

theorem Zeros.trans {buf'' : List UInt8} (h : Zeros buf buf') (h' : Zeros buf' buf'') : Zeros buf buf'' :=
  fun i hi => h' i (h i hi)

/-- `clear` at the ends of a list of words. -/
theorem clears_spec {argv : List (Ptr × Ptr)} (ha : ∀ a ∈ argv, WordAt line a.1 a.2) (h : Keeps line buf) :
    Keeps line (argv.foldl (fun buf a => clear line.length buf a.2) buf) ∧
    Zeros buf (argv.foldl (fun buf a => clear line.length buf a.2) buf) ∧
    ∀ a ∈ argv, (argv.foldl (fun buf a => clear line.length buf a.2) buf)[line.length - a.2.length]? = some 0 := by
  induction argv generalizing buf with
  | nil => exact ⟨h, fun _ hi => hi, fun a ha => absurd ha List.not_mem_nil⟩
  | cons b argv ih =>
    have hb := h.clear (ha b List.mem_cons_self)
    obtain ⟨hk, hz, hall⟩ := ih (fun a h => ha a (List.mem_cons_of_mem _ h)) hb
    refine ⟨hk, (zeros_clear _ _).trans hz, fun a hmem => ?_⟩
    rcases List.mem_cons.1 hmem with rfl | hmem
    · exact hz _ (h.clear_self a.2)
    · exact hall a hmem

/-- The strings of a command, in the line as `nulterminate` and later writes of zeros leave it. -/
theorem nulterminate_spec (h0 : 0 ∉ line) (hc : c.Ok line) (h : Keeps line buf) :
    Keeps line (nulterminate line.length c buf) ∧ Zeros buf (nulterminate line.length c buf) ∧
    ∀ buf', Keeps line buf' → Zeros (nulterminate line.length c buf) buf' → c.read line.length buf' = c.tree := by
  induction c generalizing buf with
  | exec argv =>
    obtain ⟨hk, hz, hall⟩ := clears_spec hc h
    refine ⟨hk, hz, fun buf' hk' hz' => ?_⟩
    rw [Cmd.read, Cmd.tree]
    refine congrArg Tree.exec (List.map_congr_left fun a ha => ?_)
    exact hk'.cstr_eq h0 (hc a ha) (hz' _ (hall a ha))
  | redir c file efile mode fd ih =>
    obtain ⟨hk, hz, hread⟩ := ih hc.1 h
    refine ⟨hk.clear hc.2, hz.trans (zeros_clear _ _), fun buf' hk' hz' => ?_⟩
    rw [Cmd.read, Cmd.tree, hread buf' hk' ((zeros_clear _ _).trans hz'),
      hk'.cstr_eq h0 hc.2 (hz' _ (hk.clear_self efile))]
  | pipe l r ihl ihr =>
    obtain ⟨hk, hz, hl⟩ := ihl hc.1 h
    obtain ⟨hk2, hz2, hr⟩ := ihr hc.2 hk
    refine ⟨hk2, hz.trans hz2, fun buf' hk' hz' => ?_⟩
    rw [Cmd.read, Cmd.tree, hl buf' hk' (hz2.trans hz'), hr buf' hk' hz']
  | list l r ihl ihr =>
    obtain ⟨hk, hz, hl⟩ := ihl hc.1 h
    obtain ⟨hk2, hz2, hr⟩ := ihr hc.2 hk
    refine ⟨hk2, hz.trans hz2, fun buf' hk' hz' => ?_⟩
    rw [Cmd.read, Cmd.tree, hl buf' hk' (hz2.trans hz'), hr buf' hk' hz']
  | back c ih =>
    obtain ⟨hk, hz, hread⟩ := ih hc h
    refine ⟨hk, hz, fun buf' hk' hz' => ?_⟩
    rw [Cmd.read, Cmd.tree, hread buf' hk' hz']

theorem keeps_line (line : List UInt8) : Keeps line (line ++ [0]) where
  length := length_append
  word i c hi _ := by
    rw [List.getElem?_append_left (List.getElem?_eq_some_iff.1 hi).1, hi]

theorem read_nulterminate (h0 : 0 ∉ line) (hc : c.Ok line) :
    c.read line.length (nulterminate line.length c (line ++ [0])) = c.tree := by
  obtain ⟨hk, -, hread⟩ := nulterminate_spec h0 hc (keeps_line line)
  exact hread _ hk fun _ hi => hi

end

/-! ### The whole command line -/

theorem skip_eq_nil_iff (h0 : 0 ∉ s) : skip s = [] ↔ tokens s = [] := by
  constructor
  · intro h
    rw [← tokens_skip, h, tokens]
  · intro h
    rcases gettoken_gets h0 with ⟨-, hs, -⟩ | ⟨t, ht⟩
    · exact hs
    · rw [ht.rest] at h
      simp at h

/-- What `parsecmd` does with a line, in terms of the parser over tokens. -/
inductive Parsed (k : ℕ) (line : Ptr) : Except Stop (Cmd × List UInt8) → Prop where
  | ok {c : Cmd} (ht : lineT k (tokens line) = .ok (c.tree, [])) (hc : c.Ok line) :
      Parsed k line (.ok (c, nulterminate line.length c (line ++ [0])))
  | more {t : Tree} {ts : List Tok} (ht : lineT k (tokens line) = .ok (t, ts)) (hne : ts ≠ []) :
      Parsed k line (.error (.panic "syntax"))
  | stop {e : Stop} (ht : lineT k (tokens line) = .error e) : Parsed k line (.error e)

theorem parsecmd_of_ok (h : parseline k line = .ok (c, s)) : parsecmd k line =
    if skip s ≠ [] then .error (.panic "syntax") else .ok (c, nulterminate line.length c (line ++ [0])) :=
  bind_of_eq_ok h _

theorem parsecmd_of_error {e : Stop} (h : parseline k line = .error e) : parsecmd k line = .error e := by
  rw [parsecmd, h]
  rfl

theorem parsecmd_parsed (h0 : 0 ∉ line) (k : ℕ) : Parsed k line (parsecmd k line) := by
  have hsim := (parse_sim h0 k).1 line List.suffix_rfl
  generalize hp : parseline k line = r at hsim
  generalize ht : lineT k (tokens line) = r' at hsim
  cases hsim with
  | error e =>
    rw [parsecmd_of_error hp]
    exact .stop ht
  | @ok c s hs hc =>
    have h0s : 0 ∉ s := nul_not_mem h0 hs
    rw [parsecmd_of_ok hp]
    by_cases hnil : skip s = []
    · rw [if_neg (not_not.2 hnil)]
      rw [(skip_eq_nil_iff h0s).1 hnil] at ht
      exact .ok ht hc
    · rw [if_pos hnil]
      exact .more ht (mt (skip_eq_nil_iff h0s).2 hnil)

theorem parsecmd_sound (h0 : 0 ∉ line) {buf : List UInt8}
    (h : parsecmd k line = .ok (c, buf)) : Line (tokens line) (c.read line.length buf) := by
  have hp := parsecmd_parsed h0 k
  rw [h] at hp
  cases hp with
  | ok ht hc =>
    obtain ⟨xs, hxs, hx⟩ := (parseT_sound k).1 _ _ _ ht
    rw [List.append_nil] at hxs
    rw [read_nulterminate h0 hc, hxs]
    exact hx

theorem parsecmd_complete (h0 : 0 ∉ line) (ht : Line (tokens line) t)
    (hk : 4 * line.length + 4 ≤ k) : ∃ c buf, parsecmd k line = .ok (c, buf) ∧ c.read line.length buf = t := by
  have hlen := length_tokens_le line
  have hline := (parseT_complete k).1 _ _ [] ht (by omega) (.inl rfl)
  rw [List.append_nil] at hline
  have hp := parsecmd_parsed h0 k
  generalize parsecmd k line = r at hp
  cases hp with
  | @ok c hl hc =>
    rw [hline] at hl
    obtain rfl : t = c.tree := by simpa using hl
    exact ⟨c, _, rfl, read_nulterminate h0 hc⟩
  | more hl hne =>
    rw [hline] at hl
    obtain ⟨-, rfl⟩ : t = _ ∧ [] = _ := by simpa using hl
    exact absurd rfl hne
  | stop hl =>
    rw [hline] at hl
    simp at hl

theorem parsecmd_ne_fuel (h0 : 0 ∉ line) (hk : 4 * line.length + 4 ≤ k) : parsecmd k line ≠ .error .fuel := by
  have hlen := length_tokens_le line
  have hline := (parseT_ne_fuel k).1 (tokens line) (by omega)
  have hp := parsecmd_parsed h0 k
  intro h
  rw [h] at hp
  cases hp with
  | stop ht => exact hline ht

/-- `parsecmd` ends with `r`, given enough rounds. -/
def Returns (line : Ptr) (r : Except Stop (Cmd × List UInt8)) : Prop := ∃ n, ∀ k, n ≤ k → parsecmd k line = r

/-- The grammar gives a line one tree. -/
theorem Line.unique (h0 : 0 ∉ line) {u : Tree} (ht : Line (tokens line) t) (hu : Line (tokens line) u) : t = u := by
  obtain ⟨c, buf, hc, rfl⟩ := parsecmd_complete h0 ht (le_refl _)
  obtain ⟨c', buf', hc', rfl⟩ := parsecmd_complete h0 hu (le_refl _)
  obtain ⟨rfl, rfl⟩ : c = c' ∧ buf = buf' := by simpa using hc.symm.trans hc'
  rfl

/-- `parsecmd` ends on every line; it gives a command exactly for the lines of the grammar, the command's tree is
the only one that the grammar gives the line, and lines of the same tokens have the same tree. -/
theorem parsecmd_grammar {line : Ptr} (h0 : 0 ∉ line) : ∃ r, Returns line r ∧ r ≠ .error .fuel ∧
    ((∃ c buf, r = .ok (c, buf)) ↔ ∃ t, Line (tokens line) t) ∧
    (∀ c buf, r = .ok (c, buf) → ∀ t, Line (tokens line) t ↔ t = c.read line.length buf) ∧
    ∀ line' c buf c' buf', 0 ∉ line' → tokens line' = tokens line → r = .ok (c, buf) →
      Returns line' (.ok (c', buf')) → c'.read line'.length buf' = c.read line.length buf := by
  have hne := parsecmd_ne_fuel h0 (le_refl _)
  have hread : ∀ c buf, parsecmd (4 * line.length + 4) line = .ok (c, buf) →
      ∀ t, Line (tokens line) t ↔ t = c.read line.length buf := by
    intro c buf hr t
    have hs := parsecmd_sound h0 hr
    constructor
    · intro ht
      exact ht.unique h0 hs
    · rintro rfl
      exact hs
  refine ⟨_, ⟨_, fun k hk => parsecmd_stable hne hk⟩, hne, ⟨?_, ?_⟩, hread, ?_⟩
  · rintro ⟨c, buf, hr⟩
    exact ⟨_, parsecmd_sound h0 hr⟩
  · rintro ⟨t, ht⟩
    obtain ⟨c, buf, hc, -⟩ := parsecmd_complete h0 ht (le_refl _)
    exact ⟨c, buf, hc⟩
  · intro line' c buf c' buf' h0' htok hr ⟨n, hn⟩
    have hs' := parsecmd_sound h0' (hn n (le_refl _))
    rw [htok] at hs'
    exact (hread c buf hr _).1 hs'

/-- `a>b&;` -/
theorem parsecmd_grammar_redir : ∃ r, Returns [97, 62, 98, 38, 59] r ∧
    ∀ c buf, r = .ok (c, buf) → Line [.word [97], .gt, .word [98], .amp, .semi] (c.read 5 buf) := by
  have h0 : 0 ∉ ([97, 62, 98, 38, 59] : Ptr) := by decide
  obtain ⟨r, hr, -, -, hread, -⟩ := parsecmd_grammar h0
  have htok : tokens [97, 62, 98, 38, 59] = [.word [97], .gt, .word [98], .amp, .semi] := by decide +kernel
  refine ⟨r, hr, fun c buf h => ?_⟩
  rw [← htok]
  exact (hread c buf h _).2 rfl

end Xv6.Shell

import Xv6.Spec.Shell
import Mathlib.Data.List.TakeWhile
import Mathlib.Tactic.Common

/-! The parser of the shell over tokens, and that the parser over the line is this one. -/

namespace Xv6.Shell

open List

variable {s line r : Ptr} {toks : List UInt8} {ts : List Tok} {k : ℕ} {c : UInt8} {t : Tok}

/-- The first byte of a token that is no word. -/
def Tok.char : Tok → UInt8
  | .bar => BAR
  | .lpar => LPAR
  | .rpar => RPAR
  | .semi => SEMI
  | .amp => AMP
  | .lt => LT
  | .gt => GT
  | .gtgt => GT
  | .word _ => 0

def Tok.ret : Tok → Ret
  | .bar => .bar
  | .lpar => .lpar
  | .rpar => .rpar
  | .semi => .semi
  | .amp => .amp
  | .lt => .lt
  | .gt => .gt
  | .gtgt => .gtgt
  | .word _ => .word

theorem tokens_skip (s : Ptr) : tokens (skip s) = tokens s := by
  induction s with
  | nil => rfl
  | cons c s ih =>
    by_cases hc : c ∈ whitespace
    · have h1 : skip (c :: s) = skip s := by simp [skip, hc]
      rw [h1, ih, tokens, if_pos hc]
    · have h1 : skip (c :: s) = c :: s := by simp [skip, hc]
      rw [h1]

/-- After `skip` comes the end or a byte that is no white space. -/
theorem skip_cases (s : Ptr) : skip s = [] ∨ ∃ c r, skip s = c :: r ∧ c ∉ whitespace := by
  induction s with
  | nil => exact .inl rfl
  | cons c s ih =>
    by_cases hc : c ∈ whitespace
    · have h1 : skip (c :: s) = skip s := by simp [skip, hc]
      rw [h1]
      exact ih
    · exact .inr ⟨c, s, by simp [skip, hc], hc⟩

theorem skip_suffix (s : Ptr) : skip s <:+ s := dropWhile_suffix _

/-- A token at the pointer, as `gettoken` finds it: a word is the text between `q` and `eq`, and it is not
followed by more of it. -/
structure Gets (s : Ptr) (t : Tok) (x : Lexed) : Prop where
  ret : x.ret = t.ret
  char : ∀ toks, toks ⊆ symbols → (deref (skip s) ∈ toks ↔ t.char ∈ toks)
  rest : tokens s = t :: tokens x.ps
  ps : x.ps <:+ s
  q : x.q <:+ s
  lt : x.ps.length < s.length
  word : ∀ w, t = .word w → x.q = w ++ x.eq ∧ w ≠ [] ∧ (∀ c ∈ w, isWord c = true) ∧
    ∀ c, x.eq.head? = some c → isWord c = false

theorem gettoken_eq {s' : Ptr} (hs : skip s = s') :
    gettoken s = ⟨(scan s').1, s', (scan s').2, skip (scan s').2⟩ := by
  rw [gettoken, hs]

/-- A token that is no word. -/
theorem Gets.of_symbol {r' : Ptr} (hs : skip s = c :: r)
    (ht : tokens (c :: r) = t :: tokens r') (hx : scan (c :: r) = (t.ret, r')) (hr : r' <:+ r)
    (hw : ∀ w, t ≠ .word w) (hc : c = t.char) : Gets s t (gettoken s) := by
  have hsuf : c :: r <:+ s := hs ▸ skip_suffix s
  have hr' : skip r' <:+ r := (skip_suffix r').trans hr
  rw [gettoken_eq hs, hx]
  refine ⟨rfl, fun _ _ => by rw [hs, ← hc]; rfl, ?_, hr'.trans ((suffix_cons c r).trans hsuf), hsuf, ?_, fun w he => absurd he (hw w)⟩
  · rw [← tokens_skip, hs, ht, tokens_skip]
  · have h1 := hr'.length_le
    have h2 := hsuf.length_le
    rw [length_cons] at h2
    exact Nat.lt_of_le_of_lt h1 h2

theorem Gets.of_word (hs : skip s = c :: r) (hc : isWord c = true)
    (ht : tokens (c :: r) = .word (c :: r.takeWhile isWord) :: tokens (r.dropWhile isWord))
    (hx : scan (c :: r) = (.word, (c :: r).dropWhile isWord)) :
    Gets s (.word (c :: r.takeWhile isWord)) (gettoken s) := by
  have hsuf : c :: r <:+ s := hs ▸ skip_suffix s
  have hdrop : (c :: r).dropWhile isWord = r.dropWhile isWord := dropWhile_cons_of_pos hc
  have hr' : skip (r.dropWhile isWord) <:+ r := (skip_suffix _).trans (dropWhile_suffix _)
  rw [gettoken_eq hs, hx, hdrop]
  refine ⟨rfl, fun toks hsub => ?_, ?_, hr'.trans ((suffix_cons c r).trans hsuf), hsuf, ?_, fun w he => ?_⟩
  · have h1 : c ∉ toks := by
      intro hm
      simp [isWord, hsub hm] at hc
    have h2 : (0 : UInt8) ∉ toks := fun hm => absurd (hsub hm) (by decide)
    rw [hs]
    exact iff_of_false h1 h2
  · rw [← tokens_skip, hs, ht, tokens_skip]
  · have h1 := hr'.length_le
    have h2 := hsuf.length_le
    rw [length_cons] at h2
    exact Nat.lt_of_le_of_lt h1 h2
  · obtain rfl : c :: r.takeWhile isWord = w := by simpa using he
    refine ⟨?_, by simp, forall_mem_cons.2 ⟨hc, fun d hd => mem_takeWhile_imp hd⟩, fun d hd => ?_⟩
    · rw [cons_append, takeWhile_append_dropWhile]
    · have hnot := head?_dropWhile_not isWord r
      rw [hd] at hnot
      exact hnot

theorem gettoken_gets (h0 : 0 ∉ s) : (tokens s = [] ∧ skip s = [] ∧ gettoken s = ⟨.nul, [], [], []⟩) ∨
    ∃ t, Gets s t (gettoken s) := by
  rcases skip_cases s with hs | ⟨c, r, hs, hc⟩
  · left
    rw [gettoken_eq hs]
    exact ⟨by rw [← tokens_skip, hs, tokens], hs, rfl⟩
  right
  have hc0 : c ≠ 0 := by
    rintro rfl
    exact h0 ((skip_suffix s).subset (hs ▸ mem_cons_self))
  by_cases h1 : c = BAR
  · subst h1
    exact ⟨.bar, .of_symbol hs (by rw [tokens]; rfl) rfl suffix_rfl (by simp) rfl⟩
  by_cases h2 : c = LPAR
  · subst h2
    exact ⟨.lpar, .of_symbol hs (by rw [tokens]; rfl) rfl suffix_rfl (by simp) rfl⟩
  by_cases h3 : c = RPAR
  · subst h3
    exact ⟨.rpar, .of_symbol hs (by rw [tokens]; rfl) rfl suffix_rfl (by simp) rfl⟩
  by_cases h4 : c = SEMI
  · subst h4
    exact ⟨.semi, .of_symbol hs (by rw [tokens]; rfl) rfl suffix_rfl (by simp) rfl⟩
  by_cases h5 : c = AMP
  · subst h5
    exact ⟨.amp, .of_symbol hs (by rw [tokens]; rfl) rfl suffix_rfl (by simp) rfl⟩
  by_cases h6 : c = LT
  · subst h6
    exact ⟨.lt, .of_symbol hs (by rw [tokens]; rfl) rfl suffix_rfl (by simp) rfl⟩
  by_cases h7 : c = GT
  · subst h7
    cases r with
    | nil => exact ⟨.gt, .of_symbol hs (by rw [tokens]; rfl) rfl suffix_rfl (by simp) rfl⟩
    | cons d r =>
      by_cases hd : d = GT
      · subst hd
        exact ⟨.gtgt, .of_symbol hs (by rw [tokens]; rfl) rfl (suffix_cons _ _) (by simp) rfl⟩
      · refine ⟨.gt, .of_symbol hs ?_ ?_ suffix_rfl (by simp) rfl⟩
        · rw [tokens, if_neg hc, if_neg (by simpa using hd)]
          rfl
        · exact if_neg hd
  have hsym : c ∉ symbols := by
    simp only [symbols, mem_cons, not_mem_nil, or_false, not_or]
    exact ⟨h6, h1, h7, h5, h4, h2, h3⟩
  refine ⟨_, .of_word hs (by simp [isWord, hc, hsym]) ?_ ?_⟩
  · have hnone : symbol? c = none := by
      simp only [symbol?, if_neg h1, if_neg h2, if_neg h3, if_neg h4, if_neg h5, if_neg h6, if_neg h7]
    rw [tokens, if_neg hc, if_neg fun h => h7 h.1, hnone]
  · have hde : deref (c :: r) = c := rfl
    simp only [scan, hde, if_neg hc0, if_neg h1, if_neg h2, if_neg h3, if_neg h4, if_neg h5, if_neg h6, if_neg h7]

/-- `peek` over tokens. -/
def peekT (ts : List Tok) (toks : List UInt8) : Bool :=
  match ts with
  | [] => false
  | t :: _ => t.char ∈ toks

theorem peek_eq (h0 : 0 ∉ s) (hsub : toks ⊆ symbols) : peek s toks = (skip s, peekT (tokens s) toks) := by
  unfold peek
  rcases gettoken_gets h0 with ⟨ht, hs, -⟩ | ⟨t, ht⟩
  · rw [ht, hs]
    rfl
  · have hne : deref (skip s) ≠ 0 := by
      rcases skip_cases s with hs | ⟨c, r, hs, -⟩
      · have := ht.rest
        rw [← tokens_skip, hs, tokens] at this
        simp at this
      · rw [hs]
        rintro h
        exact h0 ((skip_suffix s).subset (hs ▸ h ▸ mem_cons_self))
    rw [ht.rest, peekT]
    simp [hne, ht.char toks hsub]

/-! ### The parser over tokens -/

abbrev PT := Except Stop (Tree × List Tok)

def Tree.addArg (w : List UInt8) : Tree → Tree
  | .exec argv => .exec (argv ++ [w])
  | .redir cmd file mode fd => .redir (cmd.addArg w) file mode fd
  | cmd => cmd

def Tok.redirect (w : List UInt8) (t : Tree) : Tok → Tree
  | .lt => .redir t w O_RDONLY 0
  | .gt => .redir t w (O_WRONLY ||| O_CREATE) 1
  | .gtgt => .redir t w (O_WRONLY ||| O_CREATE) 1
  | _ => t

def redirsT : ℕ → Tree → List Tok → PT
  | 0, _, _ => .error .fuel
  | k + 1, t, ts =>
    if peekT ts [LT, GT] = true then
      match ts with
      | r :: .word w :: us => redirsT k (r.redirect w t) us
      | _ => .error (.panic "missing file for redirection")
    else .ok (t, ts)

theorem redirsT_succ (t : Tree) : redirsT (k + 1) t ts =
    if peekT ts [LT, GT] = true then
      match ts with
      | r :: .word w :: us => redirsT k (r.redirect w t) us
      | _ => .error (.panic "missing file for redirection")
    else .ok (t, ts) := rfl

def argsT : ℕ → ℕ → Tree → List Tok → PT
  | 0, _, _, _ => .error .fuel
  | k + 1, argc, t, ts =>
    if peekT ts [BAR, RPAR, AMP, SEMI] = true then .ok (t, ts)
    else
      match ts with
      | [] => .ok (t, [])
      | .word w :: us =>
        if MAXARGS ≤ argc + 1 then .error (.panic "too many args")
        else do
          let r ← redirsT k (t.addArg w) us
          argsT k (argc + 1) r.1 r.2
      | _ => .error (.panic "syntax")

theorem argsT_succ (argc : ℕ) (t : Tree) : argsT (k + 1) argc t ts =
    if peekT ts [BAR, RPAR, AMP, SEMI] = true then .ok (t, ts)
    else
      match ts with
      | [] => .ok (t, [])
      | .word w :: us =>
        if MAXARGS ≤ argc + 1 then .error (.panic "too many args")
        else do
          let r ← redirsT k (t.addArg w) us
          argsT k (argc + 1) r.1 r.2
      | _ => .error (.panic "syntax") := rfl

def backsT : ℕ → Tree → List Tok → PT
  | 0, _, _ => .error .fuel
  | k + 1, t, ts => if peekT ts [AMP] = true then backsT k (.back t) ts.tail else .ok (t, ts)

mutual

def lineT : ℕ → List Tok → PT
  | 0, _ => .error .fuel
  | k + 1, ts => do
    let r ← pipeT k ts
    let r ← backsT k r.1 r.2
    if peekT r.2 [SEMI] = true then do
      let l ← lineT k r.2.tail
      .ok (.list r.1 l.1, l.2)
    else .ok (r.1, r.2)

def pipeT : ℕ → List Tok → PT
  | 0, _ => .error .fuel
  | k + 1, ts => do
    let r ← execT k ts
    if peekT r.2 [BAR] = true then do
      let l ← pipeT k r.2.tail
      .ok (.pipe r.1 l.1, l.2)
    else .ok (r.1, r.2)

def execT : ℕ → List Tok → PT
  | 0, _ => .error .fuel
  | k + 1, ts =>
    if peekT ts [LPAR] = true then blockT k ts
    else do
      let r ← redirsT k (.exec []) ts
      argsT k 0 r.1 r.2

def blockT : ℕ → List Tok → PT
  | 0, _ => .error .fuel
  | k + 1, ts =>
    if peekT ts [LPAR] = false then .error (.panic "parseblock")
    else do
      let r ← lineT k ts.tail
      if peekT r.2 [RPAR] = false then .error (.panic "syntax - missing )")
      else redirsT k r.1 r.2.tail

end

/-! ### The two parsers agree -/

/-- The text between two pointers. -/
def text (q eq : Ptr) : List UInt8 := q.take (q.length - eq.length)

theorem text_append (w eq : Ptr) : text (w ++ eq) eq = w := by
  simp [text]

/-- A word of the line, up to its end. -/
structure WordAt (line q eq : Ptr) : Prop where
  suffix : q <:+ line
  word : ∃ w, q = w ++ eq ∧ w ≠ [] ∧ (∀ c ∈ w, isWord c = true) ∧ ∀ c, eq.head? = some c → isWord c = false

/-- All strings of a command are words of the line. -/
def Cmd.Ok (line : Ptr) : Cmd → Prop
  | .exec argv => ∀ a ∈ argv, WordAt line a.1 a.2
  | .redir cmd file efile _ _ => cmd.Ok line ∧ WordAt line file efile
  | .pipe l r => l.Ok line ∧ r.Ok line
  | .list l r => l.Ok line ∧ r.Ok line
  | .back cmd => cmd.Ok line

/-- A command with the words it stands for. -/
def Cmd.tree : Cmd → Tree
  | .exec argv => .exec (argv.map fun a => text a.1 a.2)
  | .redir cmd file efile mode fd => .redir cmd.tree (text file efile) mode fd
  | .pipe l r => .pipe l.tree r.tree
  | .list l r => .list l.tree r.tree
  | .back cmd => .back cmd.tree

theorem Cmd.tree_addArg (cmd : Cmd) (q eq : Ptr) : (cmd.addArg q eq).tree = cmd.tree.addArg (text q eq) := by
  induction cmd with
  | exec argv => simp [Cmd.addArg, Cmd.tree, Tree.addArg]
  | redir cmd file efile mode fd ih => simp [Cmd.addArg, Cmd.tree, Tree.addArg, ih]
  | pipe l r => rfl
  | list l r => rfl
  | back cmd => rfl

theorem Cmd.Ok.addArg {cmd : Cmd} {q eq : Ptr} (h : cmd.Ok line) (hw : WordAt line q eq) :
    (cmd.addArg q eq).Ok line := by
  induction cmd with
  | exec argv =>
    intro a ha
    rcases mem_append.1 ha with ha | ha
    · exact h a ha
    · rw [mem_singleton.1 ha]
      exact hw
  | redir cmd file efile mode fd ih => exact ⟨ih h.1, h.2⟩
  | pipe l r => exact h
  | list l r => exact h
  | back cmd => exact h

/-- The same outcome: the tokens that are left are those of the text that is left. -/
inductive Sim (line : Ptr) : P → PT → Prop where
  | ok {c : Cmd} {s : Ptr} (hs : s <:+ line) (hc : c.Ok line) : Sim line (.ok (c, s)) (.ok (c.tree, tokens s))
  | error (e : Stop) : Sim line (.error e) (.error e)

theorem Sim.bind {r : P} {r' : PT} {f : Cmd × Ptr → P} {g : Tree × List Tok → PT} (h : Sim line r r')
    (hf : ∀ c s, s <:+ line → c.Ok line → Sim line (f (c, s)) (g (c.tree, tokens s))) :
    Sim line (r >>= f) (r' >>= g) := by
  cases h with
  | ok hs hc => exact hf _ _ hs hc
  | error e => exact .error e

/-- The result of `skip` stands for the same tokens. -/
theorem Sim.skip {c : Cmd} {t : Tree} (hs : s <:+ line) (hc : c.Ok line) (ht : c.tree = t) :
    Sim line (.ok (c, Shell.skip s)) (.ok (t, tokens s)) := by
  rw [← ht, ← tokens_skip]
  exact .ok ((skip_suffix s).trans hs) hc

section

variable (h0 : 0 ∉ line)
include h0

theorem nul_not_mem (hs : s <:+ line) : 0 ∉ s := fun h => h0 (hs.subset h)

/-- The next token, read after a `peek`. -/
theorem gets_next (hs : s <:+ line) (ht : tokens s = t :: ts) : Gets (skip s) t (gettoken (skip s)) ∧
    tokens (gettoken (skip s)).ps = ts ∧ (gettoken (skip s)).ps <:+ line := by
  have hs' : skip s <:+ line := (skip_suffix s).trans hs
  rcases gettoken_gets (nul_not_mem h0 hs') with ⟨hnil, -⟩ | ⟨u, hu⟩
  · rw [tokens_skip, ht] at hnil
    simp at hnil
  · have hr := hu.rest
    rw [tokens_skip, ht] at hr
    obtain ⟨rfl, hts⟩ := cons.inj hr
    exact ⟨hu, hts.symm, hu.ps.trans hs'⟩

omit h0 in
theorem Gets.wordAt {w : List UInt8} {x : Lexed} (hs : s <:+ line) (h : Gets s (.word w) x) :
    WordAt line x.q x.eq ∧ text x.q x.eq = w := by
  obtain ⟨hq, hw⟩ := h.word w rfl
  refine ⟨⟨h.q.trans hs, w, hq, hw⟩, ?_⟩
  rw [hq, text_append]

theorem parseredirs_sim {c : Cmd} (hs : s <:+ line) (hc : c.Ok line) :
    Sim line (parseredirs k c s) (redirsT k c.tree (tokens s)) := by
  induction k generalizing c s with
  | zero => exact .error _
  | succ k ih =>
    rw [parseredirs, peek_eq (nul_not_mem h0 hs) (by decide), redirsT_succ]
    dsimp only
    by_cases hp : peekT (tokens s) [LT, GT] = true
    · rw [if_pos hp, if_pos hp]
      cases ht : tokens s with
      | nil => simp [ht, peekT] at hp
      | cons r ts =>
        obtain ⟨hr, hrest, hps⟩ := gets_next h0 hs ht
        rcases gettoken_gets (nul_not_mem h0 hps) with ⟨hnil, -, hx⟩ | ⟨u, hu⟩
        · obtain rfl : [] = ts := hnil.symm.trans hrest
          rw [hx]
          exact .error _
        · have hts := hu.rest
          rw [hrest] at hts
          rw [hts, hu.ret]
          cases u with
          | word w =>
            obtain ⟨hw, rfl⟩ := hu.wordAt hps
            have hps' := hu.ps.trans hps
            rw [hr.ret]
            cases r with
            | lt => exact ih hps' ⟨hc, hw⟩
            | gt => exact ih hps' ⟨hc, hw⟩
            | gtgt => exact ih hps' ⟨hc, hw⟩
            | _ => exact ih hps' hc
          | _ => exact .error _
    · rw [if_neg hp, if_neg hp]
      exact .skip hs hc rfl

theorem parseargs_sim {c : Cmd} {argc : ℕ} (hs : s <:+ line) (hc : c.Ok line) :
    Sim line (parseargs k argc c s) (argsT k argc c.tree (tokens s)) := by
  induction k generalizing c s argc with
  | zero => exact .error _
  | succ k ih =>
    rw [parseargs, peek_eq (nul_not_mem h0 hs) (by decide), argsT_succ]
    dsimp only
    by_cases hp : peekT (tokens s) [BAR, RPAR, AMP, SEMI] = true
    · rw [if_pos hp, if_pos hp]
      exact .skip hs hc rfl
    · rw [if_neg hp, if_neg hp]
      have hs' := (skip_suffix s).trans hs
      rcases gettoken_gets (nul_not_mem h0 hs') with ⟨hnil, -, hx⟩ | ⟨u, hu⟩
      · rw [tokens_skip] at hnil
        rw [hx, hnil]
        have := Sim.ok (c := c) (nil_suffix (l := line)) hc
        rw [tokens] at this
        exact this
      · have hts := hu.rest
        rw [tokens_skip] at hts
        rw [hts]
        cases u with
        | word w =>
          obtain ⟨hw, rfl⟩ := hu.wordAt hs'
          have hret : (gettoken (skip s)).ret = .word := hu.ret
          rw [hret, if_neg (by decide : ¬ Ret.word = .nul), if_neg (by decide : ¬ Ret.word ≠ .word)]
          split_ifs
          · exact .error _
          · dsimp only
            rw [← Cmd.tree_addArg]
            apply (parseredirs_sim h0 (hu.ps.trans hs') (hc.addArg hw)).bind
            intro c s hs hc
            exact ih hs hc
        | _ =>
          rw [hu.ret]
          exact .error _

theorem parsebacks_sim {c : Cmd} (hs : s <:+ line) (hc : c.Ok line) :
    Sim line (parsebacks k c s) (backsT k c.tree (tokens s)) := by
  induction k generalizing c s with
  | zero => exact .error _
  | succ k ih =>
    rw [parsebacks, peek_eq (nul_not_mem h0 hs) (by decide), backsT]
    dsimp only
    by_cases hp : peekT (tokens s) [AMP] = true
    · rw [if_pos hp, if_pos hp]
      cases ht : tokens s with
      | nil => simp [ht, peekT] at hp
      | cons t ts =>
        obtain ⟨-, hrest, hps⟩ := gets_next h0 hs ht
        rw [tail_cons, ← hrest]
        exact ih (c := .back c) hps hc
    · rw [if_neg hp, if_neg hp]
      exact .skip hs hc rfl

/-- After a token that was seen by `peek`. -/
theorem tokens_tail (hs : s <:+ line) (hp : peekT (tokens s) toks = true) :
    tokens (gettoken (skip s)).ps = (tokens s).tail ∧ (gettoken (skip s)).ps <:+ line := by
  cases ht : tokens s with
  | nil => simp [ht, peekT] at hp
  | cons t ts => exact (gets_next h0 hs ht).2

theorem parse_sim (k : ℕ) : (∀ s, s <:+ line → Sim line (parseline k s) (lineT k (tokens s))) ∧
    (∀ s, s <:+ line → Sim line (parsepipe k s) (pipeT k (tokens s))) ∧
    (∀ s, s <:+ line → Sim line (parseexec k s) (execT k (tokens s))) ∧
    ∀ s, s <:+ line → Sim line (parseblock k s) (blockT k (tokens s)) := by
  induction k with
  | zero => exact ⟨fun _ _ => .error _, fun _ _ => .error _, fun _ _ => .error _, fun _ _ => .error _⟩
  | succ k ih =>
    obtain ⟨hline, hpipe, hexec, hblock⟩ := ih
    refine ⟨fun s hs => ?_, fun s hs => ?_, fun s hs => ?_, fun s hs => ?_⟩
    · rw [parseline, lineT]
      apply (hpipe s hs).bind
      intro c s hs hc
      apply (parsebacks_sim h0 hs hc).bind
      intro c s hs hc
      rw [peek_eq (nul_not_mem h0 hs) (by decide)]
      dsimp only
      by_cases hp : peekT (tokens s) [SEMI] = true
      · obtain ⟨htl, hps⟩ := tokens_tail h0 hs hp
        rw [if_pos hp, if_pos hp, ← htl]
        apply (hline _ hps).bind
        intro d s hs hd
        exact .ok (c := .list c d) hs ⟨hc, hd⟩
      · rw [if_neg hp, if_neg hp]
        exact .skip hs hc rfl
    · rw [parsepipe, pipeT]
      apply (hexec s hs).bind
      intro c s hs hc
      rw [peek_eq (nul_not_mem h0 hs) (by decide)]
      dsimp only
      by_cases hp : peekT (tokens s) [BAR] = true
      · obtain ⟨htl, hps⟩ := tokens_tail h0 hs hp
        rw [if_pos hp, if_pos hp, ← htl]
        apply (hpipe _ hps).bind
        intro d s hs hd
        exact .ok (c := .pipe c d) hs ⟨hc, hd⟩
      · rw [if_neg hp, if_neg hp]
        exact .skip hs hc rfl
    · rw [parseexec, peek_eq (nul_not_mem h0 hs) (by decide), execT]
      dsimp only
      split_ifs with hp
      · rw [← tokens_skip]
        exact hblock _ ((skip_suffix s).trans hs)
      · rw [← tokens_skip]
        apply (parseredirs_sim h0 (c := .exec []) ((skip_suffix s).trans hs) (by simp [Cmd.Ok])).bind
        intro c s hs hc
        exact parseargs_sim h0 hs hc
    · rw [parseblock, peek_eq (nul_not_mem h0 hs) (by decide), blockT]
      dsimp only
      split_ifs with hp
      · exact .error _
      · obtain ⟨htl, hps⟩ := tokens_tail h0 hs (by simpa using hp)
        rw [← htl]
        apply (hline _ hps).bind
        intro c s hs hc
        rw [peek_eq (nul_not_mem h0 hs) (by decide)]
        dsimp only
        split_ifs with hq
        · exact .error _
        · obtain ⟨htl, hps⟩ := tokens_tail h0 hs (by simpa using hq)
          rw [← htl]
          exact parseredirs_sim h0 hps hc

end

end Xv6.Shell

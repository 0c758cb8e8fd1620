import Mathlib.Data.Nat.Notation
import Mathlib.Data.List.Basic

/-! The parser of the shell, `sh.c`. A pointer into the line is the text from it to `es`; at `es` itself the
byte is the NUL that ends the line. `malloc` does not fail. -/

namespace Xv6.Shell

def MAXARGS : ℕ := 10
def O_RDONLY : ℕ := 0
def O_WRONLY : ℕ := 1
def O_CREATE : ℕ := 0x200

def LT : UInt8 := 60
def BAR : UInt8 := 124
def GT : UInt8 := 62
def AMP : UInt8 := 38
def SEMI : UInt8 := 59
def LPAR : UInt8 := 40
def RPAR : UInt8 := 41

/-- `" \t\r\n\v"` -/
def whitespace : List UInt8 := [32, 9, 13, 10, 11]
/-- `"<|>&;()"` -/
def symbols : List UInt8 := [LT, BAR, GT, AMP, SEMI, LPAR, RPAR]

abbrev Ptr := List UInt8

/-- `*s` -/
def deref (s : Ptr) : UInt8 := s.headD 0

/-- `while(s < es && strchr(whitespace, *s)) s++` -/
def skip (s : Ptr) : Ptr := s.dropWhile (· ∈ whitespace)

def isWord (c : UInt8) : Bool := c ∉ whitespace ∧ c ∉ symbols

/-- What `gettoken` returns: 0, a symbol, `'+'` for `>>`, `'a'` for a word. -/
inductive Ret where
  | nul
  | bar
  | lpar
  | rpar
  | semi
  | amp
  | lt
  | gt
  | gtgt
  | word
deriving DecidableEq, Repr

/-- The results of `gettoken`: its value, `*q`, `*eq` and `*ps`. -/
structure Lexed where
  ret : Ret
  q : Ptr
  eq : Ptr
  ps : Ptr

/-- The `switch` of `gettoken`: its value and the end of the token. -/
def scan (s : Ptr) : Ret × Ptr :=
  let c := deref s
  if c = 0 then (.nul, s)
  else if c = BAR then (.bar, s.tail)
  else if c = LPAR then (.lpar, s.tail)
  else if c = RPAR then (.rpar, s.tail)
  else if c = SEMI then (.semi, s.tail)
  else if c = AMP then (.amp, s.tail)
  else if c = LT then (.lt, s.tail)
  else if c = GT then if deref s.tail = GT then (.gtgt, s.tail.tail) else (.gt, s.tail)
  else (.word, s.dropWhile isWord)

def gettoken (s : Ptr) : Lexed :=
  let s := skip s
  let r := scan s
  ⟨r.1, s, r.2, skip r.2⟩

def peek (s : Ptr) (toks : List UInt8) : Ptr × Bool :=
  let s := skip s
  (s, deref s ≠ 0 ∧ deref s ∈ toks)

/-- The commands, with the words of the line as `argv[i]`, `eargv[i]` and `file`, `efile`. -/
inductive Cmd where
  | exec (argv : List (Ptr × Ptr))
  | redir (cmd : Cmd) (file efile : Ptr) (mode fd : ℕ)
  | pipe (left right : Cmd)
  | list (left right : Cmd)
  | back (cmd : Cmd)

/-- Why there is no command: a `panic`, or the rounds given are used up. -/
inductive Stop where
  | fuel
  | panic (msg : String)
deriving DecidableEq

abbrev P := Except Stop (Cmd × Ptr)

def parseredirs : ℕ → Cmd → Ptr → P
  | 0, _, _ => .error .fuel
  | k + 1, cmd, s =>
    let p := peek s [LT, GT]
    if p.2 = true then
      let t := gettoken p.1
      let w := gettoken t.ps
      if w.ret ≠ .word then .error (.panic "missing file for redirection")
      else
        let cmd :=
          match t.ret with
          | .lt => .redir cmd w.q w.eq O_RDONLY 0
          | .gt => .redir cmd w.q w.eq (O_WRONLY ||| O_CREATE) 1
          | .gtgt => .redir cmd w.q w.eq (O_WRONLY ||| O_CREATE) 1
          | _ => cmd
        parseredirs k cmd w.ps
    else .ok (cmd, p.1)

/-- `cmd->argv[argc] = q; cmd->eargv[argc] = eq`, where `cmd` is the command that the redirections around
it belong to. -/
def Cmd.addArg (q eq : Ptr) : Cmd → Cmd
  | .exec argv => .exec (argv ++ [(q, eq)])
  | .redir cmd file efile mode fd => .redir (cmd.addArg q eq) file efile mode fd
  | cmd => cmd

/-- The loop of `parseexec`. -/
def parseargs : ℕ → ℕ → Cmd → Ptr → P
  | 0, _, _, _ => .error .fuel
  | k + 1, argc, ret, s =>
    let p := peek s [BAR, RPAR, AMP, SEMI]
    if p.2 = true then .ok (ret, p.1)
    else
      let t := gettoken p.1
      if t.ret = .nul then .ok (ret, t.ps)
      else if t.ret ≠ .word then .error (.panic "syntax")
      else if MAXARGS ≤ argc + 1 then .error (.panic "too many args")
      else do
        let r ← parseredirs k (ret.addArg t.q t.eq) t.ps
        parseargs k (argc + 1) r.1 r.2

/-- `while(peek(ps, es, "&"))` of `parseline` -/
def parsebacks : ℕ → Cmd → Ptr → P
  | 0, _, _ => .error .fuel
  | k + 1, cmd, s =>
    let p := peek s [AMP]
    if p.2 = true then parsebacks k (.back cmd) (gettoken p.1).ps else .ok (cmd, p.1)

mutual

def parseline : ℕ → Ptr → P
  | 0, _ => .error .fuel
  | k + 1, s => do
    let r ← parsepipe k s
    let r ← parsebacks k r.1 r.2
    let p := peek r.2 [SEMI]
    if p.2 = true then do
      let l ← parseline k (gettoken p.1).ps
      .ok (.list r.1 l.1, l.2)
    else .ok (r.1, p.1)

def parsepipe : ℕ → Ptr → P
  | 0, _ => .error .fuel
  | k + 1, s => do
    let r ← parseexec k s
    let p := peek r.2 [BAR]
    if p.2 = true then do
      let l ← parsepipe k (gettoken p.1).ps
      .ok (.pipe r.1 l.1, l.2)
    else .ok (r.1, p.1)

def parseexec : ℕ → Ptr → P
  | 0, _ => .error .fuel
  | k + 1, s =>
    let p := peek s [LPAR]
    if p.2 = true then parseblock k p.1
    else do
      let r ← parseredirs k (.exec []) p.1
      parseargs k 0 r.1 r.2

def parseblock : ℕ → Ptr → P
  | 0, _ => .error .fuel
  | k + 1, s =>
    let p := peek s [LPAR]
    if p.2 = false then .error (.panic "parseblock")
    else do
      let r ← parseline k (gettoken p.1).ps
      let p := peek r.2 [RPAR]
      if p.2 = false then .error (.panic "syntax - missing )")
      else parseredirs k r.1 (gettoken p.1).ps

end

/-- `*p = 0` in the line of `n` bytes and its NUL. -/
def clear (n : ℕ) (buf : List UInt8) (p : Ptr) : List UInt8 := buf.set (n - p.length) 0

def nulterminate (n : ℕ) : Cmd → List UInt8 → List UInt8
  | .exec argv, buf => argv.foldl (fun buf a => clear n buf a.2) buf
  | .redir cmd _ efile _ _, buf => clear n (nulterminate n cmd buf) efile
  | .pipe l r, buf => nulterminate n r (nulterminate n l buf)
  | .list l r, buf => nulterminate n r (nulterminate n l buf)
  | .back cmd, buf => nulterminate n cmd buf

/-- `parsecmd`: the command, and the line as `nulterminate` leaves it. -/
def parsecmd (fuel : ℕ) (s : Ptr) : Except Stop (Cmd × List UInt8) := do
  let r ← parseline fuel s
  let p := peek r.2 []
  if p.1 ≠ [] then .error (.panic "syntax") else .ok (r.1, nulterminate s.length r.1 (s ++ [0]))

/-! ### The grammar -/

inductive Tok where
  | bar
  | lpar
  | rpar
  | semi
  | amp
  | lt
  | gt
  | gtgt
  | word (w : List UInt8)
deriving DecidableEq

/-- The symbol of one byte. -/
def symbol? (c : UInt8) : Option Tok :=
  if c = BAR then some .bar
  else if c = LPAR then some .lpar
  else if c = RPAR then some .rpar
  else if c = SEMI then some .semi
  else if c = AMP then some .amp
  else if c = LT then some .lt
  else if c = GT then some .gt
  else none

/-- The tokens of a line. -/
def tokens : List UInt8 → List Tok
  | [] => []
  | c :: s =>
    if c ∈ whitespace then tokens s
    else if c = GT ∧ s.head? = some GT then .gtgt :: tokens s.tail
    else
      match symbol? c with
      | some t => t :: tokens s
      | none => .word (c :: s.takeWhile isWord) :: tokens (s.dropWhile isWord)
termination_by s => s.length
decreasing_by
  · simp
  · rw [List.length_tail, List.length_cons]
    omega
  · simp
  · rw [List.length_cons]
    exact Nat.lt_succ_of_le (List.dropWhile_sublist _).length_le

/-- A command with its words. -/
inductive Tree where
  | exec (argv : List (List UInt8))
  | redir (cmd : Tree) (file : List UInt8) (mode fd : ℕ)
  | pipe (left right : Tree)
  | list (left right : Tree)
  | back (cmd : Tree)
deriving DecidableEq

/-- `redir := ('<' | '>' | '>>') word`, with what it does to a command. -/
inductive Redir : List Tok → (Tree → Tree) → Prop where
  | lt (w : List UInt8) : Redir [.lt, .word w] (.redir · w O_RDONLY 0)
  | gt (w : List UInt8) : Redir [.gt, .word w] (.redir · w (O_WRONLY ||| O_CREATE) 1)
  | gtgt (w : List UInt8) : Redir [.gtgt, .word w] (.redir · w (O_WRONLY ||| O_CREATE) 1)

/-- `redir*`; the last one is outermost. -/
inductive Redirs : List Tok → (Tree → Tree) → Prop where
  | nil : Redirs [] id
  | cons {ts us : List Tok} {f g : Tree → Tree} (h : Redir ts f) (hs : Redirs us g) : Redirs (ts ++ us) (g ∘ f)

/-- `(word redir*)*`, with the words and the redirections. -/
inductive Args : List Tok → List (List UInt8) → (Tree → Tree) → Prop where
  | nil : Args [] [] id
  | cons {w : List UInt8} {ts us : List Tok} {ws : List (List UInt8)} {f g : Tree → Tree} (h : Redirs ts f)
      (hs : Args us ws g) : Args (.word w :: ts ++ us) (w :: ws) (g ∘ f)

/-- `'&'*` after a command -/
def backs : ℕ → Tree → Tree
  | 0, t => t
  | k + 1, t => backs k (.back t)

mutual

/-- `line := pipe '&'* [';' line]` -/
inductive Line : List Tok → Tree → Prop where
  | one {ts : List Tok} {t : Tree} {k : ℕ} (h : Pipe ts t) : Line (ts ++ List.replicate k .amp) (backs k t)
  | cons {ts us : List Tok} {t u : Tree} {k : ℕ} (h : Pipe ts t) (hs : Line us u) :
      Line (ts ++ List.replicate k .amp ++ .semi :: us) (.list (backs k t) u)

/-- `pipe := cmd ['|' pipe]` -/
inductive Pipe : List Tok → Tree → Prop where
  | one {ts : List Tok} {t : Tree} (h : Command ts t) : Pipe ts t
  | cons {ts us : List Tok} {t u : Tree} (h : Command ts t) (hs : Pipe us u) : Pipe (ts ++ .bar :: us) (.pipe t u)

/-- `cmd := '(' line ')' redir* | redir* (word redir*)*` -/
inductive Command : List Tok → Tree → Prop where
  | block {ts us : List Tok} {t : Tree} {f : Tree → Tree} (h : Line ts t) (hr : Redirs us f) :
      Command (.lpar :: ts ++ .rpar :: us) (f t)
  | simple {ts us : List Tok} {ws : List (List UInt8)} {f g : Tree → Tree} (hr : Redirs ts f) (ha : Args us ws g)
      (hn : ws.length ≤ MAXARGS - 1) : Command (ts ++ us) (g (f (.exec ws)))

end

/-- The C string at a pointer into the line of `n` bytes. -/
def cstr (n : ℕ) (buf : List UInt8) (p : Ptr) : List UInt8 := (buf.drop (n - p.length)).takeWhile (· ≠ 0)

/-- A command with the strings that it points to. -/
def Cmd.read (n : ℕ) (buf : List UInt8) : Cmd → Tree
  | .exec argv => .exec (argv.map fun a => cstr n buf a.1)
  | .redir cmd file _ mode fd => .redir (cmd.read n buf) (cstr n buf file) mode fd
  | .pipe l r => .pipe (l.read n buf) (r.read n buf)
  | .list l r => .list (l.read n buf) (r.read n buf)
  | .back cmd => .back (cmd.read n buf)

end Xv6.Shell

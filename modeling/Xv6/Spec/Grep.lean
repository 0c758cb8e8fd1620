import Xv6.Spec.Memmove
import Xv6.Lib.Bytes

/-! `grep.c`: the pattern matcher, on strings as the lists of their bytes before the NUL, and the loop that reads into a
buffer and cuts it into lines. -/

namespace Xv6.Grep

open Bytes

/-- `'$'` -/
def DOLLAR : UInt8 := 0x24
/-- `'*'` -/
def STAR : UInt8 := 0x2A
/-- `'.'` -/
def DOT : UInt8 := 0x2E
/-- `'^'` -/
def CARET : UInt8 := 0x5E

mutual

/-- `matchhere`: `re` at the beginning of `text` -/
def matchhere (re text : List UInt8) : Bool :=
  match re with
  | [] => true
  | c :: re =>
    if re.head? = some STAR then matchstar c re.tail text
    else if c = DOLLAR ∧ re = [] then text.isEmpty
    else
      match text with
      | [] => false
      | x :: text => if c = DOT ∨ c = x then matchhere re text else false
  termination_by (re.length, text.length, 0)
  decreasing_by all_goals simp_wf <;> grind

/-- `matchstar`: `c*` and then `re` at the beginning of `text` -/
def matchstar (c : UInt8) (re text : List UInt8) : Bool :=
  if matchhere re text then true
  else
    match text with
    | [] => false
    | x :: text => if x = c ∨ c = DOT then matchstar c re text else false
  termination_by (re.length, text.length, 1)
  decreasing_by all_goals simp_wf <;> grind

end

/-- the `do ... while` of `match`: `re` at the beginning of some suffix of `text` -/
def matchAny (re : List UInt8) : List UInt8 → Bool
  | [] => matchhere re []
  | x :: text => if matchhere re (x :: text) then true else matchAny re text

/-- `match` -/
def matchRe (re text : List UInt8) : Bool :=
  if re.head? = some CARET then matchhere re.tail text else matchAny re text

/-- `sizeof(buf)` -/
def BUFSIZE : ℕ := 1024
/-- `'\n'` -/
def NL : UInt8 := 0x0A

/-- The string at `p`, in at most `n` bytes. -/
def cstr (buf : Memory) : ℕ → ℕ → List UInt8
  | 0, _ => []
  | n + 1, p => if buf p = 0 then [] else buf p :: cstr buf n (p + 1)

/-- `strchr` of `ulib.c`, in at most `n` bytes -/
def strchr (buf : Memory) (c : UInt8) : ℕ → ℕ → Option ℕ
  | 0, _ => none
  | n + 1, p => if buf p = 0 then none else if buf p = c then some p else strchr buf c n (p + 1)

/-- the globals and locals of `grep` at the head of its loop, and what it has written, one `write` after the other -/
structure State where
  buf : Memory
  m : ℕ
  out : List (List UInt8)

section

variable (pattern : List UInt8)

/-- The inner loop, which looks for the next line at `p`; the result is where it ends. A round moves `p` on in the buffer, so
there are no more than its size. -/
def grepLines : ℕ → ℕ → State → ℕ × State
  | 0, p, s => (p, s)
  | fuel + 1, p, s =>
    match strchr s.buf NL (BUFSIZE - p) p with
    | none => (p, s)
    | some q =>
      let buf := Function.update s.buf q 0
      if matchRe pattern (cstr buf (BUFSIZE - p) p) then
        let buf := Function.update buf q NL
        grepLines fuel (q + 1) { s with buf := buf, out := s.out ++ [(List.range (q + 1 - p)).map fun i => buf (p + i)] }
      else grepLines fuel (q + 1) { s with buf := buf }

/-- One round of the outer loop, for what `read` has put at `buf + m`. -/
def grepRound (s : State) (chunk : List UInt8) : State :=
  let m := s.m + chunk.length
  let buf := Function.update (overlay s.buf s.m chunk) m 0
  let (p, s) := grepLines pattern BUFSIZE 0 { s with buf := buf }
  let m := if p = 0 then 0 else m
  if m > 0 then { s with m := m - p, buf := Ulib.memmove 0 p (m - p) s.buf }
  else { s with m := m }

def start : State := { buf := fun _ => 0, m := 0, out := [] }

/-- What `grep` writes if `read` gives these chunks, and then nothing. -/
def grep (chunks : List (List UInt8)) : List (List UInt8) := (chunks.foldl (grepRound pattern) start).out

/-- Each `read` gives something, and no more than it was asked for. -/
def Fits : State → List (List UInt8) → Prop
  | _, [] => True
  | s, chunk :: chunks =>
    chunk ≠ [] ∧ chunk.length ≤ BUFSIZE - s.m - 1 ∧ Fits (grepRound pattern s chunk) chunks

end

end Xv6.Grep

import Xv6.Lib.Window
import Xv6.Spec.Console
import Mathlib.Tactic.Common

namespace Xv6.Console

open Trace Window Nat
open List (length_append length_cons)

variable {P : Type} {p : Input} {t : Typed} {c : UInt8} {k n target : ℕ}

theorem sizes : Sizes INPUT_BUF 0x100000000 := ⟨by decide, by decide, by decide⟩

theorem sub32_eq (a b : ℕ) : sub32 a b = (a + 0x100000000 - b) % 0x100000000 := rfl

theorem u32_eq (a : ℕ) : u32 a = a % 0x100000000 := rfl

/-- The buffer holds the committed input that is not taken yet and the pending line. -/
structure Input.Holds (p : Input) (t : Typed) : Prop where
  window : Window.Holds INPUT_BUF 0x100000000 p.buf p.r p.e (t.committed ++ t.pending) t.taken
  le : t.taken ≤ t.committed.length
  w_eq : p.w = t.committed.length % 0x100000000
  pending : LF ∉ t.pending

section

variable (h : p.Holds t)
include h

theorem Input.Holds.room : t.committed.length - t.taken + t.pending.length ≤ INPUT_BUF := by
  have hle := h.le
  have hroom := h.window.room
  rw [length_append] at hroom
  omega

theorem Input.Holds.used : sub32 p.e p.r = t.committed.length - t.taken + t.pending.length := by
  have hle := h.le
  have hc := h.window.count sizes
  rw [length_append] at hc
  rw [sub32_eq, hc]
  omega

theorem Input.Holds.edited : sub32 p.e p.w = t.pending.length := by
  have hroom := h.room
  have hN : INPUT_BUF < 0x100000000 := sizes.lt
  rw [sub32_eq, h.w_eq, h.window.w_eq, diff_mod (by simp) (by rw [length_append]; omega), length_append,
    Nat.add_sub_cancel_left]

theorem Input.Holds.e_eq_w : p.e = p.w ↔ t.pending = [] := by
  rw [h.w_eq, h.window.at_w sizes h.le (by simp), length_append, Nat.add_eq_left, List.length_eq_zero_iff]

theorem Input.Holds.r_eq_w : p.r = p.w ↔ t.taken = t.committed.length := by
  rw [h.w_eq, h.window.at_r sizes h.le (by simp)]

theorem Input.Holds.unput (hne : t.pending ≠ []) : p.unput.Holds { t with pending := t.pending.dropLast } := by
  have hpos : 0 < t.pending.length := List.length_pos_of_ne_nil hne
  have hle := h.le
  have hw := h.window.unpush sizes (by rw [length_append]; omega)
  rw [List.dropLast_append_of_ne_nil hne, ← sub32_eq] at hw
  rw [Input.unput]
  exact ⟨hw, h.le, h.w_eq, fun hm => h.pending (List.dropLast_subset _ hm)⟩

/-- The end of the pending line is never a newline. -/
theorem Input.Holds.back_ne (hne : t.pending ≠ []) : p.buf (sub32 p.e 1 % INPUT_BUF) ≠ LF := by
  have hpos : 0 < t.pending.length := List.length_pos_of_ne_nil hne
  have hle := h.le
  have hb := h.window.back sizes (by rw [length_append]; omega)
  rw [← sub32_eq, length_append, List.getElem?_append_right (by omega)] at hb
  intro heq
  apply h.pending
  rw [← heq]
  exact List.mem_of_getElem? hb

end

theorem Input.Holds.killLine (h : p.Holds t) (hk : t.pending.length ≤ k) :
    (p.killLine k).Holds { t with pending := [] } := by
  induction k generalizing p t with
  | zero =>
    have hnil : t.pending = [] := List.length_eq_zero_iff.1 (le_zero.1 hk)
    rw [Input.killLine, ← hnil]
    exact h
  | succ k ih =>
    by_cases hnil : t.pending = []
    · have he := h.e_eq_w.2 hnil
      rw [Input.killLine, if_neg (fun hc => hc.1 he), ← hnil]
      exact h
    · have he := mt h.e_eq_w.1 hnil
      rw [Input.killLine, if_pos ⟨he, h.back_ne hnil⟩]
      have hlen : t.pending.dropLast.length ≤ k := by
        rw [List.length_dropLast]
        omega
      exact ih (t := { t with pending := t.pending.dropLast }) (h.unput hnil) hlen

section

variable (h : p.Holds t) (hroom : t.committed.length - t.taken + t.pending.length < INPUT_BUF)
include h hroom

theorem Input.Holds.put_window : Window.Holds INPUT_BUF 0x100000000 (p.put c).buf (p.put c).r (p.put c).e
    (t.committed ++ (t.pending ++ [c])) t.taken := by
  have hle := h.le
  rw [← List.append_assoc]
  exact h.window.push sizes (by rw [length_append]; omega)

theorem Input.Holds.put_full : (p.put c).e = u32 ((p.put c).r + INPUT_BUF) ↔
    t.committed.length - t.taken + (t.pending ++ [c]).length = INPUT_BUF := by
  have hle := h.le
  have hf := (h.put_window hroom (c := c)).full_iff sizes
  rw [length_append] at hf
  rw [u32_eq, hf]
  omega

theorem Input.Holds.put (hc : c ≠ LF) : (p.put c).Holds { t with pending := t.pending ++ [c] } := by
  refine ⟨h.put_window hroom, h.le, h.w_eq, fun hm => ?_⟩
  rcases List.mem_append.1 hm with hm | hm
  · exact h.pending hm
  · exact hc (List.mem_singleton.1 hm).symm

theorem Input.Holds.commit : { p.put c with w := (p.put c).e }.Holds
    { t with committed := t.committed ++ (t.pending ++ [c]), pending := [] } := by
  have hle := h.le
  have hw := h.put_window hroom (c := c)
  refine ⟨?_, ?_, hw.w_eq, List.not_mem_nil⟩
  · rw [List.append_nil]
    exact hw
  · apply hle.trans
    rw [length_append]
    omega

end

theorem Input.Holds.consoleintr (h : p.Holds t) (c : UInt8) : (p.consoleintr c).1.Holds (t.feed c) := by
  unfold Input.consoleintr Typed.feed
  by_cases hP : c = ctrl 'P'
  · rw [if_pos hP, if_pos hP]
    exact h
  rw [if_neg hP, if_neg hP]
  by_cases hU : c = ctrl 'U'
  · rw [if_pos hU, if_pos hU]
    exact h.killLine h.edited.ge
  rw [if_neg hU, if_neg hU]
  by_cases hH : c = ctrl 'H' ∨ c = DEL
  · rw [if_pos hH, if_pos hH]
    by_cases hnil : t.pending = []
    · rw [if_neg (not_not.2 (h.e_eq_w.2 hnil)), hnil, List.dropLast_nil, ← hnil]
      exact h
    · rw [if_pos (mt h.e_eq_w.1 hnil)]
      exact h.unput hnil
  rw [if_neg hH, if_neg hH, h.used]
  by_cases hroom : c ≠ 0 ∧ t.committed.length - t.taken + t.pending.length < INPUT_BUF
  · have hdrop : ¬ (c = 0 ∨ INPUT_BUF ≤ t.committed.length - t.taken + t.pending.length) := by
      rintro (h0 | hfull)
      · exact hroom.1 h0
      · omega
    rw [if_pos hroom, if_neg hdrop]
    generalize (if c = CR then LF else c) = d
    dsimp only
    simp only [h.put_full hroom.2]
    split_ifs with hd
    · exact h.commit hroom.2
    · exact h.put hroom.2 fun hlf => hd (.inl hlf)
  · have hdrop : c = 0 ∨ INPUT_BUF ≤ t.committed.length - t.taken + t.pending.length := by
      by_contra hno
      rw [not_or, not_le] at hno
      exact hroom hno
    rw [if_neg hroom, if_pos hdrop]
    exact h

/-- What a section of `consoleread` has taken. -/
def tookOf (x : Input × List UInt8 × Stop) : List UInt8 := x.2.1 ++ if x.2.2 = .eof then [ctrl 'D'] else []

/-- The loop of `consoleread` takes the committed input in order, and says why it stops. -/
structure ReadsTo (t : Typed) (target n : ℕ) (x : Input × List UInt8 × Stop) : Prop where
  holds : x.1.Holds { t with taken := t.taken + (tookOf x).length }
  bytes : t.committed.take t.taken ++ tookOf x = t.committed.take (t.taken + (tookOf x).length)
  clean : ctrl 'D' ∉ x.2.1
  le : x.2.1.length ≤ n
  line : x.2.2 = .line → x.2.1.length = n ∨ x.2.1.getLast? = some LF
  eof : x.2.2 = .eof → x.2.1.length < n ∧ target ≤ n - x.2.1.length
  kept : x.2.2 = .kept → x.2.1.length < n ∧ n - x.2.1.length < target ∧
    t.committed[t.taken + x.2.1.length]? = some (ctrl 'D')

theorem Input.Holds.front (h : p.Holds t) (hne : p.r ≠ p.w) :
    t.committed[t.taken]? = some (p.buf (p.r % INPUT_BUF)) := by
  have hle := h.le
  have hlt : t.taken < t.committed.length := by
    have := mt h.r_eq_w.2 hne
    omega
  have hf := h.window.front sizes (by rw [length_append]; omega)
  rwa [List.getElem?_append_left hlt] at hf

theorem Input.Holds.take (h : p.Holds t) (hne : p.r ≠ p.w) :
    { p with r := u32 (p.r + 1) }.Holds { t with taken := t.taken + 1 } := by
  have hle := h.le
  have hlt : t.taken < t.committed.length := by
    have := mt h.r_eq_w.2 hne
    omega
  exact ⟨h.window.pop (by rw [length_append]; omega), hlt, h.w_eq, h.pending⟩

/-- One more byte at the front. -/
theorem ReadsTo.cons {x : Input × List UInt8 × Stop} {c : UInt8}
    (h : ReadsTo { t with taken := t.taken + 1 } target n x) (hD : c ≠ ctrl 'D')
    (hc : t.committed.take (t.taken + 1) = t.committed.take t.taken ++ [c]) :
    ReadsTo t target (n + 1) (x.1, c :: x.2.1, x.2.2) := by
  have htook : tookOf (x.1, c :: x.2.1, x.2.2) = c :: tookOf x := rfl
  have hlen : t.taken + (c :: tookOf x).length = t.taken + 1 + (tookOf x).length := by
    rw [length_cons]
    omega
  have hlen' : t.taken + (c :: x.2.1).length = t.taken + 1 + x.2.1.length := by
    rw [length_cons]
    omega
  refine ⟨?_, ?_, ?_, succ_le_succ h.le, fun hs => ?_, fun hs => ?_, fun hs => ?_⟩
  · rw [htook, hlen]
    exact h.holds
  · rw [htook, hlen, ← h.bytes, hc, List.append_assoc]
    rfl
  · intro hm
    rcases List.mem_cons.1 hm with hm | hm
    · exact hD hm.symm
    · exact h.clean hm
  · rcases h.line hs with hl | hl
    · exact .inl (congrArg (· + 1) hl)
    · right
      rw [List.getLast?_cons, hl]
      rfl
  · obtain ⟨h1, h2⟩ := h.eof hs
    rw [length_cons]
    omega
  · obtain ⟨h1, h2, h3⟩ := h.kept hs
    rw [hlen', length_cons]
    exact ⟨by omega, by omega, h3⟩

theorem Input.Holds.put_back (h : p.Holds t) : sub32 (u32 (p.r + 1)) 1 = p.r := by
  rw [u32_eq, sub32_eq, h.window.r_eq, mod_add_mod, pred_mod sizes (succ_pos _), succ_sub_one]

theorem Input.Holds.reads (h : p.Holds t) : ReadsTo t target n (p.readLoop target n) := by
  induction n generalizing p t with
  | zero =>
    have he : p.readLoop target 0 = (p, [], .line) := rfl
    rw [he]
    exact ⟨by simpa [tookOf] using h, by simp [tookOf], by simp, le_rfl, fun _ => .inl rfl, by simp, by simp⟩
  | succ n ih =>
    by_cases hemp : p.r = p.w
    · have he : p.readLoop target (n + 1) = (p, [], .empty) := by
        rw [Input.readLoop, if_pos hemp]
      rw [he]
      exact ⟨by simpa [tookOf] using h, by simp [tookOf], by simp, zero_le _, by simp, by simp, by simp⟩
    have hfront := h.front hemp
    have htake := h.take hemp
    have hstep : t.committed.take (t.taken + 1) = t.committed.take t.taken ++ [p.buf (p.r % INPUT_BUF)] := by
      rw [List.take_add_one, hfront]
      rfl
    by_cases hD : p.buf (p.r % INPUT_BUF) = ctrl 'D'
    · by_cases hn : n + 1 < target
      · have he : p.readLoop target (n + 1) = (p, [], .kept) := by
          rw [Input.readLoop, if_neg hemp]
          dsimp only
          rw [if_pos hD, if_pos hn, h.put_back]
        rw [he]
        exact ⟨by simpa [tookOf] using h, by simp [tookOf], by simp, zero_le _, by simp, by simp,
          fun _ => ⟨succ_pos n, hn, hD ▸ hfront⟩⟩
      · have he : p.readLoop target (n + 1) = ({ p with r := u32 (p.r + 1) }, [], .eof) := by
          rw [Input.readLoop, if_neg hemp]
          dsimp only
          rw [if_pos hD, if_neg hn]
        rw [he]
        refine ⟨htake, ?_, by simp, Nat.zero_le _, by simp, fun _ => ⟨Nat.succ_pos n, Nat.le_of_not_lt hn⟩,
          by simp⟩
        exact (hD ▸ hstep).symm
    by_cases hL : p.buf (p.r % INPUT_BUF) = LF
    · have he : p.readLoop target (n + 1)
          = ({ p with r := u32 (p.r + 1) }, [p.buf (p.r % INPUT_BUF)], .line) := by
        rw [Input.readLoop, if_neg hemp]
        dsimp only
        rw [if_neg hD, if_pos hL]
      rw [he]
      refine ⟨htake, hstep.symm, ?_, by simp, fun _ => .inr (congrArg some hL), by simp, by simp⟩
      rw [List.mem_singleton]
      exact Ne.symm hD
    · have he : p.readLoop target (n + 1)
          = (({ p with r := u32 (p.r + 1) }.readLoop target n).1,
            p.buf (p.r % INPUT_BUF) :: ({ p with r := u32 (p.r + 1) }.readLoop target n).2.1,
            ({ p with r := u32 (p.r + 1) }.readLoop target n).2.2) := by
        rw [Input.readLoop, if_neg hemp]
        dsimp only
        rw [if_neg hD, if_neg hL]
      have hx := ih htake
      rw [he]
      generalize Input.readLoop target n { p with r := u32 (p.r + 1) } = x at hx
      exact hx.cons hD hstep

variable [DecidableEq P] {s s' : State P} {e : Act P × Out} {es : List (Act P × Out)} {q : P} {raced : Bool}
  {x : Input × List UInt8 × Stop} {o : State P × Out}

/-- The ways in which a section of `consoleread` ends. -/
inductive Section (s : State P) (q : P) (target n : ℕ) (x : Input × List UInt8 × Stop) : State P × Out → Prop where
  | killed : x.2.2 = .empty →
      Section s q target n x
        ({ s with input := x.1 }.set q { s.proc q with pc := .out }, { copied := x.2.1, ret := some (-1) })
  | sleeps (killed : Bool) : x.2.2 = .empty →
      Section s q target n x
        ({ s with input := x.1 }.set q ⟨.asleep target (n - x.2.1.length), killed⟩, { copied := x.2.1 })
  | returns : x.2.2 ≠ .empty →
      Section s q target n x ({ s with input := x.1 }.set q { s.proc q with pc := .out },
        ⟨x.2.1, x.2.2 = .eof, some (target - (n - x.2.1.length : ℕ) : ℤ)⟩)

theorem consoleread_section : Section s q target n (s.input.readLoop target n) (s.consoleread q raced target n) := by
  unfold State.consoleread
  dsimp only
  generalize s.input.readLoop target n = x
  obtain ⟨p, cs, stop⟩ := x
  cases stop with
  | line => exact .returns (by simp)
  | kept => exact .returns (by simp)
  | eof => exact .returns (by simp)
  | empty =>
    dsimp only
    split_ifs
    · exact .killed rfl
    · exact .sleeps _ rfl

theorem Section.took (h : Section s q target n x o) : o.2.took = tookOf x ∧ o.2.copied = x.2.1 ∧ o.1.input = x.1 := by
  cases h with
  | killed he => exact ⟨by simp [Out.took, tookOf, he], rfl, rfl⟩
  | sleeps _ he => exact ⟨by simp [Out.took, tookOf, he], rfl, rfl⟩
  | returns _ => exact ⟨by simp [Out.took, tookOf], rfl, rfl⟩

/-- The bytes still to read are at most those asked for. -/
def Pc.Ok : Pc → Prop
  | .out => True
  | .read target n | .asleep target n => n ≤ target

theorem Pc.Ok.wake {c : Pc} (h : c.Ok) : c.wake.Ok := by
  cases c <;> exact h

/-- The run has taken the committed input in order; the buffer holds the rest. -/
structure Inv (es : List (Act P × Out)) (s : State P) : Prop where
  holds : s.input.Holds (typed es)
  took : took es = (typed es).committed.take (typed es).taken
  copied : copied es = (Console.took es).filter (· ≠ ctrl 'D')
  pc : ∀ q, (s.proc q).pc.Ok

omit [DecidableEq P] in
theorem typed_snoc : typed (es ++ [e]) = (typed es).next e := by
  simp [typed]

omit [DecidableEq P] in
theorem took_snoc : took (es ++ [e]) = took es ++ e.2.took := by
  simp [took]

omit [DecidableEq P] in
theorem copied_snoc : copied (es ++ [e]) = copied es ++ e.2.copied := by
  simp [copied]

theorem set_pc_ok {x : Proc} (h : ∀ r, (s.proc r).pc.Ok) (hx : x.pc.Ok) (r : P) : ((s.set q x).proc r).pc.Ok := by
  by_cases hr : r = q
  · subst hr
    simpa [State.set] using hx
  · simpa [State.set, hr] using h r

theorem feed_committed (t : Typed) (c : UInt8) :
    (t.feed c).taken = t.taken ∧ t.committed <+: (t.feed c).committed := by
  unfold Typed.feed
  dsimp only
  split_ifs
  all_goals simp

omit [DecidableEq P] in
/-- A character changes the line, and takes nothing. -/
theorem Inv.intr (h : Inv es s) (c : UInt8) : Inv (es ++ [(.intr c, ({} : Out))]) (s.intr c) := by
  obtain ⟨htaken, hcomm⟩ := feed_committed (typed es) c
  have hnext : (typed es).next ((.intr c, {}) : Act P × Out) = (typed es).feed c := rfl
  have hinput : (s.intr c).input = (s.input.consoleintr c).1 := by
    unfold State.intr
    dsimp only
    split_ifs <;> rfl
  refine ⟨?_, ?_, ?_, fun r => ?_⟩
  · rw [typed_snoc, hnext, hinput]
    exact h.holds.consoleintr c
  · rw [typed_snoc, hnext, took_snoc, h.took, htaken]
    obtain ⟨more, hmore⟩ := hcomm
    rw [← hmore, List.take_append_of_le_length h.holds.le]
    simp [Out.took]
  · rw [copied_snoc, took_snoc, h.copied]
    simp [Out.took]
  · unfold State.intr
    dsimp only
    split_ifs
    · exact (h.pc r).wake
    · exact h.pc r

omit [DecidableEq P] in
/-- A step of a process that takes nothing. -/
theorem Inv.idle (h : Inv es s) {a : Act P} (ha : ∀ c, a ≠ .intr c) (hi : s'.input = s.input)
    (hpc : ∀ r, (s'.proc r).pc.Ok) : Inv (es ++ [(a, ({} : Out))]) s' := by
  have hnext : (typed es).next ((a, {}) : Act P × Out) = typed es := by
    cases a with
    | intr c => exact absurd rfl (ha c)
    | read => rfl
    | run => rfl
    | kill => rfl
  refine ⟨?_, ?_, ?_, hpc⟩
  · rw [typed_snoc, hnext, hi]
    exact h.holds
  · rw [typed_snoc, hnext, took_snoc, h.took]
    simp [Out.took]
  · rw [copied_snoc, took_snoc, h.copied]
    simp [Out.took]

theorem Inv.run (h : Inv es s) (hq : (s.proc q).pc = .read target n) :
    Inv (es ++ [(.run q raced, (s.consoleread q raced target n).2)]) (s.consoleread q raced target n).1 := by
  have hs : Section s q target n (s.input.readLoop target n) (s.consoleread q raced target n) := consoleread_section
  have hr : ReadsTo (typed es) target n (s.input.readLoop target n) := h.holds.reads
  generalize s.input.readLoop target n = x at hs hr
  generalize s.consoleread q raced target n = o at hs
  have hn := h.pc q
  rw [hq] at hn
  obtain ⟨htook, hcopied, hinput⟩ := hs.took
  have hnext : (typed es).next (.run q raced, o.2)
      = { typed es with taken := (typed es).taken + (tookOf x).length } := by
    rw [← htook]
    rfl
  refine ⟨?_, ?_, ?_, fun r => ?_⟩
  · rw [typed_snoc, hnext, hinput]
    exact hr.holds
  · rw [typed_snoc, hnext, took_snoc, h.took, htook]
    exact hr.bytes
  · rw [copied_snoc, took_snoc, h.copied, htook, hcopied, List.filter_append]
    congr 1
    rw [tookOf, List.filter_append]
    have hall : x.2.1.filter (· ≠ ctrl 'D') = x.2.1 := by
      rw [List.filter_eq_self]
      intro c hc
      exact decide_eq_true fun heq => hr.clean (heq ▸ hc)
    rw [hall]
    split_ifs <;> simp
  · cases hs with
    | killed _ => exact set_pc_ok h.pc (x := { s.proc q with pc := .out }) trivial r
    | sleeps _ _ => exact set_pc_ok h.pc ((sub_le _ _).trans hn) r
    | returns _ => exact set_pc_ok h.pc (x := { s.proc q with pc := .out }) trivial r

theorem Inv.step (h : Inv es s) (hs : Step s e s') : Inv (es ++ [e]) s' := by
  cases hs with
  | intr => exact h.intr _
  | read hq => exact h.idle (by simp) rfl (set_pc_ok h.pc le_rfl)
  | run hq => exact h.run hq
  | @kill q => exact h.idle (by simp) rfl (set_pc_ok h.pc (h.pc q).wake)

theorem Run.inv (h : Run (system P) es s) : Inv es s := by
  apply h.invariant
  · intro s h0
    obtain ⟨hi, hq⟩ := h0
    refine ⟨?_, rfl, rfl, fun q => ?_⟩
    · rw [hi]
      exact ⟨Window.Holds.empty, le_rfl, rfl, List.not_mem_nil⟩
    · rw [hq q]
      trivial
  · intro es s e s' _ hi hs
    exact hi.step hs

/-- What a read that returns tells about `^D`: a read returns nothing exactly if it takes one; a shorter read
than asked for ends with a newline or in front of one. -/
theorem Section.ends (h : Section s q target n x o) (hr : ReadsTo t target n x) (hn : n ≤ target) :
    (o.2.eof = true ↔ 0 < target ∧ o.2.ret = some 0) ∧
      ∀ k, o.2.ret = some k → 0 < k → k < target →
        o.2.copied.getLast? = some LF ∨ t.committed[t.taken + o.2.took.length]? = some (ctrl 'D') := by
  have hlen := hr.le
  cases h with
  | killed => exact ⟨by simp, fun k hk => by simp at hk; omega⟩
  | sleeps => exact ⟨by simp, fun k hk => by simp at hk⟩
  | returns hne =>
    obtain ⟨p, cs, stop⟩ := x
    dsimp only at hlen hne ⊢
    simp only [Option.some.injEq, decide_eq_true_eq]
    cases stop with
    | empty => exact absurd rfl hne
    | eof =>
      obtain ⟨h1, h2⟩ := hr.eof rfl
      dsimp only at h1 h2
      exact ⟨⟨fun _ => ⟨by omega, by omega⟩, fun _ => rfl⟩, fun k hk hpos => by omega⟩
    | kept =>
      obtain ⟨h1, h2, h3⟩ := hr.kept rfl
      dsimp only at h1 h2 h3
      refine ⟨⟨fun hst => by simp at hst, fun h0 => by omega⟩, fun k hk _ _ => .inr ?_⟩
      simpa [Out.took] using h3
    | line =>
      rcases hr.line rfl with hl | hl
      · dsimp only at hl
        exact ⟨⟨fun hst => by simp at hst, fun h0 => by omega⟩, fun k hk _ hlt => by omega⟩
      · dsimp only at hl
        have hcs : 0 < cs.length := List.length_pos_of_ne_nil fun hnil => by simp [hnil] at hl
        exact ⟨⟨fun hst => by simp at hst, fun h0 => by omega⟩, fun _ _ _ _ => .inl hl⟩

end Xv6.Console

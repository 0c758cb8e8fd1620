import Xv6.Proofs.Regex
import Xv6.Proofs.Memmove
import Xv6.Lib.Lines
import Mathlib.Data.List.GetD

/-! What `grep` writes for every pattern and every way `read` splits the input. A chunk without a newline is thrown away with
what was left of the line before it, so the line is seen from after that chunk on. -/

namespace Xv6.Grep

open Bytes Lines Function Nat
open List (length_cons mem_cons length_append mem_append append_assoc not_mem_nil)

variable {pattern r t l c : List UInt8} {buf buf' : Memory} {p n : ℕ} {s : State} {chunks : List (List UInt8)}

/-- The buffer has `t` at `p`. -/
def Text (buf : Memory) : ℕ → List UInt8 → Prop
  | _, [] => True
  | p, x :: t => buf p = x ∧ Text buf (p + 1) t

theorem text_iff : Text buf p t ↔ ∀ i, (h : i < t.length) → buf (p + i) = t.get ⟨i, h⟩ := by
  induction t generalizing p with
  | nil => exact ⟨fun _ i h => absurd h (not_lt_zero i), fun _ => trivial⟩
  | cons x t ih =>
    rw [Text, ih]
    constructor
    · intro ⟨hx, ht⟩ i hi
      cases i with
      | zero => exact hx
      | succ i =>
        rw [show p + (i + 1) = p + 1 + i by omega]
        exact ht i (lt_of_succ_lt_succ hi)
    · intro h
      refine ⟨h 0 (succ_pos _), fun i hi => ?_⟩
      rw [show p + 1 + i = p + (i + 1) by omega]
      exact h (i + 1) (succ_lt_succ hi)

theorem text_append : Text buf p (l ++ t) ↔ Text buf p l ∧ Text buf (p + l.length) t := by
  induction l generalizing p with
  | nil => simp [Text]
  | cons x l ih =>
    rw [List.cons_append, Text, Text, ih, length_cons, add_right_comm, add_assoc p, and_assoc]

theorem Text.congr (h : Text buf p t) (heq : ∀ a, p ≤ a → a < p + t.length → buf' a = buf a) : Text buf' p t := by
  rw [text_iff] at h ⊢
  intro i hi
  rw [heq _ (le_add_right _ _) (by omega), h i hi]

theorem Text.range (h : Text buf p t) : ((List.range t.length).map fun i => buf (p + i)) = t := by
  rw [text_iff] at h
  apply List.ext_get
  · simp
  · intro i hi hi'
    simp only [List.get_eq_getElem, List.getElem_map, List.getElem_range]
    exact h i hi'

theorem strchr_found (h : Text buf p (l ++ NL :: t)) (hnl : NL ∉ l) (h0 : 0 ∉ l) (hn : l.length < n) :
    strchr buf NL n p = some (p + l.length) := by
  induction l generalizing p n with
  | nil =>
    cases n with
    | zero => exact absurd hn (not_lt_zero _)
    | succ n =>
      rw [strchr, h.1]
      rfl
  | cons x l ih =>
    rw [mem_cons, not_or] at hnl h0
    cases n with
    | zero => exact absurd hn (not_lt_zero _)
    | succ n =>
      rw [strchr, h.1, if_neg (Ne.symm h0.1), if_neg (Ne.symm hnl.1), ih h.2 hnl.2 h0.2 (lt_of_succ_lt_succ hn)]
      rw [length_cons, add_assoc, add_comm 1]

theorem strchr_none (h : Text buf p t) (hend : buf (p + t.length) = 0) (hnl : NL ∉ t) : strchr buf NL n p = none := by
  induction t generalizing p n with
  | nil =>
    cases n with
    | zero => rfl
    | succ n => exact if_pos hend
  | cons x t ih =>
    rw [mem_cons, not_or] at hnl
    cases n with
    | zero => rfl
    | succ n =>
      rw [strchr, h.1]
      split_ifs with h0 hx
      · rfl
      · exact absurd hx.symm hnl.1
      · apply ih h.2 _ hnl.2
        rw [← hend, length_cons, add_assoc, add_comm 1]

theorem cstr_eq (h : Text buf p l) (hend : buf (p + l.length) = 0) (h0 : 0 ∉ l) (hn : l.length ≤ n) : cstr buf n p = l := by
  induction l generalizing p n with
  | nil =>
    cases n with
    | zero => rfl
    | succ n => exact if_pos hend
  | cons x l ih =>
    rw [mem_cons, not_or] at h0
    cases n with
    | zero => exact absurd hn (not_succ_le_zero _)
    | succ n =>
      rw [cstr, h.1, if_neg (Ne.symm h0.1), ih h.2 _ h0.2 (le_of_succ_le_succ hn)]
      rw [← hend, length_cons, add_assoc, add_comm 1]

/-- What is written for these lines. -/
def written (pattern : List UInt8) (ls : List (List UInt8)) : List (List UInt8) :=
  (ls.filter (matchRe pattern)).map (· ++ [NL])

theorem written_append (ls ls' : List (List UInt8)) : written pattern (ls ++ ls') = written pattern ls ++ written pattern ls' := by
  rw [written, List.filter_append, List.map_append]
  rfl

theorem cut_rest_length_le (t : List UInt8) : (cut NL t).2.length ≤ t.length := by
  cases first_line NL t with
  | inl h => rw [cut_of_not_mem h]
  | inr h =>
    obtain ⟨l, t', rfl, hl⟩ := h
    rw [cut_line hl, length_append, length_cons]
    have := cut_rest_length_le t'
    dsimp only
    omega
  termination_by t.length

/-- The inner loop: the lines of the text at `p` are looked at, and what is left of it stays where it is. -/
theorem grepLines_eq {fuel : ℕ} (h : Text s.buf p t) (hend : s.buf (p + t.length) = 0) (h0 : 0 ∉ t)
    (hroom : p + t.length < BUFSIZE) (hfuel : t.length < fuel) :
    ∃ buf', grepLines pattern fuel p s =
        (p + (t.length - (cut NL t).2.length), { s with buf := buf', out := s.out ++ written pattern (cut NL t).1 }) ∧
      Text buf' (p + (t.length - (cut NL t).2.length)) (cut NL t).2 := by
  induction fuel generalizing p t s with
  | zero => exact absurd hfuel (not_lt_zero _)
  | succ fuel ih =>
    cases first_line NL t with
    | inl hnl =>
      refine ⟨s.buf, ?_, ?_⟩
      · rw [grepLines, strchr_none h hend hnl, cut_of_not_mem hnl, Nat.sub_self]
        simp [written]
      · rw [cut_of_not_mem hnl, Nat.sub_self]
        exact h
    | inr hline =>
      obtain ⟨l, t', rfl, hl⟩ := hline
      rw [length_append, length_cons] at hroom hend hfuel
      rw [mem_append, mem_cons, not_or, not_or] at h0
      have hfound := strchr_found h hl h0.1 (show l.length < BUFSIZE - p by omega)
      obtain ⟨hline, hnl, hrest⟩ := text_append.1 h
      -- whichever way the line is dealt with, the text after it is as it was
      have hnext : ∀ (bufX : Memory) (outX : List (List UInt8)), (∀ a, p + l.length < a → bufX a = s.buf a) →
          outX = s.out ++ written pattern [l] →
          ∃ buf', grepLines pattern fuel (p + l.length + 1) { s with buf := bufX, out := outX } =
              (p + ((l ++ NL :: t').length - (cut NL (l ++ NL :: t')).2.length),
                { s with buf := buf', out := s.out ++ written pattern (cut NL (l ++ NL :: t')).1 }) ∧
            Text buf' (p + ((l ++ NL :: t').length - (cut NL (l ++ NL :: t')).2.length)) (cut NL (l ++ NL :: t')).2 := by
        intro bufX outX hsame hout
        have htext : Text bufX (p + l.length + 1) t' := hrest.congr fun a ha _ => hsame a ha
        have hnul : bufX (p + l.length + 1 + t'.length) = 0 := by
          rw [hsame _ (by omega), ← hend]
          congr 1
          omega
        obtain ⟨buf', heq, htext'⟩ := ih (s := { s with buf := bufX, out := outX }) htext hnul h0.2.2 (by omega) (by omega)
        have hle := cut_rest_length_le t'
        have hat : p + l.length + 1 + (t'.length - (cut NL t').2.length) =
            p + ((l ++ NL :: t').length - (cut NL (l ++ NL :: t')).2.length) := by
          rw [cut_line hl, length_append, length_cons]
          dsimp only
          omega
        rw [hat] at heq htext'
        refine ⟨buf', ?_, ?_⟩
        · rw [heq, hout, cut_line hl, append_assoc, ← written_append]
          rfl
        · rw [cut_line hl] at htext' ⊢
          exact htext'
      rw [grepLines, hfound]
      dsimp only
      have hcstr : cstr (update s.buf (p + l.length) 0) (BUFSIZE - p) p = l := by
        apply cstr_eq (hline.congr fun a _ ha => update_of_ne (by omega) _ _) (update_self _ _ _) h0.1
        omega
      rw [hcstr]
      split_ifs with hm
      · apply hnext
        · intro a ha
          rw [update_of_ne (by omega), update_of_ne (by omega)]
        · have hwrite : Text (update (update s.buf (p + l.length) 0) (p + l.length) NL) p (l ++ [NL]) := by
            rw [text_append]
            refine ⟨hline.congr fun a _ ha => ?_, update_self _ _ _, trivial⟩
            rw [update_of_ne (by omega), update_of_ne (by omega)]
          have hlen : p + l.length + 1 - p = (l ++ [NL]).length := by
            rw [length_append, List.length_singleton]
            omega
          rw [hlen, hwrite.range]
          simp [written, hm]
      · apply hnext
        · intro a ha
          rw [update_of_ne (by omega)]
        · simp [written, hm]

/-- What is left of a line in the buffer, at the head of the outer loop. -/
structure Left (s : State) (r : List UInt8) : Prop where
  len : s.m = r.length
  text : Text s.buf 0 r
  nl : NL ∉ r
  nul : 0 ∉ r

/-- What is left after a chunk: without a newline, nothing. -/
def leftAfter (r chunk : List UInt8) : List UInt8 := if NL ∈ chunk then (cut NL (r ++ chunk)).2 else []

/-- The buffer after `read`. -/
theorem read_text (h : Text buf 0 r) : Text (update (overlay buf r.length c) (r.length + c.length) 0) 0 (r ++ c) := by
  rw [text_append]
  constructor
  · apply h.congr
    intro a _ ha
    rw [update_of_ne (by omega), overlay_out (by omega)]
  · rw [text_iff]
    intro i hi
    rw [update_of_ne (by omega), zero_add, overlay_in hi, List.getD_eq_getElem _ _ hi]
    rfl

theorem memmove_text (h : Text buf p t) (hroom : p + t.length < 2 ^ 31) : Text (Ulib.memmove 0 p t.length buf) 0 t := by
  rw [Ulib.memmove_up (by omega)]
  rw [text_iff] at h ⊢
  intro i hi
  rw [← h i hi]
  exact copyUp_down (by omega) (by omega) (zero_le p) hi

theorem mem_cut_rest {x : UInt8} (t : List UInt8) (h : x ∈ (cut NL t).2) : x ∈ t := by
  cases first_line NL t with
  | inl hnl =>
    rw [cut_of_not_mem hnl] at h
    exact h
  | inr hline =>
    obtain ⟨l, t', rfl, hl⟩ := hline
    rw [cut_line hl] at h
    exact List.mem_append_right _ (List.mem_cons_of_mem _ (mem_cut_rest t' h))
  termination_by t.length

theorem cut_rest_length_lt (h : NL ∈ t) : (cut NL t).2.length < t.length := by
  obtain ⟨l, t', rfl, hl⟩ := List.eq_append_cons_of_mem h
  have := cut_rest_length_le t'
  rw [cut_line hl, length_append, length_cons]
  dsimp only
  omega

/-- One round of the outer loop. -/
theorem grepRound_eq (h : Left s r) (hfit : r.length + c.length < BUFSIZE) (h0 : 0 ∉ c) :
    Left (grepRound pattern s c) (leftAfter r c) ∧
      (grepRound pattern s c).out = s.out ++ written pattern (cut NL (r ++ c)).1 := by
  have hmem : ∀ x, x ∈ r ++ c ↔ x ∈ r ∨ x ∈ c := fun x => mem_append
  have h0' : 0 ∉ r ++ c := by
    rw [hmem, not_or]
    exact ⟨h.nul, h0⟩
  have hlen : (r ++ c).length = r.length + c.length := length_append
  obtain ⟨buf, m, out⟩ := s
  obtain rfl : m = r.length := h.len
  have hread := read_text (c := c) h.text
  have hnul : update (overlay buf r.length c) (r.length + c.length) 0 (0 + (r ++ c).length) = 0 := by
    rw [hlen, zero_add, update_self]
  obtain ⟨buf', heq, htext⟩ := @grepLines_eq pattern (r ++ c) 0
    ⟨update (overlay buf r.length c) (r.length + c.length) 0, r.length, out⟩ BUFSIZE hread hnul h0' (by omega) (by omega)
  rw [zero_add] at heq htext
  unfold grepRound
  dsimp only
  rw [heq]
  dsimp only
  by_cases hnl : NL ∈ c
  · have hlt := cut_rest_length_lt ((hmem NL).2 (.inr hnl))
    have hpos : (r ++ c).length - (cut NL (r ++ c)).2.length ≠ 0 := by omega
    have hm : r.length + c.length - ((r ++ c).length - (cut NL (r ++ c)).2.length) = (cut NL (r ++ c)).2.length := by omega
    rw [if_neg hpos, if_pos (by omega), hm]
    refine ⟨⟨?_, ?_, ?_, ?_⟩, rfl⟩
    · rw [leftAfter, if_pos hnl]
    · rw [leftAfter, if_pos hnl]
      refine memmove_text htext ?_
      unfold BUFSIZE at hfit
      omega
    · rw [leftAfter, if_pos hnl]
      exact cut_rest_not_mem
    · rw [leftAfter, if_pos hnl]
      exact fun hx => h0' (mem_cut_rest _ hx)
  · have hno : NL ∉ r ++ c := by
      rw [hmem, not_or]
      exact ⟨h.nl, hnl⟩
    have hzero : (r ++ c).length - (cut NL (r ++ c)).2.length = 0 := by rw [cut_of_not_mem hno, Nat.sub_self]
    rw [if_pos hzero, if_neg (Nat.lt_irrefl 0), leftAfter, if_neg hnl]
    exact ⟨⟨rfl, trivial, not_mem_nil, not_mem_nil⟩, rfl⟩

/-- The lines as `grep` sees them. -/
def seen (r : List UInt8) : List (List UInt8) → List (List UInt8)
  | [] => []
  | c :: chunks => (cut NL (r ++ c)).1 ++ seen (leftAfter r c) chunks

/-- The whole loop. -/
theorem foldl_grepRound (h : Left s r) (hfits : Fits pattern s chunks) (h0 : ∀ c ∈ chunks, 0 ∉ c) :
    (chunks.foldl (grepRound pattern) s).out = s.out ++ written pattern (seen r chunks) := by
  induction chunks generalizing s r with
  | nil => simp [seen, written]
  | cons c chunks ih =>
    obtain ⟨hne, hlen, hfits⟩ := hfits
    have hpos := List.length_pos_iff.2 hne
    obtain ⟨hleft, hout⟩ := @grepRound_eq pattern r c s h (by rw [h.len] at hlen; omega) (h0 c List.mem_cons_self)
    rw [List.foldl_cons, ih hleft hfits fun d hd => h0 d (List.mem_cons_of_mem _ hd), hout, append_assoc,
      ← written_append, seen]

/-- What fits does not depend on the pattern. -/
theorem Fits.other {p : List UInt8} {t : State} (hfits : Fits p t chunks) (h : Left t r) (h' : Left s r)
    (h0 : ∀ c ∈ chunks, 0 ∉ c) : Fits pattern s chunks := by
  induction chunks generalizing s t r with
  | nil => trivial
  | cons c chunks ih =>
    obtain ⟨hne, hlen, hfits⟩ := hfits
    have hpos := List.length_pos_iff.2 hne
    have hc := h0 c List.mem_cons_self
    rw [h.len] at hlen
    refine ⟨hne, by rwa [h'.len], ih hfits (grepRound_eq h (by omega) hc).1 (grepRound_eq h' (by omega) hc).1 ?_⟩
    exact fun d hd => h0 d (List.mem_cons_of_mem _ hd)

theorem left_start : Left start [] := ⟨rfl, trivial, not_mem_nil, not_mem_nil⟩

theorem grep_eq {p : List UInt8} (hfits : Fits p start chunks) (h0 : ∀ c ∈ chunks, 0 ∉ c) :
    grep pattern chunks = written pattern (seen [] chunks) :=
  foldl_grepRound left_start (hfits.other left_start left_start h0) h0

theorem leftAfter_not_mem : NL ∉ leftAfter r c := by
  unfold leftAfter
  split_ifs
  · exact cut_rest_not_mem
  · exact not_mem_nil

/-- With a newline in the chunk, nothing is lost. -/
theorem cut_chunk (h : NL ∈ c) (u : List UInt8) :
    (cut NL (r ++ (c ++ u))).1 = (cut NL (r ++ c)).1 ++ (cut NL (leftAfter r c ++ u)).1 := by
  rw [← append_assoc, cut_append, leftAfter, if_pos h]

theorem seen_chunk_without (hr : NL ∉ r) (hc : NL ∉ c) (chunks : List (List UInt8)) : seen r (c :: chunks) = seen [] chunks := by
  have hrc : NL ∉ r ++ c := by
    rw [mem_append, not_or]
    exact ⟨hr, hc⟩
  rw [seen, cut_of_not_mem hrc, leftAfter, if_neg hc, List.nil_append]

/-- `grep` sees no more than there is. -/
theorem total_seen_le (hr : NL ∉ r) (chunks : List (List UInt8)) :
    total (seen r chunks) ≤ total (cut NL (r ++ chunks.flatten)).1 := by
  induction chunks generalizing r with
  | nil => exact zero_le _
  | cons c chunks ih =>
    rw [List.flatten_cons]
    by_cases hc : NL ∈ c
    · rw [seen, cut_chunk hc, total_append, total_append]
      exact Nat.add_le_add_left (ih leftAfter_not_mem) _
    · rw [seen_chunk_without hr hc, ← append_assoc]
      have hrc : NL ∉ r ++ c := by
        rw [mem_append, not_or]
        exact ⟨hr, hc⟩
      refine (ih not_mem_nil).trans ?_
      rw [List.nil_append]
      by_cases hflat : NL ∈ chunks.flatten
      · rw [total_cut_append hrc hflat]
        exact le_add_left _ _
      · rw [cut_of_not_mem hflat]
        exact zero_le _

theorem seen_eq_nil (h : NL ∉ chunks.flatten) : seen [] chunks = [] := by
  induction chunks with
  | nil => rfl
  | cons c chunks ih =>
    rw [List.flatten_cons, mem_append, not_or] at h
    rw [seen_chunk_without not_mem_nil h.1, ih h.2]

/-- The lines are seen whole exactly when no chunk without a newline comes before one with a newline. -/
theorem seen_eq_iff (hr : NL ∉ r) (hne : ∀ c ∈ chunks, c ≠ []) :
    seen r chunks = (cut NL (r ++ chunks.flatten)).1 ↔ chunks.Pairwise fun c d => NL ∈ d → NL ∈ c := by
  induction chunks generalizing r with
  | nil =>
    rw [List.flatten_nil, List.append_nil, cut_of_not_mem hr]
    exact ⟨fun _ => List.Pairwise.nil, fun _ => rfl⟩
  | cons c chunks ih =>
    have hne' : ∀ d ∈ chunks, d ≠ [] := fun d hd => hne d (List.mem_cons_of_mem _ hd)
    rw [List.flatten_cons, List.pairwise_cons]
    by_cases hc : NL ∈ c
    · rw [seen, cut_chunk hc, List.append_cancel_left_eq, ih leftAfter_not_mem hne']
      exact ⟨fun h => ⟨fun _ _ _ => hc, h⟩, fun h => h.2⟩
    · rw [seen_chunk_without hr hc]
      have hrc : NL ∉ r ++ c := by
        rw [mem_append, not_or]
        exact ⟨hr, hc⟩
      rw [← append_assoc]
      by_cases hflat : NL ∈ chunks.flatten
      · -- the lost part is missing from the first line
        constructor
        · intro h
          have hlen := total_seen_le not_mem_nil chunks
          rw [h, total_cut_append hrc hflat, List.nil_append, length_append] at hlen
          have := List.length_pos_iff.2 (hne c List.mem_cons_self)
          omega
        · intro h
          obtain ⟨d, hd, hnl⟩ := List.mem_flatten.1 hflat
          exact absurd (h.1 d hd hnl) hc
      · have hnone : NL ∉ r ++ c ++ chunks.flatten := by
          rw [mem_append, not_or]
          exact ⟨hrc, hflat⟩
        have hno : ∀ d ∈ chunks, NL ∉ d := fun d hd h => hflat (List.mem_flatten.2 ⟨d, hd, h⟩)
        rw [seen_eq_nil hflat, cut_of_not_mem hnone]
        refine ⟨fun _ => ⟨fun d hd h => absurd h (hno d hd), ?_⟩, fun _ => rfl⟩
        exact List.pairwise_of_forall_mem_list fun c _ d hd h => absurd h (hno d hd)

theorem Fits.ne_nil (h : Fits pattern s chunks) : ∀ c ∈ chunks, c ≠ [] := by
  induction chunks generalizing s with
  | nil => exact fun _ hc => absurd hc not_mem_nil
  | cons c chunks ih =>
    rw [List.forall_mem_cons]
    exact ⟨h.1, ih h.2.2⟩

theorem written_inj {ls ls' : List (List UInt8)} :
    written pattern ls = written pattern ls' ↔ ls.filter (matchRe pattern) = ls'.filter (matchRe pattern) :=
  List.map_inj_right fun _ _ h => List.append_cancel_right h

theorem matchRe_nil (t : List UInt8) : matchRe [] t = true := by
  have hany : matchAny [] t = true := by
    cases t with
    | nil => rw [matchAny, matchhere]
    | cons x t => rw [matchAny, matchhere, if_pos rfl]
  exact hany

/-- For one pattern the output is right when the lines as seen and the lines of the input that match are the same; for every
pattern, when no chunk without a newline comes before one with a newline. -/
theorem grep_output_iff {p : List UInt8} {chunks : List (List UInt8)} (hfits : Fits p start chunks)
    (h0 : ∀ c ∈ chunks, 0 ∉ c) :
    (∀ pattern, grep pattern chunks = written pattern (cut NL chunks.flatten).1 ↔
      (seen [] chunks).filter (matchRe pattern) = (cut NL chunks.flatten).1.filter (matchRe pattern)) ∧
    ((∀ pattern, grep pattern chunks = written pattern (cut NL chunks.flatten).1) ↔
      chunks.Pairwise fun c d => NL ∈ d → NL ∈ c) := by
  have hone : ∀ pattern, grep pattern chunks = written pattern (cut NL chunks.flatten).1 ↔
      (seen [] chunks).filter (matchRe pattern) = (cut NL chunks.flatten).1.filter (matchRe pattern) := by
    intro pattern
    rw [grep_eq hfits h0, written_inj]
  refine ⟨hone, ?_⟩
  have hseen := seen_eq_iff (r := []) List.not_mem_nil hfits.ne_nil
  rw [List.nil_append] at hseen
  rw [← hseen]
  constructor
  · intro h
    have hall := (hone []).1 (h [])
    rw [List.filter_eq_self.2 fun l _ => matchRe_nil l, List.filter_eq_self.2 fun l _ => matchRe_nil l] at hall
    exact hall
  · intro h pattern
    rw [hone, h]

theorem fits_two {a b : List UInt8} {n : ℕ} (ha : a ≠ []) (hb : b ≠ []) (ha0 : 0 ∉ a) (halen : a.length < BUFSIZE)
    (hn : (leftAfter [] a).length = n) (hblen : b.length ≤ BUFSIZE - n - 1) : Fits pattern start [a, b] := by
  have hm := (@grepRound_eq pattern [] a start left_start (by simpa using halen) ha0).1.len
  refine ⟨ha, le_sub_one_of_lt halen, hb, ?_, trivial⟩
  rwa [hm, hn]

/-- Two lines, of which the second comes in two reads. -/
theorem grep_output_iff_two : Fits [0x61] start [[0x61, NL, 0x62], [0x63, NL]] ∧
    ∀ pattern, grep pattern [[0x61, NL, 0x62], [0x63, NL]] = written pattern [[0x61], [0x62, 0x63]] := by
  have hfits : Fits [0x61] start [[0x61, NL, 0x62], [0x63, NL]] :=
    fits_two (by decide) (by decide) (by decide) (by decide) (by decide : _ = 1) (by decide)
  exact ⟨hfits, (grep_output_iff hfits (by decide)).2.2 (by decide)⟩

/-- `grep a` on the line `ab`, read as `a` and the rest: nothing is written. -/
theorem grep_loses_line :
    Fits [0x61] start [[0x61], [0x62, NL]] ∧ grep [0x61] [[0x61], [0x62, NL]] = [] ∧
      written [0x61] (cut NL [0x61, 0x62, NL]).1 = [[0x61, 0x62, NL]] := by
  have hfits : Fits [0x61] start [[0x61], [0x62, NL]] :=
    fits_two (by decide) (by decide) (by decide) (by decide) (by decide : _ = 0) (by decide)
  have hseen : seen [] [[0x61], [0x62, NL]] = [[0x62]] := by decide
  have hcut : (cut NL [0x61, 0x62, NL]).1 = [[0x61, 0x62]] := by decide
  have hno : matchRe [0x61] [0x62] = false := by
    simp [matchRe, matchAny, matchhere, CARET, STAR, DOLLAR, DOT]
  have hyes : matchRe [0x61] [0x61, 0x62] = true := by
    simp [matchRe, matchAny, matchhere, CARET, STAR, DOLLAR, DOT]
  refine ⟨hfits, ?_, ?_⟩
  · rw [grep_eq hfits (by decide), hseen, written, List.filter_cons, hno]
    rfl
  · rw [hcut, written, List.filter_cons, hyes]
    rfl

end Xv6.Grep

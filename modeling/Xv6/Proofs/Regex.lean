import Xv6.Spec.Grep
import Mathlib.Computability.Language

/-! What the matcher of `grep.c` decides: the language of the pattern, read as a sequence of items. -/

namespace Xv6.Grep

open Computability List

/-- The items of a pattern, read from the left: a character, or a character and a star. -/
inductive Item where
  | one (c : UInt8)
  | star (c : UInt8)
  deriving DecidableEq, Repr

def items : List UInt8 → List Item
  | [] => []
  | [c] => [.one c]
  | c :: d :: re => if d = STAR then .star c :: items re else .one c :: items (d :: re)

/-- The words of one character that `c` stands for. -/
def charLang (c : UInt8) : Language UInt8 := {w | ∃ x, w = [x] ∧ (c = DOT ∨ c = x)}

def Item.lang : Item → Language UInt8
  | .one c => charLang c
  | .star c => (charLang c)∗

def lang (l : List Item) : Language UInt8 := (l.map Item.lang).prod

/-- The last item is a `$` without a star. -/
def anchored (re : List UInt8) : Prop := (items re).getLast? = some (.one DOLLAR)

instance (re : List UInt8) : Decidable (anchored re) := inferInstanceAs (Decidable (_ = _))

/-- The language of a pattern; the final `$` is not part of it. -/
def reLang (re : List UInt8) : Language UInt8 := lang (if anchored re then (items re).dropLast else items re)

/-- The pattern after its `^`. -/
def body (re : List UInt8) : List UInt8 := if re.head? = some CARET then re.tail else re

variable {c x : UInt8} {re text a b re' : List UInt8} {l : List Item} {i : Item}

theorem lang_cons : a ∈ lang (i :: l) ↔ ∃ u v, u ∈ i.lang ∧ v ∈ lang l ∧ a = u ++ v := by
  rw [lang, map_cons, prod_cons, Language.mem_mul]
  constructor
  · intro ⟨u, hu, v, hv, h⟩
    exact ⟨u, v, hu, hv, h.symm⟩
  · intro ⟨u, v, hu, hv, h⟩
    exact ⟨u, hu, v, hv, h.symm⟩

theorem lang_nil : a ∈ lang [] ↔ a = [] := Language.mem_one a

/-- The words of a starred character are those of its characters. -/
theorem mem_star_charLang : a ∈ (charLang c)∗ ↔ ∀ x ∈ a, c = DOT ∨ c = x := by
  rw [Language.mem_kstar]
  constructor
  · rintro ⟨ws, rfl, hws⟩ x hx
    obtain ⟨w, hw, hxw⟩ := mem_flatten.1 hx
    obtain ⟨y, rfl, hy⟩ := hws w hw
    rw [mem_singleton.1 hxw]
    exact hy
  · intro h
    refine ⟨a.map fun x => [x], ?_, ?_⟩
    · induction a with
      | nil => rfl
      | cons x a ih =>
        rw [map_cons, flatten_cons, ← ih fun y hy => h y (mem_cons_of_mem _ hy)]
        rfl
    · intro w hw
      obtain ⟨x, hx, rfl⟩ := mem_map.1 hw
      exact ⟨x, rfl, h x hx⟩

/-- The loop of `matchstar` tries every number of characters that `c` stands for. -/
theorem matchstar_iff : matchstar c re text = true ↔
    ∃ a b, text = a ++ b ∧ (∀ x ∈ a, c = DOT ∨ c = x) ∧ matchhere re b = true := by
  induction text with
  | nil =>
    rw [matchstar]
    simp
  | cons x text ih =>
    rw [matchstar]
    constructor
    · intro h
      split_ifs at h with hhere hstep
      · exact ⟨[], x :: text, rfl, by simp, hhere⟩
      · obtain ⟨a, b, rfl, ha, hb⟩ := ih.1 h
        refine ⟨x :: a, b, rfl, ?_, hb⟩
        rw [forall_mem_cons]
        exact ⟨hstep.symm.imp_right Eq.symm, ha⟩
    · rintro ⟨a, b, h, ha, hb⟩
      split_ifs with hhere hstep
      · rfl
      · cases a with
        | nil =>
          rw [nil_append] at h
          rw [h] at hhere
          exact absurd hb hhere
        | cons y a =>
          obtain ⟨rfl, rfl⟩ := cons.inj h
          exact ih.2 ⟨a, b, rfl, fun z hz => ha z (mem_cons_of_mem _ hz), hb⟩
      · cases a with
        | nil =>
          rw [nil_append] at h
          rw [h] at hhere
          exact absurd hb hhere
        | cons y a =>
          obtain ⟨rfl, rfl⟩ := cons.inj h
          exact absurd ((ha x mem_cons_self).symm.imp_left Eq.symm) hstep

/-- `text` starts with a word of the pattern, which is all of it if the pattern ends in `$`. -/
def Matches (re text : List UInt8) : Prop := ∃ a b, text = a ++ b ∧ a ∈ reLang re ∧ (anchored re → b = [])

theorem items_eq_nil : items re = [] ↔ re = [] := by
  constructor
  · intro h
    match re with
    | [] => rfl
    | [c] => exact absurd h (by simp [items])
    | c :: d :: re =>
      rw [items] at h
      split_ifs at h
  · intro h
    rw [h, items]

/-- The first item matches first, unless it is the final `$`. -/
theorem matches_cons (h : items re = i :: items re') (hi : i = .one DOLLAR → re' ≠ []) :
    Matches re text ↔ ∃ u rest, text = u ++ rest ∧ u ∈ i.lang ∧ Matches re' rest := by
  have hanch : anchored re ↔ anchored re' := by
    unfold anchored
    rw [h, getLast?_cons]
    cases hl : (items re').getLast? with
    | none =>
      rw [getLast?_eq_none_iff, items_eq_nil] at hl
      constructor
      · intro hd
        exact absurd hl (hi (Option.some.inj hd))
      · intro hd
        exact absurd hd (by simp)
    | some j => rfl
  have hlang : ∀ a, a ∈ reLang re ↔ ∃ u v, u ∈ i.lang ∧ v ∈ reLang re' ∧ a = u ++ v := by
    intro a
    unfold reLang
    simp only [hanch]
    split_ifs with hd
    · have hne : items re' ≠ [] := by
        intro h0
        rw [anchored, h0] at hd
        exact absurd hd (by simp)
      rw [h, dropLast_cons_of_ne_nil hne, lang_cons]
    · rw [h, lang_cons]
  constructor
  · rintro ⟨a, b, rfl, ha, hb⟩
    obtain ⟨u, v, hu, hv, rfl⟩ := (hlang a).1 ha
    exact ⟨u, v ++ b, append_assoc u v b, hu, v, b, rfl, hv, fun hd => hb (hanch.2 hd)⟩
  · rintro ⟨u, rest, rfl, hu, v, b, rfl, hv, hb⟩
    refine ⟨u ++ v, b, (append_assoc u v b).symm, (hlang _).2 ⟨u, v, hu, hv, rfl⟩, fun hd => hb (hanch.1 hd)⟩

theorem matches_nil : Matches [] text :=
  ⟨[], text, rfl, lang_nil.2 rfl, fun h => absurd h (by decide)⟩

theorem matches_dollar : Matches [DOLLAR] text ↔ text = [] := by
  have hlang : reLang [DOLLAR] = lang [] := rfl
  constructor
  · rintro ⟨a, b, rfl, ha, hb⟩
    rw [hlang] at ha
    rw [lang_nil.1 ha, hb rfl]
    rfl
  · rintro rfl
    exact ⟨[], [], rfl, lang_nil.2 rfl, fun _ => rfl⟩

/-- One character of the pattern that is not the final `$`, against the text. -/
theorem matches_one (h : items (c :: re') = .one c :: items re') (hi : ¬ (c = DOLLAR ∧ re' = [])) :
    Matches (c :: re') text ↔ ∃ x rest, text = x :: rest ∧ (c = DOT ∨ c = x) ∧ Matches re' rest := by
  rw [matches_cons h fun hc hre => hi ⟨Item.one.inj hc, hre⟩]
  constructor
  · rintro ⟨u, rest, rfl, ⟨x, rfl, hx⟩, hrest⟩
    exact ⟨x, rest, rfl, hx, hrest⟩
  · rintro ⟨x, rest, rfl, hx, hrest⟩
    exact ⟨[x], rest, rfl, ⟨x, rfl, hx⟩, hrest⟩

theorem matchhere_star (hstar : re.head? = some STAR) : matchhere (c :: re) text = matchstar c re.tail text := by
  rw [matchhere.eq_def]
  exact if_pos hstar

theorem matchhere_dollar : matchhere [DOLLAR] text = text.isEmpty := by
  rw [matchhere.eq_def]
  rfl

theorem matchhere_one (hstar : re.head? ≠ some STAR) (hd : ¬ (c = DOLLAR ∧ re = [])) :
    matchhere (c :: re) text = true ↔ ∃ x rest, text = x :: rest ∧ (c = DOT ∨ c = x) ∧ matchhere re rest = true := by
  rw [matchhere.eq_def]
  dsimp only
  rw [if_neg hstar, if_neg hd]
  cases text with
  | nil => simp
  | cons x text => simp

theorem items_one (hstar : re.head? ≠ some STAR) : items (c :: re) = .one c :: items re := by
  cases re with
  | nil => rfl
  | cons d re => rw [items, if_neg fun h => hstar (congrArg some h)]

/-- `matchhere` by recursion on the pattern: a starred character, the final `$`, or a character. -/
theorem matchhere_iff (re text : List UInt8) : matchhere re text = true ↔ Matches re text := by
  match re with
  | [] =>
    rw [matchhere]
    exact ⟨fun _ => matches_nil, fun _ => rfl⟩
  | c :: re =>
    by_cases hstar : re.head? = some STAR
    · obtain ⟨re', rfl⟩ : ∃ re', re = STAR :: re' := head?_eq_some_iff.1 hstar
      have hitems : items (c :: STAR :: re') = .star c :: items re' := by rw [items, if_pos rfl]
      rw [matchhere_star hstar, tail_cons, matchstar_iff, matches_cons hitems (by simp)]
      simp only [Item.lang, mem_star_charLang, matchhere_iff re']
    · by_cases hd : c = DOLLAR ∧ re = []
      · obtain ⟨rfl, rfl⟩ := hd
        rw [matchhere_dollar, matches_dollar, List.isEmpty_iff]
      · rw [matchhere_one hstar hd, matches_one (items_one hstar) hd]
        simp only [matchhere_iff re]
  termination_by re.length

/-- The loop of `match` looks at every suffix. -/
theorem matchAny_iff : matchAny re text = true ↔ ∃ a b, text = a ++ b ∧ Matches re b := by
  induction text with
  | nil =>
    rw [matchAny, matchhere_iff]
    simp
  | cons x text ih =>
    rw [matchAny]
    constructor
    · intro h
      split_ifs at h with hhere
      · exact ⟨[], x :: text, rfl, (matchhere_iff _ _).1 hhere⟩
      · obtain ⟨a, b, rfl, hb⟩ := ih.1 h
        exact ⟨x :: a, b, rfl, hb⟩
    · rintro ⟨a, b, h, hb⟩
      split_ifs with hhere
      · rfl
      · cases a with
        | nil =>
          rw [nil_append] at h
          rw [h, matchhere_iff] at hhere
          exact absurd hb hhere
        | cons y a =>
          obtain ⟨rfl, rfl⟩ := cons.inj h
          exact ih.2 ⟨a, b, rfl, hb⟩

/-- `match` succeeds exactly when a part of the text is a word of the pattern: one at the start after a `^`, and one that goes
to the end before a final `$`. -/
theorem match_correct (re text : List UInt8) : matchRe re text = true ↔
    ∃ pre mid post, text = pre ++ mid ++ post ∧ mid ∈ reLang (body re) ∧
      (re.head? = some CARET → pre = []) ∧ (anchored (body re) → post = []) := by
  unfold matchRe body
  split_ifs with hc
  · rw [matchhere_iff]
    constructor
    · rintro ⟨a, b, rfl, ha, hb⟩
      exact ⟨[], a, b, rfl, ha, fun _ => rfl, hb⟩
    · rintro ⟨pre, mid, post, rfl, hmid, hpre, hpost⟩
      rw [hpre hc]
      exact ⟨mid, post, rfl, hmid, hpost⟩
  · rw [matchAny_iff]
    constructor
    · rintro ⟨pre, b, rfl, mid, post, rfl, hmid, hpost⟩
      exact ⟨pre, mid, post, (append_assoc _ _ _).symm, hmid, fun h => absurd h hc, hpost⟩
    · rintro ⟨pre, mid, post, rfl, hmid, -, hpost⟩
      exact ⟨pre, mid ++ post, append_assoc _ _ _, mid, post, rfl, hmid, hpost⟩

/-- `a**`, read as a starred `a` and then a star. -/
example : items [0x61, STAR, STAR] = [.star 0x61, .one STAR] := by decide

/-- `$*` is not an anchor, and `a$` is. -/
example : ¬ anchored [DOLLAR, STAR] ∧ anchored [0x61, DOLLAR] := by decide

end Xv6.Grep

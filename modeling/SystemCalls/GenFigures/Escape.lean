import SystemCalls.GenFigures.Primitives
import SystemCalls.XmlText

/-!
# Escaping

`esc` makes three replacements one after the other. They come to one pass that maps each
character by itself, since no replacement writes a character that a later one looks for. The
result is character data, from which reading the entities gives the label back.
-/

namespace SystemCalls.GenFigures

open Xml

/-- What the three replacements make of one character. -/
def escChar (c : Char) : Str :=
  if c = '&' then "&amp;".toList
  else if c = '<' then "&lt;".toList
  else if c = '>' then "&gt;".toList
  else [c]

theorem text_esc_append (s t : Str) : (esc (s ++ t)).text = (esc s).text ++ (esc t).text := by
  simp only [esc, replace, List.flatMap_append]

theorem text_esc_singleton (c : Char) : (esc [c]).text = escChar c := by
  unfold escChar
  split
  next h => subst h; decide
  next hamp =>
    split
    next h => subst h; decide
    next hlt =>
      split
      next h => subst h; decide
      next hgt =>
        simp only [esc, replace, List.flatMap_singleton, if_neg hamp, if_neg hlt, if_neg hgt]

theorem text_esc (s : Str) : (esc s).text = s.flatMap escChar := by
  induction s with
  | nil => rfl
  | cons c s ih =>
    rw [List.flatMap_cons, ← ih, ← text_esc_singleton, ← text_esc_append]
    rfl

theorem CharData.escChar_append {s : Str} (h : CharData s) (c : Char) :
    CharData (escChar c ++ s) := by
  unfold escChar
  split
  · exact .amp h
  · split
    · exact .lt h
    · split
      · exact .gt h
      · exact .char ⟨‹_›, ‹_›⟩ h

theorem charData_esc (s : Str) : CharData (esc s).text := by
  rw [text_esc]
  induction s with
  | nil => exact .nil
  | cons c s ih => exact CharData.escChar_append ih c

theorem decode_escChar_append (c : Char) (s : Str) :
    decode (escChar c ++ s) = c :: decode s := by
  unfold escChar
  split_ifs with hamp hlt hgt
  · rw [hamp]
    rfl
  · rw [hlt]
    rfl
  · rw [hgt]
    rfl
  · exact decode_cons s hamp

theorem decode_esc (s : Str) : decode (esc s).text = s := by
  rw [text_esc]
  induction s with
  | nil => rfl
  | cons c s ih => rw [List.flatMap_cons, decode_escChar_append, ih]

/-! ### What is left of the markup -/

def entities : List Str := ["&amp;".toList, "&lt;".toList, "&gt;".toList]

/-- Every `&` begins one of the three entities. -/
def EntitiesOnly (s : Str) : Prop :=
  ∀ pre post, s = pre ++ '&' :: post → ∃ e ∈ entities, e <+: '&' :: post

variable {s w : Str} {c : Char}

theorem EntitiesOnly.nil : EntitiesOnly [] := by
  intro pre post heq
  simp at heq

theorem EntitiesOnly.cons (hc : c ≠ '&') (h : EntitiesOnly s) : EntitiesOnly (c :: s) := by
  intro pre post heq
  cases pre with
  | nil => exact (hc (List.cons.inj heq).1).elim
  | cons d pre => exact h pre post (List.cons.inj heq).2

theorem EntitiesOnly.append (hw : '&' ∉ w) (h : EntitiesOnly s) : EntitiesOnly (w ++ s) := by
  induction w with
  | nil => exact h
  | cons c w ih =>
    rw [List.mem_cons, not_or] at hw
    exact (ih hw.2).cons (Ne.symm hw.1)

theorem EntitiesOnly.entity (he : '&' :: w ∈ entities) (hw : '&' ∉ w) (h : EntitiesOnly s) :
    EntitiesOnly ('&' :: w ++ s) := by
  intro pre post heq
  cases pre with
  | nil =>
    rw [List.nil_append] at heq
    exact ⟨_, he, s, heq⟩
  | cons d pre => exact h.append hw pre post (List.cons.inj heq).2

theorem EntitiesOnly.of_charData (h : CharData s) : EntitiesOnly s := by
  induction h with
  | nil => exact .nil
  | char hc _ ih => exact ih.cons hc.2
  | amp _ ih => exact .entity (by decide) (by decide) ih
  | lt _ ih => exact .entity (by decide) (by decide) ih
  | gt _ ih => exact .entity (by decide) (by decide) ih

theorem lt_notMem_escChar (c : Char) : '<' ∉ escChar c := by
  unfold escChar
  split_ifs with hamp hlt hgt
  · decide
  · decide
  · decide
  · simpa using Ne.symm hlt

theorem gt_notMem_escChar (c : Char) : '>' ∉ escChar c := by
  unfold escChar
  split_ifs with hamp hlt hgt
  · decide
  · decide
  · decide
  · simpa using Ne.symm hgt

/-- No markup is left in a label, and all of the label is. -/
theorem esc_invertible (s : Str) :
    '<' ∉ (esc s).text ∧ '>' ∉ (esc s).text ∧ EntitiesOnly (esc s).text ∧
      decode (esc s).text = s ∧ (esc s).text = s.flatMap escChar ∧
      ∀ t, (esc (s ++ t)).text = (esc s).text ++ (esc t).text := by
  have heach : ∀ d, (∀ c, d ∉ escChar c) → d ∉ (esc s).text := by
    intro d hd hmem
    rw [text_esc, List.mem_flatMap] at hmem
    obtain ⟨c, -, hc⟩ := hmem
    exact hd c hc
  exact ⟨heach _ lt_notMem_escChar, heach _ gt_notMem_escChar, .of_charData (charData_esc s),
    decode_esc s, text_esc s, text_esc_append s⟩

end SystemCalls.GenFigures

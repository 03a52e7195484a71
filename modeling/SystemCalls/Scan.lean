import SystemCalls.Atoi
import Mathlib.Data.List.Infix

/-!
# Scanning a line

`sscanf` with a word that is skipped, a `long` and a unit, and `strstr`. Where the word is
followed by digits the number is theirs; nothing is stored when the digits are in the word.
-/

namespace SystemCalls.Scan

/-- What `sscanf` returns and stores. -/
structure Scanned where
  count : ℤ
  val : Option ℤ
  unit : Option (List UInt8)

/-- The input ended before a conversion. -/
def Scanned.eof : Scanned := ⟨-1, none, none⟩

def skipSpace (text : List UInt8) : List UInt8 := text.dropWhile isspace

/-- The text behind the sign. -/
def unsigned : List UInt8 → List UInt8
  | 45 :: rest | 43 :: rest => rest
  | rest => rest

/-- `"%ld %15s"`, where no white space is left in front. A number that is no `long` becomes
what `strtol` makes of it. -/
def scanLong (text : List UInt8) : Scanned :=
  if text = [] then .eof
  else if (unsigned text).takeWhile isdigit = [] then ⟨0, none, none⟩
  else
    let unit := skipSpace ((unsigned text).dropWhile isdigit)
    if unit = [] then ⟨1, some (strtol text), none⟩
    else ⟨2, some (strtol text), some ((unit.takeWhile (!isspace ·)).take 15)⟩

/-- `sscanf(line, "%*s %ld %15s", &val, unit)` -/
def sscanf (line : List UInt8) : Scanned :=
  if skipSpace line = [] then .eof
  else scanLong (skipSpace ((skipSpace line).dropWhile (!isspace ·)))

/-- The rest of `haystack` from the first `needle` on. -/
def strstr (haystack needle : List UInt8) : Option (List UInt8) :=
  haystack.tails.find? needle.isPrefixOf

variable {key text w s d q v t : List UInt8}

theorem strstr_isSome : (strstr text key).isSome ↔ key <:+: text := by
  simp only [strstr, List.find?_isSome, List.mem_tails, List.isPrefixOf_iff_prefix,
    List.infix_iff_prefix_suffix, and_comm]

theorem sscanf_eq (line : List UInt8) :
    sscanf line = scanLong (skipSpace ((skipSpace line).dropWhile (!isspace ·))) := by
  unfold sscanf
  split
  next h =>
    rw [h]
    rfl
  next => rfl

/-- The conversion of a number fails exactly when nothing is stored. -/
theorem count_lt_iff (line : List UInt8) : (sscanf line).count < 1 ↔ (sscanf line).val = none := by
  rw [sscanf_eq]
  unfold scanLong
  split
  · simp [Scanned.eof]
  · split
    · simp
    · dsimp only
      split <;> simp

/-- A word, white space, and what is scanned as a number. -/
theorem sscanf_word (hw : ∀ b ∈ w, isspace b = false) (hne : w ≠ [])
    (hs : ∀ b ∈ s, isspace b = true) (hq : s = [] → q = []) :
    sscanf (w ++ s ++ q) = scanLong (skipSpace q) := by
  have hskip : skipSpace (w ++ s ++ q) = w ++ (s ++ q) := by
    cases w with
    | nil => exact (hne rfl).elim
    | cons b w => simp [skipSpace, hw b List.mem_cons_self]
  have hdrop : (w ++ (s ++ q)).dropWhile (!isspace ·) = s ++ q := by
    rw [List.dropWhile_append_of_pos (by simpa using hw)]
    cases s with
    | nil => simp [hq rfl]
    | cons b s => simp [hs b List.mem_cons_self]
  rw [sscanf_eq, hskip, hdrop, skipSpace, List.dropWhile_append_of_pos hs]
  rfl

theorem unsigned_eq_self (h : ∀ b ∈ text.head?, b ≠ 45 ∧ b ≠ 43) : unsigned text = text := by
  unfold unsigned
  split
  next => exact absurd rfl (h 45 rfl).1
  next => exact absurd rfl (h 43 rfl).2
  next => rfl

theorem unsigned_digits (hd : ∀ b ∈ d, isdigit b = true) (hne : d ≠ []) :
    unsigned (d ++ v) = d ++ v := by
  apply unsigned_eq_self
  intro b hb
  have hdigit : isdigit b = true := by
    apply hd
    rw [List.head?_append_of_ne_nil _ hne] at hb
    exact List.mem_of_mem_head? hb
  constructor <;> rintro rfl <;> simp [isdigit] at hdigit

/-- Digits are a number up to something else. -/
theorem scanLong_digits (hd : ∀ b ∈ d, isdigit b = true) (hne : d ≠ [])
    (hv : ∀ b ∈ v.head?, isdigit b = false) :
    (scanLong (d ++ v)).val = some (min LONG_MAX (valueOf d)) := by
  have htake : (d ++ v).takeWhile isdigit ≠ [] := by
    rw [List.takeWhile_append_of_pos hd]
    simp [hne]
  unfold scanLong
  rw [if_neg (by simp [hne]), unsigned_digits hd hne, if_neg htake, strtol_append hd hne hv]
  dsimp only
  split <;> rfl

/-- Neither a digit nor a sign. -/
def Inert (b : UInt8) : Prop := isdigit b = false ∧ b ≠ 45 ∧ b ≠ 43

theorem scanLong_inert (h : ∀ b ∈ text, Inert b) : (scanLong text).val = none := by
  unfold scanLong
  split
  · rfl
  · have hun : unsigned text = text :=
      unsigned_eq_self fun b hb => (h b (List.mem_of_mem_head? hb)).2
    rw [hun, if_pos]
    cases text with
    | nil => rfl
    | cons b text => simp [(h b List.mem_cons_self).1]

/-! ### Lines without a number -/

/-- White space, digits and then neither digits nor signs. -/
def Leftover (t : List UInt8) : Prop :=
  ∃ s d v, t = s ++ d ++ v ∧ (∀ b ∈ s, isspace b = true) ∧ (∀ b ∈ d, isdigit b = true) ∧
    ∀ b ∈ v, Inert b

theorem Leftover.take (h : Leftover t) (n : ℕ) : Leftover (t.take n) := by
  obtain ⟨s, d, v, rfl, hs, hd, hv⟩ := h
  refine ⟨s.take n, d.take (n - s.length), v.take (n - (s ++ d).length), ?_, ?_, ?_, ?_⟩
  · rw [List.take_append, List.take_append]
  · exact fun b hb => hs b (List.mem_of_mem_take hb)
  · exact fun b hb => hd b (List.mem_of_mem_take hb)
  · exact fun b hb => hv b (List.mem_of_mem_take hb)

theorem Leftover.drop (h : Leftover t) (n : ℕ) : Leftover (t.drop n) := by
  obtain ⟨s, d, v, rfl, hs, hd, hv⟩ := h
  refine ⟨s.drop n, d.drop (n - s.length), v.drop (n - (s ++ d).length), ?_, ?_, ?_, ?_⟩
  · rw [List.drop_append, List.drop_append]
  · exact fun b hb => hs b (List.mem_of_mem_drop hb)
  · exact fun b hb => hd b (List.mem_of_mem_drop hb)
  · exact fun b hb => hv b (List.mem_of_mem_drop hb)

theorem isspace_digit {b : UInt8} (h : isdigit b = true) : (!isspace b) = true := by
  rw [isspace_of_isdigit h]
  rfl

/-- The first word has all the digits. -/
theorem Leftover.val_eq_none (h : Leftover t) : (sscanf t).val = none := by
  obtain ⟨s, d, v, rfl, hs, hd, hv⟩ := h
  rw [sscanf_eq, skipSpace, skipSpace, List.append_assoc, List.dropWhile_append_of_pos hs]
  apply scanLong_inert
  intro b hb
  apply hv
  have hb := (List.dropWhile_sublist _).subset hb
  cases d with
  | nil =>
    rw [List.nil_append] at hb
    exact (List.dropWhile_sublist _).subset ((List.dropWhile_sublist _).subset hb)
  | cons c d =>
    have hc := isspace_of_isdigit (hd c List.mem_cons_self)
    rw [List.cons_append, List.dropWhile_cons_of_neg (by simp [hc]), ← List.cons_append,
      List.dropWhile_append_of_pos fun b hb => isspace_digit (hd b hb)] at hb
    exact (List.dropWhile_sublist _).subset hb

end SystemCalls.Scan

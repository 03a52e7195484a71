import SystemCalls.CString
import SystemCalls.Scan
import SystemCalls.Stdio
import Mathlib.Data.List.Nodup

/-!
# Fields of /proc/meminfo

`parse_meminfo_kb` of 8.1.5 on any file of lines with distinct names. What `fgets` takes is at most
255 bytes, so a long line is read in pieces, and at most one of them scans as a field.
-/

namespace SystemCalls.Meminfo

open Scan Stdio

/-! ### `parse_meminfo_kb` -/

/-- From the next `fgets(line, sizeof line, f)` on, with what is left of the file. -/
def parseFrom (key file : List UInt8) (val : ℤ) : ℤ :=
  if h : file = [] then -1
  else
    let line := fgets 255 file
    let s := sscanf (cstr line)
    let val := s.val.getD val
    if 1 ≤ s.count ∧ (strstr (cstr line) key).isSome then val
    else parseFrom key (file.drop line.length) val
termination_by file.length
decreasing_by
  have hpos := List.length_pos_iff.mpr h
  have hline := List.length_pos_iff.mpr (Stdio.fgets_ne_nil (by decide : 0 < 255) h)
  rw [List.length_drop]
  omega

/-- The file is `none` when it cannot be opened. -/
def parseMeminfoKb (file : Option (List UInt8)) (key : List UInt8) : ℤ :=
  match file with
  | none => -1
  | some file => parseFrom key file (-1)

/-! ### The file -/

/-- `Name: value` or `Name: value kB` -/
structure Line where
  name : List UInt8
  spaces : ℕ
  digits : List UInt8
  kB : Bool
  isName : ∀ b ∈ name, b ≠ 0 ∧ isspace b = false
  spaces_pos : 0 < spaces
  digits_ne_nil : digits ≠ []
  isDigits : ∀ b ∈ digits, isdigit b = true

namespace Line

def value (l : Line) : ℕ := valueOf l.digits

def word (l : Line) : List UInt8 := l.name ++ [58]

def gap (l : Line) : List UInt8 := List.replicate l.spaces 32

/-- What comes after the digits. -/
def ending (l : Line) : List UInt8 := if l.kB then ascii " kB\n" else ascii "\n"

def text (l : Line) : List UInt8 := l.word ++ l.gap ++ l.digits ++ l.ending

/-- Where the piece with the colon begins. -/
def offset (l : Line) : ℕ := 255 * (l.name.length / 255)

/-- The index of the first digit. -/
def start (l : Line) : ℕ := l.name.length + 1 + l.spaces

/-- The piece with the colon, and what it says is the value. This is all of a line of at most 255
bytes; otherwise digits may be missing from it, and there is no value without any. -/
def shown (l : Line) : Option (List UInt8 × ℤ) :=
  if l.start < l.offset + 255 then
    some ((l.text.drop l.offset).take 255,
      min LONG_MAX (valueOf (l.digits.take (l.offset + 255 - l.start))))
  else none

/-- The line counts for `key`. -/
def Shows (l : Line) (key : List UInt8) : Prop := ∃ p v, l.shown = some (p, v) ∧ key <:+: p

end Line

structure Content where
  lines : List Line
  distinct : (lines.map Line.name).Nodup

def Content.text (m : Content) : List UInt8 := m.lines.flatMap Line.text

/-- The value of the line named `key`, or -1. -/
def Content.lookup (m : Content) (key : List UInt8) : ℤ :=
  match m.lines.find? (·.name = key) with
  | some l => l.value
  | none => -1

/-- The first line that shows `key` shows the value `v`. -/
def FirstShows (lines : List Line) (key : List UInt8) (v : ℤ) : Prop :=
  ∃ pre l post p, lines = pre ++ l :: post ∧ (∀ m ∈ pre, ¬ m.Shows key) ∧
    l.shown = some (p, v) ∧ key <:+: p

/-- No line is taken for the one named `key`, unless it has the same value. -/
structure Unambiguous (lines : List Line) (key : List UInt8) : Prop where
  named : ∀ l ∈ lines, l.name = key → FirstShows lines key l.value
  unnamed : (∀ l ∈ lines, l.name ≠ key) → ∀ l ∈ lines, ¬ l.Shows key

variable {key tail p t : List UInt8} {val : ℤ}

/-! ### Pieces of a line -/

/-- A text that ends with its only newline and has no NUL in it. -/
def Ended (t : List UInt8) : Prop := ∃ body, t = body ++ [10] ∧ ∀ b ∈ body, b ≠ 10 ∧ b ≠ 0

theorem Ended.ne_nil (h : Ended t) : t ≠ [] := by
  obtain ⟨body, rfl, -⟩ := h
  simp

theorem Ended.ne_zero (h : Ended t) : ∀ b ∈ t, b ≠ 0 := by
  obtain ⟨body, rfl, hb⟩ := h
  intro b hmem
  rcases List.mem_append.mp hmem with hmem | hmem
  · exact (hb b hmem).2
  · rw [List.mem_singleton.mp hmem]
    decide

theorem Ended.drop (h : Ended t) (n : ℕ) : t.drop n = [] ∨ Ended (t.drop n) := by
  obtain ⟨body, rfl, hb⟩ := h
  rcases Nat.lt_or_ge body.length n with hn | hn
  · left
    rw [List.drop_eq_nil_iff, List.length_append, List.length_singleton]
    omega
  · right
    refine ⟨body.drop n, List.drop_append_of_le_length hn, fun b hmem => hb b ?_⟩
    exact List.mem_of_mem_drop hmem

theorem Ended.fgets (h : Ended t) (tail : List UInt8) : fgets 255 (t ++ tail) = t.take 255 := by
  obtain ⟨body, rfl, hb⟩ := h
  rw [List.append_assoc]
  exact fgets_line fun b hmem => (hb b hmem).1

/-- One round of the loop. -/
theorem parseFrom_ended (h : Ended t) : parseFrom key (t ++ tail) val =
    if 1 ≤ (sscanf (t.take 255)).count ∧ key <:+: t.take 255 then
      (sscanf (t.take 255)).val.getD val
    else parseFrom key (t.drop 255 ++ tail) ((sscanf (t.take 255)).val.getD val) := by
  have hcstr : cstr (t.take 255) = t.take 255 :=
    cstr_eq_self fun b hmem => h.ne_zero b (List.mem_of_mem_take hmem)
  have hsplit : t ++ tail = t.take 255 ++ (t.drop 255 ++ tail) := by
    rw [← List.append_assoc, List.take_append_drop]
  have hdrop : (t ++ tail).drop (t.take 255).length = t.drop 255 ++ tail := by
    rw [hsplit]
    exact List.drop_left
  rw [parseFrom, dif_neg (by simp [h.ne_nil])]
  simp only [h.fgets, hcstr, strstr_isSome, hdrop]

theorem parseFrom_found {z : ℤ} (h : Ended t) (hv : (sscanf (t.take 255)).val = some z)
    (hk : key <:+: t.take 255) : parseFrom key (t ++ tail) val = z := by
  have hcount : 1 ≤ (sscanf (t.take 255)).count := by
    have hlt := count_lt_iff (t.take 255)
    rw [hv] at hlt
    simpa using hlt
  rw [parseFrom_ended h, if_pos ⟨hcount, hk⟩, hv]
  rfl

theorem parseFrom_skip (h : Ended t)
    (hskip : (sscanf (t.take 255)).val = none ∨ ¬ key <:+: t.take 255) (tail : List UInt8)
    (val : ℤ) :
    ∃ val', parseFrom key (t ++ tail) val = parseFrom key (t.drop 255 ++ tail) val' := by
  rw [parseFrom_ended h, if_neg]
  · exact ⟨_, rfl⟩
  · rintro ⟨hcount, hk⟩
    rcases hskip with hnone | hkey
    · have hlt := (count_lt_iff _).mpr hnone
      omega
    · exact hkey hk

/-! ### What follows the piece with the colon -/

theorem parseFrom_leftover (n : ℕ) (hn : t.length ≤ n) (hl : Leftover t)
    (h : t = [] ∨ Ended t) (val : ℤ) :
    ∃ val', parseFrom key (t ++ tail) val = parseFrom key tail val' := by
  induction n generalizing t val with
  | zero =>
    obtain rfl : t = [] := List.length_eq_zero_iff.mp (Nat.le_zero.mp hn)
    exact ⟨val, rfl⟩
  | succ n ih =>
    rcases h with rfl | h
    · exact ⟨val, rfl⟩
    · have hnone := (hl.take 255).val_eq_none
      obtain ⟨val₁, heq⟩ := parseFrom_skip h (.inl hnone) tail val
      have hlen : (t.drop 255).length ≤ n := by
        rw [List.length_drop]
        omega
      obtain ⟨val₂, heq₂⟩ := ih hlen (hl.drop 255) (h.drop 255) val₁
      exact ⟨val₂, heq.trans heq₂⟩

/-! ### One line -/

namespace Line

variable (l : Line)

theorem length_word : l.word.length = l.name.length + 1 := by
  simp [word]

theorem length_gap : l.gap.length = l.spaces := by
  simp [gap]

theorem word_ne_nil : l.word ≠ [] := by
  simp [word]

theorem gap_ne_nil : l.gap ≠ [] := by
  have h := l.spaces_pos
  rw [← List.length_pos_iff, length_gap]
  exact h

theorem isspace_word : ∀ b ∈ l.word, isspace b = false := by
  intro b hb
  rcases List.mem_append.mp hb with hb | hb
  · exact (l.isName b hb).2
  · rw [List.mem_singleton.mp hb]
    decide

theorem isspace_gap : ∀ b ∈ l.gap, isspace b = true := by
  intro b hb
  rw [List.eq_of_mem_replicate hb]
  decide

theorem ending_eq : l.ending = (if l.kB then [32, 107, 66] else []) ++ [10] := by
  unfold ending
  split <;> decide +kernel

theorem inert_ending : ∀ b ∈ l.ending, Inert b := by
  rw [ending_eq]
  unfold Inert
  cases l.kB <;> decide +kernel

theorem name_infix : l.name <:+: l.text := by
  refine ⟨[], [58] ++ l.gap ++ l.digits ++ l.ending, ?_⟩
  simp [text, word]

theorem text_eq : l.text = l.word ++ l.gap ++ (l.digits ++ l.ending) := by
  rw [text, List.append_assoc _ l.digits]

theorem ended : Ended l.text := by
  refine ⟨l.word ++ l.gap ++ l.digits ++ if l.kB then [32, 107, 66] else [], ?_, ?_⟩
  · rw [text, ending_eq, List.append_assoc _ _ [10]]
  · intro b hb
    simp only [List.mem_append] at hb
    have hne : ∀ b, isspace b = false → b ≠ 10 := by
      rintro b hb rfl
      simp [isspace] at hb
    rcases hb with ((hb | hb) | hb) | hb
    · refine ⟨hne b (l.isspace_word b hb), ?_⟩
      rcases List.mem_append.mp hb with hb | hb
      · exact (l.isName b hb).1
      · rw [List.mem_singleton.mp hb]
        decide
    · rw [List.eq_of_mem_replicate hb]
      decide
    · have hd := l.isDigits b hb
      refine ⟨hne b (isspace_of_isdigit hd), ?_⟩
      rintro rfl
      simp [isdigit] at hd
    · cases hk : l.kB <;> simp [hk] at hb
      rcases hb with rfl | rfl | rfl <;> decide

/-! The name ends within 255 bytes. -/

variable {l}

theorem leftover_drop (h : l.name.length < 255) : Leftover (l.text.drop 255) := by
  have hall : Leftover (l.gap ++ l.digits ++ l.ending) :=
    ⟨_, _, _, rfl, l.isspace_gap, l.isDigits, l.inert_ending⟩
  have hdrop : l.text.drop 255 = (l.gap ++ l.digits ++ l.ending).drop (255 - l.word.length) := by
    have hword : l.word.length ≤ 255 := by
      rw [length_word]
      omega
    rw [text, List.append_assoc, List.append_assoc, List.append_assoc, List.drop_append,
      List.drop_eq_nil_of_le hword, List.nil_append]
  rw [hdrop]
  exact hall.drop _

theorem take_of_start_lt (h : l.start < 255) :
    l.text.take 255 = l.word ++ l.gap ++ (l.digits ++ l.ending).take (255 - l.start) := by
  have hlen : (l.word ++ l.gap).length = l.start := by
    rw [List.length_append, length_word, length_gap, start]
  rw [text_eq, List.take_append, List.take_of_length_le (by omega), hlen]

/-- The first digits are in the piece with the name. -/
theorem val_of_start_lt (h : l.start < 255) : (sscanf (l.text.take 255)).val =
    some (min LONG_MAX (valueOf (l.digits.take (255 - l.start)))) := by
  have hd : ∀ b ∈ l.digits.take (255 - l.start), isdigit b = true :=
    fun b hb => l.isDigits b (List.mem_of_mem_take hb)
  have hne : l.digits.take (255 - l.start) ≠ [] := by
    have hpos := List.length_pos_iff.mpr l.digits_ne_nil
    rw [← List.length_pos_iff, List.length_take]
    omega
  rw [take_of_start_lt h, sscanf_word l.isspace_word l.word_ne_nil l.isspace_gap
    (fun hg => (l.gap_ne_nil hg).elim), List.take_append]
  have hskip (v : List UInt8) : skipSpace (l.digits.take (255 - l.start) ++ v) =
      l.digits.take (255 - l.start) ++ v := by
    cases hl : l.digits.take (255 - l.start) with
    | nil => exact (hne hl).elim
    | cons b d =>
      have hb := hd b (by simp [hl])
      simp [skipSpace, isspace_of_isdigit hb]
  rw [hskip]
  apply scanLong_digits hd hne
  intro b hb
  have hmem := List.mem_of_mem_head? hb
  exact (l.inert_ending b (List.mem_of_mem_take hmem)).1

/-- No digit is in the piece with the name. -/
theorem val_of_le_start (hn : l.name.length < 255) (h : 255 ≤ l.start) :
    (sscanf (l.text.take 255)).val = none := by
  have hlen := l.length_word
  have hgap := l.length_gap
  have htake : l.text.take 255 = l.word ++ l.gap.take (255 - l.word.length) ++ [] := by
    rw [text_eq, List.append_assoc, List.take_append, List.take_of_length_le (by omega),
      List.take_append_of_le_length (by simp only [start] at h; omega), List.append_nil]
  rw [htake, sscanf_word l.isspace_word l.word_ne_nil _ fun _ => rfl]
  · rfl
  · exact fun b hb => l.isspace_gap b (List.mem_of_mem_take hb)

/-! A longer name loses its first 255 bytes. -/

/-- The line without them. -/
def cut (l : Line) : Line where
  name := l.name.drop 255
  spaces := l.spaces
  digits := l.digits
  kB := l.kB
  isName := fun b hb => l.isName b (List.mem_of_mem_drop hb)
  spaces_pos := l.spaces_pos
  digits_ne_nil := l.digits_ne_nil
  isDigits := l.isDigits

theorem length_name_cut : l.cut.name.length = l.name.length - 255 :=
  List.length_drop

theorem text_cut (h : 255 ≤ l.name.length) : l.text.drop 255 = l.cut.text := by
  simp only [text, word, List.append_assoc]
  rw [List.drop_append_of_le_length h]
  rfl

theorem val_of_le_length (h : 255 ≤ l.name.length) : (sscanf (l.text.take 255)).val = none := by
  have htake : l.text.take 255 = l.name.take 255 ++ [] ++ [] := by
    simp only [text, word, List.append_assoc]
    rw [List.take_append_of_le_length h, List.append_nil, List.append_nil]
  have hne : l.name.take 255 ≠ [] := by
    rw [← List.length_pos_iff, List.length_take]
    omega
  rw [htake, sscanf_word _ hne (by simp) fun _ => rfl]
  · rfl
  · exact fun b hb => (l.isName b (List.mem_of_mem_take hb)).2

theorem shown_cut (h : 255 ≤ l.name.length) : l.cut.shown = l.shown := by
  have hlen : l.cut.name.length = l.name.length - 255 := length_name_cut
  have hoff : l.offset = 255 + l.cut.offset := by
    simp only [offset, hlen]
    omega
  have hstart : l.start = 255 + l.cut.start := by
    have hspaces : l.cut.spaces = l.spaces := rfl
    simp only [start, hlen, hspaces]
    omega
  have hlt : l.start < l.offset + 255 ↔ l.cut.start < l.cut.offset + 255 := by omega
  have hsub : l.offset + 255 - l.start = l.cut.offset + 255 - l.cut.start := by omega
  have htext : l.text.drop l.offset = l.cut.text.drop l.cut.offset := by
    rw [hoff, ← List.drop_drop, text_cut h]
  simp only [shown, hlt, hsub, htext]
  rfl

theorem shown_of_lt (h : l.name.length < 255) : l.shown =
    if l.start < 255 then
      some (l.text.take 255, min LONG_MAX (valueOf (l.digits.take (255 - l.start))))
    else none := by
  have hoff : l.offset = 0 := by
    rw [offset, Nat.div_eq_of_lt h]
  rw [shown, hoff, Nat.zero_add, List.drop_zero]

/-- Induction on the number of pieces before the one with the colon. -/
theorem induction_cut {P : Line → Prop} (short : ∀ l : Line, l.name.length < 255 → P l)
    (long : ∀ l : Line, 255 ≤ l.name.length → P l.cut → P l) (l : Line) : P l := by
  induction hn : l.name.length using Nat.strong_induction_on generalizing l with
  | h n ih =>
    rcases Nat.lt_or_ge l.name.length 255 with hlt | hge
    · exact short l hlt
    · apply long l hge
      apply ih _ _ l.cut rfl
      rw [length_name_cut]
      omega

/-- A line that counts gives the value it shows. -/
theorem parseFrom_shown {z : ℤ} (l : Line) (h : l.shown = some (p, z)) (hk : key <:+: p)
    (val : ℤ) : parseFrom key (l.text ++ tail) val = z := by
  induction l using induction_cut generalizing val with
  | short l hlt =>
    rw [shown_of_lt hlt] at h
    split at h
    next hstart =>
      rw [Option.some.injEq, Prod.mk.injEq] at h
      obtain ⟨rfl, rfl⟩ := h
      exact parseFrom_found l.ended (val_of_start_lt hstart) hk
    next => cases h
  | long l hge ih =>
    obtain ⟨val', heq⟩ := parseFrom_skip l.ended (.inl (val_of_le_length hge)) tail val
    rw [heq, text_cut hge]
    exact ih ((shown_cut hge).trans h) val'

/-- Any other line is passed over. -/
theorem parseFrom_hidden (l : Line) (h : ¬ l.Shows key) (tail : List UInt8) (val : ℤ) :
    ∃ val', parseFrom key (l.text ++ tail) val = parseFrom key tail val' := by
  induction l using induction_cut generalizing val with
  | short l hlt =>
    have hskip : (sscanf (l.text.take 255)).val = none ∨ ¬ key <:+: l.text.take 255 := by
      rcases Nat.lt_or_ge l.start 255 with hstart | hstart
      · right
        intro hk
        exact h ⟨_, _, by rw [shown_of_lt hlt, if_pos hstart], hk⟩
      · exact .inl (val_of_le_start hlt hstart)
    obtain ⟨val₁, heq⟩ := parseFrom_skip l.ended hskip tail val
    obtain ⟨val₂, heq₂⟩ :=
      parseFrom_leftover _ le_rfl (leftover_drop hlt) (l.ended.drop 255) val₁
    exact ⟨val₂, heq.trans heq₂⟩
  | long l hge ih =>
    obtain ⟨val₁, heq⟩ := parseFrom_skip l.ended (.inl (val_of_le_length hge)) tail val
    have hcut : ¬ l.cut.Shows key := by
      rintro ⟨p, z, hp, hk⟩
      exact h ⟨p, z, (shown_cut hge).symm.trans hp, hk⟩
    obtain ⟨val₂, heq₂⟩ := ih hcut val₁
    rw [text_cut hge] at heq
    exact ⟨val₂, heq.trans heq₂⟩

end Line

/-! ### The whole file -/

variable {lines : List Line} {z : ℤ}

theorem parseFrom_firstShows (h : FirstShows lines key z) (val : ℤ) :
    parseFrom key (lines.flatMap Line.text) val = z := by
  obtain ⟨pre, l, post, p, rfl, hpre, hl, hk⟩ := h
  induction pre generalizing val with
  | nil => exact l.parseFrom_shown hl hk val
  | cons m pre ih =>
    rw [List.forall_mem_cons] at hpre
    rw [List.cons_append, List.flatMap_cons]
    obtain ⟨val', heq⟩ := m.parseFrom_hidden hpre.1 ((pre ++ l :: post).flatMap Line.text) val
    rw [heq]
    exact ih val' hpre.2

theorem parseFrom_none (h : ∀ l ∈ lines, ¬ l.Shows key) (val : ℤ) :
    parseFrom key (lines.flatMap Line.text) val = -1 := by
  induction lines generalizing val with
  | nil =>
    rw [List.flatMap_nil, parseFrom]
    rfl
  | cons l lines ih =>
    rw [List.forall_mem_cons] at h
    obtain ⟨val', heq⟩ := l.parseFrom_hidden h.1 (lines.flatMap Line.text) val
    rw [List.flatMap_cons, heq]
    exact ih h.2 val'

/-- Values are never negative. -/
theorem FirstShows.nonneg (h : FirstShows lines key z) : 0 ≤ z := by
  obtain ⟨pre, l, post, p, -, -, hl, -⟩ := h
  unfold Line.shown at hl
  split at hl
  next =>
    rw [Option.some.injEq, Prod.mk.injEq] at hl
    rw [← hl.2]
    unfold LONG_MAX
    omega
  next => cases hl

theorem firstShows_or (lines : List Line) (key : List UInt8) :
    (∃ z, FirstShows lines key z) ∨ ∀ l ∈ lines, ¬ l.Shows key := by
  induction lines with
  | nil => right; simp
  | cons l lines ih =>
    by_cases hl : l.Shows key
    · obtain ⟨p, z, hp, hk⟩ := hl
      exact .inl ⟨z, [], l, lines, p, rfl, by simp, hp, hk⟩
    · rcases ih with ⟨z, pre, l', post, p, rfl, hpre, hp⟩ | hnone
      · refine .inl ⟨z, l :: pre, l', post, p, rfl, ?_, hp⟩
        exact List.forall_mem_cons.mpr ⟨hl, hpre⟩
      · exact .inr (List.forall_mem_cons.mpr ⟨hl, hnone⟩)

theorem Content.lookup_of_mem (m : Content) {l : Line} (hl : l ∈ m.lines)
    (hname : l.name = key) : m.lookup key = l.value := by
  unfold Content.lookup
  cases hf : m.lines.find? (·.name = key) with
  | none =>
    rw [List.find?_eq_none] at hf
    exact (hf l hl (by simpa using hname)).elim
  | some l' =>
    have hname' : l'.name = key := by simpa using List.find?_some hf
    have heq : l' = l := List.inj_on_of_nodup_map m.distinct (List.mem_of_find?_eq_some hf) hl
      (hname'.trans hname.symm)
    rw [heq]

theorem Content.lookup_of_forall_ne (m : Content) (h : ∀ l ∈ m.lines, l.name ≠ key) :
    m.lookup key = -1 := by
  have hf : m.lines.find? (·.name = key) = none := by
    rw [List.find?_eq_none]
    simpa using h
  rw [Content.lookup, hf]

theorem parse_of_firstShows (m : Content) (h : FirstShows m.lines key z) :
    parseMeminfoKb (some m.text) key = z :=
  parseFrom_firstShows h (-1)

theorem parse_of_forall_not (m : Content) (h : ∀ l ∈ m.lines, ¬ l.Shows key) :
    parseMeminfoKb (some m.text) key = -1 :=
  parseFrom_none h (-1)

theorem parse_of_unambiguous (m : Content) (h : Unambiguous m.lines key) :
    parseMeminfoKb (some m.text) key = m.lookup key := by
  by_cases hex : ∃ l ∈ m.lines, l.name = key
  · obtain ⟨l, hl, hname⟩ := hex
    rw [m.lookup_of_mem hl hname, parse_of_firstShows m (h.named l hl hname)]
  · have hne : ∀ l ∈ m.lines, l.name ≠ key := fun l hl hname => hex ⟨l, hl, hname⟩
    rw [m.lookup_of_forall_ne hne, parse_of_forall_not m (h.unnamed hne)]

/-- The value of a field is found exactly when the first line that shows the key has it, or there
is no such line and no such field. -/
theorem parse_meminfo_kb_iff (m : Content) (key : List UInt8) :
    parseMeminfoKb (some m.text) key = m.lookup key ↔ Unambiguous m.lines key := by
  constructor
  · intro h
    constructor
    · intro l hl hname
      rw [m.lookup_of_mem hl hname] at h
      rcases firstShows_or m.lines key with ⟨z, hz⟩ | hn
      · rw [parse_of_firstShows m hz] at h
        rwa [← h]
      · rw [parse_of_forall_not m hn] at h
        omega
    · intro hne
      rw [m.lookup_of_forall_ne hne] at h
      rcases firstShows_or m.lines key with ⟨z, hz⟩ | hn
      · have hpos := hz.nonneg
        rw [parse_of_firstShows m hz] at h
        omega
      · exact hn
  · exact parse_of_unambiguous m

/-- A line with one digit. -/
def field (name : String) (digit : UInt8) (hn : ∀ b ∈ ascii name, b ≠ 0 ∧ isspace b = false)
    (hd : isdigit digit = true) : Line where
  name := ascii name
  spaces := 1
  digits := [digit]
  kB := true
  isName := hn
  spaces_pos := Nat.one_pos
  digits_ne_nil := by simp
  isDigits := by simpa using hd

/-- `SwapCached: 1 kB` before `Cached: 2 kB`. -/
def cached : Content where
  lines := [field "SwapCached" 49 (by decide +kernel) (by decide),
    field "Cached" 50 (by decide +kernel) (by decide)]
  distinct := by decide +kernel

/-- The key is part of the first name, and 1 is returned for it. -/
theorem parse_meminfo_kb_takes_substring :
    parseMeminfoKb (some cached.text) (ascii "Cached") ≠ cached.lookup (ascii "Cached") := by
  have hfirst : FirstShows cached.lines (ascii "Cached") 1 :=
    ⟨[], field "SwapCached" 49 (by decide +kernel) (by decide), _,
      ascii "SwapCached: 1 kB\n", rfl, by simp, by decide +kernel, by decide +kernel⟩
  have hlookup : cached.lookup (ascii "Cached") = 2 := by decide +kernel
  rw [parse_of_firstShows cached hfirst, hlookup]
  decide

/-! ### Lines that fit -/

theorem Line.shown_of_short {l : Line} (h : l.text.length ≤ 255) (hv : l.value ≤ LONG_MAX) :
    l.shown = some (l.text, (l.value : ℤ)) := by
  have hpos := List.length_pos_iff.mpr l.digits_ne_nil
  have hlen : l.text.length = l.start + l.digits.length + l.ending.length := by
    simp only [text_eq, List.length_append, length_word, length_gap, start]
    omega
  have hstart : l.start < 255 := by omega
  have hname : l.name.length < 255 := by
    simp only [start] at hstart
    omega
  rw [shown_of_lt hname, if_pos hstart, List.take_of_length_le h,
    List.take_of_length_le (by omega)]
  simp only [Option.some.injEq, Prod.mk.injEq, true_and]
  exact min_eq_right hv

/-- In a file of lines that fit, a key that no other line contains is looked up. -/
theorem parse_of_short (m : Content)
    (hfit : ∀ l ∈ m.lines, l.text.length ≤ 255 ∧ (l.value : ℤ) ≤ LONG_MAX)
    (honly : ∀ l ∈ m.lines, key <:+: l.text → l.name = key) :
    parseMeminfoKb (some m.text) key = m.lookup key := by
  have hshown (l : Line) (hl : l ∈ m.lines) : l.shown = some (l.text, (l.value : ℤ)) :=
    Line.shown_of_short (hfit l hl).1 (hfit l hl).2
  have hnamed {l : Line} (hl : l ∈ m.lines) (h : l.Shows key) : l.name = key := by
    obtain ⟨p, z, hp, hk⟩ := h
    rw [hshown l hl, Option.some.injEq, Prod.mk.injEq] at hp
    rw [← hp.1] at hk
    exact honly l hl hk
  apply parse_of_unambiguous
  constructor
  · intro l hl hname
    rcases firstShows_or m.lines key with ⟨z, hz⟩ | hn
    · obtain ⟨pre, l', post, p, heq, hpre, hp, hk⟩ := hz
      have hl' : l' ∈ m.lines := by simp [heq]
      have hsame : l' = l := List.inj_on_of_nodup_map m.distinct hl' hl
        ((hnamed hl' ⟨p, z, hp, hk⟩).trans hname.symm)
      rw [hshown l' hl', Option.some.injEq, Prod.mk.injEq, hsame] at hp
      refine ⟨pre, l', post, p, heq, hpre, ?_, hk⟩
      rw [hshown l' hl', hsame, hp.1]
    · exact (hn l hl ⟨_, _, hshown l hl, hname ▸ l.name_infix⟩).elim
  · intro hne l hl hs
    exact hne l hl (hnamed hl hs)

end SystemCalls.Meminfo

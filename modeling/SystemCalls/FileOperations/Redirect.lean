import SystemCalls.FileOperations.Restore
import SystemCalls.Stdio

/-!
# `file_operations`: where the redirected text goes

`printf` fills the buffer of `stdout`, and a full buffer is written to whatever descriptor 1
refers to at that moment. The two `dup2` calls do not flush it.
-/

namespace SystemCalls.FileOperations

open Descriptors Stdio

/-- The open files behind the descriptors. -/
inductive Target
  | stdout
  | redirectOutput
  | other
  deriving DecidableEq

structure State (α : Type*) where
  table : Descriptors Target
  buffer : List α
  content : Target → List α

variable {α : Type*} (b : Buffering) (newline : α → Bool)

/-- `write` on descriptor 1. -/
def State.write (s : State α) (bytes : List α) : State α :=
  match s.table.file STDOUT_FILENO with
  | none => s
  | some f => { s with content := Function.update s.content f (s.content f ++ bytes) }

def State.printf (s : State α) (text : List α) : State α :=
  let r := puts b newline s.buffer text
  { s with buffer := r.1 }.write r.2

/-- The flush of `exit`. -/
def State.exit (s : State α) : State α :=
  { s with buffer := [] }.write s.buffer

/-- A table with standard output open and room for the two descriptors of the section. -/
structure Start (limit : ℕ) where
  table : Descriptors Target
  stdout_open : table.file STDOUT_FILENO = some .stdout
  copy_fits : table.lowest < limit
  output_fits : (table.install table.lowest .stdout).lowest < limit

/-- `main` with the texts it prints before, between and after the two `dup2` calls. -/
def main {limit : ℕ} (start : Start limit) (before between after : List α) : State α :=
  let s : State α := ⟨start.table, [], fun _ => []⟩
  let s := s.printf b newline before
  let (stdout_copy, table) := saveAndRedirect limit s.table (some .redirectOutput)
  let s := { s with table }.printf b newline between
  let s := { s with table := restore limit s.table stdout_copy }.printf b newline after
  s.exit

/-- Each text is where it belongs. -/
def Separated (s : State α) (before between after : List α) : Prop :=
  s.content .redirectOutput = between ∧ s.content .stdout = before ++ after

variable {b newline} {s : State α} {bytes text : List α} {f g : Target} {limit : ℕ}

@[simp] theorem table_write : (s.write bytes).table = s.table := by
  unfold State.write
  split <;> rfl

@[simp] theorem buffer_write : (s.write bytes).buffer = s.buffer := by
  unfold State.write
  split <;> rfl

theorem content_write (h : s.table.file 1 = some f) : (s.write bytes).content g =
    if g = f then s.content g ++ bytes else s.content g := by
  by_cases hg : g = f
  · subst hg
    simp [State.write, STDOUT_FILENO, h]
  · simp [State.write, STDOUT_FILENO, h, hg]

@[simp] theorem table_printf : (s.printf b newline text).table = s.table := table_write

@[simp] theorem buffer_printf :
    (s.printf b newline text).buffer = (puts b newline s.buffer text).1 := buffer_write

theorem content_printf (h : s.table.file 1 = some f) :
    (s.printf b newline text).content g =
      if g = f then s.content g ++ (puts b newline s.buffer text).2 else s.content g :=
  content_write h

theorem content_exit (h : s.table.file 1 = some f) :
    s.exit.content g = if g = f then s.content g ++ s.buffer else s.content g :=
  content_write h

/-! ### The table during the section -/

namespace Start

variable (start : Start limit)

/-- The table while the output file is on descriptor 1. -/
def redirected : Descriptors Target :=
  (saveAndRedirect limit start.table (some .redirectOutput)).2

theorem copy_ne_one : start.table.lowest ≠ 1 := lowest_ne_of_used start.stdout_open

/-- The output file comes on a third number. -/
theorem output_ne : (start.table.install start.table.lowest .stdout).lowest ≠ 1 ∧
    (start.table.install start.table.lowest .stdout).lowest ≠ start.table.lowest := by
  have hcopy := start.copy_ne_one
  have hopen : start.table.file 1 = some .stdout := start.stdout_open
  constructor
  · refine lowest_ne_of_used (f := .stdout) ?_
    simp [file_install, hopen]
  · refine lowest_ne_of_used (f := .stdout) ?_
    simp [file_install]

theorem one_lt_limit (start : Start limit) : 1 < limit := by
  have hcopy := start.copy_ne_one
  have hcopy' := start.copy_fits
  have hout := start.output_ne
  have hout' := start.output_fits
  omega

theorem saveAndRedirect_eq : saveAndRedirect limit start.table (some .redirectOutput) =
    (some start.table.lowest, start.redirected) := by
  simp [redirected, saveAndRedirect, dup, start.stdout_open, newDescriptor_of_lt start.copy_fits]

theorem file_redirected (m : ℕ) : start.redirected.file m =
    if m = 1 then some .redirectOutput
    else (start.table.install start.table.lowest .stdout).file m := by
  simp [redirected, saveAndRedirect, dup, start.stdout_open, newDescriptor_of_lt start.copy_fits,
    file_redirect, start.output_ne.1, start.output_fits, start.one_lt_limit]

theorem restored :
    (restore limit start.redirected (some start.table.lowest)).file 1 = some .stdout := by
  have hcopy := start.copy_ne_one
  have hsaved : start.redirected.file start.table.lowest = some .stdout := by
    simp [file_redirected, hcopy, file_install]
  simp [file_restore hsaved, Ne.symm hcopy, start.one_lt_limit]

/-- A usual table: 0, 1 and 2 are open, and the test file is on 3. -/
def usual : Start 16 where
  table := (((empty.install 0 .other).install 1 .stdout).install 2 .other).install 3 .other
  stdout_open := by simp [file_install, STDOUT_FILENO]
  copy_fits := by
    refine lt_of_le_of_lt (lowest_le (n := 4) ?_) (by decide)
    simp [file_install]
  output_fits := by
    have hle : lowest ((((empty.install 0 Target.other).install 1 .stdout).install 2 .other).install
        3 .other) ≤ 4 := lowest_le (by simp [file_install])
    refine lt_of_le_of_lt (lowest_le (n := 5) ?_) (by decide)
    rw [file_install, if_neg (by omega)]
    simp [file_install]

end Start

/-! ### The three texts -/

variable (start : Start limit) (before between after : List α)

/-- The state after the first text. -/
def State.printed (b : Buffering) (newline : α → Bool) (start : Start limit) (before : List α) :
    State α :=
  State.printf b newline ⟨start.table, [], fun _ => []⟩ before

theorem main_eq : main b newline start before between after =
    ({ { State.printed b newline start before with table := start.redirected }.printf b newline
        between with
      table := restore limit start.redirected (some start.table.lowest) }.printf b newline
        after).exit := by
  simp [main, State.printed, Start.saveAndRedirect_eq]

/-- The file gets what is written out between the two `dup2` calls, the original what is written
out before and after, and at exit. -/
theorem content_main :
    (main b newline start before between after).content .redirectOutput =
      (puts b newline (rest b newline before) between).2 ∧
    (main b newline start before between after).content .stdout =
      (puts b newline [] before).2 ++ (rest b newline (before ++ between) ++ after) := by
  have hfirst : ∀ g, (State.printed b newline start before).content g =
      if g = .stdout then (puts b newline [] before).2 else [] := by
    intro g
    simp [State.printed, content_printf (s := ⟨start.table, [], fun _ => []⟩) start.stdout_open]
  have hbuffer : (State.printed b newline start before).buffer = rest b newline before := by
    simp [State.printed, puts_eq_rest]
  have hredirected : start.redirected.file 1 = some .redirectOutput := by
    simp [Start.file_redirected]
  have hrest := puts_rest b newline before between
  have hlast := puts_append b newline (rest b newline (before ++ between)) after
  have hrestored := start.restored
  simp [main_eq, content_exit, content_printf, hrestored, hredirected, hfirst, hbuffer, hrest,
    ← hlast]

theorem stdout_content_iff :
    (main b newline start before between after).content .stdout = before ++ after ↔
      rest b newline before = rest b newline (before ++ between) := by
  have hfirst := puts_append b newline [] before
  rw [puts_eq_rest, List.nil_append] at hfirst
  rw [(content_main start before between after).2]
  calc _ ↔ (puts b newline [] before).2 ++ rest b newline (before ++ between) = before := by
        rw [← List.append_assoc, List.append_left_inj]
    _ ↔ (puts b newline [] before).2 ++ rest b newline (before ++ between) =
        (puts b newline [] before).2 ++ rest b newline before := by rw [hfirst]
    _ ↔ _ := by rw [List.append_right_inj, eq_comm]

theorem file_content_iff :
    (main b newline start before between after).content .redirectOutput = between ↔
      rest b newline before ++ between = between ++ rest b newline (before ++ between) := by
  have hout := puts_append b newline (rest b newline before) between
  rw [puts_rest] at hout
  rw [(content_main start before between after).1, ← hout, List.append_left_inj]

/-- On a terminal nothing is seen of the buffer: whole lines are separated. -/
theorem separated_of_lines {a c : α} (hm : b.mode = .line) (ha : newline a = true)
    (hc : newline c = true) :
    Separated (main b newline start (before ++ [a]) (between ++ [c]) after)
      (before ++ [a]) (between ++ [c]) after := by
  have hbefore : rest b newline (before ++ [a]) = [] := rest_of_lines hm ha
  have hboth : rest b newline (before ++ [a] ++ (between ++ [c])) = [] := by
    rw [← List.append_assoc]
    exact rest_of_lines hm hc
  constructor
  · rw [file_content_iff, hbefore, hboth, List.nil_append, List.append_nil]
  · rw [stdout_content_iff, hbefore, hboth]

/-- Every stream, table and text is handled well. -/
def AlwaysSeparated : Prop :=
  ∀ (limit : ℕ) (start : Start limit) (b : Buffering) (newline : Char → Bool)
    (before between after : List Char),
    Separated (main b newline start before between after) before between after

/-- Written to a file or a pipe, the heading is still in the buffer when descriptor 1 is
redirected, and the redirected lines when it is restored. -/
theorem heading_in_file : ¬ AlwaysSeparated := by
  intro h
  let b : Buffering := ⟨.full, 4096, by decide⟩
  let heading := "\n6. Redirecting output with dup2()...\n".toList
  let redirected := "This goes to the file!\nAnd this too!\n".toList
  have hfile := (h 16 Start.usual b (· == '\n') heading redirected []).1
  have hheading : rest b (· == '\n') heading = heading :=
    rest_of_length_lt rfl (by decide)
  have hboth : rest b (· == '\n') (heading ++ redirected) = heading ++ redirected :=
    rest_of_length_lt rfl (by decide)
  rw [file_content_iff, hheading, hboth] at hfile
  exact absurd hfile (by decide)

/-- The texts are separated exactly when the buffer holds the same at both `dup2` calls and
the text between them may change places with that. -/
theorem separated_iff : Separated (main b newline start before between after) before between after ↔
    rest b newline before = rest b newline (before ++ between) ∧
      rest b newline before ++ between = between ++ rest b newline before := by
  rw [Separated, stdout_content_iff, file_content_iff, and_comm]
  exact and_congr_right fun hrest => by rw [← hrest]

end SystemCalls.FileOperations

import SystemCalls.Descriptors

/-!
# `file_operations`: saving, redirecting and restoring standard output

The system calls around the redirected text. None of them is checked, so the ones that follow
a failed call run on -1, here `none`. `limit` is the process's limit on descriptor numbers.
-/

namespace SystemCalls.FileOperations

open Descriptors

variable {F : Type*} (limit : ℕ) (t : Descriptors F)

abbrev STDOUT_FILENO : ℕ := 1

/-- A new descriptor for `f`, unless the limit is reached. -/
def newDescriptor (f : F) : Option ℕ × Descriptors F :=
  if t.lowest < limit then (some t.lowest, t.install t.lowest f) else (none, t)

def dup (a : ℕ) : Option ℕ × Descriptors F :=
  match t.file a with
  | none => (none, t)
  | some f => newDescriptor limit t f

/-- `open`, where `file` is what the path leads to, or `none` if it cannot be opened. -/
def openFile (file : Option F) : Option ℕ × Descriptors F :=
  match file with
  | none => (none, t)
  | some f => newDescriptor limit t f

def dup2 (a : Option ℕ) (b : ℕ) : Descriptors F :=
  match a with
  | none => t
  | some a => if b < limit then t.dup2 a b else t

def close : Option ℕ → Descriptors F
  | none => t
  | some a => t.close a

/-- Opens the output file, moves it to descriptor 1 and closes the number it came on. -/
def redirect (output : Option F) : Descriptors F :=
  let (fd_write, t) := openFile limit t output
  let t := dup2 limit t fd_write STDOUT_FILENO
  close t fd_write

/-- Up to the first redirected line: the saved number and the table. -/
def saveAndRedirect (output : Option F) : Option ℕ × Descriptors F :=
  let (stdout_copy, t) := dup limit t STDOUT_FILENO
  (stdout_copy, redirect limit t output)

def restore (stdout_copy : Option ℕ) : Descriptors F :=
  let t := dup2 limit t stdout_copy STDOUT_FILENO
  close t stdout_copy

/-- The table after the whole section. -/
def saveRedirectRestore (output : Option F) : Descriptors F :=
  let (stdout_copy, t) := saveAndRedirect limit t output
  restore limit t stdout_copy

/-- The section before: the test file is created, written, closed and opened again, and `main`
returns at a call that fails. -/
def openTestFile (created : Option F) (written : Bool) (reopened : Option F) :
    Option (Descriptors F) :=
  match openFile limit t created with
  | (none, _) => none
  | (some fd, t) =>
    if written = false then none
    else
      match openFile limit (close t (some fd)) reopened with
      | (none, _) => none
      | (some _, t) => some t

/-! ### The table after each part -/

variable {limit t} {f : F} {output : Option F} {n m : ℕ}

theorem newDescriptor_of_lt (h : t.lowest < limit) :
    newDescriptor limit t f = (some t.lowest, t.install t.lowest f) := by
  simp [newDescriptor, h]

theorem newDescriptor_of_le (h : limit ≤ t.lowest) : newDescriptor limit t f = (none, t) := by
  simp [newDescriptor, Nat.not_lt.mpr h]

theorem file_dup2_some (hn : t.file n = some f) :
    (dup2 limit t (some n) STDOUT_FILENO).file m =
      if m = 1 ∧ 1 < limit then some f else t.file m := by
  by_cases hl : 1 < limit
  · simp [dup2, STDOUT_FILENO, hl, file_dup2 hn]
  · simp [dup2, STDOUT_FILENO, hl]

/-- The output file is on descriptor 1 afterwards unless a call failed or its own number was 1,
which is then closed again. -/
theorem file_redirect : (redirect limit t output).file m =
    if m = 1 ∧ t.lowest ≠ 1 ∧ t.lowest < limit ∧ 1 < limit ∧ output.isSome then output
    else t.file m := by
  cases output with
  | none => simp [redirect, openFile, dup2, close]
  | some f =>
    by_cases hl : t.lowest < limit
    · have hfree := t.file_lowest
      have hopen : (t.install t.lowest f).file t.lowest = some f := by simp [file_install]
      simp only [redirect, openFile, newDescriptor_of_lt hl, close, file_close,
        file_dup2_some hopen, file_install, Option.isSome_some]
      by_cases hm : m = t.lowest
      · subst hm
        by_cases h1 : t.lowest = 1
        · simp [h1, h1 ▸ hfree]
        · simp [hfree, h1]
      · by_cases hm1 : m = 1
        · subst hm1
          simp [hm, hl, Ne.symm hm]
        · simp [hm, hm1]
    · simp [redirect, openFile, newDescriptor_of_le (Nat.le_of_not_lt hl), dup2, close, hl]

theorem file_restore (hn : t.file n = some f) :
    (restore limit t (some n)).file m =
      if m = n then none else if m = 1 ∧ 1 < limit then some f else t.file m := by
  simp [restore, close, file_close, file_dup2_some hn]

theorem dup_of_closed (h : t.file STDOUT_FILENO = none) :
    dup limit t STDOUT_FILENO = (none, t) := by
  simp [dup, h]

theorem lowest_ne_of_used (h : t.file n = some f) : t.lowest ≠ n := by
  rintro rfl
  simp [t.file_lowest] at h

/-- With standard output closed there is nothing to save, and nothing is put back. -/
theorem file_saveRedirectRestore_of_closed (h : t.file 1 = none) :
    (saveRedirectRestore limit t output).file m =
      if m = 1 ∧ t.file 0 = none ∧ 1 < limit ∧ output.isSome then output else t.file m := by
  have hle : t.lowest ≤ 1 := lowest_le h
  simp only [saveRedirectRestore, saveAndRedirect, dup_of_closed h, restore, dup2, close,
    file_redirect]
  by_cases h0 : t.file 0 = none
  · have hzero := lowest_eq_zero_iff.mpr h0
    by_cases hl : 1 < limit
    · simp [h0, hzero, hl, (by omega : 0 < limit)]
    · simp [hl]
  · have hzero : t.lowest ≠ 0 := mt lowest_eq_zero_iff.mp h0
    simp [h0, (by omega : t.lowest = 1)]

theorem file_saveRedirectRestore_of_used (h : t.file 1 = some f) :
    (saveRedirectRestore limit t output).file m = t.file m := by
  by_cases hl : t.lowest < limit
  · have hne := lowest_ne_of_used h
    have hsaved : (redirect limit (t.install t.lowest f) output).file t.lowest = some f := by
      simp [file_redirect, file_install, hne]
    simp only [saveRedirectRestore, saveAndRedirect, dup, STDOUT_FILENO, h,
      newDescriptor_of_lt hl, file_restore hsaved, file_redirect, file_install]
    by_cases hm : m = t.lowest
    · simp [hm, t.file_lowest]
    · by_cases hm1 : m = 1
      · subst hm1
        by_cases hl1 : 1 < limit <;> simp [hm, hl1, h]
      · simp [hm, hm1]
  · have hle := Nat.le_of_not_lt hl
    simp [saveRedirectRestore, saveAndRedirect, dup, STDOUT_FILENO, h,
      newDescriptor_of_le hle, restore, dup2, close, file_redirect, hl]

/-- Exactly the tables with 0 and 1 both closed are not restored, when the file opens and may
be moved to descriptor 1. -/
theorem file_restored_iff : (saveRedirectRestore limit t output).file = t.file ↔
    ¬ (t.file 0 = none ∧ t.file 1 = none ∧ output.isSome ∧ 1 < limit) := by
  cases h1 : t.file 1 with
  | some f =>
    simp only [reduceCtorEq, false_and, and_false, not_false_eq_true, iff_true]
    funext m
    exact file_saveRedirectRestore_of_used h1
  | none =>
    constructor
    · rintro h ⟨h0, -, ho, hl⟩
      have hm := congrFun h 1
      rw [file_saveRedirectRestore_of_closed h1, h1] at hm
      simp only [h0, hl, ho, and_self, if_true] at hm
      simp [hm] at ho
    · intro h
      funext m
      rw [file_saveRedirectRestore_of_closed h1, if_neg]
      rintro ⟨-, h0, hl, ho⟩
      exact h ⟨h0, rfl, ho, hl⟩

theorem zero_used_of_openFile {u : Descriptors F} (h : openFile limit t output = (some n, u)) :
    u.file 0 ≠ none := by
  cases output with
  | none => simp [openFile] at h
  | some f =>
    by_cases hl : t.lowest < limit
    · simp only [openFile, newDescriptor_of_lt hl, Prod.mk.injEq] at h
      rw [← h.2, file_install]
      by_cases h0 : t.file 0 = none
      · simp [lowest_eq_zero_iff.mpr h0]
      · have hne : t.lowest ≠ 0 := mt lowest_eq_zero_iff.mp h0
        simpa [hne.symm] using h0
    · simp [openFile, newDescriptor_of_le (Nat.le_of_not_lt hl)] at h

/-- The test file's descriptor takes the lowest free number and is still open. -/
theorem zero_used_of_openTestFile {created reopened : Option F} {written : Bool}
    {u : Descriptors F} (h : openTestFile limit t created written reopened = some u) :
    u.file 0 ≠ none := by
  unfold openTestFile at h
  split at h
  · simp at h
  · split at h
    · simp at h
    · split at h
      · simp at h
      · cases h
        exact zero_used_of_openFile ‹_›

/-- Both closed, the output file takes descriptor 0, is moved to 1 and stays there. -/
theorem not_restored_when_closed : ¬ ∀ (limit : ℕ) (t : Descriptors Unit) (output : Option Unit),
    (saveRedirectRestore limit t output).file = t.file := by
  intro h
  have hfile := file_restored_iff.mp (h 4 empty (some ()))
  simp at hfile

/-- Every table is restored but those with 0 and 1 closed, and `main` never comes to the section
with such a table: the test file has taken the lowest free number. -/
theorem descriptors_restored :
    (∀ (limit : ℕ) (t : Descriptors F) (output : Option F),
      (saveRedirectRestore limit t output).file = t.file ↔
        ¬ (t.file 0 = none ∧ t.file 1 = none ∧ output.isSome ∧ 1 < limit)) ∧
    ∀ (limit limit' : ℕ) (start t : Descriptors F) (created reopened output : Option F)
      (written : Bool), openTestFile limit start created written reopened = some t →
        (saveRedirectRestore limit' t output).file = t.file := by
  refine ⟨fun _ _ _ => file_restored_iff, ?_⟩
  intro limit limit' start t created reopened output written h
  refine file_restored_iff.mpr ?_
  rintro ⟨h0, -⟩
  exact zero_used_of_openTestFile h h0

/-- A process started with no descriptor at all. -/
theorem descriptors_restored_of_empty :
    ∃ t, openTestFile 1 (empty : Descriptors Unit) (some ()) true (some ()) = some t ∧
      ∀ output, (saveRedirectRestore 8 t output).file = t.file := by
  have hfirst : (empty : Descriptors Unit).lowest = 0 := lowest_eq_zero_iff.mpr rfl
  have hsecond : (((empty : Descriptors Unit).install 0 ()).close 0).lowest = 0 :=
    lowest_eq_zero_iff.mpr (by simp [file_close])
  have hopen : openTestFile 1 (empty : Descriptors Unit) (some ()) true (some ()) =
      some ((((empty : Descriptors Unit).install 0 ()).close 0).install 0 ()) := by
    simp [openTestFile, openFile, newDescriptor, close, hfirst, hsecond]
  exact ⟨_, hopen, fun output => descriptors_restored.2 1 8 _ _ _ _ output true hopen⟩

end SystemCalls.FileOperations

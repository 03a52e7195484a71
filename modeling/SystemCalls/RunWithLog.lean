import SystemCalls.FileOperations.Restore

/-!
# The program that runs a command with a log

`main` of 2.4.5 up to its `execvp`: both output descriptors are made to refer to `run.log`, and
the number it was opened on is closed.
-/

namespace SystemCalls.RunWithLog

open Descriptors FileOperations

abbrev STDERR_FILENO : ℕ := 2

variable {F : Type*} (limit : ℕ) (t : Descriptors F)

/-- The table with which `execvp` is called, or `none` if `main` returns before. `run` is what
`run.log` leads to, or `none` if it cannot be opened. -/
def main (run : Option F) : Option (Descriptors F) :=
  match openFile limit t run with
  | (none, _) => none
  | (some log, t) => do
    let t ← t.dup2OrFail limit log STDOUT_FILENO
    let t ← t.dup2OrFail limit log STDERR_FILENO
    return t.close log

/-- Descriptors 1 and 2 refer to the log, and the others are as they were. -/
def Wired (f : F) (u : Descriptors F) : Prop :=
  u.file STDOUT_FILENO = some f ∧ u.file STDERR_FILENO = some f ∧
    ∀ n, n ≠ STDOUT_FILENO → n ≠ STDERR_FILENO → u.file n = t.file n

/-- Whenever the program reaches `execvp`, both streams are wired. -/
def AlwaysWired (run : Option F) : Prop :=
  ∀ f u, run = some f → main limit t run = some u → Wired t f u

variable {limit t} {f : F} {u : Descriptors F} {n : ℕ}

theorem main_eq_some (h : main limit t (some f) = some u) : 2 < limit ∧
    u = (((t.install t.lowest f).dup2 t.lowest STDOUT_FILENO).dup2 t.lowest
      STDERR_FILENO).close t.lowest := by
  by_cases hl : t.lowest < limit
  · simp only [main, openFile, newDescriptor_of_lt hl, Option.bind_eq_bind,
      Option.bind_eq_some_iff] at h
    obtain ⟨t₁, h₁, t₂, h₂, hu⟩ := h
    obtain ⟨-, rfl, -⟩ := dup2OrFail_eq_some h₁
    obtain ⟨hlimit, rfl, -⟩ := dup2OrFail_eq_some h₂
    cases hu
    exact ⟨hlimit, rfl⟩
  · simp [main, openFile, newDescriptor_of_le (Nat.le_of_not_lt hl)] at h

theorem file_opened (t : Descriptors F) (f : F) :
    (t.install t.lowest f).file t.lowest = some f := by
  simp [file_install]

/-- The first `dup2` leaves the log on its own number. -/
theorem file_opened_dup2 (t : Descriptors F) (f : F) :
    ((t.install t.lowest f).dup2 t.lowest STDOUT_FILENO).file t.lowest = some f := by
  simp [file_dup2 (file_opened t f), file_opened t f]

/-- The log is on 1 and 2, and its own number is closed, even if it is one of these. -/
theorem file_main (h : main limit t (some f) = some u) :
    u.file n = if n = t.lowest then none
      else if n = STDOUT_FILENO ∨ n = STDERR_FILENO then some f else t.file n := by
  rw [(main_eq_some h).2, file_close, file_dup2 (file_opened_dup2 t f),
    file_dup2 (file_opened t f), file_install]
  by_cases hn : n = t.lowest <;> by_cases h2 : n = STDERR_FILENO <;> simp [hn, h2]

/-- The spare number is one of those that were to be kept. -/
def Aliased (t : Descriptors F) : Prop := t.lowest = STDOUT_FILENO ∨ t.lowest = STDERR_FILENO

theorem aliased_iff : Aliased t ↔
    t.file 0 ≠ none ∧ (t.file STDOUT_FILENO = none ∨ t.file STDERR_FILENO = none) := by
  have hfree := t.file_lowest
  constructor
  · rintro (h | h)
    · rw [h] at hfree
      exact ⟨fun h0 => by simp [lowest_eq_zero_iff.mpr h0] at h, .inl hfree⟩
    · rw [h] at hfree
      exact ⟨fun h0 => by simp [lowest_eq_zero_iff.mpr h0] at h, .inr hfree⟩
  · rintro ⟨h0, hclosed⟩
    have hne : t.lowest ≠ 0 := mt lowest_eq_zero_iff.mp h0
    have hle : t.lowest ≤ 2 := by
      rcases hclosed with h | h
      · exact Nat.le_trans (lowest_le h) (by decide)
      · exact lowest_le h
    unfold Aliased STDOUT_FILENO STDERR_FILENO
    omega

theorem wired_of_not_aliased (h : main limit t (some f) = some u) (ha : ¬ Aliased t) :
    Wired t f u := by
  have h1 : STDOUT_FILENO ≠ t.lowest := fun he => ha (.inl he.symm)
  have h2 : STDERR_FILENO ≠ t.lowest := fun he => ha (.inr he.symm)
  refine ⟨by simp [file_main h, h1], by simp [file_main h, h2], fun n hn1 hn2 => ?_⟩
  rw [file_main h]
  by_cases hn : n = t.lowest
  · simp [hn, t.file_lowest]
  · simp [hn, hn1, hn2]

theorem not_wired_of_aliased (h : main limit t (some f) = some u) (ha : Aliased t) :
    ¬ Wired t f u := by
  rintro ⟨h1, h2, -⟩
  rw [file_main h] at h1 h2
  rcases ha with ha | ha
  · simp [ha] at h1
  · simp [ha] at h2

/-- With the numbers 1 and 2 allowed, the program reaches `execvp`. -/
theorem exists_main (hl : 2 < limit) (ha : t.lowest < limit) :
    ∃ u, main limit t (some f) = some u := by
  have h1 : STDOUT_FILENO < limit := Nat.lt_trans (by decide) hl
  simp [main, openFile, newDescriptor_of_lt ha, dup2OrFail, file_opened, file_opened_dup2, hl, h1]

/-- Both streams are wired unless the log is opened on number 1 or 2. -/
theorem wired_iff (limit : ℕ) (t : Descriptors F) (run : Option F) :
    AlwaysWired limit t run ↔ run = none ∨ limit ≤ 2 ∨ t.file 0 = none ∨
      (t.file STDOUT_FILENO ≠ none ∧ t.file STDERR_FILENO ≠ none) := by
  constructor
  · intro h
    by_contra hnot
    simp only [not_or, not_and_or, not_not, Nat.not_le] at hnot
    obtain ⟨hrun, hl, hused⟩ := hnot
    obtain ⟨f, rfl⟩ := Option.ne_none_iff_exists'.mp hrun
    have ha : Aliased t := aliased_iff.mpr hused
    have hlowest : t.lowest < limit := by
      unfold Aliased STDOUT_FILENO STDERR_FILENO at ha
      omega
    obtain ⟨u, hu⟩ := exists_main (f := f) hl hlowest
    exact not_wired_of_aliased hu ha (h f u rfl hu)
  · rintro h f u rfl hu
    have hlimit := (main_eq_some hu).1
    refine wired_of_not_aliased hu fun ha => ?_
    obtain ⟨h0, hclosed⟩ := aliased_iff.mp ha
    rcases h with h | h | h | ⟨h1, h2⟩
    · cases h
    · omega
    · exact h0 h
    · exact hclosed.elim h1 h2

/-- Standard input is open and standard output closed. -/
def noStdout : Descriptors Bool := empty.install 0 false

/-- The log comes on number 1, which is closed at the end. -/
theorem not_wired_without_stdout : ¬ AlwaysWired 8 noStdout (some true) := by
  intro h
  have hlowest : noStdout.lowest = 1 := by
    have hle : noStdout.lowest ≤ 1 := lowest_le (by simp [noStdout, file_install])
    have hne : noStdout.lowest ≠ 0 := mt lowest_eq_zero_iff.mp (by simp [noStdout, file_install])
    omega
  have hlt : noStdout.lowest < 8 := by simp [hlowest]
  obtain ⟨u, hu⟩ := exists_main (f := true) (by decide) hlt
  exact not_wired_of_aliased hu (.inl hlowest) (h true u rfl hu)

end SystemCalls.RunWithLog

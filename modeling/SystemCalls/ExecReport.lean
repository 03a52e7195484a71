import SystemCalls.WaitStatus

/-!
# What the parent says of its child

`main` of 1.3.6 after `waitpid`: the status is taken apart and becomes one line.
-/

namespace SystemCalls.ExecReport

open WaitStatus

/-- What becomes of the child. -/
inductive Fate
  /-- `_exit(127)` after `execvp`. -/
  | execFails
  /-- The program in its place ends, or the child is killed on the way there. -/
  | ended (r : Report)

def Fate.report : Fate → Report
  | execFails => .exited 127
  | ended r => r

/-- What is written to `stdout` and `stderr`. -/
structure Output where
  out : String
  err : String
  deriving DecidableEq

def output (status : ℕ) : Output :=
  if WIFEXITED status then
    let code := WEXITSTATUS status
    if code = 127 then ⟨"", "child: exec failed\n"⟩
    else ⟨"child exited with " ++ toString code ++ "\n", ""⟩
  else if WIFSIGNALED status then
    ⟨"", "child killed by signal " ++ toString (WTERMSIG status) ++ "\n"⟩
  else ⟨"", ""⟩

/-- Exit codes that agree in their lowest byte, or one signal, with a core dump or without. -/
def Alike : Report → Report → Prop
  | .exited c, .exited d => c % 256 = d % 256
  | .signaled s _, .signaled t _ => s = t
  | .exited _, .signaled .. | .signaled .., .exited _ => False

variable {code : ℤ} {sig : Signal} {core : Bool}

theorem output_exited : output (Report.exited code).status =
    if code % 256 = 127 then ⟨"", "child: exec failed\n"⟩
    else ⟨"child exited with " ++ toString (code % 256).toNat ++ "\n", ""⟩ := by
  have hexited : WIFEXITED (Report.exited code).status = true := WIFEXITED_iff.mpr ⟨code, rfl⟩
  have hnonneg := Int.emod_nonneg code (by omega : (256 : ℤ) ≠ 0)
  rw [output, if_pos hexited, WEXITSTATUS_exited]
  by_cases h : code % 256 = 127
  · simp [h]
  · have hne : (code % 256).toNat ≠ 127 := by omega
    simp [h, hne]

theorem output_signaled : output (Report.signaled sig core).status =
    ⟨"", "child killed by signal " ++ toString sig.number ++ "\n"⟩ := by
  have hexited : ¬ WIFEXITED (Report.signaled sig core).status = true := by
    intro h
    obtain ⟨_, hr⟩ := WIFEXITED_iff.mp h
    cases hr
  rw [output, if_neg hexited, if_pos (WIFSIGNALED_status.mpr ⟨sig, core, rfl⟩), WTERMSIG_signaled]

/-- A line with a number in it determines the number. -/
theorem number_eq {start : String} {m n : ℕ}
    (h : start ++ toString m ++ "\n" = start ++ toString n ++ "\n") : m = n := by
  have hlist := congrArg String.toList h
  simp only [String.toList_append, List.append_cancel_right_eq, List.append_cancel_left_eq,
    Nat.toString_eq_ofList_toDigits, String.toList_ofList] at hlist
  rw [← Nat.ofDigitChars_ten_toDigits (n := m), hlist, Nat.ofDigitChars_ten_toDigits]

theorem exited_ne_signaled :
    output (Report.exited code).status ≠ output (Report.signaled sig core).status := by
  intro h
  rw [output_exited, output_signaled] at h
  have htake := congrArg (fun o : Output => o.err.toList.take 6) h
  split at htake <;> simp at htake

/-- The output tells the fates of two children apart, but for the exit codes that agree modulo
256: so "exec failed" stands for any program that ends with 127 as well. -/
theorem output_eq_iff (f g : Fate) :
    output f.report.status = output g.report.status ↔ Alike f.report g.report := by
  generalize f.report = r
  generalize g.report = r'
  cases r with
  | exited c =>
    cases r' with
    | exited d =>
      rw [output_exited, output_exited, Alike]
      have hc := Int.emod_nonneg c (by omega : (256 : ℤ) ≠ 0)
      have hd := Int.emod_nonneg d (by omega : (256 : ℤ) ≠ 0)
      constructor
      · intro h
        split at h <;> split at h
        · omega
        · simp at h
        · simp at h
        · have hn := number_eq (congrArg Output.out h)
          omega
      · intro h
        rw [h]
    | signaled t core => exact iff_of_false exited_ne_signaled id
  | signaled s core =>
    cases r' with
    | exited d => exact iff_of_false exited_ne_signaled.symm id
    | signaled t core' =>
      rw [output_signaled, output_signaled, Alike]
      constructor
      · intro h
        have hn := number_eq (congrArg Output.err h)
        cases s
        cases t
        simpa using hn
      · rintro rfl
        rfl

end SystemCalls.ExecReport

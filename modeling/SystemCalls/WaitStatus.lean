import Mathlib.Data.Int.DivMod
import Mathlib.Data.Int.Notation
import Mathlib.Data.Nat.Notation

/-!
# Wait statuses

How the kernel packs the end of a child into one number, and the macros of `<sys/wait.h>` that
take it apart.
-/

namespace SystemCalls.WaitStatus

/-- The signals that end a process. -/
structure Signal where
  number : ℕ
  pos : 0 < number
  lt : number < 127
  deriving DecidableEq

/-- What `wait` reports of a child that has ended. -/
inductive Report
  | exited (code : ℤ)
  | signaled (sig : Signal) (core : Bool)

/-- Of an exit code the lowest byte is kept. -/
def Report.status : Report → ℕ
  | exited code => 256 * (code % 256).toNat
  | signaled sig core => sig.number + if core then 128 else 0

def WTERMSIG (status : ℕ) : ℕ := status % 128

def WIFEXITED (status : ℕ) : Bool := WTERMSIG status = 0

def WEXITSTATUS (status : ℕ) : ℕ := status / 256 % 256

/-- `((signed char)((status & 0x7f) + 1) >> 1) > 0` -/
def WIFSIGNALED (status : ℕ) : Bool := 0 < ((WTERMSIG status + 1 : ℕ) : ℤ).bmod 256 / 2

variable {r : Report} {code : ℤ} {sig : Signal} {core : Bool}

theorem WIFSIGNALED_iff (status : ℕ) :
    WIFSIGNALED status = true ↔ 0 < WTERMSIG status ∧ WTERMSIG status < 127 := by
  have hlt : WTERMSIG status < 128 := Nat.mod_lt _ (by omega)
  unfold WIFSIGNALED
  rw [decide_eq_true_iff]
  generalize WTERMSIG status = t at *
  have hb : ((t + 1 : ℕ) : ℤ).bmod 256 = if t < 127 then (t : ℤ) + 1 else (t : ℤ) - 255 := by
    rw [Int.bmod_def]
    split <;> split <;> omega
  rw [hb]
  split <;> omega

theorem WIFEXITED_iff : WIFEXITED r.status = true ↔ ∃ code, r = .exited code := by
  rw [WIFEXITED, decide_eq_true_iff, WTERMSIG]
  cases r with
  | exited code => simp [Report.status]; omega
  | signaled sig core =>
    have hpos := sig.pos
    have hlt := sig.lt
    cases core <;> simp [Report.status] <;> omega

theorem WIFSIGNALED_status :
    WIFSIGNALED r.status = true ↔ ∃ sig core, r = .signaled sig core := by
  rw [WIFSIGNALED_iff, WTERMSIG]
  cases r with
  | exited code => simp [Report.status]; omega
  | signaled sig core =>
    have hpos := sig.pos
    have hlt := sig.lt
    cases core <;> simp [Report.status] <;> omega

theorem WEXITSTATUS_exited : WEXITSTATUS (Report.exited code).status = (code % 256).toNat := by
  have hnonneg := Int.emod_nonneg code (by omega : (256 : ℤ) ≠ 0)
  have hlt := Int.emod_lt_of_pos code (by omega : (0 : ℤ) < 256)
  rw [WEXITSTATUS, Report.status]
  omega

theorem WTERMSIG_signaled : WTERMSIG (Report.signaled sig core).status = sig.number := by
  have hlt := sig.lt
  cases core <;> simp [WTERMSIG, Report.status] <;> omega

end SystemCalls.WaitStatus

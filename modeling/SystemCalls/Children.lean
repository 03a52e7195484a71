import Mathlib.Logic.Function.Basic

/-!
# The kernel's table of a process's children

A child is live until it exits and a zombie until its parent waits for it.
-/

namespace SystemCalls

inductive Child
  | absent
  | live
  | zombie
  | reaped
  deriving DecidableEq

/-- The children of one process, by pid. -/
abbrev Children (Pid : Type*) := Pid → Child

/-- Return values of `waitpid`: a pid, 0, or -1. -/
inductive WaitResult (Pid : Type*)
  | pid (p : Pid)
  | zero
  | error

namespace Children

variable {Pid : Type*} [DecidableEq Pid] {c c' : Children Pid} {r : WaitResult Pid}

/-- `waitpid(-1, NULL, WNOHANG)`: reaps one zombie, else tells live children from none. -/
inductive WaitpidNohang : Children Pid → WaitResult Pid → Children Pid → Prop
  | reap {c : Children Pid} {p : Pid} (hp : c p = .zombie) :
      WaitpidNohang c (.pid p) (Function.update c p .reaped)
  | live {c : Children Pid} (hz : ∀ p, c p ≠ .zombie) (hl : ∃ p, c p = .live) :
      WaitpidNohang c .zero c
  | none {c : Children Pid} (hz : ∀ p, c p ≠ .zombie) (hl : ∀ p, c p ≠ .live) :
      WaitpidNohang c .error c

/-- A result that is no pid means that no zombie was there. -/
theorem WaitpidNohang.no_zombie (h : WaitpidNohang c r c') (hr : ∀ p, r ≠ .pid p) :
    c' = c ∧ ∀ p, c p ≠ .zombie := by
  cases h with
  | reap hp => exact (hr _ rfl).elim
  | live hz _ | none hz _ => exact ⟨rfl, hz⟩

end Children

end SystemCalls

import Mathlib.Data.List.Basic

/-!
# Classic BPF

The instructions of a packet filter that a system call filter may use, what the kernel runs and
what it checks before it takes a program. Jumps only go forward, so a program is run by walking
down its list with the number of instructions still to be skipped.
-/

namespace SystemCalls.Bpf

/-- What a conditional jump asks of the accumulator, which is on the left. -/
inductive Test
  | eq
  | gt
  | ge
  | set
  deriving DecidableEq

def Test.holds : Test → UInt32 → UInt32 → Bool
  | eq, a, k => a == k
  | gt, a, k => k < a
  | ge, a, k => k ≤ a
  | set, a, k => a &&& k != 0

inductive Insn
  /-- Loads the word at an offset of the data. -/
  | load (offset : UInt32)
  | and (k : UInt32)
  | skip (k : UInt32)
  | jump (test : Test) (k : UInt32) (jt jf : UInt8)
  | ret (k : UInt32)
  | retAcc
  deriving DecidableEq

/-- The data of one run, where an offset that is outside or not aligned has no word. -/
abbrev Data := UInt32 → Option UInt32

/-- `none` for a run that leaves the program or the data. -/
def exec (d : Data) : List Insn → ℕ → UInt32 → Option UInt32
  | [], _, _ => none
  | _ :: p, skip + 1, a => exec d p skip a
  | .load k :: p, 0, _ => (d k).bind fun a => exec d p 0 a
  | .and k :: p, 0, a => exec d p 0 (a &&& k)
  | .skip k :: p, 0, a => exec d p k.toNat a
  | .jump test k jt jf :: p, 0, a =>
    exec d p (if test.holds a k then jt.toNat else jf.toNat) a
  | .ret k :: _, 0, _ => some k
  | .retAcc :: _, 0, a => some a

/-- The value returned, with the accumulator 0 at the start. -/
def run (d : Data) (p : List Insn) : Option UInt32 :=
  exec d p 0 0

def Insn.isRet : Insn → Bool
  | ret _ | retAcc => true
  | _ => false

/-- The instruction may stand before `rest` others, where `inside` tells the offsets of the data. -/
def Insn.fits (inside : UInt32 → Bool) (rest : ℕ) : Insn → Bool
  | load k => inside k
  | skip k => k.toNat < rest
  | jump _ _ jt jf => jt.toNat < rest && jf.toNat < rest
  | and _ | ret _ | retAcc => true

def fits (inside : UInt32 → Bool) : List Insn → Bool
  | [] => true
  | i :: p => i.fits inside p.length && fits inside p

/-- The most instructions of a program. -/
abbrev MAXINSNS : ℕ := 4096

/-- The check before a program is attached: its length, every jump and every load, and that it
ends with a return. -/
def check (inside : UInt32 → Bool) (p : List Insn) : Bool :=
  p.length ≤ MAXINSNS && fits inside p && p.getLast?.any Insn.isRet

variable {inside : UInt32 → Bool} {d : Data} {p : List Insn} {i : Insn} {a : UInt32} {n : ℕ}

theorem check_eq_true : check inside p = true ↔
    p.length ≤ MAXINSNS ∧ fits inside p = true ∧ p.getLast?.any Insn.isRet = true := by
  simp [check, and_assoc]

/-- A program that ends with a return has an instruction after every other one. -/
theorem ne_nil_of_getLast (h : (i :: p).getLast?.any Insn.isRet = true) (hi : i.isRet = false) :
    p ≠ [] := by
  rintro rfl
  simp [hi] at h

theorem getLast_tail (h : (i :: p).getLast?.any Insn.isRet = true) (hp : p ≠ []) :
    p.getLast?.any Insn.isRet = true := by
  rcases p with _ | ⟨j, p⟩
  · exact (hp rfl).elim
  · simpa [List.getLast?_cons_cons] using h

/-- What the check has let through neither runs off its end nor reads outside the data. -/
theorem exec_isSome (hd : ∀ k, inside k = true → (d k).isSome) (hf : fits inside p = true)
    (hl : p.getLast?.any Insn.isRet = true) (hn : n < p.length) : (exec d p n a).isSome := by
  induction p generalizing n a with
  | nil => simp at hn
  | cons i p ih =>
    obtain ⟨hi, hp⟩ : i.fits inside p.length = true ∧ fits inside p = true := by
      simpa [fits] using hf
    have hnext : ∀ {m a}, m < p.length → (exec d p m a).isSome := by
      intro m a hm
      have hne : p ≠ [] := List.ne_nil_of_length_pos (by omega)
      exact ih hp (getLast_tail hl hne) hm
    have hpos : i.isRet = false → 0 < p.length := by
      intro hr
      exact List.length_pos_iff.mpr (ne_nil_of_getLast hl hr)
    rcases n with _ | n
    · cases i with
      | load k =>
        obtain ⟨v, hv⟩ := Option.isSome_iff_exists.mp (hd k hi)
        simpa [exec, hv] using hnext (hpos rfl)
      | and k => exact hnext (hpos rfl)
      | skip k => exact hnext (by simpa [Insn.fits] using hi)
      | jump test k jt jf =>
        obtain ⟨ht, hf⟩ : jt.toNat < p.length ∧ jf.toNat < p.length := by
          simpa [Insn.fits] using hi
        refine hnext ?_
        split <;> assumption
      | ret k => rfl
      | retAcc => rfl
    · exact hnext (by simpa using hn)

theorem run_isSome (hd : ∀ k, inside k = true → (d k).isSome) (h : check inside p = true) :
    (run d p).isSome := by
  obtain ⟨_, hf, hl⟩ := check_eq_true.mp h
  refine exec_isSome hd hf hl ?_
  rcases p with _ | ⟨i, p⟩
  · simp at hl
  · simp

/-- Returns `yes` when the accumulator is one of the values, by a test and a return for each. -/
def tests (yes : UInt32) (ks : List UInt32) : List Insn :=
  ks.flatMap fun k => [.jump .eq k 0 1, .ret yes]

/-- A list of the values of the word at `offset` that are let through. -/
def allowList (offset yes no : UInt32) (ks : List UInt32) : List Insn :=
  .load offset :: (tests yes ks ++ [.ret no])

theorem exec_tests (yes no a : UInt32) (ks : List UInt32) :
    exec d (tests yes ks ++ [.ret no]) 0 a = some (if a ∈ ks then yes else no) := by
  induction ks with
  | nil => rfl
  | cons k ks ih =>
    by_cases hk : a = k
    · subst hk
      simp [tests, exec, Test.holds]
    · have htest : exec d (tests yes (k :: ks) ++ [.ret no]) 0 a =
          exec d (tests yes ks ++ [.ret no]) 0 a := by
        simp [tests, exec, Test.holds, hk]
      rw [htest, ih]
      simp [hk]

theorem run_allowList {offset yes no : UInt32} {ks : List UInt32} (h : d offset = some a) :
    run d (allowList offset yes no ks) = some (if a ∈ ks then yes else no) := by
  simp [run, allowList, exec, h, exec_tests]

end SystemCalls.Bpf

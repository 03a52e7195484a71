import SystemCalls.Socket
import Mathlib.Algebra.BigOperators.Group.Finset.Basic

/-!
# The loops around `write`

`write_all` stands in three chapters and `write_full` in a fourth. Each calls `write` until all
bytes are written, and they are compared on the same answers of the kernel, one answer a call.
-/

namespace SystemCalls.WriteLoops

/-- What `write` or `read` returns: a count, or -1 with an `errno`. -/
inductive Answer
  | count (n : ℕ)
  | error (e : Errno)
  deriving DecidableEq

/-- A loop at its next `write(fd, p, count)`, with `p` an index of the buffer, or returned. -/
inductive Loop
  | writing (p count : ℕ)
  | returned (ret : ℤ) (errno : Option Errno)
  deriving DecidableEq

/-- `while (count > 0)`, with what is returned after it. -/
def whileLeft (ret : ℤ) (p count : ℕ) : Loop :=
  if 0 < count then .writing p count else .returned ret none

/-- The body of `write_all` in 2.2.7 and 4.1.7, from the return of `write` on. -/
def unguarded (p count : ℕ) : Answer → Loop
  | .error e => if e = .eintr then whileLeft 0 p count else .returned (-1) (some e)
  | .count n => whileLeft 0 (p + n) (count - n)

/-- `write_all` of 2.2.3, which takes a count of 0 for an error. -/
def writeAllGuarded (p count : ℕ) : Answer → Loop
  | .error e => if e = .eintr then whileLeft 0 p count else .returned (-1) (some e)
  | .count n =>
      if n = 0 then .returned (-1) (some .eio)
      else whileLeft 0 (p + n) (count - n)

/-- `write_all` of the copy program, 2.2.7. -/
def writeAllCopy : ℕ → ℕ → Answer → Loop := unguarded

/-- `write_all` of the pipe program, 4.1.7. -/
def writeAllPipe : ℕ → ℕ → Answer → Loop := unguarded

/-- `(ssize_t)count` -/
def ssize (count : ℕ) : ℤ := (count : ℤ).bmod (2 ^ 64)

/-- `write_full` of 0.4.7. On EINTR the macro calls `write` again without going through the
loop's head. -/
def writeFull (count p left : ℕ) : Answer → Loop
  | .error e => if e = .eintr then .writing p left else .returned (-1) (some e)
  | .count n => whileLeft (ssize count) (p + n) (left - n)

inductive Site
  | guarded
  | copy
  | pipe
  | full
  deriving DecidableEq

namespace Site

/-- What the loop of `site` does with an answer. -/
def answer (count : ℕ) : Site → ℕ → ℕ → Answer → Loop
  | guarded => writeAllGuarded
  | copy => writeAllCopy
  | pipe => writeAllPipe
  | full => writeFull count

/-- What is returned after the loop. -/
def success (count : ℕ) : Site → ℤ
  | guarded | copy | pipe => 0
  | full => ssize count

end Site

/-- The arguments of a call: no object is larger than PTRDIFF_MAX. -/
structure Request where
  buf : List UInt8
  count : ℕ
  count_le : count ≤ buf.length
  length_lt : buf.length < 2 ^ 63

def Answer.bytes : Answer → ℕ
  | count n => n
  | error _ => 0

/-- No call takes more than it is asked to. -/
def Answer.Fits (count : ℕ) : Answer → Prop
  | .count n => n ≤ count
  | .error _ => True

/-- The bytes taken by the first `k` answers. -/
def total (ans : ℕ → Answer) (k : ℕ) : ℕ := ∑ j ∈ Finset.range k, (ans j).bytes

/-- Answers to the calls of one loop, of which each takes at most what is left. -/
structure Answers (count : ℕ) where
  ans : ℕ → Answer
  valid : ∀ k, total ans k + (ans k).bytes ≤ count

/-- The loop after `k` answers. -/
def run (count : ℕ) (ans : ℕ → Answer) (site : Site) : ℕ → Loop
  | 0 => whileLeft (site.success count) 0 count
  | k + 1 =>
    match run count ans site k with
    | .writing p left => site.answer count p left (ans k)
    | .returned ret errno => .returned ret errno

/-- The `write` a loop is at. -/
def Loop.call : Loop → Option (ℕ × ℕ)
  | writing p count => some (p, count)
  | returned _ _ => none

/-- The calls that got the first `k` answers. -/
def calls (count : ℕ) (ans : ℕ → Answer) (site : Site) (k : ℕ) : List (ℕ × ℕ) :=
  (List.range k).filterMap fun j => (run count ans site j).call

/-- The bytes that these calls handed to the descriptor. -/
def handed (r : Request) (ans : ℕ → Answer) (site : Site) (k : ℕ) : List UInt8 :=
  (List.range k).flatMap fun j =>
    match (run r.count ans site j).call with
    | some (p, _) => (r.buf.drop p).take (ans j).bytes
    | none => []

/-- How far a loop is, with the value that stands for success. -/
inductive Verdict
  | running
  | succeeded
  | failed
  | other
  deriving DecidableEq

/-- 0 of `write_all` and `count` of `write_full` are success, -1 is failure. -/
def verdict (count : ℕ) (site : Site) : Loop → Verdict
  | .writing _ _ => .running
  | .returned ret _ =>
      if ret = (if site = .full then (count : ℤ) else 0) then .succeeded
      else if ret = -1 then .failed
      else .other

/-- At every moment all four have made the same calls, handed over the same bytes, and run on,
succeeded or failed together. -/
structure Agree (r : Request) (a : Answers r.count) : Prop where
  same_calls : ∀ i j k, calls r.count a.ans i k = calls r.count a.ans j k
  same_bytes : ∀ i j k, handed r a.ans i k = handed r a.ans j k
  same_verdict : ∀ i j k, verdict r.count i (run r.count a.ans i k) =
    verdict r.count j (run r.count a.ans j k)
  decided : ∀ i k, verdict r.count i (run r.count a.ans i k) ≠ .other

/-- All bytes have been taken or a call has failed for good before the `k`-th answer. -/
def Over (count : ℕ) (ans : ℕ → Answer) (k : ℕ) : Prop :=
  total ans k = count ∨ ∃ j < k, ∃ e, ans j = .error e ∧ e ≠ .eintr

variable {count k p left : ℕ} {ans : ℕ → Answer} {i j : Site} {a : Answer}

@[simp] theorem total_zero : total ans 0 = 0 := rfl

theorem total_succ (ans : ℕ → Answer) (k : ℕ) : total ans (k + 1) = total ans k + (ans k).bytes :=
  Finset.sum_range_succ ..

theorem Answers.total_le (a : Answers count) (k : ℕ) : total a.ans k ≤ count := by
  have := a.valid k
  omega

theorem Over.succ (h : Over count ans k) (hle : total ans (k + 1) ≤ count) :
    Over count ans (k + 1) := by
  rcases h with h | ⟨j, hj, he⟩
  · left
    rw [total_succ] at hle ⊢
    omega
  · exact .inr ⟨j, by omega, he⟩

/-- What every loop does with an answer, 0 in the guarded one apart. -/
def resume (ret : ℤ) (p left : ℕ) : Answer → Loop
  | .error e => if e = .eintr then .writing p left else .returned (-1) (some e)
  | .count n => whileLeft ret (p + n) (left - n)

theorem answer_eq (h : i = .guarded → a ≠ .count 0) (hleft : 0 < left) :
    i.answer count p left a = resume (i.success count) p left a := by
  cases a with
  | count n =>
    cases i with
    | guarded =>
      have hn : n ≠ 0 := by simpa using h rfl
      simp [Site.answer, writeAllGuarded, resume, hn, Site.success]
    | copy | pipe | full => rfl
  | error e =>
    cases i with
    | guarded | copy | pipe =>
      simp [Site.answer, writeAllGuarded, writeAllCopy, writeAllPipe, unguarded, resume, whileLeft,
        hleft]
    | full => rfl

/-- A run without the check for 0. -/
def plain (count : ℕ) (ans : ℕ → Answer) (ret : ℤ) : ℕ → Loop
  | 0 => whileLeft ret 0 count
  | k + 1 =>
    match plain count ans ret k with
    | .writing p left => resume ret p left (ans k)
    | .returned ret errno => .returned ret errno

/-- Until it is over, a loop is at the call for what is left. -/
theorem plain_of_not_over (hle : ∀ k, total ans k ≤ count) (h : ¬ Over count ans k) (ret : ℤ) :
    plain count ans ret k = .writing (total ans k) (count - total ans k) := by
  induction k with
  | zero =>
    have hpos : 0 < count := Nat.pos_of_ne_zero fun h0 => h (.inl (by simp [h0]))
    simp [plain, whileLeft, hpos]
  | succ k ih =>
    have hk : ¬ Over count ans k := fun hk => h (hk.succ (hle _))
    have hne : total ans (k + 1) ≠ count := fun he => h (.inl he)
    have hlt : total ans (k + 1) < count := lt_of_le_of_ne (hle _) hne
    have hsucc := total_succ ans k
    rw [plain, ih hk]
    cases ha : ans k with
    | count n =>
      rw [ha, Answer.bytes] at hsucc
      have hpos : 0 < count - total ans k - n := by omega
      have hsub : count - total ans k - n = count - total ans (k + 1) := by omega
      rw [hsub] at hpos
      simp only [resume, whileLeft, hsub]
      rw [if_pos hpos, hsucc]
    | error e =>
      have he : e = .eintr := by
        by_contra hne
        exact h (.inr ⟨k, by omega, e, ha, hne⟩)
      rw [ha, Answer.bytes, Nat.add_zero] at hsucc
      simp [resume, he, hsucc]

/-- When it is over, it has returned what is returned after the loop, or -1. -/
theorem plain_of_over (hle : ∀ k, total ans k ≤ count) (h : Over count ans k) :
    (∀ ret, plain count ans ret k = .returned ret none) ∨
      ∃ e, ∀ ret, plain count ans ret k = .returned (-1) (some e) := by
  induction k with
  | zero =>
    rcases h with h | ⟨j, hj, -⟩
    · left
      intro ret
      have hzero : count = 0 := h.symm
      simp [plain, whileLeft, hzero]
    · omega
  | succ k ih =>
    by_cases hk : Over count ans k
    · exact (ih hk).imp (fun hr ret => by simp [plain, hr]) fun ⟨e, hr⟩ =>
        ⟨e, fun ret => by simp [plain, hr]⟩
    · have hrun := plain_of_not_over hle hk
      have hsucc := total_succ ans k
      rcases h with h | ⟨j, hj, e, he, hne⟩
      · left
        intro ret
        rw [plain, hrun]
        cases ha : ans k with
        | count n =>
          rw [ha, Answer.bytes] at hsucc
          simp [resume, whileLeft, show count - total ans k - n = 0 by omega]
        | error e =>
          rw [ha, Answer.bytes] at hsucc
          exact (hk (.inl (by omega))).elim
      · have hjk : j = k := by
          by_contra hjk
          exact hk (.inr ⟨j, by omega, e, he, hne⟩)
        subst j
        right
        refine ⟨e, fun ret => ?_⟩
        simp [plain, hrun, he, resume, hne]

theorem run_eq (hle : ∀ k, total ans k ≤ count)
    (h : i = .guarded → ∀ k, ans k = .count 0 → Over count ans k) (k : ℕ) :
    run count ans i k = plain count ans (i.success count) k := by
  induction k with
  | zero => rfl
  | succ k ih =>
    rw [run, plain, ih]
    by_cases hk : Over count ans k
    · rcases plain_of_over hle hk with hr | ⟨e, hr⟩ <;> simp [hr]
    · have hlt : total ans k < count := lt_of_le_of_ne (hle k) fun he => hk (.inl he)
      rw [plain_of_not_over hle hk]
      apply answer_eq
      · intro hi ha
        exact hk (h hi k ha)
      · omega

theorem ssize_of_lt (h : count < 2 ^ 63) : ssize count = count := by
  unfold ssize
  apply Int.bmod_eq_of_le <;> omega

/-- A count in an object fits in `ssize_t`. -/
theorem Request.ssize_count (r : Request) : ssize r.count = r.count :=
  ssize_of_lt (Nat.lt_of_le_of_lt r.count_le r.length_lt)

theorem call_plain (hle : ∀ k, total ans k ≤ count) (ret ret' : ℤ) (k : ℕ) :
    (plain count ans ret k).call = (plain count ans ret' k).call := by
  by_cases hk : Over count ans k
  · rcases plain_of_over hle hk with hr | ⟨e, hr⟩ <;> simp [hr, Loop.call]
  · rw [plain_of_not_over hle hk, plain_of_not_over hle hk]

/-- The verdict on a run without the check, whatever stands for success. -/
theorem verdict_plain (r : Request) (hle : ∀ k, total ans k ≤ r.count) (i : Site) (k : ℕ) :
    (¬ Over r.count ans k →
      verdict r.count i (plain r.count ans (i.success r.count) k) = .running) ∧
    (Over r.count ans k →
      ((∀ j : Site, verdict r.count j (plain r.count ans (j.success r.count) k) = .succeeded) ∨
        ∀ j : Site, verdict r.count j (plain r.count ans (j.success r.count) k) = .failed)) := by
  refine ⟨fun hk => by simp [plain_of_not_over hle hk, verdict], fun hk => ?_⟩
  rcases plain_of_over hle hk with hr | ⟨e, hr⟩
  · left
    intro j
    cases j <;> simp [hr, verdict, Site.success, r.ssize_count]
  · right
    intro j
    have hne : (-1 : ℤ) ≠ r.count := by omega
    cases j <;> simp [hr, verdict, hne]

theorem verdict_returned {ret : ℤ} {errno : Option Errno} :
    verdict count i (.returned ret errno) ≠ .running := by
  simp only [verdict]
  generalize (if i = .full then (count : ℤ) else 0) = success
  split
  · simp
  · split <;> simp

/-- The four loops agree exactly when none of their calls returns 0. -/
theorem loops_agree_iff (r : Request) (a : Answers r.count) :
    Agree r a ↔ ∀ k, a.ans k = .count 0 → Over r.count a.ans k := by
  have hle := a.total_le
  constructor
  · intro h k hzero
    by_contra hk
    have hcopy (m : ℕ) : run r.count a.ans .copy m = plain r.count a.ans 0 m :=
      run_eq hle (by simp) m
    have hnext : ¬ Over r.count a.ans (k + 1) := by
      rintro (hall | ⟨j, hj, e, he, hne⟩)
      · rw [total_succ, hzero, Answer.bytes, Nat.add_zero] at hall
        exact hk (.inl hall)
      · have hjk : j ≠ k := by
          rintro rfl
          simp [hzero] at he
        exact hk (.inr ⟨j, by omega, e, he, hne⟩)
    have hv := h.same_verdict .guarded .copy
    have hvk := hv k
    have hvn := hv (k + 1)
    rw [hcopy, plain_of_not_over hle hk] at hvk
    rw [hcopy, plain_of_not_over hle hnext] at hvn
    cases hrun : run r.count a.ans .guarded k with
    | writing p left =>
      simp [run, hrun, Site.answer, writeAllGuarded, hzero, verdict] at hvn
    | returned ret errno =>
      rw [hrun] at hvk
      exact verdict_returned hvk
  · intro h
    have hrun (i : Site) (k : ℕ) := run_eq (i := i) hle (fun _ => h) k
    have hcall (i j : Site) (k : ℕ) :
        (run r.count a.ans i k).call = (run r.count a.ans j k).call := by
      rw [hrun, hrun]
      exact call_plain hle _ _ k
    refine ⟨?_, ?_, ?_, ?_⟩
    · intro i j k
      simp only [calls, hcall i j]
    · intro i j k
      simp only [handed, hcall i j]
    · intro i j k
      rw [hrun, hrun]
      by_cases hk : Over r.count a.ans k
      · rcases (verdict_plain r hle i k).2 hk with hall | hall <;> rw [hall i, hall j]
      · rw [(verdict_plain r hle i k).1 hk, (verdict_plain r hle j k).1 hk]
    · intro i k
      rw [hrun]
      by_cases hk : Over r.count a.ans k
      · rcases (verdict_plain r hle i k).2 hk with hall | hall <;> simp [hall i]
      · simp [(verdict_plain r hle i k).1 hk]

/-- One byte, of which the first call takes nothing and the second takes it. -/
def oneByte : Request where
  buf := [97]
  count := 1
  count_le := le_rfl
  length_lt := by decide

def nothingFirst : Answers oneByte.count where
  ans
    | 1 => .count 1
    | _ => .count 0
  valid := by
    intro k
    have htotal : total (fun | 1 => .count 1 | _ => .count 0) k = min 1 (k - 1) := by
      induction k with
      | zero => rfl
      | succ k ih =>
        rw [total_succ, ih]
        rcases k with - | - | k <;> simp [Answer.bytes]
    rw [htotal]
    rcases k with - | - | k <;> simp [Answer.bytes, oneByte]

/-- `write_all` of 2.2.3 gives up with EIO, the others write the byte. -/
theorem loops_differ_at_zero : ¬ Agree oneByte nothingFirst := by
  intro h
  have hv := h.same_verdict .guarded .copy 1
  revert hv
  decide

end SystemCalls.WriteLoops

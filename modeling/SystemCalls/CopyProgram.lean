import SystemCalls.Transition
import SystemCalls.WriteLoops

/-!
# The copy program

`main` of 2.2.7 from its first `read` on, with `write_all` around each chunk. The state keeps the
bytes read and the bytes that `write` has taken.
-/

namespace SystemCalls.CopyProgram

open Socket WriteLoops

/-- `sizeof buf` -/
abbrev BUF_SIZE : ℕ := 8192

inductive PC
  | read
  /-- In `write_all(out, buf, n)` at `write(fd, p, count)`; `buf` holds the `n` bytes of `chunk`. -/
  | writeAll (chunk : List UInt8) (p count : ℕ)
  /-- The loop has ended, and both descriptors are to be closed. -/
  | closing
  | exited (status : ℕ)

structure State where
  pc : PC
  got : List UInt8
  accepted : List UInt8
  /-- `read` has returned 0. -/
  eof : Bool

inductive Event
  | read (r : Recv BUF_SIZE)
  | write (a : Answer)
  | close (ok : Bool)

/-- `main` around the loop of `write_all`. -/
def afterLoop (chunk : List UInt8) : Loop → PC
  | .writing p count => .writeAll chunk p count
  | .returned ret _ => if ret = -1 then .exited 1 else .read

inductive Step : State → Event → State → Prop
  | data {s : State} {c : Chunk BUF_SIZE} (h : s.pc = .read) :
      Step s (.read (.data c)) { s with
        pc := afterLoop c.bytes (whileLeft 0 0 c.bytes.length)
        got := s.got ++ c.bytes }
  | eof {s : State} (h : s.pc = .read) :
      Step s (.read .eof) { s with pc := .closing, eof := true }
  | readFails {s : State} {e : Errno} (h : s.pc = .read) :
      Step s (.read (.error e)) { s with pc := .exited 1 }
  | write {s : State} {chunk : List UInt8} {p count : ℕ} {a : Answer}
      (h : s.pc = .writeAll chunk p count) (ha : Answer.Fits count a) :
      Step s (.write a) { s with
        pc := afterLoop chunk (writeAllCopy p count a)
        accepted := s.accepted ++ (chunk.drop p).take a.bytes }
  | close {s : State} {b : Bool} (h : s.pc = .closing) :
      Step s (.close b) { s with pc := .exited (if b = true then 0 else 1) }

def start : State := ⟨.read, [], [], false⟩

def system : LTS State Event where
  initial s := s = start
  step := Step

/-- What is read and not yet taken lies in `buf` from `p` on. -/
def Transferred (s : State) : Prop :=
  match s.pc with
  | .read => s.accepted = s.got
  | .writeAll chunk p count => p + count = chunk.length ∧ s.accepted ++ chunk.drop p = s.got
  | .closing => s.accepted = s.got ∧ s.eof = true
  | .exited status =>
    s.accepted <+: s.got ∧ (status = 0 → s.accepted = s.got ∧ s.eof = true)

variable {s t : State} {e : Event} {chunk : List UInt8} {p count : ℕ} {a : Answer}

/-- Position and remainder at the head of the loop. -/
theorem transferred_whileLeft (hp : p + count = chunk.length)
    (hs : s.accepted ++ chunk.drop p = s.got) :
    Transferred { s with pc := afterLoop chunk (whileLeft 0 p count) } := by
  by_cases hc : 0 < count
  · simp only [whileLeft, if_pos hc, afterLoop]
    exact ⟨hp, hs⟩
  · have hdrop : chunk.drop p = [] := List.drop_eq_nil_of_le (by omega)
    rw [hdrop, List.append_nil] at hs
    simp only [whileLeft, if_neg hc, afterLoop]
    exact hs

theorem transferred_write (hp : p + count = chunk.length)
    (hs : s.accepted ++ chunk.drop p = s.got) (ha : Answer.Fits count a) :
    Transferred { s with
      pc := afterLoop chunk (writeAllCopy p count a)
      accepted := s.accepted ++ (chunk.drop p).take a.bytes } := by
  cases a with
  | count n =>
    have hn : n ≤ count := ha
    refine transferred_whileLeft (s := { s with
      accepted := s.accepted ++ (chunk.drop p).take n }) (by omega) ?_
    rw [List.append_assoc, ← List.drop_drop, List.take_append_drop]
    exact hs
  | error e =>
    by_cases he : e = .eintr
    · simpa [writeAllCopy, unguarded, he, Answer.bytes] using transferred_whileLeft hp hs
    · simp only [writeAllCopy, unguarded, if_neg he, afterLoop, Answer.bytes, List.take_zero,
        List.append_nil]
      refine ⟨⟨chunk.drop p, hs⟩, ?_⟩
      simp

theorem transferred_step (h : Step s e t) (hs : Transferred s) : Transferred t := by
  cases h with
  | @data c h =>
    have heq : s.accepted = s.got := by simpa [Transferred, h] using hs
    refine transferred_whileLeft (s := { s with got := s.got ++ c.bytes }) (by omega) ?_
    rw [List.drop_zero, heq]
  | eof h =>
    have heq : s.accepted = s.got := by simpa [Transferred, h] using hs
    exact ⟨heq, rfl⟩
  | readFails h =>
    have heq : s.accepted = s.got := by simpa [Transferred, h] using hs
    exact ⟨heq ▸ List.prefix_rfl, by simp⟩
  | write h ha =>
    rw [Transferred, h] at hs
    exact transferred_write hs.1 hs.2 ha
  | close h =>
    rw [Transferred, h] at hs
    exact ⟨hs.1 ▸ List.prefix_rfl, fun _ => hs⟩

theorem transferred_reachable (h : system.Reachable s) : Transferred s := by
  apply h.invariant
  · rintro _ rfl
    rfl
  · intro s e t hst hs
    exact transferred_step hst hs

theorem accepted_of_transferred (h : Transferred s) : s.accepted <+: s.got := by
  unfold Transferred at h
  split at h
  · exact h ▸ List.prefix_rfl
  · exact ⟨_, h.2⟩
  · exact h.1 ▸ List.prefix_rfl
  · exact h.1

/-- The bytes taken are a prefix of the bytes read, all of them when the program succeeds, and
`p = buf + (n - count)` in the loop. -/
theorem copy_exact (h : system.Reachable s) :
    s.accepted <+: s.got ∧ (s.pc = .exited 0 → s.accepted = s.got ∧ s.eof = true) ∧
      ∀ chunk p count, s.pc = .writeAll chunk p count →
        count ≤ chunk.length ∧ p = chunk.length - count := by
  have hs := transferred_reachable h
  refine ⟨accepted_of_transferred hs, fun hpc => ?_, fun chunk p count hpc => ?_⟩
  · rw [Transferred, hpc] at hs
    exact hs.2 rfl
  · rw [Transferred, hpc] at hs
    omega

/-- Two bytes, written one by one with an interruption between them. -/
theorem copy_exact_of_short_writes : ∃ s, system.Reachable s ∧ s.pc = .exited 0 ∧
    s.got = [1, 2] ∧ s.accepted = s.got ∧ s.eof = true := by
  let c : Chunk BUF_SIZE := ⟨[1, 2], by simp, by decide⟩
  have hread := (LTS.Reachable.of_initial (L := system) rfl).step (.data (c := c) rfl)
  have hone := hread.step (.write (a := .count 1) rfl (by decide : 1 ≤ 2))
  have hagain := hone.step (.write (a := .error .eintr) rfl trivial)
  have hall := hagain.step (.write (a := .count 1) rfl (by decide : 1 ≤ 1))
  have hexit := (hall.step (.eof rfl)).step (.close (b := true) rfl)
  exact ⟨_, hexit, rfl, rfl, (copy_exact hexit).2.1 rfl⟩

end SystemCalls.CopyProgram

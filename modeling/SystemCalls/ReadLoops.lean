import SystemCalls.WriteLoops

/-!
# The loops around `read`

`read_full` of 2.2.3 advances a pointer and counts down, `read_all` of 0.4.5 keeps a total. Both
are run on the same stream and the same answers of the kernel, one answer a call.
-/

namespace SystemCalls.ReadLoops

open WriteLoops (Answer Request ssize ssize_of_lt)

/-- The answer to the `k`-th call when it asks for `n` bytes, with 0 at the end of the file. -/
structure Kernel where
  ans : ℕ → ℕ → Answer
  fits (k n : ℕ) : (ans k n).Fits n

/-- The states of a loop: which `read` it is at, as an index of the buffer and a length, and where
an answer takes it. -/
structure Loop (σ : Type) where
  start : σ
  call : σ → Option (ℕ × ℕ)
  answer : σ → Answer → σ

/-! ### `read_full` -/

inductive ReadFull
  /-- At `read(fd, p, count)`, with `p` an index of the buffer. -/
  | reading (p count : ℕ)
  | returned (ret : ℤ) (errno : Option Errno)
  deriving DecidableEq

namespace ReadFull

/-- `while (count > 0)`, with `return 0` after it. -/
def head (p count : ℕ) : ReadFull :=
  if 0 < count then .reading p count else .returned 0 none

/-- The body from the return of `read` on. -/
def body (p count : ℕ) : Answer → ReadFull
  | .error e => if e = .eintr then head p count else .returned (-1) (some e)
  | .count n => if n = 0 then .returned (-1) none else head (p + n) (count - n)

def call : ReadFull → Option (ℕ × ℕ)
  | reading p count => some (p, count)
  | returned _ _ => none

def answer : ReadFull → Answer → ReadFull
  | reading p count, a => body p count a
  | returned ret errno, _ => returned ret errno

end ReadFull

def readFull (count : ℕ) : Loop ReadFull where
  start := .head 0 count
  call := ReadFull.call
  answer := ReadFull.answer

/-! ### `read_all` -/

inductive ReadAll
  /-- At `read(fd, p + total, count - total)`. -/
  | reading (total : ℕ)
  | returned (ret : ℤ) (errno : Option Errno)
  deriving DecidableEq

namespace ReadAll

/-- `while (total < count)`, with `return (ssize_t)total` after it. -/
def head (count total : ℕ) : ReadAll :=
  if total < count then .reading total else .returned (ssize total) none

/-- The body from the return of `read` on; 0 leaves the loop. -/
def body (count total : ℕ) : Answer → ReadAll
  | .error e => if e = .eintr then head count total else .returned (-1) (some e)
  | .count n => if n = 0 then .returned (ssize total) none else head count (total + n)

def call (count : ℕ) : ReadAll → Option (ℕ × ℕ)
  | reading total => some (total, count - total)
  | returned _ _ => none

def answer (count : ℕ) : ReadAll → Answer → ReadAll
  | reading total, a => body count total a
  | returned ret errno, _ => returned ret errno

end ReadAll

def readAll (count : ℕ) : Loop ReadAll where
  start := .head count 0
  call := ReadAll.call count
  answer := ReadAll.answer count

/-! ### Runs -/

/-- `n` bytes of the stream, from the `i`-th on. -/
def slice (stream : ℕ → UInt8) (i n : ℕ) : List UInt8 := (List.range n).map fun j => stream (i + j)

/-- The array after `data` has been stored at index `p`. -/
def store (buf : List UInt8) (p : ℕ) (data : List UInt8) : List UInt8 :=
  buf.take p ++ data ++ buf.drop (p + data.length)

/-- A loop with the buffer and the number of bytes it has taken from the stream. -/
structure State (σ : Type) where
  loop : σ
  buf : List UInt8
  taken : ℕ

namespace Loop

variable {σ : Type} (l : Loop σ) (stream : ℕ → UInt8)

/-- One `read`, which stores the next bytes of the stream. -/
def step (ans : ℕ → Answer) (s : State σ) : State σ :=
  match l.call s.loop with
  | none => s
  | some (p, n) =>
    ⟨l.answer s.loop (ans n), store s.buf p (slice stream s.taken (ans n).bytes),
      s.taken + (ans n).bytes⟩

/-- After `k` answers. -/
def run (r : Request) (kernel : Kernel) : ℕ → State σ
  | 0 => ⟨l.start, r.buf, 0⟩
  | k + 1 => l.step stream (kernel.ans k) (run r kernel k)

/-- The calls that got the first `k` answers. -/
def calls (r : Request) (kernel : Kernel) (k : ℕ) : List (ℕ × ℕ) :=
  (List.range k).filterMap fun j => l.call (l.run stream r kernel j).loop

end Loop

/-- One of the first `k` calls returned 0. -/
def HitEof (r : Request) (kernel : Kernel) (stream : ℕ → UInt8) (k : ℕ) : Prop :=
  ∃ j < k, ∃ p n, ((readAll r.count).run stream r kernel j).loop.call r.count = some (p, n) ∧
    kernel.ans j n = .count 0

/-- The two loops make the same calls and fill the buffer alike, one succeeds when the other
reads all, and what `read_all` counts is the start of the stream, cut short by its end only. -/
structure Agree (r : Request) (kernel : Kernel) (stream : ℕ → UInt8) : Prop where
  same_calls : ∀ k, (readFull r.count).calls stream r kernel k =
    (readAll r.count).calls stream r kernel k
  same_buf : ∀ k, ((readFull r.count).run stream r kernel k).buf =
    ((readAll r.count).run stream r kernel k).buf
  same_success : ∀ k,
    (∃ errno, ((readFull r.count).run stream r kernel k).loop = .returned 0 errno) ↔
      ∃ errno, ((readAll r.count).run stream r kernel k).loop = .returned r.count errno
  delivered : ∀ k (n : ℕ) errno,
    ((readAll r.count).run stream r kernel k).loop = .returned n errno →
      n ≤ r.count ∧
      ((readAll r.count).run stream r kernel k).buf.take n = slice stream 0 n ∧
      (n < r.count → HitEof r kernel stream k)

variable {r : Request} {kernel : Kernel} {stream : ℕ → UInt8} {count k n m p : ℕ}

theorem slice_add (i m n : ℕ) :
    slice stream i (m + n) = slice stream i m ++ slice stream (i + m) n := by
  simp [slice, List.range_add, Nat.add_assoc, Function.comp_def]

@[simp] theorem length_slice (i n : ℕ) : (slice stream i n).length = n := by
  simp [slice]

theorem HitEof.mono (h : HitEof r kernel stream k) (hk : k ≤ n) : HitEof r kernel stream n := by
  obtain ⟨j, hj, hcall⟩ := h
  exact ⟨j, Nat.lt_of_lt_of_le hj hk, hcall⟩

theorem store_filled (n m : ℕ) :
    store (slice stream 0 n ++ r.buf.drop n) n (slice stream n m) =
      slice stream 0 (n + m) ++ r.buf.drop (n + m) := by
  unfold store
  rw [List.take_left' (length_slice 0 n), List.drop_append]
  simp [slice_add]

theorem step_call {σ : Type} {l : Loop σ} {s : State σ} {ans : ℕ → Answer}
    (hc : l.call s.loop = some (p, n)) :
    l.step stream ans s = ⟨l.answer s.loop (ans n),
      store s.buf p (slice stream s.taken (ans n).bytes), s.taken + (ans n).bytes⟩ := by
  simp [Loop.step, hc]

/-- The states the two loops are in together, `taken` bytes on; `eof` says that a call returned
0. -/
inductive Paired (count taken : ℕ) (eof : Prop) : ReadFull → ReadAll → Prop
  | reading (h : taken < count) :
      Paired count taken eof (.reading taken (count - taken)) (.reading taken)
  | done (h : taken = count) :
      Paired count taken eof (.returned 0 none) (.returned (ssize count) none)
  | eof (h : taken < count) (he : eof) :
      Paired count taken eof (.returned (-1) none) (.returned (ssize taken) none)
  | failed (h : taken < count) (e : Errno) :
      Paired count taken eof (.returned (-1) (some e)) (.returned (-1) (some e))

section Pair

variable {eof eof' : Prop} {taken : ℕ} {f : ReadFull} {g : ReadAll} {a : Answer}

theorem Paired.call_eq (h : Paired count taken eof f g) : f.call = g.call count := by
  cases h <;> rfl

theorem Paired.mono (h : Paired count taken eof f g) (he : eof → eof') :
    Paired count taken eof' f g := by
  cases h with
  | reading h => exact .reading h
  | done h => exact .done h
  | eof h heof => exact .eof h (he heof)
  | failed h e => exact .failed h e

theorem Paired.heads (h : taken ≤ count) :
    Paired count taken eof (.head taken (count - taken)) (.head count taken) := by
  unfold ReadFull.head ReadAll.head
  rcases Nat.lt_or_eq_of_le h with hlt | rfl
  · rw [if_pos (by omega), if_pos hlt]
    exact .reading hlt
  · rw [if_neg (by omega), if_neg (by omega)]
    exact .done rfl

theorem Paired.body (h : taken < count) (hfits : a.Fits (count - taken))
    (heof : a = .count 0 → eof) :
    Paired count (taken + a.bytes) eof (.body taken (count - taken) a) (.body count taken a) := by
  cases a with
  | error e =>
    simp only [Answer.bytes, Nat.add_zero, ReadFull.body, ReadAll.body]
    by_cases he : e = .eintr
    · rw [if_pos he, if_pos he]
      exact .heads h.le
    · rw [if_neg he, if_neg he]
      exact .failed h e
  | count m =>
    have hm : m ≤ count - taken := hfits
    simp only [Answer.bytes, ReadFull.body, ReadAll.body]
    by_cases hzero : m = 0
    · subst m
      exact .eof h (heof rfl)
    · rw [if_neg hzero, if_neg hzero, Nat.sub_sub]
      exact .heads (by omega)

theorem Paired.success (h : Paired count taken eof f g) (hc : count < 2 ^ 63) :
    (∃ errno, f = .returned 0 errno) ↔ ∃ errno, g = .returned count errno := by
  cases h with
  | reading h => simp
  | done h => simp [ssize_of_lt hc]
  | eof h he =>
    have hne : (taken : ℤ) ≠ count := by omega
    simp [ssize_of_lt (h.trans hc), hne]
  | failed h e =>
    have hne : (-1 : ℤ) ≠ count := by omega
    simp [hne]

theorem Paired.returned {errno : Option Errno} (h : Paired count taken eof f g)
    (hc : count < 2 ^ 63) (hg : g = .returned n errno) :
    n = taken ∧ taken ≤ count ∧ (taken < count → eof) := by
  cases h with
  | reading h => simp at hg
  | done h =>
    rw [ssize_of_lt hc, ReadAll.returned.injEq] at hg
    omega
  | eof h he =>
    rw [ssize_of_lt (h.trans hc), ReadAll.returned.injEq] at hg
    exact ⟨by omega, h.le, fun _ => he⟩
  | failed h e =>
    rw [ReadAll.returned.injEq] at hg
    omega

end Pair

/-- What both have done after `k` answers. -/
structure Together (r : Request) (kernel : Kernel) (stream : ℕ → UInt8) (k : ℕ)
    (s : State ReadFull) (t : State ReadAll) : Prop where
  paired : Paired r.count t.taken (HitEof r kernel stream k) s.loop t.loop
  buf_eq : s.buf = t.buf
  taken_eq : s.taken = t.taken
  filled : t.buf = slice stream 0 t.taken ++ r.buf.drop t.taken

theorem together_zero : Together r kernel stream 0 ((readFull r.count).run stream r kernel 0)
    ((readAll r.count).run stream r kernel 0) where
  paired := .heads (Nat.zero_le _)
  buf_eq := rfl
  taken_eq := rfl
  filled := rfl

theorem together_succ
    (h : Together r kernel stream k ((readFull r.count).run stream r kernel k)
      ((readAll r.count).run stream r kernel k)) :
    Together r kernel stream (k + 1) ((readFull r.count).run stream r kernel (k + 1))
      ((readAll r.count).run stream r kernel (k + 1)) := by
  have hmono : HitEof r kernel stream k → HitEof r kernel stream (k + 1) :=
    fun he => he.mono (Nat.le_succ k)
  have hhit : ∀ p n, ((readAll r.count).run stream r kernel k).loop.call r.count = some (p, n) →
      kernel.ans k n = .count 0 → HitEof r kernel stream (k + 1) :=
    fun p n hc hz => ⟨k, Nat.lt_succ_self k, p, n, hc, hz⟩
  rw [Loop.run, Loop.run]
  generalize (readFull r.count).run stream r kernel k = s at h
  generalize (readAll r.count).run stream r kernel k = t at h hhit
  obtain ⟨f, buf, taken⟩ := s
  obtain ⟨g, buf', taken'⟩ := t
  obtain ⟨hp, hbuf, htaken, hfilled⟩ := h
  dsimp only at hp hbuf htaken hfilled hhit
  subst buf taken
  have hlater := hp.mono hmono
  cases hp with
  | reading hlt =>
    rw [step_call rfl, step_call rfl]
    refine ⟨.body hlt (kernel.fits _ _) (hhit _ _ rfl), rfl, rfl, ?_⟩
    rw [hfilled]
    exact store_filled _ _
  | done | eof | failed => exact ⟨hlater, rfl, rfl, hfilled⟩

theorem together (r : Request) (kernel : Kernel) (stream : ℕ → UInt8) (k : ℕ) :
    Together r kernel stream k ((readFull r.count).run stream r kernel k)
      ((readAll r.count).run stream r kernel k) := by
  induction k with
  | zero => exact together_zero
  | succ k ih => exact together_succ ih

/-- `read_full` and `read_all` do the same work and differ in what they return for it. -/
theorem read_loops_agree (r : Request) (kernel : Kernel) (stream : ℕ → UInt8) :
    Agree r kernel stream := by
  have h := together r kernel stream
  have hcount : r.count < 2 ^ 63 := Nat.lt_of_le_of_lt r.count_le r.length_lt
  refine ⟨?_, fun k => (h k).buf_eq, fun k => (h k).paired.success hcount, ?_⟩
  · intro k
    simp only [Loop.calls]
    congr 1
    funext j
    exact (h j).paired.call_eq
  · intro k n errno hret
    obtain ⟨rfl, hle, heof⟩ := (h k).paired.returned hcount hret
    refine ⟨hle, ?_, heof⟩
    rw [(h k).filled, List.take_left' (length_slice 0 _)]

/-- One byte, a signal, and the end of the file. -/
def shortFile : Kernel where
  ans
    | 0, n => .count (min 1 n)
    | 1, _ => .error .eintr
    | _, _ => .count 0
  fits k n := by
    rcases k with - | - | k
    · exact Nat.min_le_right 1 n
    · trivial
    · exact Nat.zero_le n

def threeBytes : Request where
  buf := [0, 0, 0]
  count := 3
  count_le := le_rfl
  length_lt := by decide

/-- The byte is stored by both, and only `read_all` returns how many there are. -/
example : (readAll 3).run (fun _ => 97) threeBytes shortFile 3 =
      ⟨.returned 1 none, [97, 0, 0], 1⟩ ∧
    (readFull 3).run (fun _ => 97) threeBytes shortFile 3 =
      ⟨.returned (-1) none, [97, 0, 0], 1⟩ :=
  ⟨rfl, rfl⟩

end SystemCalls.ReadLoops

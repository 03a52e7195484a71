import Mathlib.Data.List.Basic

/-!
# Stream socket calls

What the kernel may answer to `recv` and `send`, and the calls made on one connection
with their answers.
-/

namespace SystemCalls

structure Errno where
  code : ℕ
  deriving DecidableEq

namespace Errno

def eperm : Errno := ⟨1⟩
def eintr : Errno := ⟨4⟩
def eio : Errno := ⟨5⟩
def eagain : Errno := ⟨11⟩
def enomem : Errno := ⟨12⟩
def ewouldblock : Errno := eagain
def einval : Errno := ⟨22⟩
def emfile : Errno := ⟨24⟩
def epipe : Errno := ⟨32⟩

end Errno

namespace Socket

/-- The bytes of one successful `recv` of at most `max`. -/
structure Chunk (max : ℕ) where
  bytes : List UInt8
  ne_nil : bytes ≠ []
  length_le : bytes.length ≤ max

theorem Chunk.length_pos {max : ℕ} (c : Chunk max) : 0 < c.bytes.length :=
  List.length_pos_iff.mpr c.ne_nil

theorem Chunk.length_lt {max size : ℕ} (c : Chunk max) (h : max < size) :
    c.bytes.length < size :=
  Nat.lt_of_le_of_lt c.length_le h

/-- Return values of `recv`: a count with that many bytes stored, 0, or -1. -/
inductive Recv (max : ℕ)
  | data (c : Chunk max)
  | eof
  | error (e : Errno)

def Recv.bytes {max : ℕ} : Recv max → List UInt8
  | .data c => c.bytes
  | .eof | .error _ => []

/-- Return values of `send`: a count, or -1. -/
abbrev Send := Except Errno ℕ

/-- One call on a connection, `send` with the bytes it was asked to send. -/
inductive Call (max : ℕ)
  | recv (r : Recv max)
  | send (data : List UInt8) (r : Send)

variable {max : ℕ}

def Call.received : Call max → List UInt8
  | .recv r => r.bytes
  | .send _ _ => []

def Call.accepted : Call max → List UInt8
  | .send data (.ok n) => data.take n
  | .send _ (.error _) | .recv _ => []

/-- All bytes `recv` returned. -/
def received (calls : List (Call max)) : List UInt8 := calls.flatMap Call.received

/-- All bytes `send` accepted. -/
def accepted (calls : List (Call max)) : List UInt8 := calls.flatMap Call.accepted

variable {calls rest : List (Call max)} {c : Call max}

@[simp] theorem received_nil : received ([] : List (Call max)) = [] := rfl

@[simp] theorem accepted_nil : accepted ([] : List (Call max)) = [] := rfl

@[simp] theorem received_cons : received (c :: calls) = c.received ++ received calls := rfl

@[simp] theorem accepted_cons : accepted (c :: calls) = c.accepted ++ accepted calls := rfl

@[simp] theorem received_append : received (calls ++ rest) = received calls ++ received rest :=
  List.flatMap_append

@[simp] theorem accepted_append : accepted (calls ++ rest) = accepted calls ++ accepted rest :=
  List.flatMap_append

/-- At every moment the bytes accepted are a prefix of the bytes received. -/
def Echoes (calls : List (Call max)) : Prop :=
  ∀ n, accepted (calls.take n) <+: received (calls.take n)

theorem Echoes.nil : Echoes ([] : List (Call max)) := by
  intro n
  simp

theorem echoes_append_iff (h : Echoes calls) (heq : accepted calls = received calls) :
    Echoes (calls ++ rest) ↔ Echoes rest := by
  constructor
  · intro hall n
    have hn := hall (calls.length + n)
    rw [List.take_length_add_append, accepted_append, received_append, heq] at hn
    exact List.prefix_append_right_inj _ |>.mp hn
  · intro hrest n
    rw [List.take_append, accepted_append, received_append]
    by_cases hn : n ≤ calls.length
    · simpa [Nat.sub_eq_zero_of_le hn] using h n
    · rw [List.take_of_length_le (by omega), heq]
      exact (List.prefix_append_right_inj _).mpr (hrest _)

/-- Calls that accept nothing do no harm. -/
theorem Echoes.append_of_accepted_nil (h : Echoes calls) (hrest : ∀ c ∈ rest, c.accepted = []) :
    Echoes (calls ++ rest) := by
  intro n
  have hnil : accepted (rest.take (n - calls.length)) = [] := by
    refine List.flatMap_eq_nil_iff.mpr ?_
    intro c hc
    exact hrest c (List.mem_of_mem_take hc)
  rw [List.take_append, accepted_append, received_append, hnil, List.append_nil]
  exact (h n).trans (List.prefix_append _ _)

/-- One round of an echo: a chunk, and a part of it sent back. -/
theorem echoes_round (chunk : Chunk max) (n : ℕ) :
    Echoes [.recv (.data chunk), .send chunk.bytes (.ok n)] := by
  rintro (_ | _ | k)
  · simp
  · simp [Call.accepted]
  · simp [Call.accepted, Call.received, Recv.bytes, List.take_prefix]

end Socket

end SystemCalls

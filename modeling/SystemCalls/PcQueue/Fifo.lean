import SystemCalls.PcQueue.Queue

/-!
# The queue is a FIFO

The ring invariant holds whenever the mutex is free. Inside a critical section the
assertion at a control point is the invariant of the queue that the statements still
to come will leave, so only one push and one pop have to be computed.
-/

namespace SystemCalls.PcQueue

open Monitor RingBuffer

variable {κ T : Type*} {cap : ℤ} {q : Queue}

/-- The indices are in the array, the tail is `count` cells after the head, and what
was popped followed by what the ring holds is what was pushed. -/
structure Inv (cap : ℤ) (q : Queue) : Prop where
  count_nonneg : 0 ≤ q.count
  count_le : q.count ≤ cap
  head_nonneg : 0 ≤ q.head
  head_lt : q.head < cap
  tail_eq : q.tail = (q.head + q.count) % cap
  fifo : q.popped ++ contents cap q.buf q.head q.count = q.pushed

theorem inv_queueInit (hcap : 1 ≤ cap) (buf : ℤ → ℤ) : Inv cap (queueInit buf) where
  count_nonneg := le_rfl
  count_le := by simp [queueInit]; omega
  head_nonneg := le_rfl
  head_lt := by simp [queueInit]; omega
  tail_eq := by simp [queueInit]
  fifo := by simp [queueInit]

theorem Inv.cap_pos (h : Inv cap q) : 0 < cap := h.head_nonneg.trans_lt h.head_lt

theorem Inv.tail_nonneg (h : Inv cap q) : 0 ≤ q.tail :=
  h.tail_eq ▸ Int.emod_nonneg _ h.cap_pos.ne'

theorem Inv.tail_lt (h : Inv cap q) : q.tail < cap :=
  h.tail_eq ▸ Int.emod_lt_of_pos _ h.cap_pos

theorem Inv.drained (h : Inv cap q) (h0 : q.count = 0) : q.popped = q.pushed := by
  simpa [h0] using h.fifo

/-- A whole push on a queue with a free cell. -/
theorem inv_push (h : Inv cap q) (hlt : q.count < cap) (val : ℤ) :
    Inv cap ((q.store val).nextTail cap).incCount where
  count_nonneg := by
    have := h.count_nonneg
    simp only [Queue.store, Queue.nextTail, Queue.incCount]
    omega
  count_le := by
    simp only [Queue.store, Queue.nextTail, Queue.incCount]
    omega
  head_nonneg := h.head_nonneg
  head_lt := h.head_lt
  tail_eq := by
    have ht := h.tail_nonneg
    simp only [Queue.store, Queue.nextTail, Queue.incCount]
    rw [Int.tmod_eq_emod_of_nonneg (by omega), h.tail_eq, Int.emod_add_emod, add_assoc]
  fifo := by
    simp only [Queue.store, Queue.nextTail, Queue.incCount]
    rw [h.tail_eq, contents_store h.count_nonneg hlt, ← List.append_assoc, h.fifo]

/-- A whole pop on a queue with a value. -/
theorem inv_pop (h : Inv cap q) (hpos : 0 < q.count) :
    Inv cap ((q.read).nextHead cap).decCount where
  count_nonneg := by
    simp only [Queue.read, Queue.nextHead, Queue.decCount]
    omega
  count_le := by
    have := h.count_le
    simp only [Queue.read, Queue.nextHead, Queue.decCount]
    omega
  head_nonneg := by
    have := h.head_nonneg
    simp only [Queue.read, Queue.nextHead, Queue.decCount]
    rw [Int.tmod_eq_emod_of_nonneg (by omega)]
    exact Int.emod_nonneg _ h.cap_pos.ne'
  head_lt := by
    have := h.head_nonneg
    simp only [Queue.read, Queue.nextHead, Queue.decCount]
    rw [Int.tmod_eq_emod_of_nonneg (by omega)]
    exact Int.emod_lt_of_pos _ h.cap_pos
  tail_eq := by
    have := h.head_nonneg
    simp only [Queue.read, Queue.nextHead, Queue.decCount]
    rw [Int.tmod_eq_emod_of_nonneg (by omega), h.tail_eq, Int.emod_add_emod]
    congr 1
    omega
  fifo := by
    have hh : q.head % cap = q.head := Int.emod_eq_of_lt h.head_nonneg h.head_lt
    have hn : (q.head + 1).tmod cap = (q.head + 1) % cap :=
      Int.tmod_eq_emod_of_nonneg (by have := h.head_nonneg; omega)
    have hf := h.fifo
    rw [contents_advance hpos, hh] at hf
    simpa [Queue.read, Queue.nextHead, Queue.decCount, hn] using hf

/-- The assertion at each control point of the thread that holds the mutex. -/
def assertion (cap : ℤ) : PC κ → Queue → Prop
  | .pushWait _ _, q => Inv cap q ∧ q.count = cap ∧ q.shutdown = false
  | .pushCheck _ _, q => Inv cap q ∧ (q.count = cap → q.shutdown = true)
  | .pushStore _ _, q => Inv cap q ∧ q.count < cap
  | .pushTail _, q => Inv cap (q.nextTail cap).incCount
  | .pushCount _, q => Inv cap q.incCount
  | .popWait _, q => Inv cap q ∧ q.count = 0 ∧ q.shutdown = false
  | .popCheck _, q => Inv cap q ∧ (q.count = 0 → q.shutdown = true)
  | .popEmpty _, q => Inv cap q ∧ q.count = 0 ∧ q.shutdown = true
  | .popRead _, q => Inv cap q ∧ 0 < q.count
  | .popHead _ _, q => Inv cap (q.nextHead cap).decCount
  | .popCount _ _, q => Inv cap q.decCount
  | _, q => Inv cap q

/-- A data statement under the mutex takes one assertion to the next. -/
theorem assertion_act {prog : κ → Call κ} {p : PC κ} {f : Queue → Queue × PC κ}
    (hc : code cap prog p = .act f) (hp : held p) (hA : assertion cap p q) :
    assertion cap (f q).2 (f q).1 := by
  cases p with
  | caller k => exact hp.elim
  | pushTest val k =>
    simp only [code, Stmt.act.injEq] at hc
    subst hc
    dsimp only
    split
    · rename_i h
      exact ⟨hA, h⟩
    · rename_i h
      exact ⟨hA, fun hcap => by simpa [hcap] using h⟩
  | pushCheck val k =>
    simp only [code, Stmt.act.injEq] at hc
    subst hc
    dsimp only
    split
    · exact hA.1
    · rename_i h
      exact ⟨hA.1, hA.1.count_le.lt_of_ne fun he => h (hA.2 he)⟩
  | pushStore val k =>
    simp only [code, Stmt.act.injEq] at hc
    subst hc
    exact inv_push hA.1 hA.2 val
  | popTest k =>
    simp only [code, Stmt.act.injEq] at hc
    subst hc
    dsimp only
    split
    · rename_i h
      exact ⟨hA, h⟩
    · rename_i h
      exact ⟨hA, fun h0 => by simpa [h0] using h⟩
  | popCheck k =>
    simp only [code, Stmt.act.injEq] at hc
    subst hc
    dsimp only
    split
    · rename_i h
      exact ⟨hA.1, h⟩
    · rename_i h
      exact ⟨hA.1, hA.1.count_nonneg.lt_of_ne fun he => h ⟨he.symm, hA.2 he.symm⟩⟩
  | popRead k =>
    simp only [code, Stmt.act.injEq] at hc
    subst hc
    exact inv_pop hA.1 hA.2
  | pushTail | pushCount | popHead | popCount =>
    simp only [code, Stmt.act.injEq] at hc
    subst hc
    exact hA
  | downSet k =>
    simp only [code, Stmt.act.injEq] at hc
    subst hc
    exact ⟨hA.1, hA.2, hA.3, hA.4, hA.5, hA.6⟩
  | _ => simp [code] at hc

theorem outline (cap : ℤ) (prog : κ → Call κ) :
    Outline (T := T) (code cap prog) held (fun _ _ => True) (Inv cap)
      (fun _ p q => assertion cap p q) (fun _ _ _ => True) where
  act := assertion_act
  skip := fun _ _ _ => trivial
  stable := fun _ _ _ _ _ => trivial
  lock := by
    intro t p n q hc _ _ hI
    cases p with
    | caller k => rcases code_caller cap prog k with ⟨f, hf⟩ | hf <;> simp [hf] at hc
    | pushLock | popLock | downLock =>
      simp only [code, Stmt.lock.injEq] at hc
      subst hc
      exact hI
    | _ => simp [code] at hc
  unlock := by
    intro t p n q hc hA
    cases p with
    | caller k => rcases code_caller cap prog k with ⟨f, hf⟩ | hf <;> simp [hf] at hc
    | popEmpty k => exact ⟨hA.1, trivial⟩
    | pushReturn | pushUnlock | popUnlock | downUnlock => exact ⟨hA, trivial⟩
    | _ => simp [code] at hc
  wait := by
    intro t p c n q hc hA
    rcases wait_cases hc with ⟨k, rfl, -, -⟩ | ⟨val, k, rfl, -, -⟩
    · exact ⟨hA.1, trivial⟩
    · exact ⟨hA.1, trivial⟩
  resume := by
    intro t p c n q hc _ hI
    rcases wait_cases hc with ⟨k, -, -, rfl⟩ | ⟨val, k, -, -, rfl⟩
    · exact hI
    · exact hI
  signal := by
    intro t p c n q hc
    refine ⟨fun hp hA => ?_, fun _ _ => trivial⟩
    cases p with
    | caller k => exact hp.elim
    | pushSignal | popSignal | downNotEmpty | downNotFull =>
      simp only [code, Stmt.signal.injEq, Stmt.broadcast.injEq, reduceCtorEq, or_false,
        false_or] at hc
      obtain ⟨-, rfl⟩ := hc
      exact hA
    | _ => simp [code] at hc

variable [DecidableEq T] {prog : κ → Call κ} {buf : ℤ → ℤ} {start : T → κ}
  {s : State T Queue Cond (PC κ)}

omit [DecidableEq T] in
theorem start_not_held (start : T → κ) (t : T) : ¬ held (PC.caller (start t)) := not_false

theorem exclusive (h : (system cap prog buf start).Reachable s) :
    Exclusive (code cap prog) held s :=
  exclusive_reachable (discipline cap prog) (start_not_held start) h

theorem assertions_hold (hcap : 1 ≤ cap) (h : (system cap prog buf start).Reachable s) :
    Holds held (Inv cap) (fun _ p q => assertion cap p q) (fun _ _ _ => True) s :=
  holds_reachable (discipline cap prog) (outline cap prog) (start_not_held start)
    (inv_queueInit hcap buf) (fun _ => trivial) h

/-- The assertion of the thread that is running inside its critical section. -/
theorem assertion_of_run (hcap : 1 ≤ cap) (h : (system cap prog buf start).Reachable s)
    {t : T} {p : PC κ} (ht : s.thread t = .run p) (hp : held p) :
    assertion cap p s.shared := by
  have hA := (assertions_hold hcap h).active t (by simpa [ht, Status.Active] using hp)
  simpa [ht, Status.pc] using hA

end SystemCalls.PcQueue

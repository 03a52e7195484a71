import SystemCalls.Monitor
import SystemCalls.RingBuffer

/-!
# The bounded producer/consumer queue

`queue_t`, `queue_push`, `queue_pop` and the shutdown section of `producer`, one
control point for each statement. What the calling threads do between calls is a
parameter, so the queue is verified for every client program at once. The calls
wrapped in `check` are assumed to succeed.
-/

namespace SystemCalls.PcQueue

open Monitor RingBuffer

/-- The data of `queue_t`. `pushed` and `popped` are history: the values stored by
`queue_push` and read by `queue_pop`, in the order of their critical sections. -/
structure Queue where
  buf : ℤ → ℤ
  head : ℤ
  tail : ℤ
  count : ℤ
  shutdown : Bool
  pushed : List ℤ
  popped : List ℤ

/-- The array is left as it is found. -/
def queueInit (buf : ℤ → ℤ) : Queue := ⟨buf, 0, 0, 0, false, [], []⟩

namespace Queue

variable (cap : ℤ) (q : Queue)

/-- `q->buf[q->tail] = val` -/
def store (val : ℤ) : Queue :=
  { q with buf := Function.update q.buf q.tail val, pushed := q.pushed ++ [val] }

/-- `q->tail = (q->tail + 1) % CAP`, with the truncating `%` of C -/
def nextTail : Queue := { q with tail := (q.tail + 1).tmod cap }

def incCount : Queue := { q with count := q.count + 1 }

/-- `*out = q->buf[q->head]` -/
def read : Queue := { q with popped := q.popped ++ [q.buf q.head] }

def nextHead : Queue := { q with head := (q.head + 1).tmod cap }

def decCount : Queue := { q with count := q.count - 1 }

def setShutdown : Queue := { q with shutdown := true }

end Queue

inductive Cond
  | notFull
  | notEmpty
  deriving DecidableEq

/-- What a calling thread does next; `κ` are the places in its own code. A pop
continues according to its result, `none` for a return value of 0. -/
inductive Call (κ : Type*)
  | push (val : ℤ) (k : κ)
  | pop (k : Option ℤ → κ)
  | shutdown (k : κ)
  | skip (k : κ)
  | exit

inductive PC (κ : Type*)
  | caller (k : κ)
  | pushLock (val : ℤ) (k : κ)
  | pushTest (val : ℤ) (k : κ)
  | pushWait (val : ℤ) (k : κ)
  | pushCheck (val : ℤ) (k : κ)
  | pushReturn (k : κ)
  | pushStore (val : ℤ) (k : κ)
  | pushTail (k : κ)
  | pushCount (k : κ)
  | pushSignal (k : κ)
  | pushUnlock (k : κ)
  | popLock (k : Option ℤ → κ)
  | popTest (k : Option ℤ → κ)
  | popWait (k : Option ℤ → κ)
  | popCheck (k : Option ℤ → κ)
  /-- The unlock before `return 0`. -/
  | popEmpty (k : Option ℤ → κ)
  | popRead (k : Option ℤ → κ)
  | popHead (out : ℤ) (k : Option ℤ → κ)
  | popCount (out : ℤ) (k : Option ℤ → κ)
  | popSignal (out : ℤ) (k : Option ℤ → κ)
  | popUnlock (out : ℤ) (k : Option ℤ → κ)
  | downLock (k : κ)
  | downSet (k : κ)
  | downNotEmpty (k : κ)
  | downNotFull (k : κ)
  | downUnlock (k : κ)

variable {κ : Type*}

def Call.entry : Call κ → Stmt Queue Cond (PC κ)
  | .push val k => .act fun q => (q, .pushLock val k)
  | .pop k => .act fun q => (q, .popLock k)
  | .shutdown k => .act fun q => (q, .downLock k)
  | .skip k => .act fun q => (q, .caller k)
  | .exit => .exit

/-- The statements of the program, by control point. -/
def code (cap : ℤ) (prog : κ → Call κ) : PC κ → Stmt Queue Cond (PC κ)
  | .caller k => (prog k).entry
  | .pushLock val k => .lock (.pushTest val k)
  | .pushTest val k => .act fun q =>
      (q, if q.count = cap ∧ q.shutdown = false then .pushWait val k else .pushCheck val k)
  | .pushWait val k => .wait .notFull (.pushTest val k)
  | .pushCheck val k => .act fun q =>
      (q, if q.shutdown = true then .pushReturn k else .pushStore val k)
  | .pushReturn k => .unlock (.caller k)
  | .pushStore val k => .act fun q => (q.store val, .pushTail k)
  | .pushTail k => .act fun q => (q.nextTail cap, .pushCount k)
  | .pushCount k => .act fun q => (q.incCount, .pushSignal k)
  | .pushSignal k => .signal .notEmpty (.pushUnlock k)
  | .pushUnlock k => .unlock (.caller k)
  | .popLock k => .lock (.popTest k)
  | .popTest k => .act fun q =>
      (q, if q.count = 0 ∧ q.shutdown = false then .popWait k else .popCheck k)
  | .popWait k => .wait .notEmpty (.popTest k)
  | .popCheck k => .act fun q =>
      (q, if q.count = 0 ∧ q.shutdown = true then .popEmpty k else .popRead k)
  | .popEmpty k => .unlock (.caller (k none))
  | .popRead k => .act fun q => (q.read, .popHead (q.buf q.head) k)
  | .popHead out k => .act fun q => (q.nextHead cap, .popCount out k)
  | .popCount out k => .act fun q => (q.decCount, .popSignal out k)
  | .popSignal out k => .signal .notFull (.popUnlock out k)
  | .popUnlock out k => .unlock (.caller (k (some out)))
  | .downLock k => .lock (.downSet k)
  | .downSet k => .act fun q => (q.setShutdown, .downNotEmpty k)
  | .downNotEmpty k => .broadcast .notEmpty (.downNotFull k)
  | .downNotFull k => .broadcast .notFull (.downUnlock k)
  | .downUnlock k => .unlock (.caller k)

/-- Every control point between `lock` and `unlock`. -/
def held : PC κ → Prop
  | .caller _ | .pushLock _ _ | .popLock _ | .downLock _ => False
  | _ => True

/-- Threads `T`, each at its own place in the client program, on a fresh queue. -/
def system {T : Type*} [DecidableEq T] (cap : ℤ) (prog : κ → Call κ) (buf : ℤ → ℤ)
    (start : T → κ) : LTS (State T Queue Cond (PC κ)) (Act T) :=
  lts (code cap prog) (queueInit buf) fun t => .caller (start t)

theorem entry_act {c : Call κ} {f : Queue → Queue × PC κ} (h : c.entry = .act f) (q : Queue) :
    (f q).1 = q ∧ ¬ held (f q).2 := by
  cases c <;> simp only [Call.entry, Stmt.act.injEq, reduceCtorEq] at h <;>
    subst h <;> simp [held]

/-- The client's own statements neither touch the queue nor its mutex. -/
theorem code_caller (cap : ℤ) (prog : κ → Call κ) (k : κ) :
    (∃ f, code cap prog (.caller k) = .act f) ∨ code cap prog (.caller k) = .exit := by
  cases hc : prog k <;> simp [code, hc, Call.entry]

/-- The two calls of `pthread_cond_wait`. -/
theorem wait_cases {cap : ℤ} {prog : κ → Call κ} {p m : PC κ} {c : Cond}
    (h : code cap prog p = .wait c m) :
    (∃ k, p = .popWait k ∧ c = .notEmpty ∧ m = .popTest k) ∨
      ∃ val k, p = .pushWait val k ∧ c = .notFull ∧ m = .pushTest val k := by
  cases p with
  | caller k => rcases code_caller cap prog k with ⟨f, hf⟩ | hf <;> simp [hf] at h
  | popWait k =>
    simp only [code, Stmt.wait.injEq] at h
    exact Or.inl ⟨k, rfl, h.1.symm, h.2.symm⟩
  | pushWait val k =>
    simp only [code, Stmt.wait.injEq] at h
    exact Or.inr ⟨val, k, rfl, h.1.symm, h.2.symm⟩
  | _ => simp [code] at h

theorem discipline (cap : ℤ) (prog : κ → Call κ) : Discipline (code cap prog) held where
  act := by
    intro p f h q
    cases p with
    | caller k => simpa [held] using (entry_act h q).2
    | pushTest | pushCheck | popTest | popCheck =>
      simp only [code, Stmt.act.injEq] at h
      subst h
      dsimp only
      split <;> simp [held]
    | _ =>
      simp only [code, Stmt.act.injEq, reduceCtorEq] at h <;>
        subst h <;> simp [held]
  frame := by
    intro p f h hp q
    cases p with
    | caller k => exact (entry_act h q).1
    | _ => simp_all [held, code]
  lock := by
    intro p n h
    cases p with
    | caller k => rcases code_caller cap prog k with ⟨f, hf⟩ | hf <;> simp [hf] at h
    | _ => simp_all [code, held] <;> simp_all [← h]
  unlock := by
    intro p n h
    cases p with
    | caller k => rcases code_caller cap prog k with ⟨f, hf⟩ | hf <;> simp [hf] at h
    | _ => simp_all [code, held] <;> simp_all [← h]
  wait := by
    intro p c n h
    rcases wait_cases h with ⟨k, rfl, -, rfl⟩ | ⟨val, k, rfl, -, rfl⟩
    · exact ⟨trivial, trivial⟩
    · exact ⟨trivial, trivial⟩
  signal := by
    intro p c n h
    cases p with
    | caller k => rcases code_caller cap prog k with ⟨f, hf⟩ | hf <;> simp [hf] at h
    | _ => simp_all [code, held] <;> simp_all [← h.2]
  broadcast := by
    intro p c n h
    cases p with
    | caller k => rcases code_caller cap prog k with ⟨f, hf⟩ | hf <;> simp [hf] at h
    | _ => simp_all [code, held] <;> simp_all [← h.2]
  exit := by
    intro p h
    cases p with
    | caller k => simp [held]
    | _ => simp_all [code]

end SystemCalls.PcQueue

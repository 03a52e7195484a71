import SystemCalls.Monitor
import Mathlib.Algebra.BigOperators.Ring.Finset
import Mathlib.Algebra.Order.BigOperators.Group.Finset
import Mathlib.Data.Fintype.Card

/-!
# The mutex demo of threads_demo

`demo_mutex` starts threads that each increment `counter` a fixed number of times,
and joins them. The increment is a load and a store, with the mutex around both.
-/

namespace SystemCalls.ThreadsDemo.MutexDemo

open Monitor

/-- `stores` counts the increments that have been completed. -/
structure Shared where
  counter : ℤ
  stores : ℕ

/-- `i` is the loop variable, and `v` the value that the thread has loaded. -/
inductive PC
  | loop (i : ℕ)
  | lock (i : ℕ)
  | load (i : ℕ)
  | store (i : ℕ) (v : ℤ)
  | unlock (i : ℕ)
  | returned
  deriving DecidableEq

/-- `v + 1` in an `int` of 32 bits. -/
def increment (v : ℤ) : ℤ :=
  (v + 1).bmod (2 ^ 32)

/-- `mutex_thread`, with `rounds` in place of 10000. -/
def mutexThread (rounds : ℕ) : PC → Stmt Shared Empty PC
  | .loop i => .act fun q => (q, if i < rounds then .lock i else .returned)
  | .lock i => .lock (.load i)
  | .load i => .act fun q => (q, .store i q.counter)
  | .store i v => .act fun q => (⟨increment v, q.stores + 1⟩, .unlock i)
  | .unlock i => .unlock (.loop (i + 1))
  | .returned => .exit

def held : PC → Prop
  | .load _ | .store _ _ | .unlock _ => True
  | .loop _ | .lock _ | .returned => False

/-- `demo_mutex` itself. -/
inductive Main
  | reset
  | create (i : ℕ)
  | join (i : ℕ)
  | print
  deriving DecidableEq

/-- The threads that have been created. -/
def Main.Started : Main → ℕ → Prop
  | reset, _ => False
  | create i, t => t < i
  | join _, _ | print, _ => True

structure State (k : ℕ) where
  main : Main
  threads : Monitor.State (Fin k) Shared Empty PC

inductive Event (k : ℕ)
  | main
  | thread (t : Fin k)

variable {k : ℕ}

inductive Step (rounds : ℕ) : State k → Event k → State k → Prop
  | reset {s : State k} (h : s.main = .reset) :
      Step rounds s .main
        ⟨.create 0, { s.threads with shared := { s.threads.shared with counter := 0 } }⟩
  | create {s : State k} {i : ℕ} (h : s.main = .create i) (hi : i < k) :
      Step rounds s .main { s with main := .create (i + 1) }
  | created {s : State k} {i : ℕ} (h : s.main = .create i) (hi : ¬ i < k) :
      Step rounds s .main { s with main := .join 0 }
  | join {s : State k} {i : ℕ} (h : s.main = .join i) (hi : i < k)
      (hr : s.threads.thread ⟨i, hi⟩ = .run .returned) :
      Step rounds s .main { s with main := .join (i + 1) }
  | joined {s : State k} {i : ℕ} (h : s.main = .join i) (hi : ¬ i < k) :
      Step rounds s .main { s with main := .print }
  | thread {s : State k} {t : Fin k} {x : Monitor.State (Fin k) Shared Empty PC}
      (h : s.main.Started t) (hx : Monitor.Step (mutexThread rounds) s.threads (.run t) x) :
      Step rounds s (.thread t) { s with threads := x }

/-- `demo_mutex` with `k` threads. An earlier demo may have left any value in
`counter`. -/
def demoMutex (k rounds : ℕ) (counter : ℤ) : LTS (State k) (Event k) where
  initial s := s = ⟨.reset, ⟨⟨counter, 0⟩, none, fun _ => .run (.loop 0)⟩⟩
  step := Step rounds

/-- The threads alone, from the time they can be created. -/
def threads (k rounds : ℕ) : LTS (Monitor.State (Fin k) Shared Empty PC) (Act (Fin k)) :=
  lts (mutexThread rounds) ⟨0, 0⟩ fun _ => .loop 0

theorem discipline (rounds : ℕ) : Discipline (mutexThread rounds) held where
  act := by
    intro p f h q
    cases p with
    | loop =>
      simp only [mutexThread, Stmt.act.injEq] at h
      subst h
      dsimp only
      split <;> simp [held]
    | lock | unlock | returned => simp [mutexThread] at h
    | load | store =>
      simp only [mutexThread, Stmt.act.injEq] at h
      subst h
      simp [held]
  frame := by
    intro p f h hp q
    cases p with
    | loop =>
      simp only [mutexThread, Stmt.act.injEq] at h
      subst h
      rfl
    | _ => simp_all [held, mutexThread]
  lock := by
    intro p n h
    cases p <;> simp_all [mutexThread, held]
    simp_all [← h]
  unlock := by
    intro p n h
    cases p <;> simp_all [mutexThread, held]
    simp_all [← h]
  wait := by
    intro p c n h
    exact c.elim
  signal := by
    intro p c n h
    exact c.elim
  broadcast := by
    intro p c n h
    exact c.elim
  exit := by
    intro p h
    cases p <;> simp_all [mutexThread, held]

/-- `counter` is the number of completed increments, as an `int` holds it. -/
def Counted (q : Shared) : Prop :=
  q.counter = (q.stores : ℤ).bmod (2 ^ 32)

def InRange (rounds : ℕ) : PC → Prop
  | .loop i => i ≤ rounds
  | .lock i | .load i | .store i _ | .unlock i => i < rounds
  | .returned => True

/-- Between its load and its store, a thread has the current value. -/
def Loaded (q : Shared) : PC → Prop
  | .store _ v => v = q.counter
  | _ => True

theorem counted_increment {q : Shared} (h : Counted q) :
    Counted ⟨increment q.counter, q.stores + 1⟩ := by
  change (q.counter + 1).bmod (2 ^ 32) = ((q.stores + 1 : ℕ) : ℤ).bmod (2 ^ 32)
  rw [show q.counter = _ from h, Int.bmod_add_bmod, Int.natCast_add, Int.natCast_one]

theorem outline (rounds : ℕ) :
    Outline (T := Fin k) (mutexThread rounds) held (fun _ _ => True) Counted
      (fun _ p q => Counted q ∧ InRange rounds p ∧ Loaded q p) (fun _ p _ => InRange rounds p) where
  act := by
    rintro t p f q hc hp ⟨hq, hi, hl⟩
    cases p with
    | load i =>
      simp only [mutexThread, Stmt.act.injEq] at hc
      subst hc
      exact ⟨hq, hi, rfl⟩
    | store i v =>
      simp only [mutexThread, Stmt.act.injEq] at hc
      subst hc
      obtain rfl : v = q.counter := hl
      exact ⟨counted_increment hq, hi, trivial⟩
    | loop | lock | unlock | returned => simp_all [mutexThread, held]
  skip := by
    intro t p f q hc hp hi
    cases p with
    | loop i =>
      simp only [mutexThread, Stmt.act.injEq] at hc
      subst hc
      dsimp only
      split
      · assumption
      · trivial
    | load | store | lock | unlock | returned => simp_all [mutexThread, held]
  stable := fun _ _ _ _ hi => hi
  lock := by
    intro t p n q hc _ hi hq
    cases p with
    | lock i =>
      simp only [mutexThread, Stmt.lock.injEq] at hc
      subst hc
      exact ⟨hq, hi, trivial⟩
    | loop | load | store | unlock | returned => simp [mutexThread] at hc
  unlock := by
    rintro t p n q hc ⟨hq, hi, -⟩
    cases p with
    | unlock i =>
      simp only [mutexThread, Stmt.unlock.injEq] at hc
      subst hc
      exact ⟨hq, hi⟩
    | loop | load | store | lock | returned => simp [mutexThread] at hc
  wait := fun {_ _ c _ _} => c.elim
  resume := fun {_ _ c _ _} => c.elim
  signal := fun {_ _ c _ _} => c.elim

/-- The statements of a thread, on the data and its control point. -/
inductive Move (rounds : ℕ) : Shared → PC → Shared → PC → Prop
  | enter {q : Shared} {i : ℕ} (hi : i < rounds) : Move rounds q (.loop i) q (.lock i)
  | leave {q : Shared} {i : ℕ} (hi : ¬ i < rounds) : Move rounds q (.loop i) q .returned
  | lock {q : Shared} {i : ℕ} : Move rounds q (.lock i) q (.load i)
  | load {q : Shared} {i : ℕ} : Move rounds q (.load i) q (.store i q.counter)
  | store {q : Shared} {i : ℕ} {v : ℤ} :
      Move rounds q (.store i v) ⟨increment v, q.stores + 1⟩ (.unlock i)
  | unlock {q : Shared} {i : ℕ} : Move rounds q (.unlock i) q (.loop (i + 1))

variable {m : ℕ} {s s' : Monitor.State (Fin k) Shared Empty PC} {a : Act (Fin k)} {t : Fin k}
  {p p' : PC} {q q' : Shared}

theorem exclusive (h : (threads k m).Reachable s) : Exclusive (mutexThread m) held s := by
  apply exclusive_reachable (discipline m) _ h
  intro t
  exact not_false

theorem holds (h : (threads k m).Reachable s) :
    Holds held Counted (fun _ p q => Counted q ∧ InRange m p ∧ Loaded q p)
      (fun _ p _ => InRange m p) s := by
  apply holds_reachable (discipline m) (outline m) _ _ _ h
  · intro t
    exact not_false
  · rfl
  · intro t
    exact Nat.zero_le m

theorem inRange (h : (threads k m).Reachable s) (t : Fin k) : InRange m (s.thread t).pc := by
  by_cases ht : (s.thread t).Active held
  · exact ((holds h).active t ht).2.1
  · exact (holds h).passive t ht

/-- No thread ever waits for a condition, so all of them run. -/
theorem runs (h : (threads k m).Reachable s) (t : Fin k) : ∃ p, s.thread t = .run p := by
  have hw := (exclusive h).waited t
  cases ht : s.thread t with
  | run p => exact ⟨p, rfl⟩
  | asleep c => exact c.elim
  | woken p =>
    rw [ht] at hw
    obtain ⟨_, c, -⟩ := hw
    exact c.elim

theorem act_move {f : Shared → Shared × PC} (h : mutexThread m p = .act f) (q : Shared) :
    Move m q p (f q).1 (f q).2 := by
  cases p with
  | loop i =>
    simp only [mutexThread, Stmt.act.injEq] at h
    subst h
    dsimp only
    split
    · exact .enter ‹_›
    · exact .leave ‹_›
  | load | store =>
    simp only [mutexThread, Stmt.act.injEq] at h
    subst h
    constructor
  | lock | unlock | returned => simp [mutexThread] at h

/-- A step is a move of the thread it belongs to. -/
theorem step_cases (hr : (threads k m).Reachable s)
    (h : Monitor.Step (mutexThread m) s (.run t) s') :
    ∃ p p', s.thread t = .run p ∧ s'.thread = (s.set t (.run p')).thread ∧
      Move m s.shared p s'.shared p' := by
  cases h with
  | act ht hc => exact ⟨_, _, ht, rfl, act_move hc _⟩
  | @lock _ p n ht hc ho =>
    refine ⟨p, n, ht, rfl, ?_⟩
    cases p with
    | lock i =>
      simp only [mutexThread, Stmt.lock.injEq] at hc
      subst hc
      exact .lock
    | loop | load | store | unlock | returned => simp [mutexThread] at hc
  | @unlock _ p n ht hc ho =>
    refine ⟨p, n, ht, rfl, ?_⟩
    cases p with
    | unlock i =>
      simp only [mutexThread, Stmt.unlock.injEq] at hc
      subst hc
      exact .unlock
    | loop | load | store | lock | returned => simp [mutexThread] at hc
  | @wait _ _ _ c | @signal _ _ _ _ _ c | @signalNone _ _ _ c | @broadcast _ _ _ c =>
    exact c.elim
  | reacquire ht =>
    obtain ⟨p, hp⟩ := runs hr t
    simp [hp] at ht

/-- The increments that the thread has completed. -/
def completed (m : ℕ) : PC → ℕ
  | .loop i | .lock i | .load i | .store i _ => i
  | .unlock i => i + 1
  | .returned => m

/-- The statements that the thread has left. -/
def remaining (m : ℕ) : PC → ℕ
  | .loop i => 5 * (m - i) + 1
  | .lock i => 5 * (m - i)
  | .load i => 5 * (m - i) - 1
  | .store i _ => 5 * (m - i) - 2
  | .unlock i => 5 * (m - i) - 3
  | .returned => 0

theorem Move.stores (h : Move m q p q' p') (hp : InRange m p) :
    (q'.stores : ℤ) = q.stores - completed m p + completed m p' := by
  cases h with
  | leave hi =>
    change _ ≤ m at hp
    simp only [completed]
    omega
  | enter | lock | load | store | unlock =>
    simp only [completed]
    omega

theorem Move.remaining (h : Move m q p q' p') (hp : InRange m p) :
    MutexDemo.remaining m p' + 1 = MutexDemo.remaining m p := by
  cases h with
  | leave hi =>
    simp only [MutexDemo.remaining]
    omega
  | enter => rfl
  | lock | load | store | unlock =>
    change _ < m at hp
    simp only [MutexDemo.remaining]
    omega

theorem sum_step (w : PC → ℕ) (ht : s.thread t = .run p)
    (hs : s'.thread = (s.set t (.run p')).thread) :
    (∑ u, (w (s'.thread u).pc : ℤ)) = ∑ u, (w (s.thread u).pc : ℤ) - w p + w p' := by
  rw [hs]
  have hsum := sum_set (s := s) (t := t) (x := .run p') fun x => (w x.pc : ℤ)
  rw [ht] at hsum
  exact hsum

/-- The number of stores is the sum of what the threads have completed. -/
theorem stores_eq_sum (h : (threads k m).Reachable s) :
    (s.shared.stores : ℤ) = ∑ t, (completed m (s.thread t).pc : ℤ) := by
  apply h.invariant_of_reachable
  · rintro _ rfl
    simp [Status.pc, completed]
  · rintro s (t | t) s' hr hst hi
    · obtain ⟨p, p', ht, hs, hm⟩ := step_cases hr hst
      have hp := inRange hr t
      rw [ht] at hp
      rw [sum_step _ ht hs, ← hi]
      exact hm.stores hp
    · cases hst with
      | @spurious _ _ c => exact c.elim

theorem completed_le (hp : InRange m p) : completed m p ≤ m := by
  cases p with
  | loop | unlock => exact hp
  | lock | load | store => exact Nat.le_of_lt hp
  | returned => exact le_rfl

theorem stores_le (h : (threads k m).Reachable s) : s.shared.stores ≤ k * m := by
  have hsum : ∑ t, completed m (s.thread t).pc ≤ ∑ _ : Fin k, m :=
    Finset.sum_le_sum fun t _ => completed_le (inRange h t)
  have hstores := stores_eq_sum h
  rw [← Nat.cast_sum] at hstores
  rw [Int.natCast_inj.mp hstores]
  simpa using hsum

/-- With the mutex free, `counter` is exact as long as an `int` can hold the total. -/
theorem counter_eq_stores (hkm : k * m ≤ 2147483647) (h : (threads k m).Reachable s)
    (ho : s.owner = none) : s.shared.counter = s.shared.stores := by
  have hc : s.shared.counter = (s.shared.stores : ℤ).bmod (2 ^ 32) := (holds h).free ho
  have hle := stores_le h
  rw [hc]
  apply Int.bmod_eq_of_le <;> omega

theorem counter_of_returned (hkm : k * m ≤ 2147483647) (h : (threads k m).Reachable s)
    (hall : ∀ t, s.thread t = .run .returned) : s.shared.counter = k * m := by
  have ho : s.owner = none := by
    cases ho : s.owner with
    | none => rfl
    | some t =>
      have hact := ((exclusive h).owner t).mp ho
      simp [hall t, Status.Active, held] at hact
  rw [counter_eq_stores hkm h ho, stores_eq_sum h]
  simp [hall, Status.pc, completed]

section Demo

variable {c : ℤ} {x x' : State k} {e : Event k} {xs : List (Event k)}

theorem Main.Started.ne_reset {main : Main} {t : ℕ} (h : main.Started t) : main ≠ .reset := by
  rintro rfl
  exact h

/-- Once `counter` is cleared, the threads run as on their own. -/
theorem threads_reachable (h : (demoMutex k m c).Reachable x) :
    (x.main = .reset → x.threads = ⟨⟨c, 0⟩, none, fun _ => .run (.loop 0)⟩) ∧
      (x.main ≠ .reset → (threads k m).Reachable x.threads) := by
  apply h.invariant
  · rintro _ rfl
    simp
  · rintro x e x' hst ⟨hreset, hrun⟩
    cases hst with
    | reset hm =>
      refine ⟨by simp, fun _ => .of_initial ?_⟩
      simp only [hreset hm]
      rfl
    | create hm | created hm | join hm | joined hm => exact ⟨by simp, fun _ => hrun (by simp [hm])⟩
    | thread hs hx =>
      exact ⟨fun h => (hs.ne_reset h).elim, fun _ => (hrun hs.ne_reset).step hx⟩

/-- The threads that `main` has joined. -/
def Main.Joined : Main → ℕ → Prop
  | reset, _ | create _, _ => False
  | join i, t => t < i
  | print, _ => True

theorem returned_of_joined (h : (demoMutex k m c).Reachable x) :
    ∀ t : Fin k, x.main.Joined t → x.threads.thread t = .run .returned := by
  apply h.invariant_of_reachable
  · rintro _ rfl t ht
    exact ht.elim
  · intro x e x' hr hst hi t ht
    cases hst with
    | reset | create => exact ht.elim
    | created => exact (Nat.not_lt_zero _ ht).elim
    | @join i hm hik hret =>
      rcases Nat.lt_succ_iff_lt_or_eq.mp ht with hlt | heq
      · exact hi t (by simpa [hm, Main.Joined] using hlt)
      · obtain rfl : t = ⟨i, hik⟩ := Fin.ext heq
        exact hret
    | @joined i hm hik => exact hi t (by simpa [hm, Main.Joined] using by omega)
    | @thread u y hs hx =>
      have hret := hi t ht
      obtain ⟨p, p', hp, hy, hmove⟩ := step_cases ((threads_reachable hr).2 hs.ne_reset) hx
      have hne : t ≠ u := by
        rintro rfl
        rw [hret] at hp
        cases hp
        cases hmove
      change y.thread t = _
      rw [hy, set_thread_ne hne]
      exact hret

/-- As long as `main` has not joined all threads, somebody can move. -/
theorem exists_step (h : (demoMutex k m c).Reachable x) (hm : x.main ≠ .print) :
    ∃ e x', Step m x e x' := by
  cases hpc : x.main with
  | reset => exact ⟨_, _, .reset hpc⟩
  | create i =>
    by_cases hi : i < k
    · exact ⟨_, _, .create hpc hi⟩
    · exact ⟨_, _, .created hpc hi⟩
  | join i =>
    by_cases hi : i < k
    · by_cases hret : x.threads.thread ⟨i, hi⟩ = .run .returned
      · exact ⟨_, _, .join hpc hi hret⟩
      · have hr := (threads_reachable h).2 (by simp [hpc])
        obtain ⟨p, hp⟩ := runs hr ⟨i, hi⟩
        have hidle : ¬ Idle (mutexThread m) (x.threads.thread ⟨i, hi⟩) := by
          rw [hp] at hret ⊢
          cases p <;> simp_all [Idle, mutexThread]
        obtain ⟨u, y, hy⟩ := exists_run_of_not_idle (discipline m) (exclusive hr) hidle
        exact ⟨_, _, .thread (by simp [hpc, Main.Started]) hy⟩
    · exact ⟨_, _, .joined hpc hi⟩
  | print => exact (hm hpc).elim

def Main.remaining (k : ℕ) : Main → ℕ
  | reset => 2 * k + 3
  | create i => (k - i) + k + 2
  | join i => (k - i) + 1
  | print => 0

/-- The statements left to all threads and to `main`. -/
def State.remaining (m : ℕ) (x : State k) : ℕ :=
  x.main.remaining k + ∑ t, MutexDemo.remaining m (x.threads.thread t).pc

theorem remaining_step (hr : (demoMutex k m c).Reachable x) (h : Step m x e x') :
    x'.remaining m < x.remaining m := by
  cases h with
  | reset hm | create hm | created hm | join hm | joined hm =>
    simp only [State.remaining, hm, Main.remaining]
    omega
  | @thread t y hs hx =>
    have hreach := (threads_reachable hr).2 hs.ne_reset
    obtain ⟨p, p', hp, hy, hmove⟩ := step_cases hreach hx
    have hrange := inRange hreach t
    rw [hp] at hrange
    have hsum := sum_step (MutexDemo.remaining m) hp hy
    have hleft := hmove.remaining hrange
    rw [← Nat.cast_sum, ← Nat.cast_sum] at hsum
    simp only [State.remaining]
    omega

/-- Whatever the interleaving, the mutex demo runs to its last line, prints the
number of all increments there, and `counter` is exact whenever the mutex is free. -/
theorem counts_exactly (k m : ℕ) (c : ℤ) (hkm : k * m ≤ 2147483647) :
    (∀ s, (demoMutex k m c).Reachable s →
      (s.main ≠ .reset → s.threads.owner = none →
        s.threads.shared.counter = s.threads.shared.stores) ∧
      (s.main = .print → s.threads.shared.counter = k * m) ∧
      (s.main ≠ .print → ∃ e s', Step m s e s')) ∧
    ∀ s xs t, (demoMutex k m c).initial s → (demoMutex k m c).Trace s xs t →
      xs.length ≤ 2 * k + 3 + k * (5 * m + 1) := by
  refine ⟨?_, ?_⟩
  · intro s hs
    refine ⟨?_, ?_, ?_⟩
    · intro hm ho
      exact counter_eq_stores hkm ((threads_reachable hs).2 hm) ho
    · intro hm
      apply counter_of_returned hkm ((threads_reachable hs).2 (by simp [hm]))
      intro t
      exact returned_of_joined hs t (by simp [hm, Main.Joined])
    · intro hm
      exact exists_step hs hm
  · intro s xs t hi hx
    have hle := hx.length_le (.of_initial hi) fun _ _ _ hr hst => remaining_step hr hst
    have hstart : s.remaining m = 2 * k + 3 + k * (5 * m + 1) := by
      obtain rfl := hi
      simp [State.remaining, Main.remaining, Status.pc, remaining]
    omega

/-- The demo as it stands, with two threads of 10000 rounds. -/
theorem counts_exactly_as_shipped : 2 * 10000 ≤ 2147483647 ∧
    ∀ s, (demoMutex 2 10000 0).Reachable s → s.main = .print →
      s.threads.shared.counter = 20000 := by
  refine ⟨by decide, ?_⟩
  intro s hs hm
  exact ((counts_exactly 2 10000 0 (by decide)).1 s hs).2.1 hm

end Demo

end SystemCalls.ThreadsDemo.MutexDemo

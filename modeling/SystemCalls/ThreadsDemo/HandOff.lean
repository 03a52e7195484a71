import SystemCalls.Monitor

/-!
# The producer/consumer hand-off of threads_demo

`producer` and `consumer` pass items through `counter` under one mutex. Only the
consumer waits for `ready`; nothing but the sleep keeps the producer from storing
again before the last item is taken, and a sleep orders nothing.
-/

namespace SystemCalls.ThreadsDemo

open Monitor

/-- The globals of the demo; `stored` and `printed` are the values `producer` has
put in `counter` and `consumer` has printed so far. -/
structure Shared where
  counter : ℕ
  ready : Bool
  stored : List ℕ
  printed : List ℕ

inductive Cond
  | cond
  deriving DecidableEq

inductive Thread
  | prod
  | cons
  deriving DecidableEq

instance : Fintype Thread := ⟨{.prod, .cons}, by intro t; cases t <;> simp⟩

/-- `i` is the loop variable of the thread. -/
inductive PC
  | prodLoop (i : ℕ)
  | prodLock (i : ℕ)
  | prodPrint (i : ℕ)
  | prodStore (i : ℕ)
  | prodReady (i : ℕ)
  | prodSignal (i : ℕ)
  | prodUnlock (i : ℕ)
  | prodSleep (i : ℕ)
  | prodReturn
  | consLoop (i : ℕ)
  | consLock (i : ℕ)
  | consTest (i : ℕ)
  | consWait (i : ℕ)
  | consPrint (i : ℕ)
  | consClear (i : ℕ)
  | consUnlock (i : ℕ)
  | consReturn
  deriving DecidableEq

/-- `producer` and `consumer` with `rounds` in place of 5. The line that `producer`
prints says what it is about to store. -/
def code (rounds : ℕ) : PC → Stmt Shared Cond PC
  | .prodLoop i => .act fun q => (q, if i < rounds then .prodLock i else .prodReturn)
  | .prodLock i => .lock (.prodPrint i)
  | .prodPrint i => .act fun q => (q, .prodStore i)
  | .prodStore i => .act fun q =>
      ({ q with counter := i, stored := q.stored ++ [i] }, .prodReady i)
  | .prodReady i => .act fun q => ({ q with ready := true }, .prodSignal i)
  | .prodSignal i => .signal .cond (.prodUnlock i)
  | .prodUnlock i => .unlock (.prodSleep i)
  | .prodSleep i => .act fun q => (q, .prodLoop (i + 1))
  | .prodReturn => .exit
  | .consLoop i => .act fun q => (q, if i < rounds then .consLock i else .consReturn)
  | .consLock i => .lock (.consTest i)
  | .consTest i => .act fun q => (q, if q.ready = false then .consWait i else .consPrint i)
  | .consWait i => .wait .cond (.consTest i)
  | .consPrint i => .act fun q =>
      ({ q with printed := q.printed ++ [q.counter] }, .consClear i)
  | .consClear i => .act fun q => ({ q with ready := false }, .consUnlock i)
  | .consUnlock i => .unlock (.consLoop (i + 1))
  | .consReturn => .exit

def held : PC → Prop
  | .prodPrint _ | .prodStore _ | .prodReady _ | .prodSignal _ | .prodUnlock _
  | .consTest _ | .consWait _ | .consPrint _ | .consClear _ | .consUnlock _ => True
  | _ => False

def Thread.start : Thread → PC
  | .prod => .prodLoop 0
  | .cons => .consLoop 0

/-- `demo_condition_variable`: both globals are cleared before the threads start. -/
def demoConditionVariable (rounds : ℕ) : LTS (State Thread Shared Cond PC) (Act Thread) :=
  lts (code rounds) ⟨0, false, [], []⟩ Thread.start

theorem discipline (rounds : ℕ) : Discipline (code rounds) held where
  act := by
    intro p f h q
    cases p with
    | prodLoop | consLoop | consTest =>
      simp only [code, Stmt.act.injEq] at h
      subst h
      dsimp only
      split <;> simp [held]
    | _ =>
      simp only [code, Stmt.act.injEq, reduceCtorEq] at h <;>
        subst h <;> simp [held]
  frame := by
    intro p f h hp q
    cases p with
    | prodLoop | consLoop | prodSleep =>
      simp only [code, Stmt.act.injEq] at h
      subst h
      rfl
    | _ => simp_all [held, code]
  lock := by
    intro p n h
    cases p <;> simp_all [code, held] <;> simp_all [← h]
  unlock := by
    intro p n h
    cases p <;> simp_all [code, held] <;> simp_all [← h]
  wait := by
    intro p c n h
    cases p <;> simp_all [code, held]
    simp_all [← h]
  signal := by
    intro p c n h
    cases p <;> simp_all [code, held]
    simp_all [← h]
  broadcast := by
    intro p c n h
    cases p <;> simp_all [code]
  exit := by
    intro p h
    cases p <;> simp_all [code, held]

theorem start_not_held (t : Thread) : ¬ held t.start := by
  cases t <;> exact not_false

/-- The loop variables count the stores and the prints, and each thread is in its
own function. -/
def counted (rounds : ℕ) : Thread → PC → Shared → Prop
  | .prod, .prodLoop i, q => q.stored.length = i ∧ i ≤ rounds
  | .prod, .prodLock i, q | .prod, .prodPrint i, q | .prod, .prodStore i, q =>
      q.stored.length = i ∧ i < rounds
  | .prod, .prodReady i, q | .prod, .prodSignal i, q | .prod, .prodUnlock i, q
  | .prod, .prodSleep i, q => q.stored.length = i + 1 ∧ i < rounds
  | .prod, .prodReturn, q => q.stored.length = rounds
  | .cons, .consLoop i, q => q.printed.length = i
  | .cons, .consLock i, q | .cons, .consTest i, q | .cons, .consWait i, q
  | .cons, .consPrint i, q => q.printed.length = i ∧ i < rounds
  | .cons, .consClear i, q | .cons, .consUnlock i, q => q.printed.length = i + 1 ∧ i < rounds
  | .cons, .consReturn, _ => True
  | _, _, _ => False

theorem counted_act {rounds : ℕ} {t : Thread} {p : PC} {f : Shared → Shared × PC} {q : Shared}
    (hc : code rounds p = .act f) (h : counted rounds t p q) :
    counted rounds t (f q).2 (f q).1 := by
  cases p with
  | prodLoop i =>
    simp only [code, Stmt.act.injEq] at hc
    subst hc
    cases t with
    | cons => exact h.elim
    | prod =>
      obtain ⟨hi, hle⟩ := h
      by_cases hlt : i < rounds
      · simpa [hlt, counted] using hi
      · simp only [hlt, if_false, counted]
        omega
  | consLoop i =>
    simp only [code, Stmt.act.injEq] at hc
    subst hc
    cases t with
    | prod => exact h.elim
    | cons =>
      have hi : q.printed.length = i := h
      by_cases hlt : i < rounds
      · simpa [hlt, counted] using hi
      · simp [hlt, counted]
  | consTest i =>
    simp only [code, Stmt.act.injEq] at hc
    subst hc
    cases t <;> cases hr : q.ready <;> simp_all [counted]
  | prodSleep i =>
    simp only [code, Stmt.act.injEq] at hc
    subst hc
    cases t with
    | cons => exact h.elim
    | prod => exact ⟨h.1, h.2⟩
  | prodPrint | prodStore | prodReady | consPrint | consClear =>
    simp only [code, Stmt.act.injEq] at hc
    subst hc
    cases t <;> simp_all [counted]
  | _ => simp [code] at hc

theorem counted_next {rounds : ℕ} {t : Thread} {p n : PC} {q : Shared}
    (hc : (code rounds p).next = some n) (h : counted rounds t p q) :
    counted rounds t n q := by
  cases p <;> simp only [code, Stmt.next, Option.some.injEq, reduceCtorEq] at hc <;>
    subst hc <;> cases t <;> simp_all [counted]

/-- One thread's statements do not move the other's count. -/
theorem counted_stable {rounds : ℕ} {t u : Thread} {p r : PC} {f : Shared → Shared × PC}
    {q : Shared} (hc : code rounds p = .act f) (hne : u ≠ t) (hA : counted rounds t p q)
    (hQ : counted rounds u r q) : counted rounds u r (f q).1 := by
  cases p <;> simp only [code, Stmt.act.injEq, reduceCtorEq] at hc <;> subst hc <;>
    cases t <;> cases u <;> first | exact hA.elim | exact (hne rfl).elim | exact hQ | skip
  all_goals cases r <;> exact hQ

/-- The points at which the mutex changes hands or a signal is sent: there `A` says just `I`. -/
structure Rests (I : Shared → Prop) (A : PC → Shared → Prop) (i : ℕ) (q : Shared) : Prop where
  prodSignal : A (.prodSignal i) q ↔ I q
  prodUnlock : A (.prodUnlock i) q ↔ I q
  consTest : A (.consTest i) q ↔ I q
  consWait : A (.consWait i) q ↔ I q
  consUnlock : A (.consUnlock i) q ↔ I q

/-- An assertion for each control point gives an outline when the data statements and the
two `lock` statements keep it. -/
theorem outline_of_rests {rounds : ℕ} {G : Thread → Shared → Prop} {I : Shared → Prop}
    {A : PC → Shared → Prop} (hrest : ∀ i q, Rests I A i q)
    (hact : ∀ {t p f q}, code rounds p = .act f → held p → counted rounds t p q → A p q →
      A (f q).2 (f q).1)
    (hlock : ∀ {t p n q}, code rounds p = .lock n → G t q → counted rounds t p q → I q → A n q) :
    Outline (code rounds) held G I (fun t p q => counted rounds t p q ∧ A p q)
      (counted rounds) where
  act hc hp h := ⟨counted_act hc h.1, hact hc hp h.1 h.2⟩
  skip := by
    intro t p f q hc hp h
    have hn := counted_act hc h
    rwa [(discipline rounds).frame hc hp] at hn
  stable hc _ hne hA hQ := counted_stable hc hne hA.1 hQ
  lock hc hG hQ hI := ⟨counted_next (by rw [hc]; rfl) hQ, hlock hc hG hQ hI⟩
  unlock := by
    intro t p n q hc hA
    refine ⟨?_, counted_next (by rw [hc]; rfl) hA.1⟩
    cases p with
    | prodUnlock i => exact (hrest i q).prodUnlock.mp hA.2
    | consUnlock i => exact (hrest i q).consUnlock.mp hA.2
    | _ => simp [code] at hc
  wait := by
    intro t p c n q hc hA
    refine ⟨?_, counted_next (by rw [hc]; rfl) hA.1⟩
    cases p with
    | consWait i => exact (hrest i q).consWait.mp hA.2
    | _ => simp [code] at hc
  resume := by
    intro t p c n q hc hQ hI
    refine ⟨hQ, ?_⟩
    cases p with
    | consWait i =>
      simp only [code, Stmt.wait.injEq] at hc
      obtain ⟨-, rfl⟩ := hc
      exact (hrest i q).consTest.mpr hI
    | _ => simp [code] at hc
  signal := by
    intro t p c n q hc
    have hnext : (code rounds p).next = some n := by
      rcases hc with hc | hc <;> rw [hc] <;> rfl
    refine ⟨fun _ hA => ⟨counted_next hnext hA.1, ?_⟩, fun _ hQ => counted_next hnext hQ⟩
    cases p with
    | prodSignal i =>
      simp only [code, Stmt.signal.injEq, reduceCtorEq, or_false] at hc
      obtain ⟨-, rfl⟩ := hc
      exact (hrest i q).prodUnlock.mpr ((hrest i q).prodSignal.mp hA.2)
    | _ => simp [code] at hc

/-- What `consumer` has printed was stored, in order; a value it may still print is
the newest stored one and was not printed before. -/
structure Fresh (q : Shared) : Prop where
  stored_eq : q.stored = List.range q.stored.length
  pending : q.ready = true → ∃ l, q.stored = l ++ [q.counter] ∧ q.printed.Sublist l
  printed_sub : q.printed.Sublist q.stored

/-- `Fresh` inside the critical sections, where `counter`, `ready` and the histories
change one after the other. -/
def freshAt : PC → Shared → Prop
  | .prodReady _, q => q.stored = List.range q.stored.length ∧
      ∃ l, q.stored = l ++ [q.counter] ∧ q.printed.Sublist l
  | .consPrint _, q => Fresh q ∧ q.ready = true
  | .consClear _, q => q.stored = List.range q.stored.length ∧ q.printed.Sublist q.stored
  | _, q => Fresh q

theorem freshAt_act {rounds : ℕ} {t : Thread} {p : PC} {f : Shared → Shared × PC} {q : Shared}
    (hc : code rounds p = .act f) (hn : counted rounds t p q) (h : freshAt p q) :
    freshAt (f q).2 (f q).1 := by
  cases p with
  | prodLoop i | consLoop i =>
    simp only [code, Stmt.act.injEq] at hc
    subst hc
    by_cases hi : i < rounds <;> simpa [hi, freshAt] using h
  | prodPrint i | prodSleep i =>
    simp only [code, Stmt.act.injEq] at hc
    subst hc
    exact h
  | prodStore i =>
    simp only [code, Stmt.act.injEq] at hc
    subst hc
    cases t with
    | cons => exact hn.elim
    | prod =>
      obtain ⟨hi, -⟩ := hn
      refine ⟨?_, q.stored, rfl, h.printed_sub⟩
      have he := h.stored_eq
      rw [hi] at he
      simp [List.range_succ, he]
  | prodReady i =>
    simp only [code, Stmt.act.injEq] at hc
    subst hc
    obtain ⟨he, l, hl, hp⟩ := h
    exact ⟨he, fun _ => ⟨l, hl, hp⟩, hp.trans (hl ▸ List.sublist_append_left l _)⟩
  | consTest i =>
    simp only [code, Stmt.act.injEq] at hc
    subst hc
    cases hr : q.ready with
    | false => simpa [hr, freshAt] using h
    | true => simpa [hr, freshAt] using h
  | consPrint i =>
    simp only [code, Stmt.act.injEq] at hc
    subst hc
    obtain ⟨hf, hr⟩ := h
    obtain ⟨l, hl, hp⟩ := hf.pending hr
    refine ⟨hf.stored_eq, ?_⟩
    rw [hl]
    exact hp.append (List.Sublist.refl [q.counter])
  | consClear i =>
    simp only [code, Stmt.act.injEq] at hc
    subst hc
    exact ⟨h.1, fun hr => by simp at hr, h.2⟩
  | _ => simp [code] at hc

theorem fresh_outline (rounds : ℕ) :
    Outline (code rounds) held (fun _ _ => True) Fresh
      (fun t p q => counted rounds t p q ∧ freshAt p q) (counted rounds) := by
  refine outline_of_rests (fun _ _ => ⟨Iff.rfl, Iff.rfl, Iff.rfl, Iff.rfl, Iff.rfl⟩) ?_ ?_
  · intro t p f q hc _ hn h
    exact freshAt_act hc hn h
  · intro t p n q hc _ _ hI
    cases p <;> simp only [code, Stmt.lock.injEq, reduceCtorEq] at hc <;> subst hc <;> exact hI

variable {rounds : ℕ} {s : State Thread Shared Cond PC}

theorem exclusive (h : (demoConditionVariable rounds).Reachable s) :
    Exclusive (code rounds) held s :=
  exclusive_reachable (discipline rounds) start_not_held h

theorem fresh_holds (h : (demoConditionVariable rounds).Reachable s) :
    Holds held Fresh (fun t p q => counted rounds t p q ∧ freshAt p q) (counted rounds) s := by
  refine holds_reachable (discipline rounds) (fresh_outline rounds) start_not_held ?_ ?_ h
  · exact ⟨rfl, fun hr => by simp at hr, List.Sublist.refl []⟩
  · intro t
    cases t <;> simp [counted, Thread.start]

theorem counted_reachable (h : (demoConditionVariable rounds).Reachable s) (t : Thread) :
    counted rounds t (s.thread t).pc s.shared := by
  by_cases ht : (s.thread t).Active held
  · exact ((fresh_holds h).active t ht).1
  · exact (fresh_holds h).passive t ht

/-- At every control point of the holder the histories are as `Fresh` has them. -/
theorem freshAt_histories {p : PC} {q : Shared} (h : freshAt p q) :
    q.stored = List.range q.stored.length ∧ q.printed.Sublist q.stored := by
  cases p with
  | prodReady i =>
    obtain ⟨he, l, hl, hp⟩ := h
    exact ⟨he, hp.trans (hl ▸ List.sublist_append_left l _)⟩
  | consPrint i => exact ⟨h.1.stored_eq, h.1.printed_sub⟩
  | consClear i => exact h
  | _ => exact ⟨h.stored_eq, h.printed_sub⟩

theorem histories (h : (demoConditionVariable rounds).Reachable s) :
    s.shared.stored = List.range s.shared.stored.length ∧
      s.shared.printed.Sublist s.shared.stored := by
  cases ho : s.owner with
  | none =>
    have hf := (fresh_holds h).free ho
    exact ⟨hf.stored_eq, hf.printed_sub⟩
  | some t =>
    exact freshAt_histories ((fresh_holds h).active t ((exclusive h).owner t |>.mp ho)).2

/-- For any number of rounds and every interleaving, spurious wakeups included: what
the consumer prints is a strictly increasing subsequence of what was stored. -/
theorem printed_increasing (h : (demoConditionVariable rounds).Reachable s) :
    s.shared.printed.Sublist s.shared.stored ∧ s.shared.printed.Pairwise (· < ·) := by
  obtain ⟨he, hp⟩ := histories h
  refine ⟨hp, ?_⟩
  rw [he] at hp
  exact List.Pairwise.sublist hp List.pairwise_lt_range

def initialState : State Thread Shared Cond PC :=
  ⟨⟨0, false, [], []⟩, none, fun t => .run t.start⟩

/-- The producer stores twice before the consumer runs, which then prints 1. -/
theorem printed_increasing_overwritten :
    ∃ s, (demoConditionVariable 3).Reachable s ∧ s.shared.stored = [0, 1] ∧
      s.shared.printed = [1] ∧ [1].Sublist [0, 1] ∧ [1].Pairwise (· < ·) := by
  obtain ⟨s, hs⟩ : ∃ s, schedule (code 3) (fun _ _ => true) initialState
      (List.replicate 16 (.prod, none) ++ List.replicate 6 (.cons, none)) = some s := ⟨_, rfl⟩
  have hr : (demoConditionVariable 3).Reachable s := reachable_of_free_schedule rfl hs
  have hstored : s.shared.stored = [0, 1] := by cases hs; rfl
  have hprinted : s.shared.printed = [1] := by cases hs; rfl
  have hmain := printed_increasing hr
  rw [hstored, hprinted] at hmain
  exact ⟨s, hr, hstored, hprinted, hmain⟩

/-- The schedules in which the producer wins the mutex only after the consumer has
taken the last item. -/
def Taken : Thread → Shared → Prop
  | .prod, q => q.ready = false
  | .cons, _ => True

/-- Nothing is stored beyond what was printed, except the item in `counter`. -/
def Kept (q : Shared) : Prop :=
  (q.ready = false → q.stored = q.printed) ∧
    (q.ready = true → q.stored = q.printed ++ [q.counter])

def keptAt : PC → Shared → Prop
  | .prodPrint _, q | .prodStore _, q => q.ready = false ∧ q.stored = q.printed
  | .prodReady _, q => q.stored = q.printed ++ [q.counter]
  | .consPrint _, q => q.ready = true ∧ q.stored = q.printed ++ [q.counter]
  | .consClear _, q => q.stored = q.printed
  | _, q => Kept q

theorem kept_outline (rounds : ℕ) :
    Outline (code rounds) held Taken Kept
      (fun t p q => counted rounds t p q ∧ keptAt p q) (counted rounds) := by
  refine outline_of_rests (fun _ _ => ⟨Iff.rfl, Iff.rfl, Iff.rfl, Iff.rfl, Iff.rfl⟩) ?_ ?_
  · intro t p f q hc hp _ hA
    cases p with
    | prodPrint i =>
      simp only [code, Stmt.act.injEq] at hc
      subst hc
      exact hA
    | prodStore i =>
      simp only [code, Stmt.act.injEq] at hc
      subst hc
      simp [keptAt, hA.2]
    | prodReady i =>
      simp only [code, Stmt.act.injEq] at hc
      subst hc
      exact ⟨fun hr => by simp at hr, fun _ => hA⟩
    | consTest i =>
      simp only [code, Stmt.act.injEq] at hc
      subst hc
      cases hr : q.ready with
      | false => simpa [hr, keptAt] using hA
      | true => simpa [hr, keptAt] using hA.2 hr
    | consPrint i =>
      simp only [code, Stmt.act.injEq] at hc
      subst hc
      exact hA.2
    | consClear i =>
      simp only [code, Stmt.act.injEq] at hc
      subst hc
      exact ⟨fun _ => hA, fun hr => by simp at hr⟩
    | _ => first | exact hp.elim | simp [code] at hc
  · intro t p n q hc hG hQ hI
    cases p with
    | prodLock i =>
      simp only [code, Stmt.lock.injEq] at hc
      subst hc
      cases t with
      | cons => exact hQ.elim
      | prod => exact ⟨hG, hI.1 hG⟩
    | consLock i =>
      simp only [code, Stmt.lock.injEq] at hc
      subst hc
      exact hI
    | _ => simp [code] at hc

/-- Some item was replaced in `counter` before the consumer printed it. -/
def Lost (q : Shared) : Prop := ∃ v ∈ q.stored.dropLast, v ∉ q.printed

/-- The producer has returned, the consumer has rounds left and waits, and `ready`
is 0. -/
def Hung (rounds : ℕ) (s : State Thread Shared Cond PC) : Prop :=
  s.thread .prod = .run .prodReturn ∧
  (∃ i, i < rounds ∧ (s.thread .cons = .asleep .cond (.consTest i) ∨
    s.thread .cons = .woken (.consTest i))) ∧
  s.shared.ready = false

/-- Reachable by steps in which the producer locks only once the last item is taken. -/
def TakenReachable (rounds : ℕ) (s : State Thread Shared Cond PC) : Prop :=
  ((demoConditionVariable rounds).restrict (Guarded (code rounds) Taken)).Reachable s

theorem kept_holds (h : TakenReachable rounds s) :
    Holds held Kept (fun t p q => counted rounds t p q ∧ keptAt p q) (counted rounds) s := by
  refine holds_guarded (discipline rounds) (kept_outline rounds) start_not_held ?_ ?_ h
  · exact ⟨fun _ => rfl, fun hr => by simp at hr⟩
  · intro t
    cases t <;> simp [counted, Thread.start]

theorem not_lost_of_append {q : Shared} {l : List ℕ} (h : q.stored = q.printed ++ l)
    (hl : l.length ≤ 1) : ¬ Lost q := by
  rintro ⟨v, hv, hn⟩
  rw [h] at hv
  match l, hl with
  | [], _ => exact hn (List.dropLast_subset _ (by simpa using hv))
  | [x], _ => exact hn (by simpa using hv)

theorem not_lost_of_kept {q : Shared} (h : Kept q) : ¬ Lost q := by
  cases hr : q.ready with
  | false => exact not_lost_of_append (l := []) (by simpa using h.1 hr) (by simp)
  | true => exact not_lost_of_append (h.2 hr) (by simp)

theorem not_lost_of_keptAt {p : PC} {q : Shared} (h : keptAt p q) : ¬ Lost q := by
  cases p with
  | prodPrint | prodStore =>
    exact not_lost_of_append (l := []) (by simpa using h.2) (by simp)
  | prodReady => exact not_lost_of_append h (by simp)
  | consPrint => exact not_lost_of_append h.2 (by simp)
  | consClear =>
    have he : q.stored = q.printed := h
    exact not_lost_of_append (l := []) (by simpa using he) (by simp)
  | _ => exact not_lost_of_kept h

theorem owner_none_of_hung (h : (demoConditionVariable rounds).Reachable s)
    (hh : Hung rounds s) : s.owner = none := by
  obtain ⟨hp, ⟨i, -, hc⟩, -⟩ := hh
  cases ho : s.owner with
  | none => rfl
  | some t =>
    have hact := ((exclusive h).owner t).mp ho
    cases t with
    | prod => simp [hp, Status.Active, held] at hact
    | cons => rcases hc with hc | hc <;> simp [hc, Status.Active] at hact

theorem handed_off_of_taken (h : TakenReachable rounds s) :
    ¬ Lost s.shared ∧ ¬ Hung rounds s := by
  have hr : (demoConditionVariable rounds).Reachable s := h.of_restrict
  constructor
  · cases ho : s.owner with
    | none => exact not_lost_of_kept ((kept_holds h).free ho)
    | some t =>
      exact not_lost_of_keptAt
        ((kept_holds h).active t ((exclusive hr).owner t |>.mp ho)).2
  · intro hh
    -- All rounds are stored, so a consumer with rounds left has one to take.
    have hkept := (kept_holds h).free (owner_none_of_hung hr hh)
    have hprod := counted_reachable hr .prod
    have hcons := counted_reachable hr .cons
    obtain ⟨hp, ⟨i, hi, hc⟩, hready⟩ := hh
    have hlen : s.shared.stored.length = s.shared.printed.length := by rw [hkept.1 hready]
    rw [hp] at hprod
    have hn : s.shared.stored.length = rounds := hprod
    have hi' : s.shared.printed.length = i := by
      rcases hc with hc | hc <;> rw [hc] at hcons <;> exact hcons.1
    omega

/-- With at most one round the producer cannot find an item that is not taken. -/
theorem taken_of_le_one (hn : rounds ≤ 1) (h : (demoConditionVariable rounds).Reachable s) :
    TakenReachable rounds s := by
  apply h.invariant_of_reachable (P := TakenReachable rounds)
  · intro s₀ h₀
    exact .of_initial h₀
  · intro s a s' hr hst hg
    refine hg.step ⟨?_, hst⟩
    rintro t p n rfl ht hc
    cases t with
    | cons => trivial
    | prod =>
      have hcount := counted_reachable hr .prod
      rw [ht] at hcount
      cases p with
      | prodLock i =>
        obtain ⟨hi, hlt⟩ := hcount
        change s.shared.ready = false
        by_contra hready
        have hfree : s.owner = none := by
          cases hst with
          | lock _ _ ho => exact ho
          | act ht' hc' | unlock ht' hc' _ | wait ht' hc' _ | signal ht' hc' _
          | signalNone ht' hc' _ | broadcast ht' hc' =>
            rw [ht] at ht'
            cases ht'
            rw [hc] at hc'
            cases hc'
          | reacquire ht' _ => simp [ht] at ht'
        obtain ⟨l, hl, -⟩ := ((fresh_holds hr).free hfree).pending (by simpa using hready)
        have := congrArg List.length hl
        simp at this
        omega
      | consLock i => exact hcount.elim
      | _ => simp [code] at hc

/-- The producer runs two rounds before the consumer starts. -/
theorem lost_of_two_rounds (m : ℕ) :
    ∃ s, (demoConditionVariable (m + 2)).Reachable s ∧ Lost s.shared := by
  obtain ⟨s, hs⟩ : ∃ s, schedule (code (m + 2)) (fun _ _ => true) initialState
      (List.replicate 16 (.prod, none)) = some s := ⟨_, rfl⟩
  have hstored : s.shared.stored = [0, 1] := by cases hs; rfl
  have hprinted : s.shared.printed = [] := by cases hs; rfl
  exact ⟨s, reachable_of_free_schedule rfl hs, 0, by simp [hstored], by simp [hprinted]⟩

/-- If the producer locks only once the last item is taken, no item is lost and the
consumer never waits for one that will not come. Over all interleavings that holds
exactly for at most one round. -/
theorem handed_off_iff (rounds : ℕ) :
    (∀ s, TakenReachable rounds s → ¬ Lost s.shared ∧ ¬ Hung rounds s) ∧
    ((∀ s, (demoConditionVariable rounds).Reachable s →
      ¬ Lost s.shared ∧ ¬ Hung rounds s) ↔ rounds ≤ 1) := by
  refine ⟨fun s h => handed_off_of_taken h, ?_, ?_⟩
  · intro hall
    by_contra hn
    obtain ⟨m, rfl⟩ : ∃ m, rounds = m + 2 := ⟨rounds - 2, by omega⟩
    obtain ⟨s, hr, hlost⟩ := lost_of_two_rounds m
    exact (hall s hr).1 hlost
  · intro hn s h
    exact handed_off_of_taken (taken_of_le_one hn h)

/-- `Taken` as a check on the next step of a thread. -/
def takenCheck (s : State Thread Shared Cond PC) (t : Thread) : Bool :=
  match s.thread t with
  | .run (.prodLock _) | .run (.consLock _) => t == .cons || !s.shared.ready
  | _ => true

theorem guarded_of_takenCheck (s : State Thread Shared Cond PC) (t : Thread)
    (h : takenCheck s t = true) : Guarded (code rounds) Taken s (.run t) := by
  rintro u p n hu ht hc
  cases hu
  cases t with
  | cons => trivial
  | prod => cases p <;> simp_all [code, takenCheck, Taken]

/-- Two items handed over in turn: the schedules of the first part exist. -/
theorem handed_off_in_turn :
    ∃ s, TakenReachable 2 s ∧ s.shared.stored = [0, 1] ∧ s.shared.printed = [0, 1] ∧
      ¬ Lost s.shared ∧ ¬ Hung 2 s := by
  obtain ⟨s, hs⟩ : ∃ s, schedule (code 2) takenCheck initialState
      (List.replicate 8 (.prod, none) ++ List.replicate 6 (.cons, none) ++
        List.replicate 8 (.prod, none) ++ List.replicate 6 (.cons, none)) = some s := ⟨_, rfl⟩
  have hr : TakenReachable 2 s :=
    reachable_of_schedule guarded_of_takenCheck (.of_initial rfl) hs
  exact ⟨s, hr, by cases hs; rfl, by cases hs; rfl, (handed_off_iff 2).1 s hr⟩

/-- With the five rounds of the source: items are lost, and the consumer is left
waiting after the producer has returned. -/
theorem five_rounds_lost_and_hung :
    (∃ s, (demoConditionVariable 5).Reachable s ∧ Lost s.shared) ∧
    ∃ s, (demoConditionVariable 5).Reachable s ∧ Hung 5 s := by
  refine ⟨lost_of_two_rounds 3, ?_⟩
  obtain ⟨s, hs⟩ : ∃ s, schedule (code 5) (fun _ _ => true) initialState
      (List.replicate 41 (.prod, none) ++ List.replicate 10 (.cons, none)) = some s := ⟨_, rfl⟩
  refine ⟨s, reachable_of_free_schedule rfl hs, ?_, ⟨1, by decide, Or.inl ?_⟩, ?_⟩ <;>
    cases hs <;> rfl

end SystemCalls.ThreadsDemo

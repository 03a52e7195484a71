import SystemCalls.Counting
import SystemCalls.FutexLock
import SystemCalls.Locks.Lock
import SystemCalls.Refinement
import Mathlib.Algebra.Order.BigOperators.Group.Finset
import Mathlib.Data.Fintype.Card

/-!
# The futex lock as a lock

Seen from outside `futex_lock` and `futex_unlock` are an abstract lock; and as long as FUTEX_WAIT
returns only for a reason, threads that make a finite number of calls come to their end.
-/

namespace SystemCalls.FutexLock

open Lock (Call Phase)

/-- A thread that has called `futex_unlock` is done with the lock. -/
def PC.phase : PC → Phase
  | .outside | .finished | .store | .wake => .idle
  | .exchange .. | .failed _ | .wait _ | .asleep _ | .returned _ => .waiting
  | .critical => .holding

section
variable {T : Type*}

/-- The calls of `futex_lock`, its returns and the calls of `futex_unlock`. -/
def observe (s : State T) (a : Event T) (s' : State T) : Option (Call T) :=
  match a with
  | .interrupt _ => none
  | .run t =>
    match s.pc t, s'.pc t with
    | .outside, .exchange .. => some (.call t)
    | .exchange .., .critical => some (.acquire t)
    | .critical, .store => some (.release t)
    | _, _ => none

def phases (s : State T) : T → Phase := PC.phase ∘ s.pc

end

variable {T : Type*} [DecidableEq T] {s s' : State T} {t : T} {p : PC} {ys : List (Call T)}

theorem phases_set (t : T) (p : PC) :
    Function.update (phases s) t p.phase = phases (s.set t p) :=
  (Function.comp_update ..).symm

theorem phases_set_of_eq (h : p.phase = (s.pc t).phase) : phases s = phases (s.set t p) := by
  rw [← phases_set, h]
  exact (Function.update_eq_self ..).symm

omit [DecidableEq T] in
/-- The compare-exchange succeeds only with nobody inside. -/
theorem not_holding_of_exchange {e : UInt32} {again : Bool} (hs : Exclusive s)
    (h : s.pc t = .exchange e again) (hw : s.word = e) (u : T) : phases s u ≠ .holding := by
  have he := hs.expects t
  rw [h] at he
  have he : e = 0 := he
  rcases hs.word with ⟨hone, -⟩ | ⟨-, hfree⟩
  · simp [hw, he] at hone
  · intro hu
    apply hfree u
    cases hpc : s.pc u <;> simp [phases, hpc, PC.phase, PC.Inside] at hu ⊢

/-- A step that shows something is the call of `futex_lock`, its return, or the call of
`futex_unlock`. -/
theorem shown_cases {a : Event T} {y : Call T} (h : Step s a s') (hobs : observe s a s' = some y) :
    ∃ t, (s.pc t = .outside ∧ y = .call t ∧ s' = s.set t (.exchange 0 false)) ∨
      (∃ e again, s.pc t = .exchange e again ∧ s.word = e ∧ y = .acquire t ∧
        s' = { s.set t .critical with word := 1 }) ∨
      (s.pc t = .critical ∧ y = .release t ∧ s' = s.set t .store) := by
  cases h with
  | @enter t h => exact ⟨t, .inl ⟨h, by simpa [observe, h, eq_comm] using hobs, rfl⟩⟩
  | @acquire t e again h hw =>
    exact ⟨t, .inr (.inl ⟨e, again, h, hw, by simpa [observe, h, eq_comm] using hobs, rfl⟩)⟩
  | @leave t h => exact ⟨t, .inr (.inr ⟨h, by simpa [observe, h, eq_comm] using hobs, rfl⟩)⟩
  | finish h | fail h | expectOne h | sleep h | mismatch h | expectZero h | store h
  | wakeOne h | wakeNone h => simp [observe, h] at hobs
  | interrupted h => simp [observe] at hobs

theorem refines : (system T).Refines observe (Lock.system T) fun s x => x = phases s where
  initial s hs := ⟨_, rfl, by subst hs; rfl⟩
  silent s a s' x _ hst hobs hx := by
    subst hx
    cases hst with
    | enter h | acquire h _ | leave h => simp [observe, h] at hobs
    | fail h | expectOne h | sleep h | mismatch h | interrupted h | expectZero h | finish h
    | store h | wakeNone h => exact phases_set_of_eq (by simp [h, PC.phase])
    | @wakeOne t u e h hu =>
      have hne : t ≠ u := by
        rintro rfl
        simp [h] at hu
      calc phases s = phases (s.set u (.returned e)) := phases_set_of_eq (by simp [hu, PC.phase])
        _ = _ := phases_set_of_eq (by simp [hne, h, PC.phase])
  shown s a s' x y hs hst hobs hx := by
    subst hx
    obtain ⟨t, ⟨h, rfl, rfl⟩ | ⟨e, again, h, hw, rfl, rfl⟩ | ⟨h, rfl, rfl⟩⟩ := shown_cases hst hobs
    · exact ⟨_, .call (by simp [phases, h, PC.phase]), phases_set t (.exchange 0 false)⟩
    · exact ⟨_, .acquire (by simp [phases, h, PC.phase])
        (not_holding_of_exchange (exclusive_reachable hs) h hw), phases_set t .critical⟩
    · exact ⟨_, .release (by simp [phases, h, PC.phase]), phases_set t .store⟩

/-- The calls and returns of any run are those of a lock. -/
theorem futex_lock_is_lock (h : (system T).Shows observe ⟨0, fun _ => .outside⟩ ys s) :
    ∃ x, (Lock.system T).Trace (fun _ => .idle) ys x := by
  obtain ⟨x, x', rfl, htrace⟩ := refines.trace rfl h
  exact ⟨x', htrace⟩

theorem futex_lock_is_lock_contended : ∃ s : State Bool,
    (system Bool).Shows observe ⟨0, fun _ => .outside⟩
      [.call true, .acquire true, .call false, .release true, .acquire false] s ∧
    ∃ x, (Lock.system Bool).Trace (fun _ => .idle)
      [.call true, .acquire true, .call false, .release true, .acquire false] x := by
  have h : ∃ s : State Bool, (system Bool).Shows observe ⟨0, fun _ => .outside⟩
      [.call true, .acquire true, .call false, .release true, .acquire false] s := by
    refine ⟨_, .shown (.enter (t := true) rfl) rfl (.shown (.acquire (t := true) (e := 0) rfl rfl)
      rfl (.shown (.enter (t := false) rfl) rfl (.silent (.fail (t := false) (e := 0) rfl
      (by decide)) rfl (.silent (.expectOne (t := false) rfl) rfl (.silent
      (.sleep (t := false) rfl rfl) rfl (.shown (.leave (t := true) rfl) rfl (.silent
      (.store (t := true) rfl) rfl (.silent (.wakeOne (t := true) (u := false) rfl rfl) rfl
      (.silent (.expectZero (t := false) rfl) rfl (.shown (.acquire (t := false) (e := 0) rfl rfl)
      rfl .refl))))))))))⟩
  obtain ⟨s, hs⟩ := h
  exact ⟨s, hs, futex_lock_is_lock hs⟩

/-! ### Every run ends -/

/-- FUTEX_WAIT is not interrupted. -/
def Undisturbed (_ : State T) (a : Event T) : Prop :=
  ∃ t, a = .run t

/-- A number of calls still to be made, by whatever threads. -/
inductive Spend : ℕ → Call T ⊕ Empty → ℕ → Prop
  | call {n : ℕ} {t : T} : Spend (n + 1) (.inl (.call t)) n
  | acquire {n : ℕ} {t : T} : Spend n (.inl (.acquire t)) n
  | release {n : ℕ} {t : T} : Spend n (.inl (.release t)) n

def calls (T : Type*) (n : ℕ) : LTS ℕ (Call T ⊕ Empty) where
  initial m := m = n
  step := Spend

/-- The lock, used by threads that make `n` calls in all. -/
abbrev used (T : Type*) [DecidableEq T] (n : ℕ) : LTS (State T × ℕ) (Event T ⊕ Empty) :=
  ((system T).restrict Undisturbed).compose observe (calls T n)

/-- The moves that a thread has before it, those apart that may come again. -/
def PC.work : PC → ℕ
  | .exchange .. | .failed _ | .wait _ | .asleep _ | .returned _ => 5
  | .critical => 4
  | .store => 3
  | .wake => 2
  | .outside => 1
  | .finished => 0

/-- The moves in the loop of `futex_lock` as long as the word does not change. -/
def PC.turn (word : UInt32) : PC → ℕ
  | .exchange .. => if word = 0 then 0 else 3
  | .failed _ => if word = 0 then 3 else 2
  | .wait _ => if word = 0 then 2 else 1
  | .returned _ => if word = 0 then 1 else 4
  | .asleep _ | .critical | .store | .wake | .outside | .finished => 0

variable [Fintype T] {n m : ℕ}

def State.work (s : State T) : ℕ := ∑ t, (s.pc t).work

def State.turn (s : State T) : ℕ := ∑ t, (s.pc t).turn s.word

def measure (s : State T) (n : ℕ) : ℕ :=
  (5 * n + s.work) * (4 * Fintype.card T + 1) + s.turn

theorem work_set : (s.set t p).work + (s.pc t).work = s.work + p.work :=
  sum_update PC.work s.pc t p

theorem turn_set : (s.set t p).turn + (s.pc t).turn s.word = s.turn + p.turn s.word :=
  sum_update (PC.turn s.word) s.pc t p

omit [DecidableEq T] in
theorem turn_le (s : State T) : s.turn ≤ 4 * Fintype.card T := by
  have hle : ∀ t ∈ Finset.univ, (s.pc t).turn s.word ≤ 4 := by
    intro t _
    cases s.pc t <;> simp only [PC.turn] <;> (try split) <;> omega
  calc s.turn ≤ ∑ _ : T, 4 := Finset.sum_le_sum hle
    _ = 4 * Fintype.card T := by simp [Nat.mul_comm]

omit [DecidableEq T] in
/-- Less work is ahead, whatever happens in the loops. -/
theorem measure_lt_of_work (h : 5 * m + s'.work < 5 * n + s.work) :
    measure s' m < measure s n := by
  have hle := turn_le s'
  have hmul : (5 * m + s'.work + 1) * (4 * Fintype.card T + 1) ≤
      (5 * n + s.work) * (4 * Fintype.card T + 1) := Nat.mul_le_mul_right _ h
  rw [Nat.add_mul] at hmul
  unfold measure
  omega

/-- A move in the loop. -/
theorem measure_set_lt (hwork : p.work = (s.pc t).work)
    (hturn : p.turn s.word < (s.pc t).turn s.word) : measure (s.set t p) n < measure s n := by
  have hw := work_set (s := s) (t := t) (p := p)
  have ht := turn_set (s := s) (t := t) (p := p)
  have hwork : (s.set t p).work = s.work := by omega
  unfold measure
  rw [hwork]
  omega

/-- A move on from the loop, or outside of it. -/
theorem measure_lt_of_set {w : UInt32} (h : 5 * m + p.work < 5 * n + (s.pc t).work) :
    measure { s.set t p with word := w } m < measure s n := by
  apply measure_lt_of_work
  have hw := work_set (s := s) (t := t) (p := p)
  have hset : State.work { s.set t p with word := w } = (s.set t p).work := rfl
  omega

theorem measure_step_lt {a : Event T} (h : Step s a s') (hs : Exclusive s)
    (ha : Undisturbed s a) (hobs : observe s a s' = none) : measure s' n < measure s n := by
  cases h with
  | enter h | acquire h _ | leave h => simp [observe, h] at hobs
  | interrupted h => exact absurd ha (by simp [Undisturbed])
  | finish h | wakeNone h | store h => exact measure_lt_of_set (by simp [h, PC.work])
  | @fail t e again h hw =>
    have he := hs.expects t
    rw [h] at he
    obtain rfl : e = 0 := he
    exact measure_set_lt (by simp [h, PC.work]) (by simp [h, PC.turn, hw])
  | expectOne h | expectZero h =>
    refine measure_set_lt (by simp [h, PC.work]) ?_
    simp only [h, PC.turn]
    split <;> omega
  | sleep h hw => exact measure_set_lt (by simp [h, PC.work]) (by simp [h, PC.turn, hw])
  | mismatch h hw =>
    have hzero : s.word = 0 := (hs.word.resolve_left fun hone => hw hone.1).1
    exact measure_set_lt (by simp [h, PC.work]) (by simp [h, PC.turn, hzero])
  | @wakeOne t u e h hu =>
    have hne : t ≠ u := by
      rintro rfl
      simp [h] at hu
    apply measure_lt_of_work
    have hfirst := work_set (s := s) (t := u) (p := .returned e)
    have hsecond := work_set (s := s.set u (.returned e)) (t := t) (p := .outside)
    simp only [set_pc_ne hne, h, hu, PC.work] at hfirst hsecond
    omega

omit [Fintype T] in
theorem exclusive_used {q : State T × ℕ} (h : (used T n).Reachable q) : Exclusive q.1 :=
  exclusive_reachable (LTS.reachable_left h).of_restrict

theorem measure_used_lt {q r : State T × ℕ} {a : Event T ⊕ Empty} (hq : (used T n).Reachable q)
    (h : (used T n).step q a r) : measure r.1 r.2 < measure q.1 q.2 := by
  have hs := exclusive_used hq
  cases h with
  | silent h hobs => exact measure_step_lt h.2 hs h.1 hobs
  | joint hst hobs hc =>
    obtain ⟨t, ⟨h, rfl, rfl⟩ | ⟨e, again, h, hw, rfl, rfl⟩ | ⟨h, rfl, rfl⟩⟩ :=
      shown_cases hst.2 hobs
    · cases hc
      refine measure_lt_of_set ?_
      simp only [h, PC.work]
      omega
    · cases hc
      exact measure_lt_of_set (by simp [h, PC.work])
    · cases hc
      exact measure_lt_of_set (by simp [h, PC.work])
  | @own _ _ _ e _ => exact e.elim

omit [Fintype T] in
/-- A thread that is neither asleep nor finished can move. -/
theorem can_move {q : State T × ℕ} (hasleep : ¬ (q.1.pc t).Asleep)
    (hfin : q.1.pc t ≠ .finished) : ∃ a r, (used T n).step q a r := by
  obtain ⟨s, m⟩ := q
  have hrun {s' : State T} (h : Step s (.run t) s') (hobs : observe s (.run t) s' = none) :
      ∃ a r, (used T n).step (s, m) a r := ⟨_, _, .silent ⟨⟨t, rfl⟩, h⟩ hobs⟩
  cases h : s.pc t with
  | outside => exact hrun (.finish h) (by simp [observe, h])
  | finished => exact (hfin h).elim
  | exchange e again =>
    by_cases hw : s.word = e
    · exact ⟨_, _, .joint ⟨⟨t, rfl⟩, .acquire h hw⟩ (by simp [observe, h]; rfl) .acquire⟩
    · exact hrun (.fail h hw) (by simp [observe, h])
  | failed e => exact hrun (.expectOne h) (by simp [observe, h])
  | wait e =>
    by_cases hw : s.word = 1
    · exact hrun (.sleep h hw) (by simp [observe, h])
    · exact hrun (.mismatch h hw) (by simp [observe, h])
  | asleep e => exact (hasleep (by simp [h, PC.Asleep])).elim
  | returned e => exact hrun (.expectZero h) (by simp [observe, h])
  | critical => exact ⟨_, _, .joint ⟨⟨t, rfl⟩, .leave h⟩ (by simp [observe, h]; rfl) .release⟩
  | store => exact hrun (.store h) (by simp [observe, h])
  | wake =>
    by_cases hn : ∃ u e, s.pc u = .asleep e
    · obtain ⟨u, e, hu⟩ := hn
      exact hrun (.wakeOne h hu) (by simp [observe, h])
    · exact hrun (.wakeNone h fun u e hu => hn ⟨u, e, hu⟩) (by simp [observe, h])

omit [Fintype T] in
/-- If all that are left sleep, the last one outside would have woken one of them. -/
theorem finished_of_terminal {q : State T × ℕ} (hq : (used T n).Reachable q)
    (hterm : (used T n).Terminal q) (t : T) : q.1.pc t = .finished := by
  have hstuck (u : T) (ha : ¬ (q.1.pc u).Asleep) : q.1.pc u = .finished := by
    by_contra hfin
    obtain ⟨a, r, h⟩ := can_move ha hfin
    exact hterm a r h
  by_contra hfin
  have hasleep : (q.1.pc t).Asleep := by
    by_contra ha
    exact hfin (hstuck t ha)
  have hr := (LTS.reachable_left hq).of_restrict
  rcases covered_reachable hr ⟨t, hasleep⟩ with hw | ⟨u, hu⟩ | ⟨u, hu⟩
  · have hword := (exclusive_reachable hr).word
    obtain ⟨u, hu⟩ : ∃ u, (q.1.pc u).Inside := by simpa [hw] using hword
    have hpc := hstuck u (by cases hpc : q.1.pc u <;> simp [hpc, PC.Inside, PC.Asleep] at hu ⊢)
    simp [hpc, PC.Inside] at hu
  · have hpc := hstuck u (by simp [hu, PC.Asleep])
    simp [hpc] at hu
  · have hpc := hstuck u (by cases hpc : q.1.pc u <;> simp [hpc, PC.Retrying, PC.Asleep] at hu ⊢)
    simp [hpc, PC.Retrying] at hu

/-- No deadlock and no livelock: in whatever order they run, threads that make `n` calls in all
come to their end. -/
theorem finitely_many_calls_end (T : Type*) [DecidableEq T] [Fintype T] (n : ℕ) :
    (used T n).Ends fun q => ∀ t, q.1.pc t = .finished := by
  refine .of_measure (μ := fun q => measure q.1 q.2)
    (n := (5 * n + Fintype.card T) * (4 * Fintype.card T + 1)) ?_ ?_ ?_
  · rintro ⟨s, m⟩ ⟨rfl, rfl⟩
    simp [measure, State.work, State.turn, PC.work, PC.turn]
  · intro q a r hq hst
    exact measure_used_lt hq hst
  · intro q hq hterm t
    exact finished_of_terminal hq hterm t

end SystemCalls.FutexLock

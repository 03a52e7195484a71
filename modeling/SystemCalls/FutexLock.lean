import SystemCalls.Transition
import Mathlib.Logic.Function.Basic

/-!
# The futex lock

`futex_lock` and `futex_unlock` of the chapter on atomics, run again and again by any number of
threads. The compare-exchange, the store and the kernel's test in FUTEX_WAIT are one step each;
FUTEX_WAIT may return at any time.
-/

namespace SystemCalls.FutexLock

/-- Where a thread is; `expected` is its local variable. -/
inductive PC
  | outside
  | finished
  /-- At the compare-exchange, `again` if the loop has been run through before. -/
  | exchange (expected : UInt32) (again : Bool)
  /-- After a failed compare-exchange, which has put the word in `expected`. -/
  | failed (expected : UInt32)
  /-- At FUTEX_WAIT. -/
  | wait (expected : UInt32)
  | asleep (expected : UInt32)
  /-- After FUTEX_WAIT. -/
  | returned (expected : UInt32)
  | critical
  /-- At the store of `futex_unlock`. -/
  | store
  /-- At FUTEX_WAKE. -/
  | wake
  deriving DecidableEq

structure State (T : Type*) where
  word : UInt32
  pc : T → PC

inductive Event (T : Type*)
  | run (t : T)
  /-- FUTEX_WAIT returns without a wake, for a signal or for nothing. -/
  | interrupt (t : T)

variable {T : Type*} [DecidableEq T]

def State.set (s : State T) (t : T) (p : PC) : State T :=
  { s with pc := Function.update s.pc t p }

inductive Step : State T → Event T → State T → Prop
  | enter {s : State T} {t : T} (h : s.pc t = .outside) :
      Step s (.run t) (s.set t (.exchange 0 false))
  | finish {s : State T} {t : T} (h : s.pc t = .outside) : Step s (.run t) (s.set t .finished)
  | acquire {s : State T} {t : T} {e : UInt32} {again : Bool} (h : s.pc t = .exchange e again)
      (hw : s.word = e) : Step s (.run t) { s.set t .critical with word := 1 }
  | fail {s : State T} {t : T} {e : UInt32} {again : Bool} (h : s.pc t = .exchange e again)
      (hw : s.word ≠ e) : Step s (.run t) (s.set t (.failed s.word))
  | expectOne {s : State T} {t : T} {e : UInt32} (h : s.pc t = .failed e) :
      Step s (.run t) (s.set t (.wait 1))
  | sleep {s : State T} {t : T} {e : UInt32} (h : s.pc t = .wait e) (hw : s.word = 1) :
      Step s (.run t) (s.set t (.asleep e))
  | mismatch {s : State T} {t : T} {e : UInt32} (h : s.pc t = .wait e) (hw : s.word ≠ 1) :
      Step s (.run t) (s.set t (.returned e))
  | interrupted {s : State T} {t : T} {e : UInt32} (h : s.pc t = .asleep e) :
      Step s (.interrupt t) (s.set t (.returned e))
  | expectZero {s : State T} {t : T} {e : UInt32} (h : s.pc t = .returned e) :
      Step s (.run t) (s.set t (.exchange 0 true))
  | leave {s : State T} {t : T} (h : s.pc t = .critical) : Step s (.run t) (s.set t .store)
  | store {s : State T} {t : T} (h : s.pc t = .store) :
      Step s (.run t) { s.set t .wake with word := 0 }
  | wakeOne {s : State T} {t u : T} {e : UInt32} (h : s.pc t = .wake) (hu : s.pc u = .asleep e) :
      Step s (.run t) ((s.set u (.returned e)).set t .outside)
  | wakeNone {s : State T} {t : T} (h : s.pc t = .wake) (hn : ∀ u e, s.pc u ≠ .asleep e) :
      Step s (.run t) (s.set t .outside)

/-- The word is 0 and no thread has begun. -/
def system (T : Type*) [DecidableEq T] : LTS (State T) (Event T) where
  initial s := s = ⟨0, fun _ => .outside⟩
  step := Step

/-- Past `futex_lock` and not yet past the store of `futex_unlock`. -/
def PC.Inside : PC → Prop
  | .critical | .store => True
  | _ => False

/-- Awake in the loop of `futex_lock`, once its first compare-exchange has failed. -/
def PC.Retrying : PC → Prop
  | .exchange _ again => again
  | .failed _ | .wait _ | .returned _ => True
  | _ => False

def PC.Asleep : PC → Prop
  | .asleep _ => True
  | _ => False

variable {s s' : State T} {a : Event T} {t u : T} {p q : PC}

@[simp] theorem set_word : (s.set t p).word = s.word := rfl

@[simp] theorem set_pc_self : (s.set t p).pc t = p := Function.update_self ..

@[simp] theorem set_pc_ne (h : u ≠ t) : (s.set t p).pc u = s.pc u := Function.update_of_ne h ..

/-- What a move of `t` does to a property of control points. -/
theorem set_pc_iff {R : PC → Prop} (h : R p ↔ R (s.pc t)) (u : T) :
    R ((s.set t p).pc u) ↔ R (s.pc u) := by
  by_cases hu : u = t
  · subst u
    simpa using h
  · simp [hu]

theorem forall_set_pc {R : PC → Prop} (h : R p) (hs : ∀ u, R (s.pc u)) (u : T) :
    R ((s.set t p).pc u) := by
  by_cases hu : u = t
  · subst u
    simpa using h
  · simpa [hu] using hs u

/-- `expected` is 0 whenever it is compared. -/
def PC.Expects : PC → Prop
  | .exchange e _ => e = 0
  | _ => True

/-- The word tells whether a thread is inside, and there is at most one. -/
structure Exclusive (s : State T) : Prop where
  expects : ∀ t, (s.pc t).Expects
  one : ∀ t u, (s.pc t).Inside → (s.pc u).Inside → t = u
  word : (s.word = 1 ∧ ∃ t, (s.pc t).Inside) ∨ (s.word = 0 ∧ ∀ t, ¬ (s.pc t).Inside)

omit [DecidableEq T] in
theorem Exclusive.of_inside (hs : Exclusive s) (hw : s'.word = s.word)
    (hin : ∀ t, (s'.pc t).Inside ↔ (s.pc t).Inside) (he : ∀ t, (s'.pc t).Expects) :
    Exclusive s' := by
  refine ⟨he, ?_, ?_⟩
  · intro t u ht hu
    exact hs.one t u ((hin t).mp ht) ((hin u).mp hu)
  · simpa only [hw, hin] using hs.word

/-- A thread moves, and stays inside or outside. -/
theorem Exclusive.set (hs : Exclusive s) (hin : p.Inside ↔ (s.pc t).Inside) (he : p.Expects) :
    Exclusive (s.set t p) :=
  hs.of_inside rfl (set_pc_iff hin) (forall_set_pc he hs.expects)

theorem exclusive_step (h : Step s a s') (hs : Exclusive s) : Exclusive s' := by
  cases h with
  | enter h | fail h | expectOne h | sleep h | mismatch h | interrupted h | expectZero h
  | leave h | finish h | wakeNone h =>
    exact hs.set (by simp [h, PC.Inside]) (by simp [PC.Expects])
  | @acquire t e again h hw =>
    obtain rfl : e = 0 := by simpa [h, PC.Expects] using hs.expects t
    have hfree : ∀ t, ¬ (s.pc t).Inside := by
      rcases hs.word with ⟨hone, -⟩ | ⟨-, hfree⟩
      · simp [hw] at hone
      · exact hfree
    have honly : ∀ u, ((s.set t .critical).pc u).Inside → u = t := by
      intro u hu
      by_contra hne
      exact hfree u (by simpa [hne] using hu)
    refine ⟨forall_set_pc (by simp [PC.Expects]) hs.expects, ?_, Or.inl ⟨rfl, t, ?_⟩⟩
    · intro u v hu hv
      rw [honly u hu, honly v hv]
    · simp [PC.Inside]
  | @store t h =>
    have hin : (s.pc t).Inside := by simp [h, PC.Inside]
    have hout : ∀ u, ¬ ((s.set t .wake).pc u).Inside := by
      intro u hu
      by_cases hut : u = t
      · subst u
        simp [PC.Inside] at hu
      · exact hut (hs.one u t (by simpa [hut] using hu) hin)
    refine ⟨forall_set_pc (by simp [PC.Expects]) hs.expects, ?_, Or.inr ⟨rfl, hout⟩⟩
    intro u v hu
    exact (hout u hu).elim
  | @wakeOne t u e h hu =>
    refine Exclusive.set (hs.set ?_ ?_) ?_ ?_
    · simp [hu, PC.Inside]
    · simp [PC.Expects]
    · have hne : t ≠ u := by
        rintro rfl
        simp [h] at hu
      simp [hne, h, PC.Inside]
    · simp [PC.Expects]

theorem exclusive_reachable (h : (system T).Reachable s) : Exclusive s := by
  apply h.invariant
  · rintro _ rfl
    exact ⟨by simp [PC.Expects], by simp [PC.Inside], Or.inr ⟨rfl, by simp [PC.Inside]⟩⟩
  · intro s a s' hst hs
    exact exclusive_step hst hs

/-- One thread inside and one asleep. -/
theorem exists_asleep : ∃ s : State Bool, (system Bool).Reachable s ∧ s.pc true = .critical ∧
    (s.pc false).Asleep := by
  have h₀ : (system Bool).Reachable ⟨0, fun _ => .outside⟩ := .of_initial rfl
  have h₁ := h₀.step (Step.enter (t := true) rfl)
  have h₂ := h₁.step (Step.acquire (t := true) (e := 0) rfl rfl)
  have h₃ := h₂.step (Step.enter (t := false) rfl)
  have h₄ := h₃.step (Step.fail (t := false) (e := 0) rfl (by decide))
  have h₅ := h₄.step (Step.expectOne (t := false) rfl)
  have h₆ := h₅.step (Step.sleep (t := false) rfl rfl)
  exact ⟨_, h₆, rfl, trivial⟩

/-- At most one thread is inside, and the word is 1 exactly when one is. -/
theorem mutual_exclusion (h : (system T).Reachable s) :
    (∀ t u, (s.pc t).Inside → (s.pc u).Inside → t = u) ∧
      (s.word = 1 ↔ ∃ t, (s.pc t).Inside) := by
  have hs := exclusive_reachable h
  refine ⟨hs.one, ?_⟩
  rcases hs.word with ⟨hw, hin⟩ | ⟨hw, hout⟩
  · exact iff_of_true hw hin
  · refine iff_of_false (by simp [hw]) ?_
    rintro ⟨t, ht⟩
    exact hout t ht

theorem mutual_exclusion_contended : ∃ s : State Bool, (system Bool).Reachable s ∧
    (s.pc false).Asleep ∧ s.word = 1 ∧ ∀ t, (s.pc t).Inside → t = true := by
  obtain ⟨s, hs, hin, hasleep⟩ := exists_asleep
  have hinside : (s.pc true).Inside := by simp [hin, PC.Inside]
  obtain ⟨hone, hword⟩ := mutual_exclusion hs
  exact ⟨s, hs, hasleep, hword.mpr ⟨true, hinside⟩, fun t ht => hone t true ht hinside⟩

/-! ### Wakeups -/

/-- Someone will free the word, wake a sleeper or try again. -/
def Attended (s : State T) : Prop :=
  s.word = 1 ∨ (∃ t, s.pc t = .wake) ∨ ∃ t, (s.pc t).Retrying

def Covered (s : State T) : Prop := (∃ t, (s.pc t).Asleep) → Attended s

/-- A move that changes nothing that matters to sleepers. -/
theorem Covered.set (hs : Covered s) (ha : p.Asleep ↔ (s.pc t).Asleep)
    (hw : p = .wake ↔ s.pc t = .wake) (hr : p.Retrying ↔ (s.pc t).Retrying) :
    Covered (s.set t p) := by
  simpa only [Covered, Attended, set_word, set_pc_iff ha, set_pc_iff (R := (· = .wake)) hw,
    set_pc_iff hr] using hs

/-- The thread that moved is the one to try again. -/
theorem covered_of_retrying (h : p.Retrying) : Covered (s.set t p) :=
  fun _ => Or.inr (Or.inr ⟨t, by simpa using h⟩)

theorem covered_step (h : Step s a s') (hs : Covered s) : Covered s' := by
  cases h with
  | enter h | finish h | leave h =>
    exact hs.set (by simp [h, PC.Asleep]) (by simp [h]) (by simp [h, PC.Retrying])
  | acquire h hw => exact fun _ => Or.inl rfl
  | fail h hw => exact covered_of_retrying trivial
  | expectOne h => exact covered_of_retrying trivial
  | sleep h hw => exact fun _ => Or.inl hw
  | mismatch h hw => exact covered_of_retrying trivial
  | interrupted h => exact covered_of_retrying trivial
  | expectZero h => exact covered_of_retrying rfl
  | @store t h => exact fun _ => Or.inr (Or.inl ⟨t, by simp⟩)
  | @wakeOne t u e h hu =>
    have hne : u ≠ t := by
      rintro rfl
      simp [h] at hu
    exact fun _ => Or.inr (Or.inr ⟨u, by simp [hne, PC.Retrying]⟩)
  | @wakeNone t h hn =>
    -- Nobody sleeps, before the step or after it.
    rintro ⟨u, hu⟩
    have hu := (set_pc_iff (R := PC.Asleep) (by simp [h, PC.Asleep]) u).mp hu
    cases hpc : s.pc u with
    | asleep e => exact (hn u e hpc).elim
    | outside | finished | exchange | failed | wait | returned | critical | store | wake =>
      simp [hpc, PC.Asleep] at hu

theorem covered_reachable (h : (system T).Reachable s) : Covered s := by
  apply h.invariant
  · rintro _ rfl ⟨t, ht⟩
    exact ht.elim
  · intro s a s' hst hs
    exact covered_step hst hs

/-- While a thread sleeps, the word is 1, or a thread is between its store and its FUTEX_WAKE, or
one is awake in the loop. So the lock is never free with nobody left but sleepers. -/
theorem sleepers_attended (h : (system T).Reachable s) :
    ((∃ t, (s.pc t).Asleep) →
      s.word = 1 ∨ (∃ t, s.pc t = .wake) ∨ ∃ t, (s.pc t).Retrying) ∧
    ¬ (s.word = 0 ∧ (∃ t, (s.pc t).Asleep) ∧
      ∀ t, (s.pc t).Asleep ∨ s.pc t = .outside ∨ s.pc t = .finished) := by
  refine ⟨covered_reachable h, ?_⟩
  rintro ⟨hfree, hasleep, hall⟩
  rcases covered_reachable h hasleep with hw | ⟨t, ht⟩ | ⟨t, ht⟩
  · simp [hfree] at hw
  · simpa [ht, PC.Asleep] using hall t
  · rcases hall t with hpc | hpc | hpc
    · cases hp : s.pc t <;> simp_all [PC.Asleep, PC.Retrying]
    · simp [hpc, PC.Retrying] at ht
    · simp [hpc, PC.Retrying] at ht

/-- Between the store and FUTEX_WAKE the other thread sleeps with the word 0. -/
theorem sleepers_attended_before_wake : ∃ s : State Bool, (system Bool).Reachable s ∧
    s.word = 0 ∧ (s.pc false).Asleep ∧
      (s.word = 1 ∨ (∃ t, s.pc t = .wake) ∨ ∃ t, (s.pc t).Retrying) := by
  obtain ⟨s, hs, hin, hasleep⟩ := exists_asleep
  have h₁ := hs.step (Step.leave hin)
  have h₂ := h₁.step (Step.store (set_pc_self ..))
  refine ⟨_, h₂, rfl, by simpa using hasleep, (sleepers_attended h₂).1 ⟨false, ?_⟩⟩
  simpa using hasleep

end SystemCalls.FutexLock

import SystemCalls.Transition
import Mathlib.Data.Fintype.Basic
import Mathlib.Algebra.BigOperators.Group.Finset.Basic

/-!
# Threads with one mutex and condition variables

Threads run a table of statements, one statement a step. The mutex excludes,
`wait` releases it and sleeps in one step, a sleeper may wake at any time, and a
woken thread continues only after it has the mutex again. The table, the shared
data and the control points (with the locals they carry) are parameters.
-/

namespace SystemCalls.Monitor

/-- The statement a thread is about to execute. -/
inductive Stmt (S C P : Type*)
  /-- A statement on the shared data, with the control point after it. -/
  | act (f : S → S × P)
  | lock (next : P)
  | unlock (next : P)
  | wait (c : C) (next : P)
  | signal (c : C) (next : P)
  | broadcast (c : C) (next : P)
  | exit

/-- The control point after a statement that does not compute one. -/
def Stmt.next {S C P : Type*} : Stmt S C P → Option P
  | lock n | unlock n | wait _ n | signal _ n | broadcast _ n => some n
  | act _ | exit => none

/-- A sleeping or woken thread keeps the control point at which it continues. -/
inductive Status (C P : Type*)
  | run (p : P)
  | asleep (c : C) (p : P)
  | woken (p : P)
  deriving DecidableEq

inductive Act (T : Type*)
  /-- The thread executes its statement, or takes the mutex back after a wait. -/
  | run (t : T)
  | spurious (t : T)
  deriving DecidableEq

structure State (T S C P : Type*) where
  shared : S
  owner : Option T
  thread : T → Status C P

variable {T S C P : Type*}

namespace Status

def pc : Status C P → P
  | run p | asleep _ p | woken p => p

/-- The thread is at a control point inside its critical section. -/
def Active (held : P → Prop) : Status C P → Prop
  | run p => held p
  | asleep _ _ | woken _ => False

def wakeOn [DecidableEq C] (c : C) : Status C P → Status C P
  | asleep d p => if d = c then woken p else asleep d p
  | run p => run p
  | woken p => woken p

def sleepsOn [DecidableEq C] (c : C) : Status C P → Bool
  | asleep d _ => d = c
  | run _ | woken _ => false

variable [DecidableEq C] {c : C} {x : Status C P}

theorem wakeOn_cases (c : C) (x : Status C P) :
    x.wakeOn c = x ∨ ∃ p, x = asleep c p ∧ x.wakeOn c = woken p := by
  cases x with
  | asleep d p =>
    by_cases h : d = c
    · subst d
      exact Or.inr ⟨p, rfl, by simp [wakeOn]⟩
    · exact Or.inl (by simp [wakeOn, h])
  | run p => exact Or.inl rfl
  | woken p => exact Or.inl rfl

theorem wakeOn_ne_asleep {p : P} : x.wakeOn c ≠ asleep c p := by
  cases x with
  | asleep d q => by_cases h : d = c <;> simp [wakeOn, h]
  | run q => simp [wakeOn]
  | woken q => simp [wakeOn]

end Status

/-- A proof outline: `I` holds while the mutex is free, `A` at the control point
of the thread that holds it, and `Q` at the control point of any other thread,
which must therefore survive the statements of the holder. `G` is what is known
of the shared data when a thread takes the mutex by `lock`. -/
structure Outline (code : P → Stmt S C P) (held : P → Prop) (G : T → S → Prop)
    (I : S → Prop) (A Q : T → P → S → Prop) : Prop where
  act : ∀ {t p f s}, code p = .act f → held p → A t p s → A t (f s).2 (f s).1
  skip : ∀ {t p f s}, code p = .act f → ¬ held p → Q t p s → Q t (f s).2 s
  stable : ∀ {t u p q f s}, code p = .act f → held p → u ≠ t → A t p s →
    Q u q s → Q u q (f s).1
  lock : ∀ {t p n s}, code p = .lock n → G t s → Q t p s → I s → A t n s
  unlock : ∀ {t p n s}, code p = .unlock n → A t p s → I s ∧ Q t n s
  wait : ∀ {t p c n s}, code p = .wait c n → A t p s → I s ∧ Q t n s
  resume : ∀ {t p c n s}, code p = .wait c n → Q t n s → I s → A t n s
  signal : ∀ {t p c n s}, code p = .signal c n ∨ code p = .broadcast c n →
    (held p → A t p s → A t n s) ∧ (¬ held p → Q t p s → Q t n s)

/-- The outline's assertions at one state. -/
structure Holds (held : P → Prop) (I : S → Prop) (A Q : T → P → S → Prop)
    (s : State T S C P) : Prop where
  free : s.owner = none → I s.shared
  active : ∀ t, (s.thread t).Active held → A t (s.thread t).pc s.shared
  passive : ∀ t, ¬ (s.thread t).Active held → Q t (s.thread t).pc s.shared

/-- The step, if it takes the mutex by `lock`, finds the data as `G` says. -/
def Guarded (code : P → Stmt S C P) (G : T → S → Prop) (s : State T S C P) (a : Act T) : Prop :=
  ∀ t p n, a = .run t → s.thread t = .run p → code p = .lock n → G t s.shared

section Semantics

variable [DecidableEq T]

def State.set (s : State T S C P) (t : T) (x : Status C P) : State T S C P :=
  { s with thread := Function.update s.thread t x }

variable {s s' : State T S C P} {t u : T} {x : Status C P}

@[simp] theorem set_shared : (s.set t x).shared = s.shared := rfl

@[simp] theorem set_owner : (s.set t x).owner = s.owner := rfl

@[simp] theorem set_thread_self : (s.set t x).thread t = x := by
  simp [State.set]

@[simp] theorem set_thread_ne (h : u ≠ t) : (s.set t x).thread u = s.thread u := by
  simp [State.set, h]

variable [DecidableEq C] (code : P → Stmt S C P)

inductive Step : State T S C P → Act T → State T S C P → Prop
  | act {s : State T S C P} {t : T} {p : P} {f : S → S × P}
      (ht : s.thread t = .run p) (hc : code p = .act f) :
      Step s (.run t) { s.set t (.run (f s.shared).2) with shared := (f s.shared).1 }
  | lock {s : State T S C P} {t : T} {p n : P}
      (ht : s.thread t = .run p) (hc : code p = .lock n) (ho : s.owner = none) :
      Step s (.run t) { s.set t (.run n) with owner := some t }
  | unlock {s : State T S C P} {t : T} {p n : P}
      (ht : s.thread t = .run p) (hc : code p = .unlock n) (ho : s.owner = some t) :
      Step s (.run t) { s.set t (.run n) with owner := none }
  | wait {s : State T S C P} {t : T} {p n : P} {c : C}
      (ht : s.thread t = .run p) (hc : code p = .wait c n) (ho : s.owner = some t) :
      Step s (.run t) { s.set t (.asleep c n) with owner := none }
  | reacquire {s : State T S C P} {t : T} {p : P}
      (ht : s.thread t = .woken p) (ho : s.owner = none) :
      Step s (.run t) { s.set t (.run p) with owner := some t }
  | signal {s : State T S C P} {t u : T} {p n q : P} {c : C}
      (ht : s.thread t = .run p) (hc : code p = .signal c n)
      (hu : s.thread u = .asleep c q) :
      Step s (.run t) ((s.set u (.woken q)).set t (.run n))
  | signalNone {s : State T S C P} {t : T} {p n : P} {c : C}
      (ht : s.thread t = .run p) (hc : code p = .signal c n)
      (hn : ∀ u q, s.thread u ≠ .asleep c q) :
      Step s (.run t) (s.set t (.run n))
  | broadcast {s : State T S C P} {t : T} {p n : P} {c : C}
      (ht : s.thread t = .run p) (hc : code p = .broadcast c n) :
      Step s (.run t)
        ({ s with thread := fun u => (s.thread u).wakeOn c }.set t (.run n))
  | spurious {s : State T S C P} {t : T} {p : P} {c : C}
      (ht : s.thread t = .asleep c p) :
      Step s (.spurious t) (s.set t (.woken p))

/-- Every thread starts outside its critical sections, with the mutex free. -/
def lts (shared : S) (start : T → P) : LTS (State T S C P) (Act T) where
  initial s := s = ⟨shared, none, fun t => .run (start t)⟩
  step := Step code

/-- Which control points hold the mutex, consistently with the statements. Data
is touched only with the mutex held. -/
structure Discipline (held : P → Prop) : Prop where
  act : ∀ {p f}, code p = .act f → ∀ s, held (f s).2 ↔ held p
  frame : ∀ {p f}, code p = .act f → ¬ held p → ∀ s, (f s).1 = s
  lock : ∀ {p n}, code p = .lock n → ¬ held p ∧ held n
  unlock : ∀ {p n}, code p = .unlock n → held p ∧ ¬ held n
  wait : ∀ {p c n}, code p = .wait c n → held p ∧ held n
  signal : ∀ {p c n}, code p = .signal c n → (held n ↔ held p)
  broadcast : ∀ {p c n}, code p = .broadcast c n → (held n ↔ held p)
  exit : ∀ {p}, code p = .exit → ¬ held p

/-- A thread that sleeps, or has been woken, is in one of its `wait` statements. -/
def Status.Waited : Status C P → Prop
  | .run _ => True
  | .asleep c p => ∃ q, code q = .wait c p
  | .woken p => ∃ q c, code q = .wait c p

/-- The owner is the thread inside its critical section. -/
structure Exclusive (held : P → Prop) (s : State T S C P) : Prop where
  owner : ∀ t, s.owner = some t ↔ (s.thread t).Active held
  waited : ∀ t, (s.thread t).Waited code

variable {code} {held : P → Prop} {a : Act T}

/-- The thread an action belongs to. -/
def Act.actor : Act T → T
  | .run t | .spurious t => t

/-- All a step can do to another thread is wake it. -/
theorem step_other (h : Step code s a s') (hu : u ≠ a.actor) :
    s'.thread u = s.thread u ∨
      ∃ c p, s.thread u = .asleep c p ∧ s'.thread u = .woken p := by
  cases h with
  | act | lock | unlock | wait | reacquire | signalNone | spurious =>
    exact Or.inl (set_thread_ne hu)
  | @signal t v p n q c ht hc hv =>
    change u ≠ t at hu
    by_cases huv : u = v
    · subst v
      exact Or.inr ⟨c, q, hv, by simp [hu]⟩
    · exact Or.inl (by simp [hu, huv])
  | @broadcast t p n c ht hc =>
    change u ≠ t at hu
    rw [set_thread_ne hu]
    rcases Status.wakeOn_cases c (s.thread u) with hw | ⟨q, hq, hw⟩
    · exact Or.inl hw
    · exact Or.inr ⟨c, q, hq, hw⟩

theorem step_other_pc (h : Step code s a s') (hu : u ≠ a.actor) :
    (s'.thread u).pc = (s.thread u).pc := by
  rcases step_other h hu with he | ⟨c, p, hp, hw⟩
  · rw [he]
  · simp [hp, hw, Status.pc]

theorem step_other_active (h : Step code s a s') (hu : u ≠ a.actor) :
    (s'.thread u).Active held ↔ (s.thread u).Active held := by
  rcases step_other h hu with he | ⟨c, p, hp, hw⟩
  · rw [he]
  · simp [hp, hw, Status.Active]

/-- A sleeper was asleep before the step, unless the step is its own `wait`. -/
theorem asleep_step {c : C} {p : P} (h : Step code s a s') (hu : s'.thread u = .asleep c p) :
    s.thread u = .asleep c p ∨
      ∃ q, a = .run u ∧ s.thread u = .run q ∧ code q = .wait c p := by
  by_cases ha : u = a.actor
  · subst ha
    cases h with
    | @wait t q n d ht hc _ =>
      simp only [Act.actor, set_thread_self, Status.asleep.injEq] at hu
      obtain ⟨rfl, rfl⟩ := hu
      exact Or.inr ⟨q, rfl, ht, hc⟩
    | act | lock | unlock | reacquire | signal | signalNone | broadcast | spurious =>
      simp [Act.actor] at hu
  · rcases step_other h ha with he | ⟨d, q, _, hw⟩
    · exact Or.inl (he ▸ hu)
    · simp [hw] at hu

theorem step_other_owner (h : Step code s a s') (hu : u ≠ a.actor) :
    s'.owner = some u ↔ s.owner = some u := by
  have hne : ∀ {t}, u ≠ t → (some t = some u) = False := by
    intro t ht
    simpa using fun he => ht he.symm
  cases h <;> simp_all [Act.actor]

/-- Shared data changes only by a statement of the thread that holds the mutex. -/
theorem step_shared (hd : Discipline code held) (h : Step code s a s') :
    s'.shared = s.shared ∨ ∃ t p f, a = .run t ∧ s.thread t = .run p ∧ held p ∧
      code p = .act f ∧ s'.shared = (f s.shared).1 := by
  cases h with
  | @act t p f ht hc =>
    by_cases hp : held p
    · exact Or.inr ⟨t, p, f, rfl, ht, hp, hc, rfl⟩
    · exact Or.inl (hd.frame hc hp s.shared)
  | lock | unlock | wait | reacquire | signal | signalNone | broadcast | spurious =>
    exact Or.inl rfl

theorem exclusive_step (hd : Discipline code held) (h : Step code s a s')
    (he : Exclusive code held s) : Exclusive code held s' := by
  constructor
  · intro u
    by_cases hu : u = a.actor
    · subst hu
      have ho := he.owner a.actor
      have hw := he.waited a.actor
      cases h with
      | act ht hc => simpa [Act.actor, ht, Status.Active, hd.act hc] using ho
      | lock ht hc _ => simp [Act.actor, Status.Active, (hd.lock hc).2]
      | unlock ht hc _ => simp [Act.actor, Status.Active, (hd.unlock hc).2]
      | wait ht hc _ => simp [Act.actor, Status.Active]
      | @reacquire t p ht _ =>
        simp only [Act.actor, ht] at hw
        obtain ⟨q, c, hq⟩ := hw
        simp [Act.actor, Status.Active, (hd.wait hq).2]
      | signal ht hc _ => simpa [Act.actor, ht, Status.Active, hd.signal hc] using ho
      | signalNone ht hc _ => simpa [Act.actor, ht, Status.Active, hd.signal hc] using ho
      | broadcast ht hc => simpa [Act.actor, ht, Status.Active, hd.broadcast hc] using ho
      | spurious ht => simpa [Act.actor, ht, Status.Active] using ho
    · rw [step_other_owner h hu, step_other_active h hu]
      exact he.owner u
  · intro u
    by_cases hu : u = a.actor
    · subst hu
      have hw := he.waited a.actor
      cases h with
      | wait ht hc _ => simpa [Act.actor, Status.Waited] using ⟨_, hc⟩
      | spurious ht =>
        simp only [Act.actor, ht] at hw
        obtain ⟨q, hq⟩ := hw
        simpa [Act.actor, Status.Waited] using ⟨q, _, hq⟩
      | act | lock | unlock | reacquire | signal | signalNone | broadcast =>
        simp [Act.actor, Status.Waited]
    · have hw := he.waited u
      rcases step_other h hu with hs | ⟨c, p, hp, hs⟩
      · rwa [hs]
      · rw [hp] at hw
        rw [hs]
        obtain ⟨q, hq⟩ := hw
        exact ⟨q, c, hq⟩

omit [DecidableEq T] [DecidableEq C] in
theorem exclusive_initial {shared : S} {start : T → P} (hs : ∀ t, ¬ held (start t)) :
    Exclusive code held (⟨shared, none, fun t => .run (start t)⟩ : State T S C P) :=
  ⟨fun t => by simpa [Status.Active] using hs t, fun _ => trivial⟩

theorem exclusive_reachable {shared : S} {start : T → P} (hd : Discipline code held)
    (hs : ∀ t, ¬ held (start t)) (h : (lts code shared start).Reachable s) :
    Exclusive code held s := by
  apply h.invariant
  · rintro s₀ rfl
    exact exclusive_initial hs
  · intro s a t hst he
    exact exclusive_step hd hst he

variable {G : T → S → Prop} {I : S → Prop} {A Q : T → P → S → Prop}

theorem holds_free_step (hd : Discipline code held) (ho : Outline code held G I A Q)
    (he : Exclusive code held s) (h : Step code s a s') (hh : Holds held I A Q s)
    (hf : s'.owner = none) : I s'.shared := by
  cases h with
  | @act t p f ht hc =>
    change s.owner = none at hf
    have hp : ¬ held p := by
      intro hp
      have := (he.owner t).mpr (by simpa [ht, Status.Active] using hp)
      simp [hf] at this
    simpa [hd.frame hc hp s.shared] using hh.free hf
  | lock | reacquire => simp at hf
  | @unlock t p n ht hc _ =>
    have hA := hh.active t (by simpa [ht, Status.Active] using (hd.unlock hc).1)
    exact (ho.unlock hc (by simpa [ht, Status.pc] using hA)).1
  | @wait t p n c ht hc _ =>
    have hA := hh.active t (by simpa [ht, Status.Active] using (hd.wait hc).1)
    exact (ho.wait hc (by simpa [ht, Status.pc] using hA)).1
  | signal | signalNone | broadcast | spurious => exact hh.free hf

theorem holds_other_step (hd : Discipline code held) (ho : Outline code held G I A Q)
    (he : Exclusive code held s) (h : Step code s a s') (hh : Holds held I A Q s)
    (hu : u ≠ a.actor) :
    ((s'.thread u).Active held → A u (s'.thread u).pc s'.shared) ∧
      (¬ (s'.thread u).Active held → Q u (s'.thread u).pc s'.shared) := by
  rw [step_other_pc h hu, step_other_active h hu]
  rcases step_shared hd h with hs | ⟨t, p, f, rfl, ht, hp, hc, hs⟩
  · rw [hs]
    exact ⟨hh.active u, hh.passive u⟩
  · rw [hs]
    have hact : (s.thread t).Active held := by simpa [ht, Status.Active] using hp
    refine ⟨?_, ?_⟩
    · intro hua
      have hou := (he.owner u).mpr hua
      rw [(he.owner t).mpr hact] at hou
      exact (hu (Option.some.inj hou).symm).elim
    · intro hua
      have hA := hh.active t hact
      simp only [ht, Status.pc] at hA
      exact ho.stable hc hp hu hA (hh.passive u hua)

theorem holds_actor_step (hd : Discipline code held) (ho : Outline code held G I A Q)
    (he : Exclusive code held s) (hg : Guarded code G s a) (h : Step code s a s')
    (hh : Holds held I A Q s) :
    ((s'.thread a.actor).Active held → A a.actor (s'.thread a.actor).pc s'.shared) ∧
      (¬ (s'.thread a.actor).Active held →
        Q a.actor (s'.thread a.actor).pc s'.shared) := by
  have hA := hh.active a.actor
  have hQ := hh.passive a.actor
  cases h with
  | @act t p f ht hc =>
    simp only [Act.actor, ht, Status.Active, Status.pc] at hA hQ
    simp only [Act.actor, set_thread_self, Status.Active, Status.pc, hd.act hc]
    refine ⟨fun hp => ho.act hc hp (hA hp), fun hp => ?_⟩
    rw [hd.frame hc hp]
    exact ho.skip hc hp (hQ hp)
  | @lock t p n ht hc hfree =>
    simp only [Act.actor, ht, Status.Active, Status.pc] at hQ
    simp only [Act.actor, set_thread_self, Status.Active, Status.pc, set_shared]
    refine ⟨fun _ => ?_, fun hn => (hn (hd.lock hc).2).elim⟩
    exact ho.lock hc (hg t p n rfl ht hc) (hQ (hd.lock hc).1) (hh.free hfree)
  | @unlock t p n ht hc _ =>
    simp only [Act.actor, ht, Status.Active, Status.pc] at hA
    simp only [Act.actor, set_thread_self, Status.Active, Status.pc, set_shared]
    refine ⟨fun hn => ((hd.unlock hc).2 hn).elim, fun _ => ?_⟩
    exact (ho.unlock hc (hA (hd.unlock hc).1)).2
  | @wait t p n c ht hc _ =>
    simp only [Act.actor, ht, Status.Active, Status.pc] at hA
    simp only [Act.actor, set_thread_self, Status.Active, Status.pc, set_shared]
    exact ⟨False.elim, fun _ => (ho.wait hc (hA (hd.wait hc).1)).2⟩
  | @reacquire t p ht hfree =>
    have hw := he.waited t
    rw [ht] at hw
    obtain ⟨q, c, hq⟩ := hw
    simp only [Act.actor, ht, Status.Active, Status.pc] at hQ
    simp only [Act.actor, set_thread_self, Status.Active, Status.pc, set_shared]
    refine ⟨fun _ => ho.resume hq (hQ not_false) (hh.free hfree), fun hn => ?_⟩
    exact (hn (hd.wait hq).2).elim
  | signal ht hc _ | signalNone ht hc _ =>
    simp only [Act.actor, ht, Status.Active, Status.pc] at hA hQ
    simp only [Act.actor, set_thread_self, Status.Active, Status.pc, set_shared, hd.signal hc]
    exact ⟨fun hp => (ho.signal (Or.inl hc)).1 hp (hA hp),
      fun hp => (ho.signal (Or.inl hc)).2 hp (hQ hp)⟩
  | broadcast ht hc =>
    simp only [Act.actor, ht, Status.Active, Status.pc] at hA hQ
    simp only [Act.actor, set_thread_self, Status.Active, Status.pc, set_shared,
      hd.broadcast hc]
    exact ⟨fun hp => (ho.signal (Or.inr hc)).1 hp (hA hp),
      fun hp => (ho.signal (Or.inr hc)).2 hp (hQ hp)⟩
  | spurious ht =>
    simp only [Act.actor, ht, Status.Active, Status.pc] at hQ
    simp only [Act.actor, set_thread_self, Status.Active, Status.pc, set_shared]
    exact ⟨False.elim, hQ⟩

theorem holds_step (hd : Discipline code held) (ho : Outline code held G I A Q)
    (he : Exclusive code held s) (hg : Guarded code G s a) (h : Step code s a s')
    (hh : Holds held I A Q s) : Holds held I A Q s' := by
  have hall : ∀ u, ((s'.thread u).Active held → A u (s'.thread u).pc s'.shared) ∧
      (¬ (s'.thread u).Active held → Q u (s'.thread u).pc s'.shared) := by
    intro u
    by_cases hu : u = a.actor
    · exact hu ▸ holds_actor_step hd ho he hg h hh
    · exact holds_other_step hd ho he h hh hu
  exact ⟨holds_free_step hd ho he h hh, fun u => (hall u).1, fun u => (hall u).2⟩

/-- The outline holds in every state that guarded steps reach. -/
theorem holds_guarded {shared : S} {start : T → P} (hd : Discipline code held)
    (ho : Outline code held G I A Q) (hs : ∀ t, ¬ held (start t)) (hI : I shared)
    (hQ : ∀ t, Q t (start t) shared)
    (h : ((lts code shared start).restrict (Guarded code G)).Reachable s) :
    Holds held I A Q s := by
  apply h.invariant_of_reachable
  · rintro s₀ rfl
    exact ⟨fun _ => hI, fun t ht => (hs t ht).elim, fun t _ => hQ t⟩
  · intro s a t hr hst hh
    exact holds_step hd ho (exclusive_reachable hd hs hr.of_restrict) hst.1 hst.2 hh

/-- With no assumption on the schedule, in every reachable state. -/
theorem holds_reachable {shared : S} {start : T → P} (hd : Discipline code held)
    (ho : Outline code held (fun _ _ => True) I A Q) (hs : ∀ t, ¬ held (start t))
    (hI : I shared) (hQ : ∀ t, Q t (start t) shared)
    (h : (lts code shared start).Reachable s) : Holds held I A Q s := by
  apply h.invariant_of_reachable
  · rintro s₀ rfl
    exact ⟨fun _ => hI, fun t ht => (hs t ht).elim, fun t _ => hQ t⟩
  · intro s a t hr hst hh
    exact holds_step hd ho (exclusive_reachable hd hs hr)
      (fun _ _ _ _ _ _ => trivial) hst hh

/-- A thread at a `signal` is never blocked, with or without a sleeper to wake. -/
theorem signal_runs {p n : P} {c : C} (ht : s.thread t = .run p)
    (hc : code p = .signal c n) : ∃ s', Step code s (.run t) s' := by
  by_cases hn : ∃ u q, s.thread u = .asleep c q
  · obtain ⟨u, q, hu⟩ := hn
    exact ⟨_, .signal ht hc hu⟩
  · exact ⟨_, .signalNone ht hc fun u q hu => hn ⟨u, q, hu⟩⟩

/-- The holder of the mutex is never blocked. -/
theorem owner_runs (hd : Discipline code held) (he : Exclusive code held s)
    (ho : s.owner = some t) : ∃ s', Step code s (.run t) s' := by
  have hact := (he.owner t).mp ho
  cases ht : s.thread t with
  | asleep | woken => simp [ht, Status.Active] at hact
  | run p =>
    have hp : held p := by simpa [ht, Status.Active] using hact
    cases hc : code p with
    | act f => exact ⟨_, .act ht hc⟩
    | lock n => exact ((hd.lock hc).1 hp).elim
    | unlock n => exact ⟨_, .unlock ht hc ho⟩
    | wait c n => exact ⟨_, .wait ht hc ho⟩
    | signal c n => exact signal_runs ht hc
    | broadcast c n => exact ⟨_, .broadcast ht hc⟩
    | exit => exact (hd.exit hc hp).elim

/-- A thread is idle if it sleeps or has exited. -/
def Idle (code : P → Stmt S C P) : Status C P → Prop
  | .run p => code p = .exit
  | .asleep _ _ => True
  | .woken _ => False

/-- Unless every thread is idle, some thread can execute a statement now. -/
theorem exists_run_of_not_idle (hd : Discipline code held) (he : Exclusive code held s)
    (ht : ¬ Idle code (s.thread t)) : ∃ u s', Step code s (.run u) s' := by
  cases ho : s.owner with
  | some u => exact ⟨u, owner_runs hd he ho⟩
  | none =>
    cases hx : s.thread t with
    | asleep c p => exact (ht (by simp [hx, Idle])).elim
    | woken p => exact ⟨t, _, .reacquire hx ho⟩
    | run p =>
      have hp : ¬ held p := by
        intro hp
        have := (he.owner t).mpr (by simpa [hx, Status.Active] using hp)
        simp [ho] at this
      cases hc : code p with
      | act f => exact ⟨t, _, .act hx hc⟩
      | lock n => exact ⟨t, _, .lock hx hc ho⟩
      | unlock n => exact (hp (hd.unlock hc).1).elim
      | wait c n => exact (hp (hd.wait hc).1).elim
      | signal c n => exact ⟨t, signal_runs hx hc⟩
      | broadcast c n => exact ⟨t, _, .broadcast hx hc⟩
      | exit => exact (ht (by simpa [hx, Idle] using hc)).elim

end Semantics

section Sums

variable [DecidableEq T] [Fintype T] {s : State T S C P} {t : T} {x : Status C P}

/-- A sum over the threads changes only by the term of the thread that moved. -/
theorem sum_set (w : Status C P → ℤ) :
    ∑ u, w ((s.set t x).thread u) = ∑ u, w (s.thread u) - w (s.thread t) + w x := by
  have hrest : ∑ u ∈ Finset.univ.erase t, w ((s.set t x).thread u) =
      ∑ u ∈ Finset.univ.erase t, w (s.thread u) := by
    apply Finset.sum_congr rfl
    intro u hu
    rw [set_thread_ne (Finset.ne_of_mem_erase hu)]
  rw [← Finset.add_sum_erase _ _ (Finset.mem_univ t), hrest, set_thread_self,
    ← Finset.add_sum_erase _ (fun u => w (s.thread u)) (Finset.mem_univ t)]
  omega

end Sums

section Schedules

variable [DecidableEq T] [Fintype T] [DecidableEq C] (code : P → Stmt S C P)

/-- The statement of thread `t` as a function, where it is not blocked. A signal
that finds sleepers wakes `wake`. -/
def fire (s : State T S C P) (t : T) (wake : Option T) : Option (State T S C P) :=
  match s.thread t with
  | .asleep _ _ => none
  | .woken p => if s.owner = none then some { s.set t (.run p) with owner := some t } else none
  | .run p =>
    match code p with
    | .act f => some { s.set t (.run (f s.shared).2) with shared := (f s.shared).1 }
    | .lock n =>
      if s.owner = none then some { s.set t (.run n) with owner := some t } else none
    | .unlock n =>
      if s.owner = some t then some { s.set t (.run n) with owner := none } else none
    | .wait c n =>
      if s.owner = some t then some { s.set t (.asleep c n) with owner := none } else none
    | .signal c n =>
      match wake with
      | none =>
        if ∀ u, (s.thread u).sleepsOn c = false then some (s.set t (.run n)) else none
      | some u =>
        match s.thread u with
        | .asleep d q => if d = c then some ((s.set u (.woken q)).set t (.run n)) else none
        | .run _ | .woken _ => none
    | .broadcast c n =>
      some ({ s with thread := fun u => (s.thread u).wakeOn c }.set t (.run n))
    | .exit => none

/-- A schedule names the thread of each step; `ok` is checked before each. -/
def schedule (ok : State T S C P → T → Bool) (s : State T S C P) :
    List (T × Option T) → Option (State T S C P)
  | [] => some s
  | (t, wake) :: rest =>
    if ok s t then (fire code s t wake).bind fun s' => schedule ok s' rest else none

variable {code} {s s' : State T S C P} {t : T} {wake : Option T}

theorem step_of_fire (h : fire code s t wake = some s') : Step code s (.run t) s' := by
  unfold fire at h
  split at h
  · simp at h
  · rename_i p ht
    simp only [Option.ite_none_right_eq_some, Option.some.injEq] at h
    exact h.2 ▸ .reacquire ht h.1
  · rename_i p ht
    split at h
    · rename_i f hc
      exact Option.some.inj h ▸ .act ht hc
    · rename_i n hc
      simp only [Option.ite_none_right_eq_some, Option.some.injEq] at h
      exact h.2 ▸ .lock ht hc h.1
    · rename_i n hc
      simp only [Option.ite_none_right_eq_some, Option.some.injEq] at h
      exact h.2 ▸ .unlock ht hc h.1
    · rename_i c n hc
      simp only [Option.ite_none_right_eq_some, Option.some.injEq] at h
      exact h.2 ▸ .wait ht hc h.1
    · rename_i c n hc
      split at h
      · simp only [Option.ite_none_right_eq_some, Option.some.injEq] at h
        refine h.2 ▸ .signalNone ht hc ?_
        intro u q hu
        simpa [hu, Status.sleepsOn] using h.1 u
      · split at h
        · rename_i d q hu
          simp only [Option.ite_none_right_eq_some, Option.some.injEq] at h
          exact h.2 ▸ .signal ht hc (h.1 ▸ hu)
        · simp at h
        · simp at h
    · rename_i c n hc
      exact Option.some.inj h ▸ .broadcast ht hc
    · simp at h

/-- A state computed by a schedule whose checks imply `R` is reachable by steps
that meet `R`. -/
theorem reachable_of_schedule {shared : S} {start : T → P} {l : List (T × Option T)}
    {ok : State T S C P → T → Bool} {R : State T S C P → Act T → Prop}
    (hok : ∀ s t, ok s t = true → R s (.run t))
    (hr : ((lts code shared start).restrict R).Reachable s)
    (h : schedule code ok s l = some s') :
    ((lts code shared start).restrict R).Reachable s' := by
  induction l generalizing s with
  | nil => exact Option.some.inj h ▸ hr
  | cons x l ih =>
    simp only [schedule, Option.ite_none_right_eq_some] at h
    obtain ⟨u, hu, hrest⟩ := Option.bind_eq_some_iff.mp h.2
    exact ih (hr.step ⟨hok s x.1 h.1, step_of_fire hu⟩) hrest

theorem reachable_of_free_schedule {shared : S} {start : T → P} {l : List (T × Option T)}
    (hs : s = ⟨shared, none, fun t => .run (start t)⟩)
    (h : schedule code (fun _ _ => true) s l = some s') :
    (lts code shared start).Reachable s' :=
  (reachable_of_schedule (R := fun _ _ => True) (fun _ _ _ => trivial)
    (.of_initial hs) h).of_restrict

end Schedules

/-! ### Other control points -/

section Map

variable {P' : Type*}

def Stmt.map (g : P' → P) : Stmt S C P' → Stmt S C P
  | act f => act fun s => ((f s).1, g (f s).2)
  | lock n => lock (g n)
  | unlock n => unlock (g n)
  | wait c n => wait c (g n)
  | signal c n => signal c (g n)
  | broadcast c n => broadcast c (g n)
  | exit => exit

def Status.map (g : P' → P) : Status C P' → Status C P
  | run p => run (g p)
  | asleep c p => asleep c (g p)
  | woken p => woken (g p)

def State.map (g : P' → P) (s : State T S C P') : State T S C P :=
  ⟨s.shared, s.owner, fun t => (s.thread t).map g⟩

variable [DecidableEq T] [DecidableEq C] {g : P' → P} {code : P → Stmt S C P}
  {code' : P' → Stmt S C P'} {s' : State T S C P'} {t : State T S C P} {a : Act T}

omit [DecidableEq T] [DecidableEq C] in
theorem run_of_map {x : Status C P'} {p : P} (h : x.map g = .run p) :
    ∃ p', x = .run p' ∧ g p' = p := by
  cases x <;> simp_all [Status.map]

omit [DecidableEq T] [DecidableEq C] in
theorem asleep_of_map {x : Status C P'} {c : C} {p : P} (h : x.map g = .asleep c p) :
    ∃ p', x = .asleep c p' ∧ g p' = p := by
  cases x <;> simp_all [Status.map]

omit [DecidableEq T] [DecidableEq C] in
theorem woken_of_map {x : Status C P'} {p : P} (h : x.map g = .woken p) :
    ∃ p', x = .woken p' ∧ g p' = p := by
  cases x <;> simp_all [Status.map]

omit [DecidableEq C] in
theorem map_set (s' : State T S C P') (u : T) (x : Status C P') :
    (fun v => ((s'.set u x).thread v).map g) = ((s'.map g).set u (x.map g)).thread := by
  funext v
  by_cases hv : v = u
  · subst hv
    simp
  · simp [hv, State.map]

omit [DecidableEq T] in
theorem map_wakeOn (c : C) (x : Status C P') : (x.wakeOn c).map g = (x.map g).wakeOn c := by
  cases x with
  | asleep d p => by_cases h : d = c <;> simp [Status.wakeOn, Status.map, h]
  | run | woken => rfl

/-- What the statements of `code` can do, those that `g` maps to them can. -/
theorem exists_step_of_map (hg : ∀ p, (code' p).map g = code (g p))
    (h : Step code (s'.map g) a t) : ∃ t', Step code' s' a t' ∧ t'.map g = t := by
  cases h with
  | act ht hc =>
    obtain ⟨p', hp', rfl⟩ := run_of_map ht
    cases hc' : code' p' with
    | act f' =>
      rw [← hg, hc'] at hc
      obtain rfl := Stmt.act.inj hc
      exact ⟨_, .act hp' hc', congrArg (State.mk _ _) (map_set ..)⟩
    | _ => simp [← hg, hc', Stmt.map] at hc
  | lock ht hc ho =>
    obtain ⟨p', hp', rfl⟩ := run_of_map ht
    cases hc' : code' p' with
    | lock n =>
      rw [← hg, hc'] at hc
      obtain rfl := Stmt.lock.inj hc
      exact ⟨_, .lock hp' hc' ho, congrArg (State.mk _ _) (map_set ..)⟩
    | _ => simp [← hg, hc', Stmt.map] at hc
  | unlock ht hc ho =>
    obtain ⟨p', hp', rfl⟩ := run_of_map ht
    cases hc' : code' p' with
    | unlock n =>
      rw [← hg, hc'] at hc
      obtain rfl := Stmt.unlock.inj hc
      exact ⟨_, .unlock hp' hc' ho, congrArg (State.mk _ _) (map_set ..)⟩
    | _ => simp [← hg, hc', Stmt.map] at hc
  | wait ht hc ho =>
    obtain ⟨p', hp', rfl⟩ := run_of_map ht
    cases hc' : code' p' with
    | wait c n =>
      rw [← hg, hc'] at hc
      obtain ⟨rfl, rfl⟩ := Stmt.wait.inj hc
      exact ⟨_, .wait hp' hc' ho, congrArg (State.mk _ _) (map_set ..)⟩
    | _ => simp [← hg, hc', Stmt.map] at hc
  | reacquire ht ho =>
    obtain ⟨p', hp', rfl⟩ := woken_of_map ht
    exact ⟨_, .reacquire hp' ho, congrArg (State.mk _ _) (map_set ..)⟩
  | signal ht hc hu =>
    obtain ⟨p', hp', rfl⟩ := run_of_map ht
    obtain ⟨q', hq', rfl⟩ := asleep_of_map hu
    cases hc' : code' p' with
    | signal c n =>
      rw [← hg, hc'] at hc
      obtain ⟨rfl, rfl⟩ := Stmt.signal.inj hc
      refine ⟨_, .signal hp' hc' hq', congrArg (State.mk _ _) ?_⟩
      rw [map_set]
      exact congrArg (fun th => Function.update th _ _) (map_set ..)
    | _ => simp [← hg, hc', Stmt.map] at hc
  | signalNone ht hc hn =>
    obtain ⟨p', hp', rfl⟩ := run_of_map ht
    cases hc' : code' p' with
    | signal c n =>
      rw [← hg, hc'] at hc
      obtain ⟨rfl, rfl⟩ := Stmt.signal.inj hc
      refine ⟨_, .signalNone hp' hc' fun u q hu => ?_, congrArg (State.mk _ _) (map_set ..)⟩
      exact hn u (g q) (congrArg (Status.map g) hu)
    | _ => simp [← hg, hc', Stmt.map] at hc
  | broadcast ht hc =>
    obtain ⟨p', hp', rfl⟩ := run_of_map ht
    cases hc' : code' p' with
    | broadcast c n =>
      rw [← hg, hc'] at hc
      obtain ⟨rfl, rfl⟩ := Stmt.broadcast.inj hc
      refine ⟨_, .broadcast hp' hc', congrArg (State.mk _ _) ?_⟩
      rw [map_set]
      exact congrArg (fun th => Function.update th _ _) (funext fun u => map_wakeOn ..)
    | _ => simp [← hg, hc', Stmt.map] at hc
  | spurious ht =>
    obtain ⟨p', hp', rfl⟩ := asleep_of_map ht
    exact ⟨_, .spurious hp', congrArg (State.mk _ _) (map_set ..)⟩

/-- Renamed control points hinder no run. -/
theorem exists_reachable_of_map {shared : S} {start : T → P'}
    (hg : ∀ p, (code' p).map g = code (g p))
    (h : (lts code shared fun u => g (start u)).Reachable t) :
    ∃ t', (lts code' shared start).Reachable t' ∧ t'.map g = t := by
  apply h.invariant
  · rintro s₀ rfl
    exact ⟨_, .of_initial rfl, rfl⟩
  · rintro s a t hst ⟨s', hs', rfl⟩
    obtain ⟨t', hst', ht'⟩ := exists_step_of_map hg hst
    exact ⟨t', hs'.step hst', ht'⟩

end Map

end SystemCalls.Monitor

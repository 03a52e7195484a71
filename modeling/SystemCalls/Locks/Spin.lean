import SystemCalls.Locks.Lock
import SystemCalls.Refinement

/-!
# The spin lock

`spin_lock` and `spin_unlock` of 5.5.5, run again and again by any number of threads. The
compare-exchange and the store are one step each; the `(int){0}` it compares with is a new one
in each round of the loop.
-/

namespace SystemCalls.SpinLock

open Lock (Call Phase)

inductive PC
  | outside
  | exchange
  /-- At `sched_yield`. -/
  | yield
  | critical
  /-- At the store of `spin_unlock`. -/
  | store
  deriving DecidableEq

structure State (T : Type*) where
  word : Int32
  pc : T → PC

variable {T : Type*} [DecidableEq T]

def State.set (s : State T) (t : T) (p : PC) : State T :=
  { s with pc := Function.update s.pc t p }

/-- The label is the thread that moves. -/
inductive Step : State T → T → State T → Prop
  | enter {s : State T} {t : T} (h : s.pc t = .outside) : Step s t (s.set t .exchange)
  | acquire {s : State T} {t : T} (h : s.pc t = .exchange) (hw : s.word = 0) :
      Step s t { s.set t .critical with word := 1 }
  | fail {s : State T} {t : T} (h : s.pc t = .exchange) (hw : s.word ≠ 0) :
      Step s t (s.set t .yield)
  | again {s : State T} {t : T} (h : s.pc t = .yield) : Step s t (s.set t .exchange)
  | leave {s : State T} {t : T} (h : s.pc t = .critical) : Step s t (s.set t .store)
  | store {s : State T} {t : T} (h : s.pc t = .store) :
      Step s t { s.set t .outside with word := 0 }

def system (T : Type*) [DecidableEq T] : LTS (State T) T where
  initial s := s = ⟨0, fun _ => .outside⟩
  step := Step

/-- Past `spin_lock` and not yet past the store of `spin_unlock`. -/
def PC.Inside : PC → Prop
  | .critical | .store => True
  | .outside | .exchange | .yield => False

/-- A thread that has called `spin_unlock` is done with the lock. -/
def PC.phase : PC → Phase
  | .outside | .store => .idle
  | .exchange | .yield => .waiting
  | .critical => .holding

/-- The calls of `spin_lock`, its returns and the calls of `spin_unlock`. -/
def observe (s : State T) (t : T) (s' : State T) : Option (Call T) :=
  match s.pc t, s'.pc t with
  | .outside, .exchange => some (.call t)
  | .exchange, .critical => some (.acquire t)
  | .critical, .store => some (.release t)
  | _, _ => none

variable {s s' : State T} {t u : T} {p : PC} {ys : List (Call T)}

@[simp] theorem set_word : (s.set t p).word = s.word := rfl

@[simp] theorem set_pc_self : (s.set t p).pc t = p := Function.update_self ..

@[simp] theorem set_pc_ne (h : u ≠ t) : (s.set t p).pc u = s.pc u := Function.update_of_ne h ..

/-- The word tells whether a thread is inside, and there is at most one. -/
structure Exclusive (s : State T) : Prop where
  one : ∀ t u, (s.pc t).Inside → (s.pc u).Inside → t = u
  free : s.word = 0 → ∀ t, ¬ (s.pc t).Inside

/-- A thread moves, and stays inside or outside. -/
theorem Exclusive.set (hs : Exclusive s) (hin : p.Inside → (s.pc t).Inside) :
    Exclusive (s.set t p) := by
  have hmono : ∀ u, ((s.set t p).pc u).Inside → (s.pc u).Inside := by
    intro u hu
    by_cases hut : u = t
    · subst hut
      exact hin (by simpa using hu)
    · simpa [hut] using hu
  exact ⟨fun u v hu hv => hs.one u v (hmono u hu) (hmono v hv),
    fun hw u hu => hs.free hw u (hmono u hu)⟩

theorem exclusive_step (h : Step s t s') (hs : Exclusive s) : Exclusive s' := by
  cases h with
  | enter h | fail h hw | again h | leave h => exact hs.set (by simp [h, PC.Inside])
  | acquire h hw =>
    have honly : ∀ u, ((s.set t .critical).pc u).Inside → u = t := by
      intro u hu
      by_contra hne
      exact hs.free hw u (by simpa [hne] using hu)
    refine ⟨fun u v hu hv => ?_, nofun⟩
    rw [honly u hu, honly v hv]
  | store h =>
    have hout : ∀ u, ¬ ((s.set t .outside).pc u).Inside := by
      intro u hu
      by_cases hut : u = t
      · subst hut
        simp [PC.Inside] at hu
      · exact hut (hs.one u t (by simpa [hut] using hu) (by simp [h, PC.Inside]))
    exact ⟨fun u v hu => (hout u hu).elim, fun _ => hout⟩

theorem exclusive_reachable (h : (system T).Reachable s) : Exclusive s := by
  apply h.invariant
  · rintro _ rfl
    exact ⟨by simp [PC.Inside], by simp [PC.Inside]⟩
  · intro s t s' hst hs
    exact exclusive_step hst hs

def phases (s : State T) : T → Phase := PC.phase ∘ s.pc

theorem phases_set (t : T) (p : PC) :
    Function.update (phases s) t p.phase = phases (s.set t p) :=
  (Function.comp_update ..).symm

theorem phases_set_of_eq (h : p.phase = (s.pc t).phase) : phases s = phases (s.set t p) := by
  rw [← phases_set, h]
  exact (Function.update_eq_self ..).symm

theorem refines : (system T).Refines observe (Lock.system T) fun s x => x = phases s where
  initial s hs := ⟨_, rfl, by subst hs; rfl⟩
  silent s t s' x _ hst hobs hx := by
    subst hx
    cases hst with
    | enter h | acquire h _ | leave h => simp [observe, h] at hobs
    | fail h | again h | store h => exact phases_set_of_eq (by simp [h, PC.phase])
  shown s t s' x y hs hst hobs hx := by
    subst hx
    cases hst with
    | enter h =>
      obtain rfl : Call.call t = y := by simpa [observe, h] using hobs
      exact ⟨_, .call (by simp [phases, h, PC.phase]), phases_set t .exchange⟩
    | acquire h hw =>
      obtain rfl : Call.acquire t = y := by simpa [observe, h] using hobs
      refine ⟨_, .acquire (by simp [phases, h, PC.phase]) fun u hu => ?_, phases_set t .critical⟩
      refine (exclusive_reachable hs).free hw u ?_
      cases hpc : s.pc u <;> simp [phases, hpc, PC.phase, PC.Inside] at hu ⊢
    | leave h =>
      obtain rfl : Call.release t = y := by simpa [observe, h] using hobs
      exact ⟨_, .release (by simp [phases, h, PC.phase]), phases_set t .store⟩
    | fail h | again h | store h => simp [observe, h] at hobs

/-- The calls and returns of any run are those of a lock. -/
theorem spin_lock_is_lock (h : (system T).Shows observe ⟨0, fun _ => .outside⟩ ys s) :
    ∃ x, (Lock.system T).Trace (fun _ => .idle) ys x := by
  obtain ⟨x, x', rfl, htrace⟩ := refines.trace rfl h
  exact ⟨x', htrace⟩

theorem spin_lock_is_lock_contended : ∃ s : State Bool,
    (system Bool).Shows observe ⟨0, fun _ => .outside⟩
      [.call true, .acquire true, .call false, .release true, .acquire false] s ∧
    ∃ x, (Lock.system Bool).Trace (fun _ => .idle)
      [.call true, .acquire true, .call false, .release true, .acquire false] x := by
  have h : ∃ s : State Bool, (system Bool).Shows observe ⟨0, fun _ => .outside⟩
      [.call true, .acquire true, .call false, .release true, .acquire false] s := by
    refine ⟨_, .shown (.enter (t := true) rfl) rfl (.shown (.acquire (t := true) rfl rfl) rfl
      (.shown (.enter (t := false) rfl) rfl (.silent (.fail (t := false) rfl (by decide)) rfl
      (.shown (.leave (t := true) rfl) rfl (.silent (.store (t := true) rfl) rfl
      (.silent (.again (t := false) rfl) rfl (.shown (.acquire (t := false) rfl rfl) rfl
      .refl)))))))⟩
  obtain ⟨s, hs⟩ := h
  exact ⟨s, hs, spin_lock_is_lock hs⟩

end SystemCalls.SpinLock

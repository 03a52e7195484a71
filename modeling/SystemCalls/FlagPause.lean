import SystemCalls.Transition

/-!
# Waiting for a flag with `pause`

The SIGUSR1 program of the chapter on signals and the SIGCHLD program of the chapter on zombies.
A handler sets a flag, and `main` calls `pause` for as long as it finds the flag clear. Signals
may be raised and delivered between any two steps.
-/

namespace SystemCalls.FlagPause

inductive Program
  | usr1
  | sigchld
  deriving DecidableEq

/-- Where `main` is. -/
inductive PC
  | sigaction
  /-- Between `sigaction` and the loop: the line printed, or the children left to fork. -/
  | setup (left : ℕ)
  /-- At the test of the flag. -/
  | test
  /-- The test has found the flag clear, and `pause` is not yet called. -/
  | enter
  | paused
  /-- `pause` returns -1 with EINTR. -/
  | woken
  /-- Past the loop: at `puts`, or in `reap_children`. -/
  | after
  | done
  deriving DecidableEq

inductive Handler
  | idle
  /-- Called, with the flag still to be set. -/
  | entered
  | returning
  deriving DecidableEq

structure State where
  pc : PC
  installed : Bool
  flag : Bool
  pending : Bool
  handler : Handler
  /-- Children that have not exited. -/
  live : ℕ
  zombies : ℕ

inductive Event
  | main
  | raise
  | childExits
  | deliver
  | handler
  deriving DecidableEq

namespace Program

/-- The steps between `sigaction` and the loop. -/
def setup : Program → ℕ
  | usr1 => 1
  | sigchld => 3

end Program

/-- `main` runs only while the handler does not, and the signal is blocked in its handler. -/
inductive Step (p : Program) : State → Event → State → Prop
  | raise {s : State} : Step p s .raise { s with pending := true }
  | childExits {s : State} {n : ℕ} (h : s.live = n + 1) :
      Step p s .childExits { s with live := n, zombies := s.zombies + 1, pending := true }
  | deliver {s : State} (h : s.pending = true) (hh : s.handler = .idle)
      (hi : s.installed = true) (hd : s.pc ≠ .done) :
      Step p s .deliver
        { s with
          pending := false
          handler := .entered
          pc := if s.pc = .paused then .woken else s.pc }
  -- Before `sigaction`, SIGUSR1 ends the process and SIGCHLD is ignored.
  | deliverDefault {s : State} (h : s.pending = true) (hi : s.installed = false) :
      Step p s .deliver { s with pending := false, pc := if p = .usr1 then .done else s.pc }
  | setFlag {s : State} (hh : s.handler = .entered) :
      Step p s .handler { s with flag := true, handler := .returning }
  | handlerReturn {s : State} (hh : s.handler = .returning) :
      Step p s .handler { s with handler := .idle }
  | sigaction {s : State} (h : s.pc = .sigaction) (hh : s.handler = .idle) :
      Step p s .main { s with installed := true, pc := .setup p.setup }
  | sigactionFails {s : State} (h : s.pc = .sigaction) (hh : s.handler = .idle) :
      Step p s .main { s with pc := .done }
  | print {s : State} {n : ℕ} (h : s.pc = .setup (n + 1)) (hh : s.handler = .idle)
      (hp : p = .usr1) : Step p s .main { s with pc := .setup n }
  | fork {s : State} {n : ℕ} (h : s.pc = .setup (n + 1)) (hh : s.handler = .idle)
      (hp : p = .sigchld) : Step p s .main { s with pc := .setup n, live := s.live + 1 }
  | forkFails {s : State} {n : ℕ} (h : s.pc = .setup (n + 1)) (hh : s.handler = .idle)
      (hp : p = .sigchld) : Step p s .main { s with pc := .done }
  | setupEnds {s : State} (h : s.pc = .setup 0) (hh : s.handler = .idle) :
      Step p s .main { s with pc := .test }
  | test {s : State} (h : s.pc = .test) (hh : s.handler = .idle) :
      Step p s .main { s with pc := if s.flag = true then .after else .enter }
  | pause {s : State} (h : s.pc = .enter) (hh : s.handler = .idle) :
      Step p s .main { s with pc := .paused }
  | again {s : State} (h : s.pc = .woken) (hh : s.handler = .idle) :
      Step p s .main { s with pc := .test }
  | reap {s : State} {n : ℕ} (h : s.pc = .after) (hh : s.handler = .idle) (hp : p = .sigchld)
      (hz : s.zombies = n + 1) : Step p s .main { s with zombies := n }
  | finish {s : State} (h : s.pc = .after) (hh : s.handler = .idle)
      (hz : p = .sigchld → s.zombies = 0) : Step p s .main { s with pc := .done }

def start : State := ⟨.sigaction, false, false, false, .idle, 0, 0⟩

def system (p : Program) : LTS State Event where
  initial s := s = start
  step := Step p

/-- The signal has come, and `main` sleeps as if it had not. -/
def Missed (s : State) : Prop :=
  s.flag = true ∧ s.pending = false ∧ s.pc = .paused

/-- No delivery between a test that found the flag clear and the call of `pause`. -/
def Timely (s : State) (a : Event) : Prop :=
  a = .deliver → s.pc ≠ .enter

/-- Between the test and the return of `pause` the flag is still clear. -/
def Fresh (s : State) : Prop :=
  s.pc = .enter ∨ s.pc = .paused → s.flag = false ∧ s.handler = .idle

variable {p : Program} {s t : State} {a : Event}

theorem fresh_step (h : Step p s a t) (ha : Timely s a) (hs : Fresh s) : Fresh t := by
  intro ht
  cases h with
  | raise | childExits | reap => exact hs ht
  | deliver =>
    have henter : s.pc ≠ .enter := ha rfl
    rcases ht with ht | ht <;> simp only at ht <;> split at ht <;> simp_all
  | deliverDefault =>
    simp only at ht
    split at ht
    · simp at ht
    · exact hs ht
  | setFlag hh | handlerReturn hh =>
    have := (hs ht).2
    simp_all
  | test h hh =>
    simp only at ht
    split at ht
    · simp at ht
    · exact ⟨by simp_all, hh⟩
  | pause h => exact hs (.inl h)
  | sigaction | sigactionFails | print | fork | forkFails | setupEnds | again | finish =>
    simp at ht

/-- In a run in which no signal falls between the test and `pause`, none is missed. -/
theorem signal_not_missed (h : ((system p).restrict Timely).Reachable s) : ¬ Missed s := by
  have hfresh : Fresh s := by
    apply h.invariant (P := Fresh)
    · rintro s₀ rfl
      simp [Fresh, start]
    · rintro s a t ⟨ha, hst⟩ hs
      exact fresh_step hst ha hs
  rintro ⟨hflag, -, hpc⟩
  have := (hfresh (.inr hpc)).1
  simp_all

/-- Up to the first `pause` of the SIGUSR1 program, before it is called. -/
theorem reachable_enter :
    ((system .usr1).restrict Timely).Reachable ⟨.enter, true, false, false, .idle, 0, 0⟩ := by
  have hstart : ((system .usr1).restrict Timely).Reachable start := .of_initial rfl
  have hinstalled := hstart.restrict_step (.sigaction rfl rfl) (by simp [Timely])
  have hprinted := hinstalled.restrict_step (.print rfl rfl rfl) (by simp [Timely])
  have hready := hprinted.restrict_step (.setupEnds rfl rfl) (by simp [Timely])
  exact hready.restrict_step (.test rfl rfl) (by simp [Timely])

/-- The signal comes while `main` sleeps, and wakes it. -/
theorem signal_not_missed_in_pause :
    ∃ s, ((system .usr1).restrict Timely).Reachable s ∧ s.flag = true ∧ s.pc = .woken ∧
      ¬ Missed s := by
  have hpaused := reachable_enter.restrict_step (.pause rfl rfl) (by simp [Timely])
  have hraised := hpaused.restrict_step .raise (by simp [Timely])
  have hcalled := hraised.restrict_step (.deliver rfl rfl rfl (by simp)) (by simp [Timely])
  have hset := hcalled.restrict_step (.setFlag rfl) (by simp [Timely])
  exact ⟨_, hset, rfl, rfl, signal_not_missed hset⟩

theorem missed_usr1 : ∃ s, (system .usr1).Reachable s ∧ Missed s := by
  have hraised := reachable_enter.of_restrict.step .raise
  have hcalled := hraised.step (.deliver rfl rfl rfl (by simp))
  have hreturned := (hcalled.step (.setFlag rfl)).step (.handlerReturn rfl)
  exact ⟨_, hreturned.step (.pause rfl rfl), rfl, rfl, rfl⟩

/-- All three children exit before `main` calls `pause`, and no other SIGCHLD will come. -/
theorem missed_sigchld : ∃ s, (system .sigchld).Reachable s ∧ Missed s ∧ s.live = 0 := by
  have hstart : (system .sigchld).Reachable start := .of_initial rfl
  have hinstalled := hstart.step (.sigaction rfl rfl)
  have hforked := ((hinstalled.step (.fork rfl rfl rfl)).step (.fork rfl rfl rfl)).step
    (.fork rfl rfl rfl)
  have henter : (system .sigchld).Reachable ⟨.enter, true, false, false, .idle, 3, 0⟩ :=
    (hforked.step (.setupEnds rfl rfl)).step (.test rfl rfl)
  have hexited : (system .sigchld).Reachable ⟨.enter, true, false, true, .idle, 0, 3⟩ :=
    ((henter.step (.childExits rfl)).step (.childExits rfl)).step (.childExits rfl)
  have hcalled := hexited.step (.deliver rfl rfl rfl (by simp))
  have hreturned := (hcalled.step (.setFlag rfl)).step (.handlerReturn rfl)
  exact ⟨_, hreturned.step (.pause rfl rfl), ⟨rfl, rfl, rfl⟩, rfl⟩

/-- In both programs the signal can come just before `pause`. -/
theorem signal_missed_before_pause :
    (¬ ∀ s, (system .usr1).Reachable s → ¬ Missed s) ∧
      ¬ ∀ s, (system .sigchld).Reachable s → ¬ Missed s := by
  refine ⟨fun hall => ?_, fun hall => ?_⟩
  · obtain ⟨s, hs, hm⟩ := missed_usr1
    exact hall s hs hm
  · obtain ⟨s, hs, hm, -⟩ := missed_sigchld
    exact hall s hs hm

end SystemCalls.FlagPause

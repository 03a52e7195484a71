import SystemCalls.Transition
import SystemCalls.Children

/-!
# The SIGCHLD handler of signal_demo

A process with `sigchld_handler` installed, its children and the one pending bit of
SIGCHLD. The signal is blocked while the handler runs, so a child that exits then
sets the bit again. A zombie from before the installation stays until SIGCHLD comes,
and the program can leave one: SIGINT interrupts its `wait(NULL)`.
-/

namespace SystemCalls.SignalDemo

/-- Control of `sigchld_handler`; `idle` while it does not run. -/
inductive Handler
  | idle
  /-- Entered, before the `write`. -/
  | write
  /-- The call of `waitpid` in the loop condition. -/
  | waitpid
  /-- The loop has ended: its last `waitpid` returned 0 or -1. -/
  | returning
  deriving DecidableEq

structure State (Pid : Type*) where
  child : Children Pid
  pending : Bool
  handler : Handler

/-- `while (waitpid(-1, NULL, WNOHANG) > 0);` -/
def sigchldHandler {Pid : Type*} : WaitResult Pid → Handler
  | .pid _ => .waitpid
  | .zero | .error => .returning

inductive Event (Pid : Type*)
  | fork (p : Pid)
  | exit (p : Pid)
  | raise
  | deliver
  | write
  | waitpid (r : WaitResult Pid)
  | handlerReturn

variable {Pid : Type*} [DecidableEq Pid]

/-- Main forks only while it runs, that is outside the handler; children exit at any
time. SIGCHLD may also come from elsewhere (`raise`: a stopped child, `kill`). -/
inductive Step : State Pid → Event Pid → State Pid → Prop
  | fork {s : State Pid} {p : Pid} (hh : s.handler = .idle)
      (hp : s.child p = .absent ∨ s.child p = .reaped) :
      Step s (.fork p) { s with child := Function.update s.child p .live }
  | exit {s : State Pid} {p : Pid} (hp : s.child p = .live) :
      Step s (.exit p) { s with child := Function.update s.child p .zombie, pending := true }
  | raise {s : State Pid} : Step s .raise { s with pending := true }
  | deliver {s : State Pid} (hp : s.pending = true) (hh : s.handler = .idle) :
      Step s .deliver { s with pending := false, handler := .write }
  | write {s : State Pid} (hh : s.handler = .write) :
      Step s .write { s with handler := .waitpid }
  | waitpid {s : State Pid} {r : WaitResult Pid} {c : Children Pid}
      (hh : s.handler = .waitpid) (hw : Children.WaitpidNohang s.child r c) :
      Step s (.waitpid r) { s with child := c, handler := sigchldHandler r }
  | handlerReturn {s : State Pid} (hh : s.handler = .returning) :
      Step s .handlerReturn { s with handler := .idle }

/-- From the return of `sigaction` on, with whatever children there are. -/
def system (Pid : Type*) [DecidableEq Pid] : LTS (State Pid) (Event Pid) where
  initial s := s.handler = .idle
  step := Step

/-- SIGCHLD comes. -/
def Event.Raises : Event Pid → Prop
  | .exit _ | .raise => True
  | .fork _ | .deliver | .write | .waitpid _ | .handlerReturn => False

/-! ### Up to `sigaction(SIGCHLD)` -/

/-- Main in `demonstrate_signal_between_processes`. -/
inductive Main
  | fork
  /-- `while (!sigusr1_received) sleep(1);` -/
  | sleep
  /-- `wait(NULL)` -/
  | wait
  /-- Past it, on the way to `demonstrate_sigchld`. -/
  | masking
  deriving DecidableEq

structure Lead (Pid : Type*) where
  main : Main
  child : Children Pid
  sigusr1_received : Bool

inductive LeadEvent (Pid : Type*)
  | fork (p : Pid)
  | kill
  | exit (p : Pid)
  | received
  | reap (p : Pid)
  /-- SIGINT, whose handler was installed without SA_RESTART. -/
  | interrupt

/-- SIGCHLD is ignored, and nobody looks at the result of `wait`. -/
inductive LeadStep : Lead Pid → LeadEvent Pid → Lead Pid → Prop
  | fork {s : Lead Pid} {p : Pid} (h : s.main = .fork) :
      LeadStep s (.fork p)
        { s with main := .sleep, child := Function.update s.child p .live }
  | kill {s : Lead Pid} {p : Pid} (h : s.child p = .live) :
      LeadStep s .kill { s with sigusr1_received := true }
  | exit {s : Lead Pid} {p : Pid} (h : s.child p = .live) :
      LeadStep s (.exit p) { s with child := Function.update s.child p .zombie }
  | received {s : Lead Pid} (h : s.main = .sleep) (hr : s.sigusr1_received = true) :
      LeadStep s .received { s with main := .wait }
  | reap {s : Lead Pid} {p : Pid} (h : s.main = .wait) (hp : s.child p = .zombie) :
      LeadStep s (.reap p)
        { s with main := .masking, child := Function.update s.child p .reaped }
  | interrupt {s : Lead Pid} (h : s.main = .wait) :
      LeadStep s .interrupt { s with main := .masking }

def lead (Pid : Type*) [DecidableEq Pid] : LTS (Lead Pid) (LeadEvent Pid) where
  initial s := s = ⟨.fork, fun _ => .absent, false⟩
  step := LeadStep

/-! ### From then on -/

/-- The handler runs and has not returned from its last `waitpid`. -/
def Reaping (h : Handler) : Prop := h = .write ∨ h = .waitpid

/-- No zombie is forgotten: one exists only while SIGCHLD is pending or the handler
has yet to ask for it. -/
def Noticed (s : State Pid) : Prop :=
  (∃ p, s.child p = .zombie) → s.pending = true ∨ Reaping s.handler

theorem noticed_step {s t : State Pid} {e : Event Pid} (h : Step s e t) (hs : Noticed s) :
    Noticed t := by
  rintro ⟨p, hp⟩
  cases h with
  | @fork q hh hq =>
    have hpq : p ≠ q := by
      rintro rfl
      simp at hp
    exact hs ⟨p, by simpa [hpq] using hp⟩
  | exit | raise => exact Or.inl rfl
  | deliver => exact Or.inr (Or.inl rfl)
  | write => exact Or.inr (Or.inr rfl)
  | @waitpid r c hh hw =>
    cases r with
    | pid q => exact Or.inr (Or.inr rfl)
    | zero | error =>
      -- The call that ended the loop saw no zombie, and no time has passed since.
      obtain ⟨rfl, hz⟩ := hw.no_zombie (by simp)
      exact (hz p hp).elim
  | handlerReturn hh =>
    rcases hs ⟨p, hp⟩ with hpend | hr
    · exact Or.inl hpend
    · simp [Reaping, hh] at hr

/-- A SIGCHLD makes up for what was left from before. -/
theorem noticed_of_raises {s t : State Pid} {e : Event Pid} (h : Step s e t) (he : e.Raises) :
    Noticed t := by
  cases h with
  | exit | raise => exact fun _ => Or.inl rfl
  | fork | deliver | write | waitpid | handlerReturn => exact he.elim

theorem noticed_trace {s t : State Pid} {xs : List (Event Pid)}
    (h : (system Pid).Trace s xs t) (hx : Noticed s ∨ ∃ e ∈ xs, e.Raises) : Noticed t := by
  induction h with
  | refl => simpa using hx
  | stepL hst _ ih =>
    apply ih
    rcases hx with hs | ⟨e, he, hr⟩
    · exact Or.inl (noticed_step hst hs)
    · rcases List.mem_cons.mp he with rfl | he
      · exact Or.inl (noticed_of_raises hst hr)
      · exact Or.inr ⟨e, he, hr⟩

/-- For any children, any order and timing of their exits and any coalescing of the
signal: if no zombie was left when the handler was installed, or once SIGCHLD has come. -/
theorem zombie_noticed {s₀ s : State Pid} {xs : List (Event Pid)}
    (h : (system Pid).Trace s₀ xs s)
    (hx : (∀ p, s₀.child p ≠ .zombie) ∨ ∃ e ∈ xs, e.Raises)
    (hz : ∃ p, s.child p = .zombie) : s.pending = true ∨ Reaping s.handler := by
  refine noticed_trace h (hx.imp_left ?_) hz
  rintro hnone ⟨p, hp⟩
  exact (hnone p hp).elim

/-- One child is a zombie from before, and the other exits: the handler reaps both. -/
theorem zombie_noticed_from_before :
    ∃ s₀ s : State Bool, (system Bool).initial s₀ ∧ s₀.child true = .zombie ∧
      s.child true = .reaped ∧ s.child false = .zombie ∧
      (∃ xs, (system Bool).Trace s₀ xs s) ∧ (s.pending = true ∨ Reaping s.handler) := by
  let c₀ : Children Bool := fun p => if p then .zombie else .live
  let c₁ := Function.update c₀ false .zombie
  let c₂ := Function.update c₁ true .reaped
  have hx : (system Bool).Trace ⟨c₀, false, .idle⟩
      [.exit false, .deliver, .write, .waitpid (.pid true)] ⟨c₂, false, .waitpid⟩ :=
    .stepL (.exit rfl) (.stepL (.deliver rfl rfl) (.stepL (.write rfl)
      (.stepL (.waitpid rfl (.reap rfl)) .refl)))
  have hr : ∃ e ∈ [Event.exit false, .deliver, .write, .waitpid (.pid true)], e.Raises :=
    ⟨_, List.mem_cons_self, trivial⟩
  exact ⟨⟨c₀, false, .idle⟩, _, rfl, rfl, rfl, rfl, ⟨_, hx⟩,
    zombie_noticed hx (Or.inr hr) ⟨false, rfl⟩⟩

/-- The child sends SIGUSR1, SIGINT interrupts `wait(NULL)`, and the child exits before
`sigaction(SIGCHLD)`: it stays a zombie with nothing pending. -/
theorem zombie_unnoticed : ∃ c : Children Unit,
    (∃ u, (lead Unit).Reachable ⟨.masking, c, u⟩) ∧
    ∃ s, (system Unit).Reachable s ∧ s.child = c ∧ s.child () = .zombie ∧
      ¬ (s.pending = true ∨ Reaping s.handler) := by
  let c₀ : Children Unit := fun _ => .absent
  let c₁ := Function.update c₀ () .live
  let c₂ := Function.update c₁ () .zombie
  have hlead : (lead Unit).Reachable ⟨.masking, c₂, true⟩ := by
    refine ⟨⟨.fork, c₀, false⟩, [.fork (), .kill, .received, .interrupt, .exit ()], rfl, ?_⟩
    exact .stepL (.fork rfl) (.stepL (.kill (p := ()) rfl) (.stepL (.received rfl rfl)
      (.stepL (.interrupt rfl) (.stepL (.exit rfl) .refl))))
  exact ⟨c₂, ⟨true, hlead⟩, ⟨c₂, false, .idle⟩, .of_initial rfl, rfl, rfl, by simp [Reaping]⟩

end SystemCalls.SignalDemo

import SystemCalls.Transition

/-!
# `signal_demo`: handlers and the buffer of stdout

A process of `signal_demo`, its `main` with the functions that `main` calls, and on top of it the
handlers that interrupt it and each other. A call that uses the buffer of stdout begins and ends
an update of it, and signals may come in between.
-/

namespace SystemCalls.SignalDemo.Reentry

inductive Signal
  | int
  | usr1
  | chld
  | alrm
  deriving DecidableEq

/-! ### Handlers -/

/-- What the handlers do. -/
inductive Op
  /-- `sigint_count++` -/
  | count
  | write
  /-- `if (sigint_count >= 3)` -/
  | test
  /-- `exit(0)`, which flushes stdout. -/
  | exit
  /-- `sigusr1_received = 1` -/
  | received
  | waitpid
  deriving DecidableEq

def handler : Signal → List Op
  | .int => [.count, .write, .test]
  | .usr1 => [.received, .write]
  | .chld => [.write, .waitpid]
  | .alrm => [.write]

/-! ### The main code -/

inductive Function
  | demonstrate_basic_signal
  | demonstrate_signal_between_processes
  | demonstrate_signal_masking
  | demonstrate_sigchld
  | demonstrate_alarm

inductive Cmd
  | printf
  | fflush
  /-- A call that neither touches stdout's buffer nor has to do with signals. -/
  | call
  | demo (f : Function)
  | sigaction (sig : Signal)
  /-- SIG_BLOCK or SIG_SETMASK on the mask with SIGINT. -/
  | sigprocmask (block : Bool)
  | sigpending
  /-- The head of `for (int i = 0; i < 10 && sigint_count < 3; i++)`. -/
  | forWaiting (i : ℕ)
  /-- `if (sigint_count < 3) printf` -/
  | ifFewer
  /-- `sigint_count = 0` -/
  | reset
  /-- `while (!sigusr1_received) sleep` -/
  | whileNotReceived
  /-- With `child` as what the child does. -/
  | fork (f : Function)
  /-- `exit` or the return of `main`. -/
  | exit

def Cmd.usesStdout : Cmd → Bool
  | printf | fflush | exit => true
  | _ => false

namespace Function

def body : Function → List Cmd
  | demonstrate_basic_signal =>
    [.printf, .call, .sigaction .int, .printf, .printf, .forWaiting 0, .ifFewer]
  | demonstrate_signal_between_processes =>
    [.printf, .call, .sigaction .usr1, .fork demonstrate_signal_between_processes, .printf,
      .whileNotReceived, .printf, .call]
  | demonstrate_signal_masking =>
    [.printf, .call, .printf, .printf, .sigprocmask true] ++
      (List.replicate 5 [.printf, .fflush, .call]).flatten ++
      [.printf, .sigpending, .printf, .printf, .sigprocmask false, .printf, .call]
  | demonstrate_sigchld =>
    [.printf, .call, .sigaction .chld, .printf, .fork demonstrate_sigchld, .printf, .printf] ++
      (List.replicate 4 [.printf, .call]).flatten ++ [.printf]
  | demonstrate_alarm =>
    [.printf, .call, .sigaction .alrm, .printf, .call, .printf] ++
      (List.replicate 5 [.call, .printf]).flatten

def child : Function → List Cmd
  | demonstrate_signal_between_processes => [.printf, .printf, .call, .call, .printf, .exit]
  | demonstrate_sigchld => [.printf, .call, .printf, .exit]
  | _ => []

end Function

def main : List Cmd :=
  [.printf, .printf, .demo .demonstrate_basic_signal, .reset,
    .demo .demonstrate_signal_between_processes, .demo .demonstrate_signal_masking,
    .demo .demonstrate_sigchld, .demo .demonstrate_alarm, .printf, .exit]

/-- After a failure of these the function returns. -/
def Cmd.returnsOnFailure : Cmd → Bool
  | sigaction _ | sigprocmask _ | sigpending => true
  | fork .demonstrate_signal_between_processes => true
  | _ => false

structure State where
  code : List Cmd
  /-- What `main` does when the function has returned. -/
  later : List Cmd
  /-- The main code is between the start and the end of an update of stdout's buffer. -/
  updating : Bool
  /-- The handlers that run, the one called last first. -/
  frames : List (Signal × List Op)
  installed : Signal → Bool
  blocked : Bool
  sigint_count : ℕ
  sigusr1_received : Bool
  ended : Bool

/-- The effect of a command that has not failed and does not use the buffer. -/
def State.exec (s : State) (rest : List Cmd) : Cmd → State
  | .demo f => { s with code := f.body, later := rest }
  | .sigaction sig => { s with code := rest, installed := Function.update s.installed sig true }
  | .sigprocmask block => { s with code := rest, blocked := block }
  | .forWaiting i =>
    if i < 10 ∧ s.sigint_count < 3 then
      { s with code := .printf :: .call :: .forWaiting (i + 1) :: rest }
    else { s with code := rest }
  | .ifFewer => { s with code := if s.sigint_count < 3 then .printf :: rest else rest }
  | .reset => { s with code := rest, sigint_count := 0 }
  | .whileNotReceived =>
    { s with
      code := if s.sigusr1_received = true then rest else .call :: .whileNotReceived :: rest }
  | _ => { s with code := rest }

/-- The main code is at `c`. -/
def State.At (s : State) (c : Cmd) (rest : List Cmd) : Prop :=
  s.ended = false ∧ s.frames = [] ∧ s.code = c :: rest

/-- The handler called last is at `op`. -/
def State.HandlerAt (s : State) (sig : Signal) (op : Op) (ops : List Op)
    (frames : List (Signal × List Op)) : Prop :=
  s.ended = false ∧ s.frames = (sig, op :: ops) :: frames

inductive Event
  | main
  | handler
  | deliver (sig : Signal)
  deriving DecidableEq

inductive Step : State → Event → State → Prop
  | begins {s : State} {c : Cmd} {rest : List Cmd} (h : s.At c rest)
      (hc : c.usesStdout = true) (hu : s.updating = false) :
      Step s .main { s with updating := true }
  | finishes {s : State} {c : Cmd} {rest : List Cmd} (h : s.At c rest)
      (hc : c.usesStdout = true) (hu : s.updating = true) (hx : c ≠ .exit) :
      Step s .main { s with code := rest, updating := false }
  | exits {s : State} {rest : List Cmd} (h : s.At .exit rest) (hu : s.updating = true) :
      Step s .main { s with ended := true }
  | exec {s : State} {c : Cmd} {rest : List Cmd} (h : s.At c rest) (hc : c.usesStdout = false) :
      Step s .main (s.exec rest c)
  | fails {s : State} {c : Cmd} {rest : List Cmd} (h : s.At c rest)
      (hc : c.returnsOnFailure = true) : Step s .main { s with code := [] }
  -- The process goes on as the child.
  | forked {s : State} {f : Function} {rest : List Cmd} (h : s.At (.fork f) rest) :
      Step s .main { s with code := f.child, later := [] }
  | returns {s : State} (he : s.ended = false) (hf : s.frames = []) (h : s.code = []) :
      Step s .main { s with code := s.later, later := [] }
  -- A handler's own signal is blocked while it runs, and `sa_mask` is empty.
  | deliver {s : State} {sig : Signal} (he : s.ended = false) (hi : s.installed sig = true)
      (hf : ∀ ops, (sig, ops) ∉ s.frames) (hb : sig = .int → s.blocked = false) :
      Step s (.deliver sig) { s with frames := (sig, handler sig) :: s.frames }
  | kills {s : State} {sig : Signal} (he : s.ended = false) (hi : s.installed sig = false)
      (hsig : sig ≠ .chld) : Step s (.deliver sig) { s with ended := true }
  | count {s : State} {sig : Signal} {ops : List Op} {frames : List (Signal × List Op)}
      (h : s.HandlerAt sig .count ops frames) :
      Step s .handler
        { s with frames := (sig, ops) :: frames, sigint_count := s.sigint_count + 1 }
  | write {s : State} {sig : Signal} {ops : List Op} {frames : List (Signal × List Op)}
      (h : s.HandlerAt sig .write ops frames) :
      Step s .handler { s with frames := (sig, ops) :: frames }
  | test {s : State} {sig : Signal} {ops : List Op} {frames : List (Signal × List Op)}
      (h : s.HandlerAt sig .test ops frames) :
      Step s .handler
        { s with
          frames := (sig, if 3 ≤ s.sigint_count then .write :: .exit :: ops else ops) :: frames }
  | exit {s : State} {sig : Signal} {ops : List Op} {frames : List (Signal × List Op)}
      (h : s.HandlerAt sig .exit ops frames) : Step s .handler { s with ended := true }
  | received {s : State} {sig : Signal} {ops : List Op} {frames : List (Signal × List Op)}
      (h : s.HandlerAt sig .received ops frames) :
      Step s .handler { s with frames := (sig, ops) :: frames, sigusr1_received := true }
  | reaps {s : State} {sig : Signal} {ops : List Op} {frames : List (Signal × List Op)}
      (h : s.HandlerAt sig .waitpid ops frames) : Step s .handler s
  | waitpid {s : State} {sig : Signal} {ops : List Op} {frames : List (Signal × List Op)}
      (h : s.HandlerAt sig .waitpid ops frames) :
      Step s .handler { s with frames := (sig, ops) :: frames }
  | handlerReturns {s : State} {sig : Signal} {frames : List (Signal × List Op)}
      (he : s.ended = false) (h : s.frames = (sig, []) :: frames) :
      Step s .handler { s with frames := frames }

/-- No handler is installed at first, and SIGINT is not blocked. -/
def start : State :=
  ⟨main, [], false, [], fun _ => false, false, 0, false, false⟩

def system : LTS State Event where
  initial s := s = start
  step := Step

/-- A handler is in `exit` while the main code, or a handler that it has interrupted, is in the
middle of an update. -/
def Reenters (s : State) : Prop :=
  ∃ sig ops frames, s.HandlerAt sig .exit ops frames ∧
    (s.updating = true ∨ ∃ sig ops, (sig, .exit :: ops) ∈ frames)

/-- No SIGINT that will be the third one or a later one comes during an update. -/
def NoThird (s : State) (e : Event) : Prop :=
  e = .deliver .int → s.updating = true → s.sigint_count < 2

variable {s t : State} {e : Event} {sig : Signal} {op : Op} {ops : List Op}
  {frames : List (Signal × List Op)} {n : ℕ}

/-! ### The frames -/

/-- What handlers other than the one of SIGINT do. -/
def Op.Plain (op : Op) : Prop := op ≠ .count ∧ op ≠ .test ∧ op ≠ .exit

/-- A run of the SIGINT handler: it comes to `exit` only if the count is 3 by then, and the count
is never 3 during an update. -/
structure Counted (n : ℕ) (updating : Bool) (ops : List Op) : Prop where
  third : 3 ≤ n + ops.count .count → updating = false
  exit : .exit ∈ ops → 3 ≤ n

/-- Each signal has one frame at most, and no other handler touches the count. -/
structure Disciplined (s : State) : Prop where
  nodup : (s.frames.map Prod.fst).Nodup
  plain : ∀ f ∈ s.frames, f.1 ≠ .int → ∀ op ∈ f.2, op.Plain
  counted : ∀ f ∈ s.frames, f.1 = .int → Counted s.sigint_count s.updating f.2

theorem disciplined_of_nil (h : s.frames = []) : Disciplined s := by
  constructor <;> simp [h]

/-- Only the frame on top changes, and the count with it only in the SIGINT handler. -/
theorem Disciplined.top {ops' : List Op} (hs : Disciplined s)
    (h : s.frames = (sig, ops) :: frames) (ht : t.frames = (sig, ops') :: frames)
    (hu : t.updating = s.updating) (hn : sig ≠ .int → t.sigint_count = s.sigint_count)
    (hplain : sig ≠ .int → ∀ op ∈ ops', op.Plain)
    (hcounted : sig = .int → Counted t.sigint_count t.updating ops') : Disciplined t := by
  obtain ⟨hnodup, hp, hc⟩ := hs
  rw [h] at hnodup hp hc
  refine ⟨by simpa [ht] using hnodup, fun f hf hsig => ?_, fun f hf hsig => ?_⟩
  · rw [ht, List.mem_cons] at hf
    rcases hf with rfl | hf
    · exact hplain hsig
    · exact hp f (List.mem_cons_of_mem _ hf) hsig
  · rw [ht, List.mem_cons] at hf
    rcases hf with rfl | hf
    · exact hcounted hsig
    · -- A lower frame of SIGINT: the one on top is another signal's.
      have hne : sig ≠ .int := by
        rintro rfl
        rw [List.map_cons, List.nodup_cons] at hnodup
        exact hnodup.1 (List.mem_map.mpr ⟨f, hf, hsig⟩)
      rw [hn hne, hu]
      exact hc f (List.mem_cons_of_mem _ hf) hsig

theorem Disciplined.top_plain (hs : Disciplined s) (h : s.frames = (sig, ops) :: frames)
    (hop : op ∈ ops) (hnot : ¬ op.Plain) : sig = .int := by
  by_contra hne
  exact hnot (hs.plain (sig, ops) (by simp [h]) hne op hop)

/-- The operation on top is done, and it was none that counts. -/
theorem Disciplined.pop (hs : Disciplined s) (h : s.frames = (sig, op :: ops) :: frames)
    (ht : t.frames = (sig, ops) :: frames)
    (hsame : t.updating = s.updating ∧ t.sigint_count = s.sigint_count) (hop : op ≠ .count) :
    Disciplined t := by
  refine hs.top h ht hsame.1 (fun _ => hsame.2) (fun hne op hmem => ?_) fun hint => ?_
  · exact hs.plain _ (by rw [h]; exact List.mem_cons_self) hne op (List.mem_cons_of_mem _ hmem)
  · obtain ⟨hthird, hexit⟩ := hs.counted _ (by rw [h]; exact List.mem_cons_self) hint
    rw [hsame.1, hsame.2]
    refine ⟨fun h3 => hthird ?_, fun hx => hexit (List.mem_cons_of_mem _ hx)⟩
    simpa [List.count_cons, hop] using h3

theorem disciplined_deliver (hs : Disciplined s) (hf : ∀ ops, (sig, ops) ∉ s.frames)
    (hc : NoThird s (.deliver sig)) :
    Disciplined { s with frames := (sig, handler sig) :: s.frames } := by
  refine ⟨?_, fun f hmem hne => ?_, fun f hmem hint => ?_⟩
  · rw [List.map_cons, List.nodup_cons]
    refine ⟨fun hmem => ?_, hs.nodup⟩
    obtain ⟨⟨_, ops⟩, hlow, rfl⟩ := List.mem_map.mp hmem
    exact hf ops hlow
  · rcases List.mem_cons.mp hmem with rfl | hmem
    · cases sig <;> simp_all [handler, Op.Plain]
    · exact hs.plain f hmem hne
  · rcases List.mem_cons.mp hmem with rfl | hmem
    · obtain rfl : sig = .int := hint
      refine ⟨fun h3 => ?_, by simp [handler]⟩
      have h3 : 3 ≤ s.sigint_count + 1 := h3
      by_contra hu
      have hlt := hc rfl (by simpa using hu)
      omega
    · exact hs.counted f hmem hint

theorem disciplined_count (hs : Disciplined s) (h : s.frames = (sig, .count :: ops) :: frames) :
    Disciplined
      { s with frames := (sig, ops) :: frames, sigint_count := s.sigint_count + 1 } := by
  have hint : sig = .int := hs.top_plain h List.mem_cons_self (by simp [Op.Plain])
  refine hs.top h rfl rfl (fun hne => (hne hint).elim) (fun hne => (hne hint).elim) fun _ => ?_
  obtain ⟨hthird, hexit⟩ := hs.counted _ (by rw [h]; exact List.mem_cons_self) hint
  refine ⟨fun h3 => hthird ?_, fun hx => ?_⟩
  · rw [List.count_cons_self]
    simp only at h3
    omega
  · have h3 := hexit (List.mem_cons_of_mem _ hx)
    simp only
    omega

theorem disciplined_test (hs : Disciplined s) (h : s.frames = (sig, .test :: ops) :: frames) :
    Disciplined
      { s with
        frames :=
          (sig, if 3 ≤ s.sigint_count then .write :: .exit :: ops else ops) :: frames } := by
  have hint : sig = .int := hs.top_plain h List.mem_cons_self (by simp [Op.Plain])
  refine hs.top h rfl rfl (fun _ => rfl) (fun hne => (hne hint).elim) fun _ => ?_
  obtain ⟨hthird, hexit⟩ := hs.counted _ (by rw [h]; exact List.mem_cons_self) hint
  split
  next h3 => exact ⟨fun _ => hthird (by omega), fun _ => h3⟩
  next => exact ⟨fun h3 => hthird h3, fun hx => hexit (List.mem_cons_of_mem _ hx)⟩

theorem disciplined_step (h : Step s e t) (hc : NoThird s e) (hs : Disciplined s) :
    Disciplined t := by
  cases h with
  | begins h | finishes h | fails h | forked h => exact disciplined_of_nil h.2.1
  | returns _ h => exact disciplined_of_nil h
  | @exec c rest h =>
    apply disciplined_of_nil
    rw [← h.2.1]
    cases c <;> simp only [State.exec]
    split <;> rfl
  | exits | kills | exit => exact ⟨hs.nodup, hs.plain, hs.counted⟩
  | reaps => exact hs
  | deliver _ _ hf => exact disciplined_deliver hs hf hc
  | count h => exact disciplined_count hs h.2
  | write h | received h | waitpid h => exact hs.pop h.2 rfl ⟨rfl, rfl⟩ (by decide)
  | test h => exact disciplined_test hs h.2
  | handlerReturns _ h =>
    obtain ⟨hnodup, hplain, hcounted⟩ := hs
    rw [h] at hnodup hplain hcounted
    exact ⟨hnodup.of_cons, fun f hf => hplain f (List.mem_cons_of_mem _ hf),
      fun f hf => hcounted f (List.mem_cons_of_mem _ hf)⟩

theorem not_reenters_of_disciplined (hs : Disciplined s) : ¬ Reenters s := by
  rintro ⟨sig, ops, frames, ⟨-, h⟩, hbusy⟩
  have hexit : ¬ Op.Plain .exit := by simp [Op.Plain]
  obtain rfl : sig = .int := hs.top_plain h List.mem_cons_self hexit
  obtain ⟨hthird, h3⟩ := hs.counted _ (by rw [h]; exact List.mem_cons_self) rfl
  rcases hbusy with hu | ⟨sig, ops', hmem⟩
  · have hidle := hthird (Nat.le_trans (h3 List.mem_cons_self) (Nat.le_add_right _ _))
    simp [hu] at hidle
  · -- Below is no other frame of SIGINT, and the other handlers do not call `exit`.
    have hnodup := hs.nodup
    rw [h, List.map_cons, List.nodup_cons] at hnodup
    have hne : sig ≠ .int := by
      rintro rfl
      exact hnodup.1 (List.mem_map.mpr ⟨_, hmem, rfl⟩)
    have hlow : (sig, .exit :: ops') ∈ s.frames := by
      rw [h]
      exact List.mem_cons_of_mem _ hmem
    exact hexit (hs.plain _ hlow hne .exit List.mem_cons_self)

/-- In a run in which no SIGINT from the third on comes during an update. -/
theorem not_reenters (h : (system.restrict NoThird).Reachable s) : ¬ Reenters s := by
  apply not_reenters_of_disciplined
  apply h.invariant
  · rintro _ rfl
    exact disciplined_of_nil rfl
  · rintro s e t ⟨hc, hst⟩ hs
    exact disciplined_step hst hc hs

/-! ### The third SIGINT -/

/-- The main code is between two updates, with the handler of SIGINT installed. -/
structure Ready (n : ℕ) (s : State) : Prop where
  ended : s.ended = false
  frames : s.frames = []
  blocked : s.blocked = false
  installed : s.installed .int = true
  updating : s.updating = false
  count : s.sigint_count = n

/-- A system with all steps but those that `NoThird` excludes. -/
def Quiet (L : LTS State Event) : Prop :=
  L.initial start ∧ ∀ s e t, Step s e t → NoThird s e → L.step s e t

theorem quiet_system : Quiet system := ⟨rfl, fun _ _ _ h _ => h⟩

theorem quiet_restrict : Quiet (system.restrict NoThird) := ⟨rfl, fun _ _ _ h hc => ⟨hc, h⟩⟩

variable {L : LTS State Event}

theorem reach_main (hL : Quiet L) (h : L.Reachable s) (hs : Step s .main t) : L.Reachable t :=
  h.step (hL.2 _ _ _ hs nofun)

theorem reach_handler (hL : Quiet L) (h : L.Reachable s) (hs : Step s .handler t) :
    L.Reachable t :=
  h.step (hL.2 _ _ _ hs nofun)

/-- The handler of SIGINT up to its test of the count, during an update or not. -/
theorem reach_test (hL : Quiet L)
    (h : L.Reachable { s with frames := (.int, handler .int) :: s.frames })
    (he : s.ended = false) :
    L.Reachable
      { s with
        frames := (.int, if 3 ≤ s.sigint_count + 1 then [.write, .exit] else []) :: s.frames
        sigint_count := s.sigint_count + 1 } := by
  have h1 := reach_handler hL h (.count ⟨he, rfl⟩)
  have h2 := reach_handler hL h1 (.write ⟨he, rfl⟩)
  exact reach_handler hL h2 (.test ⟨he, rfl⟩)

/-- The first two SIGINTs come and go. -/
theorem reach_counted (hL : Quiet L) (h : L.Reachable s) (hs : Ready n s) (hn : n < 2) :
    ∃ t, L.Reachable t ∧ Ready (n + 1) t ∧ t.code = s.code := by
  obtain ⟨he, hf, hb, hi, hu, rfl⟩ := hs
  have hdelivered := h.step
    (hL.2 _ _ _ (.deliver he hi (by simp [hf]) fun _ => hb) (by simp [NoThird, hu]))
  have htest := reach_test hL hdelivered he
  have hfewer : ¬ 3 ≤ s.sigint_count + 1 := by omega
  simp only [if_neg hfewer] at htest
  have hreturned := reach_handler hL htest (.handlerReturns he rfl)
  exact ⟨_, hreturned, ⟨he, hf, hb, hi, hu, rfl⟩, rfl⟩

/-- The third one comes to `exit`. -/
theorem reach_exit (hL : Quiet L)
    (h : L.Reachable { s with frames := (.int, handler .int) :: s.frames })
    (he : s.ended = false) (hn : 2 ≤ s.sigint_count) :
    ∃ t, L.Reachable t ∧ t.HandlerAt .int .exit [] s.frames ∧ t.updating = s.updating := by
  have htest := reach_test hL h he
  have hthree : 3 ≤ s.sigint_count + 1 := by omega
  simp only [if_pos hthree] at htest
  have hwritten := reach_handler hL htest (.write ⟨he, rfl⟩)
  exact ⟨_, hwritten, ⟨he, rfl⟩, rfl⟩

/-- Wherever it comes in an update, the handler re-enters stdio. -/
theorem exists_reenters (h : system.Reachable s) (he : s.ended = false)
    (hf : ∀ ops, (.int, ops) ∉ s.frames) (hb : s.blocked = false) (hi : s.installed .int = true)
    (hu : s.updating = true) (hn : 2 ≤ s.sigint_count) :
    ∃ t, system.Reachable t ∧ Reenters t := by
  have hdelivered := h.step (.deliver he hi hf fun _ => hb)
  obtain ⟨t, ht, hat, hupdating⟩ := reach_exit quiet_system hdelivered he hn
  exact ⟨t, ht, .int, [], s.frames, hat, .inl (hupdating.trans hu)⟩

/-- Up to the first line printed after `sigaction`. -/
theorem reach_ready (hL : Quiet L) :
    ∃ s rest, L.Reachable s ∧ Ready 0 s ∧ s.code = .printf :: rest := by
  have h0 : L.Reachable start := .of_initial hL.1
  have h1 := reach_main hL h0 (.begins ⟨rfl, rfl, rfl⟩ rfl rfl)
  have h2 := reach_main hL h1 (.finishes ⟨rfl, rfl, rfl⟩ rfl rfl nofun)
  have h3 := reach_main hL h2 (.begins ⟨rfl, rfl, rfl⟩ rfl rfl)
  have h4 := reach_main hL h3 (.finishes ⟨rfl, rfl, rfl⟩ rfl rfl nofun)
  have h5 := reach_main hL h4 (.exec ⟨rfl, rfl, rfl⟩ rfl)
  have h6 := reach_main hL h5 (.begins ⟨rfl, rfl, rfl⟩ rfl rfl)
  have h7 := reach_main hL h6 (.finishes ⟨rfl, rfl, rfl⟩ rfl rfl nofun)
  have h8 := reach_main hL h7 (.exec ⟨rfl, rfl, rfl⟩ rfl)
  have h9 := reach_main hL h8 (.exec ⟨rfl, rfl, rfl⟩ rfl)
  exact ⟨_, _, h9, ⟨rfl, rfl, rfl, rfl, rfl, rfl⟩, rfl⟩

theorem reach_twice (hL : Quiet L) :
    ∃ s rest, L.Reachable s ∧ Ready 2 s ∧ s.code = .printf :: rest := by
  obtain ⟨s, rest, hs, hready, hcode⟩ := reach_ready hL
  obtain ⟨t, ht, hready, htcode⟩ := reach_counted hL hs hready (by decide)
  obtain ⟨u, hu, hready, hucode⟩ := reach_counted hL ht hready (by decide)
  exact ⟨u, rest, hu, hready, by rw [hucode, htcode, hcode]⟩

/-- The third one comes between two lines. -/
theorem not_reenters_between_lines : ∃ s, (system.restrict NoThird).Reachable s ∧
    s.HandlerAt .int .exit [] [] ∧ ¬ Reenters s := by
  have hL := quiet_restrict
  obtain ⟨s, rest, hs, ⟨he, hf, hb, hi, hu, hn⟩, -⟩ := reach_twice hL
  have hdelivered := hs.step
    (hL.2 _ _ _ (.deliver he hi (by simp [hf]) fun _ => hb) (by simp [NoThird, hu]))
  obtain ⟨t, ht, hat, -⟩ := reach_exit hL hdelivered he (Nat.le_of_eq hn.symm)
  exact ⟨t, ht, hf ▸ hat, not_reenters ht⟩

/-- The third one comes while `printf` updates the buffer. -/
theorem exit_during_printf : ¬ ∀ s, system.Reachable s → ¬ Reenters s := by
  intro hall
  obtain ⟨s, rest, hs, ⟨he, hf, hb, hi, hu, hn⟩, hcode⟩ := reach_twice quiet_system
  have hbegun := hs.step (.begins ⟨he, hf, hcode⟩ rfl hu)
  obtain ⟨t, ht, hr⟩ :=
    exists_reenters hbegun he (by simp [hf]) hb hi rfl (Nat.le_of_eq hn.symm)
  exact hall t ht hr

end SystemCalls.SignalDemo.Reentry

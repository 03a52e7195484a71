import Mathlib.Data.Finset.Card
import SystemCalls.Children
import SystemCalls.FlagPause

/-!
# The SIGCHLD program and its children

The program of 1.4.6 once more, for `n` children and with each child's state. `FlagPause` models
the same program with numbers of children; `counts_reachable` connects the two.
-/

namespace SystemCalls.ReapChildren

open FlagPause (Handler)

/-- Where `main` is. -/
inductive PC
  | sigaction
  /-- At the test of the loop that forks. -/
  | fork (i : ℕ)
  | test
  | enter
  | paused
  | woken
  /-- At `waitpid` in `reap_children`. -/
  | reap
  | returned
  /-- By `exit(1)`. -/
  | exited
  deriving DecidableEq

structure State where
  pc : PC
  installed : Bool
  got_sigchld : Bool
  pending : Bool
  handler : Handler
  /-- The `i`-th call of `fork` makes child `i`. -/
  children : Children ℕ

inductive Event
  | main
  /-- SIGCHLD from elsewhere. -/
  | raise
  | exit (i : ℕ)
  | deliver
  | handler
  deriving DecidableEq

/-- Only a pid makes `reap_children` call `waitpid` again. -/
def PC.afterWaitpid : WaitResult ℕ → PC
  | .pid _ => reap
  | .zero | .error => returned

inductive Step (n : ℕ) : State → Event → State → Prop
  | raise {s : State} : Step n s .raise { s with pending := true }
  | exit {s : State} {i : ℕ} (h : s.children i = .live) :
      Step n s (.exit i)
        { s with children := Function.update s.children i .zombie, pending := true }
  | deliver {s : State} (h : s.pending = true) (hh : s.handler = .idle)
      (hi : s.installed = true) (hp : s.pc ≠ .returned ∧ s.pc ≠ .exited) :
      Step n s .deliver
        { s with
          pending := false
          handler := .entered
          pc := if s.pc = .paused then .woken else s.pc }
  | ignore {s : State} (h : s.pending = true) (hi : s.installed = false) :
      Step n s .deliver { s with pending := false }
  | setFlag {s : State} (hh : s.handler = .entered) :
      Step n s .handler { s with got_sigchld := true, handler := .returning }
  | handlerReturn {s : State} (hh : s.handler = .returning) :
      Step n s .handler { s with handler := .idle }
  | sigaction {s : State} (h : s.pc = .sigaction) (hh : s.handler = .idle) :
      Step n s .main { s with installed := true, pc := .fork 0 }
  | sigactionFails {s : State} (h : s.pc = .sigaction) (hh : s.handler = .idle) :
      Step n s .main { s with pc := .exited }
  | fork {s : State} {i : ℕ} (h : s.pc = .fork i) (hh : s.handler = .idle) (hi : i < n) :
      Step n s .main
        { s with pc := .fork (i + 1), children := Function.update s.children i .live }
  | forkFails {s : State} {i : ℕ} (h : s.pc = .fork i) (hh : s.handler = .idle) (hi : i < n) :
      Step n s .main { s with pc := .exited }
  | forked {s : State} {i : ℕ} (h : s.pc = .fork i) (hh : s.handler = .idle) (hi : ¬ i < n) :
      Step n s .main { s with pc := .test }
  | test {s : State} (h : s.pc = .test) (hh : s.handler = .idle) :
      Step n s .main { s with pc := if s.got_sigchld = true then .reap else .enter }
  | pause {s : State} (h : s.pc = .enter) (hh : s.handler = .idle) :
      Step n s .main { s with pc := .paused }
  | again {s : State} (h : s.pc = .woken) (hh : s.handler = .idle) :
      Step n s .main { s with pc := .test }
  | waitpid {s : State} {r : WaitResult ℕ} {c : Children ℕ} (h : s.pc = .reap)
      (hh : s.handler = .idle) (hw : s.children.WaitpidNohang r c) :
      Step n s .main { s with pc := .afterWaitpid r, children := c }

def start : State := ⟨.sigaction, false, false, false, .idle, fun _ => .absent⟩

def system (n : ℕ) : LTS State Event where
  initial s := s = start
  step := Step n

/-- Where `main` calls `waitpid`, a child has exited or none is left that will. -/
def NotTooEarly (s : State) (e : Event) : Prop :=
  e = .main → s.pc = .reap → (∃ i, s.children i = .zombie) ∨ ∀ i, s.children i ≠ .live

/-! ### The children at each point -/

/-- The calls of `fork` made so far. -/
def PC.forks (n : ℕ) : PC → ℕ
  | .sigaction | .exited => 0
  | .fork i => i
  | _ => n

variable {n : ℕ} {s s' : State} {e : Event}

/-- The kernel knows just the children that have been forked. -/
structure Started (n : ℕ) (s : State) : Prop where
  le : s.pc.forks n ≤ n
  absent_of_le : ∀ i, n ≤ i → s.children i = .absent
  absent_iff : s.pc ≠ .exited → ∀ i, s.children i = .absent ↔ s.pc.forks n ≤ i

theorem update_absent_iff {c : Children ℕ} {i : ℕ} {x : Child} (h : c i ≠ .absent)
    (hx : x ≠ .absent) (j : ℕ) : Function.update c i x j = .absent ↔ c j = .absent := by
  by_cases hj : j = i
  · subst hj
    simp [h, hx]
  · simp [hj]

/-- Everything but `fork` keeps the number of children and the ones that are known. -/
theorem Started.of_forks (hs : Started n s) (hf : s'.pc.forks n = s.pc.forks n)
    (hx : s'.pc ≠ .exited → s.pc ≠ .exited)
    (hc : ∀ i, s'.children i = .absent ↔ s.children i = .absent) : Started n s' where
  le := hf ▸ hs.le
  absent_of_le i hi := (hc i).mpr (hs.absent_of_le i hi)
  absent_iff h i := by rw [hc, hf, hs.absent_iff (hx h)]

theorem started_step (h : Step n s e s') (hs : Started n s) : Started n s' := by
  cases h with
  | raise | ignore | setFlag | handlerReturn => exact ⟨hs.le, hs.absent_of_le, hs.absent_iff⟩
  | @exit i h =>
    exact hs.of_forks rfl id (update_absent_iff (by simp [h]) (by decide))
  | deliver _ _ _ hp =>
    refine hs.of_forks ?_ (fun _ => hp.2) fun i => Iff.rfl
    simp only
    split
    next hpc => rw [hpc]; rfl
    next => rfl
  | sigaction h => exact hs.of_forks (by rw [h]; rfl) (fun _ => by simp [h]) fun i => Iff.rfl
  | sigactionFails | forkFails => exact ⟨Nat.zero_le n, hs.absent_of_le, fun h => (h rfl).elim⟩
  | @fork i h hh hi =>
    have habsent := hs.absent_iff (by simp [h])
    rw [h] at habsent
    refine ⟨hi, fun j hj => ?_, fun _ j => ?_⟩
    · simpa [(Nat.lt_of_lt_of_le hi hj).ne'] using hs.absent_of_le j hj
    · by_cases hj : j = i
      · simp [hj, PC.forks]
      · simp only [PC.forks, Function.update_of_ne hj, habsent j]
        omega
  | @forked i h hh hi =>
    have hle := hs.le
    rw [h] at hle
    have hn : n = i := Nat.le_antisymm (Nat.le_of_not_lt hi) hle
    exact hs.of_forks (by rw [h]; exact hn) (fun _ => by simp [h]) fun i => Iff.rfl
  | test h hh =>
    refine hs.of_forks ?_ (fun _ => by simp [h]) fun i => Iff.rfl
    rw [h]
    simp only
    split <;> rfl
  | pause h | again h => exact hs.of_forks (by rw [h]; rfl) (fun _ => by simp [h]) fun i => Iff.rfl
  | @waitpid r c h hh hw =>
    refine hs.of_forks ?_ (fun _ => by simp [h]) ?_
    · rw [h]
      cases r <;> rfl
    · cases hw with
      | reap hz => exact update_absent_iff (by simp [hz]) (by decide)
      | live | none => exact fun i => Iff.rfl

theorem started_start (n : ℕ) : Started n start :=
  ⟨Nat.zero_le n, fun _ _ => rfl, fun _ i => by simp [start, PC.forks]⟩

theorem started_reachable (h : (system n).Reachable s) : Started n s := by
  apply h.invariant (P := Started n)
  · rintro s₀ rfl
    exact started_start n
  · intro s e s' hs hstarted
    exact started_step hs hstarted

/-! ### When `main` returns -/

/-- The children of a `main` that has returned. -/
def AllReaped (n : ℕ) (s : State) : Prop :=
  s.pc = .returned → ∀ i < n, s.children i = .reaped

theorem allReaped_step (h : Step n s e s') (hc : NotTooEarly s e) (hs : Started n s)
    (hr : AllReaped n s) : AllReaped n s' := by
  cases h with
  | raise | ignore | setFlag | handlerReturn => exact hr
  | @exit i h =>
    intro hret j hj
    have hreaped := hr hret j hj
    by_cases he : j = i
    · subst he
      simp [h] at hreaped
    · simpa [he] using hreaped
  | deliver h hh hi hp =>
    intro hret
    simp only at hret
    split at hret
    · cases hret
    · exact (hp.1 hret).elim
  | sigaction | sigactionFails | fork | forkFails | forked | pause | again =>
    intro hret
    cases hret
  | test =>
    intro hret
    simp only at hret
    split at hret <;> cases hret
  | @waitpid r c h hh hw =>
    intro hret j hj
    have hforked : ∀ j < n, s.children j ≠ .absent := fun j hj habsent => by
      have hle := (hs.absent_iff (by simp [h]) j).mp habsent
      rw [h] at hle
      exact Nat.not_le.mpr hj hle
    cases hw with
    | reap => cases hret
    | live hz hl =>
      obtain ⟨k, hk⟩ := hl
      rcases hc rfl h with ⟨i, hi⟩ | hnone
      · exact (hz i hi).elim
      · exact (hnone k hk).elim
    | none hz hl =>
      cases hx : s.children j with
      | absent => exact (hforked j hj hx).elim
      | live => exact (hl j hx).elim
      | zombie => exact (hz j hx).elim
      | reaped => rfl

/-- In a run in which `main` never calls `waitpid` between two exits. -/
theorem reaped_of_returned (h : ((system n).restrict NotTooEarly).Reachable s)
    (hret : s.pc = .returned) : ∀ i < n, s.children i = .reaped := by
  have hall : AllReaped n s := by
    apply h.invariant_of_reachable
    · rintro s₀ rfl hret
      cases hret
    · rintro s e s' hreach ⟨hc, hs⟩ hr
      exact allReaped_step hs hc (started_reachable hreach.of_restrict) hr
  exact hall hret

/-- All three exit before `main` looks, and one signal stands for them. -/
theorem reaped_of_returned_together : ∃ s, ((system 3).restrict NotTooEarly).Reachable s ∧
    s.pc = .returned ∧ ∀ i < 3, s.children i = .reaped := by
  have h0 : ((system 3).restrict NotTooEarly).Reachable start := .of_initial rfl
  have h1 := h0.restrict_step (.sigaction rfl rfl) (by simp [NotTooEarly, start])
  have h2 := h1.restrict_step (.fork (i := 0) rfl rfl (by decide)) (by simp [NotTooEarly])
  have h3 := h2.restrict_step (.fork (i := 1) rfl rfl (by decide)) (by simp [NotTooEarly])
  have h4 := h3.restrict_step (.fork (i := 2) rfl rfl (by decide)) (by simp [NotTooEarly])
  have h5 := h4.restrict_step (.forked rfl rfl (by decide)) (by simp [NotTooEarly])
  have h6 := h5.restrict_step (.exit (i := 0) rfl) (by simp [NotTooEarly])
  have h7 := h6.restrict_step (.exit (i := 1) rfl) (by simp [NotTooEarly])
  have h8 := h7.restrict_step (.exit (i := 2) rfl) (by simp [NotTooEarly])
  have h9 := h8.restrict_step (.deliver rfl rfl rfl (by simp)) (by simp [NotTooEarly])
  have h10 := h9.restrict_step (.setFlag rfl) (by simp [NotTooEarly])
  have h11 := h10.restrict_step (.handlerReturn rfl) (by simp [NotTooEarly])
  have h12 := h11.restrict_step (.test rfl rfl) (by simp [NotTooEarly])
  have h13 := h12.restrict_step (.waitpid rfl rfl (.reap (p := 0) rfl))
    fun _ _ => .inl ⟨0, rfl⟩
  have h14 := h13.restrict_step (.waitpid rfl rfl (.reap (p := 1) rfl))
    fun _ _ => .inl ⟨1, rfl⟩
  have h15 := h14.restrict_step (.waitpid rfl rfl (.reap (p := 2) rfl))
    fun _ _ => .inl ⟨2, rfl⟩
  have h16 := h15.restrict_step
    (.waitpid rfl rfl (.none (by rintro (_ | _ | _ | i) <;> simp [start])
      (by rintro (_ | _ | _ | i) <;> simp [start])))
    fun _ _ => .inr (by rintro (_ | _ | _ | i) <;> simp [start])
  exact ⟨_, h16, rfl, reaped_of_returned h16 rfl⟩

/-- With a live child and no zombie `main` returns too early. -/
theorem returns_of_live {i : ℕ} (hp : s.pc = .reap) (hh : s.handler = .idle)
    (hz : ∀ i, s.children i ≠ .zombie) (hl : s.children i = .live) :
    Step n s .main { s with pc := .returned } :=
  .waitpid hp hh (.live hz ⟨i, hl⟩)

/-- The first signal comes while the other two children run. -/
theorem live_of_returned : ¬ ∀ s, (system 3).Reachable s → s.pc = .returned →
    ∀ i < 3, s.children i = .reaped := by
  intro hall
  have h0 : (system 3).Reachable start := .of_initial rfl
  have h1 := h0.step (.sigaction rfl rfl)
  have h2 := h1.step (.fork (i := 0) rfl rfl (by decide))
  have h3 := h2.step (.fork (i := 1) rfl rfl (by decide))
  have h4 := h3.step (.fork (i := 2) rfl rfl (by decide))
  have h5 := h4.step (.forked rfl rfl (by decide))
  have h6 := h5.step (.exit (i := 0) rfl)
  have h7 := h6.step (.deliver rfl rfl rfl (by simp))
  have h8 := (h7.step (.setFlag rfl)).step (.handlerReturn rfl)
  have h9 := h8.step (.test rfl rfl)
  have h10 := h9.step (.waitpid rfl rfl (.reap (p := 0) rfl))
  have h11 := h10.step (returns_of_live (i := 1) rfl rfl
    (by rintro (_ | _ | _ | i) <;> simp [start]) rfl)
  cases hall _ h11 rfl 1 (by decide)

/-! ### The numbers of children -/

def count (n : ℕ) (c : Children ℕ) (x : Child) : ℕ :=
  ((Finset.range n).filter fun i => c i = x).card

variable {c : Children ℕ} {x y : Child} {i : ℕ}

theorem count_update_new (hi : i < n) (hx : c i ≠ x) :
    count n (Function.update c i x) x = count n c x + 1 := by
  have hinsert : (Finset.range n).filter (fun j => Function.update c i x j = x) =
      insert i ((Finset.range n).filter fun j => c j = x) := by
    ext j
    by_cases hj : j = i <;> simp [hj, hi]
  rw [count, hinsert, Finset.card_insert_of_notMem (by simp [hx]), count]

theorem count_update_other (hx : c i ≠ x) (hy : y ≠ x) :
    count n (Function.update c i y) x = count n c x := by
  have hfilter : (Finset.range n).filter (fun j => Function.update c i y j = x) =
      (Finset.range n).filter fun j => c j = x := by
    ext j
    by_cases hj : j = i <;> simp [hj, hx, hy]
  rw [count, hfilter, count]

theorem count_update_old (hi : i < n) (hx : c i = x) (hy : y ≠ x) :
    count n c x = count n (Function.update c i y) x + 1 := by
  have hback : Function.update (Function.update c i y) i x = c := by
    rw [Function.update_idem, ← hx, Function.update_eq_self]
  rw [← count_update_new hi (c := Function.update c i y) (by simpa using hy), hback]

theorem count_eq_zero (h : ∀ i, c i ≠ x) : count n c x = 0 := by
  simp [count, h]

def PC.flagPause : PC → FlagPause.PC
  | .sigaction => .sigaction
  | .fork i => .setup (3 - i)
  | .test => .test
  | .enter => .enter
  | .paused => .paused
  | .woken => .woken
  | .reap => .after
  | .returned | .exited => .done

/-- The state without the children's names. -/
def State.counts (s : State) : FlagPause.State where
  pc := s.pc.flagPause
  installed := s.installed
  flag := s.got_sigchld
  pending := s.pending
  handler := s.handler
  live := count 3 s.children .live
  zombies := count 3 s.children .zombie

def Event.flagPause : Event → FlagPause.Event
  | main => .main
  | raise => .raise
  | exit _ => .childExits
  | deliver => .deliver
  | handler => .handler

theorem flagPause_woken (pc : PC) : (if pc = .paused then .woken else pc : PC).flagPause =
    if pc.flagPause = .paused then .woken else pc.flagPause := by
  cases pc <;> rfl

theorem Started.lt (hs : Started n s) (h : s.children i ≠ .absent) : i < n := by
  by_contra hi
  exact h (hs.absent_of_le i (Nat.le_of_not_lt hi))

theorem flagPause_eq_done {pc : PC} (h : pc.flagPause = .done) : pc = .returned ∨ pc = .exited := by
  cases pc <;> simp_all [PC.flagPause]

theorem counts_pc_fork (h : s.pc = .fork i) (hi : i < 3) :
    s.counts.pc = .setup (3 - (i + 1) + 1) := by
  have hleft : 3 - (i + 1) + 1 = 3 - i := by omega
  rw [hleft]
  exact congrArg PC.flagPause h

/-- One step here is one step there. -/
theorem counts_step (h : Step 3 s e s') (hs : Started 3 s) :
    FlagPause.Step .sigchld s.counts e.flagPause s'.counts := by
  cases h with
  | raise => exact .raise
  | @exit i h =>
    have hi : i < 3 := hs.lt (by simp [h])
    have hlive := count_update_old (y := .zombie) hi h (by decide)
    have hzombie := count_update_new (c := s.children) (x := .zombie) hi (by simp [h])
    have hstep := FlagPause.Step.childExits (p := .sigchld) (s := s.counts) hlive
    simpa only [State.counts, Event.flagPause, hzombie] using hstep
  | deliver h hh hi hp =>
    have hdone : s.counts.pc ≠ .done := fun hd => (flagPause_eq_done hd).elim hp.1 hp.2
    simp only [State.counts, flagPause_woken]
    exact .deliver (s := s.counts) h hh hi hdone
  | ignore h hi => exact .deliverDefault h hi
  | setFlag hh => exact .setFlag hh
  | handlerReturn hh => exact .handlerReturn hh
  | sigaction h hh => exact .sigaction (congrArg PC.flagPause h) hh
  | sigactionFails h hh => exact .sigactionFails (congrArg PC.flagPause h) hh
  | @fork i h hh hi =>
    have hpc := counts_pc_fork h hi
    have habsent : s.children i = .absent :=
      (hs.absent_iff (by simp [h]) i).mpr (by rw [h]; exact Nat.le_refl i)
    have hlive := count_update_new (c := s.children) (x := .live) hi (by simp [habsent])
    have hzombie := count_update_other (n := 3) (y := .live) (x := .zombie)
      (c := s.children) (i := i) (by simp [habsent]) (by decide)
    have hstep := FlagPause.Step.fork hpc hh rfl
    simpa only [State.counts, Event.flagPause, PC.flagPause, hlive, hzombie] using hstep
  | forkFails h hh hi => exact .forkFails (counts_pc_fork h hi) hh rfl
  | @forked i h hh hi =>
    have hpc : s.counts.pc = .setup 0 := by
      have hleft : 0 = 3 - i := by omega
      rw [hleft]
      exact congrArg PC.flagPause h
    exact .setupEnds hpc hh
  | test h hh =>
    have hpc : (if s.got_sigchld = true then PC.reap else .enter).flagPause =
        if s.counts.flag = true then .after else .enter := by
      cases hflag : s.got_sigchld <;> simp [State.counts, hflag, PC.flagPause]
    simp only [State.counts, hpc]
    exact .test (s := s.counts) (congrArg PC.flagPause h) hh
  | pause h hh => exact .pause (congrArg PC.flagPause h) hh
  | again h hh => exact .again (congrArg PC.flagPause h) hh
  | @waitpid r c h hh hw =>
    have hpc : s.counts.pc = .after := congrArg PC.flagPause h
    cases hw with
    | @reap j hj =>
      have hzombie := count_update_old (y := .reaped) (hs.lt (by simp [hj])) hj (by decide)
      have hlive := count_update_other (n := 3) (y := .reaped) (x := .live)
        (c := s.children) (i := j) (by simp [hj]) (by decide)
      have hstep := FlagPause.Step.reap hpc hh rfl hzombie
      have hagain : (PC.afterWaitpid (.pid j)).flagPause = s.counts.pc := hpc.symm
      simp only [State.counts, hagain, hlive]
      exact hstep
    | live hz => exact .finish hpc hh fun _ => count_eq_zero hz
    | none hz => exact .finish hpc hh fun _ => count_eq_zero hz

theorem counts_reachable (h : (system 3).Reachable s) :
    (FlagPause.system .sigchld).Reachable s.counts := by
  apply h.invariant_of_reachable
  · rintro s₀ rfl
    have hcount : start.counts = FlagPause.start := by
      simp [State.counts, start, FlagPause.start, PC.flagPause, count]
    exact .of_initial hcount
  · intro s e s' hreach hs hcounts
    exact hcounts.step (counts_step hs (started_reachable hreach))

end SystemCalls.ReapChildren

import SystemCalls.Counting
import SystemCalls.Locks.Spin

/-!
# The counter behind a lock

The program of 5.3.4: `NUM_THREADS` threads increment `counter` `INCREMENTS` times each, `check`
ends the process when a pthread function fails, and `main` compares the sum. The mutex is any
system that behaves as a lock.
-/

namespace SystemCalls.Counter

open Lock (Call Phase)

/-- `i` is the loop variable of `incrementer`, and `v` the value that the thread has loaded. -/
inductive PC
  | absent
  | loop (i : ℕ)
  /-- In `pthread_mutex_lock`. -/
  | lock (i : ℕ)
  | load (i : ℕ)
  | store (i : ℕ) (v : ℤ)
  /-- At `pthread_mutex_unlock`. -/
  | unlock (i : ℕ)
  | returned

inductive Main
  | create (i : ℕ)
  | join (i : ℕ)
  | print
  | exited (status : ℕ)

/-- What `main` prints: `counter`, `expected`, and whether it says OK. -/
structure Line where
  counter : ℤ
  expected : ℤ
  ok : Bool

structure State (k : ℕ) where
  main : Main
  thread : Fin k → PC
  counter : ℤ
  out : Option Line

inductive Own (k : ℕ)
  | main
  | thread (t : Fin k)
  /-- A pthread function fails, in `main` or in a thread. -/
  | mainFails
  | threadFails (t : Fin k)

/-- A `long`. -/
def long (v : ℤ) : ℤ := v.bmod (2 ^ 64)

variable {k rounds : ℕ}

def State.set (s : State k) (t : Fin k) (p : PC) : State k :=
  { s with thread := Function.update s.thread t p }

def expected (k rounds : ℕ) : ℤ := long (k * rounds)

/-- Until `exit`, each thread runs on. -/
def State.Running (s : State k) : Prop := ∀ r, s.main ≠ .exited r

inductive Step (rounds : ℕ) : State k → Call (Fin k) ⊕ Own k → State k → Prop
  | call {s : State k} {t : Fin k} {i : ℕ} (hr : s.Running) (h : s.thread t = .loop i)
      (hi : i < rounds) : Step rounds s (.inl (.call t)) (s.set t (.lock i))
  | leave {s : State k} {t : Fin k} {i : ℕ} (hr : s.Running) (h : s.thread t = .loop i)
      (hi : ¬ i < rounds) : Step rounds s (.inr (.thread t)) (s.set t .returned)
  | acquire {s : State k} {t : Fin k} {i : ℕ} (hr : s.Running) (h : s.thread t = .lock i) :
      Step rounds s (.inl (.acquire t)) (s.set t (.load i))
  | load {s : State k} {t : Fin k} {i : ℕ} (hr : s.Running) (h : s.thread t = .load i) :
      Step rounds s (.inr (.thread t)) (s.set t (.store i s.counter))
  | store {s : State k} {t : Fin k} {i : ℕ} {v : ℤ} (hr : s.Running)
      (h : s.thread t = .store i v) :
      Step rounds s (.inr (.thread t)) { s.set t (.unlock i) with counter := long (v + 1) }
  | release {s : State k} {t : Fin k} {i : ℕ} (hr : s.Running) (h : s.thread t = .unlock i) :
      Step rounds s (.inl (.release t)) (s.set t (.loop (i + 1)))
  | lockFails {s : State k} {t : Fin k} {i : ℕ} (hr : s.Running) (h : s.thread t = .lock i) :
      Step rounds s (.inr (.threadFails t)) { s with main := .exited 1 }
  | unlockFails {s : State k} {t : Fin k} {i : ℕ} (hr : s.Running)
      (h : s.thread t = .unlock i) :
      Step rounds s (.inr (.threadFails t)) { s with main := .exited 1 }
  | create {s : State k} {i : ℕ} (h : s.main = .create i) (hi : i < k) :
      Step rounds s (.inr .main) { s.set ⟨i, hi⟩ (.loop 0) with main := .create (i + 1) }
  | createFails {s : State k} {i : ℕ} (h : s.main = .create i) (hi : i < k) :
      Step rounds s (.inr .mainFails) { s with main := .exited 1 }
  | created {s : State k} {i : ℕ} (h : s.main = .create i) (hi : ¬ i < k) :
      Step rounds s (.inr .main) { s with main := .join 0 }
  | join {s : State k} {i : ℕ} (h : s.main = .join i) (hi : i < k)
      (hret : s.thread ⟨i, hi⟩ = .returned) :
      Step rounds s (.inr .main) { s with main := .join (i + 1) }
  | joinFails {s : State k} {i : ℕ} (h : s.main = .join i) (hi : i < k) :
      Step rounds s (.inr .mainFails) { s with main := .exited 1 }
  | joined {s : State k} {i : ℕ} (h : s.main = .join i) (hi : ¬ i < k) :
      Step rounds s (.inr .main) { s with main := .print }
  | print {s : State k} (h : s.main = .print) :
      Step rounds s (.inr .main) { s with
        out := some ⟨s.counter, expected k rounds, s.counter = expected k rounds⟩
        main := .exited (if s.counter = expected k rounds then 0 else 1) }

/-- The program without its mutex. -/
def program (k rounds : ℕ) : LTS (State k) (Call (Fin k) ⊕ Own k) where
  initial s := s = ⟨.create 0, fun _ => .absent, 0, none⟩
  step := Step rounds

/-- Where the mutex has each thread. -/
def PC.phase : PC → Phase
  | absent | loop _ | returned => .idle
  | lock _ => .waiting
  | load _ | store .. | unlock _ => .holding

/-- The increments that the thread has completed. -/
def PC.completed (rounds : ℕ) : PC → ℕ
  | absent => 0
  | loop i | lock i | load i | store i _ => i
  | unlock i => i + 1
  | returned => rounds

def PC.InRange (rounds : ℕ) : PC → Prop
  | loop i => i ≤ rounds
  | lock i | load i | store i _ | unlock i => i < rounds
  | absent | returned => True

def PC.Loaded (counter : ℤ) : PC → Prop
  | store _ v => v = counter
  | absent | loop _ | lock _ | load _ | unlock _ | returned => True

/-- The threads that are still to be created are absent, and those joined have returned. -/
def Main.Knows : Main → (Fin k → PC) → Prop
  | create i, thread => ∀ t, i ≤ t.val → thread t = .absent
  | join i, thread => ∀ t, t.val < i → thread t = .returned
  | print, thread => ∀ t, thread t = .returned
  | exited _, _ => True

/-- The line with which all is well. -/
def okLine (k rounds : ℕ) : Line := ⟨expected k rounds, expected k rounds, true⟩

/-- There is no line before the end, and no end with RACE. -/
def Main.Printed (k rounds : ℕ) : Main → Option Line → Prop
  | exited r, out => r = 0 ∧ out = some (okLine k rounds) ∨ r = 1 ∧ out = none
  | create _, out | join _, out | print, out => out = none

/-- The counter is the number of increments completed, and whoever has loaded it holds the
lock. -/
structure Exact (rounds : ℕ) (x : Fin k → Phase) (s : State k) : Prop where
  phase : x = PC.phase ∘ s.thread
  exclusive : Lock.Exclusive x
  range : ∀ t, (s.thread t).InRange rounds
  loaded : ∀ t, (s.thread t).Loaded s.counter
  counter : s.counter = long (∑ t, (s.thread t).completed rounds : ℕ)
  knows : s.main.Knows s.thread
  printed : s.main.Printed k rounds s.out

variable {s s' : State k} {t : Fin k} {p : PC} {x x' : Fin k → Phase}

@[simp] theorem set_thread_self : (s.set t p).thread t = p := Function.update_self ..

@[simp] theorem set_thread_ne {u : Fin k} (h : u ≠ t) : (s.set t p).thread u = s.thread u :=
  Function.update_of_ne h ..

theorem forall_set {R : Fin k → PC → Prop} (h : R t p) (hs : ∀ u, R u (s.thread u)) (u : Fin k) :
    R u ((s.set t p).thread u) := by
  by_cases hut : u = t
  · subst hut
    simpa using h
  · simpa [hut] using hs u

theorem completed_set (rounds : ℕ) (s : State k) (t : Fin k) (p : PC) :
    ∑ u, ((s.set t p).thread u).completed rounds + (s.thread t).completed rounds =
      ∑ u, (s.thread u).completed rounds + p.completed rounds :=
  sum_update (PC.completed rounds) s.thread t p

/-- A thread that runs has been created and not joined. -/
theorem Main.Knows.set {m : Main} (h : m.Knows s.thread) (habs : s.thread t ≠ .absent)
    (hret : s.thread t ≠ .returned) : m.Knows (s.set t p).thread := by
  cases m with
  | create i =>
    intro u hu
    have hne : u ≠ t := by
      rintro rfl
      exact habs (h u hu)
    simpa [hne] using h u hu
  | join i =>
    intro u hu
    have hne : u ≠ t := by
      rintro rfl
      exact hret (h u hu)
    simpa [hne] using h u hu
  | print => exact (hret (h t)).elim
  | exited r => trivial

theorem phase_set (h : x = PC.phase ∘ s.thread) :
    Function.update x t p.phase = PC.phase ∘ (s.set t p).thread := by
  rw [h]
  exact (Function.comp_update ..).symm

theorem phase_set_of_eq (h : x = PC.phase ∘ s.thread) (hp : p.phase = (s.thread t).phase) :
    x = PC.phase ∘ (s.set t p).thread := by
  rw [← phase_set h, hp, h]
  exact (Function.update_eq_self ..).symm

theorem Exact.out_eq_none (hs : Exact rounds x s) (hrun : s.Running) : s.out = none := by
  have hprinted := hs.printed
  cases hm : s.main with
  | exited r => exact (hrun r hm).elim
  | create | join | print =>
    rw [hm] at hprinted
    exact hprinted

/-- A thread that runs moves, and completes nothing. -/
theorem Exact.set (hs : Exact rounds x s) (hphase : x' = PC.phase ∘ (s.set t p).thread)
    (hex : Lock.Exclusive x') (habs : s.thread t ≠ .absent) (hret : s.thread t ≠ .returned)
    (hrange : p.InRange rounds) (hloaded : p.Loaded s.counter)
    (hcomp : p.completed rounds = (s.thread t).completed rounds) : Exact rounds x' (s.set t p) where
  phase := hphase
  exclusive := hex
  range := forall_set (R := fun _ => PC.InRange rounds) hrange hs.range
  loaded := forall_set (R := fun _ => PC.Loaded s.counter) hloaded hs.loaded
  counter := by
    have hsum := completed_set rounds s t p
    have hsum : ∑ u, ((s.set t p).thread u).completed rounds =
        ∑ u, (s.thread u).completed rounds := by omega
    rw [hsum]
    exact hs.counter
  knows := hs.knows.set habs hret
  printed := hs.printed

/-- `main` goes on, and knows no more than is so. -/
theorem Exact.setMain {m : Main} (hs : Exact rounds x s) (hrun : s.Running)
    (hm : m.Knows s.thread) (hprinted : m.Printed k rounds none) :
    Exact rounds x { s with main := m } where
  phase := hs.phase
  exclusive := hs.exclusive
  range := hs.range
  loaded := hs.loaded
  counter := hs.counter
  knows := hm
  printed := by
    rw [← hs.out_eq_none hrun] at hprinted
    exact hprinted

theorem Exact.holder {u : Fin k} (hs : Exact rounds x s) (hu : (s.thread u).phase = .holding)
    (ht : (s.thread t).phase = .holding) : u = t := by
  apply hs.exclusive
  · rw [hs.phase]
    exact hu
  · rw [hs.phase]
    exact ht

theorem exact_store {i : ℕ} {v : ℤ} (hs : Exact rounds x s) (h : s.thread t = .store i v) :
    Exact rounds x { s.set t (.unlock i) with counter := long (v + 1) } := by
  have hphase := phase_set_of_eq (p := .unlock i) hs.phase (by rw [h]; rfl)
  have hloaded := hs.loaded t
  rw [h] at hloaded
  obtain rfl : v = s.counter := hloaded
  -- Nobody else has a value loaded, as nobody else holds the lock.
  have hothers : ∀ u, ((s.set t (.unlock i)).thread u).Loaded (long (s.counter + 1)) := by
    intro u
    by_cases hut : u = t
    · subst hut
      simp [PC.Loaded]
    · rw [set_thread_ne hut]
      cases hu : s.thread u with
      | store j w => exact (hut (hs.holder (by rw [hu]; rfl) (by rw [h]; rfl))).elim
      | absent | loop | lock | load | unlock | returned => trivial
  refine ⟨hphase, hs.exclusive, ?_, hothers, ?_, hs.knows.set (by simp [h]) (by simp [h]),
    hs.printed⟩
  · have hrange := hs.range t
    rw [h] at hrange
    exact forall_set (R := fun _ => PC.InRange rounds) hrange hs.range
  · have hsum := completed_set rounds s t (.unlock i)
    rw [h] at hsum
    change _ + i = _ + (i + 1) at hsum
    have hsum : ∑ u, ((s.set t (.unlock i)).thread u).completed rounds =
        ∑ u, (s.thread u).completed rounds + 1 := by omega
    change long (s.counter + 1) = _
    rw [hsum, hs.counter, long, long, Int.bmod_add_bmod, Int.natCast_add, Int.natCast_one, long]

theorem exact_own {e : Own k} (h : Step rounds s (.inr e) s') (hs : Exact rounds x s) :
    Exact rounds x s' := by
  cases h with
  | @leave t i hr h hi =>
    have hrange := hs.range t
    rw [h] at hrange
    refine hs.set (phase_set_of_eq hs.phase (by rw [h]; rfl)) hs.exclusive (by simp [h])
      (by simp [h]) trivial trivial ?_
    rw [h]
    change _ ≤ rounds at hrange
    change rounds = i
    omega
  | @load t i hr h =>
    have hrange := hs.range t
    rw [h] at hrange
    exact hs.set (phase_set_of_eq hs.phase (by rw [h]; rfl)) hs.exclusive (by simp [h])
      (by simp [h]) hrange rfl (by rw [h]; rfl)
  | store hr h => exact exact_store hs h
  | lockFails hr h | unlockFails hr h => exact hs.setMain hr trivial (.inr ⟨rfl, rfl⟩)
  | createFails h hi | joinFails h hi =>
    exact hs.setMain (by simp [State.Running, h]) trivial (.inr ⟨rfl, rfl⟩)
  | @create i h hi =>
    have hknows := hs.knows
    rw [h] at hknows
    have habs : s.thread ⟨i, hi⟩ = .absent := hknows _ (Nat.le_refl i)
    refine ⟨phase_set_of_eq hs.phase (by rw [habs]; rfl), hs.exclusive, ?_, ?_, ?_, ?_, ?_⟩
    · exact forall_set (R := fun _ => PC.InRange rounds) (Nat.zero_le _) hs.range
    · exact forall_set (R := fun _ => PC.Loaded s.counter) trivial hs.loaded
    · have hsum := completed_set rounds s ⟨i, hi⟩ (.loop 0)
      rw [habs] at hsum
      change _ + 0 = _ + 0 at hsum
      exact hs.counter.trans (congrArg (fun n : ℕ => long n) hsum.symm)
    · intro u hu
      have hne : u ≠ ⟨i, hi⟩ := by
        rintro rfl
        exact absurd hu (Nat.not_succ_le_self i)
      exact (set_thread_ne hne).trans (hknows u (by omega))
    · exact hs.out_eq_none (by simp [State.Running, h])
  | @created i h hi =>
    exact hs.setMain (by simp [State.Running, h]) (fun t ht => absurd ht (Nat.not_lt_zero _)) rfl
  | @join i h hi hret =>
    have hknows := hs.knows
    rw [h] at hknows
    refine hs.setMain (by simp [State.Running, h]) (fun t ht => ?_) rfl
    rcases Nat.lt_succ_iff_lt_or_eq.mp ht with hlt | heq
    · exact hknows t hlt
    · obtain rfl : t = ⟨i, hi⟩ := Fin.ext heq
      exact hret
  | @joined i h hi =>
    have hknows := hs.knows
    rw [h] at hknows
    exact hs.setMain (by simp [State.Running, h]) (fun t => hknows t (by omega)) rfl
  | print h =>
    have hknows := hs.knows
    rw [h] at hknows
    have hsum : ∑ u, (s.thread u).completed rounds = k * rounds := by
      simp [show ∀ u, s.thread u = .returned from hknows, PC.completed]
    have hcounter : s.counter = expected k rounds := by
      rw [hs.counter, hsum, Int.natCast_mul]
      rfl
    refine ⟨hs.phase, hs.exclusive, hs.range, hs.loaded, hs.counter, trivial, .inl ?_⟩
    simp [hcounter, okLine]

/-- A step in which the mutex takes part. -/
theorem exact_joint {y : Call (Fin k)} (hx : Lock.Step x y x') (h : Step rounds s (.inl y) s')
    (hs : Exact rounds x s) : Exact rounds x' s' := by
  have hex := Lock.exclusive_step hx hs.exclusive
  cases h with
  | @call t i hr h hi =>
    cases hx
    exact hs.set (phase_set (p := .lock i) hs.phase) hex (by simp [h]) (by simp [h]) hi trivial
      (by rw [h]; rfl)
  | @acquire t i hr h =>
    have hrange := hs.range t
    rw [h] at hrange
    cases hx
    exact hs.set (phase_set (p := .load i) hs.phase) hex (by simp [h]) (by simp [h]) hrange
      trivial (by rw [h]; rfl)
  | @release t i hr h =>
    have hrange := hs.range t
    rw [h] at hrange
    cases hx
    exact hs.set (phase_set (p := .loop (i + 1)) hs.phase) hex (by simp [h]) (by simp [h])
      hrange trivial (by rw [h]; rfl)

theorem exact_reachable {q : (Fin k → Phase) × State k}
    (h : ((Lock.system (Fin k)).compose LTS.all (program k rounds)).Reachable q) :
    Exact rounds q.1 q.2 := by
  apply h.invariant
  · rintro ⟨x, s⟩ ⟨rfl, rfl⟩
    refine ⟨rfl, nofun, fun _ => trivial, fun _ => trivial, ?_, fun _ _ => rfl, rfl⟩
    simp [PC.completed, long]
  · intro q a r hst hs
    cases hst with
    | silent _ hobs => cases hobs
    | joint hx hobs hc =>
      cases hobs
      exact exact_joint hx hc hs
    | own hc => exact exact_own hc hs

variable {σ α : Type*} {L : LTS σ α} {obs : σ → α → σ → Option (Call (Fin k))}
  {R : σ → (Fin k → Phase) → Prop} {q : σ × State k} {r : ℕ}

/-- Whatever lock the mutex is, the process ends with the line that says OK, or with none because
a pthread function failed: no increment is lost. -/
theorem never_race (hL : L.Refines obs (Lock.system (Fin k)) R)
    (h : (L.compose obs (program k rounds)).Reachable q) (hend : q.2.main = .exited r) :
    r = 0 ∧ q.2.out = some (okLine k rounds) ∨ r = 1 ∧ q.2.out = none := by
  obtain ⟨x, hx, _⟩ := hL.compose h
  have hprinted := (exact_reachable hx).printed
  rwa [hend] at hprinted

/-- Two threads at the spin lock, one of which has to yield while the other is inside. -/
theorem never_race_spin_lock : ∃ p q : SpinLock.State (Fin 2) × State 2,
    ((SpinLock.system (Fin 2)).compose SpinLock.observe (program 2 1)).Reachable p ∧
      p.1.pc 0 = .critical ∧ p.1.pc 1 = .yield ∧
      (∃ xs, ((SpinLock.system (Fin 2)).compose SpinLock.observe (program 2 1)).Trace p xs q) ∧
      q.2.main = .exited 0 ∧
      (0 = 0 ∧ q.2.out = some (okLine 2 1) ∨ 0 = 1 ∧ q.2.out = none) := by
  let L := (SpinLock.system (Fin 2)).compose SpinLock.observe (program 2 1)
  have h0 : L.Reachable (⟨0, fun _ => .outside⟩, ⟨.create 0, fun _ => .absent, 0, none⟩) :=
    .of_initial ⟨rfl, rfl⟩
  have h1 := h0.step (.own (.create rfl (by decide)))
  have h2 := h1.step (.own (.create rfl (by decide)))
  have h3 := h2.step (.own (.created rfl (by decide)))
  have h4 := h3.step (.joint (.enter (t := 0) rfl) rfl (.call nofun rfl (by decide)))
  have h5 := h4.step (.joint (.enter (t := 1) rfl) rfl (.call nofun rfl (by decide)))
  have h6 := h5.step (.joint (.acquire (t := 0) rfl rfl) rfl (.acquire nofun rfl))
  have h7 := h6.step (.silent (.fail (t := 1) rfl (by decide)) rfl)
  have hstart {p : SpinLock.State (Fin 2) × State 2} (_ : L.Reachable p) : L.Trace p [] p := .refl
  have x0 := hstart h7
  have x1 := x0.snoc (.own (.load (t := 0) nofun rfl))
  have x2 := x1.snoc (.own (.store (t := 0) nofun rfl))
  have x3 := x2.snoc (.joint (.leave (t := 0) rfl) rfl (.release nofun rfl))
  have x4 := x3.snoc (.silent (.store (t := 0) rfl) rfl)
  have x5 := x4.snoc (.silent (.again (t := 1) rfl) rfl)
  have x6 := x5.snoc (.joint (.acquire (t := 1) rfl rfl) rfl (.acquire nofun rfl))
  have x7 := x6.snoc (.own (.leave (t := 0) nofun rfl (by decide)))
  have x8 := x7.snoc (.own (.load (t := 1) nofun rfl))
  have x9 := x8.snoc (.own (.store (t := 1) nofun rfl))
  have x10 := x9.snoc (.joint (.leave (t := 1) rfl) rfl (.release nofun rfl))
  have x11 := x10.snoc (.silent (.store (t := 1) rfl) rfl)
  have x12 := x11.snoc (.own (.leave (t := 1) nofun rfl (by decide)))
  have x13 := x12.snoc (.own (.join rfl (by decide) rfl))
  have x14 := x13.snoc (.own (.join rfl (by decide) rfl))
  have x15 := x14.snoc (.own (.joined rfl (by decide)))
  have x16 := x15.snoc (.own (.print rfl))
  exact ⟨_, _, h7, rfl, rfl, ⟨_, x16⟩, rfl, never_race SpinLock.refines (h7.trace x16) rfl⟩

end SystemCalls.Counter

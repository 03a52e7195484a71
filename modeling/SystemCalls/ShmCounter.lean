import SystemCalls.Transition
import Mathlib.Data.Nat.Basic

/-!
# The counter in POSIX shared memory

The program of the chapter on shared memory, from its first write to the mapping on and as long as
no call fails. Parent and child each increment the counter `n` times under a semaphore; then the
parent cleans up.
-/

namespace SystemCalls.ShmCounter

/-- A process in the `for` loop; the increment is a load and a store. -/
inductive Rounds
  | semWait (i : ℕ)
  | load (i : ℕ)
  | store (i : ℕ) (v : BitVec 32)
  | semPost (i : ℕ)
  | finished
  deriving DecidableEq

/-- The head of the loop. -/
def rounds (n i : ℕ) : Rounds := if i < n then .semWait i else .finished

inductive Parent
  /-- At `mem->counter = 0`. -/
  | init
  | semOpen
  | fork
  | loop (r : Rounds)
  /-- At the `printf`, after `waitpid`. -/
  | print
  | semClose
  | semUnlink
  | munmap
  | shmUnlink
  /-- At `return mem->counter == 2n ? 0 : 1`. -/
  | ret
  | exited (status : ℕ)
  /-- Killed by SIGSEGV. -/
  | faulted
  deriving DecidableEq

inductive Child
  | none
  | loop (r : Rounds)
  | exited
  deriving DecidableEq

/-- What the two processes share. -/
structure Shared where
  counter : BitVec 32
  sem : ℕ

structure State where
  parent : Parent
  child : Child
  shared : Shared
  /-- The parent's mapping of the region. -/
  mapped : Bool
  printed : Option (BitVec 32)

inductive Event
  | parent
  | child
  deriving DecidableEq

/-- A statement of the loop. -/
inductive RoundStep (n : ℕ) : Shared → Rounds → Shared → Rounds → Prop
  | semWait {q : Shared} {i k : ℕ} (h : q.sem = k + 1) :
      RoundStep n q (.semWait i) { q with sem := k } (.load i)
  | load {q : Shared} {i : ℕ} : RoundStep n q (.load i) q (.store i q.counter)
  | store {q : Shared} {i : ℕ} {v : BitVec 32} :
      RoundStep n q (.store i v) { q with counter := v + 1 } (.semPost i)
  | semPost {q : Shared} {i : ℕ} :
      RoundStep n q (.semPost i) { q with sem := q.sem + 1 } (rounds n (i + 1))

/-- The statements of the parent that read or write `mem`. -/
def Parent.Accesses : Parent → Prop
  | init | loop (.load _) | loop (.store _ _) | print | ret => True
  | _ => False

inductive Step (n : ℕ) : State → Event → State → Prop
  | fault {s : State} (h : s.parent.Accesses) (hm : s.mapped = false) :
      Step n s .parent { s with parent := .faulted }
  | init {s : State} (h : s.parent = .init) (hm : s.mapped = true) :
      Step n s .parent { s with parent := .semOpen, shared := { s.shared with counter := 0 } }
  | semOpen {s : State} (h : s.parent = .semOpen) :
      Step n s .parent { s with parent := .fork, shared := { s.shared with sem := 1 } }
  | fork {s : State} (h : s.parent = .fork) :
      Step n s .parent { s with parent := .loop (rounds n 0), child := .loop (rounds n 0) }
  | parentRound {s : State} {q : Shared} {r r' : Rounds} (h : s.parent = .loop r)
      (hm : s.mapped = true) (hr : RoundStep n s.shared r q r') :
      Step n s .parent { s with parent := .loop r', shared := q }
  | childRound {s : State} {q : Shared} {r r' : Rounds} (h : s.child = .loop r)
      (hr : RoundStep n s.shared r q r') :
      Step n s .child { s with child := .loop r', shared := q }
  | childExit {s : State} (h : s.child = .loop .finished) :
      Step n s .child { s with child := .exited }
  | waitpid {s : State} (h : s.parent = .loop .finished) (hc : s.child = .exited) :
      Step n s .parent { s with parent := .print }
  | print {s : State} (h : s.parent = .print) (hm : s.mapped = true) :
      Step n s .parent { s with parent := .semClose, printed := some s.shared.counter }
  | semClose {s : State} (h : s.parent = .semClose) :
      Step n s .parent { s with parent := .semUnlink }
  | semUnlink {s : State} (h : s.parent = .semUnlink) :
      Step n s .parent { s with parent := .munmap }
  | munmap {s : State} (h : s.parent = .munmap) :
      Step n s .parent { s with parent := .shmUnlink, mapped := false }
  | shmUnlink {s : State} (h : s.parent = .shmUnlink) :
      Step n s .parent { s with parent := .ret }
  | ret {s : State} (h : s.parent = .ret) (hm : s.mapped = true) :
      Step n s .parent
        { s with parent := .exited (if s.shared.counter.toInt = 2 * n then 0 else 1) }

/-- The region has been mapped, with whatever it holds. -/
def system (n : ℕ) : LTS State Event where
  initial s := s.parent = .init ∧ s.child = .none ∧ s.mapped = true ∧ s.printed = none
  step := Step n

/-- What the program promises of a run that has come to its end. -/
def Succeeded (n : ℕ) (s : State) : Prop :=
  s.printed = some (BitVec.ofNat 32 (2 * n)) ∧ s.parent = .exited 0

/-- The rounds whose store is done. -/
def Rounds.completed (n : ℕ) : Rounds → ℕ
  | semWait i | load i | store i _ => i
  | semPost i => i + 1
  | finished => n

/-- 1 between `sem_wait` and `sem_post`. -/
def Rounds.held : Rounds → ℕ
  | load _ | store _ _ | semPost _ => 1
  | semWait _ | finished => 0

/-- The round exists, and a loaded value is still the counter's. -/
def Rounds.Valid (n : ℕ) (counter : BitVec 32) : Rounds → Prop
  | semWait i | load i | semPost i => i < n
  | store i v => i < n ∧ v = counter
  | finished => True

/-- Both processes in the loop. -/
structure Running (n : ℕ) (q : Shared) (r c : Rounds) : Prop where
  counter : q.counter = BitVec.ofNat 32 (r.completed n + c.completed n)
  sem : q.sem + r.held + c.held = 1
  parent : r.Valid n q.counter
  child : c.Valid n q.counter

variable {n i : ℕ} {q q' : Shared} {r r' c c' : Rounds} {s t : State} {a : Event}
  {w : BitVec 32}

theorem Running.symm (h : Running n q r c) : Running n q c r where
  counter := by rw [h.counter, Nat.add_comm]
  sem := by
    have := h.sem
    omega
  parent := h.child
  child := h.parent

theorem completed_rounds (hi : i ≤ n) : (rounds n i).completed n = i := by
  unfold rounds
  split
  · rfl
  · simp only [Rounds.completed]
    omega

theorem held_rounds : (rounds n i).held = 0 := by
  unfold rounds
  split <;> rfl

theorem valid_rounds : (rounds n i).Valid n w := by
  unfold rounds
  split
  · assumption
  · trivial

/-- Outside the semaphore nothing depends on the counter. -/
theorem Rounds.Valid.of_free (h : r.Valid n w) (hr : r.held = 0) (w' : BitVec 32) :
    r.Valid n w' := by
  cases r with
  | semWait | finished => exact h
  | load | store | semPost => simp [Rounds.held] at hr

theorem running_step (h : RoundStep n q r q' r') (hs : Running n q r c) : Running n q' r' c := by
  have hsem := hs.sem
  have hcounter := hs.counter
  have hparent := hs.parent
  cases h with
  | @semWait i k hk =>
    refine ⟨hcounter, ?_, hparent, hs.child⟩
    change q.sem + 0 + c.held = 1 at hsem
    change k + 1 + c.held = 1
    omega
  | load => exact ⟨hcounter, hsem, ⟨hparent, rfl⟩, hs.child⟩
  | @store i v =>
    obtain ⟨hi, rfl⟩ := hparent
    change q.sem + 1 + c.held = 1 at hsem
    refine ⟨?_, hsem, hi, hs.child.of_free (by omega) _⟩
    change q.counter = BitVec.ofNat 32 (i + c.completed n) at hcounter
    change q.counter + 1 = BitVec.ofNat 32 (i + 1 + c.completed n)
    rw [hcounter, Nat.add_right_comm]
    exact (BitVec.ofNat_add ..).symm
  | @semPost i =>
    have hle : i + 1 ≤ n := hparent
    change q.sem + 1 + c.held = 1 at hsem
    refine ⟨?_, ?_, valid_rounds, hs.child⟩
    · rw [completed_rounds hle]
      exact hcounter
    · rw [held_rounds]
      omega

theorem running_start : Running n ⟨0, 1⟩ (rounds n 0) (rounds n 0) where
  counter := by simp [completed_rounds]
  sem := by simp [held_rounds]
  parent := valid_rounds
  child := valid_rounds

theorem Running.total (h : Running n q .finished .finished) :
    q.counter = BitVec.ofNat 32 (2 * n) := by
  rw [h.counter, Nat.two_mul]
  rfl

/-- The parent's way from the first write to the last, with what holds on it. -/
inductive Inv (n : ℕ) : State → Prop
  | init {q : Shared} : Inv n ⟨.init, .none, q, true, none⟩
  | semOpen {k : ℕ} : Inv n ⟨.semOpen, .none, ⟨0, k⟩, true, none⟩
  | fork : Inv n ⟨.fork, .none, ⟨0, 1⟩, true, none⟩
  | both {q : Shared} {r c : Rounds} (h : Running n q r c) : Inv n ⟨.loop r, .loop c, q, true, none⟩
  | alone {q : Shared} {r : Rounds} (h : Running n q r .finished) :
      Inv n ⟨.loop r, .exited, q, true, none⟩
  | print {q : Shared} (h : q.counter = BitVec.ofNat 32 (2 * n)) :
      Inv n ⟨.print, .exited, q, true, none⟩
  | mapped {q : Shared} {p : Parent} (hp : p = .semClose ∨ p = .semUnlink ∨ p = .munmap) :
      Inv n ⟨p, .exited, q, true, some (BitVec.ofNat 32 (2 * n))⟩
  | unmapped {q : Shared} {p : Parent} (hp : p = .shmUnlink ∨ p = .ret ∨ p = .faulted) :
      Inv n ⟨p, .exited, q, false, some (BitVec.ofNat 32 (2 * n))⟩

theorem inv_step (h : Step n s a t) (hs : Inv n s) : Inv n t := by
  cases hs with
  | init =>
    cases h with
    | init => exact .semOpen
    | fault h hm => cases hm
    | _ => simp_all
  | semOpen =>
    cases h with
    | semOpen => exact .fork
    | fault h hm => cases hm
    | _ => simp_all
  | fork =>
    cases h with
    | fork => exact .both running_start
    | fault h hm => cases hm
    | _ => simp_all
  | both hrun =>
    cases h with
    | parentRound h hm hr =>
      cases h
      exact .both (running_step hr hrun)
    | childRound h hr =>
      cases h
      exact .both (running_step hr hrun.symm).symm
    | childExit h =>
      cases h
      exact .alone hrun
    | fault h hm => cases hm
    | _ => simp_all
  | alone hrun =>
    cases h with
    | parentRound h hm hr =>
      cases h
      exact .alone (running_step hr hrun)
    | waitpid h =>
      cases h
      exact .print hrun.total
    | fault h hm => cases hm
    | _ => simp_all
  | print hq =>
    cases h with
    | print =>
      simp only [hq]
      exact .mapped (.inl rfl)
    | fault h hm => cases hm
    | _ => simp_all
  | mapped hp =>
    cases h with
    | semClose => exact .mapped (.inr (.inl rfl))
    | semUnlink => exact .mapped (.inr (.inr rfl))
    | munmap => exact .unmapped (.inl rfl)
    | fault h hm => cases hm
    | _ => simp_all
  | unmapped hp =>
    cases h with
    | shmUnlink => exact .unmapped (.inr (.inl rfl))
    | fault => exact .unmapped (.inr (.inr rfl))
    | _ => simp_all

theorem inv_reachable (h : (system n).Reachable s) : Inv n s := by
  apply h.invariant (P := Inv n)
  · rintro ⟨_, _, _, _, _⟩ ⟨rfl, rfl, rfl, rfl⟩
    exact .init
  · intro s a t hst hs
    exact inv_step hst hs

/-- A process that has rounds left can go on, or waits for one that can. -/
theorem exists_roundStep (h : Running n q r c) :
    (∃ q' r', RoundStep n q r q' r') ∨ (∃ q' c', RoundStep n q c q' c') ∨
      r = .finished ∧ c = .finished := by
  have hsem := h.sem
  cases hr : r with
  | load i => exact .inl ⟨_, _, .load⟩
  | store i v => exact .inl ⟨_, _, .store⟩
  | semPost i => exact .inl ⟨_, _, .semPost⟩
  | semWait i =>
    by_cases hq : q.sem = 0
    · cases hc : c with
      | load i => exact .inr (.inl ⟨_, _, .load⟩)
      | store i v => exact .inr (.inl ⟨_, _, .store⟩)
      | semPost i => exact .inr (.inl ⟨_, _, .semPost⟩)
      | semWait | finished => simp [hr, hc, hq, Rounds.held] at hsem
    · obtain ⟨k, hk⟩ := Nat.exists_eq_succ_of_ne_zero hq
      exact .inl ⟨_, _, .semWait hk⟩
  | finished =>
    cases hc : c with
    | load i => exact .inr (.inl ⟨_, _, .load⟩)
    | store i v => exact .inr (.inl ⟨_, _, .store⟩)
    | semPost i => exact .inr (.inl ⟨_, _, .semPost⟩)
    | semWait i =>
      have hq : q.sem = 0 + 1 := by simpa [hr, hc, Rounds.held] using hsem
      exact .inr (.inl ⟨_, _, .semWait hq⟩)
    | finished => exact .inr (.inr ⟨rfl, rfl⟩)

/-- The program stops nowhere but at the read of the unmapped region. -/
theorem Inv.faulted_of_terminal (hs : Inv n s) (h : (system n).Terminal s) :
    s.parent = .faulted ∧ s.printed = some (BitVec.ofNat 32 (2 * n)) := by
  cases hs with
  | init => exact (h _ _ (.init rfl rfl)).elim
  | semOpen => exact (h _ _ (.semOpen rfl)).elim
  | fork => exact (h _ _ (.fork rfl)).elim
  | both hrun =>
    rcases exists_roundStep hrun with ⟨q', r', hr⟩ | ⟨q', c', hc⟩ | ⟨rfl, rfl⟩
    · exact (h _ _ (.parentRound rfl rfl hr)).elim
    · exact (h _ _ (.childRound rfl hc)).elim
    · exact (h _ _ (.childExit rfl)).elim
  | alone hrun =>
    rcases exists_roundStep hrun with ⟨q', r', hr⟩ | ⟨q', c', hc⟩ | ⟨rfl, -⟩
    · exact (h _ _ (.parentRound rfl rfl hr)).elim
    · cases hc
    · exact (h _ _ (.waitpid rfl rfl)).elim
  | print => exact (h _ _ (.print rfl rfl)).elim
  | mapped hp =>
    rcases hp with rfl | rfl | rfl
    · exact (h _ _ (.semClose rfl)).elim
    · exact (h _ _ (.semUnlink rfl)).elim
    · exact (h _ _ (.munmap rfl)).elim
  | unmapped hp =>
    rcases hp with rfl | rfl | rfl
    · exact (h _ _ (.shmUnlink rfl)).elim
    · exact (h _ _ (.fault trivial rfl)).elim
    · exact ⟨rfl, rfl⟩

def Rounds.remaining (n : ℕ) : Rounds → ℕ
  | semWait i => 4 * (n - i)
  | load i => 4 * (n - i) - 1
  | store i _ => 4 * (n - i) - 2
  | semPost i => 4 * (n - i) - 3
  | finished => 0

def Parent.remaining (n : ℕ) : Parent → ℕ
  | init => 8 * n + 12
  | semOpen => 8 * n + 11
  | fork => 8 * n + 10
  | loop r => r.remaining n + 7
  | print => 6
  | semClose => 5
  | semUnlink => 4
  | munmap => 3
  | shmUnlink => 2
  | ret => 1
  | exited _ | faulted => 0

def Child.remaining (n : ℕ) : Child → ℕ
  | none | exited => 0
  | loop r => r.remaining n + 1

/-- The statements left to both processes. -/
def State.remaining (n : ℕ) (s : State) : ℕ :=
  s.parent.remaining n + s.child.remaining n

theorem remaining_rounds (n i : ℕ) : (rounds n i).remaining n = 4 * (n - i) := by
  unfold rounds
  split
  · rfl
  · simp only [Rounds.remaining]
    omega

theorem remaining_roundStep (h : RoundStep n q r q' r') (hr : r.Valid n q.counter) :
    r'.remaining n < r.remaining n := by
  cases h with
  | @semWait i =>
    have hi : i < n := hr
    simp only [Rounds.remaining]
    omega
  | @load i =>
    have hi : i < n := hr
    simp only [Rounds.remaining]
    omega
  | @store i v =>
    have hi := hr.1
    simp only [Rounds.remaining]
    omega
  | @semPost i =>
    have hi : i < n := hr
    rw [remaining_rounds]
    simp only [Rounds.remaining]
    omega

theorem remaining_step (hs : Inv n s) (h : Step n s a t) : t.remaining n < s.remaining n := by
  cases hs with
  | both hrun =>
    cases h with
    | parentRound h hm hr =>
      cases h
      have := remaining_roundStep hr hrun.parent
      simp only [State.remaining, Parent.remaining]
      omega
    | childRound h hr =>
      cases h
      have := remaining_roundStep hr hrun.child
      simp only [State.remaining, Child.remaining]
      omega
    | _ => simp_all [State.remaining, Child.remaining]
  | alone hrun =>
    cases h with
    | parentRound h hm hr =>
      cases h
      have := remaining_roundStep hr hrun.parent
      simp only [State.remaining, Parent.remaining]
      omega
    | _ => simp_all [State.remaining, Parent.remaining]
  | fork =>
    cases h with
    | fork =>
      simp only [State.remaining, Parent.remaining, Child.remaining, remaining_rounds]
      omega
    | _ => simp_all
  | init | semOpen | print =>
    cases h <;> simp_all [State.remaining, Parent.remaining, Child.remaining]
  | mapped hp =>
    rcases hp with rfl | rfl | rfl <;> cases h <;> simp_all [State.remaining, Parent.remaining]
  | unmapped hp =>
    rcases hp with rfl | rfl | rfl <;> cases h <;>
      simp_all [State.remaining, Parent.remaining, Parent.Accesses]

def start : State := ⟨.init, .none, ⟨0, 0⟩, true, none⟩

theorem reachable_start : (system n).Reachable start :=
  .of_initial ⟨rfl, rfl, rfl, rfl⟩

theorem exists_faulted (n : ℕ) :
    ∃ s, (system n).Reachable s ∧ (system n).Terminal s ∧ s.parent = .faulted := by
  obtain ⟨s, -, -, hs, hterm⟩ := (reachable_start (n := n)).exists_terminal fun _ _ _ hr hst =>
    remaining_step (inv_reachable hr) hst
  exact ⟨s, hs, hterm, ((inv_reachable hs).faulted_of_terminal hterm).1⟩

/-- For every number of rounds: no run ends in success. Each comes to its end, and there it has
printed the right number and been killed at the read of the region it has unmapped. -/
theorem never_succeeds (n : ℕ) :
    (¬ ∀ s, (system n).Reachable s → (system n).Terminal s → Succeeded n s) ∧
    (∀ s, (system n).Reachable s → (system n).Terminal s →
      s.printed = some (BitVec.ofNat 32 (2 * n)) ∧ s.parent = .faulted) ∧
    ∀ s xs t, (system n).initial s → (system n).Trace s xs t → xs.length ≤ 8 * n + 12 := by
  refine ⟨?_, ?_, ?_⟩
  · intro hall
    obtain ⟨s, hs, hterm, hf⟩ := exists_faulted n
    have hok := (hall s hs hterm).2
    simp [hf] at hok
  · intro s hs hterm
    exact ((inv_reachable hs).faulted_of_terminal hterm).symm
  · intro s xs t hi hx
    have hle := hx.length_le (.of_initial hi) fun _ _ _ hr hst =>
      remaining_step (inv_reachable hr) hst
    have hstart : s.remaining n = 8 * n + 12 := by
      simp [State.remaining, hi.1, hi.2.1, Parent.remaining, Child.remaining]
    omega

/-- With the 10000 rounds of the source. -/
theorem faults_as_shipped :
    ¬ ∀ s, (system 10000).Reachable s → (system 10000).Terminal s → Succeeded 10000 s := by
  intro hall
  obtain ⟨s, hs, hterm, hf⟩ := exists_faulted 10000
  have hok := (hall s hs hterm).2
  simp [hf] at hok

end SystemCalls.ShmCounter

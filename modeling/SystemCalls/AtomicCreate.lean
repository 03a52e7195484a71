import SystemCalls.CString
import SystemCalls.Transition
import Mathlib.Algebra.BigOperators.Ring.Finset
import Mathlib.Algebra.Order.BigOperators.Group.Finset
import Mathlib.Data.Fintype.Basic

/-!
# Atomic creation

`main` of 2.1.5, run by any number of processes with one path. `close` that returns EINTR may
have closed the descriptor or not, and `close_retry` calls it again.
-/

namespace SystemCalls.AtomicCreate

/-- `msg`, without the NUL. -/
def msg : List UInt8 := ascii "created atomically\n"

inductive PC
  | open
  | write
  /-- In `close_retry`. `status` is what `main` returns if it succeeds, and `gone` says that the
  descriptor is closed already. -/
  | close (status : ℕ) (gone : Bool)
  | returned (status : ℕ)
  | killed
  deriving DecidableEq

/-- `creator` is the process whose `open` has made the file. -/
structure State (I : Type*) where
  file : Option (List UInt8)
  creator : Option I
  pc : I → PC

inductive Event (I : Type*)
  | call (i : I)
  | fails (i : I)
  | killed (i : I)

variable {I : Type*} [DecidableEq I]

def State.set (s : State I) (i : I) (p : PC) : State I :=
  { s with pc := Function.update s.pc i p }

inductive Step : State I → Event I → State I → Prop
  | create {s : State I} {i : I} (h : s.pc i = .open) (hf : s.file = none) :
      Step s (.call i) { s.set i .write with file := some [], creator := some i }
  /-- EEXIST. -/
  | existsAlready {s : State I} {i : I} (h : s.pc i = .open) (hf : s.file ≠ none) :
      Step s (.call i) (s.set i (.returned 1))
  | openFails {s : State I} {i : I} (h : s.pc i = .open) :
      Step s (.fails i) (s.set i (.returned 1))
  | write {s : State I} {i : I} (h : s.pc i = .write) :
      Step s (.call i) { s.set i (.close 0 false) with file := some msg }
  | writeShort {s : State I} {i : I} {n : ℕ} (h : s.pc i = .write) (hn : n < msg.length) :
      Step s (.fails i) { s.set i (.close 1 false) with file := some (msg.take n) }
  | writeFails {s : State I} {i : I} (h : s.pc i = .write) :
      Step s (.fails i) (s.set i (.close 1 false))
  | close {s : State I} {i : I} {r : ℕ} (h : s.pc i = .close r false) :
      Step s (.call i) (s.set i (.returned r))
  /-- EINTR. -/
  | interrupted {s : State I} {i : I} {r : ℕ} {gone : Bool} (h : s.pc i = .close r false) :
      Step s (.fails i) (s.set i (.close r gone))
  /-- EBADF. -/
  | closedTwice {s : State I} {i : I} {r : ℕ} (h : s.pc i = .close r true) :
      Step s (.fails i) (s.set i (.returned 1))
  | closeFails {s : State I} {i : I} {r : ℕ} (h : s.pc i = .close r false) :
      Step s (.fails i) (s.set i (.returned 1))
  | killed {s : State I} {i : I} (h : ∀ r, s.pc i ≠ .returned r) :
      Step s (.killed i) (s.set i .killed)

/-- Nobody has begun, and the path does not exist. -/
def system (I : Type*) [DecidableEq I] : LTS (State I) (Event I) where
  initial s := s = ⟨none, none, fun _ => .open⟩
  step := Step

variable {s t : State I} {e : Event I} {i j : I} {p : PC}

/-- Past an `open` that succeeded, and without an error since. -/
def PC.Creating : PC → Prop
  | write | close .. => True
  | returned r => r = 0
  | .open | killed => False

/-- Past a `write` that was not short. -/
def PC.Written : PC → Prop
  | close r _ | returned r => r = 0
  | .open | write | killed => False

/-- One process makes the file, and all that is in it comes from its `write`. -/
structure Created (s : State I) : Prop where
  creator : ∀ i, (s.pc i).Creating → s.creator = some i
  file : s.file = none ↔ s.creator = none
  content : ∀ c, s.file = some c → c <+: msg
  written : ∀ i, (s.pc i).Written → s.file = some msg

omit [DecidableEq I] in
theorem Created.one (hs : Created s) (hi : (s.pc i).Creating) (hj : (s.pc j).Creating) : i = j :=
  Option.some.inj ((hs.creator i hi).symm.trans (hs.creator j hj))

theorem forall_set {R : I → PC → Prop} (h : R i p) (hs : ∀ j, j ≠ i → R j (s.pc j)) (j : I) :
    R j ((s.set i p).pc j) := by
  by_cases hji : j = i
  · subst hji
    simpa [State.set] using h
  · simpa [State.set, hji] using hs j hji

/-- A process goes on, and the file stays. -/
theorem Created.set (hs : Created s) (hcreating : p.Creating → (s.pc i).Creating)
    (hwritten : p.Written → (s.pc i).Written) : Created (s.set i p) where
  creator := forall_set (R := fun j p => p.Creating → s.creator = some j)
    (fun h => hs.creator i (hcreating h)) fun j _ => hs.creator j
  file := hs.file
  content := hs.content
  written := forall_set (R := fun _ p => p.Written → s.file = some msg)
    (fun h => hs.written i (hwritten h)) fun j _ => hs.written j

theorem created_write {r : ℕ} {c : List UInt8} (hs : Created s) (h : s.pc i = .write)
    (hc : c <+: msg) (hr : r = 0 → c = msg) :
    Created { s.set i (.close r false) with file := some c } := by
  have hi : (s.pc i).Creating := by simp [h, PC.Creating]
  have hcreator := hs.creator i hi
  refine ⟨?_, ?_, ?_, ?_⟩
  · exact forall_set (R := fun j p => p.Creating → s.creator = some j) (fun _ => hcreator)
      fun j _ => hs.creator j
  · simp [State.set, hcreator]
  · rintro _ ⟨⟩
    exact hc
  · -- Nobody else can have written.
    refine forall_set (R := fun _ p => p.Written → some c = some msg) ?_ ?_
    · intro h0
      rw [hr h0]
    · intro j hj hw
      have hcreating : (s.pc j).Creating := by
        cases hp : s.pc j <;> simp [hp, PC.Written, PC.Creating] at hw ⊢
        exact hw
      exact (hj (hs.one hcreating hi)).elim

theorem created_step (h : Step s e t) (hs : Created s) : Created t := by
  cases h with
  | @create i h hf =>
    have hnone := hs.file.mp hf
    have hno : ∀ j, ¬ (s.pc j).Creating := by
      intro j hj
      rw [hs.creator j hj] at hnone
      cases hnone
    refine ⟨?_, by simp, ?_, ?_⟩
    · exact forall_set (R := fun j p => p.Creating → some i = some j) (fun _ => rfl)
        fun j _ hj => (hno j hj).elim
    · rintro _ ⟨⟩
      exact List.nil_prefix
    · refine forall_set (R := fun _ p => p.Written → some [] = some msg) nofun ?_
      intro j _ hw
      have hfile := hs.written j hw
      rw [hf] at hfile
      cases hfile
  | existsAlready h | openFails h | closedTwice h | closeFails h | killed h =>
    exact hs.set nofun nofun
  | write h => exact created_write hs h List.prefix_rfl fun _ => rfl
  | writeShort h hn => exact created_write hs h (List.take_prefix ..) nofun
  | writeFails h => exact hs.set (by simp [h, PC.Creating]) nofun
  | close h => exact hs.set (by simp [h, PC.Creating]) (by simp [h, PC.Written])
  | interrupted h => exact hs.set (by simp [h, PC.Creating]) (by simp [h, PC.Written])

theorem created_reachable (h : (system I).Reachable s) : Created s := by
  apply h.invariant
  · rintro _ rfl
    exact ⟨by simp [PC.Creating], by simp, nofun, by simp [PC.Written]⟩
  · intro s e t hst hs
    exact created_step hst hs

/-- However many processes race, fail and die: at most one returns 0, the file is complete then,
and never is anything in it but the start of the message. -/
theorem at_most_one_creates (h : (system I).Reachable s) :
    (∀ i j, s.pc i = .returned 0 → s.pc j = .returned 0 → i = j) ∧
      (∀ i, s.pc i = .returned 0 → s.file = some msg) ∧ ∀ c, s.file = some c → c <+: msg := by
  have hs := created_reachable h
  refine ⟨fun i j hi hj => hs.one ?_ ?_, fun i hi => hs.written i ?_, hs.content⟩
  · simp [hi, PC.Creating]
  · simp [hj, PC.Creating]
  · simp [hi, PC.Written]

/-- A process has won, and another is in time to find the file. -/
theorem at_most_one_creates_second : ∃ s : State Bool, (system Bool).Reachable s ∧
    s.pc true = .returned 0 ∧ s.pc false = .returned 1 ∧ s.file = some msg ∧
      ∀ j, s.pc j = .returned 0 → j = true := by
  have h0 : (system Bool).Reachable ⟨none, none, fun _ => .open⟩ := .of_initial rfl
  have h1 := h0.step (.create (i := true) rfl rfl)
  have h2 := h1.step (.existsAlready (i := false) rfl nofun)
  have h3 := h2.step (.write (i := true) rfl)
  have h4 := h3.step (.close (i := true) (r := 0) rfl)
  obtain ⟨hone, hfile, _⟩ := at_most_one_creates h4
  exact ⟨_, h4, rfl, rfl, hfile true rfl, fun j hj => hone j true hj rfl⟩

/-! ### Somebody creates -/

/-- Nothing fails, and nobody is killed. -/
def Smooth (_ : State I) (e : Event I) : Prop := ∃ i, e = .call i

/-- The process that makes the file is on its way to 0, and the others find it made. -/
structure Decided (s : State I) : Prop where
  winner : ∀ i, s.creator = some i → s.pc i = .write ∨ s.pc i = .close 0 false ∨
    s.pc i = .returned 0
  others : ∀ i, s.creator ≠ some i → s.pc i = .open ∨ s.pc i = .returned 1
  waiting : s.creator = none → ∀ i, s.pc i = .open

/-- The winner goes on. -/
theorem Decided.set {f : Option (List UInt8)} (hs : Decided s) (hc : s.creator = some i)
    (hp : p = .write ∨ p = .close 0 false ∨ p = .returned 0) :
    Decided { s.set i p with file := f } where
  winner j hj := by
    obtain rfl : i = j := Option.some.inj (hc.symm.trans hj)
    simpa [State.set] using hp
  others j hj := by
    have hne : j ≠ i := by
      rintro rfl
      exact hj hc
    simpa [State.set, hne] using hs.others j hj
  waiting hnone := by
    have hnone : s.creator = none := hnone
    simp [hc] at hnone

theorem decided_step (h : Step s e t) (he : Smooth s e) (hcreated : Created s) (hs : Decided s) :
    Decided t := by
  have hwinner {i : I} (h : (s.pc i).Creating) : s.creator = some i := hcreated.creator i h
  cases h with
  | @create i h hf =>
    have hnone := hcreated.file.mp hf
    refine ⟨?_, ?_, nofun⟩
    · rintro j ⟨⟩
      exact .inl (by simp [State.set])
    · intro j hj
      have hne : j ≠ i := by
        rintro rfl
        exact hj rfl
      exact .inl (by simpa [State.set, hne] using hs.waiting hnone j)
  | @existsAlready i h hf =>
    have hsome : s.creator ≠ none := fun hnone => hf (hcreated.file.mpr hnone)
    refine ⟨?_, ?_, fun hnone => (hsome hnone).elim⟩
    · intro j hj
      have hne : j ≠ i := by
        rintro rfl
        have hw := hs.winner j hj
        simp [h] at hw
      simpa [State.set, hne] using hs.winner j hj
    · intro j hj
      by_cases hji : j = i
      · exact .inr (by simp [State.set, hji])
      · simpa [State.set, hji] using hs.others j hj
  | write h => exact hs.set (hwinner (by simp [h, PC.Creating])) (by simp)
  | @close i r h =>
    have hc := hwinner (i := i) (by simp [h, PC.Creating])
    have hw := hs.winner i hc
    obtain rfl : r = 0 := by simpa [h] using hw
    exact hs.set hc (by simp)
  | openFails | writeShort | writeFails | interrupted | closedTwice | closeFails | killed =>
    simp [Smooth] at he

def PC.rest : PC → ℕ
  | .open => 3
  | write => 2
  | close .. => 1
  | returned _ | killed => 0

variable [Fintype I]

def measure (s : State I) : ℕ := ∑ i, (s.pc i).rest

theorem measure_set (h : p.rest < (s.pc i).rest) : ∑ j, ((s.set i p).pc j).rest < measure s := by
  apply Finset.sum_lt_sum
  · intro j _
    exact forall_set (R := fun j p => p.rest ≤ (s.pc j).rest) h.le (fun _ _ => le_rfl) j
  · exact ⟨i, Finset.mem_univ i, by simpa [State.set] using h⟩

theorem measure_lt (h : Step s e t) (he : Smooth s e) : measure t < measure s := by
  cases h with
  | create h | existsAlready h | write h | close h => exact measure_set (by simp [h, PC.rest])
  | openFails | writeShort | writeFails | interrupted | closedTwice | closeFails | killed =>
    simp [Smooth] at he

omit [Fintype I] in
theorem decided_reachable (h : ((system I).restrict Smooth).Reachable s) : Decided s := by
  apply h.invariant_of_reachable
  · rintro _ rfl
    exact ⟨nofun, fun _ _ => .inl rfl, fun _ _ => rfl⟩
  · rintro s e t hr ⟨he, hst⟩ hs
    exact decided_step hst he (created_reachable hr.of_restrict) hs

/-- When no call fails, every race of one process or more ends with exactly one that has made the
file, and with 1 for all the others. -/
theorem exactly_one_creates (I : Type*) [DecidableEq I] [Fintype I] (first : I) :
    ((system I).restrict Smooth).Ends fun s => s.file = some msg ∧
      ∃ i, s.pc i = .returned 0 ∧ ∀ j, j ≠ i → s.pc j = .returned 1 := by
  refine .of_measure (μ := measure) (n := 3 * Fintype.card I) ?_ ?_ ?_
  · rintro _ rfl
    simp [measure, PC.rest, Nat.mul_comm]
  · rintro s e t _ ⟨he, hst⟩
    exact measure_lt hst he
  · intro s hr hterm
    have hs := decided_reachable hr
    have hcreated := created_reachable hr.of_restrict
    have hno {i : I} {t : State I} (h : Step s (.call i) t) : False := hterm _ _ ⟨⟨i, rfl⟩, h⟩
    have hopen : ∀ i, s.pc i ≠ .open := by
      intro i hi
      by_cases hf : s.file = none
      · exact hno (.create hi hf)
      · exact hno (.existsAlready hi hf)
    obtain ⟨i, hi⟩ : ∃ i, s.creator = some i := by
      by_contra hnone
      have hnone : s.creator = none := by simpa [Option.eq_none_iff_forall_ne_some] using hnone
      exact hopen first (hs.waiting hnone first)
    have hzero : s.pc i = .returned 0 := by
      rcases hs.winner i hi with hw | hc | hz
      · exact (hno (.write hw)).elim
      · exact (hno (.close hc)).elim
      · exact hz
    refine ⟨hcreated.written i (by simp [hzero, PC.Written]), i, hzero, fun j hj => ?_⟩
    exact (hs.others j fun h => hj (Option.some.inj (h.symm.trans hi))).resolve_left (hopen j)

end SystemCalls.AtomicCreate

import SystemCalls.ProcessManager.Output
import Mathlib.Data.Finset.Card
import Mathlib.Order.Interval.Finset.Nat
import Mathlib.Data.Prod.Lex
import Mathlib.Algebra.BigOperators.Group.List.Basic
import Mathlib.Algebra.GroupWithZero.Nat

/-!
# process_manager reaps its children

Every process runs a copy of `main`, but a child never gets back to the loops, so
the parent alone forks and waits. `wait` returns any child that has exited; counting
the children returned so far shows that the loop ends with each of them.
-/

namespace SystemCalls.ProcessManager

open Stdio

variable {b : Buffering} {n : ℕ} {s t : State} {e : Event}

def Forked (_ : State) (e : Event) : Prop :=
  ∀ k, e ≠ .forkFail k

/-- The runs in which every `fork` succeeds. -/
def forked (b : Buffering) (n : ℕ) : LTS State Event :=
  (system b n).restrict Forked

/-- Where all processes are, and which children `wait` has returned. -/
structure Control where
  pcs : List PC
  waited : List ℕ

def State.control (s : State) : Control := ⟨s.procs.map Proc.pc, s.waited⟩

/-- Steps within the statements between two calls of interest. -/
inductive Quiet : PC → PC → Prop
  | put {c : Char} {rest : List Char} {next : PC} :
      Quiet (.print (c :: rest) next) (.print rest next)
  | printed {next : PC} : Quiet (.print [] next) next
  | info {text : List Char} {next : PC} : Quiet (.info next) (.print text next)
  | sleep {next : PC} : Quiet (.sleep next) next

/-- The steps, with everything left out that no decision depends on. -/
inductive Control.Step (n : ℕ) : Control → Control → Prop
  | quiet {l₁ l₂ : List PC} {w : List ℕ} {pc pc' : PC} (h : Quiet pc pc') :
      Step n ⟨l₁ ++ pc :: l₂, w⟩ ⟨l₁ ++ pc' :: l₂, w⟩
  | exit {l₁ l₂ : List PC} {w : List ℕ} {status : ℕ} :
      Step n ⟨l₁ ++ .exit status :: l₂, w⟩ ⟨l₁ ++ .exited status :: l₂, w⟩
  | fork {l₁ l₂ : List PC} {w : List ℕ} {i : ℕ} {text : List Char} :
      Step n ⟨l₁ ++ .fork i :: l₂, w⟩
        ⟨l₁ ++ .print text (forkLoop n (i + 1)) :: (l₂ ++ [childTask (i + 1) (i + 2)]), w⟩
  | wait {l₁ l₂ : List PC} {w : List ℕ} {i j status : ℕ} {text : List Char} (hj : 0 < j)
      (hx : (l₁ ++ .wait i :: l₂)[j]? = some (.exited status)) (hw : j ∉ w) :
      Step n ⟨l₁ ++ .wait i :: l₂, w⟩
        ⟨l₁ ++ .print text (waitLoop n (i + 1)) :: l₂, w ++ [j]⟩
  | waitError {l₁ l₂ : List PC} {w : List ℕ} {i : ℕ}
      (hw : ∀ j, 0 < j → j < (l₁ ++ .wait i :: l₂).length → j ∈ w) :
      Step n ⟨l₁ ++ .wait i :: l₂, w⟩ ⟨l₁ ++ waitLoop n (i + 1) :: l₂, w⟩
  | rusage {l₁ l₂ : List PC} {w : List ℕ} {text : List Char} :
      Step n ⟨l₁ ++ .rusage :: l₂, w⟩ ⟨l₁ ++ .print text finish :: l₂, w⟩
  | rusageError {l₁ l₂ : List PC} {w : List ℕ} :
      Step n ⟨l₁ ++ .rusage :: l₂, w⟩ ⟨l₁ ++ finish :: l₂, w⟩

theorem control_eq {l₁ l₂ : List Proc} {p : Proc} {pc : PC} (hs : s.procs = l₁ ++ p :: l₂)
    (hp : p.pc = pc) : s.control = ⟨l₁.map Proc.pc ++ pc :: l₂.map Proc.pc, s.waited⟩ := by
  simp [State.control, hs, hp]

/-- The program's steps are those of its control. -/
theorem control_step (h : Step b n s e t) (he : Forked s e) :
    Control.Step n s.control t.control := by
  cases h with
  | put hs hp | printed hs hp | info hs hp | sleep hs hp =>
    rw [control_eq hs hp, control_eq rfl rfl]
    exact .quiet (by constructor)
  | fork hs hp =>
    rw [control_eq hs hp]
    simpa [State.control] using Control.Step.fork
  | forkFail => exact (he _ rfl).elim
  | @wait _ _ _ q _ j status hs hp hj hq hx hw =>
    have hexited : s.control.pcs[j]? = some (.exited status) := by simp [State.control, hq, hx]
    rw [control_eq hs hp] at hexited ⊢
    rw [control_eq rfl rfl]
    exact .wait hj hexited hw
  | waitError hs hp hw =>
    rw [control_eq hs hp, control_eq rfl rfl]
    refine .waitError ?_
    simpa [hs] using hw
  | rusage hs hp =>
    rw [control_eq hs hp, control_eq rfl rfl]
    exact .rusage
  | rusageError hs hp =>
    rw [control_eq hs hp, control_eq rfl rfl]
    exact .rusageError
  | exit hs hp =>
    rw [control_eq hs hp, control_eq rfl rfl]
    exact .exit

/-- The rest of the `i`-th child's code, which ends with its own exit status. -/
def PC.ChildOf (i : ℕ) : PC → Prop
  | .print _ next | .info next | .sleep next => next.ChildOf i
  | .exit status | .exited status => status = i
  | .fork _ | .wait _ | .rusage => False

/-- Where the parent is when it has `k` children, `w` of them returned by `wait`. -/
def PC.ParentOf (n k w : ℕ) : PC → Prop
  | .print _ next | .info next | .sleep next => next.ParentOf n k w
  | .fork i => i < n ∧ k = i ∧ w = 0
  | .wait i => i < n ∧ k = n ∧ w = i
  | .rusage => k = n ∧ w = n
  | .exit status | .exited status => status = 0 ∧ k = n ∧ w = n

/-- Process 0 is the parent, process `i` the `i`-th child. -/
structure Counted (n : ℕ) (c : Control) : Prop where
  parent : ∃ pc l, c.pcs = pc :: l ∧ pc.ParentOf n l.length c.waited.length
  child : ∀ i pc, 0 < i → c.pcs[i]? = some pc → pc.ChildOf i
  nodup : c.waited.Nodup
  waited : ∀ j ∈ c.waited, 0 < j ∧ c.pcs[j]? = some (.exited j)

theorem PC.ChildOf.child {i : ℕ} {pc : PC} (h : pc.ChildOf i) : pc.Child := by
  induction pc with
  | print _ next ih | info next ih | sleep next ih => exact ih h
  | exit | exited => trivial
  | fork | wait | rusage => exact h.elim

theorem Quiet.childOf {i : ℕ} {pc pc' : PC} (h : Quiet pc pc') (hc : pc.ChildOf i) :
    pc'.ChildOf i := by
  cases h <;> exact hc

theorem Quiet.parentOf {k w : ℕ} {pc pc' : PC} (h : Quiet pc pc') (hp : pc.ParentOf n k w) :
    pc'.ParentOf n k w := by
  cases h <;> exact hp

theorem Quiet.ne_exited {i : ℕ} {pc : PC} : ¬ Quiet (.exited i) pc := by
  rintro ⟨⟩

theorem waitLoop_parentOf {i : ℕ} (hi : i ≤ n) : (waitLoop n i).ParentOf n n i := by
  unfold waitLoop
  split
  · exact ⟨‹_›, rfl, rfl⟩
  · exact ⟨rfl, by omega⟩

theorem forkLoop_parentOf {i : ℕ} (hi : i ≤ n) : (forkLoop n i).ParentOf n i 0 := by
  unfold forkLoop
  split
  · exact ⟨‹_›, rfl, rfl⟩
  · obtain rfl : i = n := by omega
    exact waitLoop_parentOf (Nat.zero_le i)

theorem main_parentOf (n : ℕ) : (main n).ParentOf n 0 0 :=
  forkLoop_parentOf (Nat.zero_le n)

theorem childTask_childOf (i sleepTime : ℕ) : (childTask i sleepTime).ChildOf i := by
  simp [childTask, PC.ChildOf]

/-- `l` holds only numbers of children, each once. -/
theorem length_le_of_nodup {l : List ℕ} {k : ℕ} (hn : l.Nodup) (hl : ∀ j ∈ l, 0 < j ∧ j ≤ k) :
    l.length ≤ k := by
  have hsub : l.toFinset ⊆ Finset.Icc 1 k := by
    intro j hj
    have := hl j (by simpa using hj)
    simp only [Finset.mem_Icc]
    omega
  have hcard := Finset.card_le_card hsub
  rwa [List.toFinset_card_of_nodup hn, Nat.card_Icc, Nat.add_sub_cancel] at hcard

/-- A child that has not been returned yet, as long as fewer than all have. -/
theorem exists_not_mem_of_length_lt {l : List ℕ} {k : ℕ} (h : l.length < k) :
    ∃ j, 0 < j ∧ j ≤ k ∧ j ∉ l := by
  by_contra hno
  push Not at hno
  have hsub : Finset.Icc 1 k ⊆ l.toFinset := by
    intro j hj
    rw [Finset.mem_Icc] at hj
    simpa using hno j (by omega) hj.2
  have hcard := (Finset.card_le_card hsub).trans l.toFinset_card_le
  rw [Nat.card_Icc, Nat.add_sub_cancel] at hcard
  omega

variable {l₁ l₂ : List PC} {w : List ℕ} {pc pc' : PC} {c c' : Control}

/-- Only the parent is anywhere else than in `child_task`. -/
theorem Counted.parent_of_not_childOf (hc : Counted n ⟨l₁ ++ pc :: l₂, w⟩)
    (hpc : ∀ i, ¬ pc.ChildOf i) : l₁ = [] ∧ pc.ParentOf n l₂.length w.length := by
  cases l₁ with
  | nil =>
    obtain ⟨_, _, he, hp⟩ := hc.parent
    obtain ⟨rfl, rfl⟩ : pc = _ ∧ l₂ = _ := by simpa using he
    exact ⟨rfl, hp⟩
  | cons pc₀ l₁ =>
    exact (hpc (l₁.length + 1) (hc.child (l₁.length + 1) pc (Nat.succ_pos _) (by simp))).elim

/-- A step of one process that keeps to the code of a child, or of the parent. -/
theorem Counted.replace (hc : Counted n ⟨l₁ ++ pc :: l₂, w⟩)
    (hchild : ∀ i, pc.ChildOf i → pc'.ChildOf i)
    (hparent : ∀ k w, pc.ParentOf n k w → pc'.ParentOf n k w)
    (hex : ∀ i, pc ≠ .exited i) : Counted n ⟨l₁ ++ pc' :: l₂, w⟩ := by
  refine ⟨?_, ?_, hc.nodup, ?_⟩
  · obtain ⟨pc₀, l, he, hp⟩ := hc.parent
    cases l₁ with
    | nil =>
      obtain ⟨rfl, rfl⟩ : pc = pc₀ ∧ l₂ = l := by simpa using he
      exact ⟨pc', l₂, rfl, hparent _ _ hp⟩
    | cons pc₁ l₁ =>
      obtain ⟨rfl, rfl⟩ : pc₁ = pc₀ ∧ l₁ ++ pc :: l₂ = l := by simpa using he
      exact ⟨pc₁, l₁ ++ pc' :: l₂, rfl, by simpa using hp⟩
  · intro i q hi hq
    rcases Nat.lt_trichotomy i l₁.length with hlt | rfl | hgt
    · exact hc.child i q hi (by simpa [List.getElem?_append_left hlt] using hq)
    · obtain rfl : pc' = q := by simpa using hq
      exact hchild _ (hc.child _ pc hi (by simp))
    · obtain ⟨d, rfl⟩ := Nat.exists_eq_add_of_lt hgt
      refine hc.child _ q hi ?_
      simpa [Nat.add_assoc, List.getElem?_append_right] using hq
  · intro j hj
    obtain ⟨hpos, hx⟩ := hc.waited j hj
    refine ⟨hpos, ?_⟩
    rcases Nat.lt_trichotomy j l₁.length with hlt | rfl | hgt
    · simpa [List.getElem?_append_left hlt] using hx
    · exact (hex _ (by simpa using hx)).elim
    · obtain ⟨d, rfl⟩ := Nat.exists_eq_add_of_lt hgt
      simpa [Nat.add_assoc, List.getElem?_append_right] using hx

theorem Counted.fork {i : ℕ} {text : List Char} (hc : Counted n ⟨l₁ ++ .fork i :: l₂, w⟩) :
    Counted n
      ⟨l₁ ++ .print text (forkLoop n (i + 1)) :: (l₂ ++ [childTask (i + 1) (i + 2)]), w⟩ := by
  obtain ⟨rfl, hi, rfl, hw⟩ := hc.parent_of_not_childOf fun i h => h
  obtain rfl : w = [] := List.length_eq_zero_iff.mp hw
  refine ⟨⟨_, _, rfl, ?_⟩, ?_, List.nodup_nil, by simp⟩
  · simpa [PC.ParentOf] using forkLoop_parentOf hi
  · intro j q hj hq
    obtain ⟨j, rfl⟩ := Nat.exists_eq_succ_of_ne_zero (Nat.ne_of_gt hj)
    rw [List.nil_append, List.getElem?_cons_succ] at hq
    rcases Nat.lt_trichotomy j l₂.length with hlt | rfl | hgt
    · rw [List.getElem?_append_left hlt] at hq
      exact hc.child (j + 1) q hj (by simpa using hq)
    · obtain rfl : _ = q := by simpa using hq
      exact childTask_childOf _ _
    · rw [List.getElem?_eq_none (by simp; omega)] at hq
      cases hq

theorem Counted.wait {i j status : ℕ} {text : List Char}
    (hc : Counted n ⟨l₁ ++ .wait i :: l₂, w⟩) (hj : 0 < j)
    (hx : (l₁ ++ .wait i :: l₂)[j]? = some (.exited status)) (hw : j ∉ w) :
    Counted n ⟨l₁ ++ .print text (waitLoop n (i + 1)) :: l₂, w ++ [j]⟩ := by
  obtain ⟨rfl, hi, hn, rfl⟩ := hc.parent_of_not_childOf fun i h => h
  obtain rfl : status = j := hc.child j _ hj hx
  obtain ⟨k, rfl⟩ := Nat.exists_eq_succ_of_ne_zero (Nat.ne_of_gt hj)
  refine ⟨⟨_, _, rfl, ?_⟩, ?_, ?_, ?_⟩
  · rw [hn]
    simpa [PC.ParentOf] using waitLoop_parentOf hi
  · intro m q hm hq
    obtain ⟨m, rfl⟩ := Nat.exists_eq_succ_of_ne_zero (Nat.ne_of_gt hm)
    exact hc.child (m + 1) q hm (by simpa using hq)
  · refine List.nodup_append.mpr ⟨hc.nodup, by simp, ?_⟩
    rintro a ha b hb rfl
    obtain rfl : a = k + 1 := by simpa using hb
    exact hw ha
  · intro m hm
    rcases List.mem_append.mp hm with hm | hm
    · obtain ⟨hpos, hq⟩ := hc.waited m hm
      obtain ⟨m, rfl⟩ := Nat.exists_eq_succ_of_ne_zero (Nat.ne_of_gt hpos)
      exact ⟨hpos, by simpa using hq⟩
    · obtain rfl : m = k + 1 := by simpa using hm
      exact ⟨hj, by simpa using hx⟩

/-- While a child is left `wait` does not fail. -/
theorem Counted.not_waitError {i : ℕ} (hc : Counted n ⟨l₁ ++ .wait i :: l₂, w⟩) :
    ∃ j, 0 < j ∧ j < (l₁ ++ .wait i :: l₂).length ∧ j ∉ w := by
  obtain ⟨rfl, hi, hn, rfl⟩ := hc.parent_of_not_childOf fun i h => h
  obtain ⟨j, hj, hle, hw⟩ := exists_not_mem_of_length_lt hi
  exact ⟨j, hj, by simp; omega, hw⟩

theorem counted_step (h : Control.Step n c c') (hc : Counted n c) : Counted n c' := by
  cases h with
  | quiet h =>
    refine hc.replace (fun i => h.childOf) (fun k w => h.parentOf) ?_
    rintro i rfl
    exact h.ne_exited
  | exit => exact hc.replace (fun _ h => h) (fun _ _ h => h) (by simp)
  | fork => exact hc.fork
  | wait hj hx hw => exact hc.wait hj hx hw
  | waitError hw =>
    obtain ⟨j, hj, hlt, hnot⟩ := hc.not_waitError
    exact (hnot (hw j hj hlt)).elim
  | rusage | rusageError => exact hc.replace (fun _ h => h.elim) (fun _ _ h => ⟨rfl, h⟩) (by simp)

theorem counted_reachable (h : (forked b n).Reachable s) : Counted n s.control := by
  apply h.invariant (P := fun s => Counted n s.control)
  · rintro _ ⟨pid, rfl⟩
    refine ⟨⟨main n, [], rfl, main_parentOf n⟩, ?_, List.nodup_nil, ?_⟩
    · intro i pc hi hpc
      rw [List.getElem?_eq_none (Nat.succ_le_of_lt hi)] at hpc
      cases hpc
    · intro j hj
      cases hj
  · rintro s e t ⟨he, hst⟩ hc
    exact counted_step (control_step hst he) hc

/-! ### Progress -/

/-- Only `wait` blocks, so a process anywhere else can move. -/
theorem exists_step_of_not_wait {l₁ l₂ : List Proc} {p : Proc} (hs : s.procs = l₁ ++ p :: l₂)
    (hw : ∀ i, p.pc ≠ .wait i) (hx : ∀ status, p.pc ≠ .exited status) :
    ∃ e t, (forked b n).step s e t ∧ e.actor = l₁.length := by
  cases hp : p.pc with
  | print text next =>
    cases text with
    | nil => exact ⟨_, _, ⟨by simp [Forked], .printed hs hp⟩, rfl⟩
    | cons => exact ⟨_, _, ⟨by simp [Forked], .put hs hp⟩, rfl⟩
  | info => exact ⟨.info l₁.length 0 0 0, _, ⟨by simp [Forked], .info hs hp⟩, rfl⟩
  | fork => exact ⟨.fork l₁.length 0, _, ⟨by simp [Forked], .fork hs hp⟩, rfl⟩
  | sleep => exact ⟨_, _, ⟨by simp [Forked], .sleep hs hp⟩, rfl⟩
  | wait => exact (hw _ hp).elim
  | rusage => exact ⟨_, _, ⟨by simp [Forked], .rusageError hs hp⟩, rfl⟩
  | exit => exact ⟨_, _, ⟨by simp [Forked], .exit hs hp⟩, rfl⟩
  | exited => exact (hx _ hp).elim

theorem exists_step (h : (forked b n).Reachable s) (hc : ¬ Completed s) :
    ∃ e t, (forked b n).step s e t := by
  have hcount := counted_reachable h
  by_cases hfree : ∃ p ∈ s.procs, (∀ i, p.pc ≠ .wait i) ∧ ∀ status, p.pc ≠ .exited status
  · obtain ⟨p, hp, hw, hx⟩ := hfree
    obtain ⟨l₁, l₂, hs⟩ := List.append_of_mem hp
    obtain ⟨e, t, hst, -⟩ := exists_step_of_not_wait (b := b) (n := n) hs hw hx
    exact ⟨e, t, hst⟩
  · push Not at hfree
    -- Everybody has exited but the parent, which waits, and a child is left for it.
    obtain ⟨p, hp, hx⟩ : ∃ p ∈ s.procs, ∀ status, p.pc ≠ .exited status := by
      simpa [Completed] using hc
    obtain ⟨i, hi⟩ : ∃ i, p.pc = .wait i := by
      by_contra hw
      push Not at hw
      obtain ⟨status, hstatus⟩ := hfree p hp hw
      exact hx status hstatus
    obtain ⟨l₁, l₂, hs⟩ := List.append_of_mem hp
    rw [control_eq hs hi] at hcount
    obtain ⟨j, hj, hlt, hw⟩ := hcount.not_waitError
    have hlen : j < s.procs.length := by simpa [hs] using hlt
    have hq := List.getElem?_eq_getElem hlen
    rw [← control_eq hs hi] at hcount
    have hchild := hcount.child j s.procs[j].pc hj (by simp [State.control, hq])
    obtain ⟨status, hstatus⟩ := hfree s.procs[j] (List.getElem_mem hlen) (by
      intro i hi
      simp [hi, PC.ChildOf] at hchild)
    exact ⟨_, _, by simp [Forked], .wait hs hi hj hq hstatus hw⟩

/-- The calls a process has left, its children's included. -/
def PC.calls (n : ℕ) : PC → ℕ
  | .print _ next => next.calls n
  | .info next | .sleep next => next.calls n + 1
  | .fork i => 4 * (n - i) + n + 3
  | .wait i => (n - i) + 2
  | .rusage => 2
  | .exit _ => 1
  | .exited _ => 0

/-- The characters left to put, as far as they are known now. -/
def PC.chars : PC → ℕ
  | .print text next => text.length + 1 + next.chars
  | .info next | .sleep next => next.chars
  | .fork _ | .wait _ | .rusage | .exit _ | .exited _ => 0

def Control.rank (n : ℕ) (c : Control) : ℕ × ℕ :=
  ((c.pcs.map (PC.calls n)).sum, (c.pcs.map PC.chars).sum)

theorem calls_forkLoop {i : ℕ} (hi : i < n) :
    (forkLoop n (i + 1)).calls n + 3 < (PC.fork i).calls n := by
  unfold forkLoop
  split
  · simp only [PC.calls]
    omega
  · simp only [PC.calls, waitLoop, if_pos (show 0 < n by omega)]
    omega

theorem calls_waitLoop {i : ℕ} (hi : i < n) :
    (waitLoop n (i + 1)).calls n < (PC.wait i).calls n := by
  unfold waitLoop
  split <;> simp only [PC.calls] <;> omega

/-- Every step makes a call, or puts a character. -/
theorem rank_step (h : Control.Step n c c') (hc : Counted n c) :
    Prod.Lex (· < ·) (· < ·) (c'.rank n) (c.rank n) := by
  rw [Prod.lex_def]
  cases h with
  | quiet h =>
    cases h with
    | put | printed =>
      right
      simp [Control.rank, PC.calls, PC.chars]
    | info | sleep =>
      left
      simp [Control.rank, PC.calls]
  | exit =>
    left
    simp [Control.rank, PC.calls]
  | fork =>
    left
    obtain ⟨rfl, hi, -⟩ := hc.parent_of_not_childOf fun i h => h
    have hlt := calls_forkLoop hi
    simp only [Control.rank, List.nil_append, List.map_cons, List.map_append, List.sum_cons,
      List.sum_append, childTask, PC.calls, List.map_nil, List.sum_nil] at hlt ⊢
    omega
  | wait =>
    left
    obtain ⟨rfl, hi, -⟩ := hc.parent_of_not_childOf fun i h => h
    have hlt := calls_waitLoop hi
    simpa [Control.rank, PC.calls] using hlt
  | waitError =>
    left
    obtain ⟨rfl, hi, -⟩ := hc.parent_of_not_childOf fun i h => h
    have hlt := calls_waitLoop hi
    simpa [Control.rank] using hlt
  | rusage | rusageError =>
    left
    simp [Control.rank, PC.calls, finish]

/-- Whatever has happened so far, the program can run to its end. -/
theorem exists_completed_forked {s : State} (h : (forked b n).Reachable s) :
    ∃ xs t, (forked b n).Trace s xs t ∧ Completed t := by
  by_cases hc : Completed s
  · exact ⟨[], s, .refl, hc⟩
  · obtain ⟨e, t, hst⟩ := exists_step h hc
    have hlt := rank_step (control_step hst.2 hst.1) (counted_reachable h)
    obtain ⟨xs, u, hx, hu⟩ := exists_completed_forked (h.step hst)
    exact ⟨e :: xs, u, .stepL hst hx, hu⟩
termination_by s.control.rank n
decreasing_by exact hlt

/-! ### The end of the run -/

/-- The parent is at its last line, or past it. -/
def PC.Finishing : PC → Prop
  | .print _ (.exit 0) | .exit 0 | .exited 0 => True
  | _ => False

theorem PC.Finishing.parentOf {k w : ℕ} (h : pc.Finishing) (hp : pc.ParentOf n k w) :
    k = n ∧ w = n := by
  unfold PC.Finishing at h
  split at h
  · exact hp.2
  · exact hp.2
  · exact hp.2
  · exact h.elim

theorem Counted.count_eq_one {i : ℕ} (hc : Counted n c) (hlen : c.waited.length = n)
    (hi : 0 < i) (hin : i ≤ n) (hpcs : c.pcs.length = n + 1) : c.waited.count i = 1 := by
  refine List.count_eq_one_of_mem hc.nodup ?_
  by_contra hw
  have hbound : ∀ j ∈ i :: c.waited, 0 < j ∧ j ≤ n := by
    intro j hj
    rcases List.mem_cons.mp hj with rfl | hj
    · exact ⟨hi, hin⟩
    · obtain ⟨hpos, hx⟩ := hc.waited j hj
      have hlt := (List.getElem?_eq_some_iff.mp hx).1
      exact ⟨hpos, by omega⟩
  have hle := length_le_of_nodup (List.nodup_cons.mpr ⟨hw, hc.nodup⟩) hbound
  rw [List.length_cons] at hle
  omega

theorem Counted.length_le (hc : Counted n c) : c.pcs.length ≤ n + 1 := by
  obtain ⟨pc, l, hl, hp⟩ := hc.parent
  have hle : l.length ≤ n := by
    clear hl
    induction pc with
    | print _ next ih | info next ih | sleep next ih => exact ih hp
    | fork i =>
      have := hp.1
      have := hp.2.1
      omega
    | wait i => exact Nat.le_of_eq hp.2.1
    | rusage => exact Nat.le_of_eq hp.1
    | exit | exited => exact Nat.le_of_eq hp.2.1
  rw [hl, List.length_cons]
  omega

/-- When all have exited, the parent has done so with status 0 and is past its last line. -/
theorem Counted.exited_of_completed (hc : Counted n s.control) (hdone : Completed s) :
    ∃ p, s.procs.head? = some p ∧ p.pc = .exited 0 := by
  obtain ⟨pc, l, hl, hpar⟩ := hc.parent
  obtain ⟨p, hp, rfl⟩ : ∃ p, s.procs.head? = some p ∧ p.pc = pc := by
    have hhead := congrArg List.head? hl
    simpa [State.control] using hhead
  obtain ⟨status, hx⟩ := hdone p (List.mem_of_mem_head? hp)
  rw [hx] at hpar
  exact ⟨p, hp, hpar.1 ▸ hx⟩

/-- At the parent's last line there are `n` children, each returned by one `wait`. -/
theorem Counted.finishing {p : Proc} (hc : Counted n s.control) (hp : s.procs.head? = some p)
    (hf : p.pc.Finishing) : s.procs.length = n + 1 ∧ ∀ i, 0 < i → i ≤ n →
      s.waited.count i = 1 ∧ ∃ q, s.procs[i]? = some q ∧ q.pc = .exited i := by
  obtain ⟨pc, l, hl, hpar⟩ := hc.parent
  have hhead : pc = p.pc := by
    have := congrArg List.head? hl
    simpa [State.control, hp] using this.symm
  subst hhead
  obtain ⟨hlen, hw⟩ := hf.parentOf hpar
  have hpcs : s.control.pcs.length = n + 1 := by simp [hl, hlen]
  refine ⟨by simpa [State.control] using hpcs, ?_⟩
  intro i hi hin
  have hcount := hc.count_eq_one hw hi hin hpcs
  refine ⟨hcount, ?_⟩
  have hmem : i ∈ s.control.waited := List.count_pos_iff.mp (by rw [hcount]; exact Nat.one_pos)
  simpa [State.control] using (hc.waited i hmem).2

/-- No child forks or waits, the `i`-th one exits with status `i` (of which `wait`
reports the value modulo 256), and at the parent's last line there are `n` of them, each
returned by one `wait`. Every run can be continued until all have exited, and then the parent
has come past that line and returned 0. -/
theorem forks_and_reaps (h : (forked b n).Reachable s) :
    s.procs.length ≤ n + 1 ∧
    (∀ q ∈ s.procs.tail, q.pc.Child) ∧
    (∀ i q status, 0 < i → s.procs[i]? = some q → q.pc = .exited status → status = i) ∧
    (∀ p, s.procs.head? = some p → p.pc.Finishing → s.procs.length = n + 1 ∧
      ∀ i, 0 < i → i ≤ n →
        s.waited.count i = 1 ∧ ∃ q, s.procs[i]? = some q ∧ q.pc = .exited i) ∧
    (Completed s → (∃ p, s.procs.head? = some p ∧ p.pc = .exited 0) ∧ s.procs.length = n + 1 ∧
      ∀ i, 0 < i → i ≤ n →
        s.waited.count i = 1 ∧ ∃ q, s.procs[i]? = some q ∧ q.pc = .exited i) ∧
    ∃ xs t, (forked b n).Trace s xs t ∧ Completed t := by
  have hc := counted_reachable h
  refine ⟨?_, ?_, ?_, fun p hp hf => hc.finishing hp hf, ?_, exists_completed_forked h⟩
  · simpa [State.control] using hc.length_le
  · intro q hq
    obtain ⟨i, hi⟩ := List.getElem?_of_mem hq
    rw [List.getElem?_tail] at hi
    exact (hc.child (i + 1) q.pc (Nat.succ_pos i) (by simp [State.control, hi])).child
  · intro i q status hi hq hx
    have hchild := hc.child i q.pc hi (by simp [State.control, hq])
    rwa [hx] at hchild
  · intro hdone
    obtain ⟨p, hp, hx⟩ := hc.exited_of_completed hdone
    exact ⟨⟨p, hp, hx⟩, hc.finishing hp (by simp [hx, PC.Finishing])⟩

/-- Three children, as in the program: a run ends with the parent's `return 0` and each of
them returned once. -/
theorem forks_and_reaps_three : ∃ t, (forked ⟨.line, 1024, by decide⟩ 3).Reachable t ∧
    (∃ p, t.procs.head? = some p ∧ p.pc = .exited 0) ∧ t.procs.length = 4 ∧
      ∀ i, 0 < i → i ≤ 3 → t.waited.count i = 1 := by
  have hi : (forked ⟨.line, 1024, by decide⟩ 3).Reachable (initialState 3 1) :=
    .of_initial ⟨1, rfl⟩
  obtain ⟨-, -, -, -, -, xs, t, hx, hdone⟩ := forks_and_reaps hi
  have ht := hi.trace hx
  obtain ⟨hzero, hlen, hall⟩ := (forks_and_reaps ht).2.2.2.2.1 hdone
  exact ⟨t, ht, hzero, hlen, fun i hpos hle => (hall i hpos hle).1⟩

end SystemCalls.ProcessManager

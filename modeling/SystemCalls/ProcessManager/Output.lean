import SystemCalls.ProcessManager.Model
import Mathlib.Algebra.BigOperators.Group.List.Basic
import Mathlib.Algebra.GroupWithZero.Nat
import Mathlib.Data.List.Nodup

/-!
# What process_manager writes out

Every character a process prints is either written out or still in a buffer, and each
`fork` adds the buffer of its caller once more. Until a `fork` finds a character in the
buffer, what a process has written out and what it still holds are its own text, in order.
-/

namespace SystemCalls.ProcessManager

open Stdio

variable {b : Buffering} {children : ℕ} {s t : State} {e : Event} {p q : Proc}
  {E : Execution State Event}

/-- The jumps of a process with that pid that leave its buffer alone. -/
inductive Next (children pid : ℕ) : PC → PC → Prop
  | printed {next : PC} : Next children pid (.print [] next) next
  | info {next : PC} (ppid pgid sid : ℕ) :
      Next children pid (.info next) (.print (processInfo pid ppid pgid sid) next)
  | forkFail {i : ℕ} : Next children pid (.fork i) (.exit 1)
  | sleep {next : PC} : Next children pid (.sleep next) next
  | wait {i : ℕ} (child status : ℕ) :
      Next children pid (.wait i) (.print (terminated child status) (waitLoop children (i + 1)))
  | waitError {i : ℕ} : Next children pid (.wait i) (waitLoop children (i + 1))
  | rusage (u v w x : ℕ) : Next children pid .rusage (.print (usage u v w x) finish)
  | rusageError : Next children pid .rusage finish

/-- What a step does to its process `p`, the `k`-th: the process after it, what it adds
to `output`, to what has been printed and to `copied`, and the children it creates. -/
inductive Local (b : Buffering) (children k : ℕ) (p : Proc) :
    Proc → List Byte → List Byte → List Byte → List Proc → Prop
  | put {c : Char} {rest : List Char} {next : PC} (hp : p.pc = .print (c :: rest) next) :
      Local b children k p (p.put b k c (.print rest next)).1
        (p.put b k c (.print rest next)).2 [⟨k, p.text.length, c⟩] [] []
  | next {pc pc' : PC} (hp : p.pc = pc) (hn : Next children p.pid pc pc') :
      Local b children k p { p with pc := pc' } [] [] [] []
  | fork {i : ℕ} (pid : ℕ) (hp : p.pc = .fork i) :
      Local b children k p
        { p with pc := .print (created i pid) (forkLoop children (i + 1)) }
        [] [] p.buffer [⟨pid, childTask (i + 1) (i + 2), p.buffer, []⟩]
  | exit {status : ℕ} (hp : p.pc = .exit status) :
      Local b children k p { p with pc := .exited status, buffer := [] } p.buffer [] [] []

/-- Every step is a local one. -/
theorem step_local (h : Step b children s e t) :
    ∃ l₁ p l₂ p' out new copy procs, Local b children l₁.length p p' out new copy procs ∧
      e.actor = l₁.length ∧ s.procs = l₁ ++ p :: l₂ ∧ t.procs = l₁ ++ p' :: (l₂ ++ procs) ∧
      t.output = s.output ++ out ∧ t.copied = s.copied ++ copy := by
  cases h with
  | @put l₁ l₂ p c rest next hs hp =>
    exact ⟨l₁, p, l₂, _, _, _, [], [], .put hp, rfl, hs, by simp⟩
  | @printed l₁ l₂ p next hs hp =>
    exact ⟨l₁, p, l₂, _, [], [], [], [], .next hp .printed, rfl, hs, by simp⟩
  | @info l₁ l₂ p next ppid pgid sid hs hp =>
    exact ⟨l₁, p, l₂, _, [], [], [], [], .next hp (.info ppid pgid sid), rfl, hs, by simp⟩
  | @fork l₁ l₂ p i pid hs hp =>
    exact ⟨l₁, p, l₂, _, [], [], _, _, .fork pid hp, rfl, hs, by simp⟩
  | @forkFail l₁ l₂ p i hs hp =>
    exact ⟨l₁, p, l₂, _, [], [], [], [], .next hp .forkFail, rfl, hs, by simp⟩
  | @sleep l₁ l₂ p next hs hp =>
    exact ⟨l₁, p, l₂, _, [], [], [], [], .next hp .sleep, rfl, hs, by simp⟩
  | @wait l₁ l₂ p q i j status hs hp =>
    exact ⟨l₁, p, l₂, _, [], [], [], [], .next hp (.wait q.pid status), rfl, hs, by simp⟩
  | @waitError l₁ l₂ p i hs hp =>
    exact ⟨l₁, p, l₂, _, [], [], [], [], .next hp .waitError, rfl, hs, by simp⟩
  | @rusage l₁ l₂ p u v w x hs hp =>
    exact ⟨l₁, p, l₂, _, [], [], [], [], .next hp (.rusage u v w x), rfl, hs, by simp⟩
  | @rusageError l₁ l₂ p hs hp =>
    exact ⟨l₁, p, l₂, _, [], [], [], [], .next hp .rusageError, rfl, hs, by simp⟩
  | @exit l₁ l₂ p status hs hp =>
    exact ⟨l₁, p, l₂, _, _, [], [], [], .exit hp, rfl, hs, by simp⟩

/-! ### Control -/

/-- The rest of a child's code: no call of `fork`, `wait` or `getrusage` in it. -/
def PC.Child : PC → Prop
  | .print _ next | .info next | .sleep next => next.Child
  | .exit _ | .exited _ => True
  | .fork _ | .wait _ | .rusage => False

/-- The code of a process that has not exited. -/
def PC.Live : PC → Prop
  | .print _ next | .info next | .sleep next => next.Live
  | .fork _ | .wait _ | .rusage | .exit _ => True
  | .exited _ => False

/-- A process that has exited has nothing in its buffer. -/
def Proc.Closed (p : Proc) : Prop :=
  p.pc.Live ∨ (∃ status, p.pc = .exited status) ∧ p.buffer = []

/-- If `empty` holds now and after each newline, it holds at every `fork`, `wait` and `exit`
ahead. -/
def PC.Tidy : Prop → PC → Prop
  | empty, .print text next => next.Tidy ((text = [] ∧ empty) ∨ text.getLast? = some '\n')
  | _, .info next => next.Tidy True
  | empty, .sleep next => next.Tidy empty
  | empty, .fork _ | empty, .wait _ | empty, .rusage | empty, .exit _ | empty, .exited _ => empty

theorem getLast_processInfo (pid ppid pgid sid : ℕ) :
    (processInfo pid ppid pgid sid).getLast? = some '\n' :=
  List.getLast?_concat

theorem getLast_created (i pid : ℕ) : (created i pid).getLast? = some '\n' :=
  List.getLast?_concat

theorem getLast_terminated (pid status : ℕ) : (terminated pid status).getLast? = some '\n' :=
  List.getLast?_concat

theorem PC.Tidy.mono {pc : PC} {e e' : Prop} (he : e → e') (h : pc.Tidy e) : pc.Tidy e' := by
  induction pc generalizing e e' with
  | print text next ih => exact ih (by tauto) h
  | info next ih => exact h
  | sleep next ih => exact ih he h
  | fork | wait | rusage | exit | exited => exact he h

theorem childTask_child (i sleepTime : ℕ) : (childTask i sleepTime).Child := by
  simp [childTask, PC.Child]

theorem childTask_live (i sleepTime : ℕ) : (childTask i sleepTime).Live := by
  simp [childTask, PC.Live]

theorem childTask_tidy (i sleepTime : ℕ) (e : Prop) : (childTask i sleepTime).Tidy e :=
  Or.inr List.getLast?_concat

theorem waitLoop_tidy (i : ℕ) : (waitLoop children i).Tidy True := by
  unfold waitLoop
  split <;> trivial

theorem waitLoop_live (i : ℕ) : (waitLoop children i).Live := by
  unfold waitLoop
  split <;> trivial

theorem forkLoop_tidy (i : ℕ) : (forkLoop children i).Tidy True := by
  unfold forkLoop
  split
  · trivial
  · change (waitLoop children 0).Tidy _
    exact (waitLoop_tidy 0).mono fun _ => Or.inr List.getLast?_concat

theorem forkLoop_live (i : ℕ) : (forkLoop children i).Live := by
  unfold forkLoop
  split
  · trivial
  · exact waitLoop_live 0

theorem main_tidy (e : Prop) : (main children).Tidy e := by
  simp [main, PC.Tidy, forkLoop_tidy]

theorem Next.child {pid : ℕ} {pc pc' : PC} (h : Next children pid pc pc') (hc : pc.Child) :
    pc'.Child := by
  cases h with
  | printed | info | sleep => exact hc
  | forkFail => trivial
  | wait | waitError | rusage | rusageError => exact hc.elim

theorem Next.live {pid : ℕ} {pc pc' : PC} (h : Next children pid pc pc') (hl : pc.Live) :
    pc'.Live := by
  cases h with
  | printed | info | sleep => exact hl
  | forkFail => trivial
  | wait | waitError => simp only [PC.Live, waitLoop_live]
  | rusage | rusageError => simp only [PC.Live, finish]

theorem Next.tidy {pid : ℕ} {pc pc' : PC} {e : Prop} (h : Next children pid pc pc')
    (ht : pc.Tidy e) : pc'.Tidy e := by
  cases h with
  | printed => exact ht.mono (by simp)
  | info =>
    simp only [PC.Tidy] at ht ⊢
    exact ht.mono fun _ => Or.inr (getLast_processInfo _ _ _ _)
  | sleep => exact ht
  | forkFail => exact ht
  | @wait i child status =>
    change (waitLoop children (i + 1)).Tidy _
    exact (waitLoop_tidy _).mono fun _ => Or.inr (getLast_terminated _ _)
  | waitError => exact (waitLoop_tidy _).mono fun _ => ht
  | rusage | rusageError => simp [finish, PC.Tidy]

/-- The process is at the end of a line, with nothing in its buffer. -/
def Proc.Flushed (p : Proc) : Prop :=
  p.buffer = [] ∧ (p.text = [] ∨ p.text.getLast? = some '\n')

/-- Only the parent forks and waits, and line buffered each line is complete by then. -/
structure Controlled (b : Buffering) (s : State) : Prop where
  child : ∀ q ∈ s.procs.tail, q.pc.Child
  tidy : b.mode = .line → ∀ q ∈ s.procs, q.pc.Tidy q.Flushed

theorem Local.child {k : ℕ} {p p' : Proc} {out new copy : List Byte} {procs : List Proc}
    (h : Local b children k p p' out new copy procs) (hc : p.pc.Child) : p'.pc.Child := by
  cases h with
  | put hp => simpa [hp, PC.Child, Proc.put] using hc
  | next hp hn => exact hn.child (hp ▸ hc)
  | fork pid hp => simp [hp, PC.Child] at hc
  | exit hp => trivial

theorem Local.tidy {k : ℕ} {p p' : Proc} {out new copy : List Byte} {procs : List Proc}
    (h : Local b children k p p' out new copy procs) (hb : b.mode = .line)
    (ht : p.pc.Tidy p.Flushed) : p'.pc.Tidy p'.Flushed := by
  cases h with
  | @put c rest next hp =>
    simp only [hp, PC.Tidy, Proc.put] at ht ⊢
    refine ht.mono ?_
    -- Only the last character of the text decides, and a newline empties the buffer.
    cases rest with
    | nil =>
      intro h
      have hc : c = '\n' := by simpa using h
      exact Or.inl ⟨rfl, put_newline hb (by simp [isNewline, hc]), by simp [hc]⟩
    | cons d rest => simp
  | next hp hn => exact hn.tidy (hp ▸ ht)
  | @fork i pid hp =>
    simp only [PC.Tidy]
    exact (forkLoop_tidy (i + 1)).mono fun _ => Or.inr (getLast_created _ _)
  | exit hp =>
    rw [hp] at ht
    exact ⟨rfl, ht.2⟩

theorem Local.procs_child {k : ℕ} {p p' : Proc} {out new copy : List Byte} {procs : List Proc}
    (h : Local b children k p p' out new copy procs) {q : Proc} (hq : q ∈ procs) :
    q.pc.Child ∧ q.pc.Tidy q.Flushed := by
  cases h with
  | put | next | exit => simp at hq
  | fork pid hp =>
    obtain rfl : q = _ := by simpa using hq
    exact ⟨childTask_child _ _, childTask_tidy _ _ _⟩

theorem controlled_step (h : Step b children s e t) (hs : Controlled b s) : Controlled b t := by
  obtain ⟨l₁, p, l₂, p', out, new, copy, procs, hl, -, hsp, htp, -⟩ := step_local h
  constructor
  · intro q hq
    have hc := hs.child
    cases l₁ with
    | nil =>
      simp only [hsp, htp, List.nil_append, List.tail_cons, List.mem_append] at hc hq
      rcases hq with hq | hq
      · exact hc q hq
      · exact (hl.procs_child hq).1
    | cons p₀ l₁ =>
      simp only [hsp, htp, List.cons_append, List.tail_cons, List.mem_append,
        List.mem_cons] at hc hq
      rcases hq with hq | rfl | hq | hq
      · exact hc q (Or.inl hq)
      · exact hl.child (hc p (by simp))
      · exact hc q (by simp [hq])
      · exact (hl.procs_child hq).1
  · intro hb q hq
    have ht := hs.tidy hb
    simp only [hsp, htp, List.mem_append, List.mem_cons] at ht hq
    rcases hq with hq | rfl | hq | hq
    · exact ht q (Or.inl hq)
    · exact hl.tidy hb (ht p (by simp))
    · exact ht q (by simp [hq])
    · exact (hl.procs_child hq).2

theorem controlled_reachable (h : (system b children).Reachable s) : Controlled b s := by
  refine h.invariant ?_ fun s e t hst hs => controlled_step hst hs
  rintro s₀ ⟨pid, rfl⟩
  exact ⟨by simp [initialState], by simp [initialState, main_tidy]⟩

/-! ### Accounting -/

/-- The characters of process `k`, each with its place. -/
def bytes (k : ℕ) (text : List Char) : List Byte := text.mapIdx (Byte.mk k)

theorem proc_of_mem_bytes {k : ℕ} {text : List Char} {x : Byte} (hx : x ∈ bytes k text) :
    x.proc = k := by
  obtain ⟨i, hi, rfl⟩ := List.mem_mapIdx.mp hx
  rfl

section Local

variable {k : ℕ} {p' : Proc} {out new copy : List Byte} {procs : List Proc}

/-- A step neither loses a character of its process nor adds one, but those it prints. -/
theorem Local.split (h : Local b children k p p' out new copy procs) :
    out ++ p'.buffer = p.buffer ++ new := by
  cases h with
  | put hp => exact put_append b isNewline p.buffer _
  | next | fork | exit => simp

/-- New characters carry the next index of their process. -/
theorem Local.text (h : Local b children k p p' out new copy procs) :
    bytes k p'.text = bytes k p.text ++ new := by
  cases h with
  | put => simp [bytes, Proc.put]
  | next | fork | exit => simp

/-- A new child starts with a copy of the buffer. -/
theorem Local.child_buffer (h : Local b children k p p' out new copy procs) :
    (procs = [] ∧ copy = []) ∨ ∃ q, procs = [q] ∧ q.buffer = copy ∧ q.text = [] := by
  cases h with
  | put | next | exit => exact Or.inl ⟨rfl, rfl⟩
  | fork => exact Or.inr ⟨_, rfl, rfl, rfl⟩

/-- Processes that have exited take no step; one that exits leaves an empty buffer. -/
theorem Local.closed (h : Local b children k p p' out new copy procs) (hp : p.Closed) :
    p.pc.Live ∧ p'.Closed := by
  have hlive : p.pc.Live := by
    rcases hp with hp | ⟨⟨status, hp⟩, -⟩
    · exact hp
    · cases h with
      | next hpc hn => cases hn <;> simp [hp] at hpc
      | put hpc | fork _ hpc | exit hpc => simp [hp] at hpc
  refine ⟨hlive, ?_⟩
  cases h with
  | put hpc => exact Or.inl (by simpa [hpc, PC.Live, Proc.put] using hlive)
  | next hpc hn => exact Or.inl (hn.live (hpc ▸ hlive))
  | fork => exact Or.inl (forkLoop_live _)
  | exit => exact Or.inr ⟨⟨_, rfl⟩, rfl⟩

theorem Local.procs_closed (h : Local b children k p p' out new copy procs) (hq : q ∈ procs) :
    q.Closed := by
  cases h with
  | put | next | exit => simp at hq
  | fork =>
    obtain rfl : q = _ := by simpa using hq
    exact Or.inl (childTask_live _ _)

/-- Fully buffered, a process that started with an empty buffer holds the last
characters it printed, up to a multiple of the capacity. -/
theorem Local.length_buffer (h : Local b children k p p' out new copy procs)
    (hb : b.mode = .full) (hp : p.buffer.length = p.text.length % b.cap) :
    (∃ status, p'.pc = .exited status) ∨ p'.buffer.length = p'.text.length % b.cap := by
  cases h with
  | put => exact Or.inr (by simpa [Proc.put] using length_put_full hb hp)
  | next | fork => exact Or.inr hp
  | exit => exact Or.inl ⟨_, rfl⟩

end Local

/-- The account of all characters: written out or held, and printed or copied. -/
structure Accounted (s : State) : Prop where
  conserved : s.output.length + (s.procs.map fun q => q.buffer.length).sum =
    (s.procs.map fun q => q.text.length).sum + s.copied.length
  closed : ∀ q ∈ s.procs, q.Closed

theorem accounted_step (h : Step b children s e t) (hs : Accounted s) : Accounted t := by
  obtain ⟨l₁, p, l₂, p', out, new, copy, procs, hl, -, hsp, htp, ho, hc⟩ := step_local h
  constructor
  · have hcons := hs.conserved
    have hsplit := congrArg List.length hl.split
    have htext := congrArg List.length hl.text
    have hnew : (procs.map fun q => q.buffer.length).sum = copy.length ∧
        (procs.map fun q => q.text.length).sum = 0 := by
      rcases hl.child_buffer with ⟨rfl, rfl⟩ | ⟨q, rfl, hq, hqt⟩
      · simp
      · simp [hq, hqt]
    simp only [bytes, List.length_append, List.length_mapIdx] at hsplit htext
    simp only [hsp, htp, ho, hc, List.map_append, List.map_cons, List.sum_append, List.sum_cons,
      List.length_append, hnew.1, hnew.2] at hcons ⊢
    omega
  · intro q hq
    have hclosed := hs.closed
    simp only [hsp, htp, List.mem_append, List.mem_cons] at hclosed hq
    rcases hq with hq | rfl | hq | hq
    · exact hclosed q (Or.inl hq)
    · exact (hl.closed (hclosed p (by simp))).2
    · exact hclosed q (by simp [hq])
    · exact hl.procs_closed hq

theorem accounted_reachable (h : (system b children).Reachable s) : Accounted s := by
  refine h.invariant ?_ fun s e t hst hs => accounted_step hst hs
  rintro s₀ ⟨pid, rfl⟩
  constructor <;> simp [initialState, Proc.Closed, main, PC.Live, forkLoop_live]

/-- The parent's buffer, as long as it has not exited. -/
def Filled (b : Buffering) (s : State) : Prop :=
  ∀ p, s.procs.head? = some p →
    (∃ status, p.pc = .exited status) ∨ p.buffer.length = p.text.length % b.cap

theorem filled_reachable (hb : b.mode = .full) (h : (system b children).Reachable s) :
    Filled b s := by
  refine h.invariant_of_reachable ?_ ?_
  · rintro s₀ ⟨pid, rfl⟩ p hp
    obtain rfl : _ = p := by simpa [initialState] using hp
    simp
  · intro s e t hr hst hs q hq
    obtain ⟨l₁, p, l₂, p', out, new, copy, procs, hl, -, hsp, htp, -⟩ := step_local hst
    cases l₁ with
    | cons p₀ l₁ => exact hs q (by simpa [hsp, htp] using hq)
    | nil =>
      obtain rfl : p' = q := by simpa [htp] using hq
      rcases hs p (by simp [hsp]) with ⟨status, hp⟩ | hp
      · have hlive := (hl.closed ((accounted_reachable hr).closed p (by simp [hsp]))).1
        simp [hp, PC.Live] at hlive
      · exact hl.length_buffer hb hp

/-- Only the parent calls `fork`. -/
theorem fork_parent (hr : (system b children).Reachable s) {k pid : ℕ}
    (h : Step b children s (.fork k pid) t) :
    ∃ p i, s.procs.head? = some p ∧ p.pc = .fork i ∧ t.copied = s.copied ++ p.buffer := by
  cases h with
  | @fork l₁ l₂ p i pid hs hp =>
    cases l₁ with
    | nil => exact ⟨p, i, by simp [hs], hp, rfl⟩
    | cons p₀ l₁ =>
      have hc := (controlled_reachable hr).child p (by simp [hs])
      simp [hp, PC.Child] at hc

theorem copied_eq_of_not_fork (h : Step b children s e t) (hf : ∀ k pid, e ≠ .fork k pid) :
    t.copied = s.copied := by
  cases h with
  | fork => exact (hf _ _ rfl).elim
  | put | printed | info | forkFail | sleep | wait | waitError | rusage | rusageError | exit =>
    rfl

/-- What the parent has printed so far fills its buffer a whole number of times. -/
def Aligned (b : Buffering) (s : State) : Prop :=
  ∀ p, s.procs.head? = some p → b.cap ∣ p.text.length

theorem copied_fork (hr : (system b children).Reachable s) {k pid : ℕ}
    (h : Step b children s (.fork k pid) t) :
    t.copied = s.copied ↔ b.mode = .line ∨ Aligned b s := by
  obtain ⟨p, i, hp, hpc, hc⟩ := fork_parent hr h
  rw [hc, List.append_right_eq_self]
  cases hm : b.mode with
  | line =>
    have ht := (controlled_reachable hr).tidy hm p (List.mem_of_mem_head? hp)
    rw [hpc] at ht
    simpa using ht.1
  | full =>
    rcases filled_reachable hm hr p hp with ⟨status, hx⟩ | hlen
    · simp [hpc] at hx
    · simp [Aligned, hp, ← List.length_eq_zero_iff, hlen, Nat.dvd_iff_mod_eq_zero]

theorem copied_isPrefix (h : Step b children s e t) : s.copied <+: t.copied := by
  obtain ⟨-, -, -, -, -, -, copy, -, -, -, -, -, -, hc⟩ := step_local h
  exact hc ▸ List.prefix_append _ _

/-! ### Order -/

/-- A process's text is what it has written out and what it holds, in order. -/
structure Ordered (s : State) : Prop where
  text : ∀ k p, s.procs[k]? = some p →
    (s.output.filter fun x => x.proc = k) ++ p.buffer = bytes k p.text
  owner : ∀ x ∈ s.output, x.proc < s.procs.length

/-- The processes after a step: the one that made it, the others and the new ones. -/
theorem getElem?_step {k : ℕ} {l₁ l₂ procs : List Proc} {p' : Proc}
    (h : (l₁ ++ p' :: (l₂ ++ procs))[k]? = some q) :
    (k = l₁.length ∧ q = p') ∨ (k ≠ l₁.length ∧ (l₁ ++ p :: l₂)[k]? = some q) ∨
      (l₁ ++ p :: l₂).length ≤ k ∧ q ∈ procs := by
  rcases Nat.lt_trichotomy k l₁.length with hlt | rfl | hgt
  · rw [List.getElem?_append_left hlt] at h
    exact Or.inr (Or.inl ⟨Nat.ne_of_lt hlt, by rwa [List.getElem?_append_left hlt]⟩)
  · exact Or.inl ⟨rfl, by simpa using h.symm⟩
  · obtain ⟨d, rfl⟩ := Nat.exists_eq_add_of_lt hgt
    simp only [Nat.add_assoc, List.getElem?_append_right (Nat.le_add_right _ _),
      Nat.add_sub_cancel_left, List.getElem?_cons_succ] at h ⊢
    rcases Nat.lt_or_ge d l₂.length with hd | hd
    · rw [List.getElem?_append_left hd] at h
      exact Or.inr (Or.inl ⟨by omega, h⟩)
    · rw [List.getElem?_append_right hd] at h
      exact Or.inr (Or.inr ⟨by simp; omega, List.mem_of_getElem? h⟩)

section Local

variable {l₁ l₂ procs : List Proc} {p' : Proc} {out new copy : List Byte}

theorem Ordered.text_step (hs : Ordered s) (hsp : s.procs = l₁ ++ p :: l₂)
    (hl : Local b children l₁.length p p' out new copy procs) :
    (s.output.filter fun x => x.proc = l₁.length) ++ (out ++ p'.buffer) =
      bytes l₁.length p'.text := by
  rw [hl.text, hl.split, ← List.append_assoc, hs.text l₁.length p (by simp [hsp])]

/-- A process writes out its own characters only. -/
theorem Ordered.own (hs : Ordered s) (hsp : s.procs = l₁ ++ p :: l₂)
    (hl : Local b children l₁.length p p' out new copy procs) : ∀ x ∈ out, x.proc = l₁.length := by
  intro x hx
  have hmem : x ∈ bytes l₁.length p'.text := by
    rw [← hs.text_step hsp hl]
    simp [hx]
  exact proc_of_mem_bytes hmem

end Local

theorem ordered_step (h : Step b children s e t) (hc : t.copied = s.copied) (hs : Ordered s) :
    Ordered t := by
  obtain ⟨l₁, p, l₂, p', out, new, copy, procs, hl, -, hsp, htp, ho, hcopy⟩ := step_local h
  obtain rfl : copy = [] := by simpa [hc] using hcopy
  have hout := hs.own hsp hl
  have hself : (out.filter fun x => x.proc = l₁.length) = out :=
    List.filter_eq_self.mpr (by simpa using hout)
  have hother {k : ℕ} (hk : k ≠ l₁.length) : (out.filter fun x => x.proc = k) = [] :=
    List.filter_eq_nil_iff.mpr fun x hx => by simpa [hout x hx] using Ne.symm hk
  have hlt : l₁.length < s.procs.length := by simp [hsp]
  constructor
  · intro k q hq
    rw [htp] at hq
    rw [ho, List.filter_append]
    rcases getElem?_step (p := p) hq with ⟨rfl, rfl⟩ | ⟨hk, hq⟩ | ⟨hk, hq⟩
    · rw [hself, List.append_assoc, hs.text_step hsp hl]
    · rw [hother hk, List.append_nil, hs.text k q (hsp ▸ hq)]
    · -- A new process has nothing in its buffer, and nobody wrote under its number.
      rw [← hsp] at hk
      have hold : (s.output.filter fun x => x.proc = k) = [] := by
        refine List.filter_eq_nil_iff.mpr fun x hx => ?_
        have := hs.owner x hx
        simp only [decide_eq_true_eq]
        omega
      have hnew := hother (k := k) (by omega)
      rcases hl.child_buffer with ⟨rfl, -⟩ | ⟨q', rfl, hb, ht⟩
      · cases hq
      · obtain rfl : q = q' := by simpa using hq
        simp [hold, hnew, hb, ht, bytes]
  · intro x hx
    have hle : s.procs.length ≤ t.procs.length := by simp [hsp, htp]
    rw [ho, List.mem_append] at hx
    rcases hx with hx | hx
    · exact Nat.lt_of_lt_of_le (hs.owner x hx) hle
    · rw [hout x hx]
      omega

/-- As long as no `fork` has copied a character. -/
theorem ordered_reachable (h : (system b children).Reachable s) (hc : s.copied = []) :
    Ordered s := by
  refine h.invariant (P := fun s => s.copied = [] → Ordered s) ?_ ?_ hc
  · rintro s₀ ⟨pid, rfl⟩ -
    refine ⟨?_, by simp [initialState]⟩
    intro k p hp
    obtain rfl : (⟨pid, main children, [], []⟩ : Proc) = p := by
      cases k with
      | zero => simpa [initialState] using hp
      | succ k => simp [initialState] at hp
    rfl
  · intro s e t hst hs ht
    have hcs : s.copied = [] := List.prefix_nil.mp (ht ▸ copied_isPrefix hst)
    exact ordered_step hst (ht.trans hcs.symm) (hs hcs)

end SystemCalls.ProcessManager

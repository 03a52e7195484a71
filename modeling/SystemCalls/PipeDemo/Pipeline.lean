import SystemCalls.Descriptors
import SystemCalls.Transition

/-!
# The `ls -l | wc -l` pipeline

`pipe_exec_demo` creates a pipe and two children. Each child closes the end it
does not use, duplicates the other one onto standard output or input, and closes
the original number before `execlp`.
-/

namespace SystemCalls.PipeDemo

/-- Open files: the two ends of the pipe, and whatever was open before. -/
inductive OpenFile (F : Type*)
  | other (f : F)
  | readEnd
  | writeEnd

/-- The children, by the program each of them runs. -/
inductive Role
  | ls
  | wc
  deriving DecidableEq

namespace Role

/-- The number closed first: `pipefd[0]` in the first child, `pipefd[1]` in the second. -/
def unused (pipefd : ℕ × ℕ) : Role → ℕ
  | ls => pipefd.1
  | wc => pipefd.2

def used (pipefd : ℕ × ℕ) : Role → ℕ
  | ls => pipefd.2
  | wc => pipefd.1

/-- `STDOUT_FILENO` for `ls` and `STDIN_FILENO` for `wc`. -/
def std : Role → ℕ
  | ls => 1
  | wc => 0

/-- The end of the pipe that the redirection is meant for. -/
def pipeEnd {F : Type*} : Role → OpenFile F
  | ls => .writeEnd
  | wc => .readEnd

end Role

/-- `exec` is just before `execlp`, `running` the new program, and `failed` the
`perror` after an `execlp` that returned. -/
inductive ChildPC
  | closeUnused
  | redirect
  | closeUsed
  | exec
  | running
  | failed
  | exited
  deriving DecidableEq

structure Child (F : Type*) where
  pc : ChildPC
  table : Descriptors (OpenFile F)

inductive PC
  | pipe
  | fork (r : Role)
  | closeRead
  | closeWrite
  | wait (r : Role)
  | returned
  deriving DecidableEq

/-- The calling process, with its own table, and the children it has forked. -/
structure State (F : Type*) where
  pc : PC
  pipefd : ℕ × ℕ
  table : Descriptors (OpenFile F)
  child : Role → Option (Child F)

inductive Event
  | pipe
  | pipeFail
  | fork (r : Role)
  | forkFail (r : Role)
  | closeRead
  | closeWrite
  | wait (r : Role)
  | child (r : Role)
  deriving DecidableEq

/-- The statement after `fork`, in the parent and after a failed call. -/
def PC.afterFork : Role → PC
  | .ls => .fork .wc
  | .wc => .closeRead

def PC.afterWait : Role → PC
  | .ls => .wait .wc
  | .wc => .returned

variable {F : Type*}

/-- The statements of a child. The program it runs ends at some time, and an exit
closes every descriptor. -/
inductive ChildStep (pipefd : ℕ × ℕ) (r : Role) : Child F → Child F → Prop
  | closeUnused {t : Descriptors (OpenFile F)} :
      ChildStep pipefd r ⟨.closeUnused, t⟩ ⟨.redirect, t.close (r.unused pipefd)⟩
  | redirect {t : Descriptors (OpenFile F)} :
      ChildStep pipefd r ⟨.redirect, t⟩ ⟨.closeUsed, t.dup2 (r.used pipefd) r.std⟩
  | closeUsed {t : Descriptors (OpenFile F)} :
      ChildStep pipefd r ⟨.closeUsed, t⟩ ⟨.exec, t.close (r.used pipefd)⟩
  | exec {t : Descriptors (OpenFile F)} : ChildStep pipefd r ⟨.exec, t⟩ ⟨.running, t⟩
  | execFail {t : Descriptors (OpenFile F)} : ChildStep pipefd r ⟨.exec, t⟩ ⟨.failed, t⟩
  | exit {t : Descriptors (OpenFile F)} : ChildStep pipefd r ⟨.running, t⟩ ⟨.exited, .empty⟩
  | exitFailed {t : Descriptors (OpenFile F)} :
      ChildStep pipefd r ⟨.failed, t⟩ ⟨.exited, .empty⟩

/-- `waitpid(pid, NULL, 0)` returns: the child has exited. The pid of a failed
fork is -1, which waits for any child and fails when there is none. -/
def State.Waitable (s : State F) (r : Role) : Prop :=
  match s.child r with
  | some c => c.pc = .exited
  | none => ∀ r' c, s.child r' = some c → c.pc = .exited

inductive Step : State F → Event → State F → Prop
  | pipe {s : State F} (h : s.pc = .pipe) :
      Step s .pipe { s with
        pc := .fork .ls
        pipefd := (s.table.pipe .readEnd .writeEnd).1
        table := (s.table.pipe .readEnd .writeEnd).2 }
  | pipeFail {s : State F} (h : s.pc = .pipe) : Step s .pipeFail { s with pc := .returned }
  | fork {s : State F} {r : Role} (h : s.pc = .fork r) :
      Step s (.fork r) { s with
        pc := .afterFork r
        child := Function.update s.child r (some ⟨.closeUnused, s.table⟩) }
  | forkFail {s : State F} {r : Role} (h : s.pc = .fork r) :
      Step s (.forkFail r) { s with pc := .afterFork r }
  | closeRead {s : State F} (h : s.pc = .closeRead) :
      Step s .closeRead { s with pc := .closeWrite, table := s.table.close s.pipefd.1 }
  | closeWrite {s : State F} (h : s.pc = .closeWrite) :
      Step s .closeWrite { s with pc := .wait .ls, table := s.table.close s.pipefd.2 }
  | wait {s : State F} {r : Role} (h : s.pc = .wait r) (hw : s.Waitable r) :
      Step s (.wait r) { s with pc := .afterWait r }
  | child {s : State F} {r : Role} {c c' : Child F} (hc : s.child r = some c)
      (h : ChildStep s.pipefd r c c') :
      Step s (.child r) { s with child := Function.update s.child r (some c') }

/-- The files open when `pipe_exec_demo` is called are none of the pipe's ends. -/
def start (t : Descriptors F) : State F where
  pc := .pipe
  pipefd := (0, 0)
  table := t.map .other
  child _ := none

def system (t : Descriptors F) : LTS (State F) Event where
  initial s := s = start t
  step := Step

def Forked (_ : State F) (e : Event) : Prop :=
  ∀ r, e ≠ .forkFail r

/-- The runs in which both forks succeed. -/
def forked (t : Descriptors F) : LTS (State F) Event :=
  (system t).restrict Forked

/-- Neither end of the pipe. -/
def Unrelated : Option (OpenFile F) → Prop
  | some .readEnd | some .writeEnd => False
  | _ => True

/-- The parent is past both of its `close` calls, or never had a pipe. -/
def PC.Closed : PC → Prop
  | .wait _ | .returned => True
  | _ => False

/-- Some process has a descriptor for `f`. -/
def State.Holds (s : State F) (f : OpenFile F) : Prop :=
  s.table.Holds f ∨ ∃ r c, s.child r = some c ∧ c.table.Holds f

/-- `eof` is what `wc` needs to see the end of its input: once `ls` has exited, no
process holds the write end. -/
structure Wired (s : State F) : Prop where
  child : ∀ r c, s.child r = some c → c.pc = .exec →
    c.table.file r.std = some r.pipeEnd ∧ ∀ n, n ≠ r.std → Unrelated (c.table.file n)
  parent : s.pc.Closed → ∀ n, Unrelated (s.table.file n)
  eof : s.pc.Closed → ∀ c c', s.child .wc = some c → c.pc = .running →
    s.child .ls = some c' → c'.pc = .exited → ¬ s.Holds .writeEnd

/-- The table and the numbers right after the call of `pipe`. -/
def piped (t : Descriptors F) : (ℕ × ℕ) × Descriptors (OpenFile F) :=
  (t.map .other).pipe .readEnd .writeEnd

/-- What a child has made of its copy of the table when it gets to `pc`. -/
def ChildPC.table (t : Descriptors F) (r : Role) : ChildPC → Descriptors (OpenFile F)
  | .closeUnused => (piped t).2
  | .redirect => (piped t).2.close (r.unused (piped t).1)
  | .closeUsed => ((piped t).2.close (r.unused (piped t).1)).dup2 (r.used (piped t).1) r.std
  | .exec | .running | .failed =>
    (((piped t).2.close (r.unused (piped t).1)).dup2 (r.used (piped t).1) r.std).close
      (r.used (piped t).1)
  | .exited => .empty

/-- The parent's table at `pc`. It returns without a pipe when the call fails. -/
def PC.Table (t : Descriptors F) (d : Descriptors (OpenFile F)) : PC → Prop
  | .pipe => d = t.map .other
  | .fork _ | .closeRead => d = (piped t).2
  | .closeWrite => d = (piped t).2.close (piped t).1.1
  | .wait _ => d = ((piped t).2.close (piped t).1.1).close (piped t).1.2
  | .returned => d = t.map .other ∨ d = ((piped t).2.close (piped t).1.1).close (piped t).1.2

/-- Every process's table is determined by where the process is. -/
structure Tracked (t : Descriptors F) (s : State F) : Prop where
  pipefd : s.pc ≠ .pipe → s.pc ≠ .returned → s.pipefd = (piped t).1
  table : s.pc.Table t s.table
  child : ∀ r c, s.child r = some c → s.pipefd = (piped t).1 ∧ c.table = c.pc.table t r

variable {t : Descriptors F} {s s' : State F} {e : Event} {r : Role} {c c' : Child F}


theorem childStep_table (h : ChildStep (piped t).1 r c c') (hc : c.table = c.pc.table t r) :
    c'.table = c'.pc.table t r := by
  cases h with
  | closeUnused | redirect | closeUsed | exec | execFail => simp_all [ChildPC.table]
  | exit | exitFailed => rfl

theorem tracked_start (t : Descriptors F) : Tracked t (start t) where
  pipefd h := (h rfl).elim
  table := rfl
  child r c hc := by cases hc

theorem tracked_step (h : Step s e s') (hi : Tracked t s) : Tracked t s' := by
  obtain ⟨hfd, ht, hc⟩ := hi
  cases h with
  | pipe hp =>
    have htable : s.table = t.map .other := by simpa [hp, PC.Table] using ht
    refine ⟨?_, ?_, ?_⟩
    · intro _ _
      simp [piped, htable]
    · simp [PC.Table, piped, htable]
    · intro r c hr
      exact ⟨by simp [piped, htable], (hc r c hr).2⟩
  | pipeFail hp => exact ⟨fun _ h => (h rfl).elim, .inl (by simpa [hp, PC.Table] using ht), hc⟩
  | @fork r hp =>
    have htable : s.table = (piped t).2 := by simpa [hp, PC.Table] using ht
    have hnum := hfd (by simp [hp]) (by simp [hp])
    refine ⟨fun _ _ => hnum, ?_, ?_⟩
    · cases r <;> exact htable
    · intro r' c hr'
      refine ⟨hnum, ?_⟩
      by_cases he : r' = r
      · subst r'
        simp only [Function.update_self, Option.some.injEq] at hr'
        simpa [← hr', ChildPC.table] using htable
      · exact (hc r' c (by simpa [he] using hr')).2
  | @forkFail r hp =>
    refine ⟨fun _ _ => hfd (by simp [hp]) (by simp [hp]), ?_, hc⟩
    cases r <;> simpa [hp, PC.Table, PC.afterFork] using ht
  | closeRead hp =>
    have hnum := hfd (by simp [hp]) (by simp [hp])
    refine ⟨fun _ _ => hnum, ?_, hc⟩
    simp_all [PC.Table]
  | closeWrite hp =>
    have hnum := hfd (by simp [hp]) (by simp [hp])
    refine ⟨fun _ _ => hnum, ?_, hc⟩
    simp_all [PC.Table]
  | @wait r hp hw =>
    refine ⟨fun _ _ => hfd (by simp [hp]) (by simp [hp]), ?_, hc⟩
    cases r <;> simp_all [PC.Table, PC.afterWait]
  | @child r c c' hr hs =>
    refine ⟨hfd, ht, ?_⟩
    intro r' d hd
    by_cases he : r' = r
    · subst r'
      simp only [Function.update_self, Option.some.injEq] at hd
      subst d
      obtain ⟨hnum, htable⟩ := hc r c hr
      exact ⟨hnum, childStep_table (hnum ▸ hs) htable⟩
    · exact hc r' d (by simpa [he] using hd)

theorem tracked_reachable (h : (system t).Reachable s) : Tracked t s := by
  apply h.invariant
  · rintro _ rfl
    exact tracked_start t
  · intro s e s' hs hi
    exact tracked_step hs hi

theorem unrelated_other (o : Option F) : Unrelated (o.map OpenFile.other) := by
  cases o <;> trivial

theorem file_piped (t : Descriptors F) (n : ℕ) : (piped t).2.file n =
    if n = (piped t).1.2 then some .writeEnd else if n = (piped t).1.1 then some .readEnd
    else (t.file n).map .other :=
  Descriptors.file_pipe _ _

theorem piped_lt (t : Descriptors F) : (piped t).1.1 < (piped t).1.2 :=
  Descriptors.pipe_lt _ _ _

theorem piped_eq_zero_iff : (piped t).1.1 = 0 ↔ t.file 0 = none := by
  rw [piped, Descriptors.pipe_eq_zero_iff]
  simp

theorem used_ne_unused (t : Descriptors F) (r : Role) :
    r.used (piped t).1 ≠ r.unused (piped t).1 := by
  have h := piped_lt t
  cases r <;> simp only [Role.used, Role.unused] <;> omega

theorem file_used (t : Descriptors F) (r : Role) :
    (piped t).2.file (r.used (piped t).1) = some r.pipeEnd := by
  have h := piped_lt t
  cases r with
  | ls => simp [file_piped, Role.used, Role.pipeEnd]
  | wc =>
    rw [file_piped, Role.used, if_neg (by omega), if_pos rfl]
    rfl

/-- Apart from the two numbers of the pipe nothing refers to it. -/
theorem unrelated_piped {n : ℕ} (hu : n ≠ r.used (piped t).1) (hn : n ≠ r.unused (piped t).1) :
    Unrelated ((piped t).2.file n) := by
  have hboth : n ≠ (piped t).1.2 ∧ n ≠ (piped t).1.1 := by
    cases r <;> simp_all [Role.used, Role.unused]
  rw [file_piped, if_neg hboth.1, if_neg hboth.2]
  exact unrelated_other _

/-- The table of a child at `execlp`. Its last `close` undoes the redirection when
the pipe's number was the standard one already. -/
theorem file_exec (t : Descriptors F) (r : Role) (n : ℕ) :
    (ChildPC.exec.table t r).file n =
      if n = r.used (piped t).1 then none
      else if n = r.std then some r.pipeEnd
      else if n = r.unused (piped t).1 then none
      else (piped t).2.file n := by
  have hused : ((piped t).2.close (r.unused (piped t).1)).file (r.used (piped t).1) =
      some r.pipeEnd := by
    rw [Descriptors.file_close, if_neg (used_ne_unused t r), file_used]
  rw [ChildPC.table, Descriptors.file_close, Descriptors.file_dup2 hused, Descriptors.file_close]

theorem exec_wired (h : r.used (piped t).1 ≠ r.std) :
    (ChildPC.exec.table t r).file r.std = some r.pipeEnd ∧
      ∀ n, n ≠ r.std → Unrelated ((ChildPC.exec.table t r).file n) := by
  constructor
  · rw [file_exec, if_neg (Ne.symm h), if_pos rfl]
  · intro n hn
    rw [file_exec, if_neg hn]
    split
    · trivial
    · split
      · trivial
      · exact unrelated_piped ‹_› ‹_›

theorem used_ne_std (h : t.file 0 ≠ none) (r : Role) : r.used (piped t).1 ≠ r.std := by
  have hread : (piped t).1.1 ≠ 0 := mt piped_eq_zero_iff.mp h
  have hlt := piped_lt t
  cases r <;> simp only [Role.used, Role.std] <;> omega

theorem Tracked.parent_unrelated (hi : Tracked t s) (hp : s.pc.Closed) (n : ℕ) :
    Unrelated (s.table.file n) := by
  have hclosed : Unrelated ((((piped t).2.close (piped t).1.1).close (piped t).1.2).file n) := by
    simp only [Descriptors.file_close]
    split
    · trivial
    · split
      · trivial
      · exact unrelated_piped (r := .ls) ‹_› ‹_›
  have ht := hi.table
  cases hpc : s.pc with
  | pipe | fork | closeRead | closeWrite => simp [hpc, PC.Closed] at hp
  | wait =>
    rw [hpc] at ht
    rwa [ht]
  | returned =>
    rw [hpc] at ht
    rcases ht with ht | ht
    · rw [ht]
      exact unrelated_other _
    · rwa [ht]

theorem not_holds_of_unrelated {d : Descriptors (OpenFile F)}
    (h : ∀ n, Unrelated (d.file n)) : ¬ d.Holds .writeEnd := by
  rintro ⟨n, hn⟩
  simpa [hn, Unrelated] using h n

theorem wired_of_open (h : t.file 0 ≠ none) (hi : Tracked t s) : Wired s where
  child r c hc hpc := by
    rw [(hi.child r c hc).2, hpc]
    exact exec_wired (used_ne_std h r)
  parent hp := hi.parent_unrelated hp
  eof := by
    rintro hp c c' hc hrun hc' hexit (hs | ⟨r, d, hd, hs⟩)
    · exact not_holds_of_unrelated (hi.parent_unrelated hp) hs
    · cases r with
      | ls =>
        have htable := (hi.child .ls c' hc').2
        rw [hexit] at htable
        simp only [hc', Option.some.injEq] at hd
        subst d
        rw [htable] at hs
        exact Descriptors.not_holds_empty hs
      | wc =>
        have htable := (hi.child .wc c hc).2
        rw [hrun] at htable
        simp only [hc, Option.some.injEq] at hd
        subst d
        have hwired := exec_wired (t := t) (used_ne_std h .wc)
        obtain ⟨n, hn⟩ := hs
        rw [htable] at hn
        change (ChildPC.exec.table t .wc).file n = some .writeEnd at hn
        by_cases hstd : n = Role.wc.std
        · rw [hstd, hwired.1] at hn
          cases hn
        · simpa [hn, Unrelated] using hwired.2 n hstd

theorem child_reachable (h : (forked t).Reachable s) (hc : s.child r = some c)
    (hs : ChildStep s.pipefd r c c') :
    (forked t).Reachable { s with child := Function.update s.child r (some c') } :=
  h.step ⟨fun _ => by simp, .child hc hs⟩

/-- A child that has been forked gets to its `execlp` on its own. -/
theorem exists_child_exec (h : (forked t).Reachable s) (hc : s.child r = some c)
    (hpc : c.pc = .closeUnused) :
    ∃ c', c'.pc = .exec ∧
      (forked t).Reachable { s with child := Function.update s.child r (some c') } := by
  obtain ⟨_, d⟩ := c
  subst hpc
  have h₁ := child_reachable h hc .closeUnused
  have h₂ := child_reachable h₁ (Function.update_self ..) .redirect
  have h₃ := child_reachable h₂ (Function.update_self ..) .closeUsed
  simp only [Function.update_idem] at h₃
  exact ⟨_, rfl, h₃⟩

/-- From every table both children get to their `execlp`. -/
theorem exists_exec (t : Descriptors F) : ∃ s, (forked t).Reachable s ∧
    ∀ r, ∃ c, s.child r = some c ∧ c.pc = .exec := by
  have h₀ : (forked t).Reachable (start t) := .of_initial rfl
  have h₁ := h₀.step ⟨fun _ => by simp, Step.pipe rfl⟩
  have h₂ := h₁.step ⟨fun _ => by simp, Step.fork (r := .ls) rfl⟩
  have h₃ := h₂.step ⟨fun _ => by simp, Step.fork (r := .wc) rfl⟩
  obtain ⟨c, hc, h₄⟩ := exists_child_exec h₃ (r := .ls) (c := ⟨.closeUnused, (piped t).2⟩) rfl rfl
  obtain ⟨c', hc', h₅⟩ := exists_child_exec h₄ (r := .wc) (c := ⟨.closeUnused, (piped t).2⟩) rfl rfl
  refine ⟨_, h₅, ?_⟩
  rintro (_ | _)
  · exact ⟨c, by simp, hc⟩
  · exact ⟨c', by simp, hc'⟩

/-- The pipeline is wired as intended on every run exactly when standard input is
open at the call. Otherwise the read end gets number 0, and `wc` closes it again. -/
theorem pipeline_wired_iff (t : Descriptors F) :
    (∀ s, (forked t).Reachable s → Wired s) ↔ t.file 0 ≠ none := by
  constructor
  · intro h h0
    obtain ⟨s, hs, hexec⟩ := exists_exec t
    obtain ⟨c, hc, hpc⟩ := hexec .wc
    have hwired := ((h s hs).child .wc c hc hpc).1
    have hzero : Role.wc.std = Role.wc.used (piped t).1 := (piped_eq_zero_iff.mpr h0).symm
    have htracked := tracked_reachable hs.of_restrict
    rw [(htracked.child .wc c hc).2, hpc, file_exec, if_pos hzero] at hwired
    cases hwired
  · intro h s hs
    exact wired_of_open h (tracked_reachable hs.of_restrict)

/-- Standard output and standard error are open, and standard input is closed. -/
def noStdin : Descriptors Unit :=
  (Descriptors.empty.install 1 ()).install 2 ()

/-- With standard input closed, `wc` starts without any descriptor 0. -/
theorem wc_without_stdin : ∃ s, (forked noStdin).Reachable s ∧
    (∃ c, s.child .wc = some c ∧ c.pc = .exec ∧ c.table.file 0 = none) ∧ ¬ Wired s := by
  obtain ⟨s, hs, hexec⟩ := exists_exec noStdin
  obtain ⟨c, hc, hpc⟩ := hexec .wc
  have hzero : Role.wc.used (piped noStdin).1 = 0 := piped_eq_zero_iff.mpr rfl
  have hfile : c.table.file 0 = none := by
    have htracked := tracked_reachable hs.of_restrict
    rw [(htracked.child .wc c hc).2, hpc, file_exec, if_pos hzero.symm]
  refine ⟨s, hs, ⟨c, hc, hpc, hfile⟩, ?_⟩
  intro h
  have hwired := (h.child .wc c hc hpc).1
  change c.table.file 0 = some .readEnd at hwired
  rw [hfile] at hwired
  cases hwired

end SystemCalls.PipeDemo

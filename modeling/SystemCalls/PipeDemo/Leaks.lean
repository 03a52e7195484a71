import SystemCalls.PipeDemo.Calls
import SystemCalls.PipeDemo.Pipeline

/-!
# `pipe_demo`: descriptors left open

Which calls a run makes depends on the table it starts with only through the numbers of the
descriptors. The control of a state forgets them and keeps the ends each process holds. It is
followed step by step and explored to the end of every run.
-/

namespace SystemCalls.PipeDemo.Calls

open PipeEnd

/-! ### Control -/

structure ProcControl where
  code : List Stmt
  ends : List PipeEnd

structure Control where
  caller : ProcControl
  child : Option ProcControl
  unread : List Pipe
  broken : Bool

namespace Control

def holds (a : Control) (e : PipeEnd) : Bool :=
  decide (e ∈ a.caller.ends) || a.child.any (fun c => decide (e ∈ c.ends))

def procNext (holds : PipeEnd → Bool) (p : ProcControl) (unread : List Pipe) :
    Option (ProcControl × List Pipe × Bool) :=
  match p.code with
  | .close e :: code => some (⟨code, p.ends.filter (· ≠ e)⟩, unread, false)
  | .read q :: code =>
    if q ∈ unread then some (⟨code, p.ends⟩, unread.filter (· ≠ q), false)
    else if holds (write q) then none
    else some (⟨code, p.ends⟩, unread, false)
  | .write q :: code =>
    if holds (read q) then some (⟨code, p.ends⟩, q :: unread, false)
    else some (⟨[], []⟩, unread, true)
  | .exit :: _ => some (⟨[], []⟩, unread, false)
  | _ => none

def callerNext (d : Demo) (o : Outcomes) (a : Control) : Option Control :=
  match a.caller.code with
  | .pipe p :: code =>
    if o.pipe p then some { a with caller := ⟨code, read p :: write p :: a.caller.ends⟩ }
    else some { a with caller := ⟨[], a.caller.ends⟩ }
  | .fork :: code =>
    if o.fork then
      match a.child with
      | none => some { a with
          caller := ⟨code, a.caller.ends⟩
          child := some ⟨d.child, a.caller.ends⟩ }
      | some _ => none
    else some { a with caller := ⟨if d.forkChecked then [] else code, a.caller.ends⟩ }
  | .wait :: code =>
    if a.child.all (·.code.isEmpty) then some { a with caller := ⟨code, a.caller.ends⟩ }
    else none
  | _ => (procNext a.holds a.caller a.unread).map fun r => { a with
      caller := r.1
      unread := r.2.1
      broken := a.broken || r.2.2 }

def childNext (a : Control) : Option Control :=
  a.child.bind fun c => (procNext a.holds c a.unread).map fun r => { a with
    child := some r.1
    unread := r.2.1 }

/-- Calls are made on ends that are held, and only the child exits. -/
def procSound (p : ProcControl) : Bool :=
  match p.code with
  | .close e :: _ => decide (e ∈ p.ends)
  | .read q :: _ => decide (read q ∈ p.ends)
  | .write q :: _ => decide (write q ∈ p.ends)
  | _ => true

def sound (a : Control) : Bool :=
  procSound a.caller && a.child.all procSound &&
    match a.caller.code with
    | .pipe p :: _ =>
      a.child.isNone && decide (read p ∉ a.caller.ends) && decide (write p ∉ a.caller.ends)
    | .exit :: _ => false
    | _ => true

def next (d : Demo) (o : Outcomes) (a : Control) : Actor → Option Control
  | .caller => callerNext d o a
  | .child => childNext a

def final (d : Demo) (o : Outcomes) (a : Control) : Bool :=
  (next d o a .caller).isNone && (next d o a .child).isNone

/-- Every run from `a` ends after at most `n` steps, with `good` at its end. -/
def check (d : Demo) (o : Outcomes) (good : Control → Bool) : ℕ → Control → Bool
  | 0, a => a.sound && final d o a && good a
  | n + 1, a => a.sound && (!final d o a || good a) &&
      ((next d o a .caller).all (check d o good n) && (next d o a .child).all (check d o good n))

def clean (a : Control) : Bool :=
  a.caller.code.isEmpty && a.caller.ends.isEmpty && !a.broken

def start (d : Demo) : Control :=
  ⟨⟨d.caller, []⟩, none, [], false⟩

/-- Room for every call of the longest function and its child. -/
def enough : ℕ := 20

theorem check_simple : ∀ b₁ b₂ b₃, check simple_pipe_demo ⟨b₁, b₂, b₃⟩
    (fun a => a.clean == (!b₁ || b₃)) enough (start simple_pipe_demo) = true := by
  decide

theorem check_bidirectional : ∀ b₁ b₂ b₃, check bidirectional_pipe_demo ⟨b₁, b₂, b₃⟩
    (fun a => a.clean == (!b₁ || (b₂ && b₃))) enough (start bidirectional_pipe_demo) = true := by
  decide +kernel

theorem check_capacity : ∀ b₁ b₂ b₃, check pipe_capacity_demo ⟨b₁, b₂, b₃⟩
    clean enough (start pipe_capacity_demo) = true := by
  decide

end Control

/-! ### Tables and the ends they hold -/

variable {F : Type*} {t : Descriptors F} {u : Descriptors (File F)} {fd : PipeEnd → ℕ}
  {ends : List PipeEnd} {e e' : PipeEnd} {p : Pipe}

/-- The descriptors of `u` for ends of pipes are those of `ends`, under their numbers. -/
structure Ends (fd : PipeEnd → ℕ) (ends : List PipeEnd) (u : Descriptors (File F)) : Prop where
  held : ∀ e ∈ ends, u.file (fd e) = some (.pipeEnd e)
  mem : ∀ n e, u.file n = some (.pipeEnd e) → e ∈ ends ∧ n = fd e

/-- Apart from these `u` is the table `t`, in which their numbers were free. -/
structure Over (t : Descriptors F) (fd : PipeEnd → ℕ) (ends : List PipeEnd)
    (u : Descriptors (File F)) : Prop where
  free : ∀ e ∈ ends, t.file (fd e) = none
  other : ∀ n, (∀ e ∈ ends, n ≠ fd e) → u.file n = (t.file n).map .other

theorem mem_filter_ne : e' ∈ ends.filter (· ≠ e) ↔ e' ∈ ends ∧ e' ≠ e := by
  simp

theorem Ends.holds_iff (h : Ends fd ends u) : u.Holds (.pipeEnd e) ↔ e ∈ ends := by
  constructor
  · rintro ⟨n, hn⟩
    exact (h.mem n e hn).1
  · intro he
    exact ⟨fd e, h.held e he⟩

/-- Different ends have different numbers. -/
theorem Ends.fd_ne (h : Ends fd ends u) (he : e ∈ ends) (he' : e' ∈ ends) (hne : e' ≠ e) :
    fd e' ≠ fd e := by
  intro heq
  have hfile := h.held e' he'
  rw [heq, h.held e he] at hfile
  cases hfile
  exact hne rfl

theorem Ends.empty : Ends fd [] (Descriptors.empty : Descriptors (File F)) where
  held e he := by cases he
  mem n e hn := by cases hn

theorem Ends.close (h : Ends fd ends u) (he : e ∈ ends) :
    Ends fd (ends.filter (· ≠ e)) (u.close (fd e)) where
  held e' he' := by
    obtain ⟨hmem, hne⟩ := mem_filter_ne.mp he'
    rw [Descriptors.file_close, if_neg (h.fd_ne he hmem hne)]
    exact h.held e' hmem
  mem n e' hn := by
    rw [Descriptors.file_close] at hn
    split at hn
    · cases hn
    · obtain ⟨hmem, rfl⟩ := h.mem n e' hn
      refine ⟨mem_filter_ne.mpr ⟨hmem, ?_⟩, rfl⟩
      rintro rfl
      exact ‹¬ _› rfl

theorem Over.close (h : Over t fd ends u) (he : e ∈ ends) :
    Over t fd (ends.filter (· ≠ e)) (u.close (fd e)) where
  free e' he' := h.free e' (mem_filter_ne.mp he').1
  other n hn := by
    rw [Descriptors.file_close]
    split
    · subst n
      simp [h.free e he]
    · refine h.other n fun e' he' hnum => ?_
      subst hnum
      refine hn e' (mem_filter_ne.mpr ⟨he', ?_⟩) rfl
      rintro rfl
      exact ‹¬ _› rfl

/-! The new ends of a pipe come on numbers that were free. -/

section Pipe

variable {pipefd : ℕ × ℕ}

@[simp] theorem setArray_read : setArray fd p pipefd (read p) = pipefd.1 := by
  simp [setArray]

@[simp] theorem setArray_write : setArray fd p pipefd (write p) = pipefd.2 := by
  simp [setArray]

theorem setArray_of_mem (he : e ∈ ends) (hr : read p ∉ ends) (hw : write p ∉ ends) :
    setArray fd p pipefd e = fd e := by
  simp [setArray, ne_of_mem_of_not_mem he hr, ne_of_mem_of_not_mem he hw]

theorem file_opened (n : ℕ) : (opened u p).2.file n =
    if n = (opened u p).1.2 then some (.pipeEnd (write p))
    else if n = (opened u p).1.1 then some (.pipeEnd (read p)) else u.file n :=
  Descriptors.file_pipe _ _

theorem file_opened_of_used {f : File F} {n : ℕ} (h : u.file n = some f) :
    (opened u p).2.file n = some f := by
  have hread : n ≠ (opened u p).1.1 := by
    rintro rfl
    rw [opened, Descriptors.file_pipe_fst] at h
    cases h
  have hwrite : n ≠ (opened u p).1.2 := by
    rintro rfl
    rw [opened, (Descriptors.file_pipe_snd _ _ _).2] at h
    cases h
  rw [file_opened, if_neg hwrite, if_neg hread, h]

theorem Ends.pipe (h : Ends fd ends u) (hr : read p ∉ ends) (hw : write p ∉ ends) :
    Ends (setArray fd p (opened u p).1) (read p :: write p :: ends) (opened u p).2 where
  held e he := by
    rcases List.mem_cons.mp he with rfl | he
    · have hne : (opened u p).1.1 ≠ (opened u p).1.2 := (Descriptors.pipe_lt _ _ _).ne
      simp [file_opened, hne]
    · rcases List.mem_cons.mp he with rfl | he
      · simp [file_opened]
      · rw [setArray_of_mem he hr hw]
        exact file_opened_of_used (h.held e he)
  mem n e hn := by
    rw [file_opened] at hn
    split at hn
    · cases hn
      simp_all
    · split at hn
      · cases hn
        simp_all
      · obtain ⟨he, rfl⟩ := h.mem n e hn
        refine ⟨by simp [he], ?_⟩
        rw [setArray_of_mem he hr hw]

theorem Over.pipe (h : Over t fd ends u) (he : Ends fd ends u) (hr : read p ∉ ends)
    (hw : write p ∉ ends) :
    Over t (setArray fd p (opened u p).1) (read p :: write p :: ends) (opened u p).2 := by
  have hnone : ∀ n, u.file n = none → t.file n = none := by
    intro n hn
    have hne : ∀ e ∈ ends, n ≠ fd e := by
      rintro e hmem rfl
      rw [he.held e hmem] at hn
      cases hn
    simpa [h.other n hne] using hn
  refine ⟨?_, ?_⟩
  · intro e hmem
    rcases List.mem_cons.mp hmem with rfl | hmem
    · rw [setArray_read]
      exact hnone _ (Descriptors.file_pipe_fst _ _ _)
    · rcases List.mem_cons.mp hmem with rfl | hmem
      · rw [setArray_write]
        exact hnone _ (Descriptors.file_pipe_snd _ _ _).2
      · rw [setArray_of_mem hmem hr hw]
        exact h.free e hmem
  · intro n hn
    have hread : n ≠ (opened u p).1.1 := by simpa using hn (read p) (by simp)
    have hwrite : n ≠ (opened u p).1.2 := by simpa using hn (write p) (by simp)
    rw [file_opened, if_neg hwrite, if_neg hread]
    refine h.other n fun e hmem => ?_
    have hnum := hn e (by simp [hmem])
    rwa [setArray_of_mem hmem hr hw] at hnum

end Pipe

/-! ### The control follows the calls -/

open Control

variable {s s' : State F} {a : Control} {c c' : Proc F} {q : ProcControl} {x : Actor}
  {unread unread' : List Pipe} {sigpipe : Bool} {held : PipeEnd → Prop} {holds : PipeEnd → Bool}
  {d : Demo} {o : Outcomes}

/-- The same calls to make, and the same ends. -/
def Tracks (fd : PipeEnd → ℕ) (c : Proc F) (q : ProcControl) : Prop :=
  c.code = q.code ∧ Ends fd q.ends c.table

structure Sim (t : Descriptors F) (s : State F) (a : Control) : Prop where
  caller : Tracks s.fd s.caller a.caller
  child : Option.Rel (Tracks s.fd) s.child a.child
  unread : s.unread = a.unread
  broken : s.broken = a.broken
  table : s.broken = false → Over t s.fd a.caller.ends s.caller.table

theorem procStep_control (h : ProcStep fd held c unread c' unread' sigpipe) (hc : Tracks fd c q)
    (hq : procSound q = true) (hheld : ∀ e, held e ↔ holds e = true) :
    ∃ q', procNext holds q unread = some (q', unread', sigpipe) ∧ Tracks fd c' q' ∧
      (c.code.head? ≠ some .exit → sigpipe = false → Over t fd q.ends c.table →
        Over t fd q'.ends c'.table) := by
  obtain ⟨code, ends⟩ := q
  obtain ⟨rfl, hends⟩ := hc
  cases h with
  | @close e code =>
    have he : e ∈ ends := by simpa [procSound] using hq
    exact ⟨⟨code, _⟩, rfl, ⟨rfl, hends.close he⟩, fun _ _ hover => hover.close he⟩
  | @read p code _ _ _ hp =>
    exact ⟨⟨code, ends⟩, by simp [procNext, hp], ⟨rfl, hends⟩, fun _ _ hover => hover⟩
  | @eof p code _ _ _ hp hw =>
    have hw' : holds (write p) = false := Bool.eq_false_iff.mpr (mt (hheld _).mpr hw)
    exact ⟨⟨code, ends⟩, by simp [procNext, hp, hw'], ⟨rfl, hends⟩, fun _ _ hover => hover⟩
  | @write p code _ _ _ hr =>
    have hr' := (hheld _).mp hr
    exact ⟨⟨code, ends⟩, by simp [procNext, hr'], ⟨rfl, hends⟩, fun _ _ hover => hover⟩
  | @sigpipe p code _ _ _ hr =>
    have hr' : holds (read p) = false := Bool.eq_false_iff.mpr (mt (hheld _).mpr hr)
    exact ⟨⟨[], []⟩, by simp [procNext, hr'], ⟨rfl, .empty⟩, fun _ h => by cases h⟩
  | exit => exact ⟨⟨[], []⟩, rfl, ⟨rfl, .empty⟩, fun h => (h rfl).elim⟩

theorem exists_procStep (hc : Tracks fd c q) (hq : procSound q = true)
    (hheld : ∀ e, held e ↔ holds e = true) (h : (procNext holds q unread).isSome) :
    ∃ c' unread' sigpipe, ProcStep fd held c unread c' unread' sigpipe := by
  obtain ⟨code, table⟩ := c
  obtain ⟨code', ends⟩ := q
  obtain ⟨hcode, hends⟩ := hc
  cases hcode
  cases code with
  | nil => simp [procNext] at h
  | cons stmt code =>
    cases stmt with
    | pipe | fork | wait => simp [procNext] at h
    | close e => exact ⟨_, _, _, .close⟩
    | read p =>
      have ht := hends.held (read p) (by simpa [procSound] using hq)
      by_cases hp : p ∈ unread
      · exact ⟨_, _, _, .read ht hp⟩
      · refine ⟨_, _, _, .eof ht hp ?_⟩
        rw [hheld]
        intro hw
        simp [procNext, hp, hw] at h
    | write p =>
      have ht := hends.held (write p) (by simpa [procSound] using hq)
      by_cases hr : held (read p)
      · exact ⟨_, _, _, .write ht hr⟩
      · exact ⟨_, _, _, .sigpipe ht hr⟩
    | exit => exact ⟨_, _, _, .exit⟩

/-- Both have a child, or neither. -/
theorem Sim.child_cases (h : Sim t s a) : (s.child = none ∧ a.child = none) ∨
    ∃ c q, s.child = some c ∧ a.child = some q ∧ Tracks s.fd c q := by
  have hchild := h.child
  cases hc : s.child with
  | none =>
    cases hq : a.child with
    | none => exact Or.inl ⟨rfl, rfl⟩
    | some q => simp [hc, hq] at hchild
  | some c =>
    cases hq : a.child with
    | none => simp [hc, hq] at hchild
    | some q =>
      rw [hc, hq, Option.rel_some_some] at hchild
      exact Or.inr ⟨c, q, rfl, rfl, hchild⟩

theorem Sim.held_iff (h : Sim t s a) (e : PipeEnd) : s.Held e ↔ a.holds e = true := by
  have hcaller := h.caller.2.holds_iff (e := e)
  rcases h.child_cases with ⟨hc, hq⟩ | ⟨c, q, hc, hq, hchild⟩
  · simp [State.Held, Control.holds, hcaller, hc, hq]
  · simp [State.Held, Control.holds, hcaller, hchild.2.holds_iff (e := e), hc, hq]

theorem sound_caller (ha : a.sound = true) : procSound a.caller = true := by
  simp only [sound, Bool.and_eq_true] at ha
  exact ha.1.1

theorem sound_child (ha : a.sound = true) (hq : a.child = some q) : procSound q = true := by
  simp only [sound, hq, Option.all_some, Bool.and_eq_true] at ha
  exact ha.1.2

theorem caller_ne_exit (ha : a.sound = true) : a.caller.code.head? ≠ some .exit := by
  intro hhead
  cases hc : a.caller.code with
  | nil => simp [hc] at hhead
  | cons stmt code =>
    simp only [hc, List.head?_cons, Option.some.injEq] at hhead
    subst hhead
    simp [sound, hc] at ha

theorem callerNext_of_procNext {r : ProcControl × List Pipe × Bool}
    (h : procNext a.holds a.caller a.unread = some r) : next d o a .caller = some { a with
      caller := r.1
      unread := r.2.1
      broken := a.broken || r.2.2 } := by
  change callerNext d o a = _
  unfold callerNext
  split
  case h_4 => rw [h, Option.map_some]
  all_goals
    rename_i hc
    simp [procNext, hc] at h

/-- Every step is one of the control's. -/
theorem sim_step (h : Step d o s x s') (hs : Sim t s a) (ha : a.sound = true) :
    ∃ a', next d o a x = some a' ∧ Sim t s' a' := by
  have hheld := hs.held_iff
  have hcases := hs.child_cases
  obtain ⟨⟨hcode, hends⟩, hchild, hunread, hbroken, hover⟩ := hs
  cases h with
  | @pipe p code hc ho =>
    rw [hcode] at hc
    obtain ⟨-, hnone, hr, hw⟩ : a.child.all procSound = true ∧ a.child = none ∧
        read p ∉ a.caller.ends ∧ write p ∉ a.caller.ends := by
      simpa [sound, hc, procSound, and_assoc] using ha
    refine ⟨{ a with caller := ⟨code, read p :: write p :: a.caller.ends⟩ },
      by simp [next, callerNext, hc, ho], ⟨rfl, hends.pipe hr hw⟩, ?_, hunread, hbroken, ?_⟩
    · have hnone' : s.child = none := by simpa [hnone] using hcases
      simp [hnone, hnone']
    · exact fun h => (hover h).pipe hends hr hw
  | @pipeFail p code hc ho =>
    rw [hcode] at hc
    exact ⟨{ a with caller := ⟨[], a.caller.ends⟩ }, by simp [next, callerNext, hc, ho],
      ⟨rfl, hends⟩, hchild, hunread, hbroken, hover⟩
  | @fork code hc ho hn =>
    rw [hcode] at hc
    have hnone : a.child = none := by simpa [hn] using hcases
    exact ⟨{ a with caller := ⟨code, a.caller.ends⟩, child := some ⟨d.child, a.caller.ends⟩ },
      by simp [next, callerNext, hc, ho, hnone], ⟨rfl, hends⟩, .some ⟨rfl, hends⟩, hunread,
      hbroken, hover⟩
  | @forkFail code hc ho =>
    rw [hcode] at hc
    exact ⟨{ a with caller := ⟨if d.forkChecked then [] else code, a.caller.ends⟩ },
      by simp [next, callerNext, hc, ho], ⟨rfl, hends⟩, hchild, hunread, hbroken, hover⟩
  | @wait code hc hw =>
    rw [hcode] at hc
    have hdone : a.child.all (·.code.isEmpty) = true := by
      rcases hcases with ⟨-, hq⟩ | ⟨c, q, hs, hq, htracks⟩
      · rw [hq, Option.all_none]
      · simpa [hq, ← htracks.1] using hw c hs
    exact ⟨{ a with caller := ⟨code, a.caller.ends⟩ }, by simp [next, callerNext, hc, hdone],
      ⟨rfl, hends⟩, hchild, hunread, hbroken, hover⟩
  | @caller p unread sigpipe h =>
    obtain ⟨q', hq', htracks, hover'⟩ :=
      procStep_control (t := t) h ⟨hcode, hends⟩ (sound_caller ha) hheld
    rw [hunread] at hq'
    refine ⟨_, callerNext_of_procNext hq', htracks, hchild, rfl, by simp [hbroken], ?_⟩
    intro hb
    simp only [Bool.or_eq_false_iff] at hb
    exact hover' (hcode ▸ caller_ne_exit ha) hb.2 (hover hb.1)
  | @child c c' unread sigpipe hc h =>
    obtain ⟨q, hq, htracks⟩ : ∃ q, a.child = some q ∧ Tracks s.fd c q := by
      simpa [hc] using hcases
    obtain ⟨q', hq', htracks', -⟩ :=
      procStep_control (t := t) h htracks (sound_child ha hq) hheld
    rw [hunread] at hq'
    exact ⟨{ a with child := some q', unread := unread },
      by simp [next, childNext, hq, hq'], ⟨hcode, hends⟩, .some htracks', rfl, hbroken, hover⟩

/-- Where the control can go on, so can the state. -/
theorem exists_step (hs : Sim t s a) (ha : a.sound = true) (h : (next d o a x).isSome) :
    ∃ s', Step d o s x s' := by
  have hheld := hs.held_iff
  have hcode := hs.caller.1
  have hcases := hs.child_cases
  cases x with
  | caller =>
    change (callerNext d o a).isSome at h
    unfold callerNext at h
    split at h
    case h_1 p code hc =>
      by_cases ho : o.pipe p = true
      · exact ⟨_, .pipe (hcode.trans hc) ho⟩
      · exact ⟨_, .pipeFail (hcode.trans hc) (by simpa using ho)⟩
    case h_2 code hc =>
      by_cases ho : o.fork = true
      · refine ⟨_, .fork (hcode.trans hc) ho ?_⟩
        rcases hcases with ⟨hnone, -⟩ | ⟨c, q, -, hq, -⟩
        · exact hnone
        · simp [ho, hq] at h
      · exact ⟨_, .forkFail (hcode.trans hc) (by simpa using ho)⟩
    case h_3 code hc =>
      refine ⟨_, .wait (hcode.trans hc) fun c hchild => ?_⟩
      obtain ⟨q, hq, htracks⟩ : ∃ q, a.child = some q ∧ Tracks s.fd c q := by
        simpa [hchild] using hcases
      simpa [hq, htracks.1] using h
    case h_4 =>
      rw [Option.isSome_map, ← hs.unread] at h
      obtain ⟨c', unread, sigpipe, hstep⟩ := exists_procStep hs.caller (sound_caller ha) hheld h
      exact ⟨_, .caller hstep⟩
  | child =>
    rcases hcases with ⟨-, hq⟩ | ⟨c, q, hc, hq, htracks⟩
    · simp [next, childNext, hq] at h
    · have hsome : (procNext a.holds q s.unread).isSome := by
        simpa [next, childNext, hq, hs.unread] using h
      obtain ⟨c', unread, sigpipe, hstep⟩ :=
        exists_procStep htracks (sound_child ha hq) hheld hsome
      exact ⟨_, .child hc hstep⟩

theorem sim_start (d : Demo) (t : Descriptors F) : Sim t (start d t) (Control.start d) where
  caller := by
    refine ⟨rfl, ⟨?_, ?_⟩⟩
    · intro e he
      cases he
    · intro n e hn
      cases hfile : t.file n <;> simp [start, hfile] at hn
  child := .none
  unread := rfl
  broken := rfl
  table _ := ⟨by simp [Control.start], fun _ _ => rfl⟩

/-! ### Runs to their end -/

variable {good : Control → Bool} {n : ℕ}

theorem check_here (h : check d o good n a = true) :
    a.sound = true ∧ (final d o a = true → good a = true) := by
  cases n with
  | zero =>
    simp only [check, Bool.and_eq_true] at h
    exact ⟨h.1.1, fun _ => h.2⟩
  | succ n =>
    simp only [check, Bool.and_eq_true] at h
    refine ⟨h.1.1, fun hfinal => ?_⟩
    simpa [hfinal] using h.1.2

theorem check_next {b : Control} (h : check d o good n a = true) (hb : next d o a x = some b) :
    ∃ m, n = m + 1 ∧ check d o good m b = true := by
  cases n with
  | zero =>
    simp only [check, final, Bool.and_eq_true, Option.isNone_iff_eq_none] at h
    cases x <;> simp_all
  | succ n =>
    simp only [check, Bool.and_eq_true] at h
    refine ⟨n, rfl, ?_⟩
    cases x with
    | caller => simpa [hb] using h.2.1
    | child => simpa [hb] using h.2.2

theorem final_of_terminal (hs : Sim t s a) (ha : a.sound = true)
    (h : (system d t o).Terminal s) : final d o a = true := by
  have hnone : ∀ x, next d o a x = none := by
    intro x
    by_contra hx
    obtain ⟨s', hstep⟩ := exists_step hs ha (Option.isSome_iff_ne_none.mpr hx)
    exact h x s' hstep
  simp [final, hnone]

/-- What `check` finds of the control holds of every run. -/
theorem check_sound {xs : List Actor} {u : State F} (h : (system d t o).Trace s xs u)
    (hs : Sim t s a) (hc : check d o good n a = true) :
    xs.length ≤ n ∧ ((system d t o).Terminal u → ∃ b, Sim t u b ∧ good b = true) := by
  induction h generalizing a n with
  | refl =>
    refine ⟨by simp, fun hterm => ⟨a, hs, ?_⟩⟩
    exact (check_here hc).2 (final_of_terminal hs (check_here hc).1 hterm)
  | stepL hstep _ ih =>
    obtain ⟨b, hb, hs'⟩ := sim_step hstep hs (check_here hc).1
    obtain ⟨m, rfl, hm⟩ := check_next hc hb
    obtain ⟨hlen, hend⟩ := ih hs' hm
    exact ⟨by simpa using hlen, hend⟩

theorem clean_iff (hs : Sim t s a) : Clean t s ↔ a.clean = true := by
  constructor
  · rintro ⟨hcode, hbroken, hfile⟩
    have hends : a.caller.ends = [] := by
      rw [List.eq_nil_iff_forall_not_mem]
      intro e he
      have hopen := hs.caller.2.held e he
      rw [hfile, Descriptors.file_map] at hopen
      cases ht : t.file (s.fd e) <;> simp [ht] at hopen
    simp [Control.clean, ← hs.caller.1, hcode, hends, ← hs.broken, hbroken]
  · intro h
    simp only [Control.clean, Bool.and_eq_true, List.isEmpty_iff, Bool.not_eq_true'] at h
    obtain ⟨⟨hcode, hends⟩, hbroken⟩ := h
    have hb : s.broken = false := hs.broken.trans hbroken
    refine ⟨hs.caller.1.trans hcode, hb, ?_⟩
    funext n
    exact (hs.table hb).other n (by simp [hends])

/-- The control decides whether every run of the function is clean. -/
theorem ends_clean_iff {v : Bool} (t : Descriptors F)
    (h : check d o (fun a => a.clean == v) n (Control.start d) = true) :
    (system d t o).Ends (Clean t) ↔ v = true := by
  have hrun : ∀ xs u, (system d t o).Trace (start d t) xs u → xs.length ≤ n ∧
      ((system d t o).Terminal u → (Clean t u ↔ v = true)) := by
    intro xs u hxs
    obtain ⟨hlen, hend⟩ := check_sound hxs (sim_start d t) h
    refine ⟨hlen, fun hterm => ?_⟩
    obtain ⟨b, hb, hgood⟩ := hend hterm
    rw [clean_iff hb, beq_iff_eq.mp hgood]
  constructor
  · intro hends
    obtain ⟨u, ⟨s₀, xs, rfl, hxs⟩, hterm, hclean⟩ := hends.exists_final rfl
    exact ((hrun xs u hxs).2 hterm).mp hclean
  · intro hv
    refine ⟨⟨n, ?_⟩, ?_⟩
    · rintro _ xs u rfl hxs
      exact (hrun xs u hxs).1
    · rintro u ⟨_, xs, rfl, hxs⟩ hterm
      exact ((hrun xs u hxs).2 hterm).mpr hv

end SystemCalls.PipeDemo.Calls

namespace SystemCalls.PipeDemo

variable {F : Type*} {t : Descriptors F} {s s' : State F} {e : Event} {r : Role} {c c' : Child F}

/-! ### `pipe_exec_demo` -/

/-- The caller has returned with the table it was called with. It never writes to the pipe. -/
def Clean (t : Descriptors F) (s : State F) : Prop :=
  s.pc = .returned ∧ s.table.file = (t.map OpenFile.other).file

/-- Both ends closed, the numbers are free again. -/
theorem file_closed (t : Descriptors F) :
    (((piped t).2.close (piped t).1.1).close (piped t).1.2).file = (t.map OpenFile.other).file := by
  have hread : (t.map OpenFile.other).file (piped t).1.1 = none := Descriptors.file_pipe_fst _ _ _
  have hwrite : (t.map OpenFile.other).file (piped t).1.2 = none :=
    (Descriptors.file_pipe_snd _ _ _).2
  funext n
  rw [Descriptors.file_close, Descriptors.file_close, file_piped]
  split
  · subst n
    exact hwrite.symm
  · split
    · subst n
      exact hread.symm
    · rfl

/-- Calls left at most in a child. -/
def ChildPC.left : ChildPC → ℕ
  | .closeUnused => 5
  | .redirect => 4
  | .closeUsed => 3
  | .exec => 2
  | .running | .failed => 1
  | .exited => 0

/-- Steps left at most in the caller, those of the children it may still fork included. -/
def PC.left : PC → ℕ
  | .pipe => 17
  | .fork .ls => 16
  | .fork .wc => 10
  | .closeRead => 4
  | .closeWrite => 3
  | .wait .ls => 2
  | .wait .wc => 1
  | .returned => 0

def State.childLeft (s : State F) (r : Role) : ℕ :=
  (s.child r).elim 0 fun c => c.pc.left

def State.left (s : State F) : ℕ :=
  s.pc.left + s.childLeft .ls + s.childLeft .wc

theorem childStep_left (h : ChildStep s.pipefd r c c') : c'.pc.left < c.pc.left := by
  cases h <;> simp [ChildPC.left]

theorem step_left (h : Step s e s') : s'.left < s.left := by
  cases h with
  | pipe hp | pipeFail hp | closeRead hp | closeWrite hp =>
    simp [State.left, State.childLeft, hp, PC.left]
  | @fork r hp =>
    cases r <;> simp [State.left, State.childLeft, hp, PC.left, PC.afterFork, ChildPC.left] <;>
      omega
  | @forkFail r hp =>
    cases r <;> simp [State.left, State.childLeft, hp, PC.left, PC.afterFork]
  | @wait r hp _ =>
    cases r <;> simp [State.left, State.childLeft, hp, PC.left, PC.afterWait]
  | @child r c c' hc h =>
    have hlt := childStep_left h
    cases r <;> simp [State.left, State.childLeft, hc] <;> omega

theorem exists_childStep (h : c.pc ≠ .exited) : ∃ c', ChildStep s.pipefd r c c' := by
  obtain ⟨pc, u⟩ := c
  cases pc with
  | closeUnused => exact ⟨_, .closeUnused⟩
  | redirect => exact ⟨_, .redirect⟩
  | closeUsed => exact ⟨_, .closeUsed⟩
  | exec => exact ⟨_, .exec⟩
  | running => exact ⟨_, .exit⟩
  | failed => exact ⟨_, .exitFailed⟩
  | exited => exact (h rfl).elim

theorem exited_of_terminal (h : (system t).Terminal s) (hc : s.child r = some c) :
    c.pc = .exited := by
  by_contra hne
  obtain ⟨c', hstep⟩ := exists_childStep (s := s) (r := r) hne
  exact h _ _ (.child hc hstep)

theorem returned_of_terminal (h : (system t).Terminal s) : s.pc = .returned := by
  cases hp : s.pc with
  | pipe => exact (h _ _ (.pipe hp)).elim
  | fork r => exact (h _ _ (.fork hp)).elim
  | closeRead => exact (h _ _ (.closeRead hp)).elim
  | closeWrite => exact (h _ _ (.closeWrite hp)).elim
  | wait r =>
    have hw : s.Waitable r := by
      unfold State.Waitable
      split
      · exact exited_of_terminal h ‹_›
      · exact fun r' c hc => exited_of_terminal h hc
    exact (h _ _ (.wait hp hw)).elim
  | returned => rfl

/-- Whatever fails, `pipe_exec_demo` returns with the table it was called with. -/
theorem exec_ends_clean (t : Descriptors F) : (system t).Ends (Clean t) := by
  refine .of_measure (μ := State.left) (n := 17) ?_ (fun _ _ _ _ => step_left) ?_
  · rintro _ rfl
    simp [State.left, State.childLeft, start, PC.left]
  · intro s hs hterm
    have hp := returned_of_terminal hterm
    have htable := (tracked_reachable hs).table
    rw [hp] at htable
    refine ⟨hp, ?_⟩
    rcases htable with htable | htable
    · rw [htable]
    · rw [htable, file_closed]

/-- No function leaves a descriptor open or writes to a pipe without a reader. -/
def LeakFree : Prop :=
  ∀ (t : Descriptors Unit) (o : Calls.Outcomes),
    (Calls.system Calls.simple_pipe_demo t o).Ends (Calls.Clean t) ∧
    (Calls.system Calls.bidirectional_pipe_demo t o).Ends (Calls.Clean t) ∧
    (system t).Ends (Clean t) ∧
    (Calls.system Calls.pipe_capacity_demo t o).Ends (Calls.Clean t)

/-- When `fork` fails, `simple_pipe_demo` returns with both ends open. -/
theorem leaks_when_fork_fails : ¬ LeakFree := by
  intro h
  have hends := (h .empty ⟨true, true, false⟩).1
  rw [Calls.ends_clean_iff _ (Calls.Control.check_simple _ _ _)] at hends
  cases hends

/-- Each function is clean in every run, from every table, exactly for these outcomes of its
calls. -/
theorem leak_free_iff (t : Descriptors F) (o : Calls.Outcomes) :
    ((Calls.system Calls.simple_pipe_demo t o).Ends (Calls.Clean t) ↔
      (o.pipe1 = false ∨ o.fork = true)) ∧
    ((Calls.system Calls.bidirectional_pipe_demo t o).Ends (Calls.Clean t) ↔
      (o.pipe1 = false ∨ (o.pipe2 = true ∧ o.fork = true))) ∧
    (system t).Ends (Clean t) ∧
    (Calls.system Calls.pipe_capacity_demo t o).Ends (Calls.Clean t) := by
  refine ⟨?_, ?_, exec_ends_clean t, ?_⟩
  · rw [Calls.ends_clean_iff t (Calls.Control.check_simple _ _ _)]
    simp
  · rw [Calls.ends_clean_iff t (Calls.Control.check_bidirectional _ _ _)]
    simp
  · rw [Calls.ends_clean_iff t (v := true)]
    simpa using Calls.Control.check_capacity _ _ _

end SystemCalls.PipeDemo

import SystemCalls.CString
import SystemCalls.Stdio
import SystemCalls.Transition
import SystemCalls.WaitStatus

/-!
# The pipe program

`main` of 4.1.7, parent and child. A pipe has room for a message that short, takes it in one
piece and gives a `read` all it holds, up to the count. What the child prints stays in its
`stdout` until the stream is written out, and `_exit` does not write it out.
-/

namespace SystemCalls.PipeProgram

open WaitStatus

/-- `msg`, without the NUL. -/
def msg : List UInt8 := ascii "hello through the pipe"

/-- `sizeof buf - 1` -/
abbrev maxRead : ℕ := 255

inductive Parent
  | pipe
  | fork
  | closeRead
  /-- In `write_all`, with all of `msg` left. -/
  | write
  | closeWrite
  | wait
  | returned (r : ℕ)
  /-- By SIGPIPE or another signal. -/
  | killed
  deriving DecidableEq

inductive Child
  | absent
  | closeWrite
  | read
  | closeRead
  | ended (r : Report)

def Parent.holdsRead : Parent → Bool
  | fork | closeRead => true
  | pipe | write | closeWrite | wait | returned _ | killed => false

def Parent.holdsWrite : Parent → Bool
  | fork | closeRead | write | closeWrite => true
  | pipe | wait | returned _ | killed => false

def Child.holdsRead : Child → Bool
  | closeWrite | read | closeRead => true
  | absent | ended _ => false

def Child.holdsWrite : Child → Bool
  | closeWrite => true
  | absent | read | closeRead | ended _ => false

/-- `content` is in the pipe, `got` is what the child's `read` returned, and `shown` is what has
left its `stdout`. -/
structure State where
  parent : Parent
  child : Child
  content : List UInt8
  got : Option (List UInt8)
  shown : List UInt8

/-- The line the child prints for the bytes in `buf`. -/
def line (bytes : List UInt8) : List UInt8 :=
  ascii "[child] received: " ++ cstr bytes ++ ascii " (" ++ ascii (toString bytes.length) ++
    ascii " bytes)\n"

def newline (b : UInt8) : Bool := b == 10

/-- What of the line leaves `stdout` before `_exit`. -/
def visible (b : Stdio.Buffering) (bytes : List UInt8) : List UInt8 :=
  (Stdio.puts b newline [] (line bytes)).2

inductive Event
  | parent
  | child
  /-- A call that fails, with EINTR too where it is not tried again. -/
  | parentFails
  | childFails
  | parentKilled
  | childKilled (sig : Signal) (core : Bool)
  /-- EINTR in `write_all`. -/
  | interrupted

variable (b : Stdio.Buffering)

inductive Step : State → Event → State → Prop
  | pipe {s : State} (h : s.parent = .pipe) : Step s .parent { s with parent := .fork }
  | pipeFails {s : State} (h : s.parent = .pipe) :
      Step s .parentFails { s with parent := .returned 1 }
  | fork {s : State} (h : s.parent = .fork) :
      Step s .parent { s with parent := .closeRead, child := .closeWrite }
  | forkFails {s : State} (h : s.parent = .fork) :
      Step s .parentFails { s with parent := .returned 1 }
  | closeRead {s : State} (h : s.parent = .closeRead) : Step s .parent { s with parent := .write }
  | closeReadFails {s : State} (h : s.parent = .closeRead) :
      Step s .parentFails { s with parent := .returned 1 }
  | write {s : State} (h : s.parent = .write) (hr : s.child.holdsRead = true) :
      Step s .parent { s with parent := .closeWrite, content := s.content ++ msg }
  | writeInterrupted {s : State} (h : s.parent = .write) : Step s .interrupted s
  | writeFails {s : State} (h : s.parent = .write) :
      Step s .parentFails { s with parent := .returned 1 }
  | sigpipe {s : State} (h : s.parent = .write) (hr : s.child.holdsRead = false) :
      Step s .parent { s with parent := .killed }
  | closeWrite {s : State} (h : s.parent = .closeWrite) :
      Step s .parent { s with parent := .wait }
  | closeWriteFails {s : State} (h : s.parent = .closeWrite) :
      Step s .parentFails { s with parent := .returned 1 }
  | wait {s : State} {r : Report} (h : s.parent = .wait) (hc : s.child = .ended r) :
      Step s .parent { s with
        parent := .returned
          (if !WIFEXITED r.status || WEXITSTATUS r.status != 0 then 1 else 0) }
  | waitFails {s : State} (h : s.parent = .wait) :
      Step s .parentFails { s with parent := .returned 1 }
  | parentKilled {s : State} (hk : s.parent ≠ .killed) (h : ∀ r, s.parent ≠ .returned r) :
      Step s .parentKilled { s with parent := .killed }
  | childCloseWrite {s : State} (h : s.child = .closeWrite) :
      Step s .child { s with child := .read }
  | childCloseWriteFails {s : State} (h : s.child = .closeWrite) :
      Step s .childFails { s with child := .ended (.exited 1) }
  | read {s : State} (h : s.child = .read) (hne : s.content ≠ []) :
      Step s .child { s with
        child := .closeRead
        content := s.content.drop maxRead
        got := some (s.content.take maxRead)
        shown := visible b (s.content.take maxRead) }
  | readEof {s : State} (h : s.child = .read) (hnil : s.content = [])
      (hw : s.parent.holdsWrite = false) :
      Step s .child { s with child := .closeRead, got := some [], shown := visible b [] }
  | readFails {s : State} (h : s.child = .read) :
      Step s .childFails { s with child := .ended (.exited 1) }
  | childCloseRead {s : State} (h : s.child = .closeRead) :
      Step s .child { s with child := .ended (.exited 0) }
  | childCloseReadFails {s : State} (h : s.child = .closeRead) :
      Step s .childFails { s with child := .ended (.exited 1) }
  | childKilled {s : State} {sig : Signal} {core : Bool} (ha : s.child ≠ .absent)
      (h : ∀ r, s.child ≠ .ended r) :
      Step s (.childKilled sig core) { s with child := .ended (.signaled sig core) }

def start : State := ⟨.pipe, .absent, [], none, []⟩

def system : LTS State Event where
  initial s := s = start
  step := Step b

variable {b} {s t : State} {e : Event}

/-- Over, and not with 0. -/
def Parent.Failed : Parent → Prop
  | returned r => r ≠ 0
  | killed => True
  | pipe | fork | closeRead | write | closeWrite | wait => False

/-- Before the end of `write_all`. -/
def Parent.BeforeWrite : Parent → Prop
  | pipe | fork | closeRead | write => True
  | closeWrite | wait | returned _ | killed => False

def Child.BeforeRead : Child → Prop
  | absent | closeWrite | read => True
  | closeRead | ended _ => False

/-- Past the line printed, if it has ended at all. -/
def Child.Printed : Child → Prop
  | closeRead => True
  | ended r => WIFEXITED r.status = true ∧ WEXITSTATUS r.status = 0
  | absent | closeWrite | read => False

/-- The message is in one place, and the child sees the end of the pipe only if the parent has
failed. -/
structure Delivered (b : Stdio.Buffering) (s : State) : Prop where
  fresh : s.parent = .pipe → s.child = .absent
  content : s.content = [] ∨ s.content = msg
  unwritten : s.parent.BeforeWrite → s.content = [] ∧ s.got = none
  written : s.parent = .closeWrite ∨ s.parent = .wait → s.content = msg ∨ s.got = some msg
  got : ∀ g, s.got = some g → g = msg ∨ s.parent.Failed
  unread : s.child.BeforeRead → s.got = none
  printed : s.child.Printed → s.got.isSome
  shown : s.shown = (s.got.map (visible b)).getD []
  zero : s.parent = .returned 0 → s.got = some msg

/-- The parent fails or dies, or goes on without touching the pipe. -/
theorem Delivered.setParent {p : Parent} (hs : Delivered b s)
    (hbefore : p.BeforeWrite → s.parent.BeforeWrite)
    (hwritten : p = .closeWrite ∨ p = .wait → s.parent = .closeWrite ∨ s.parent = .wait)
    (hfailed : s.parent.Failed → p.Failed) (hnew : p ≠ .pipe)
    (hzero : p = .returned 0 → s.got = some msg) : Delivered b { s with parent := p } where
  fresh h := (hnew h).elim
  content := hs.content
  unwritten h := hs.unwritten (hbefore h)
  written h := hs.written (hwritten h)
  got g hg := (hs.got g hg).imp_right hfailed
  unread := hs.unread
  printed := hs.printed
  shown := hs.shown
  zero := hzero

/-- The child goes on without reading. -/
theorem Delivered.setChild {c : Child} (hs : Delivered b s) (hc : s.child ≠ .absent)
    (hunread : c.BeforeRead → s.child.BeforeRead) (hprinted : c.Printed → s.child.Printed) :
    Delivered b { s with child := c } where
  fresh h := (hc (hs.fresh h)).elim
  content := hs.content
  unwritten := hs.unwritten
  written := hs.written
  got := hs.got
  unread h := hs.unread (hunread h)
  printed h := hs.printed (hprinted h)
  shown := hs.shown
  zero := hs.zero

theorem not_printed_of_exited_one : ¬ (Child.ended (.exited 1)).Printed := by
  rintro ⟨_, h⟩
  rw [WEXITSTATUS_exited] at h
  exact absurd h (by decide)

theorem not_printed_of_signaled {sig : Signal} {core : Bool} :
    ¬ (Child.ended (.signaled sig core)).Printed := by
  rintro ⟨h, _⟩
  obtain ⟨code, hcode⟩ := WIFEXITED_iff.mp h
  cases hcode

theorem msg_ne_nil : msg ≠ [] := by decide

/-- The message is short enough for one `read`. -/
theorem delivered_read (hs : Delivered b s) (h : s.child = .read) (hne : s.content ≠ []) :
    Delivered b { s with
      child := .closeRead
      content := s.content.drop maxRead
      got := some (s.content.take maxRead)
      shown := visible b (s.content.take maxRead) } := by
  have hmsg : s.content = msg := hs.content.resolve_left hne
  have htake : s.content.take maxRead = msg := by
    rw [hmsg]
    decide
  have hdrop : s.content.drop maxRead = [] := by
    rw [hmsg]
    decide
  rw [htake, hdrop]
  refine ⟨fun hp => ?_, .inl rfl, fun hp => ?_, fun _ => .inr rfl, ?_, nofun, fun _ => rfl, rfl,
    fun _ => rfl⟩
  · rw [hs.fresh hp] at h
    cases h
  · exact (hne (hs.unwritten hp).1).elim
  · rintro g ⟨⟩
    exact .inl rfl

theorem delivered_eof (hs : Delivered b s) (h : s.child = .read) (hnil : s.content = [])
    (hw : s.parent.holdsWrite = false) :
    Delivered b { s with child := .closeRead, got := some [], shown := visible b [] } := by
  have hgot : s.got = none := hs.unread (by simp [h, Child.BeforeRead])
  have hnot : ¬ (s.parent = .closeWrite ∨ s.parent = .wait) := by
    intro hp
    rcases hs.written hp with hc | hg
    · exact msg_ne_nil (hc.symm.trans hnil)
    · simp [hgot] at hg
  have hchild : s.parent ≠ .pipe := by
    intro hp
    rw [hs.fresh hp] at h
    cases h
  have hfailed : s.parent.Failed := by
    cases hp : s.parent with
    | pipe => exact (hchild hp).elim
    | fork | closeRead | write | closeWrite => simp [hp, Parent.holdsWrite] at hw
    | wait => exact (hnot (.inr hp)).elim
    | killed => trivial
    | returned r =>
      rintro rfl
      simp [hs.zero hp] at hgot
  refine ⟨fun hp => (hchild hp).elim, .inl hnil, fun hp => ?_, fun hp => (hnot hp).elim, ?_,
    nofun, fun _ => rfl, rfl, fun hp => ?_⟩
  · cases hq : s.parent <;> simp [hq, Parent.BeforeWrite, Parent.Failed] at hp hfailed
  · rintro g ⟨⟩
    exact .inr hfailed
  · have hp : s.parent = .returned 0 := hp
    simp [hp, Parent.Failed] at hfailed

/-- An exit code of 0 of the child means that it has printed. -/
theorem delivered_wait {r : Report} (hs : Delivered b s) (h : s.parent = .wait)
    (hc : s.child = .ended r) :
    Delivered b { s with
      parent := .returned
        (if !WIFEXITED r.status || WEXITSTATUS r.status != 0 then 1 else 0) } := by
  refine hs.setParent nofun (by simp) (by simp [h, Parent.Failed]) nofun fun hzero => ?_
  have hclean : WIFEXITED r.status = true ∧ WEXITSTATUS r.status = 0 := by
    simpa using hzero
  obtain ⟨g, hg⟩ := Option.isSome_iff_exists.mp (hs.printed (by simpa [hc, Child.Printed]))
  rcases hs.got g hg with rfl | hf
  · exact hg
  · simp [h, Parent.Failed] at hf

theorem delivered_step (h : Step b s e t) (hs : Delivered b s) : Delivered b t := by
  cases h with
  | pipe h | closeRead h | closeWrite h =>
    exact hs.setParent (by simp [h, Parent.BeforeWrite]) (by simp [h]) (by simp [h, Parent.Failed])
      nofun nofun
  | pipeFails h | forkFails h | closeReadFails h | writeFails h | closeWriteFails h | waitFails h
  | sigpipe h =>
    exact hs.setParent nofun (by simp) (by simp [h, Parent.Failed]) nofun nofun
  | fork h =>
    have hp : Delivered b { s with parent := .closeRead } :=
      hs.setParent (by simp [h, Parent.BeforeWrite]) (by simp) (by simp [h, Parent.Failed]) nofun
        nofun
    have hgot := (hs.unwritten (by simp [h, Parent.BeforeWrite])).2
    exact ⟨nofun, hp.content, hp.unwritten, hp.written, hp.got, fun _ => hgot, nofun, hp.shown,
      nofun⟩
  | write h =>
    obtain ⟨hnil, hgot⟩ := hs.unwritten (by simp [h, Parent.BeforeWrite])
    exact ⟨nofun, .inr (by simp [hnil]), nofun, fun _ => .inl (by simp [hnil]), by simp [hgot],
      fun _ => hgot, hs.printed, hs.shown, nofun⟩
  | writeInterrupted h => exact hs
  | wait h hc => exact delivered_wait hs h hc
  | parentKilled h => exact hs.setParent nofun (by simp) (fun _ => trivial) nofun nofun
  | childCloseWrite h =>
    exact hs.setChild (by simp [h]) (by simp [h, Child.BeforeRead]) nofun
  | childCloseWriteFails h | readFails h | childCloseReadFails h =>
    exact hs.setChild (by simp [h]) nofun fun hp => (not_printed_of_exited_one hp).elim
  | read h hne => exact delivered_read hs h hne
  | readEof h hnil hw => exact delivered_eof hs h hnil hw
  | childCloseRead h => exact hs.setChild (by simp [h]) nofun fun _ => by simp [h, Child.Printed]
  | childKilled ha h => exact hs.setChild ha nofun fun hp => (not_printed_of_signaled hp).elim

theorem delivered_reachable (h : (system b).Reachable s) : Delivered b s := by
  apply h.invariant
  · rintro _ rfl
    exact ⟨fun _ => rfl, .inl rfl, fun _ => ⟨rfl, rfl⟩, by simp [start], nofun, fun _ => rfl, nofun,
      rfl, nofun⟩
  · intro s e t hst hs
    exact delivered_step hst hs

theorem visible_of_line (hm : b.mode = .line) (bytes : List UInt8) :
    visible b bytes = line bytes := by
  obtain ⟨text, htext⟩ : ∃ text, line bytes = text ++ [10] := by
    refine ⟨ascii "[child] received: " ++ cstr bytes ++ ascii " (" ++
      ascii (toString bytes.length) ++ ascii " bytes)", ?_⟩
    rw [line, List.append_assoc _ (ascii " bytes)")]
    rfl
  have hrest : (Stdio.puts b newline [] (line bytes)).1 = [] := by
    rw [Stdio.puts_eq_rest, htext]
    exact Stdio.rest_of_lines hm rfl
  have happ := Stdio.puts_append b newline [] (line bytes)
  rwa [hrest, List.append_nil, List.nil_append] at happ

theorem visible_of_full {bytes : List UInt8} (hm : b.mode = .full)
    (h : (line bytes).length < b.cap) : visible b bytes = [] := by
  have hrest : (Stdio.puts b newline [] (line bytes)).1 = line bytes := by
    rw [Stdio.puts_eq_rest, Stdio.rest_of_length_lt hm h]
  have hlen := congrArg List.length (Stdio.puts_append b newline [] (line bytes))
  rw [hrest, List.length_append, List.nil_append] at hlen
  rw [visible]
  exact List.length_eq_zero_iff.mp (by omega)

/-- In every run, failures and signals and all: a parent that returns 0 has a child that received
the whole message. On a terminal it has been shown; in a file or a pipe `_exit` has lost it. -/
theorem received_of_returned_zero (h : (system b).Reachable s) (h0 : s.parent = .returned 0) :
    s.got = some msg ∧ (b.mode = .line → s.shown = line msg) ∧
      (b.mode = .full → (line msg).length < b.cap → s.shown = []) := by
  have hs := delivered_reachable h
  have hgot := hs.zero h0
  have hshown := hs.shown
  rw [hgot] at hshown
  refine ⟨hgot, fun hm => ?_, fun hm hlen => ?_⟩
  · rw [hshown]
    exact visible_of_line hm msg
  · rw [hshown]
    exact visible_of_full hm hlen

theorem received_of_returned_zero_terminal : ∃ s : State,
    (system ⟨.line, 1024, by decide⟩).Reachable s ∧ s.parent = .returned 0 ∧
      s.got = some msg ∧ s.shown = line msg := by
  have h0 : (system ⟨.line, 1024, by decide⟩).Reachable start := .of_initial rfl
  have h1 := h0.step (.pipe rfl)
  have h2 := h1.step (.fork rfl)
  have h3 := h2.step (.childCloseWrite rfl)
  have h4 := h3.step (.closeRead rfl)
  have h5 := h4.step (.write rfl rfl)
  have h6 := h5.step (.read rfl (by decide))
  have h7 := h6.step (.closeWrite rfl)
  have h8 := h7.step (.childCloseRead rfl)
  have h9 := h8.step (.wait rfl rfl)
  obtain ⟨hgot, hline, _⟩ := received_of_returned_zero h9 rfl
  exact ⟨_, h9, rfl, hgot, hline rfl⟩

/-! ### Every run ends -/

/-- Nothing fails, and nobody is killed. -/
def Smooth (_ : State) (e : Event) : Prop :=
  e = .parent ∨ e = .child

/-- Neither side has come to a bad end. -/
structure Sound (s : State) : Prop where
  parent : ¬ s.parent.Failed
  child : ∀ r, s.child = .ended r → r = .exited 0
  forked : s.child = .absent ↔ s.parent = .pipe ∨ s.parent = .fork

theorem sound_step (h : Step b s e t) (he : Smooth s e) (hd : Delivered b s) (hs : Sound s) :
    Sound t := by
  obtain ⟨hparent, hchild, hforked⟩ := hs
  cases h with
  | pipe h => exact ⟨nofun, hchild, by simpa [h] using hforked⟩
  | fork h => exact ⟨nofun, nofun, by simp⟩
  | closeRead h | write h | closeWrite h => exact ⟨nofun, hchild, by simpa [h] using hforked⟩
  | sigpipe h hr =>
    -- The child is over without having read, which only a failure or a signal can do.
    have hgot := (hd.unwritten (by simp [h, Parent.BeforeWrite])).2
    cases hc : s.child with
    | absent => simp [h, hc] at hforked
    | closeWrite | read | closeRead => simp [hc, Child.holdsRead] at hr
    | ended r =>
      have hprinted := hd.printed (by
        rw [hc, hchild r hc]
        exact ⟨WIFEXITED_iff.mpr ⟨0, rfl⟩, WEXITSTATUS_exited⟩)
      simp [hgot] at hprinted
  | @wait r h hc =>
    have hr := hchild r hc
    have hzero : (if !WIFEXITED r.status || WEXITSTATUS r.status != 0 then 1 else 0) = 0 := by
      rw [hr]
      decide
    refine ⟨fun hf => hf hzero, hchild, ?_⟩
    simp [hc]
  | childCloseWrite h | read h | readEof h =>
    exact ⟨hparent, nofun, by simpa [h] using hforked⟩
  | childCloseRead h =>
    refine ⟨hparent, ?_, by simpa [h] using hforked⟩
    rintro r ⟨⟩
    rfl
  | pipeFails | forkFails | closeReadFails | writeInterrupted | writeFails | closeWriteFails
  | waitFails | parentKilled | childCloseWriteFails | readFails | childCloseReadFails
  | childKilled => simp [Smooth] at he

/-- The calls still to be made, those of a child to come included. -/
def Parent.rest : Parent → ℕ
  | pipe => 10
  | fork => 9
  | closeRead => 5
  | write => 4
  | closeWrite => 3
  | wait => 2
  | returned _ | killed => 0

def Child.rest : Child → ℕ
  | closeWrite => 3
  | read => 2
  | closeRead => 1
  | absent | ended _ => 0

def measure (s : State) : ℕ := s.parent.rest + s.child.rest

theorem measure_lt (h : Step b s e t) (he : Smooth s e) (hs : Sound s) :
    measure t < measure s := by
  cases h with
  | pipe h | closeRead h | write h | sigpipe h | closeWrite h | wait h =>
    simp [measure, h, Parent.rest]
  | childCloseWrite h | read h | readEof h | childCloseRead h =>
    simp [measure, h, Child.rest]
  | fork h =>
    have hc := hs.forked.mpr (.inr h)
    simp [measure, h, hc, Parent.rest, Child.rest]
  | pipeFails | forkFails | closeReadFails | writeInterrupted | writeFails | closeWriteFails
  | waitFails | parentKilled | childCloseWriteFails | readFails | childCloseReadFails
  | childKilled => simp [Smooth] at he

theorem sound_reachable (h : ((system b).restrict Smooth).Reachable s) : Sound s := by
  apply h.invariant_of_reachable
  · rintro _ rfl
    exact ⟨nofun, nofun, by simp [start]⟩
  · rintro s e t hr ⟨he, hst⟩ hs
    exact sound_step hst he (delivered_reachable hr.of_restrict) hs

/-- Some process can go on until the parent has returned. -/
theorem returned_of_terminal (hs : Sound s)
    (hterm : ((system b).restrict Smooth).Terminal s) : s.parent = .returned 0 := by
  have hno {e : Event} {t : State} (he : Smooth s e) (h : Step b s e t) : False :=
    hterm e t ⟨he, h⟩
  cases hp : s.parent with
  | pipe => exact (hno (.inl rfl) (.pipe hp)).elim
  | fork => exact (hno (.inl rfl) (.fork hp)).elim
  | closeRead => exact (hno (.inl rfl) (.closeRead hp)).elim
  | write =>
    cases hr : s.child.holdsRead with
    | true => exact (hno (.inl rfl) (.write hp hr)).elim
    | false => exact (hno (.inl rfl) (.sigpipe hp hr)).elim
  | closeWrite => exact (hno (.inl rfl) (.closeWrite hp)).elim
  | wait =>
    cases hc : s.child with
    | absent => simpa [hp] using hs.forked.mp hc
    | closeWrite => exact (hno (.inr rfl) (.childCloseWrite hc)).elim
    | closeRead => exact (hno (.inr rfl) (.childCloseRead hc)).elim
    | ended r => exact (hno (.inl rfl) (.wait hp hc)).elim
    | read =>
      by_cases hnil : s.content = []
      · exact (hno (.inr rfl) (.readEof hc hnil (by simp [hp, Parent.holdsWrite]))).elim
      · exact (hno (.inr rfl) (.read hc hnil)).elim
  | returned r =>
    have hr := hs.parent
    rw [hp] at hr
    rw [not_not.mp hr]
  | killed => exact (hs.parent (hp ▸ trivial)).elim

/-- When nothing fails every order of the calls comes to its end, the parent returns 0, and the
child has received the message. -/
theorem all_orders_return_zero (b : Stdio.Buffering) :
    ((system b).restrict Smooth).Ends fun s => s.parent = .returned 0 ∧ s.got = some msg := by
  refine .of_measure (μ := measure) (n := 10) ?_ ?_ ?_
  · rintro _ rfl
    decide
  · rintro s e t hr ⟨he, hst⟩
    exact measure_lt hst he (sound_reachable hr)
  · intro s hr hterm
    have hd := delivered_reachable hr.of_restrict
    have h0 := returned_of_terminal (sound_reachable hr) hterm
    exact ⟨h0, hd.zero h0⟩

end SystemCalls.PipeProgram

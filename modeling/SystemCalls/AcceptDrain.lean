import SystemCalls.Transition
import SystemCalls.Epoll
import SystemCalls.Socket

/-!
# The edge-triggered accept loop

`accept_drain` and the loop around it, from the chapter on epoll. Connections may come between any
two steps, before the listening socket is registered too.
-/

namespace SystemCalls.AcceptDrain

def maxEvents : ℕ := 64

/-- Where the program is, with the events of the batch that it has not taken up. -/
inductive PC
  /-- At EPOLL_CTL_ADD. -/
  | ctlAdd
  /-- In `epoll_wait`. -/
  | wait
  /-- At the head of the loop over the events. -/
  | loop (events : List ℕ)
  /-- At `accept` in `accept_drain`. -/
  | accept (events : List ℕ)
  /-- At `close(conn)` in `accept_drain`. -/
  | close (conn : ℕ) (events : List ℕ)
  | exited
  deriving DecidableEq

structure State where
  pc : PC
  /-- The number of connections in the accept queue. -/
  queue : ℕ
  epoll : Epoll ℕ

/-- What `accept_drain` does with the result of `accept`. -/
def acceptDrain (events : List ℕ) : Except Errno ℕ → PC
  | .error e =>
      if e = .eagain ∨ e = .ewouldblock then .loop events
      else if e = .eintr then .accept events
      else .loop events
  | .ok conn => .close conn events

inductive Event
  | connect
  /-- `epoll_wait` finds the queue empty after all. -/
  | discard
  | ctlAdd (ok : Bool)
  | wait (r : Except Errno (List ℕ))
  | loopEnds
  | dispatch
  | accept (r : Except Errno ℕ)
  /-- `accept` fails for the first connection, which leaves the queue. -/
  | acceptAborted (e : Errno)
  | close

def ready (listenFd : ℕ) (s : State) (fd : ℕ) : Prop := fd = listenFd ∧ 0 < s.queue

inductive Step (listenFd : ℕ) : State → Event → State → Prop
  | connect {s : State} :
      Step listenFd s .connect { s with queue := s.queue + 1, epoll := s.epoll.notify listenFd }
  | discard {s : State} (h : s.pc = .wait) (hq : s.queue = 0) :
      Step listenFd s .discard { s with epoll := s.epoll.report [listenFd] }
  | ctlAdd {s : State} (h : s.pc = .ctlAdd) :
      Step listenFd s (.ctlAdd true)
        { s with pc := .wait, epoll := s.epoll.ctlAdd listenFd (.edge (0 < s.queue)) }
  | ctlAddFails {s : State} (h : s.pc = .ctlAdd) :
      Step listenFd s (.ctlAdd false) { s with pc := .exited }
  | waitReturns {s : State} {events : List ℕ} (h : s.pc = .wait) (hne : events ≠ [])
      (hmax : events.length ≤ maxEvents) (hnd : events.Nodup)
      (hp : ∀ fd ∈ events, s.epoll.Pending (ready listenFd s) fd) :
      Step listenFd s (.wait (.ok events))
        { s with pc := .loop events, epoll := s.epoll.report events }
  | waitInterrupted {s : State} (h : s.pc = .wait) : Step listenFd s (.wait (.error .eintr)) s
  | waitFails {s : State} {e : Errno} (h : s.pc = .wait) (he : e ≠ .eintr) :
      Step listenFd s (.wait (.error e)) { s with pc := .exited }
  | loopEnds {s : State} (h : s.pc = .loop []) : Step listenFd s .loopEnds { s with pc := .wait }
  | dispatch {s : State} {fd : ℕ} {events : List ℕ} (h : s.pc = .loop (fd :: events)) :
      Step listenFd s .dispatch
        { s with pc := if fd = listenFd then .accept events else .loop events }
  | accept {s : State} {events : List ℕ} {n conn : ℕ} (h : s.pc = .accept events)
      (hq : s.queue = n + 1) :
      Step listenFd s (.accept (.ok conn))
        { s with pc := acceptDrain events (.ok conn), queue := n }
  | acceptEmpty {s : State} {events : List ℕ} (h : s.pc = .accept events) (hq : s.queue = 0) :
      Step listenFd s (.accept (.error .eagain))
        { s with pc := acceptDrain events (.error .eagain) }
  | acceptFails {s : State} {events : List ℕ} {e : Errno} (h : s.pc = .accept events)
      (he : e ≠ .eagain) :
      Step listenFd s (.accept (.error e)) { s with pc := acceptDrain events (.error e) }
  | acceptAborted {s : State} {events : List ℕ} {n : ℕ} {e : Errno} (h : s.pc = .accept events)
      (hq : s.queue = n + 1) (he : e ≠ .eagain) :
      Step listenFd s (.acceptAborted e)
        { s with pc := acceptDrain events (.error e), queue := n }
  | close {s : State} {conn : ℕ} {events : List ℕ} (h : s.pc = .close conn events) :
      Step listenFd s .close { s with pc := .accept events }

/-- The socket is listening, and the epoll instance still empty. -/
def start : State := ⟨.ctlAdd, 0, Epoll.empty⟩

def system (listenFd : ℕ) : LTS State Event where
  initial s := s = start
  step := Step listenFd

/-- In `epoll_wait` with no event queued for the listening socket. -/
def State.Blocked (listenFd : ℕ) (s : State) : Prop :=
  s.pc = .wait ∧ ¬ s.epoll.Queued listenFd

/-- A hard error ends `accept_drain` only when it leaves the queue empty or another event is
queued. -/
def Drains (listenFd : ℕ) (s : State) : Event → Prop
  | .accept (.error e) =>
      e = .eagain ∨ e = .eintr ∨ s.queue = 0 ∨ s.epoll.Queued listenFd
  | .acceptAborted e => e = .eintr ∨ s.queue ≤ 1 ∨ s.epoll.Queued listenFd
  | _ => True

/-- The listening socket is still to be registered or drained, or the program has exited. -/
def PC.Serves (listenFd : ℕ) : PC → ℕ → Prop
  | .ctlAdd, fd | .exited, fd => fd = listenFd
  | .wait, _ => False
  | .loop events, fd => fd ∈ events
  | .accept events, fd | .close _ events, fd => fd = listenFd ∨ fd ∈ events

structure Attentive (listenFd : ℕ) (s : State) : Prop where
  watched : s.pc = .ctlAdd ∨ s.pc = .exited ∨ s.epoll.Watched listenFd
  attended : s.epoll.Attended (ready listenFd s) (s.pc.Serves listenFd)

variable {listenFd : ℕ} {s t : State} {a : Event} {events : List ℕ}

theorem attentive_start : Attentive listenFd start :=
  ⟨.inl rfl, fun _ hr => .inr hr.1⟩

theorem watched_step (h : Step listenFd s a t) (hs : Attentive listenFd s) :
    t.pc = .ctlAdd ∨ t.pc = .exited ∨ t.epoll.Watched listenFd := by
  have hw : s.pc ≠ .ctlAdd → s.pc ≠ .exited → s.epoll.Watched listenFd :=
    fun hc he => (hs.watched.resolve_left hc).resolve_left he
  cases h with
  | connect => exact hs.watched.imp_right (.imp_right .notify)
  | ctlAdd => exact .inr (.inr Epoll.watched_ctlAdd)
  | ctlAddFails | waitFails => exact .inr (.inl rfl)
  | discard h | waitReturns h => exact .inr (.inr (hw (by simp [h]) (by simp [h])).report)
  | waitInterrupted => exact hs.watched
  | loopEnds h | dispatch h | accept h | acceptEmpty h | acceptFails h | acceptAborted h
  | close h => exact .inr (.inr (hw (by simp [h]) (by simp [h])))

/-- After an error `accept_drain` goes on only for EINTR. -/
theorem acceptDrain_error {e : Errno} :
    acceptDrain events (.error e) = if e = .eintr then .accept events else .loop events := by
  by_cases he : e = .eintr
  · subst e
    rfl
  · simp [acceptDrain, he]

theorem ready_mono (hle : t.queue ≤ s.queue) {fd : ℕ} (h : ready listenFd t fd) :
    ready listenFd s fd :=
  ⟨h.1, Nat.lt_of_lt_of_le h.2 hle⟩

/-- A failed `accept` forgets no connection if it has left none, or another event is queued. -/
theorem Attentive.error {e : Errno} (hs : Attentive listenFd s) (h : s.pc = .accept events)
    (hle : t.queue ≤ s.queue)
    (hq : e = .eintr ∨ t.queue = 0 ∨ s.epoll.Queued listenFd) :
    s.epoll.Attended (ready listenFd t) ((acceptDrain events (.error e)).Serves listenFd) := by
  have hatt := hs.attended.mono (fun _ hr => .inl (ready_mono hle hr)) (fun _ => id)
  rw [h] at hatt
  rw [acceptDrain_error]
  split
  · exact hatt
  · apply hatt.done (x := listenFd)
    · rintro ⟨-, hpos⟩
      rcases hq with he | hzero | hqueued
      · contradiction
      · omega
      · exact hqueued
    · intro fd hne hserve
      exact hserve.resolve_left hne

/-- A connection comes to a socket that is watched, or still to be registered. -/
theorem Attentive.connect (hs : Attentive listenFd s) :
    (s.epoll.notify listenFd).Attended (ready listenFd t) (s.pc.Serves listenFd) := by
  apply hs.attended.notify
  · intro fd hne hr
    exact (hne hr.1).elim
  · intro _
    rcases hs.watched with h | h | hw
    · exact .inr (.inr (by simp [h, PC.Serves]))
    · exact .inr (.inr (by simp [h, PC.Serves]))
    · exact .inr (.inl hw)

theorem attended_step (h : Step listenFd s a t) (hd : Drains listenFd s a)
    (hs : Attentive listenFd s) :
    t.epoll.Attended (ready listenFd t) (t.pc.Serves listenFd) := by
  have hatt := hs.attended
  cases h with
  | connect => exact hs.connect
  | ctlAdd h =>
    rw [h] at hatt
    apply hatt.ctlAdd
    · rintro ⟨-, hpos⟩
      exact .inl (by simpa using hpos)
    · intro fd hne hserve
      exact (hne hserve).elim
  | ctlAddFails h =>
    rw [h] at hatt
    exact hatt
  | discard h hq =>
    refine hatt.report (fun _ => id) ?_
    rintro fd - ⟨-, hpos⟩
    omega
  | waitReturns h =>
    rw [h] at hatt
    exact hatt.report (fun _ => False.elim) (fun _ hmem _ => hmem)
  | waitInterrupted => exact hatt
  | waitFails h =>
    rw [h] at hatt
    exact hatt.mono (fun _ => .inl) (fun _ => False.elim)
  | loopEnds h =>
    rw [h] at hatt
    exact hatt.mono (fun _ => .inl) (by simp [PC.Serves])
  | @dispatch fd events h =>
    rw [h] at hatt
    by_cases hfd : fd = listenFd
    · subst fd
      simp only [↓reduceIte]
      exact hatt.mono (fun _ => .inl) (fun _ => List.mem_cons.mp)
    · simp only [hfd, ↓reduceIte]
      exact hatt.done (fun hr => (hfd hr.1).elim) (fun _ => List.mem_of_ne_of_mem)
  | accept h hq =>
    rw [h] at hatt
    refine hatt.mono ?_ (fun _ => id)
    rintro fd ⟨hfd, -⟩
    exact .inl ⟨hfd, by omega⟩
  | acceptEmpty h hq =>
    apply hs.error (e := .eagain) h
    · exact Nat.le_refl _
    · exact .inr (.inl hq)
  | acceptFails h he =>
    apply hs.error h
    · exact Nat.le_refl _
    · exact hd.resolve_left he
  | acceptAborted h hq he =>
    apply hs.error h
    · simp only
      omega
    · refine hd.imp_right (.imp_left ?_)
      simp only
      omega
  | close h =>
    rw [h] at hatt
    exact hatt

theorem attentive_reachable (h : ((system listenFd).restrict (Drains listenFd)).Reachable s) :
    Attentive listenFd s := by
  apply h.invariant (P := Attentive listenFd)
  · rintro s₀ rfl
    exact attentive_start
  · rintro s a t ⟨hd, hst⟩ hs
    exact ⟨watched_step hst hs, attended_step hst hd hs⟩

/-- In a run in which no hard error leaves connections without an event, the program sleeps only
over an empty accept queue. -/
theorem accept_queue_drained (h : ((system listenFd).restrict (Drains listenFd)).Reachable s)
    (hb : s.Blocked listenFd) : s.queue = 0 := by
  have hatt := (attentive_reachable h).attended
  rw [hb.1] at hatt
  by_contra hne
  rcases hatt listenFd ⟨rfl, Nat.pos_of_ne_zero hne⟩ with hq | hf
  · exact hb.2 hq
  · exact hf

/-- Two connections have come, and the first `accept` is about to be called. -/
def twoQueued : State := ⟨.accept [], 2, Epoll.empty.ctlAdd 3 (.edge false)⟩

theorem reachable_twoQueued : ((system 3).restrict (Drains 3)).Reachable twoQueued := by
  have hstart : ((system 3).restrict (Drains 3)).Reachable start := .of_initial rfl
  have hadded := hstart.restrict_step (.ctlAdd rfl) trivial
  have hcome := (hadded.restrict_step .connect trivial).restrict_step .connect trivial
  have hreported := hcome.restrict_step (a := Event.wait (.ok [3]))
    (.waitReturns rfl (by simp) (by decide) (by simp)
      (by simpa using Epoll.watched_ctlAdd.notify.queued_notify.pending)) trivial
  have haccept := hreported.restrict_step (.dispatch rfl) trivial
  simpa [start, twoQueued, Epoll.notify_ctlAdd, Epoll.report_ctlAdd] using haccept

/-- Both connections are accepted, a signal comes, and then the queue is empty. -/
theorem accept_queue_drained_of_two :
    ∃ s, ((system 3).restrict (Drains 3)).Reachable s ∧ s.Blocked 3 ∧ s.queue = 0 := by
  have hfirst := reachable_twoQueued.restrict_step (a := Event.accept (.ok 5)) (.accept rfl rfl)
    trivial
  have hsecond := (hfirst.restrict_step (.close rfl) trivial).restrict_step
    (a := Event.accept (.ok 5)) (.accept rfl rfl) trivial
  have hsignal := (hsecond.restrict_step (.close rfl) trivial).restrict_step
    (a := Event.accept (.error .eintr)) (.acceptFails rfl (by decide)) (.inr (.inl rfl))
  have hempty := hsignal.restrict_step (.acceptEmpty rfl rfl) (.inl rfl)
  have hwait := hempty.restrict_step (.loopEnds rfl) trivial
  obtain ⟨s, hs, hb⟩ : ∃ s, ((system 3).restrict (Drains 3)).Reachable s ∧ s.Blocked 3 :=
    ⟨_, hwait, rfl, by simp [twoQueued]⟩
  exact ⟨s, hs, hb, accept_queue_drained hs hb⟩

/-- At the limit of open descriptors `accept` fails with EMFILE, and both connections stay. -/
theorem two_connections_stranded :
    ¬ ∀ s, (system 3).Reachable s → s.Blocked 3 → s.queue = 0 := by
  intro hall
  have hfailed := reachable_twoQueued.of_restrict.step (a := Event.accept (.error .emfile))
    (.acceptFails rfl (by decide))
  have hwait := hfailed.step (.loopEnds rfl)
  have hzero := hall _ hwait ⟨rfl, by simp [twoQueued]⟩
  simp [twoQueued] at hzero

end SystemCalls.AcceptDrain

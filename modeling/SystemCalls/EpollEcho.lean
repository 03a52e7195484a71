import SystemCalls.Transition
import SystemCalls.Descriptors
import SystemCalls.Epoll
import SystemCalls.Socket

/-!
# The epoll echo server

The main loop of the sketch in the chapter on multiplexing: a level-triggered listening socket,
edge-triggered connections, and one `read` of at most 4096 bytes for each event. Connections, data
and hang-ups may come between any two steps of the server.
-/

namespace SystemCalls.EpollEcho

def maxEvents : ℕ := 64

def bufSize : ℕ := 4096

/-- A connection as the kernel holds it. -/
structure Conn where
  /-- The receive buffer. -/
  recv : List UInt8
  /-- The peer has closed or reset the connection. -/
  hungUp : Bool
  /-- What `write` has taken for the peer. -/
  sent : List UInt8

def Conn.new : Conn := ⟨[], false, []⟩

inductive Arrival
  | data (bytes : List UInt8)
  | hangUp

def Conn.receive (c : Conn) : Arrival → Conn
  | .data bytes => { c with recv := c.recv ++ bytes }
  | .hangUp => { c with hungUp := true }

/-- Readable: EPOLLIN holds. -/
def Conn.ready (c : Conn) : Bool := !c.recv.isEmpty || c.hungUp

/-- What `read(fd, buf, sizeof buf)` on the non-blocking connection returns and leaves. -/
inductive Conn.Read (c : Conn) : Socket.Recv bufSize → Conn → Prop
  | data {chunk : Socket.Chunk bufSize} (h : chunk.bytes = c.recv.take bufSize) :
      Read c (.data chunk) { c with recv := c.recv.drop bufSize }
  | eof (h : c.recv = []) (hh : c.hungUp) : Read c .eof c
  | error {e : Errno} : Read c (.error e) c

/-- What a descriptor refers to, `other` for the standard streams and the epoll instance. -/
inductive File
  | other
  | listener
  | conn (c : Conn)

/-- Where the server is, with the events of the batch that it has not taken up. -/
inductive PC
  /-- In `epoll_wait`. -/
  | wait
  /-- At the head of the loop over the events. -/
  | loop (events : List ℕ)
  | setNonblock (conn : ℕ) (events : List ℕ)
  /-- At EPOLL_CTL_ADD. -/
  | ctlAdd (conn : ℕ) (events : List ℕ)
  | write (fd : ℕ) (buf : List UInt8) (events : List ℕ)
  | exited

structure State where
  pc : PC
  /-- The accept queue. -/
  backlog : List Conn
  files : Descriptors File
  epoll : Epoll ℕ

def State.ready (s : State) (fd : ℕ) : Bool :=
  match s.files.file fd with
  | some .listener => !s.backlog.isEmpty
  | some (.conn c) => c.ready
  | some .other | none => false

inductive Event
  | connect
  /-- On the `i`-th connection of the accept queue. -/
  | arriveQueued (i : ℕ) (x : Arrival)
  | arrive (fd : ℕ) (x : Arrival)
  /-- `epoll_wait` finds nothing to read at a descriptor with an event. -/
  | discard (fd : ℕ)
  | wait (r : Except Errno (List ℕ))
  | loopEnds
  | accept (r : Except Errno ℕ)
  | setNonblock (ok : Bool)
  | ctlAdd (conn : ℕ) (ok : Bool)
  | read (fd : ℕ) (r : Socket.Recv bufSize)
  | write (fd : ℕ) (r : Socket.Send)
  /-- SIGPIPE of a `write`. -/
  | killed

inductive Step (listenFd : ℕ) : State → Event → State → Prop
  | connect {s : State} : Step listenFd s .connect { s with backlog := s.backlog ++ [.new] }
  | arriveQueued {s : State} {i : ℕ} {x : Arrival} (hi : i < s.backlog.length) :
      Step listenFd s (.arriveQueued i x)
        { s with backlog := s.backlog.modify i (·.receive x) }
  | arrive {s : State} {fd : ℕ} {c : Conn} {x : Arrival} (hc : s.files.file fd = some (.conn c)) :
      Step listenFd s (.arrive fd x)
        { s with files := s.files.install fd (.conn (c.receive x)), epoll := s.epoll.notify fd }
  | discard {s : State} {fd : ℕ} (h : s.pc = .wait) (hr : s.ready fd = false) :
      Step listenFd s (.discard fd) { s with epoll := s.epoll.report [fd] }
  | waitReturns {s : State} {events : List ℕ} (h : s.pc = .wait) (hne : events ≠ [])
      (hmax : events.length ≤ maxEvents) (hnd : events.Nodup)
      (hp : ∀ fd ∈ events, s.epoll.Pending (s.ready ·) fd) :
      Step listenFd s (.wait (.ok events))
        { s with pc := .loop events, epoll := s.epoll.report events }
  | waitInterrupted {s : State} (h : s.pc = .wait) : Step listenFd s (.wait (.error .eintr)) s
  | waitFails {s : State} {e : Errno} (h : s.pc = .wait) (he : e ≠ .eintr) :
      Step listenFd s (.wait (.error e)) { s with pc := .exited }
  | loopEnds {s : State} (h : s.pc = .loop []) : Step listenFd s .loopEnds { s with pc := .wait }
  -- The listening socket blocks: on an empty queue `accept` does not return.
  | accept {s : State} {events : List ℕ} {c : Conn} {backlog : List Conn}
      (h : s.pc = .loop (listenFd :: events)) (hb : s.backlog = c :: backlog) :
      Step listenFd s (.accept (.ok s.files.lowest))
        { s with
          pc := .setNonblock s.files.lowest events
          backlog := backlog
          files := s.files.install s.files.lowest (.conn c) }
  -- An aborted connection leaves the accept queue, other errors leave it as it is.
  | acceptFails {s : State} {events : List ℕ} {e : Errno} {backlog : List Conn}
      (h : s.pc = .loop (listenFd :: events))
      (hb : backlog = s.backlog ∨ backlog = s.backlog.tail) :
      Step listenFd s (.accept (.error e)) { s with pc := .loop events, backlog := backlog }
  | setNonblock {s : State} {conn : ℕ} {events : List ℕ} (h : s.pc = .setNonblock conn events) :
      Step listenFd s (.setNonblock true) { s with pc := .ctlAdd conn events }
  | setNonblockFails {s : State} {conn : ℕ} {events : List ℕ}
      (h : s.pc = .setNonblock conn events) :
      Step listenFd s (.setNonblock false) { s with pc := .exited }
  | ctlAdd {s : State} {conn : ℕ} {events : List ℕ} (h : s.pc = .ctlAdd conn events) :
      Step listenFd s (.ctlAdd conn true)
        { s with pc := .loop events, epoll := s.epoll.ctlAdd conn (.edge (s.ready conn)) }
  | ctlAddFails {s : State} {conn : ℕ} {events : List ℕ} (h : s.pc = .ctlAdd conn events) :
      Step listenFd s (.ctlAdd conn false) { s with pc := .loop events }
  | read {s : State} {fd : ℕ} {events : List ℕ} {c c' : Conn} {chunk : Socket.Chunk bufSize}
      (h : s.pc = .loop (fd :: events)) (hfd : fd ≠ listenFd)
      (hc : s.files.file fd = some (.conn c)) (hr : c.Read (.data chunk) c') :
      Step listenFd s (.read fd (.data chunk))
        { s with
          pc := .write fd chunk.bytes events
          files := s.files.install fd (.conn c') }
  | readCloses {s : State} {fd : ℕ} {events : List ℕ} {c c' : Conn} {r : Socket.Recv bufSize}
      (h : s.pc = .loop (fd :: events)) (hfd : fd ≠ listenFd)
      (hc : s.files.file fd = some (.conn c)) (hr : c.Read r c') (hnil : r.bytes = []) :
      Step listenFd s (.read fd r)
        { s with
          pc := .loop events
          files := s.files.close fd
          epoll := s.epoll.remove fd }
  | readInvalid {s : State} {fd : ℕ} {events : List ℕ} {e : Errno}
      (h : s.pc = .loop (fd :: events)) (hfd : fd ≠ listenFd) (hc : s.files.file fd = none) :
      Step listenFd s (.read fd (.error e)) { s with pc := .loop events }
  | write {s : State} {fd n : ℕ} {buf : List UInt8} {events : List ℕ} {c : Conn}
      (h : s.pc = .write fd buf events) (hc : s.files.file fd = some (.conn c))
      (hn : n ≤ buf.length) :
      Step listenFd s (.write fd (.ok n))
        { s with
          pc := .loop events
          files := s.files.install fd (.conn { c with sent := c.sent ++ buf.take n }) }
  | writeFails {s : State} {fd : ℕ} {buf : List UInt8} {events : List ℕ} {e : Errno}
      (h : s.pc = .write fd buf events) :
      Step listenFd s (.write fd (.error e)) { s with pc := .loop events }
  | killed {s : State} {fd : ℕ} {buf : List UInt8} {events : List ℕ}
      (h : s.pc = .write fd buf events) : Step listenFd s .killed { s with pc := .exited }

/-- The listening socket has been registered and no connection accepted. -/
structure Initial (listenFd : ℕ) (s : State) : Prop where
  pc : s.pc = .wait
  backlog : s.backlog = []
  listener : s.files.file listenFd = some .listener
  no_conn : ∀ fd c, s.files.file fd ≠ some (.conn c)
  epoll : s.epoll = Epoll.empty.ctlAdd listenFd .level

def system (listenFd : ℕ) : LTS State Event where
  initial := Initial listenFd
  step := Step listenFd

/-- In `epoll_wait` with no event queued. -/
def State.Blocked (s : State) : Prop :=
  s.pc = .wait ∧ ∀ fd, ¬ s.epoll.Pending (s.ready ·) fd

/-- `fd` is an open connection with bytes to read. -/
def Unread (files : Descriptors File) (fd : ℕ) : Prop :=
  ∃ c, files.file fd = some (.conn c) ∧ c.recv ≠ []

/-- Every open connection has an empty receive buffer. -/
def State.Drained (s : State) : Prop :=
  ∀ fd c, s.files.file fd = some (.conn c) → c.recv = []

/-- The server still has to come to `fd`, or has exited. -/
def PC.Serves : PC → ℕ → Prop
  | .wait, _ => False
  | .loop events, fd | .write _ _ events, fd => fd ∈ events
  | .setNonblock conn events, fd | .ctlAdd conn events, fd => fd = conn ∨ fd ∈ events
  | .exited, _ => True

/-- One `read` is enough, or another event will follow; and no connection that could not be
registered has bytes to read. -/
def Drains (s : State) : Event → Prop
  | .read fd (.data _) =>
      (∀ c, s.files.file fd = some (.conn c) → c.recv.length ≤ bufSize) ∨ s.epoll.Queued fd
  | .ctlAdd conn false => ¬ Unread s.files conn
  | .arrive fd (.data _) => s.epoll.Watched fd ∨ s.pc.Serves fd
  | _ => True

/-- The listening socket stays open, and unread bytes have the server's attention. -/
structure Attentive (listenFd : ℕ) (s : State) : Prop where
  listener : s.files.file listenFd = some .listener
  attended : s.epoll.Attended (Unread s.files) s.pc.Serves

variable {listenFd fd : ℕ} {s t : State} {a : Event} {c c' : Conn}

theorem Initial.attentive (h : Initial listenFd s) : Attentive listenFd s := by
  refine ⟨h.listener, ?_⟩
  rintro fd ⟨c, hc, -⟩
  exact (h.no_conn fd c hc).elim

theorem unread_install {files : Descriptors File} {x : ℕ} :
    Unread (files.install fd (.conn c)) x ↔ if x = fd then c.recv ≠ [] else Unread files x := by
  by_cases h : x = fd <;> simp [Unread, Descriptors.file_install, h]

theorem unread_close {files : Descriptors File} {x : ℕ} :
    Unread (files.close fd) x ↔ x ≠ fd ∧ Unread files x := by
  by_cases h : x = fd <;> simp [Unread, Descriptors.file_close, h]

theorem ready_of_unread (h : Unread s.files fd) : s.ready fd := by
  obtain ⟨c, hc, hr⟩ := h
  simp [State.ready, hc, Conn.ready, hr]

/-- A `read` only takes bytes, and leaves some only if there were more than it has room for. -/
theorem unread_read {files : Descriptors File} {chunk : Socket.Chunk bufSize} {x : ℕ}
    (hc : files.file fd = some (.conn c)) (hr : c.Read (.data chunk) c')
    (hu : Unread (files.install fd (.conn c')) x) :
    Unread files x ∧ (x = fd → bufSize < c.recv.length) := by
  cases hr with
  | data =>
    rw [unread_install] at hu
    by_cases hx : x = fd
    · subst x
      have hlt : bufSize < c.recv.length := by simpa using hu
      have hne : c.recv ≠ [] := List.ne_nil_of_length_pos (by omega)
      exact ⟨⟨c, hc, hne⟩, fun _ => hlt⟩
    · exact ⟨by simpa [hx] using hu, fun h => (hx h).elim⟩

theorem Attentive.not_unread (h : Attentive listenFd s) : ¬ Unread s.files listenFd := by
  rintro ⟨c, hc, -⟩
  simp [h.listener] at hc

theorem listener_step (h : Step listenFd s a t) (hs : s.files.file listenFd = some .listener) :
    t.files.file listenFd = some .listener := by
  have hconn : ∀ {fd c}, s.files.file fd = some (.conn c) → listenFd ≠ fd := by
    rintro fd c hc rfl
    simp [hs] at hc
  have hfree : listenFd ≠ s.files.lowest := by
    intro he
    simp [he, Descriptors.file_lowest] at hs
  cases h with
  | arrive hc | read _ _ hc _ | write _ hc _ => simpa [Descriptors.file_install, hconn hc] using hs
  | accept => simpa [Descriptors.file_install, hfree] using hs
  | readCloses _ hfd => simpa [Descriptors.file_close, hfd.symm] using hs
  | _ => exact hs

/-- Data comes to a connection that has, or will get, an event for it. -/
theorem Attentive.arrive {x : Arrival} (hs : Attentive listenFd s)
    (hc : s.files.file fd = some (.conn c)) (hd : Drains s (.arrive fd x)) :
    (s.epoll.notify fd).Attended (Unread (s.files.install fd (.conn (c.receive x))))
      s.pc.Serves := by
  apply hs.attended.notify
  · intro d hne hu
    simpa [unread_install, hne] using hu
  · intro hu
    cases x with
    | data bytes => exact .inr hd
    | hangUp => exact .inl ⟨c, hc, by simpa [unread_install, Conn.receive] using hu⟩

/-- The server goes on to the next event, having left nothing unread without one. -/
theorem Attentive.next {events : List ℕ} (hs : Attentive listenFd s)
    (h : s.pc = .loop (fd :: events)) (hfd : Unread s.files fd → s.epoll.Queued fd) :
    s.epoll.Attended (Unread s.files) (PC.loop events).Serves := by
  have hatt := hs.attended
  rw [h] at hatt
  exact hatt.done hfd fun _ => List.mem_of_ne_of_mem

theorem Attentive.accept {events : List ℕ} (hs : Attentive listenFd s)
    (h : s.pc = .loop (listenFd :: events)) :
    s.epoll.Attended (Unread (s.files.install s.files.lowest (.conn c)))
      (PC.setNonblock s.files.lowest events).Serves := by
  refine (hs.next h fun hu => (hs.not_unread hu).elim).mono ?_ (fun _ => .inr)
  intro d hu
  rw [unread_install] at hu
  by_cases hlow : d = s.files.lowest
  · exact .inr (.inl hlow)
  · exact .inl (by simpa [hlow] using hu)

theorem Attentive.read {events : List ℕ} {chunk : Socket.Chunk bufSize}
    (hs : Attentive listenFd s) (h : s.pc = .loop (fd :: events))
    (hc : s.files.file fd = some (.conn c)) (hr : c.Read (.data chunk) c')
    (hd : Drains s (.read fd (.data chunk))) :
    s.epoll.Attended (Unread (s.files.install fd (.conn c')))
      (PC.write fd chunk.bytes events).Serves := by
  have hatt := hs.attended
  rw [h] at hatt
  have hread := hatt.mono (fun d hu => .inl (unread_read hc hr hu).1) (fun _ => id)
  refine hread.done ?_ (fun _ => List.mem_of_ne_of_mem)
  intro hu
  rcases hd with hle | hq
  · have hlt := (unread_read hc hr hu).2 rfl
    exact (Nat.not_lt.mpr (hle c hc) hlt).elim
  · exact hq

theorem attended_step (h : Step listenFd s a t) (hd : Drains s a) (hs : Attentive listenFd s) :
    t.epoll.Attended (Unread t.files) t.pc.Serves := by
  have hatt := hs.attended
  cases h with
  | connect | arriveQueued | waitInterrupted => exact hatt
  | arrive hc => exact hs.arrive hc hd
  | discard _ hr =>
    refine hatt.report (fun _ => id) ?_
    intro d hmem hu
    obtain rfl := List.mem_singleton.mp hmem
    simp [ready_of_unread hu] at hr
  | waitReturns h =>
    rw [h] at hatt
    exact hatt.report (fun _ => False.elim) (fun _ hmem _ => hmem)
  | waitFails | setNonblockFails | killed =>
    exact hatt.mono (fun _ => .inl) (fun _ _ => trivial)
  | loopEnds h =>
    rw [h] at hatt
    exact hatt.mono (fun _ => .inl) (by simp [PC.Serves])
  | setNonblock h | writeFails h =>
    rw [h] at hatt
    exact hatt
  | accept h => exact hs.accept h
  | acceptFails h => exact hs.next h fun hu => (hs.not_unread hu).elim
  | ctlAdd h =>
    rw [h] at hatt
    apply hatt.ctlAdd
    · intro hu
      exact .inl (by simp [ready_of_unread hu])
    · intro d hne hserve
      exact hserve.resolve_left hne
  | ctlAddFails h =>
    rw [h] at hatt
    exact hatt.done (fun hu => (hd hu).elim) (fun _ hne hserve => hserve.resolve_left hne)
  | read h _ hc hr => exact hs.read h hc hr hd
  | readCloses h =>
    rw [h] at hatt
    apply hatt.remove
    · simp [unread_close]
    · intro d _ hu
      exact (unread_close.mp hu).2
    · intro d
      exact List.mem_of_ne_of_mem
  | readInvalid h _ hc =>
    apply hs.next h
    rintro ⟨c, hfile, -⟩
    simp [hc] at hfile
  | @write fd n buf events c h hc hn =>
    rw [h] at hatt
    refine hatt.mono ?_ (fun _ => id)
    intro d hu
    rw [unread_install] at hu
    by_cases hfd : d = fd
    · subst d
      exact .inl ⟨c, hc, by simpa using hu⟩
    · exact .inl (by simpa [hfd] using hu)

theorem attentive_reachable (h : ((system listenFd).restrict Drains).Reachable s) :
    Attentive listenFd s := by
  apply h.invariant (P := Attentive listenFd)
  · intro s₀ hi
    exact hi.attentive
  · rintro s a t ⟨hd, hst⟩ hs
    exact ⟨listener_step hst hs.listener, attended_step hst hd hs⟩

/-- In a run whose every step drains, the server sleeps only over empty receive buffers. -/
theorem nothing_stranded (h : ((system listenFd).restrict Drains).Reachable s) (hb : s.Blocked) :
    s.Drained := by
  have hatt := (attentive_reachable h).attended
  rw [hb.1] at hatt
  have hidle := hatt.idle (fun _ => id) hb.2
  intro fd c hc
  by_contra hne
  exact hidle fd ⟨c, hc, hne⟩

/-- `fd` is the only connection, and no event is queued. -/
structure Registered (listenFd fd : ℕ) (c : Conn) (s : State) : Prop where
  backlog : s.backlog = []
  ne : fd ≠ listenFd
  listener : s.files.file listenFd = some .listener
  conn : s.files.file fd = some (.conn c)
  epoll : s.epoll = (Epoll.empty.ctlAdd listenFd .level).ctlAdd fd (.edge false)

theorem Registered.blocked (h : Registered listenFd fd c s) (hpc : s.pc = .wait) :
    s.Blocked := by
  refine ⟨hpc, ?_⟩
  intro d
  by_cases hd : d = fd
  · simp [Epoll.Pending, h.epoll, Epoll.ctlAdd, hd]
  · by_cases hl : d = listenFd
    · subst d
      simp [Epoll.Pending, h.epoll, Epoll.ctlAdd, hd, State.ready, h.listener, h.backlog]
    · simp [Epoll.Pending, h.epoll, Epoll.ctlAdd, Epoll.empty, hd, hl]

theorem exists_registered (hi : Initial listenFd s) :
    ∃ t, ((system listenFd).restrict Drains).Reachable t ∧ t.pc = .wait ∧
      Registered listenFd s.files.lowest .new t := by
  have hne : s.files.lowest ≠ listenFd := by
    intro he
    have hfree := s.files.file_lowest
    simp [he, hi.listener] at hfree
  have hstart : ((system listenFd).restrict Drains).Reachable s := .of_initial hi
  have hreported := (hstart.restrict_step .connect trivial).restrict_step
    (a := Event.wait (.ok [listenFd]))
    (.waitReturns hi.pc (by simp) (by simp [maxEvents]) (by simp)
      (by simp [hi.epoll, hi.listener, hi.backlog, Epoll.Pending, Epoll.ctlAdd, State.ready]))
    trivial
  have hqueue : s.backlog ++ [.new] = [.new] := by simp [hi.backlog]
  have haccepted := hreported.restrict_step (.accept rfl hqueue) trivial
  have hadded := (haccepted.restrict_step (.setNonblock rfl) trivial).restrict_step
    (.ctlAdd rfl) trivial
  refine ⟨_, hadded.restrict_step (.loopEnds rfl) trivial, rfl, rfl, hne, ?_, ?_, ?_⟩
  · simpa [Descriptors.file_install, hne.symm] using hi.listener
  · simp [Descriptors.file_install]
  · simp [Epoll.report_of_not_queued, State.ready, Descriptors.file_install, Conn.ready, Conn.new,
      hi.epoll]

/-- A burst on the only connection, up to the `read` of its event. -/
theorem Registered.exists_reported (data : List UInt8)
    (h : Registered listenFd fd .new s) (hpc : s.pc = .wait)
    (hs : ((system listenFd).restrict Drains).Reachable s) :
    ∃ t, ((system listenFd).restrict Drains).Reachable t ∧ t.pc = .loop [fd] ∧
      Registered listenFd fd ⟨data, false, []⟩ t := by
  have hwatched : s.epoll.Watched fd := ⟨false, by simp [h.epoll, Epoll.ctlAdd]⟩
  have harrived := hs.restrict_step (.arrive (x := .data data) h.conn) (.inl hwatched)
  have hreported := harrived.restrict_step (a := Event.wait (.ok [fd]))
    (.waitReturns hpc (by simp) (by simp [maxEvents]) (by simp)
      (by simpa using hwatched.queued_notify.pending)) trivial
  refine ⟨_, hreported, rfl, h.backlog, h.ne, ?_, ?_, ?_⟩
  · simpa [Descriptors.file_install, h.ne.symm] using h.listener
  · simp [Descriptors.file_install, Conn.receive, Conn.new]
  · simp [h.epoll, Epoll.notify_ctlAdd, Epoll.report_ctlAdd]

/-- What one `read` leaves of the burst is still there when the server sleeps again. -/
theorem Registered.exists_served {data : List UInt8} (hdata : data ≠ [])
    (h : Registered listenFd fd ⟨data, false, []⟩ s) (hpc : s.pc = .loop [fd]) :
    ∃ chunk n t u v, Step listenFd s (.read fd (.data chunk)) t ∧
      Step listenFd t (.write fd (.ok n)) u ∧ Step listenFd u .loopEnds v ∧ v.pc = .wait ∧
      Registered listenFd fd ⟨data.drop bufSize, false, data.take bufSize⟩ v := by
  let chunk : Socket.Chunk bufSize :=
    ⟨data.take bufSize, by simpa [bufSize] using hdata, List.length_take_le ..⟩
  refine ⟨chunk, chunk.bytes.length, _, _, _, .read hpc h.ne h.conn (.data rfl),
    .write (c := ⟨data.drop bufSize, false, []⟩) rfl ?_ le_rfl, .loopEnds rfl, rfl,
    h.backlog, h.ne, ?_, ?_, h.epoll⟩
  · simp [Descriptors.file_install]
  · simpa [Descriptors.file_install, h.ne.symm] using h.listener
  · simp [Descriptors.file_install, List.take_of_length_le, chunk]

/-- The server's descriptors at the start: the standard streams, `listen_fd` and `epfd`. -/
def start : State where
  pc := .wait
  backlog := []
  files :=
    { file := fun fd => if fd = 3 then some .listener else if fd < 5 then some .other else none
      size := 5
      free_of_size_le := by
        intro fd hfd
        rw [if_neg (by omega), if_neg (by omega)] }
  epoll := Epoll.empty.ctlAdd 3 .level

theorem initial_start : Initial 3 start where
  pc := rfl
  backlog := rfl
  listener := rfl
  no_conn := by
    intro fd c
    simp only [start]
    split
    · simp
    · split <;> simp
  epoll := rfl

/-- A burst of `n` times the same byte, on the first connection. -/
theorem exists_burst {n : ℕ} (hn : 0 < n) :
    ∃ chunk m t u v w, ((system 3).restrict Drains).Reachable t ∧
      t.files.file start.files.lowest = some (.conn ⟨List.replicate n 97, false, []⟩) ∧
      Step 3 t (.read start.files.lowest (.data chunk)) u ∧
      Step 3 u (.write start.files.lowest (.ok m)) v ∧ Step 3 v .loopEnds w ∧ w.Blocked ∧
      w.files.file start.files.lowest = some (.conn
        ⟨List.replicate (n - bufSize) 97, false, List.replicate (min bufSize n) 97⟩) := by
  obtain ⟨s, hs, hpc, hreg⟩ := exists_registered initial_start
  obtain ⟨t, ht, hpc, hrep⟩ := hreg.exists_reported (List.replicate n 97) hpc hs
  have hdata : List.replicate n (97 : UInt8) ≠ [] := by simpa using hn.ne'
  obtain ⟨chunk, m, u, v, w, hread, hwrite, hend, hpc, hw⟩ := hrep.exists_served hdata hpc
  refine ⟨chunk, m, t, u, v, w, ht, hrep.conn, hread, hwrite, hend, hw.blocked hpc, ?_⟩
  rw [hw.conn, List.drop_replicate, List.take_replicate]

/-- A burst of 4096 bytes is read and echoed whole. -/
theorem nothing_stranded_full_buffer :
    ∃ s, ((system 3).restrict Drains).Reachable s ∧ s.Blocked ∧
      (∃ c, s.files.file start.files.lowest = some (.conn c) ∧
        c.sent = List.replicate 4096 97) ∧ s.Drained := by
  obtain ⟨chunk, m, t, u, v, w, ht, hconn, hread, hwrite, hend, hb, hw⟩ :=
    exists_burst (n := 4096) (by decide)
  have hfits : Drains t (.read start.files.lowest (.data chunk)) := by
    left
    intro c hc
    rw [hconn] at hc
    cases hc
    exact List.length_replicate.le
  have hreach := ((ht.restrict_step hread hfits).restrict_step hwrite trivial).restrict_step
    hend trivial
  exact ⟨w, hreach, hb, ⟨_, hw, rfl⟩, nothing_stranded hreach hb⟩

/-- Of a burst of 4097 bytes, one stays in the receive buffer. -/
theorem last_byte_stranded :
    ¬ ∀ s, (system 3).Reachable s → s.Blocked → s.Drained := by
  intro hall
  obtain ⟨chunk, m, t, u, v, w, ht, hconn, hread, hwrite, hend, hb, hw⟩ :=
    exists_burst (n := 4097) (by decide)
  have hreach := ((ht.of_restrict.step hread).step hwrite).step hend
  have hempty := hall w hreach hb _ _ hw
  simp [bufSize] at hempty

end SystemCalls.EpollEcho

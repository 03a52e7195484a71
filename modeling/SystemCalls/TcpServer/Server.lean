import SystemCalls.Transition
import SystemCalls.CString
import SystemCalls.Socket

/-!
# tcp_server

The accept loop and the echo loop of `main`, from the return of `listen` on. The process
is always in a call; `step` runs it from the kernel's answer to the next call. A `send`
that fails with EPIPE raises SIGPIPE, which nothing here ignores or handles.
-/

namespace SystemCalls.TcpServer

open Socket

/-- `BUFFER_SIZE` -/
abbrev bufferSize : ℕ := 1024

/-- `sizeof(buffer) - 1` -/
abbrev maxRead : ℕ := 1023

/-- The call the process is in. -/
inductive PC
  | accept
  | recv
  | send (bytesRead : ℕ)
  | terminated
  deriving DecidableEq

/-- `client_ip` and `client_port` -/
structure Peer where
  ip : String
  port : ℕ

/-- What is printed, in the order of the source's `printf` and `perror` calls. -/
inductive Line
  | connected (client : Peer)
  | disconnected (client : Peer)
  | received (client : Peer) (bytesRead : ℕ) (text : List UInt8)
  | echoed (client : Peer) (bytesSent : ℕ)
  | closed (client : Peer)
  | perror (call : String) (e : Errno)

/-- `conversation` are the calls on the connection accepted last, `past` those on the
connections closed. -/
structure State where
  pc : PC
  buffer : CharBuf bufferSize
  client : Peer
  conversation : List (Call maxRead)
  past : List (List (Call maxRead))
  out : List Line

inductive Answer
  | accept (r : Except Errno Peer)
  | recv (r : Recv maxRead)
  | send (r : Send)

def onAccept (s : State) : Except Errno Peer → State
  | .error e =>
    if e = .eintr then s else { s with out := s.out ++ [.perror "accept" e] }
  | .ok client =>
    { s with
      pc := .recv
      client
      conversation := []
      out := s.out ++ [.connected client] }

/-- After the echo loop: `close(client_fd)` and back to `accept`. -/
def closeClient (s : State) : State :=
  { s with
    pc := .accept
    past := s.past ++ [s.conversation]
    out := s.out ++ [.closed s.client] }

def State.call (s : State) (c : Call maxRead) : State :=
  { s with conversation := s.conversation ++ [c] }

def State.print (s : State) (l : Line) : State := { s with out := s.out ++ [l] }

def onRecv (s : State) (r : Recv maxRead) : State :=
  match r with
  | .eof => closeClient ((s.call (.recv r)).print (.disconnected s.client))
  | .error e => closeClient ((s.call (.recv r)).print (.perror "recv" e))
  | .data c =>
    let buffer := s.buffer.terminated c.bytes (c.length_lt (by decide))
    let n := c.bytes.length
    { (s.call (.recv r)).print (.received s.client n (cstr buffer.bytes)) with
      pc := .send n
      buffer }

/-- `bytes_read` bytes of the buffer were asked to be sent. -/
def onSend (s : State) (bytesRead : ℕ) (r : Send) : State :=
  let s' := s.call (.send (s.buffer.bytes.take bytesRead) r)
  match r with
  | .ok n => { s'.print (.echoed s.client n) with pc := .recv }
  | .error e =>
    if e = .epipe then { s' with pc := .terminated }
    else closeClient (s'.print (.perror "send" e))

@[simp] theorem onRecv_conversation (s : State) (r : Recv maxRead) :
    (onRecv s r).conversation = s.conversation ++ [.recv r] := by
  cases r <;> rfl

@[simp] theorem onSend_conversation (s : State) (bytesRead : ℕ) (r : Send) :
    (onSend s bytesRead r).conversation =
      s.conversation ++ [.send (s.buffer.bytes.take bytesRead) r] := by
  cases r with
  | ok n => rfl
  | error e => by_cases he : e = .epipe <;> simp [onSend, he, State.call, closeClient, State.print]

/-- `send` may accept fewer bytes than asked, but not none and not more. -/
def SendResult (bytesRead : ℕ) : Send → Prop
  | .ok n => 0 < n ∧ n ≤ bytesRead
  | .error _ => True

instance (bytesRead : ℕ) : (r : Send) → Decidable (SendResult bytesRead r)
  | .ok n => inferInstanceAs (Decidable (0 < n ∧ n ≤ bytesRead))
  | .error _ => .isTrue trivial

/-- No result when the answer is not one to the pending call. -/
def step (s : State) : Answer → Option State
  | .accept r => if s.pc = .accept then some (onAccept s r) else none
  | .recv r => if s.pc = .recv then some (onRecv s r) else none
  | .send r =>
    match s.pc with
    | .send n => if SendResult n r then some (onSend s n r) else none
    | _ => none

/-- The call after an answer. -/
def Answer.next : Answer → PC
  | .accept (.error _) => .accept
  | .accept (.ok _) => .recv
  | .recv (.data c) => .send c.bytes.length
  | .recv .eof | .recv (.error _) => .accept
  | .send (.ok _) => .recv
  | .send (.error e) => if e = .epipe then .terminated else .accept

variable {s t : State} {a : Answer}

theorem step_accept {r : Except Errno Peer} (h : step s (.accept r) = some t) :
    s.pc = .accept ∧ t = onAccept s r := by
  simpa [step, eq_comm] using h

theorem step_recv {r : Recv maxRead} (h : step s (.recv r) = some t) :
    s.pc = .recv ∧ t = onRecv s r := by
  simpa [step, eq_comm] using h

theorem step_send {r : Send} (h : step s (.send r) = some t) :
    ∃ n, s.pc = .send n ∧ SendResult n r ∧ t = onSend s n r := by
  cases hpc : s.pc with
  | send n => exact ⟨n, rfl, by simpa [step, hpc, eq_comm] using h⟩
  | accept | recv | terminated => simp [step, hpc] at h

theorem step_of_sendResult {n : ℕ} (hs : s.pc = .send n) {r : Send} (hr : SendResult n r) :
    step s (.send r) = some (onSend s n r) := by
  simp [step, hs, hr]

theorem step_pc (h : step s a = some t) : t.pc = a.next := by
  cases a with
  | accept r =>
    obtain ⟨hpc, rfl⟩ := step_accept h
    cases r with
    | ok client => rfl
    | error e => by_cases he : e = .eintr <;> simp [onAccept, he, hpc, Answer.next]
  | recv r =>
    obtain ⟨-, rfl⟩ := step_recv h
    cases r <;> rfl
  | send r =>
    obtain ⟨n, -, -, rfl⟩ := step_send h
    cases r with
    | ok k => rfl
    | error e => by_cases he : e = .epipe <;> simp [onSend, he, Answer.next, closeClient]

/-- At the first call of `accept`; the array is not initialised. -/
def Listening (s : State) : Prop := s.pc = .accept ∧ s.past = []

def run (s : State) (answers : List Answer) : Option State := answers.foldlM step s

end SystemCalls.TcpServer

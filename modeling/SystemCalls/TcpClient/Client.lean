import SystemCalls.TcpServer.Server
import SystemCalls.Stdio

/-!
# tcp_client, and tcp_server over two channels

The communication loop of `tcp_client`'s `main`, and that loop and the echo loop of
`tcp_server` on one connection. Each direction is a queue of bytes: `send` puts all its
bytes in, `recv` takes any part from the front that fits its buffer, and returns 0 when
the queue is empty and the other side has closed.
-/

namespace SystemCalls.TcpClient

open Socket

/-- `BUFFER_SIZE` -/
abbrev bufferSize : ℕ := 1024

/-- `sizeof(buffer) - 1` -/
abbrev maxRead : ℕ := 1023

/-- The call the process is in, or about to make. -/
inductive PC
  /-- Before `printf("> ")`. -/
  | prompt
  | fgets
  | send (len : ℕ)
  | recv
  | closed
  deriving DecidableEq

/-- What is printed, in the order of the source's `printf` and `perror` calls. -/
inductive Line
  | prompt
  | newline
  /-- `"Server echo: %s"` -/
  | echo (text : List UInt8)
  | serverClosed
  | closing
  | perror (call : String) (e : Errno)

/-- `lines` are the chunks `fgets` returned, `calls` the calls on the socket. -/
structure State where
  pc : PC
  buffer : CharBuf bufferSize
  lines : List (List UInt8)
  calls : List (Call maxRead)
  out : List Line

inductive Answer
  | prompt
  | fgets (line : Option (Chunk maxRead))
  | send (r : Send)
  | recv (r : Recv maxRead)

/-- After the loop: `close(sock)`. -/
def State.close (s : State) : State := { s with pc := .closed, out := s.out ++ [.closing] }

def State.call (s : State) (c : Call maxRead) : State := { s with calls := s.calls ++ [c] }

def State.print (s : State) (l : Line) : State := { s with out := s.out ++ [l] }

def onFgets (s : State) : Option (Chunk maxRead) → State
  | none => (s.print .newline).close
  | some line =>
    let buffer := s.buffer.terminated line.bytes (line.length_lt (by decide))
    { s with
      pc := .send (cstr buffer.bytes).length
      buffer
      lines := s.lines ++ [line.bytes] }

def onSend (s : State) (len : ℕ) (r : Send) : State :=
  let s' := s.call (.send (s.buffer.bytes.take len) r)
  match r with
  | .ok _ => { s' with pc := .recv }
  | .error e => (s'.print (.perror "send" e)).close

def onRecv (s : State) (r : Recv maxRead) : State :=
  let s' := s.call (.recv r)
  match r with
  | .eof => (s'.print .serverClosed).close
  | .error e => (s'.print (.perror "recv" e)).close
  | .data c =>
    let buffer := s.buffer.terminated c.bytes (c.length_lt (by decide))
    { s'.print (.echo (cstr buffer.bytes)) with pc := .prompt, buffer }

@[simp] theorem onFgets_calls (s : State) (line : Option (Chunk maxRead)) :
    (onFgets s line).calls = s.calls := by
  cases line <;> rfl

@[simp] theorem onSend_calls (s : State) (len : ℕ) (r : Send) :
    (onSend s len r).calls = s.calls ++ [.send (s.buffer.bytes.take len) r] := by
  cases r <;> rfl

@[simp] theorem onRecv_calls (s : State) (r : Recv maxRead) :
    (onRecv s r).calls = s.calls ++ [.recv r] := by
  cases r <;> rfl

def step (s : State) : Answer → Option State
  | .prompt => if s.pc = .prompt then some { s.print .prompt with pc := .fgets } else none
  | .fgets line => if s.pc = .fgets then some (onFgets s line) else none
  | .send r =>
    match s.pc with
    | .send len => some (onSend s len r)
    | _ => none
  | .recv r => if s.pc = .recv then some (onRecv s r) else none

section Inversion

variable {s t : State}

theorem step_prompt (h : step s .prompt = some t) :
    s.pc = .prompt ∧ t = { s.print .prompt with pc := .fgets } := by
  simpa [step, eq_comm] using h

theorem step_fgets {line : Option (Chunk maxRead)} (h : step s (.fgets line) = some t) :
    s.pc = .fgets ∧ t = onFgets s line := by
  simpa [step, eq_comm] using h

theorem step_send {r : Send} (h : step s (.send r) = some t) :
    ∃ len, s.pc = .send len ∧ t = onSend s len r := by
  cases hpc : s.pc with
  | send len => exact ⟨len, rfl, by simpa [step, hpc, eq_comm] using h⟩
  | prompt | fgets | recv | closed => simp [step, hpc] at h

theorem step_recv {r : Recv maxRead} (h : step s (.recv r) = some t) :
    s.pc = .recv ∧ t = onRecv s r := by
  simpa [step, eq_comm] using h

end Inversion

/-- The next chunk `fgets(buffer, sizeof(buffer), stdin)` returns; `none` at the end. -/
def readLine (stdin : List UInt8) : Option (Chunk maxRead) :=
  if h : stdin = [] then none
  else some ⟨Stdio.fgets maxRead stdin, Stdio.fgets_ne_nil (by decide) h,
    Stdio.length_fgets_le maxRead stdin⟩

/-! ### The two programs together -/

/-- `stdin` is what the client has not read of its input. -/
structure Net where
  client : State
  server : TcpServer.State
  stdin : List UInt8
  toServer : List UInt8
  toClient : List UInt8

inductive Event
  | prompt
  | fgets
  | clientSend
  | clientRecv (c : Chunk maxRead)
  | clientEof
  | serverRecv (c : Chunk TcpServer.maxRead)
  | serverSend
  | serverEof

inductive Step : Net → Event → Net → Prop
  | prompt {s : Net} {c : State} (hc : step s.client .prompt = some c) :
      Step s .prompt { s with client := c }
  | fgets {s : Net} {c : State} (hc : step s.client (.fgets (readLine s.stdin)) = some c) :
      Step s .fgets
        { s with client := c, stdin := s.stdin.drop (Stdio.fgets maxRead s.stdin).length }
  | clientSend {s : Net} {c : State} {len : ℕ} (hpc : s.client.pc = .send len)
      (hc : step s.client (.send (.ok len)) = some c) :
      Step s .clientSend
        { s with client := c, toServer := s.toServer ++ s.client.buffer.bytes.take len }
  | clientRecv {s : Net} {c : State} {d : Chunk maxRead} {rest : List UInt8}
      (hd : s.toClient = d.bytes ++ rest) (hc : step s.client (.recv (.data d)) = some c) :
      Step s (.clientRecv d) { s with client := c, toClient := rest }
  | clientEof {s : Net} {c : State} (hd : s.toClient = []) (hclosed : s.server.pc = .accept)
      (hc : step s.client (.recv .eof) = some c) :
      Step s .clientEof { s with client := c }
  | serverRecv {s : Net} {v : TcpServer.State} {d : Chunk TcpServer.maxRead}
      {rest : List UInt8} (hd : s.toServer = d.bytes ++ rest)
      (hv : TcpServer.step s.server (.recv (.data d)) = some v) :
      Step s (.serverRecv d) { s with server := v, toServer := rest }
  | serverSend {s : Net} {v : TcpServer.State} {n : ℕ} (hpc : s.server.pc = .send n)
      (hv : TcpServer.step s.server (.send (.ok n)) = some v) :
      Step s .serverSend
        { s with server := v, toClient := s.toClient ++ s.server.buffer.bytes.take n }
  | serverEof {s : Net} {v : TcpServer.State} (hd : s.toServer = [])
      (hclosed : s.client.pc = .closed) (hv : TcpServer.step s.server (.recv .eof) = some v) :
      Step s .serverEof { s with server := v }

/-- Connected and accepted, nothing sent. -/
structure Connected (stdin : List UInt8) (s : Net) : Prop where
  client : s.client.pc = .prompt ∧ s.client.lines = [] ∧ s.client.calls = [] ∧ s.client.out = []
  server : s.server.pc = .recv ∧ s.server.conversation = []
  stdin : s.stdin = stdin
  channels : s.toServer = [] ∧ s.toClient = []

def system (stdin : List UInt8) : LTS Net Event where
  initial := Connected stdin
  step := Step

end SystemCalls.TcpClient

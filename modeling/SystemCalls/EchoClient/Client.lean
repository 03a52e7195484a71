import SystemCalls.CString
import SystemCalls.EchoProgram
import SystemCalls.Stdio

/-!
# The echo client program, and both programs over two channels

The loop of 6.2.7's `main`, and that loop and the echo server of 6.2.6 on one connection. A
channel holds a bounded number of bytes: `write` takes any part of what it is given that there
is room for, and waits when there is none.
-/

namespace SystemCalls.EchoClient

open Socket WriteLoops

/-- `sizeof line` -/
abbrev lineSize : ℕ := 256

/-- `sizeof line - 1`, for `fgets` and for `read`. -/
abbrev maxRead : ℕ := 255

inductive PC
  /-- Before `fputs("> ", stdout)` and `fgets`. -/
  | prompt
  /-- At `write(fd, line + sent, len - sent)`. -/
  | write (len sent : ℕ)
  | read
  | closed
  /-- `exit(1)` in `die`. -/
  | died
  deriving DecidableEq

/-- `while (sent < len)`, with `read` after it. -/
def PC.whileSent (len sent : ℕ) : PC :=
  if sent < len then .write len sent else .read

inductive Line
  | prompt
  | text (bytes : List UInt8)

def Line.bytes : Line → List UInt8
  | prompt => ascii "> "
  | text bytes => bytes

/-- The text printed between the prompts. -/
def Line.echoed : Line → List UInt8
  | prompt => []
  | text bytes => bytes

/-- `lines` are the chunks `fgets` returned, `sent` the bytes `write` took and `got` those of
`read`. -/
structure State where
  pc : PC
  line : CharBuf lineSize
  lines : List (List UInt8)
  sent : List UInt8
  got : List UInt8
  out : List Line

/-- What is still to be written of the line. -/
def State.unsent (s : State) : List UInt8 :=
  match s.pc with
  | .write len sent => (s.line.bytes.take len).drop sent
  | _ => []

def State.echoed (s : State) : List UInt8 := s.out.flatMap Line.echoed

def onFgets (s : State) : Option (Chunk maxRead) → State
  | none => { s with pc := .closed, out := s.out ++ [.prompt] }
  | some chunk =>
    let line := s.line.terminated chunk.bytes (chunk.length_lt (by decide))
    { s with
      pc := .whileSent (cstr line.bytes).length 0
      line
      lines := s.lines ++ [chunk.bytes]
      out := s.out ++ [.prompt] }

def onWrite (s : State) (len sent : ℕ) : Answer → State
  | .count n => { s with pc := .whileSent len (sent + n), sent := s.sent ++ s.unsent.take n }
  | .error e => if e = .eintr then { s with pc := .whileSent len sent } else { s with pc := .died }

/-- `n <= 0` ends the loop, also for an interruption. -/
def onRead (s : State) : Recv maxRead → State
  | .data chunk =>
    let line := s.line.terminated chunk.bytes (chunk.length_lt (by decide))
    { s with
      pc := .prompt
      line
      got := s.got ++ chunk.bytes
      out := s.out ++ [.text (cstr line.bytes)] }
  | .eof | .error _ => { s with pc := .closed }

inductive Event
  | fgets (chunk : Option (Chunk maxRead))
  | write (a : Answer)
  | read (r : Recv maxRead)

def step (s : State) : Event → Option State
  | .fgets chunk => if s.pc = .prompt then some (onFgets s chunk) else none
  | .write a =>
    match s.pc with
    | .write len sent => some (onWrite s len sent a)
    | _ => none
  | .read r => if s.pc = .read then some (onRead s r) else none

section Inversion

variable {s t : State}

theorem step_fgets {chunk : Option (Chunk maxRead)} (h : step s (.fgets chunk) = some t) :
    s.pc = .prompt ∧ t = onFgets s chunk := by
  simpa [step, eq_comm] using h

theorem step_write {a : Answer} (h : step s (.write a) = some t) :
    ∃ len sent, s.pc = .write len sent ∧ t = onWrite s len sent a := by
  cases hpc : s.pc with
  | write len sent => exact ⟨len, sent, rfl, by simpa [step, hpc, eq_comm] using h⟩
  | prompt | read | closed | died => simp [step, hpc] at h

theorem step_read {r : Recv maxRead} (h : step s (.read r) = some t) :
    s.pc = .read ∧ t = onRead s r := by
  simpa [step, eq_comm] using h

end Inversion

/-- The next chunk `fgets(line, sizeof line, stdin)` returns; `none` at the end. -/
def readLine (stdin : List UInt8) : Option (Chunk maxRead) :=
  if h : stdin = [] then none
  else some ⟨Stdio.fgets maxRead stdin, Stdio.fgets_ne_nil (by decide) h,
    Stdio.length_fgets_le maxRead stdin⟩

/-! ### The two programs together -/

/-- `stdin` is what the client has not read of its input. -/
structure Net where
  client : State
  server : EchoProgram.State
  stdin : List UInt8
  toServer : List UInt8
  toClient : List UInt8

namespace Net

inductive Event
  | fgets
  | clientWrite (n : ℕ)
  | clientRead (chunk : Chunk maxRead)
  | clientEof
  | serverRead (chunk : Chunk EchoProgram.BUF_SZ)
  | serverWrite (n : ℕ)
  | serverEof
  | serverClose
  /-- EINTR of a `read` or `write`. That `fgets` is interrupted and that the server's `read` fails
  with ECONNRESET is not in the model. -/
  | interrupted
  /-- A `write` on the connection that the client has closed. -/
  | serverWriteFails (e : Errno)
  | serverKilled

/-- The bytes a channel of `cap` bytes has no place for are not taken. -/
inductive Step (capServer capClient : ℕ) : Net → Event → Net → Prop
  | fgets {s : Net} {c : State} (hc : step s.client (.fgets (readLine s.stdin)) = some c) :
      Step capServer capClient s .fgets
        { s with client := c, stdin := s.stdin.drop (Stdio.fgets maxRead s.stdin).length }
  | clientWrite {s : Net} {c : State} {n : ℕ} (hn : 0 < n) (hle : n ≤ s.client.unsent.length)
      (hcap : s.toServer.length + n ≤ capServer)
      (hc : step s.client (.write (.count n)) = some c) :
      Step capServer capClient s (.clientWrite n)
        { s with client := c, toServer := s.toServer ++ s.client.unsent.take n }
  | clientRead {s : Net} {c : State} {chunk : Chunk maxRead} {rest : List UInt8}
      (hd : s.toClient = chunk.bytes ++ rest) (hc : step s.client (.read (.data chunk)) = some c) :
      Step capServer capClient s (.clientRead chunk) { s with client := c, toClient := rest }
  | clientEof {s : Net} {c : State} (hd : s.toClient = []) (hclosed : s.server.pc = .accept)
      (hc : step s.client (.read .eof) = some c) :
      Step capServer capClient s .clientEof { s with client := c }
  | clientWriteInterrupted {s : Net} {c : State}
      (hc : step s.client (.write (.error .eintr)) = some c) :
      Step capServer capClient s .interrupted { s with client := c }
  | clientReadInterrupted {s : Net} {c : State}
      (hc : step s.client (.read (.error .eintr)) = some c) :
      Step capServer capClient s .interrupted { s with client := c }
  | serverRead {s : Net} {v : EchoProgram.State} {chunk : Chunk EchoProgram.BUF_SZ}
      {rest : List UInt8} (hd : s.toServer = chunk.bytes ++ rest)
      (hv : EchoProgram.Step s.server (.read (.data chunk)) v) :
      Step capServer capClient s (.serverRead chunk) { s with server := v, toServer := rest }
  | serverWrite {s : Net} {v : EchoProgram.State} {n : ℕ} (hn : 0 < n)
      (hcap : s.toClient.length + n ≤ capClient)
      (hv : EchoProgram.Step s.server (.write (.count n)) v) :
      Step capServer capClient s (.serverWrite n)
        { s with server := v, toClient := s.toClient ++ (s.server.pc.pending 0).take n }
  | serverEof {s : Net} {v : EchoProgram.State} (hd : s.toServer = [])
      (hclosed : s.client.pc = .closed) (hv : EchoProgram.Step s.server (.read .eof) v) :
      Step capServer capClient s .serverEof { s with server := v }
  | serverClose {s : Net} {v : EchoProgram.State} (hv : EchoProgram.Step s.server .close v) :
      Step capServer capClient s .serverClose { s with server := v }
  | serverReadInterrupted {s : Net} {v : EchoProgram.State}
      (hv : EchoProgram.Step s.server (.read (.error .eintr)) v) :
      Step capServer capClient s .interrupted { s with server := v }
  | serverWriteInterrupted {s : Net} {v : EchoProgram.State}
      (hv : EchoProgram.Step s.server (.write (.error .eintr)) v) :
      Step capServer capClient s .interrupted { s with server := v }
  | serverWriteFails {s : Net} {v : EchoProgram.State} {e : Errno}
      (hclosed : s.client.pc = .closed) (he : e ≠ .eintr)
      (hv : EchoProgram.Step s.server (.write (.error e)) v) :
      Step capServer capClient s (.serverWriteFails e) { s with server := v }
  | serverKilled {s : Net} {v : EchoProgram.State} (hclosed : s.client.pc = .closed)
      (hv : EchoProgram.Step s.server .killed v) :
      Step capServer capClient s .serverKilled { s with server := v }

/-- Connected and accepted, nothing sent. -/
structure Connected (stdin : List UInt8) (s : Net) : Prop where
  client : s.client.pc = .prompt ∧ s.client.lines = [] ∧ s.client.sent = [] ∧
    s.client.got = [] ∧ s.client.out = []
  server : s.server.pc = .read 0
  stdin : s.stdin = stdin
  channels : s.toServer = [] ∧ s.toClient = []

def system (capServer capClient : ℕ) (stdin : List UInt8) : LTS Net Event where
  initial := Connected stdin
  step := Step capServer capClient

end Net

end SystemCalls.EchoClient

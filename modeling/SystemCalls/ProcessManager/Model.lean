import SystemCalls.Transition
import SystemCalls.Stdio

/-!
# process_manager

The parent and the children of `process_manager`, each with its own copy of the
stdout buffer. A step puts one character, or is one system call; `exit` writes the
buffer out and `fork` copies it. Process 0 is the parent, process `k` the child of
the `k`-th fork. No process is killed, so `wait` finds only children that exited.
-/

namespace SystemCalls.ProcessManager

open Stdio

/-- Where a process is in `main` or `child_task`. -/
inductive PC
  /-- Inside `printf`, with the characters still to put. -/
  | print (text : List Char) (next : PC)
  /-- The call of `print_process_info`. -/
  | info (next : PC)
  /-- The call of `fork` in pass `i` of the first loop. -/
  | fork (i : ℕ)
  | sleep (next : PC)
  /-- The call of `wait` in pass `i` of the second loop. -/
  | wait (i : ℕ)
  | rusage
  | exit (status : ℕ)
  | exited (status : ℕ)

def digits (n : ℕ) : List Char := (toString n).toList

/-- `%06ld` -/
def padded (n : ℕ) : List Char :=
  List.replicate (6 - (digits n).length) '0' ++ digits n

/-- The line of `print_process_info`. -/
def processInfo (pid ppid pgid sid : ℕ) : List Char :=
  "PID: ".toList ++ digits pid ++ ", PPID: ".toList ++ digits ppid ++ ", PGID: ".toList ++
    digits pgid ++ ", SID: ".toList ++ digits sid ++ ['\n']

def childTask (childNum sleepTime : ℕ) : PC :=
  .print ("[Child ".toList ++ digits childNum ++ "] Started - ".toList)
    (.info
      (.print ("[Child ".toList ++ digits childNum ++ "] Working for ".toList ++
          digits sleepTime ++ " seconds...".toList ++ ['\n'])
        (.sleep
          (.print ("[Child ".toList ++ digits childNum ++ "] Exiting with status ".toList ++
              digits childNum ++ ['\n'])
            (.exit childNum)))))

/-- The second loop at its test. -/
def waitLoop (children i : ℕ) : PC := if i < children then .wait i else .rusage

/-- The first loop at its test, for `children` passes in place of 3. -/
def forkLoop (children i : ℕ) : PC :=
  if i < children then .fork i
  else .print ("\n[Parent] Waiting for children to complete...\n".toList ++ ['\n'])
    (waitLoop children 0)

/-- The last lines of `main`. -/
def finish : PC :=
  .print ("\n[Parent] All children completed. Exiting.".toList ++ ['\n']) (.exit 0)

def main (children : ℕ) : PC :=
  .print ("=== Process Manager Demo ===\n".toList ++ ['\n'])
    (.print "[Parent] Started - ".toList (.info (forkLoop children 0)))

def created (i pid : ℕ) : List Char :=
  "[Parent] Created child ".toList ++ digits (i + 1) ++ " with PID ".toList ++ digits pid ++
    ['\n']

def terminated (pid status : ℕ) : List Char :=
  "[Parent] Child PID ".toList ++ digits pid ++ " terminated\n".toList ++
    "         Exit status: ".toList ++ digits (status % 256) ++ ['\n']

def usage (usec uusec ssec susec : ℕ) : List Char :=
  "\n[Parent] Children resource usage:\n".toList ++
    "         User CPU time: ".toList ++ digits usec ++ ['.'] ++ padded uusec ++
    " sec\n".toList ++
    "         System CPU time: ".toList ++ digits ssec ++ ['.'] ++ padded susec ++
    " sec".toList ++ ['\n']

/-- One printed character: the `index`-th that process `proc` prints. -/
structure Byte where
  proc : ℕ
  index : ℕ
  char : Char
  deriving DecidableEq

/-- `text` is everything the process has printed itself. -/
structure Proc where
  pid : ℕ
  pc : PC
  buffer : List Byte
  text : List Char

/-- `waited` are the children `wait` returned; `copied` is history, all buffer contents
that forks have copied. -/
structure State where
  procs : List Proc
  waited : List ℕ
  output : List Byte
  copied : List Byte

inductive Event
  | put (k : ℕ)
  | printed (k : ℕ)
  | info (k ppid pgid sid : ℕ)
  | fork (k pid : ℕ)
  | forkFail (k : ℕ)
  | sleep (k : ℕ)
  | wait (k child : ℕ)
  | waitError (k : ℕ)
  | rusage (k : ℕ) (times : Option (ℕ × ℕ × ℕ × ℕ))
  | exit (k : ℕ)

/-- The process that makes the step. -/
def Event.actor : Event → ℕ
  | .put k | .printed k | .info k _ _ _ | .fork k _ | .forkFail k | .sleep k | .wait k _
  | .waitError k | .rusage k _ | .exit k => k

def isNewline (x : Byte) : Bool := x.char == '\n'

/-- The process after `putc`, and what that writes out. -/
def Proc.put (b : Buffering) (p : Proc) (k : ℕ) (c : Char) (pc : PC) : Proc × List Byte :=
  let x : Byte := ⟨k, p.text.length, c⟩
  let r := Stdio.put b isNewline p.buffer x
  (⟨p.pid, pc, r.1, p.text ++ [c]⟩, r.2)

/-- One step of the process `p` between `l₁` and `l₂`. The numbers that `getppid`,
`getpgid`, `getsid` and `getrusage` answer, the pid of a new child and whether `fork`
succeeds are the kernel's choice. -/
inductive Step (b : Buffering) (children : ℕ) : State → Event → State → Prop
  | put {s : State} {l₁ l₂ : List Proc} {p : Proc} {c : Char} {rest : List Char} {next : PC}
      (hs : s.procs = l₁ ++ p :: l₂) (hp : p.pc = .print (c :: rest) next) :
      Step b children s (.put l₁.length)
        { s with
          procs := l₁ ++ (p.put b l₁.length c (.print rest next)).1 :: l₂
          output := s.output ++ (p.put b l₁.length c (.print rest next)).2 }
  | printed {s : State} {l₁ l₂ : List Proc} {p : Proc} {next : PC}
      (hs : s.procs = l₁ ++ p :: l₂) (hp : p.pc = .print [] next) :
      Step b children s (.printed l₁.length)
        { s with procs := l₁ ++ { p with pc := next } :: l₂ }
  | info {s : State} {l₁ l₂ : List Proc} {p : Proc} {next : PC} {ppid pgid sid : ℕ}
      (hs : s.procs = l₁ ++ p :: l₂) (hp : p.pc = .info next) :
      Step b children s (.info l₁.length ppid pgid sid)
        { s with
          procs := l₁ ++ { p with pc := .print (processInfo p.pid ppid pgid sid) next } :: l₂ }
  | fork {s : State} {l₁ l₂ : List Proc} {p : Proc} {i pid : ℕ}
      (hs : s.procs = l₁ ++ p :: l₂) (hp : p.pc = .fork i) :
      Step b children s (.fork l₁.length pid)
        { s with
          procs := l₁ ++ { p with pc := .print (created i pid) (forkLoop children (i + 1)) } ::
            (l₂ ++ [⟨pid, childTask (i + 1) (i + 2), p.buffer, []⟩])
          copied := s.copied ++ p.buffer }
  | forkFail {s : State} {l₁ l₂ : List Proc} {p : Proc} {i : ℕ}
      (hs : s.procs = l₁ ++ p :: l₂) (hp : p.pc = .fork i) :
      Step b children s (.forkFail l₁.length)
        { s with procs := l₁ ++ { p with pc := .exit 1 } :: l₂ }
  | sleep {s : State} {l₁ l₂ : List Proc} {p : Proc} {next : PC}
      (hs : s.procs = l₁ ++ p :: l₂) (hp : p.pc = .sleep next) :
      Step b children s (.sleep l₁.length)
        { s with procs := l₁ ++ { p with pc := next } :: l₂ }
  | wait {s : State} {l₁ l₂ : List Proc} {p q : Proc} {i j status : ℕ}
      (hs : s.procs = l₁ ++ p :: l₂) (hp : p.pc = .wait i) (hj : 0 < j)
      (hq : s.procs[j]? = some q) (hx : q.pc = .exited status) (hw : j ∉ s.waited) :
      Step b children s (.wait l₁.length j)
        { s with
          procs := l₁ ++
            { p with pc := .print (terminated q.pid status) (waitLoop children (i + 1)) } :: l₂
          waited := s.waited ++ [j] }
  | waitError {s : State} {l₁ l₂ : List Proc} {p : Proc} {i : ℕ}
      (hs : s.procs = l₁ ++ p :: l₂) (hp : p.pc = .wait i)
      (hw : ∀ j, 0 < j → j < s.procs.length → j ∈ s.waited) :
      Step b children s (.waitError l₁.length)
        { s with procs := l₁ ++ { p with pc := waitLoop children (i + 1) } :: l₂ }
  | rusage {s : State} {l₁ l₂ : List Proc} {p : Proc} {u v w x : ℕ}
      (hs : s.procs = l₁ ++ p :: l₂) (hp : p.pc = .rusage) :
      Step b children s (.rusage l₁.length (some (u, v, w, x)))
        { s with procs := l₁ ++ { p with pc := .print (usage u v w x) finish } :: l₂ }
  | rusageError {s : State} {l₁ l₂ : List Proc} {p : Proc}
      (hs : s.procs = l₁ ++ p :: l₂) (hp : p.pc = .rusage) :
      Step b children s (.rusage l₁.length none)
        { s with procs := l₁ ++ { p with pc := finish } :: l₂ }
  | exit {s : State} {l₁ l₂ : List Proc} {p : Proc} {status : ℕ}
      (hs : s.procs = l₁ ++ p :: l₂) (hp : p.pc = .exit status) :
      Step b children s (.exit l₁.length)
        { s with
          procs := l₁ ++ { p with pc := .exited status, buffer := [] } :: l₂
          output := s.output ++ p.buffer }

/-- The parent alone, with an empty buffer. -/
def initialState (children pid : ℕ) : State :=
  ⟨[⟨pid, main children, [], []⟩], [], [], []⟩

def system (b : Buffering) (children : ℕ) : LTS State Event where
  initial s := ∃ pid, s = initialState children pid
  step := Step b children

/-- Every process has exited. -/
def Completed (s : State) : Prop := ∀ p ∈ s.procs, ∃ status, p.pc = .exited status

end SystemCalls.ProcessManager

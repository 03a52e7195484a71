import SystemCalls.Descriptors
import SystemCalls.Transition

/-!
# `pipe_demo`: the system calls of each function

The calling process and the child it forks run lists of system calls, each on its own
descriptor table. `simple_pipe_demo`, `bidirectional_pipe_demo` and `pipe_capacity_demo` are
given as such lists; `pipe_exec_demo` has a model of its own.
-/

namespace SystemCalls.PipeDemo.Calls

inductive Pipe
  | pipe1
  | pipe2
  deriving DecidableEq

/-- `read p` is `p[0]`, `write p` is `p[1]`. -/
inductive PipeEnd
  | read (p : Pipe)
  | write (p : Pipe)
  deriving DecidableEq

/-- Open files: the ends of the pipes, and whatever was open before. -/
inductive File (F : Type*)
  | other (f : F)
  | pipeEnd (e : PipeEnd)

inductive Stmt
  | pipe (p : Pipe)
  | fork
  | close (e : PipeEnd)
  | read (p : Pipe)
  | write (p : Pipe)
  | wait
  | exit
  deriving DecidableEq

/-- A function: the calls of the caller, those of its child, and whether the result of `fork` is
compared with -1. A failed `pipe` returns at once in each of them. -/
structure Demo where
  caller : List Stmt
  child : List Stmt
  forkChecked : Bool

open Pipe PipeEnd

/-- Its only pipe, `pipefd`, is `pipe1` here. -/
def simple_pipe_demo : Demo where
  caller := [.pipe pipe1, .fork, .close (read pipe1), .write pipe1, .close (write pipe1), .wait]
  child := [.close (write pipe1), .read pipe1, .close (read pipe1), .exit]
  forkChecked := true

def bidirectional_pipe_demo : Demo where
  caller := [.pipe pipe1, .pipe pipe2, .fork, .close (read pipe1), .close (write pipe2),
    .write pipe1, .close (write pipe1), .read pipe2, .close (read pipe2), .wait]
  child := [.close (write pipe1), .close (read pipe2), .read pipe1, .close (read pipe1),
    .write pipe2, .close (write pipe2), .exit]
  forkChecked := false

def pipe_capacity_demo : Demo where
  caller := [.pipe pipe1, .close (read pipe1), .close (write pipe1)]
  child := []
  forkChecked := true

/-- Which of the calls of a function succeed. -/
structure Outcomes where
  pipe1 : Bool
  pipe2 : Bool
  fork : Bool

def Outcomes.pipe (o : Outcomes) : Pipe → Bool
  | .pipe1 => o.pipe1
  | .pipe2 => o.pipe2

/-- The calls still to be made, and the descriptor table. -/
structure Proc (F : Type*) where
  code : List Stmt
  table : Descriptors (File F)

/-- `fd` holds the arrays filled by `pipe`, `unread` the pipes with data in them, and `broken`
tells that the caller has written to a pipe without a reader. -/
structure State (F : Type*) where
  caller : Proc F
  child : Option (Proc F)
  fd : PipeEnd → ℕ
  unread : List Pipe
  broken : Bool

inductive Actor
  | caller
  | child

variable {F : Type*}

/-- Some process has a descriptor for `e`. -/
def State.Held (s : State F) (e : PipeEnd) : Prop :=
  s.caller.table.Holds (.pipeEnd e) ∨ ∃ c, s.child = some c ∧ c.table.Holds (.pipeEnd e)

/-- The calls that the caller and the child have in common, with the pipes that have unread data
and whether the call raised `SIGPIPE`. A read waits for data or for the last writer's close. -/
inductive ProcStep (fd : PipeEnd → ℕ) (held : PipeEnd → Prop) :
    Proc F → List Pipe → Proc F → List Pipe → Bool → Prop
  | close {e : PipeEnd} {code : List Stmt} {t : Descriptors (File F)} {unread : List Pipe} :
      ProcStep fd held ⟨.close e :: code, t⟩ unread ⟨code, t.close (fd e)⟩ unread false
  | read {p : Pipe} {code : List Stmt} {t : Descriptors (File F)} {unread : List Pipe}
      (ht : t.file (fd (read p)) = some (.pipeEnd (read p))) (hp : p ∈ unread) :
      ProcStep fd held ⟨.read p :: code, t⟩ unread ⟨code, t⟩ (unread.filter (· ≠ p)) false
  | eof {p : Pipe} {code : List Stmt} {t : Descriptors (File F)} {unread : List Pipe}
      (ht : t.file (fd (read p)) = some (.pipeEnd (read p))) (hp : p ∉ unread)
      (hw : ¬ held (write p)) :
      ProcStep fd held ⟨.read p :: code, t⟩ unread ⟨code, t⟩ unread false
  | write {p : Pipe} {code : List Stmt} {t : Descriptors (File F)} {unread : List Pipe}
      (ht : t.file (fd (write p)) = some (.pipeEnd (write p))) (hr : held (read p)) :
      ProcStep fd held ⟨.write p :: code, t⟩ unread ⟨code, t⟩ (p :: unread) false
  | sigpipe {p : Pipe} {code : List Stmt} {t : Descriptors (File F)} {unread : List Pipe}
      (ht : t.file (fd (write p)) = some (.pipeEnd (write p))) (hr : ¬ held (read p)) :
      ProcStep fd held ⟨.write p :: code, t⟩ unread ⟨[], .empty⟩ unread true
  | exit {code : List Stmt} {t : Descriptors (File F)} {unread : List Pipe} :
      ProcStep fd held ⟨.exit :: code, t⟩ unread ⟨[], .empty⟩ unread false

/-- The two numbers and the table that `pipe` makes of `t`. -/
def opened (t : Descriptors (File F)) (p : Pipe) : (ℕ × ℕ) × Descriptors (File F) :=
  t.pipe (.pipeEnd (read p)) (.pipeEnd (write p))

/-- The array `p` after a successful `pipe(p)`. -/
def setArray (fd : PipeEnd → ℕ) (p : Pipe) (pipefd : ℕ × ℕ) : PipeEnd → ℕ :=
  Function.update (Function.update fd (read p) pipefd.1) (write p) pipefd.2

inductive Step (d : Demo) (o : Outcomes) : State F → Actor → State F → Prop
  | pipe {s : State F} {p : Pipe} {code : List Stmt} (hc : s.caller.code = .pipe p :: code)
      (ho : o.pipe p = true) :
      Step d o s .caller { s with
        caller := ⟨code, (opened s.caller.table p).2⟩
        fd := setArray s.fd p (opened s.caller.table p).1 }
  | pipeFail {s : State F} {p : Pipe} {code : List Stmt} (hc : s.caller.code = .pipe p :: code)
      (ho : o.pipe p = false) :
      Step d o s .caller { s with caller := ⟨[], s.caller.table⟩ }
  | fork {s : State F} {code : List Stmt} (hc : s.caller.code = .fork :: code)
      (ho : o.fork = true) (hn : s.child = none) :
      Step d o s .caller { s with
        caller := ⟨code, s.caller.table⟩
        child := some ⟨d.child, s.caller.table⟩ }
  | forkFail {s : State F} {code : List Stmt} (hc : s.caller.code = .fork :: code)
      (ho : o.fork = false) :
      Step d o s .caller { s with
        caller := ⟨if d.forkChecked then [] else code, s.caller.table⟩ }
  | wait {s : State F} {code : List Stmt} (hc : s.caller.code = .wait :: code)
      (hw : ∀ c, s.child = some c → c.code = []) :
      Step d o s .caller { s with caller := ⟨code, s.caller.table⟩ }
  | caller {s : State F} {p : Proc F} {unread : List Pipe} {sigpipe : Bool}
      (h : ProcStep s.fd s.Held s.caller s.unread p unread sigpipe) :
      Step d o s .caller { s with
        caller := p
        unread := unread
        broken := s.broken || sigpipe }
  | child {s : State F} {c c' : Proc F} {unread : List Pipe} {sigpipe : Bool}
      (hc : s.child = some c) (h : ProcStep s.fd s.Held c s.unread c' unread sigpipe) :
      Step d o s .child { s with
        child := some c'
        unread := unread }

/-- The call of the function, with a table in which no end of its pipes is open. -/
def start (d : Demo) (t : Descriptors F) : State F where
  caller := ⟨d.caller, t.map .other⟩
  child := none
  fd _ := 0
  unread := []
  broken := false

def system (d : Demo) (t : Descriptors F) (o : Outcomes) : LTS (State F) Actor where
  initial s := s = start d t
  step := Step d o

/-- The caller has returned with the table `t` and has always had a reader. -/
def Clean (t : Descriptors F) (s : State F) : Prop :=
  s.caller.code = [] ∧ s.broken = false ∧ s.caller.table.file = (t.map File.other).file

end SystemCalls.PipeDemo.Calls

import SystemCalls.Transition
import Mathlib.Data.List.Basic

/-!
# `shm_demo`: System V segments

The segments of the system, and the three functions of `shm_demo` one after the other, with
their children. Which of their calls succeed is given from outside.
-/

namespace SystemCalls.ShmDemo

def IPC_PRIVATE : ℕ := 0
def SHM_KEY : ℕ := 0x1234
def SHM_SIZE : ℕ := 1024

/-- `nattch` counts the attachments, and `dest` marks a segment for destruction. -/
structure Segment where
  key : ℕ
  content : List UInt8
  nattch : ℕ
  dest : Bool

abbrev Store := ℕ → Option Segment

/-- What the system holds at some time: finitely many segments, and one at most under each
key but `IPC_PRIVATE`. -/
structure Segments where
  store : Store
  bound : ℕ
  none_of_le : ∀ id, bound ≤ id → store id = none
  key_unique : ∀ {id id' : ℕ} {g g' : Segment}, store id = some g → store id' = some g' →
    g.key = g'.key → g.key ≠ IPC_PRIVATE → id = id'

namespace Segment

/-- What `shmget` creates: `size` zeros. -/
def new (key size : ℕ) : Segment :=
  ⟨key, List.replicate size 0, 0, false⟩

def attach (g : Segment) : Option Segment :=
  some { g with nattch := g.nattch + 1 }

/-- The last `shmdt` destroys a marked segment. -/
def detach (g : Segment) : Option Segment :=
  if g.dest = true ∧ g.nattch = 1 then none else some { g with nattch := g.nattch - 1 }

/-- `IPC_RMID`: an attached segment is only marked, and its key is free again. -/
def remove (g : Segment) : Option Segment :=
  if g.nattch = 0 then none else some { g with key := IPC_PRIVATE, dest := true }

def write (content : List UInt8) (g : Segment) : Option Segment :=
  some { g with content := content }

end Segment

def Store.modify (store : Store) (id : ℕ) (f : Segment → Option Segment) : Store :=
  Function.update store id ((store id).bind f)

/-! ### Accesses to the attached memory -/

def intBytes (n : UInt32) : List UInt8 :=
  [n.toUInt8, (n >>> 8).toUInt8, (n >>> 16).toUInt8, (n >>> 24).toUInt8]

def cString (text : String) : List UInt8 :=
  text.toList.map (fun c => c.toNat.toUInt8) ++ [0]

/-- The `int` at the start of the memory. -/
def intAt (content : List UInt8) : UInt32 :=
  (content.take 4).foldr (fun byte n => n <<< 8 ||| byte.toUInt32) 0

def poke (offset : ℕ) (bytes content : List UInt8) : List UInt8 :=
  content.take offset ++ bytes ++ content.drop (offset + bytes.length)

/-- `(*shared)++` is a load and a store of the incremented value. -/
inductive Access
  | put (offset : ℕ) (bytes : List UInt8)
  | load
  | store

/-- The value last loaded and the memory after an access. -/
def Access.run : Access → UInt32 → List UInt8 → UInt32 × List UInt8
  | put offset bytes, value, content => (value, poke offset bytes content)
  | load, _, content => (intAt content, content)
  | store, value, content => (value, poke 0 (intBytes (value + 1)) content)

/-! ### The functions -/

inductive Demo
  | basic
  | info
  | multiple
  deriving DecidableEq

inductive Nth
  | first
  | second
  deriving DecidableEq

/-- `put` at the offsets of `counter`, `message` and `writer_pid` in `struct shared_data`. -/
def sharedData (counter : UInt32) (message : String) (writer_pid : UInt32) : List Access :=
  [.put 0 (intBytes counter), .put 4 (cString message), .put 104 (intBytes writer_pid)]

/-- `sizeof(struct shared_data)`. -/
def sizeofSharedData : ℕ := 108

namespace Demo

def key : Demo → ℕ
  | basic => SHM_KEY
  | info | multiple => IPC_PRIVATE

def size : Demo → ℕ
  | basic => sizeofSharedData
  | info => SHM_SIZE
  | multiple => 4

/-- What the caller writes before it forks. -/
def init : Demo → List Access
  | basic => sharedData 0 "Initial message" 0
  | info => []
  | multiple => [.put 0 (intBytes 0)]

def childCode (pid : UInt32) : Demo → List Access
  | basic => sharedData 42 "Modified by child!" pid
  | info => []
  | multiple => [.load, .store, .load, .store, .load, .store]

end Demo

/-- Which of the calls succeed, and the pid of the first child. -/
structure Outcomes where
  shmget : Demo → Bool
  shmat : Demo → Bool
  fork : Demo → Nth → Bool
  pid : UInt32

/-- The next call of the caller; `init` has some of its own writes left. -/
inductive PC
  | shmget (d : Demo)
  | stat
  | shmat (d : Demo)
  | init (d : Demo) (code : List Access)
  | fork (d : Demo) (k : Nth)
  | wait (d : Demo) (k : Nth)
  | shmdt (d : Demo)
  | rmid (d : Demo)
  | done

namespace PC

/-- After a function has returned. -/
def afterDemo : Demo → PC
  | .basic => .shmget .info
  | .info => .shmget .multiple
  | .multiple => .done

def afterGet : Demo → PC
  | .info => .stat
  | d => .shmat d

def afterFork : Demo → Nth → PC
  | .multiple, .first => .fork .multiple .second
  | d, _ => .wait d .first

/-- Only `demonstrate_basic_shm` looks at the result of `fork`. -/
def afterForkFail : Demo → Nth → PC
  | .basic, _ => .shmdt .basic
  | d, k => afterFork d k

def afterWait : Demo → Nth → PC
  | .multiple, .first => .wait .multiple .second
  | d, _ => .shmdt d

end PC

/-- A child: what it has to do before its `shmdt`, and the value it has loaded. -/
structure Child where
  code : List Access
  value : UInt32
  attached : Bool

/-- After its `shmdt` a child only exits. -/
def Child.Exited (c : Child) : Prop :=
  c.attached = false

/-- `pid k` tells whether the `k`th fork of the function has succeeded. A child that has been
waited for is gone. -/
structure State where
  pc : PC
  store : Store
  shmid : ℕ
  pid : Nth → Bool
  child : Nth → Option Child

inductive Actor
  | caller
  | child (k : Nth)

/-- The memory the function has attached. -/
def State.content (s : State) : List UInt8 :=
  (s.store s.shmid).elim [] (·.content)

/-- `shmget` finds the segment `id` under the function's key. -/
def State.Finds (s : State) (d : Demo) (id : ℕ) (g : Segment) : Prop :=
  s.store id = some g ∧ g.key = d.key ∧ d.key ≠ IPC_PRIVATE

/-- What `waitpid(pid, NULL, 0)` waits for: the child itself, or any if there is none because
`fork` returned -1. `wait` in `demonstrate_basic_shm` has only one child to wait for. -/
def State.WaitsFor (s : State) (k r : Nth) : Prop :=
  s.pid k = true → r = k

inductive Step (o : Outcomes) : State → Actor → State → Prop
  | getFail {s : State} {d : Demo} (h : s.pc = .shmget d)
      (ho : o.shmget d = false ∨ ∃ id g, s.Finds d id g ∧ g.content.length < d.size) :
      Step o s .caller { s with pc := .afterDemo d }
  | getFound {s : State} {d : Demo} {id : ℕ} {g : Segment} (h : s.pc = .shmget d)
      (ho : o.shmget d = true) (hg : s.Finds d id g) (hsize : d.size ≤ g.content.length) :
      Step o s .caller { s with pc := .afterGet d, shmid := id }
  | getNew {s : State} {d : Demo} {id : ℕ} (h : s.pc = .shmget d) (ho : o.shmget d = true)
      (hg : ∀ id g, ¬ s.Finds d id g) (hid : s.store id = none) :
      Step o s .caller { s with
        pc := .afterGet d
        shmid := id
        store := Function.update s.store id (some (.new d.key d.size)) }
  | stat {s : State} (h : s.pc = .stat) : Step o s .caller { s with pc := .rmid .info }
  | attachFail {s : State} {d : Demo} (h : s.pc = .shmat d) (ho : o.shmat d = false) :
      Step o s .caller { s with pc := .rmid d }
  | attach {s : State} {d : Demo} (h : s.pc = .shmat d) (ho : o.shmat d = true) :
      Step o s .caller { s with
        pc := .init d d.init
        store := s.store.modify s.shmid Segment.attach }
  | init {s : State} {d : Demo} {a : Access} {code : List Access} (h : s.pc = .init d (a :: code)) :
      Step o s .caller { s with
        pc := .init d code
        store := s.store.modify s.shmid (Segment.write (a.run 0 s.content).2) }
  | initialized {s : State} {d : Demo} (h : s.pc = .init d []) :
      Step o s .caller { s with pc := .fork d .first }
  | fork {s : State} {d : Demo} {k : Nth} (h : s.pc = .fork d k) (ho : o.fork d k = true) :
      Step o s .caller { s with
        pc := .afterFork d k
        pid := Function.update s.pid k true
        child := Function.update s.child k (some ⟨d.childCode o.pid, 0, true⟩)
        store := s.store.modify s.shmid Segment.attach }
  | forkFail {s : State} {d : Demo} {k : Nth} (h : s.pc = .fork d k) (ho : o.fork d k = false) :
      Step o s .caller { s with
        pc := .afterForkFail d k
        pid := Function.update s.pid k false }
  | reap {s : State} {d : Demo} {k r : Nth} {c : Child} (h : s.pc = .wait d k)
      (hr : s.WaitsFor k r) (hc : s.child r = some c) (hx : c.Exited) :
      Step o s .caller { s with
        pc := .afterWait d k
        child := Function.update s.child r none }
  | echild {s : State} {d : Demo} {k : Nth} (h : s.pc = .wait d k)
      (hr : ∀ r, s.WaitsFor k r → s.child r = none) :
      Step o s .caller { s with pc := .afterWait d k }
  | detach {s : State} {d : Demo} (h : s.pc = .shmdt d) :
      Step o s .caller { s with
        pc := .rmid d
        store := s.store.modify s.shmid Segment.detach }
  | rmid {s : State} {d : Demo} (h : s.pc = .rmid d) :
      Step o s .caller { s with
        pc := .afterDemo d
        store := s.store.modify s.shmid Segment.remove }
  | childAccess {s : State} {k : Nth} {a : Access} {code : List Access} {value : UInt32}
      (hc : s.child k = some ⟨a :: code, value, true⟩) :
      Step o s (.child k) { s with
        child := Function.update s.child k (some ⟨code, (a.run value s.content).1, true⟩)
        store := s.store.modify s.shmid (Segment.write (a.run value s.content).2) }
  | childDetach {s : State} {k : Nth} {value : UInt32} (hc : s.child k = some ⟨[], value, true⟩) :
      Step o s (.child k) { s with
        child := Function.update s.child k (some ⟨[], value, false⟩)
        store := s.store.modify s.shmid Segment.detach }

/-- `main` with the segments of the system. -/
def start (i : Segments) : State where
  pc := .shmget .basic
  store := i.store
  shmid := 0
  pid _ := false
  child _ := none

def system (i : Segments) (o : Outcomes) : LTS State Actor where
  initial s := s = start i
  step := Step o

/-- All functions have run to completion, and the segments are the initial ones. -/
def LeftAlone (i : Segments) (s : State) : Prop :=
  s.pc = .done ∧ s.store = i.store

end SystemCalls.ShmDemo

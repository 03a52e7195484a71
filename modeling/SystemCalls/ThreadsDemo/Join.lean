import Mathlib.Data.List.FinRange
import SystemCalls.Counting
import SystemCalls.Transition

/-!
# Threads that print and are joined

`demo_simple_threads` and `demo_thread_local_storage` of threads_demo: `main` creates threads one
after the other and joins them in the same order, while they print. Only the value that a thread
has under `tls_key` and its own variables are read between its calls, so a thread is the list of
what it has still to do. Any `pthread_create` can fail. Where `main` does not look at what it
returns, `main` comes to join a `pthread_t` that nothing was stored in.
-/

namespace SystemCalls.ThreadsDemo.Join

inductive Line
  | started (id : ℤ)
  | finished (id : ℤ)
  | returned (thread : ℕ) (result : ℤ)
  | createFailed
  | tlsValue (id value : ℤ)
  | freeing (value : ℤ)
  deriving DecidableEq

inductive Op
  /-- A line with the local variable in it. -/
  | printf (line : ℤ → Line)
  | setspecific (value : ℤ)
  | getspecific

structure Demo (k : ℕ) where
  body : Fin k → List Op
  result : Fin k → ℤ
  /-- `main` looks at what `pthread_create` returns. -/
  checked : Bool
  /-- `main` prints what a thread returned. -/
  report : Bool

variable {k : ℕ}

/-- `simple_thread`, with `k` in place of 3. -/
def simpleThreads (k : ℕ) : Demo k where
  body i := [.printf fun _ => .started i, .printf fun _ => .finished i]
  result i := i * 2
  checked := true
  report := true

/-- `tls_thread`, with `k` in place of 3. -/
def tlsThreads (k : ℕ) : Demo k where
  body i := [.setspecific (i * 100), .getspecific, .printf fun value => .tlsValue i value]
  result _ := 0
  checked := false
  report := false

def tlsDestructor (value : ℤ) : Line := .freeing value

inductive Thread
  | absent
  /-- Its `pthread_create` failed, unnoticed. -/
  | missing
  /-- With the local variable and the value under the key. -/
  | running (ops : List Op) (value slot : ℤ)
  | exited (result : ℤ)

inductive Main
  | create (i : ℕ)
  | join (i : ℕ)
  | done
  | failed
  /-- In a `pthread_join` of a `pthread_t` that was not initialised. -/
  | undefined
  deriving DecidableEq

/-- Each line with the thread that printed it, where `none` is `main`. -/
structure State (k : ℕ) where
  main : Main
  thread : Fin k → Thread
  out : List (Option (Fin k) × Line)

namespace State

def setMain (s : State k) (main : Main) : State k := { s with main }

def setThread (s : State k) (i : Fin k) (r : Thread) : State k :=
  { s with thread := Function.update s.thread i r }

def print (s : State k) (who : Option (Fin k)) (lines : List Line) : State k :=
  { s with out := s.out ++ lines.map fun l => (who, l) }

end State

variable (d : Demo k)

def Demo.joined (i : Fin k) : List Line :=
  if d.report then [.returned i (d.result i)] else []

/-- A destructor runs when a thread exits with a value under the key, which is cleared first. -/
inductive Step : State k → Option (Fin k) → State k → Prop
  | create {s : State k} {i : ℕ} (h : s.main = .create i) (hi : i < k) :
      Step s none ((s.setThread ⟨i, hi⟩ (.running (d.body ⟨i, hi⟩) 0 0)).setMain (.create (i + 1)))
  | createFails {s : State k} {i : ℕ} (h : s.main = .create i) (hi : i < k)
      (hc : d.checked = true) : Step s none ((s.print none [.createFailed]).setMain .failed)
  | createMisses {s : State k} {i : ℕ} (h : s.main = .create i) (hi : i < k)
      (hc : d.checked = false) :
      Step s none ((s.setThread ⟨i, hi⟩ .missing).setMain (.create (i + 1)))
  | created {s : State k} {i : ℕ} (h : s.main = .create i) (hi : ¬ i < k) :
      Step s none (s.setMain (.join 0))
  | join {s : State k} {i : ℕ} {r : ℤ} (h : s.main = .join i) (hi : i < k)
      (hr : s.thread ⟨i, hi⟩ = .exited r) :
      Step s none ((s.print none (if d.report then [.returned i r] else [])).setMain
        (.join (i + 1)))
  | joinMissing {s : State k} {i : ℕ} (h : s.main = .join i) (hi : i < k)
      (hr : s.thread ⟨i, hi⟩ = .missing) : Step s none (s.setMain .undefined)
  | joined {s : State k} {i : ℕ} (h : s.main = .join i) (hi : ¬ i < k) :
      Step s none (s.setMain .done)
  | printf {s : State k} {i : Fin k} {line : ℤ → Line} {ops : List Op} {value slot : ℤ}
      (h : s.thread i = .running (.printf line :: ops) value slot) :
      Step s (some i) ((s.print (some i) [line value]).setThread i (.running ops value slot))
  | setspecific {s : State k} {i : Fin k} {v : ℤ} {ops : List Op} {value slot : ℤ}
      (h : s.thread i = .running (.setspecific v :: ops) value slot) :
      Step s (some i) (s.setThread i (.running ops value v))
  | getspecific {s : State k} {i : Fin k} {ops : List Op} {value slot : ℤ}
      (h : s.thread i = .running (.getspecific :: ops) value slot) :
      Step s (some i) (s.setThread i (.running ops slot slot))
  | destructor {s : State k} {i : Fin k} {value slot : ℤ} (h : s.thread i = .running [] value slot)
      (hslot : slot ≠ 0) :
      Step s (some i) ((s.print (some i) [tlsDestructor slot]).setThread i (.running [] value 0))
  | exit {s : State k} {i : Fin k} {value : ℤ} (h : s.thread i = .running [] value 0) :
      Step s (some i) (s.setThread i (.exited (d.result i)))

def start : State k := ⟨.create 0, fun _ => .absent, []⟩

def system : LTS (State k) (Option (Fin k)) where
  initial s := s = start
  step := Step d

/-! ### What is printed -/

def linesOf (who : Option (Fin k)) (out : List (Option (Fin k) × Line)) : List Line :=
  (out.filter fun e => e.1 = who).map (·.2)

/-- What a thread still prints, with its variable and the value under its key. -/
def script : List Op → ℤ → ℤ → List Line
  | .printf line :: ops, value, slot => line value :: script ops value slot
  | .setspecific v :: ops, value, _ => script ops value v
  | .getspecific :: ops, _, slot => script ops slot slot
  | [], _, slot => if slot = 0 then [] else [tlsDestructor slot]

def Thread.rest (i : Fin k) : Thread → List Line
  | absent | missing => script (d.body i) 0 0
  | running ops value slot => script ops value slot
  | exited _ => []

/-- How many threads have been joined. -/
def Main.past (k : ℕ) : Main → ℕ
  | create _ | failed | undefined => 0
  | join i => i
  | done => k

/-- What `main` prints about the first `n` threads. -/
def Demo.reports (n : ℕ) : List Line := ((List.finRange k).take n).flatMap d.joined

structure Sound (s : State k) : Prop where
  written : ∀ i, linesOf (some i) s.out ++ (s.thread i).rest d i = script (d.body i) 0 0
  result : ∀ i r, s.thread i = .exited r → r = d.result i
  fresh : ∀ n i, s.main = .create n → n ≤ i.val → s.thread i = .absent
  absent : ∀ i, s.thread i = .absent → s.main = .failed ∨ ∃ n, s.main = .create n ∧ n ≤ i.val
  exited : ∀ i : Fin k, i.val < s.main.past k → ∃ r, s.thread i = .exited r
  missing : ∀ i, s.thread i = .missing → d.checked = false
  failed : s.main = .failed → d.checked = true
  undefined : s.main = .undefined → ∃ i, s.thread i = .missing
  said : s.main ≠ .failed → s.main ≠ .undefined → linesOf none s.out = d.reports (s.main.past k)
  before : ∀ pre post t r, s.out = pre ++ (none, .returned t r) :: post → ∃ i : Fin k,
    i.val = t ∧ r = d.result i ∧ linesOf (some i) pre = script (d.body i) 0 0 ∧
      linesOf none pre = d.reports t

variable {d} {s t : State k} {who other : Option (Fin k)} {lines : List Line} {i j : Fin k}
  {out : List (Option (Fin k) × Line)} {r r' : Thread}

@[simp] theorem print_nil : s.print who [] = s := by simp [State.print]

theorem setThread_cases (h : (s.setThread i r).thread j = r') :
    (j = i ∧ r = r') ∨ (j ≠ i ∧ s.thread j = r') := by
  change Function.update s.thread i r j = r' at h
  by_cases hj : j = i
  · subst hj
    rw [Function.update_self] at h
    exact .inl ⟨rfl, h⟩
  · rw [Function.update_of_ne hj] at h
    exact .inr ⟨hj, h⟩

theorem setThread_ne (h : j ≠ i) : (s.setThread i r).thread j = s.thread j :=
  Function.update_of_ne h ..

theorem linesOf_append_self :
    linesOf who (out ++ lines.map fun l => (who, l)) = linesOf who out ++ lines := by
  simp [linesOf, List.filter_map, Function.comp_def]

theorem linesOf_append_ne (h : who ≠ other) :
    linesOf other (out ++ lines.map fun l => (who, l)) = linesOf other out := by
  simp [linesOf, List.filter_map, Function.comp_def, h]

theorem reports_succ : d.reports (i.val + 1) = d.reports i.val ++ d.joined i := by
  have hlen : i.val < (List.finRange k).length := by simp
  rw [Demo.reports, List.take_succ_eq_append_getElem hlen, List.flatMap_append]
  simp [Demo.reports]

theorem reports_of_le {n : ℕ} (h : k ≤ n) : d.reports n = d.reports k := by
  rw [Demo.reports, List.take_of_length_le (by simpa using h), Demo.reports,
    List.take_of_length_le (by simp)]

/-- A line of `main` is found among the old lines or is one of the new ones. -/
theorem split_print {pre post : List (Option (Fin k) × Line)} {e : Option (Fin k) × Line}
    (h : (s.print who lines).out = pre ++ e :: post) :
    (∃ post', s.out = pre ++ e :: post') ∨
      ∃ pre' post', pre = s.out ++ pre'.map (fun l => (who, l)) ∧ e.1 = who ∧
        lines = pre' ++ e.2 :: post' := by
  rcases List.append_eq_append_iff.mp h with ⟨as, hpre, hnew⟩ | ⟨bs, hout, hpost⟩
  · right
    obtain ⟨pre', rest, hlines, has, hrest⟩ := List.map_eq_append_iff.mp hnew
    obtain ⟨l, post', hrest', he, -⟩ := List.map_eq_cons_iff.mp hrest
    subst he
    exact ⟨pre', post', has ▸ hpre, rfl, hrest' ▸ hlines⟩
  · rcases bs with _ | ⟨b, bs⟩
    · right
      obtain ⟨l, post', hlines, he, -⟩ := List.map_eq_cons_iff.mp hpost.symm
      subst he
      exact ⟨[], post', by simpa using hout.symm, rfl, hlines⟩
    · left
      obtain ⟨rfl, -⟩ := List.cons.inj hpost
      exact ⟨bs, hout⟩

/-! ### Invariant -/

theorem sound_start : Sound d start where
  written _ := rfl
  result := nofun
  fresh _ _ _ _ := rfl
  absent _ _ := .inr ⟨0, rfl, Nat.zero_le _⟩
  exited := nofun
  missing := nofun
  failed := nofun
  undefined := nofun
  said _ _ := rfl
  before pre post t r h := by simp [start] at h

/-- A step of a thread that runs, to where it runs or has exited. -/
theorem Sound.move {ops : List Op} {value slot : ℤ} (hs : Sound d s)
    (h : s.thread i = .running ops value slot)
    (hrest : script ops value slot = lines ++ r.rest d i) (hr : r ≠ .absent ∧ r ≠ .missing)
    (hresult : ∀ v, r = .exited v → v = d.result i) :
    Sound d ((s.print (some i) lines).setThread i r) where
  written := by
    intro j
    change linesOf (some j) (s.out ++ _) ++ (Function.update s.thread i r j).rest d j = _
    by_cases hj : j = i
    · subst hj
      have hold := hs.written j
      rw [h] at hold
      rw [linesOf_append_self, Function.update_self, List.append_assoc, ← hrest]
      exact hold
    · rw [linesOf_append_ne (by simpa using Ne.symm hj), Function.update_of_ne hj]
      exact hs.written j
  result := by
    intro j v hj
    rcases setThread_cases hj with ⟨rfl, hr⟩ | ⟨-, hold⟩
    · exact hresult v hr
    · exact hs.result j v hold
  fresh := by
    intro n j hn hj
    have hold := hs.fresh n j hn hj
    have hji : j ≠ i := by
      rintro rfl
      simp [h] at hold
    exact (setThread_ne hji).trans hold
  absent := by
    intro j hj
    rcases setThread_cases hj with ⟨-, habsent⟩ | ⟨-, hold⟩
    · exact (hr.1 habsent).elim
    · exact hs.absent j hold
  exited := by
    intro j hj
    obtain ⟨v, hv⟩ := hs.exited j hj
    have hji : j ≠ i := by
      rintro rfl
      simp [h] at hv
    exact ⟨v, (setThread_ne hji).trans hv⟩
  missing := by
    intro j hj
    rcases setThread_cases hj with ⟨-, hmissing⟩ | ⟨-, hold⟩
    · exact (hr.2 hmissing).elim
    · exact hs.missing j hold
  failed := hs.failed
  undefined := by
    intro hm
    obtain ⟨j, hj⟩ := hs.undefined hm
    have hji : j ≠ i := by
      rintro rfl
      simp [h] at hj
    exact ⟨j, (setThread_ne hji).trans hj⟩
  said := by
    intro hm hu
    exact (linesOf_append_ne (by simp)).trans (hs.said hm hu)
  before := by
    intro pre post t v hout
    rcases split_print hout with ⟨post', hold⟩ | ⟨-, -, -, hwho, -⟩
    · exact hs.before pre post' t v hold
    · cases hwho

theorem Sound.move_silent {ops : List Op} {value slot : ℤ} (hs : Sound d s)
    (h : s.thread i = .running ops value slot) (hrest : script ops value slot = r.rest d i)
    (hr : r ≠ .absent ∧ r ≠ .missing) (hresult : ∀ v, r = .exited v → v = d.result i) :
    Sound d (s.setThread i r) := by
  have hsilent : script ops value slot = [] ++ r.rest d i := hrest
  have hmove := hs.move h hsilent hr hresult
  rwa [print_nil] at hmove

/-- `main` goes on to the next `pthread_create`, whether there is a thread now or not. -/
theorem Sound.create {n : ℕ} (hs : Sound d s) (h : s.main = .create n) (hn : n < k)
    (hrest : r.rest d ⟨n, hn⟩ = script (d.body ⟨n, hn⟩) 0 0) (hr : r ≠ .absent)
    (hresult : ∀ v, r ≠ .exited v) (hmissing : r = .missing → d.checked = false) :
    Sound d ((s.setThread ⟨n, hn⟩ r).setMain (.create (n + 1))) where
  written := by
    intro j
    change linesOf (some j) s.out ++ (Function.update s.thread _ _ j).rest d j = _
    have hold := hs.written j
    by_cases hj : j = ⟨n, hn⟩
    · subst hj
      rw [hs.fresh n _ h (Nat.le_refl _)] at hold
      rw [Function.update_self, hrest]
      exact hold
    · rwa [Function.update_of_ne hj]
  result := by
    intro j v hj
    rcases setThread_cases (s := s) hj with ⟨-, hexited⟩ | ⟨-, hold⟩
    · exact (hresult v hexited).elim
    · exact hs.result j v hold
  fresh := by
    rintro _ j ⟨⟩ hj
    have hji : j ≠ ⟨n, hn⟩ := by
      rintro rfl
      exact Nat.not_succ_le_self n hj
    exact (setThread_ne hji).trans (hs.fresh n j h (by omega))
  absent := by
    intro j hj
    rcases setThread_cases (s := s) hj with ⟨-, habsent⟩ | ⟨hji, hold⟩
    · exact (hr habsent).elim
    · rcases hs.absent j hold with hf | ⟨m, hm, hle⟩
      · simp [h] at hf
      · rw [h] at hm
        cases hm
        have hne : j.val ≠ n := fun heq => hji (Fin.ext heq)
        exact .inr ⟨n + 1, rfl, by omega⟩
  exited := nofun
  missing := by
    intro j hj
    rcases setThread_cases (s := s) hj with ⟨-, hnew⟩ | ⟨-, hold⟩
    · exact hmissing hnew
    · exact hs.missing j hold
  failed := nofun
  undefined := nofun
  said := by
    intro _ _
    have hold := hs.said (by simp [h]) (by simp [h])
    rwa [h] at hold
  before := hs.before

theorem Sound.createFails (hs : Sound d s) (hc : d.checked = true) :
    Sound d ((s.print none [.createFailed]).setMain .failed) where
  written := by
    intro j
    change linesOf (some j) (s.out ++ _) ++ _ = _
    rw [linesOf_append_ne (by simp)]
    exact hs.written j
  result := hs.result
  fresh := nofun
  absent _ _ := .inl rfl
  exited := nofun
  missing := hs.missing
  failed _ := hc
  undefined := nofun
  said hm := (hm rfl).elim
  before := by
    intro pre post t v hout
    rcases split_print hout with ⟨post', hold⟩ | ⟨pre', post', -, -, hlines⟩
    · exact hs.before pre post' t v hold
    · rcases List.cons_eq_append_iff.mp hlines with ⟨-, heq⟩ | ⟨as, -, heq⟩
      · cases heq
      · simp at heq

theorem Sound.created {n : ℕ} (hs : Sound d s) (h : s.main = .create n) (hn : ¬ n < k) :
    Sound d (s.setMain (.join 0)) where
  written := hs.written
  result := hs.result
  fresh := nofun
  absent := by
    intro j hj
    rcases hs.absent j hj with hf | ⟨m, hm, hle⟩
    · simp [h] at hf
    · rw [h] at hm
      cases hm
      have hlt := j.isLt
      omega
  exited := nofun
  missing := hs.missing
  failed := nofun
  undefined := nofun
  said := by
    intro _ _
    have hold := hs.said (by simp [h]) (by simp [h])
    rwa [h] at hold
  before := hs.before

/-- Once `main` is past its loop every thread has been created, or its create has failed. -/
theorem Sound.ne_absent (hs : Sound d s) (hf : s.main ≠ .failed) (hc : ∀ n, s.main ≠ .create n)
    (i : Fin k) : s.thread i ≠ .absent := by
  intro habsent
  rcases hs.absent i habsent with hfailed | ⟨n, hn, -⟩
  · exact hf hfailed
  · exact hc n hn

theorem Sound.join {n : ℕ} {r : ℤ} (hs : Sound d s) (h : s.main = .join n) (hn : n < k)
    (hr : s.thread ⟨n, hn⟩ = .exited r) : Sound d
      ((s.print none (if d.report then [.returned n r] else [])).setMain (.join (n + 1))) := by
  have hresult := hs.result _ _ hr
  have hsaid := hs.said (by simp [h]) (by simp [h])
  rw [h] at hsaid
  refine ⟨?_, hs.result, nofun, ?_, ?_, hs.missing, nofun, nofun, ?_, ?_⟩
  · intro j
    change linesOf (some j) (s.out ++ _) ++ _ = _
    rw [linesOf_append_ne (by simp)]
    exact hs.written j
  · intro j hj
    exact (hs.ne_absent (by simp [h]) (by simp [h]) j hj).elim
  · intro j hj
    rcases Nat.lt_or_eq_of_le (Nat.le_of_lt_succ hj) with hlt | heq
    · exact hs.exited j (h ▸ hlt)
    · obtain rfl : j = ⟨n, hn⟩ := Fin.ext heq
      exact ⟨r, hr⟩
  · intro _ _
    change linesOf none (s.out ++ _) = _
    rw [linesOf_append_self, hsaid, hresult]
    exact (reports_succ (i := ⟨n, hn⟩)).symm
  · intro pre post t v hout
    rcases split_print hout with ⟨post', hold⟩ | ⟨pre', post', hpre, -, hlines⟩
    · exact hs.before pre post' t v hold
    · cases hrep : d.report with
      | false => simp [hrep] at hlines
      | true =>
        rw [hrep, if_pos rfl] at hlines
        rcases List.cons_eq_append_iff.mp hlines with ⟨rfl, heq⟩ | ⟨as, -, heq⟩
        · cases heq
          have hwritten := hs.written ⟨n, hn⟩
          rw [hr] at hwritten
          obtain rfl : pre = s.out := by simpa using hpre
          exact ⟨⟨n, hn⟩, rfl, hresult, by simpa [Thread.rest] using hwritten, hsaid⟩
        · simp at heq

theorem Sound.joinMissing {n : ℕ} (hs : Sound d s) (h : s.main = .join n)
    (hr : s.thread i = .missing) : Sound d (s.setMain .undefined) where
  written := hs.written
  result := hs.result
  fresh := nofun
  absent j hj := (hs.ne_absent (by simp [h]) (by simp [h]) j hj).elim
  exited := nofun
  missing := hs.missing
  failed := nofun
  undefined _ := ⟨i, hr⟩
  said _ hu := (hu rfl).elim
  before := hs.before

theorem Sound.joined {n : ℕ} (hs : Sound d s) (h : s.main = .join n) (hn : ¬ n < k) :
    Sound d (s.setMain .done) where
  written := hs.written
  result := hs.result
  fresh := nofun
  absent j hj := (hs.ne_absent (by simp [h]) (by simp [h]) j hj).elim
  exited := by
    intro j hj
    apply hs.exited j
    rw [h]
    exact Nat.lt_of_lt_of_le hj (Nat.le_of_not_lt hn)
  missing := hs.missing
  failed := nofun
  undefined := nofun
  said := by
    intro _ _
    have hold := hs.said (by simp [h]) (by simp [h])
    rw [h] at hold
    exact hold.trans (reports_of_le (Nat.le_of_not_lt hn))
  before := hs.before

theorem sound_step (h : Step d s who t) (hs : Sound d s) : Sound d t := by
  cases h with
  | create h hi => exact hs.create h hi rfl nofun nofun nofun
  | createFails _ _ hc => exact hs.createFails hc
  | createMisses h hi hc => exact hs.create h hi rfl nofun nofun fun _ => hc
  | created h hi => exact hs.created h hi
  | join h hi hr => exact hs.join h hi hr
  | joinMissing h hi hr => exact hs.joinMissing h hr
  | joined h hi => exact hs.joined h hi
  | printf h => exact hs.move h rfl ⟨nofun, nofun⟩ nofun
  | setspecific h | getspecific h => exact hs.move_silent h rfl ⟨nofun, nofun⟩ nofun
  | destructor h hslot =>
    exact hs.move h (by simp [script, hslot, Thread.rest]) ⟨nofun, nofun⟩ nofun
  | exit h =>
    refine hs.move_silent h rfl ⟨nofun, nofun⟩ ?_
    rintro _ ⟨⟩
    rfl

theorem sound_reachable (h : (system d).Reachable s) : Sound d s := by
  apply h.invariant
  · rintro _ rfl
    exact sound_start
  · intro s a t hst hs
    exact sound_step hst hs

/-! ### The two demos -/

/-- When `main` prints what a thread returned, that thread has printed both of its lines and
`main` the lines about all threads before it. In the end there is a line about every thread. -/
theorem returned_after_output (h : (system (simpleThreads k)).Reachable s) :
    (∀ pre post t (r : ℤ), s.out = pre ++ (none, .returned t r) :: post → ∃ i : Fin k, i.val = t ∧
      r = (i : ℤ) * 2 ∧ linesOf (some i) pre = [.started i, .finished i] ∧
      linesOf none pre = ((List.finRange k).take t).map fun j => .returned j (j * 2)) ∧
    (s.main = .done →
      linesOf none s.out = (List.finRange k).map fun j => .returned j (j * 2)) := by
  have hs := sound_reachable h
  have hreports : ∀ n, (simpleThreads k).reports n =
      ((List.finRange k).take n).map fun j => .returned j (j * 2) := by
    intro n
    rw [Demo.reports, List.map_eq_flatMap]
    rfl
  refine ⟨?_, ?_⟩
  · intro pre post t r hout
    obtain ⟨i, hi, hr, hlines, hmain⟩ := hs.before pre post t r hout
    exact ⟨i, hi, hr, hlines, hmain.trans (hreports t)⟩
  · intro hdone
    have hsaid := hs.said (by simp [hdone]) (by simp [hdone])
    rw [hsaid, hdone, hreports, Main.past, List.take_of_length_le (by simp)]

/-- The first of two threads is joined while the second is still between its lines. -/
theorem returned_after_output_early : ∃ s, (system (simpleThreads 2)).Reachable s ∧
    s.out = [(some 1, .started 1), (some 0, .started 0), (some 0, .finished 0),
      (none, .returned 0 0)] ∧
    ∀ pre post t (r : ℤ), s.out = pre ++ (none, .returned t r) :: post → ∃ i : Fin 2, i.val = t ∧
      r = (i : ℤ) * 2 ∧ linesOf (some i) pre = [.started i, .finished i] ∧
      linesOf none pre = ((List.finRange 2).take t).map fun j => .returned j (j * 2) := by
  have h0 : (system (simpleThreads 2)).Reachable start := .of_initial rfl
  have h1 := h0.step (.create rfl (by decide))
  have h2 := h1.step (.create rfl (by decide))
  have h3 := h2.step (.created rfl (by decide))
  have h4 := h3.step (.printf (i := 1) rfl)
  have h5 := h4.step (.printf (i := 0) rfl)
  have h6 := h5.step (.printf (i := 0) rfl)
  have h7 := h6.step (.exit (i := 0) rfl)
  have h8 := h7.step (.join rfl (by decide) rfl)
  exact ⟨_, h8, by decide, (returned_after_output h8).1⟩

/-- The lines of thread `i`: the destructor does not run for a NULL. -/
def tlsLines (i : Fin k) : List Line :=
  .tlsValue i (i * 100) :: if i.val = 0 then [] else [.freeing (i * 100)]

/-- Every thread reads back its own value, whatever the others set in between, and by the time
the key is deleted each value but the NULL of the first thread has been freed once. -/
theorem freed_before_key_delete (h : (system (tlsThreads k)).Reachable s) (i : Fin k) :
    linesOf (some i) s.out <+: tlsLines i ∧
      (s.main = .done → linesOf (some i) s.out = tlsLines i) := by
  have hs := sound_reachable h
  have hscript : script ((tlsThreads k).body i) 0 0 = tlsLines i := by
    by_cases hi : i.val = 0 <;> simp [script, tlsThreads, tlsLines, tlsDestructor, hi]
  have hwritten := hs.written i
  rw [hscript] at hwritten
  refine ⟨⟨_, hwritten⟩, ?_⟩
  intro hdone
  obtain ⟨r, hr⟩ := hs.exited i (by rw [hdone]; exact i.isLt)
  rwa [hr, Thread.rest, List.append_nil] at hwritten

/-- A run with two threads. The value of the first is NULL, that of the second is freed. -/
theorem freed_before_key_delete_two : ∃ s, (system (tlsThreads 2)).Reachable s ∧
    s.main = .done ∧ linesOf (some 0) s.out = [.tlsValue 0 0] ∧
    linesOf (some 1) s.out = [.tlsValue 1 100, .freeing 100] := by
  have h0 : (system (tlsThreads 2)).Reachable start := .of_initial rfl
  have h1 := h0.step (.create rfl (by decide))
  have h2 := h1.step (.create rfl (by decide))
  have h3 := h2.step (.setspecific (i := 1) rfl)
  have h4 := h3.step (.setspecific (i := 0) rfl)
  have h5 := h4.step (.getspecific (i := 1) rfl)
  have h6 := h5.step (.printf (i := 1) rfl)
  have h7 := h6.step (.destructor (i := 1) rfl (by decide))
  have h8 := h7.step (.exit (i := 1) rfl)
  have h9 := h8.step (.getspecific (i := 0) rfl)
  have h10 := h9.step (.printf (i := 0) rfl)
  have h11 := h10.step (.exit (i := 0) rfl)
  have h12 := h11.step (.created rfl (by decide))
  have h13 := h12.step (.join rfl (by decide) rfl)
  have h14 := h13.step (.join rfl (by decide) rfl)
  have h15 := h14.step (.joined rfl (by decide))
  exact ⟨_, h15, rfl, (freed_before_key_delete h15 0).2 rfl, (freed_before_key_delete h15 1).2 rfl⟩

/-! ### The end -/

def Main.toDo (k : ℕ) : Main → ℕ
  | create i => k - i + k + 2
  | join i => k - i + 1
  | done | failed | undefined => 0

variable (d) in
def Thread.toDo (i : Fin k) : Thread → ℕ
  | absent => 2 * (d.body i).length + 2
  | running ops _ slot => 2 * ops.length + (if slot = 0 then 0 else 1) + 1
  | missing | exited _ => 0

variable (d) in
def measure (s : State k) : ℕ :=
  s.main.toDo k + ∑ i, (s.thread i).toDo d i

theorem sum_setThread {r : Thread} :
    ∑ j, ((s.setThread i r).thread j).toDo d j + (s.thread i).toDo d i =
      ∑ j, (s.thread j).toDo d j + r.toDo d i := by
  have hsum := sum_update id (fun j => (s.thread j).toDo d j) i (r.toDo d i)
  have happly : ∀ j, ((s.setThread i r).thread j).toDo d j =
      Function.update (fun j => (s.thread j).toDo d j) i (r.toDo d i) j :=
    Function.apply_update (fun j => Thread.toDo d j) s.thread i r
  simp only [happly]
  exact hsum

theorem measure_setThread {r : Thread} (h : r.toDo d i < (s.thread i).toDo d i) :
    measure d (s.setThread i r) < measure d s := by
  have hsum := sum_setThread (d := d) (s := s) (i := i) (r := r)
  change s.main.toDo k + _ < s.main.toDo k + _
  omega

theorem measure_lt (hs : Sound d s) (h : Step d s who t) : measure d t < measure d s := by
  cases h with
  | create h hi =>
    have hsum := sum_setThread (d := d) (s := s) (i := ⟨_, hi⟩)
      (r := .running (d.body ⟨_, hi⟩) 0 0)
    rw [hs.fresh _ _ h (Nat.le_refl _)] at hsum
    simp only [measure, State.setMain, h, Main.toDo, Thread.toDo, if_pos] at hsum ⊢
    omega
  | createMisses h hi =>
    have hsum := sum_setThread (d := d) (s := s) (i := ⟨_, hi⟩) (r := .missing)
    rw [hs.fresh _ _ h (Nat.le_refl _)] at hsum
    simp only [measure, State.setMain, h, Main.toDo, Thread.toDo] at hsum ⊢
    omega
  | createFails h hi | created h hi | join h hi | joinMissing h hi | joined h hi =>
    simp only [measure, State.setMain, State.print, h, Main.toDo]
    omega
  | printf h | getspecific h =>
    apply measure_setThread
    simp only [State.print, h, Thread.toDo, List.length_cons]
    split <;> omega
  | setspecific h =>
    apply measure_setThread
    rw [h]
    simp only [Thread.toDo, List.length_cons]
    split <;> split <;> omega
  | destructor h hslot =>
    apply measure_setThread
    simp [State.print, h, Thread.toDo, hslot]
  | exit h =>
    apply measure_setThread
    simp [h, Thread.toDo]

/-- A thread that has not exited can go on. -/
theorem exists_step {ops : List Op} {value slot : ℤ} (h : s.thread i = .running ops value slot) :
    ∃ t, Step d s (some i) t := by
  rcases ops with _ | ⟨op, ops⟩
  · by_cases hslot : slot = 0
    · subst hslot
      exact ⟨_, .exit h⟩
    · exact ⟨_, .destructor h hslot⟩
  · cases op with
    | printf line => exact ⟨_, .printf h⟩
    | setspecific v => exact ⟨_, .setspecific h⟩
    | getspecific => exact ⟨_, .getspecific h⟩

/-- In whatever order they run, `main` gets through its joins, or has given up at a create that
failed, or is in the join of a thread whose create failed unnoticed. Every thread that was created
has returned. -/
theorem all_demo_runs_end (d : Demo k) : (system d).Ends fun s =>
    (s.main = .done ∧ ∀ i, s.thread i = .exited (d.result i)) ∨
      (s.main = .failed ∧ d.checked = true ∧
        ∀ i, s.thread i = .absent ∨ s.thread i = .exited (d.result i)) ∨
      (s.main = .undefined ∧ d.checked = false ∧ (∃ i, s.thread i = .missing) ∧
        ∀ i, s.thread i = .missing ∨ s.thread i = .exited (d.result i)) := by
  refine .of_measure (μ := measure d) (n := measure d start) ?_ ?_ ?_
  · rintro _ rfl
    exact Nat.le_refl _
  · intro s a t hr hst
    exact measure_lt (sound_reachable hr) hst
  · intro s hr hterm
    have hs := sound_reachable hr
    have hrest : ∀ i, s.thread i = .absent ∨ s.thread i = .missing ∨
        s.thread i = .exited (d.result i) := by
      intro i
      cases hi : s.thread i with
      | absent => exact .inl rfl
      | missing => exact .inr (.inl rfl)
      | running ops value slot =>
        obtain ⟨t, hstep⟩ := exists_step (d := d) hi
        exact (hterm _ _ hstep).elim
      | exited r => exact .inr (.inr (hs.result i r hi ▸ rfl))
    cases hm : s.main with
    | create n =>
      by_cases hn : n < k
      · exact (hterm _ _ (.create hm hn)).elim
      · exact (hterm _ _ (.created hm hn)).elim
    | join n =>
      by_cases hn : n < k
      · rcases hrest ⟨n, hn⟩ with habsent | hmissing | hexited
        · exact (hs.ne_absent (by simp [hm]) (by simp [hm]) _ habsent).elim
        · exact (hterm _ _ (.joinMissing hm hn hmissing)).elim
        · exact (hterm _ _ (.join hm hn hexited)).elim
      · exact (hterm _ _ (.joined hm hn)).elim
    | done =>
      left
      refine ⟨rfl, ?_⟩
      intro i
      obtain ⟨r, hr⟩ := hs.exited i (by rw [hm]; exact i.isLt)
      rw [hr, hs.result i r hr]
    | failed =>
      right; left
      have hchecked := hs.failed hm
      refine ⟨rfl, hchecked, ?_⟩
      intro i
      rcases hrest i with habsent | hmissing | hexited
      · exact .inl habsent
      · simp [hs.missing i hmissing] at hchecked
      · exact .inr hexited
    | undefined =>
      right; right
      obtain ⟨i, hi⟩ := hs.undefined hm
      refine ⟨rfl, hs.missing i hi, ⟨i, hi⟩, ?_⟩
      intro j
      rcases hrest j with habsent | hexited
      · exact (hs.ne_absent (by simp [hm]) (by simp [hm]) j habsent).elim
      · exact hexited

end SystemCalls.ThreadsDemo.Join

import SystemCalls.Transition
import SystemCalls.WriteLoops

/-!
# The echo server program

`main` of 6.2.6 from its first `accept` on: one connection after the other, and on each the loop
around `read` with the loop around `write` in it. Connections are numbered as they are accepted.
-/

namespace SystemCalls.EchoProgram

open Socket WriteLoops

abbrev BUF_SZ : ℕ := 4096

inductive PC
  | accept
  | read (conn : ℕ)
  /-- At `write(conn, buf + off, n - off)`, with the `n` bytes of `chunk` in `buf`. -/
  | write (conn : ℕ) (chunk : List UInt8) (off : ℕ)
  | close (conn : ℕ)
  | exited

namespace PC

/-- `while (off < n)`, with `read` after it. -/
def whileOff (conn : ℕ) (chunk : List UInt8) (off : ℕ) : PC :=
  if off < chunk.length then .write conn chunk off else .read conn

/-- What is in `buf` and is still to be written to a connection. -/
def pending : PC → ℕ → List UInt8
  | write conn chunk off, i => if i = conn then chunk.drop off else []
  | _, _ => []

end PC

structure Conn where
  got : List UInt8
  sent : List UInt8
  /-- A `write` has failed for another reason than an interruption. -/
  failed : Bool

structure State where
  pc : PC
  accepted : ℕ
  conn : ℕ → Conn

def State.set (s : State) (pc : PC) (i : ℕ) (c : Conn) : State :=
  { s with pc, conn := Function.update s.conn i c }

inductive Event
  | accept (r : Except Errno Unit)
  | read (r : Recv BUF_SZ)
  | write (a : Answer)
  /-- SIGPIPE of a `write`. -/
  | killed
  | close

inductive Step : State → Event → State → Prop
  | accept {s : State} (h : s.pc = .accept) :
      Step s (.accept (.ok ())) { s with pc := .read s.accepted, accepted := s.accepted + 1 }
  | acceptInterrupted {s : State} (h : s.pc = .accept) : Step s (.accept (.error .eintr)) s
  | acceptFails {s : State} {e : Errno} (h : s.pc = .accept) (he : e ≠ .eintr) :
      Step s (.accept (.error e)) { s with pc := .exited }
  | data {s : State} {i : ℕ} {c : Chunk BUF_SZ} (h : s.pc = .read i) :
      Step s (.read (.data c))
        (s.set (.whileOff i c.bytes 0) i { s.conn i with got := (s.conn i).got ++ c.bytes })
  | eof {s : State} {i : ℕ} (h : s.pc = .read i) :
      Step s (.read .eof) { s with pc := .close i }
  | readInterrupted {s : State} {i : ℕ} (h : s.pc = .read i) : Step s (.read (.error .eintr)) s
  | readFails {s : State} {i : ℕ} {e : Errno} (h : s.pc = .read i) (he : e ≠ .eintr) :
      Step s (.read (.error e)) { s with pc := .close i }
  | write {s : State} {i off n : ℕ} {chunk : List UInt8} (h : s.pc = .write i chunk off)
      (hn : Answer.Fits (chunk.length - off) (.count n)) :
      Step s (.write (.count n))
        (s.set (.whileOff i chunk (off + n)) i
          { s.conn i with sent := (s.conn i).sent ++ (chunk.drop off).take n })
  | writeInterrupted {s : State} {i off : ℕ} {chunk : List UInt8} (h : s.pc = .write i chunk off) :
      Step s (.write (.error .eintr)) s
  -- `off = n` and `break` leave the inner loop only, and `read` is next.
  | writeFails {s : State} {i off : ℕ} {e : Errno} {chunk : List UInt8}
      (h : s.pc = .write i chunk off) (he : e ≠ .eintr) :
      Step s (.write (.error e)) (s.set (.read i) i { s.conn i with failed := true })
  | killed {s : State} {i off : ℕ} {chunk : List UInt8} (h : s.pc = .write i chunk off) :
      Step s .killed { s with pc := .exited }
  | close {s : State} {i : ℕ} (h : s.pc = .close i) : Step s .close { s with pc := .accept }

def start : State := ⟨.accept, 0, fun _ => ⟨[], [], false⟩⟩

def system : LTS State Event where
  initial s := s = start
  step := Step

/-- A connection on which a `write` has failed takes no more bytes. -/
def NothingAfterFailure (s : State) (e : Event) : Prop :=
  ∀ i chunk off n, s.pc = .write i chunk off → e = .write (.count n) →
    (s.conn i).failed = true → n = 0

/-- Every connection gets what was read from it, in order. -/
def Echoes (s : State) : Prop :=
  ∀ i, (s.conn i).sent <+: (s.conn i).got

variable {s t : State} {e : Event} {pc : PC} {c : Conn} {i : ℕ}

/-- What has not been sent is in `buf`, unless a `write` has failed. -/
structure Intact (s : State) : Prop where
  echoes : Echoes s
  pending : s.pc ≠ .exited → ∀ i, (s.conn i).failed = false →
    (s.conn i).sent ++ s.pc.pending i = (s.conn i).got

@[simp] theorem conn_set_self : (s.set pc i c).conn i = c := by
  simp [State.set]

theorem conn_set_of_ne {j : ℕ} (h : j ≠ i) : (s.set pc i c).conn j = s.conn j := by
  simp [State.set, h]

theorem pending_whileOff {chunk : List UInt8} {off : ℕ} :
    (PC.whileOff i chunk off).pending i = chunk.drop off := by
  unfold PC.whileOff
  split
  next => simp [PC.pending]
  next h => simpa [PC.pending] using Nat.le_of_not_lt h

theorem pending_whileOff_of_ne {chunk : List UInt8} {off j : ℕ} (h : j ≠ i) :
    (PC.whileOff i chunk off).pending j = [] := by
  unfold PC.whileOff
  split <;> simp [PC.pending, h]

/-- Nothing is sent, and nothing was or is left in `buf`. -/
theorem Intact.move (hs : Intact s) (hx : s.pc ≠ .exited) (hp : s.pc.pending = fun _ => [])
    (hpc : t.pc.pending = fun _ => []) (hconn : t.conn = s.conn) : Intact t where
  echoes i := hconn ▸ hs.echoes i
  pending _ i hf := by
    rw [hconn] at hf ⊢
    have hi := hs.pending hx i hf
    rw [hp] at hi
    rw [hpc]
    exact hi

/-- One connection is concerned. -/
theorem Intact.set (hs : Intact s) (hx : s.pc ≠ .exited)
    (hother : ∀ j, j ≠ i → pc.pending j = s.pc.pending j) (hc : c.sent <+: c.got)
    (hp : c.failed = false → c.sent ++ pc.pending i = c.got) : Intact (s.set pc i c) where
  echoes j := by
    by_cases hj : j = i
    · subst hj
      simpa using hc
    · rw [conn_set_of_ne hj]
      exact hs.echoes j
  pending _ j hf := by
    by_cases hj : j = i
    · subst hj
      rw [conn_set_self] at hf ⊢
      exact hp hf
    · rw [conn_set_of_ne hj] at hf ⊢
      exact hother j hj ▸ hs.pending hx j hf

theorem intact_data {b : Chunk BUF_SZ} (hs : Intact s) (h : s.pc = .read i) :
    Intact (s.set (.whileOff i b.bytes 0) i
      { s.conn i with got := (s.conn i).got ++ b.bytes }) := by
  have hx : s.pc ≠ .exited := by simp [h]
  refine hs.set hx (fun j hj => ?_) ((hs.echoes i).trans (List.prefix_append _ _)) fun hf => ?_
  · rw [pending_whileOff_of_ne hj, h]
    rfl
  · have hi := hs.pending hx i hf
    rw [h] at hi
    rw [pending_whileOff, ← hi]
    simp [PC.pending]

theorem intact_write {chunk : List UInt8} {off n : ℕ} (hs : Intact s)
    (h : s.pc = .write i chunk off) (hc : (s.conn i).failed = true → n = 0) :
    Intact (s.set (.whileOff i chunk (off + n)) i
      { s.conn i with sent := (s.conn i).sent ++ (chunk.drop off).take n }) := by
  have hx : s.pc ≠ .exited := by simp [h]
  have hpending : (s.conn i).failed = false →
      (s.conn i).sent ++ (chunk.drop off).take n ++ chunk.drop (off + n) = (s.conn i).got := by
    intro hf
    have hi := hs.pending hx i hf
    simp only [h, PC.pending, if_true] at hi
    rw [List.append_assoc, ← List.drop_drop, List.take_append_drop]
    exact hi
  refine hs.set hx (fun j hj => ?_) ?_ fun hf => ?_
  · rw [pending_whileOff_of_ne hj, h]
    simp [PC.pending, hj]
  · cases hf : (s.conn i).failed with
    | false => exact ⟨_, hpending hf⟩
    | true => simpa [hc hf] using hs.echoes i
  · rw [pending_whileOff]
    exact hpending hf

theorem intact_step (h : Step s e t) (hc : NothingAfterFailure s e) (hs : Intact s) :
    Intact t := by
  cases h with
  | acceptInterrupted | readInterrupted | writeInterrupted => exact hs
  | accept h | close h | eof h | readFails h =>
    exact hs.move (by simp [h]) (by rw [h]; rfl) rfl rfl
  | acceptFails | killed => exact ⟨hs.echoes, fun hx => (hx rfl).elim⟩
  | data h => exact intact_data hs h
  | write h => exact intact_write hs h fun hf => hc _ _ _ _ h rfl hf
  | @writeFails i off e chunk h =>
    refine hs.set (by simp [h]) (fun j hj => ?_) (hs.echoes i) nofun
    simp [h, PC.pending, hj]

/-- In a run in which no `write` takes bytes on a connection after one has failed there. -/
theorem echoes_of_nothing_after_failure (h : (system.restrict NothingAfterFailure).Reachable s) :
    Echoes s := by
  have hs : Intact s := by
    apply h.invariant
    · rintro _ rfl
      exact ⟨fun _ => List.prefix_rfl, fun _ _ _ => rfl⟩
    · rintro s e t ⟨hc, hst⟩ hs
      exact intact_step hst hc hs
  exact hs.echoes

/-- The chunk of the two runs below. -/
def twoBytes : Chunk BUF_SZ := ⟨[1, 2], by simp, by decide⟩

theorem echoes_of_nothing_after_failure_short : ∃ s,
    (system.restrict NothingAfterFailure).Reachable s ∧ (s.conn 0).sent = [1, 2] ∧ Echoes s := by
  have h0 : (system.restrict NothingAfterFailure).Reachable start := .of_initial rfl
  have h1 := h0.restrict_step (.accept rfl) (by simp [NothingAfterFailure])
  have h2 := h1.restrict_step (.data (c := twoBytes) rfl) (by simp [NothingAfterFailure])
  have h3 := h2.restrict_step (.write (n := 1) rfl (by decide : 1 ≤ 2))
    fun _ _ _ _ hp _ hf => by cases hp; cases hf
  have h4 := h3.restrict_step (.writeInterrupted rfl) (by simp [NothingAfterFailure])
  have h5 := h4.restrict_step (.write (n := 1) rfl (by decide : 1 ≤ 1))
    fun _ _ _ _ hp _ hf => by cases hp; cases hf
  exact ⟨_, h5, rfl, echoes_of_nothing_after_failure h5⟩

/-- A chunk of one byte. -/
def thirdByte : Chunk BUF_SZ := ⟨[3], by simp, by decide⟩

/-- The first `write` fails and the next chunk is written after it. -/
theorem chunk_lost : ¬ ∀ s, system.Reachable s → Echoes s := by
  intro hall
  have h0 : system.Reachable start := .of_initial rfl
  have h1 := h0.step (.accept rfl)
  have h2 := h1.step (.data (c := twoBytes) rfl)
  have h3 := h2.step (.writeFails (e := .enomem) rfl (by decide))
  have h4 := h3.step (.data (c := thirdByte) rfl)
  have h5 := h4.step (.write (n := 1) rfl (by decide : 1 ≤ 1))
  have hp := hall _ h5 0
  simp [State.set, start, twoBytes, thirdByte] at hp

end SystemCalls.EchoProgram

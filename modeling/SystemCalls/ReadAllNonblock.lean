import SystemCalls.Transition
import SystemCalls.Socket

/-!
# The non-blocking reader

`main` of 7.1.6 around `read_all_nonblock`, from the first `poll` on. The state keeps what is
still to be read of the stream and what `write` has put out.
-/

namespace SystemCalls.ReadAllNonblock

open Socket

/-- `sizeof buf` -/
abbrev CAP : ℕ := 4096

inductive PC
  | poll
  /-- In `read_all_nonblock` at `read(fd, buf + total, cap - total)`, where `total` bytes of
  `buf` are in use. -/
  | read (buf : List UInt8)
  /-- At `write(STDOUT_FILENO, buf, n)`. -/
  | write (buf : List UInt8)
  | exited (status : ℕ)

namespace PC

/-- `main` once `read_all_nonblock` has returned `total`. -/
def afterReadAll (buf : List UInt8) : PC :=
  if buf.length = 0 then .exited 0 else .write buf

/-- `if (total == cap) break; continue;` -/
def afterData (buf : List UInt8) : PC :=
  if buf.length = CAP then .afterReadAll buf else .read buf

def buffered : PC → List UInt8
  | read buf | write buf => buf
  | poll | exited _ => []

end PC

structure State where
  pc : PC
  rest : List UInt8
  out : List UInt8

inductive Event
  | poll (r : Except Errno Unit)
  | read (n : ℕ) (r : Recv n)
  | write (r : Except Errno ℕ)

/-- `read` answers 0 at the end of the stream only, and EAGAIN at any time. -/
inductive Step : State → Event → State → Prop
  | ready {s : State} (h : s.pc = .poll) : Step s (.poll (.ok ())) { s with pc := .read [] }
  | pollInterrupted {s : State} (h : s.pc = .poll) : Step s (.poll (.error .eintr)) s
  | pollFails {s : State} {e : Errno} (h : s.pc = .poll) (he : e ≠ .eintr) :
      Step s (.poll (.error e)) { s with pc := .exited 1 }
  | data {s : State} {buf rest : List UInt8} {c : Chunk (CAP - buf.length)} (h : s.pc = .read buf)
      (hr : s.rest = c.bytes ++ rest) :
      Step s (.read _ (.data c)) { s with pc := .afterData (buf ++ c.bytes), rest }
  | eof {s : State} {buf : List UInt8} (h : s.pc = .read buf) (hr : s.rest = []) :
      Step s (.read (CAP - buf.length) .eof) { s with pc := .afterReadAll buf }
  | again {s : State} {buf : List UInt8} {e : Errno} (h : s.pc = .read buf)
      (he : e = .eagain ∨ e = .ewouldblock) :
      Step s (.read (CAP - buf.length) (.error e)) { s with pc := .afterReadAll buf }
  | readInterrupted {s : State} {buf : List UInt8} (h : s.pc = .read buf) :
      Step s (.read (CAP - buf.length) (.error .eintr)) s
  | readFails {s : State} {buf : List UInt8} {e : Errno} (h : s.pc = .read buf)
      (he : e ≠ .eagain ∧ e ≠ .ewouldblock ∧ e ≠ .eintr) :
      Step s (.read (CAP - buf.length) (.error e)) { s with pc := .exited 1 }
  | write {s : State} {buf : List UInt8} {n : ℕ} (h : s.pc = .write buf) (hn : n ≤ buf.length) :
      Step s (.write (.ok n))
        { s with pc := if n = buf.length then .poll else .exited 1, out := s.out ++ buf.take n }
  | writeFails {s : State} {buf : List UInt8} {e : Errno} (h : s.pc = .write buf) :
      Step s (.write (.error e)) { s with pc := .exited 1 }

def system (stream : List UInt8) : LTS State Event where
  initial s := s = ⟨.poll, stream, []⟩
  step := Step

/-- EAGAIN comes after data, or when nothing of the stream is left. -/
def NotEmptyHanded (s : State) (e : Event) : Prop :=
  s.pc = .read [] → (∃ n, e = .read n (.error .eagain)) → s.rest = []

variable {stream buf : List UInt8} {s t : State} {e : Event}

/-! ### Every byte is somewhere -/

/-- As long as no call fails. -/
def Conserved (stream : List UInt8) (s : State) : Prop :=
  s.pc ≠ .exited 1 → s.out ++ s.pc.buffered ++ s.rest = stream

@[simp] theorem buffered_read : (PC.read buf).buffered = buf := rfl

@[simp] theorem buffered_write : (PC.write buf).buffered = buf := rfl

@[simp] theorem buffered_poll : PC.poll.buffered = [] := rfl

@[simp] theorem buffered_exited {n : ℕ} : (PC.exited n).buffered = [] := rfl

@[simp] theorem buffered_afterReadAll : (PC.afterReadAll buf).buffered = buf := by
  unfold PC.afterReadAll
  split
  next h => simp [List.length_eq_zero_iff.mp h]
  next => rfl

@[simp] theorem buffered_afterData : (PC.afterData buf).buffered = buf := by
  unfold PC.afterData
  split
  next => exact buffered_afterReadAll
  next => rfl

theorem conserved_step (h : Step s e t) (hs : Conserved stream s) : Conserved stream t := by
  cases h with
  | pollInterrupted | readInterrupted => exact hs
  | pollFails | readFails | writeFails => exact fun hx => (hx rfl).elim
  | ready h =>
    intro _
    have hall := hs (by simp [h])
    simpa [h] using hall
  | data h hr =>
    intro _
    have hall := hs (by simp [h])
    simpa [h, hr] using hall
  | eof h | again h =>
    intro _
    have hall := hs (by simp [h])
    simpa [h] using hall
  | @write buf n h hn =>
    intro hx
    have hall := hs (by simp [h])
    by_cases hlen : n = buf.length
    · subst hlen
      simpa [h] using hall
    · simp [hlen] at hx

theorem conserved_reachable (h : (system stream).Reachable s) : Conserved stream s := by
  apply h.invariant
  · rintro _ rfl _
    rfl
  · intro s e t hst hs
    exact conserved_step hst hs

/-! ### The end of the stream -/

/-- The program ends with status 0 where no byte is left. -/
def AtEnd (s : State) : Prop := s.pc = .exited 0 → s.rest = []

theorem afterReadAll_eq_exited {n : ℕ} (h : PC.afterReadAll buf = .exited n) : buf = [] := by
  unfold PC.afterReadAll at h
  split at h
  next hlen => exact List.length_eq_zero_iff.mp hlen
  next => cases h

theorem atEnd_step (h : Step s e t) (hc : NotEmptyHanded s e) (hs : AtEnd s) : AtEnd t := by
  cases h with
  | pollInterrupted | readInterrupted => exact hs
  | ready | pollFails | readFails | writeFails => exact nofun
  | @data buf rest c h =>
    intro hx
    simp only [PC.afterData] at hx
    split at hx
    · -- A full buffer is not empty.
      have hnil := afterReadAll_eq_exited hx
      exact (c.ne_nil (List.append_eq_nil_iff.mp hnil).2).elim
    · cases hx
  | eof h hr => exact fun _ => hr
  | again h he =>
    intro hx
    obtain rfl := afterReadAll_eq_exited hx
    have he : _ = Errno.eagain := he.elim id id
    exact hc h ⟨_, by rw [he]⟩
  | write h =>
    intro hx
    simp only at hx
    split at hx <;> cases hx

/-- In a run in which `read_all_nonblock` comes back empty-handed at the end of the stream only. -/
theorem out_eq_stream (h : ((system stream).restrict NotEmptyHanded).Reachable s)
    (hx : s.pc = .exited 0) : s.out = stream := by
  have hrest : AtEnd s := by
    apply h.invariant
    · rintro _ rfl hx
      cases hx
    · rintro s e t ⟨hc, hst⟩ hs
      exact atEnd_step hst hc hs
  have hall := conserved_reachable h.of_restrict (by simp [hx])
  simpa [hx, hrest hx] using hall

/-- Two bytes come one by one, and `read` answers EAGAIN after the first. -/
theorem out_eq_stream_of_two : ∃ s, ((system [1, 2]).restrict NotEmptyHanded).Reachable s ∧
    s.pc = .exited 0 ∧ s.out = [1, 2] := by
  have h0 : ((system [1, 2]).restrict NotEmptyHanded).Reachable ⟨.poll, [1, 2], []⟩ :=
    .of_initial rfl
  have h1 := h0.restrict_step (.ready rfl) (by simp [NotEmptyHanded])
  have h2 := h1.restrict_step (.data (c := ⟨[1], by simp, by decide⟩) rfl rfl)
    (by simp [NotEmptyHanded])
  have h3 := h2.restrict_step (.again (e := .eagain) rfl (.inl rfl)) nofun
  have h4 := h3.restrict_step (.write (n := 1) rfl (by decide)) (by simp [NotEmptyHanded])
  have h5 := h4.restrict_step (.ready rfl) (by simp [NotEmptyHanded])
  have h6 := h5.restrict_step (.data (c := ⟨[2], by simp, by decide⟩) rfl rfl)
    (by simp [NotEmptyHanded])
  have h7 := h6.restrict_step (.eof rfl rfl) nofun
  have h8 := h7.restrict_step (.write (n := 1) rfl (by decide)) (by simp [NotEmptyHanded])
  have h9 := h8.restrict_step (.ready rfl) (by simp [NotEmptyHanded])
  have h10 := h9.restrict_step (.eof rfl rfl) fun _ _ => rfl
  exact ⟨_, h10, rfl, out_eq_stream h10 rfl⟩

/-- EAGAIN directly after `poll`, with the whole stream still to come. -/
theorem exits_before_end : ¬ ∀ stream s, (system stream).Reachable s → s.pc = .exited 0 →
    s.out = stream := by
  intro hall
  have h0 : (system [1]).Reachable ⟨.poll, [1], []⟩ := .of_initial rfl
  have h1 := h0.step (.ready rfl)
  have h2 := h1.step (.again (e := .eagain) rfl (.inl rfl))
  cases hall _ _ h2 rfl

end SystemCalls.ReadAllNonblock

import SystemCalls.TcpServer.Server
import Mathlib.Data.List.Infix
import Mathlib.Data.List.Range

/-!
# The stream that tcp_server echoes

One connection, from the return of `accept` on: the client's byte stream, the sizes in
which `recv` cuts it and the counts `send` accepts of each piece.
-/

namespace SystemCalls.TcpServer

open Socket

variable {s t : State} {a : Answer} {as : List Answer}

@[simp] theorem run_nil : run s [] = some s := rfl

@[simp] theorem run_cons : run s (a :: as) = (step s a).bind fun t => run t as := rfl

/-- On a connection every answer adds one call to the conversation. -/
theorem conversation_step (h : step s a = some t) (ha : ∀ r, a ≠ .accept r) :
    ∃ c, t.conversation = s.conversation ++ [c] := by
  cases a with
  | accept r => exact (ha r rfl).elim
  | recv r =>
    obtain ⟨-, rfl⟩ := step_recv h
    exact ⟨.recv r, by simp⟩
  | send r =>
    obtain ⟨n, -, -, rfl⟩ := step_send h
    exact ⟨.send (s.buffer.bytes.take n) r, by simp⟩

/-- The log at every moment of a run is what the whole run's log began with. -/
theorem run_take (h : run s as = some t) (ha : ∀ r, .accept r ∉ as) (n : ℕ) :
    ∃ u, run s (as.take n) = some u ∧
      u.conversation = t.conversation.take (s.conversation.length + n) ∧
      s.conversation <+: t.conversation := by
  induction as generalizing s n with
  | nil =>
    obtain rfl : s = t := by simpa using h
    exact ⟨s, by simp, by rw [List.take_of_length_le (by omega)], List.prefix_rfl⟩
  | cons a as ih =>
    obtain ⟨v, hv, hr⟩ : ∃ v, step s a = some v ∧ run v as = some t := by
      simpa [Option.bind_eq_some_iff] using h
    obtain ⟨c, hc⟩ := conversation_step hv (by rintro r rfl; exact ha r (by simp))
    have ha' : ∀ r, .accept r ∉ as := fun r hr => ha r (by simp [hr])
    have hsv : s.conversation <+: v.conversation := hc ▸ List.prefix_append _ _
    cases n with
    | zero =>
      obtain ⟨-, -, -, hvt⟩ := ih hr ha' 0
      exact ⟨s, rfl, List.prefix_iff_eq_take.mp (hsv.trans hvt), hsv.trans hvt⟩
    | succ n =>
      obtain ⟨u, hu, htake, hvt⟩ := ih hr ha' n
      refine ⟨u, by simp [hv, hu], ?_, hsv.trans hvt⟩
      rw [htake, hc, List.length_append]
      congr 1
      simp only [List.length_singleton]
      omega

/-! ### Scripts of one connection -/

/-- `count` bytes of a stream from `offset` on. -/
def bytesFrom (stream : ℕ → UInt8) (offset count : ℕ) : List UInt8 :=
  (List.range' offset count).map stream

@[simp] theorem length_bytesFrom (stream : ℕ → UInt8) (offset count : ℕ) :
    (bytesFrom stream offset count).length = count := by
  simp [bytesFrom]

theorem bytesFrom_append (stream : ℕ → UInt8) (offset m n : ℕ) :
    bytesFrom stream offset m ++ bytesFrom stream (offset + m) n =
      bytesFrom stream offset (m + n) := by
  rw [bytesFrom, bytesFrom, bytesFrom, ← List.map_append, List.range'_append_1]

theorem bytesFrom_succ (stream : ℕ → UInt8) (offset n : ℕ) :
    bytesFrom stream offset (n + 1) = stream offset :: bytesFrom stream (offset + 1) n := by
  rw [bytesFrom, List.range'_succ, List.map_cons, bytesFrom]

/-- The next piece `recv` returns. -/
structure Piece where
  size : ℕ
  size_pos : 0 < size
  size_le : size ≤ maxRead

def Piece.chunk (p : Piece) (stream : ℕ → UInt8) (offset : ℕ) : Chunk maxRead where
  bytes := bytesFrom stream offset p.size
  ne_nil := List.length_pos_iff.mp (by rw [length_bytesFrom]; exact p.size_pos)
  length_le := by rw [length_bytesFrom]; exact p.size_le

/-- One pass of the echo loop: what `recv` returned and how much `send` accepted of it. -/
structure Round extends Piece where
  sent : ℕ
  sent_pos : 0 < sent
  sent_le : sent ≤ size

/-- The round sent back all it received. -/
def Round.Whole (r : Round) : Prop := r.sent = r.size

/-- How far the conversation got after its last whole pass. -/
inductive Ending
  /-- In `recv`. -/
  | receiving
  /-- In `send`. -/
  | sending (p : Piece)
  | eof
  | recvError (e : Errno)
  | sendError (p : Piece) (e : Errno)

def Ending.answers (stream : ℕ → UInt8) (offset : ℕ) : Ending → List Answer
  | .receiving => []
  | .sending p => [.recv (.data (p.chunk stream offset))]
  | .eof => [.recv .eof]
  | .recvError e => [.recv (.error e)]
  | .sendError p e => [.recv (.data (p.chunk stream offset)), .send (.error e)]

/-- The kernel's answers on one connection. -/
def script (stream : ℕ → UInt8) (offset : ℕ) : List Round → Ending → List Answer
  | [], ending => ending.answers stream offset
  | r :: rounds, ending =>
    .recv (.data (r.chunk stream offset)) :: .send (.ok r.sent) ::
      script stream (offset + r.size) rounds ending

def Ending.calls (stream : ℕ → UInt8) (offset : ℕ) : Ending → List (Call maxRead)
  | .receiving => []
  | .sending p => [.recv (.data (p.chunk stream offset))]
  | .eof => [.recv .eof]
  | .recvError e => [.recv (.error e)]
  | .sendError p e =>
    [.recv (.data (p.chunk stream offset)), .send (p.chunk stream offset).bytes (.error e)]

def Round.calls (r : Round) (stream : ℕ → UInt8) (offset : ℕ) : List (Call maxRead) :=
  [.recv (.data (r.chunk stream offset)), .send (r.chunk stream offset).bytes (.ok r.sent)]

/-- The calls the server makes when it is answered so. -/
def calls (stream : ℕ → UInt8) (offset : ℕ) : List Round → Ending → List (Call maxRead)
  | [], ending => ending.calls stream offset
  | r :: rounds, ending =>
    r.calls stream offset ++ calls stream (offset + r.size) rounds ending

theorem step_data (hs : s.pc = .recv) (c : Chunk maxRead) :
    ∃ t, step s (.recv (.data c)) = some t ∧ t.pc = .send c.bytes.length ∧
      t.buffer.bytes.take c.bytes.length = c.bytes ∧
      t.conversation = s.conversation ++ [.recv (.data c)] := by
  refine ⟨onRecv s (.data c), by simp [step, hs], rfl, ?_, rfl⟩
  exact CharBuf.take_terminated _ (c.length_lt (by decide))

theorem run_ending (hs : s.pc = .recv) (stream : ℕ → UInt8) (offset : ℕ) (ending : Ending) :
    ∃ t, run s (ending.answers stream offset) = some t ∧
      t.conversation = s.conversation ++ ending.calls stream offset := by
  cases ending with
  | receiving => exact ⟨s, rfl, by simp [Ending.calls]⟩
  | sending p =>
    obtain ⟨t, ht, -, -, hc⟩ := step_data hs (p.chunk stream offset)
    exact ⟨t, by simp [Ending.answers, ht], hc⟩
  | eof | recvError => exact ⟨_, by simp [Ending.answers, step, hs]; rfl, rfl⟩
  | sendError p e =>
    obtain ⟨t, ht, hpc, hb, hc⟩ := step_data hs (p.chunk stream offset)
    have hu := step_of_sendResult hpc (r := .error e) trivial
    refine ⟨_, by simp [Ending.answers, ht, hu]; rfl, ?_⟩
    simp [hc, hb, Ending.calls]

/-- The run of a script and what it leaves in the log. -/
theorem run_script (hs : s.pc = .recv) (stream : ℕ → UInt8) (offset : ℕ)
    (rounds : List Round) (ending : Ending) :
    ∃ t, run s (script stream offset rounds ending) = some t ∧
      t.conversation = s.conversation ++ calls stream offset rounds ending := by
  induction rounds generalizing s offset with
  | nil => exact run_ending hs stream offset ending
  | cons r rounds ih =>
    obtain ⟨t, ht, hpc, hb, hc⟩ := step_data hs (r.chunk stream offset)
    have hr : SendResult (r.chunk stream offset).bytes.length (.ok r.sent) :=
      ⟨r.sent_pos, by simpa [Piece.chunk] using r.sent_le⟩
    have hu := step_of_sendResult hpc hr
    obtain ⟨u, hrun, hlog⟩ :=
      ih (s := onSend t (r.chunk stream offset).bytes.length (.ok r.sent)) rfl (offset + r.size)
    refine ⟨u, by simp [script, ht, hu, hrun], ?_⟩
    simp [hlog, hc, hb, calls, Round.calls]

/-! ### Integrity -/

/-- What the stream's integrity asks of a conversation, at any moment of it. -/
def Intact (log : List (Call maxRead)) : Prop :=
  accepted log <+: received log ∧
    (.recv .eof ∈ log → (∀ data e, .send data (.error e) ∉ log) → accepted log = received log)

/-- Every `send` but the last accepted all it was asked to, and the last did too if `recv`
then returned 0. -/
def NoneShort (rounds : List Round) (ending : Ending) : Prop :=
  (∀ r ∈ rounds.dropLast, r.Whole) ∧ (ending = .eof → ∀ r ∈ rounds, r.Whole)

variable {stream : ℕ → UInt8} {offset : ℕ} {r : Round} {rounds : List Round} {ending : Ending}

theorem accepted_round : accepted (r.calls stream offset) = bytesFrom stream offset r.sent := by
  obtain ⟨d, hd⟩ := Nat.exists_eq_add_of_le r.sent_le
  simp only [Round.calls, accepted_cons, Call.accepted, Piece.chunk, hd, ← bytesFrom_append]
  simp

theorem received_round : received (r.calls stream offset) = bytesFrom stream offset r.size := by
  simp [Round.calls, Call.received, Recv.bytes, Piece.chunk]

theorem accepted_eq_received (h : r.Whole) :
    accepted (r.calls stream offset) = received (r.calls stream offset) := by
  rw [accepted_round, received_round, h]

theorem accepted_ending : accepted (ending.calls stream offset) = [] := by
  cases ending <;> simp [Ending.calls, Call.accepted]

theorem echoes_calls (h : ∀ r ∈ rounds.dropLast, r.Whole) :
    Echoes (calls stream offset rounds ending) := by
  induction rounds generalizing offset with
  | nil => exact Echoes.nil.append_of_accepted_nil (List.flatMap_eq_nil_iff.mp accepted_ending)
  | cons r rounds ih =>
    have hr : Echoes (r.calls stream offset) := echoes_round _ _
    cases rounds with
    | nil => exact hr.append_of_accepted_nil (List.flatMap_eq_nil_iff.mp accepted_ending)
    | cons r' rounds =>
      simp only [List.dropLast_cons_cons, List.mem_cons, forall_eq_or_imp] at h
      exact (echoes_append_iff hr (accepted_eq_received h.1)).mpr (ih h.2)

/-- A short `send` with a further one after it: on the stream that is 0 but for a 1 where
the bytes not sent begin, the two are out of step. -/
theorem whole_of_echoes {r' : Round} {rest : (ℕ → UInt8) → List (Call maxRead)}
    (h : ∀ stream, Echoes
      (r.calls stream offset ++ (r'.calls stream (offset + r.size) ++ rest stream))) :
    r.Whole := by
  by_contra hshort
  have hlt : r.sent < r.size := Nat.lt_of_le_of_ne r.sent_le hshort
  obtain ⟨d, hd⟩ := Nat.exists_eq_add_of_lt hlt
  obtain ⟨k, hk⟩ := Nat.exists_eq_add_of_lt r'.sent_pos
  have hsent : r'.sent = k + 1 := by omega
  let stream : ℕ → UInt8 := fun i => if i = offset + r.sent then 1 else 0
  have hfour : accepted (r.calls stream offset ++ r'.calls stream (offset + r.size)) <+:
      received (r.calls stream offset ++ r'.calls stream (offset + r.size)) := h stream 4
  rw [accepted_append, received_append, accepted_round, accepted_round, received_round,
    received_round, hd, Nat.add_assoc r.sent, ← bytesFrom_append stream offset r.sent,
    List.append_assoc, List.prefix_append_right_inj, hsent, bytesFrom_succ, bytesFrom_succ,
    List.cons_append, List.cons_prefix_cons] at hfour
  simp [stream] at hfour

theorem dropLast_whole_of_echoes (h : ∀ stream, Echoes (calls stream offset rounds ending)) :
    ∀ r ∈ rounds.dropLast, r.Whole := by
  induction rounds generalizing offset with
  | nil => simp
  | cons r rounds ih =>
    cases rounds with
    | nil => simp
    | cons r' rounds =>
      have hr : r.Whole := whole_of_echoes h
      have hrest (stream : ℕ → UInt8) :
          Echoes (calls stream (offset + r.size) (r' :: rounds) ending) :=
        (echoes_append_iff (echoes_round _ _) (accepted_eq_received hr)).mp (h stream)
      simpa [hr] using ih hrest

theorem length_accepted_le (stream : ℕ → UInt8) (offset : ℕ) (rounds : List Round)
    (ending : Ending) :
    (accepted (calls stream offset rounds ending)).length ≤
      (received (calls stream offset rounds ending)).length := by
  induction rounds generalizing offset with
  | nil => simp [calls, accepted_ending]
  | cons r rounds ih =>
    have hle := ih (offset + r.size)
    have hsent := r.sent_le
    simp only [calls, accepted_append, received_append, accepted_round, received_round,
      List.length_append, length_bytesFrom]
    omega

/-- Up to a return of 0 as many bytes were accepted as received only if every `send` was
whole. -/
theorem whole_iff_eof : (∀ r ∈ rounds, r.Whole) ↔
    accepted (calls stream offset rounds .eof) = received (calls stream offset rounds .eof) := by
  induction rounds generalizing offset with
  | nil => simp [calls, Ending.calls, Call.accepted, Call.received, Recv.bytes]
  | cons r rounds ih =>
    simp only [calls, accepted_append, received_append, List.mem_cons, forall_eq_or_imp]
    constructor
    · rintro ⟨hr, hrounds⟩
      rw [accepted_eq_received hr, ih.mp hrounds]
    · intro h
      have hlen := congrArg List.length h
      have hle := length_accepted_le stream (offset + r.size) rounds .eof
      have hsent := r.sent_le
      simp only [accepted_round, received_round, List.length_append, length_bytesFrom] at hlen
      have hr : r.Whole := by
        unfold Round.Whole
        omega
      rw [accepted_eq_received hr, List.append_cancel_left_eq] at h
      exact ⟨hr, ih.mpr h⟩

/-- `recv` returns 0 only at the end of a conversation. -/
theorem eof_mem_take {n : ℕ} (h : .recv .eof ∈ (calls stream offset rounds ending).take n) :
    ending = .eof ∧ (calls stream offset rounds ending).take n =
      calls stream offset rounds ending := by
  induction rounds generalizing offset n with
  | nil =>
    rcases n with _ | _ | n <;> cases ending <;> simp_all [calls, Ending.calls]
  | cons r rounds ih =>
    rcases n with _ | _ | n
    · simp at h
    · simp [calls, Round.calls] at h
    · have hn : (calls stream offset (r :: rounds) ending).take (n + 1 + 1) =
          r.calls stream offset ++ (calls stream (offset + r.size) rounds ending).take n := rfl
      rw [hn] at h ⊢
      have hmem : .recv .eof ∈ (calls stream (offset + r.size) rounds ending).take n := by
        simpa [Round.calls] using h
      obtain ⟨hend, htake⟩ := ih hmem
      exact ⟨hend, by rw [htake]; rfl⟩

theorem eof_mem : .recv .eof ∈ calls stream offset rounds .eof := by
  induction rounds generalizing offset with
  | nil => simp [calls, Ending.calls]
  | cons r rounds ih => exact List.mem_append_right _ ih

theorem sendError_not_mem (data : List UInt8) (e : Errno) :
    .send data (.error e) ∉ calls stream offset rounds .eof := by
  induction rounds generalizing offset with
  | nil => simp [calls, Ending.calls]
  | cons r rounds ih =>
    rw [calls, List.mem_append, not_or]
    exact ⟨by simp [Round.calls], ih⟩

theorem intact_iff_noneShort (offset : ℕ) (rounds : List Round) (ending : Ending) :
    (∀ stream n, Intact ((calls stream offset rounds ending).take n)) ↔
      NoneShort rounds ending := by
  constructor
  · intro h
    have hechoes (stream : ℕ → UInt8) : Echoes (calls stream offset rounds ending) :=
      fun n => (h stream n).1
    refine ⟨dropLast_whole_of_echoes hechoes, ?_⟩
    rintro rfl
    have hall := (h (fun _ => 0) (calls (fun _ => 0) offset rounds .eof).length).2
    rw [List.take_length] at hall
    exact whole_iff_eof.mpr (hall eof_mem sendError_not_mem)
  · intro h stream n
    refine ⟨echoes_calls h.1 n, ?_⟩
    intro heof _
    obtain ⟨rfl, htake⟩ := eof_mem_take heof
    rw [htake]
    exact whole_iff_eof.mp (h.2 rfl)

theorem accept_not_mem (r : Except Errno Peer) :
    .accept r ∉ script stream offset rounds ending := by
  induction rounds generalizing offset with
  | nil => cases ending <;> simp [script, Ending.answers]
  | cons r rounds ih => simpa [script] using ih

/-- Over any connection: the bytes accepted stay a prefix of the bytes received, and come
to equal them at the end of the stream, for every stream of bytes, just when no short
`send` is followed by another `send` or by `recv` returning 0. -/
theorem stream_intact_iff (s : State) (client : Peer) (rounds : List Round) (ending : Ending) :
    (∀ stream n, ∃ t, run (onAccept s (.ok client)) ((script stream 0 rounds ending).take n) =
      some t ∧ Intact t.conversation) ↔ NoneShort rounds ending := by
  rw [← intact_iff_noneShort 0]
  refine forall_congr' fun stream => forall_congr' fun n => ?_
  obtain ⟨t, ht, hlog⟩ := run_script (s := onAccept s (.ok client)) rfl stream 0 rounds ending
  obtain ⟨u, hu, htake, -⟩ := run_take ht (fun r => accept_not_mem r) n
  have hcalls : u.conversation = (calls stream 0 rounds ending).take n := by
    rw [htake, hlog]
    simp [onAccept]
  simp [hu, hcalls]

/-- The client sends "abc": `send` accepts one byte of "ab", and the next pass sends "c". -/
theorem second_byte_skipped :
    ∃ t, run (onAccept ⟨.accept, .zero _, ⟨"127.0.0.1", 40000⟩, [], [], []⟩
        (.ok ⟨"127.0.0.1", 40000⟩))
      [.recv (.data ⟨[97, 98], by decide, by decide⟩), .send (.ok 1),
        .recv (.data ⟨[99], by decide, by decide⟩), .send (.ok 1)] = some t ∧
      accepted t.conversation = [97, 99] ∧ received t.conversation = [97, 98, 99] ∧
      ¬ Intact t.conversation := by
  refine ⟨_, rfl, by decide, by decide, ?_⟩
  rintro ⟨hpre, -⟩
  revert hpre
  decide

end SystemCalls.TcpServer

import SystemCalls.TcpServer.Echo

/-!
# tcp_server keeps its connections apart

All connections share one buffer that is never cleared. What `send` is asked to
send is still only what the last `recv` on the same connection returned, so the
calls on a connection are a function of the kernel's answers on it.
-/

namespace SystemCalls.TcpServer

open Socket

/-- The kernel's answer to a call on a connection. -/
inductive Input
  | recv (r : Recv maxRead)
  | send (r : Send)

def input : Call maxRead → Input
  | .recv r => .recv r
  | .send _ r => .send r

/-- The bytes that a call passes to `send`. -/
def passed : Call maxRead → List UInt8
  | .recv _ => []
  | .send data _ => data

/-- The calls on every connection so far, the open one last. -/
def State.connections (s : State) : List (List (Call maxRead)) :=
  if s.pc = .accept then s.past else s.past ++ [s.conversation]

/-- What the last `recv` returned. -/
def latest : List UInt8 → List Input → List UInt8
  | last, [] => last
  | _, .recv r :: rest => latest r.bytes rest
  | last, .send _ :: rest => latest last rest

/-- The calls of a connection, from the answers on it alone. -/
def replay : List UInt8 → List Input → List (Call maxRead)
  | _, [] => []
  | _, .recv r :: rest => .recv r :: replay r.bytes rest
  | last, .send r :: rest => .send last r :: replay last rest

theorem replay_concat (last : List UInt8) (xs : List Input) (x : Input) :
    replay last (xs ++ [x]) = replay last xs ++ replay (latest last xs) [x] := by
  induction xs generalizing last with
  | nil => rfl
  | cons y xs ih => cases y <;> simp [replay, latest, ih]

theorem latest_concat (last : List UInt8) (xs : List Input) (x : Input) :
    latest last (xs ++ [x]) = latest (latest last xs) [x] := by
  induction xs generalizing last with
  | nil => rfl
  | cons y xs ih => cases y <;> simp [latest, ih]

/-- The calls owe nothing to other connections. -/
def Own (calls : List (Call maxRead)) : Prop :=
  calls = replay [] (calls.map input)

/-- In `send`, the first `bytes_read` bytes of the buffer are those just received. -/
structure Separate (s : State) : Prop where
  past : ∀ calls ∈ s.past, Own calls
  conversation : s.pc ≠ .accept → Own s.conversation
  buffer : ∀ n, s.pc = .send n → s.buffer.bytes.take n = latest [] (s.conversation.map input)

variable {s t : State} {a : Answer} {as : List Answer} {calls : List (Call maxRead)}

theorem own_recv (h : Own calls) (r : Recv maxRead) : Own (calls ++ [.recv r]) := by
  rw [Own, List.map_append, List.map_singleton, replay_concat, ← h]
  rfl

theorem own_send (h : Own calls) (r : Send) :
    Own (calls ++ [.send (latest [] (calls.map input)) r]) := by
  rw [Own, List.map_append, List.map_singleton, replay_concat, ← h]
  rfl

theorem separate_listening (h : Listening s) : Separate s where
  past := by simp [h.2]
  conversation hpc := (hpc h.1).elim
  buffer n hn := by simp [h.1] at hn

theorem separate_onAccept (h : Separate s) (hpc : s.pc = .accept) (r : Except Errno Peer) :
    Separate (onAccept s r) := by
  cases r with
  | ok client => exact ⟨h.past, fun _ => rfl, fun n hn => by cases hn⟩
  | error e =>
    by_cases he : e = .eintr
    · simpa only [onAccept, if_pos he] using h
    · rw [onAccept, if_neg he]
      exact ⟨h.past, fun hne => (hne hpc).elim, fun n hn => by simp [hpc] at hn⟩

/-- Closing a connection keeps its calls. -/
theorem separate_closeClient (hpast : ∀ calls ∈ s.past, Own calls) (hc : Own s.conversation) :
    Separate (closeClient s) where
  past := by
    intro calls hmem
    rcases List.mem_append.mp hmem with hmem | hmem
    · exact hpast calls hmem
    · obtain rfl : calls = s.conversation := by simpa using hmem
      exact hc
  conversation hne := (hne rfl).elim
  buffer n hn := by cases hn

theorem separate_onRecv (h : Separate s) (hpc : s.pc = .recv) (r : Recv maxRead) :
    Separate (onRecv s r) := by
  have hown := own_recv (h.conversation (by simp [hpc])) r
  cases r with
  | eof | error => exact separate_closeClient h.past hown
  | data c =>
    refine ⟨h.past, fun _ => hown, ?_⟩
    intro n hn
    obtain rfl : c.bytes.length = n := by simpa [onRecv] using hn
    simp only [onRecv_conversation, List.map_append, List.map_singleton, latest_concat]
    exact CharBuf.take_terminated _ _

theorem separate_onSend {n : ℕ} (h : Separate s) (hpc : s.pc = .send n) (r : Send) :
    Separate (onSend s n r) := by
  have hown := own_send (h.conversation (by simp [hpc])) r
  rw [← h.buffer n hpc] at hown
  cases r with
  | ok k => exact ⟨h.past, fun _ => hown, fun m hm => by cases hm⟩
  | error e =>
    unfold onSend
    dsimp only
    split
    · exact ⟨h.past, fun _ => hown, fun m hm => by cases hm⟩
    · exact separate_closeClient h.past hown

theorem separate_step (h : step s a = some t) (hs : Separate s) : Separate t := by
  cases a with
  | accept r =>
    obtain ⟨hpc, rfl⟩ := step_accept h
    exact separate_onAccept hs hpc r
  | recv r =>
    obtain ⟨hpc, rfl⟩ := step_recv h
    exact separate_onRecv hs hpc r
  | send r =>
    obtain ⟨n, hpc, -, rfl⟩ := step_send h
    exact separate_onSend hs hpc r

theorem separate_run (h : run s as = some t) (hs : Separate s) : Separate t := by
  induction as generalizing s with
  | nil =>
    obtain rfl : s = t := by simpa using h
    exact hs
  | cons a as ih =>
    obtain ⟨u, hu, hr⟩ : ∃ u, step s a = some u ∧ run u as = some t := by
      simpa [Option.bind_eq_some_iff] using h
    exact ih hr (separate_step hu hs)

theorem Separate.own (h : Separate s) (hc : calls ∈ s.connections) : Own calls := by
  unfold State.connections at hc
  split at hc
  · exact h.past calls hc
  · rcases List.mem_append.mp hc with hc | hc
    · exact h.past calls hc
    · obtain rfl : calls = s.conversation := by simpa using hc
      exact h.conversation ‹_›

/-- Two runs that give connection `k` the same answers pass the same bytes to `send` on it,
whatever the server received on other connections and found in its buffer. -/
theorem connection_isolated {s s' t t' : State} {as as' : List Answer} (hs : Listening s)
    (hs' : Listening s') (ht : run s as = some t) (ht' : run s' as' = some t') {k : ℕ}
    {calls calls' : List (Call maxRead)} (hk : t.connections[k]? = some calls)
    (hk' : t'.connections[k]? = some calls') (hin : calls.map input = calls'.map input) :
    calls.flatMap passed = calls'.flatMap passed := by
  have hown := (separate_run ht (separate_listening hs)).own (List.mem_of_getElem? hk)
  have hown' := (separate_run ht' (separate_listening hs')).own (List.mem_of_getElem? hk')
  have heq : calls = calls' := by rw [hown, hown', hin]
  rw [heq]

/-- The second client sends one byte, after a first one that has sent another byte or none. -/
theorem second_connection_isolated :
    ∃ (s t t' : State) (as as' : List Answer) (calls calls' : List (Call maxRead)),
      run s as = some t ∧ run s as' = some t' ∧ t.past.map List.length ≠ t'.past.map List.length ∧
      t.connections[1]? = some calls ∧ t'.connections[1]? = some calls' ∧
      calls.flatMap passed = calls'.flatMap passed := by
  let s : State := ⟨.accept, .zero bufferSize, ⟨"", 0⟩, [], [], []⟩
  let chunk : Chunk maxRead := ⟨[97], by decide, by decide⟩
  let second : List Answer :=
    [.accept (.ok ⟨"127.0.0.1", 40001⟩), .recv (.data chunk), .send (.ok 1)]
  let first : Answer := .accept (.ok ⟨"127.0.0.1", 40000⟩)
  obtain ⟨t, ht, hpast, calls, hk, hin⟩ : ∃ t, run s (first ::
      .recv (.data ⟨[115], by decide, by decide⟩) :: .send (.ok 1) :: .recv .eof :: second) =
        some t ∧ t.past.map List.length = [3] ∧ ∃ calls, t.connections[1]? = some calls ∧
      calls.map input = [.recv (.data chunk), .send (.ok 1)] := ⟨_, rfl, rfl, _, rfl, rfl⟩
  obtain ⟨t', ht', hpast', calls', hk', hin'⟩ : ∃ t, run s (first :: .recv .eof :: second) =
      some t ∧ t.past.map List.length = [1] ∧ ∃ calls, t.connections[1]? = some calls ∧
      calls.map input = [.recv (.data chunk), .send (.ok 1)] := ⟨_, rfl, rfl, _, rfl, rfl⟩
  refine ⟨s, t, t', _, _, calls, calls', ht, ht', by simp [hpast, hpast'], hk, hk', ?_⟩
  exact connection_isolated ⟨rfl, rfl⟩ ⟨rfl, rfl⟩ ht ht' hk hk' (hin.trans hin'.symm)

end SystemCalls.TcpServer

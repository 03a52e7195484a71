import SystemCalls.EchoClient.Together

/-!
# When the echo client and the server are stuck

The client reads one chunk for each line it writes. Answers it has not read pile up, and when
both channels are full each side waits in `write` for the other to read.
-/

namespace SystemCalls.EchoClient.Net

open Socket WriteLoops

variable {s t : Net} {e : Event} {stdin : List UInt8} {capServer capClient : ℕ}

/-- The channels hold what there is room for. -/
structure Room (capServer capClient : ℕ) (s : Net) : Prop where
  toServer : s.toServer.length ≤ capServer
  toClient : s.toClient.length ≤ capClient

theorem room_step (h : Step capServer capClient s e t) (hs : Room capServer capClient s) :
    Room capServer capClient t := by
  obtain ⟨hts, htc⟩ := hs
  cases h with
  | fgets | clientEof | clientWriteInterrupted | clientReadInterrupted | serverEof | serverClose
  | serverReadInterrupted | serverWriteInterrupted | serverWriteFails | serverKilled =>
    exact ⟨hts, htc⟩
  | clientWrite _ _ hcap => exact ⟨by simp; omega, htc⟩
  | clientRead hd =>
    rw [hd, List.length_append] at htc
    exact ⟨hts, by simp; omega⟩
  | serverRead hd =>
    rw [hd, List.length_append] at hts
    exact ⟨by simp; omega, htc⟩
  | serverWrite _ hcap => exact ⟨hts, by simp; omega⟩

/-- Something of the current line has not come back. -/
structure Ahead (s : Net) : Prop where
  write : ∀ len k, s.client.pc = .write len k → s.client.got.length + k ≤ s.client.sent.length
  read : s.client.pc = .read → s.client.got.length < s.client.sent.length

theorem Ahead.of_client_eq (hs : Ahead s) (hc : t.client = s.client) : Ahead t :=
  ⟨hc ▸ hs.write, hc ▸ hs.read⟩

theorem ahead_whileSent {len k : ℕ} (hpc : s.client.pc = .whileSent len k)
    (hle : s.client.got.length + k ≤ s.client.sent.length) (hpos : 0 < max len k) : Ahead s := by
  by_cases hk : k < len
  · rw [PC.whileSent, if_pos hk] at hpc
    refine ⟨fun len' k' hpc' => ?_, by simp [hpc]⟩
    cases hpc.symm.trans hpc'
    exact hle
  · rw [PC.whileSent, if_neg hk] at hpc
    exact ⟨by simp [hpc], fun _ => by omega⟩

/-- A line of the input begins with another byte than NUL. -/
theorem length_cstr_readLine (hs : Flow stdin s) (hnul : ∀ b ∈ stdin, b ≠ 0)
    {chunk : Chunk maxRead} (hr : readLine s.stdin = some chunk) :
    0 < (cstr chunk.bytes).length := by
  unfold readLine at hr
  split at hr
  next => cases hr
  next hin =>
    obtain rfl := Option.some.inj hr
    have hall : ∀ b ∈ Stdio.fgets maxRead s.stdin, b ≠ 0 := by
      intro b hb
      have hmem : b ∈ s.stdin := (Stdio.fgets_isPrefix _ _).subset hb
      exact hnul b (hs.lines ▸ List.mem_append_right _ hmem)
    rw [cstr_eq_self hall]
    exact List.length_pos_iff.mpr (Stdio.fgets_ne_nil (by decide) hin)

theorem ahead_step (hnul : ∀ b ∈ stdin, b ≠ 0) (hf : Flow stdin s)
    (h : Step capServer capClient s e t) (hs : Ahead s) : Ahead t := by
  cases h with
  | fgets hc =>
    obtain ⟨hpc, rfl⟩ := step_fgets hc
    cases hr : readLine s.stdin with
    | none => exact ⟨by rintro _ _ ⟨⟩, by rintro ⟨⟩⟩
    | some chunk =>
      have hpos := length_cstr_readLine hf hnul hr
      have hle := hf.got.length_le
      refine ahead_whileSent rfl (by simpa using hle) ?_
      rw [CharBuf.cstr_terminated]
      omega
  | clientWrite hn hle _ hc =>
    obtain ⟨len, k, hpc, rfl⟩ := step_write hc
    have hk := hs.write len k hpc
    refine ahead_whileSent rfl ?_ (by omega)
    simp only [onWrite, List.length_append, List.length_take]
    omega
  | clientRead _ hc =>
    obtain ⟨_, rfl⟩ := step_read hc
    exact ⟨by rintro _ _ ⟨⟩, by rintro ⟨⟩⟩
  | clientEof _ _ hc | clientReadInterrupted hc =>
    obtain ⟨_, rfl⟩ := step_read hc
    exact ⟨by rintro _ _ ⟨⟩, by rintro ⟨⟩⟩
  | clientWriteInterrupted hc =>
    rw [write_interrupted hf.writing hc]
    exact hs
  | serverRead | serverWrite | serverEof | serverClose | serverReadInterrupted
  | serverWriteInterrupted | serverWriteFails | serverKilled => exact hs.of_client_eq rfl

/-- Not one of the interruptions. -/
def Uninterrupted (_ : Net) (e : Event) : Prop :=
  e ≠ .interrupted

/-- Each side has bytes to write and no room for them. -/
structure Deadlocked (capServer capClient : ℕ) (s : Net) : Prop where
  client : ∃ len k, s.client.pc = .write len k
  server : ∃ chunk off, s.server.pc = .write 0 chunk off ∧ off < chunk.length
  toServer : s.toServer.length = capServer
  toClient : s.toClient.length = capClient

/-- Something other than an interruption can happen. -/
def Moves (capServer capClient : ℕ) (s : Net) : Prop :=
  ∃ e t, Step capServer capClient s e t ∧ e ≠ .interrupted

theorem exists_chunk (max : ℕ) {bytes : List UInt8} (hmax : 0 < max) (h : bytes ≠ []) :
    ∃ (c : Chunk max) (rest : List UInt8), bytes = c.bytes ++ rest := by
  refine ⟨⟨bytes.take max, ?_, List.length_take_le _ _⟩, bytes.drop max, ?_⟩
  · rw [ne_eq, List.take_eq_nil_iff]
    rintro (h0 | hnil)
    · omega
    · exact h hnil
  · exact (List.take_append_drop _ _).symm

/-- The server moves when it has something to read or room to write. -/
theorem server_moves (hserving : Serving s.server)
    (hread : s.server.pc = .read 0 → s.toServer ≠ [])
    (hroom : s.server.pc ≠ .read 0 → s.toClient.length < capClient) :
    Moves capServer capClient s := by
  rcases hserving with hpc | ⟨chunk, off, hpc, hoff⟩
  · obtain ⟨c, rest, hc⟩ := exists_chunk EchoProgram.BUF_SZ (by decide) (hread hpc)
    exact ⟨_, _, .serverRead hc (.data hpc), by simp⟩
  · have hlt := hroom (by simp [hpc])
    have hfits : Answer.Fits (chunk.length - off) (.count 1) := by
      change 1 ≤ chunk.length - off
      omega
    exact ⟨_, _, .serverWrite one_pos hlt (.write hpc hfits), by simp⟩

theorem prompt_moves (hpc : s.client.pc = .prompt) : Moves capServer capClient s := by
  have hc : step s.client (.fgets (readLine s.stdin)) =
      some (onFgets s.client (readLine s.stdin)) := by simp [step, hpc]
  exact ⟨_, _, .fgets hc, by simp⟩

theorem write_moves {len k : ℕ} (hf : Flow stdin s) (hpc : s.client.pc = .write len k)
    (hroom : s.toServer.length < capServer) : Moves capServer capClient s := by
  have hc : step s.client (.write (.count 1)) = some (onWrite s.client len k (.count 1)) := by
    simp [step, hpc]
  exact ⟨_, _, .clientWrite one_pos (length_unsent_pos hf.writing hpc) hroom hc, by simp⟩

theorem read_moves (hpc : s.client.pc = .read) (hne : s.toClient ≠ []) :
    Moves capServer capClient s := by
  obtain ⟨chunk, rest, hd⟩ := exists_chunk maxRead (by decide) hne
  have hc : step s.client (.read (.data chunk)) = some (onRead s.client (.data chunk)) := by
    simp [step, hpc]
  exact ⟨_, _, .clientRead hd hc, by simp⟩

/-- A state in which nothing but an interruption can happen: the client has left its loop, or
both channels are full. -/
theorem stuck (hf : Flow stdin s) (ha : Ahead s) (hr : Room capServer capClient s)
    (hserver : 0 < capServer) (hclient : 0 < capClient) (hs : ¬ Moves capServer capClient s) :
    s.client.pc = .closed ∨ Deadlocked capServer capClient s := by
  cases hpc : s.client.pc with
  | closed => exact .inl rfl
  | died => exact (hf.alive hpc).elim
  | prompt => exact (hs (prompt_moves hpc)).elim
  | write len k =>
    right
    obtain ⟨hserving, _⟩ := hf.running (by simp [hpc])
    have hfull : s.toServer.length = capServer := by
      have hle := hr.toServer
      by_contra hne
      exact hs (write_moves hf hpc (by omega))
    have hts : s.toServer ≠ [] := List.ne_nil_of_length_pos (by omega)
    rcases hserving with hread | hwrite
    · exact (hs (server_moves (.inl hread) (fun _ => hts) (fun h => (h hread).elim))).elim
    · refine ⟨⟨len, k, hpc⟩, hwrite, hfull, ?_⟩
      have hle := hr.toClient
      by_contra hne
      exact hs (server_moves (.inr hwrite) (fun _ => hts) (fun _ => by omega))
  | read =>
    obtain ⟨hserving, hflow⟩ := hf.running (by simp [hpc])
    have hlt := ha.read hpc
    by_cases htc : s.toClient = []
    · refine (hs (server_moves hserving (fun hread hts => ?_) fun _ => ?_)).elim
      · have hlen := congrArg List.length hflow
        simp [onTheWay, htc, hts, hread, EchoProgram.PC.pending] at hlen
        omega
      · simpa [htc] using hclient
    · exact (hs (read_moves hpc htc)).elim

/-- Both channels full and a byte more on each side take that long an input. -/
theorem Deadlocked.length_le (h : Deadlocked capServer capClient s) (hf : Flow stdin s) :
    capServer + capClient + 2 ≤ stdin.length := by
  obtain ⟨⟨len, k, hpc⟩, ⟨chunk, off, hserver, hoff⟩, hts, htc⟩ := h
  have hflow := congrArg List.length (hf.running (by simp [hpc])).flow
  have hpos := length_unsent_pos hf.writing hpc
  have hsent := congrArg List.length hf.sent
  have hlines := congrArg List.length hf.lines
  have hle := length_flatMap_cstr_le s.client.lines
  simp [onTheWay, hserver, EchoProgram.PC.pending] at hflow
  simp only [List.length_append] at hsent hlines
  omega

/-! ### Termination -/

/-- The server has no other connection, and bytes to write when it writes. -/
def Single (v : EchoProgram.State) : Prop :=
  match v.pc with
  | .read i => i = 0
  | .write i chunk off => i = 0 ∧ off < chunk.length
  | .close _ | .accept | .exited => True

/-- What the server has to do before it waits in `accept`. -/
def serverWork (v : EchoProgram.State) : ℕ :=
  2 * (v.pc.pending 0).length +
    match v.pc with
    | .read _ | .write .. => 2
    | .close _ => 1
    | .accept | .exited => 0

def clientWork (c : State) : ℕ :=
  6 * c.unsent.length + if c.pc = .closed then 0 else 1

/-- The way every byte has still to go, and the last steps of both programs. -/
def measure (s : Net) : ℕ :=
  8 * s.stdin.length + clientWork s.client + 4 * s.toServer.length + serverWork s.server +
    s.toClient.length

section Server

variable {v w : EchoProgram.State} {n : ℕ} {chunk : Chunk EchoProgram.BUF_SZ}

theorem single_whileOff {chunk : List UInt8} {off : ℕ} (h : v.pc = .whileOff 0 chunk off) :
    Single v := by
  rcases serving_whileOff h with hpc | ⟨chunk, off, hpc, hoff⟩
  · simp [Single, hpc]
  · simp [Single, hpc, hoff]

theorem serverWork_whileOff {chunk : List UInt8} {off : ℕ} (h : v.pc = .whileOff 0 chunk off) :
    serverWork v = 2 * (chunk.length - off) + 2 := by
  have hpending : v.pc.pending 0 = chunk.drop off := h ▸ EchoProgram.pending_whileOff
  rw [serverWork, hpending, List.length_drop]
  rcases serving_whileOff h with hpc | ⟨c, k, hpc, _⟩ <;> simp [hpc]

theorem work_read (hv : Single v) (h : EchoProgram.Step v (.read (.data chunk)) w) :
    Single w ∧ serverWork w = serverWork v + 2 * chunk.bytes.length := by
  cases h with
  | @data i _ hpc =>
    obtain rfl : i = 0 := by simpa [Single, hpc] using hv
    refine ⟨single_whileOff rfl, ?_⟩
    rw [serverWork_whileOff rfl]
    simp [serverWork, hpc, EchoProgram.PC.pending]
    omega

theorem work_write (hv : Single v) (h : EchoProgram.Step v (.write (.count n)) w) :
    Single w ∧ serverWork w + 2 * n = serverWork v ∧ n ≤ (v.pc.pending 0).length := by
  cases h with
  | @write i off _ chunk hpc hn =>
    obtain ⟨rfl, hoff⟩ : i = 0 ∧ off < chunk.length := by simpa [Single, hpc] using hv
    have hle : n ≤ chunk.length - off := hn
    refine ⟨single_whileOff rfl, ?_, by simpa [hpc, EchoProgram.PC.pending] using hle⟩
    rw [serverWork_whileOff rfl]
    simp [serverWork, hpc, EchoProgram.PC.pending]
    omega

/-- The steps that end the loops. -/
theorem work_lt {e : EchoProgram.Event} (hv : Single v) (h : EchoProgram.Step v e w)
    (he : e = .read .eof ∨ e = .close ∨ e = .killed ∨ ∃ r ≠ Errno.eintr, e = .write (.error r)) :
    serverWork w < serverWork v := by
  cases h with
  | eof hpc | close hpc | killed hpc =>
    simp [serverWork, hpc, EchoProgram.PC.pending]
  | writeFails hpc =>
    have hi := hv
    simp only [Single, hpc] at hi
    simp [serverWork, hpc, EchoProgram.PC.pending, EchoProgram.State.set, hi.1]
    omega
  | accept | acceptInterrupted | acceptFails | data | readInterrupted | readFails | write
  | writeInterrupted => simp at he

end Server

section Client

variable {c : State} {len k n : ℕ}

theorem clientWork_of_ne_write (h : ∀ len k, c.pc ≠ .write len k) (hc : c.pc ≠ .closed) :
    clientWork c = 1 := by
  simp [clientWork, unsent_of_ne_write h, hc]

theorem clientWork_closed (h : c.pc = .closed) : clientWork c = 0 := by
  simp [clientWork, unsent_of_ne_write (s := c) (by simp [h]), h]

theorem whileSent_ne_closed : PC.whileSent len k ≠ .closed := by
  unfold PC.whileSent
  split <;> nofun

theorem clientWork_onFgets (chunk : Chunk maxRead) :
    clientWork (onFgets c (some chunk)) = 6 * (cstr chunk.bytes).length + 1 := by
  have hne : (onFgets c (some chunk)).pc ≠ .closed := whileSent_ne_closed
  rw [clientWork, unsent_onFgets, if_neg hne]

theorem clientWork_onWrite (h : c.pc = .write len k) (hn : n ≤ c.unsent.length) :
    clientWork (onWrite c len k (.count n)) + 6 * n = clientWork c := by
  have hne : (onWrite c len k (.count n)).pc ≠ .closed := whileSent_ne_closed
  rw [clientWork, unsent_onWrite h, if_neg hne, clientWork, List.length_drop]
  simp only [h, reduceCtorEq, if_false]
  omega

end Client

theorem single_step (h : Step capServer capClient s e t) (hs : Single s.server) :
    Single t.server := by
  cases h with
  | fgets | clientWrite | clientRead | clientEof | clientWriteInterrupted
  | clientReadInterrupted => exact hs
  | serverRead _ hv => exact (work_read hs hv).1
  | serverWrite _ _ hv => exact (work_write hs hv).1
  | serverEof _ _ hv | serverClose hv | serverReadInterrupted hv | serverWriteInterrupted hv
  | serverWriteFails _ _ hv | serverKilled _ hv =>
    cases hv <;> simp_all [Single, EchoProgram.State.set]

theorem measure_fgets {c : State} (hc : step s.client (.fgets (readLine s.stdin)) = some c) :
    measure { s with
      client := c
      stdin := s.stdin.drop (Stdio.fgets maxRead s.stdin).length } < measure s := by
  obtain ⟨hpc, rfl⟩ := step_fgets hc
  have hwork : clientWork s.client = 1 := clientWork_of_ne_write (by simp [hpc]) (by simp [hpc])
  by_cases hin : s.stdin = []
  · have hclosed : clientWork (onFgets s.client (readLine s.stdin)) = 0 :=
      clientWork_closed (by simp [readLine, hin, onFgets])
    simp only [measure, hclosed, hwork, List.length_drop]
    omega
  · have hpos := List.length_pos_iff.mpr (Stdio.fgets_ne_nil (show 0 < maxRead by decide) hin)
    have hle := (Stdio.fgets_isPrefix maxRead s.stdin).length_le
    have hcstr := length_cstr_le (Stdio.fgets maxRead s.stdin)
    simp only [measure, hwork, readLine, dif_neg hin, clientWork_onFgets, List.length_drop]
    omega

/-- Without interruptions every step brings something further. -/
theorem measure_lt (hv : Single s.server) (h : Step capServer capClient s e t)
    (he : e ≠ .interrupted) : measure t < measure s := by
  cases h with
  | fgets hc => exact measure_fgets hc
  | clientWrite hn hle _ hc =>
    obtain ⟨len, k, hpc, rfl⟩ := step_write hc
    have hwork := clientWork_onWrite hpc hle
    simp only [measure, List.length_append, List.length_take]
    omega
  | @clientRead _ chunk rest hd hc =>
    obtain ⟨hpc, rfl⟩ := step_read hc
    have hwork : clientWork s.client = 1 := clientWork_of_ne_write (by simp [hpc]) (by simp [hpc])
    have hprompt : clientWork (onRead s.client (.data chunk)) = 1 :=
      clientWork_of_ne_write (by simp [onRead]) (by simp [onRead])
    have hpos := chunk.length_pos
    simp only [measure, hwork, hprompt, hd, List.length_append]
    omega
  | clientEof _ _ hc =>
    obtain ⟨hpc, rfl⟩ := step_read hc
    have hwork : clientWork s.client = 1 := clientWork_of_ne_write (by simp [hpc]) (by simp [hpc])
    have hclosed : clientWork (onRead s.client .eof) = 0 := clientWork_closed rfl
    simp only [measure, hwork, hclosed]
    omega
  | serverRead hd hw =>
    obtain ⟨_, hwork⟩ := work_read hv hw
    have hpos := Chunk.length_pos (by assumption)
    simp only [measure, hwork, hd, List.length_append]
    omega
  | serverWrite hn _ hw =>
    obtain ⟨_, hwork, hle⟩ := work_write hv hw
    simp only [measure, List.length_append, List.length_take]
    omega
  | serverEof _ _ hw | serverClose hw | serverWriteFails _ _ hw | serverKilled _ hw =>
    have hlt := work_lt hv hw (by simp [*])
    simp only [measure]
    omega
  | clientWriteInterrupted | clientReadInterrupted | serverReadInterrupted
  | serverWriteInterrupted => exact (he rfl).elim

theorem room_reachable (h : (system capServer capClient stdin).Reachable s) :
    Room capServer capClient s := by
  apply h.invariant
  · rintro s ⟨-, -, -, hts, htc⟩
    exact ⟨by simp [hts], by simp [htc]⟩
  · intro s e t hst hs
    exact room_step hst hs

theorem ahead_reachable (h : (system capServer capClient stdin).Reachable s)
    (hnul : ∀ b ∈ stdin, b ≠ 0) : Ahead s := by
  apply h.invariant_of_reachable
  · rintro s ⟨⟨hpc, -⟩, -, -, -⟩
    exact ⟨by simp [hpc], by simp [hpc]⟩
  · intro s e t hr hst hs
    exact ahead_step hnul (flow_reachable hr) hst hs

theorem single_reachable (h : (system capServer capClient stdin).Reachable s) :
    Single s.server := by
  apply h.invariant
  · rintro s ⟨-, hserver, -, -⟩
    simp [Single, hserver]
  · intro s e t hst hs
    exact single_step hst hs

theorem Deadlocked.not_moves (h : Deadlocked capServer capClient s) :
    ¬ Moves capServer capClient s := by
  obtain ⟨⟨len, k, hpc⟩, ⟨chunk, off, hserver, _⟩, hts, htc⟩ := h
  rintro ⟨e, t, hst, he⟩
  cases hst with
  | fgets hc =>
    have hprompt := (step_fgets hc).1
    simp [hpc] at hprompt
  | clientRead _ hc | clientEof _ _ hc | clientReadInterrupted hc =>
    have hread := (step_read hc).1
    simp [hpc] at hread
  | clientWrite | serverWrite => omega
  | serverRead _ hv | serverEof _ _ hv | serverClose hv =>
    cases hv
    simp_all
  | serverWriteFails hclosed | serverKilled hclosed => simp [hpc] at hclosed
  | clientWriteInterrupted | serverReadInterrupted | serverWriteInterrupted => exact he rfl

/-- Whatever was interrupted before, the two stop before the client has left its loop just when
both channels are full, and that takes an input longer than both together. -/
theorem stuck_iff_deadlocked (h : (system capServer capClient stdin).Reachable s)
    (hnul : ∀ b ∈ stdin, b ≠ 0) (hserver : 0 < capServer) (hclient : 0 < capClient) :
    (s.client.pc ≠ .closed ∧ ¬ Moves capServer capClient s ↔ Deadlocked capServer capClient s) ∧
      (Deadlocked capServer capClient s → capServer + capClient + 2 ≤ stdin.length) := by
  have hf := flow_reachable h
  refine ⟨⟨fun ⟨hpc, hs⟩ => ?_, fun hd => ⟨?_, hd.not_moves⟩⟩, fun hd => hd.length_le hf⟩
  · exact (stuck hf (ahead_reachable h hnul) (room_reachable h) hserver hclient hs).resolve_left hpc
  · obtain ⟨len, k, hpc⟩ := hd.client
    simp [hpc]

/-- One byte more than the two channels, the `buf` of the server and the `write` of the client
have room for. -/
theorem stuck_iff_deadlocked_four_bytes : ∃ s, (system 1 1 [97, 98, 99, 10]).Reachable s ∧
    Deadlocked 1 1 s ∧ ¬ Moves 1 1 s := by
  have h0 : (system 1 1 [97, 98, 99, 10]).Reachable
      ⟨⟨.prompt, .zero _, [], [], [], []⟩, { EchoProgram.start with pc := .read 0 },
        [97, 98, 99, 10], [], []⟩ :=
    .of_initial ⟨⟨rfl, rfl, rfl, rfl, rfl⟩, rfl, rfl, rfl, rfl⟩
  have h1 := h0.step (.fgets rfl)
  have h2 := h1.step (.clientWrite one_pos (by decide) (by decide) rfl)
  have h3 := h2.step (.serverRead rfl (.data (c := ⟨[97], by simp, by decide⟩) rfl))
  have h4 := h3.step (.serverWrite one_pos (by decide) (.write rfl (by decide : 1 ≤ 1)))
  have h5 := h4.step (.clientWrite one_pos (by decide) (by decide) rfl)
  have h6 := h5.step (.serverRead rfl (.data (c := ⟨[98], by simp, by decide⟩) rfl))
  have h7 := h6.step (.clientWrite one_pos (by decide) (by decide) rfl)
  have hiff := (stuck_iff_deadlocked h7 (by simp) one_pos one_pos).1
  refine ⟨_, h7, ?_, (hiff.mpr ?_).2⟩ <;>
    exact ⟨⟨4, 3, rfl⟩, ⟨[98], 0, rfl, by decide⟩, rfl, rfl⟩

/-- The client leaves its loop at the end of its input and nowhere else. -/
theorem stdin_of_closed
    (h : ((system capServer capClient stdin).restrict Uninterrupted).Reachable s) :
    s.client.pc = .closed → s.stdin = [] := by
  apply h.invariant_of_reachable (P := fun s => s.client.pc = .closed → s.stdin = [])
  · rintro s ⟨⟨hpc, -⟩, -, -, -⟩
    simp [hpc]
  · rintro s e t hr ⟨he, hst⟩ hs
    cases hst with
    | fgets hc =>
      obtain ⟨hpc, rfl⟩ := step_fgets hc
      by_cases hin : s.stdin = []
      · simp [hin]
      · intro hclosed
        simp only [readLine, dif_neg hin] at hclosed
        exact (whileSent_ne_closed hclosed).elim
    | clientWrite _ _ _ hc =>
      obtain ⟨len, k, hpc, rfl⟩ := step_write hc
      exact fun hclosed => (whileSent_ne_closed hclosed).elim
    | clientRead _ hc =>
      obtain ⟨hpc, rfl⟩ := step_read hc
      intro hclosed
      cases hclosed
    | clientEof _ haccept hc =>
      obtain ⟨hpc, _⟩ := step_read hc
      obtain ⟨hserving, _⟩ := (flow_reachable hr.of_restrict).running (by simp [hpc])
      rcases hserving with hv | ⟨c, off, hv, _⟩ <;> simp [hv] at haccept
    | serverRead | serverWrite | serverEof | serverClose | serverWriteFails | serverKilled =>
      exact hs
    | clientWriteInterrupted | clientReadInterrupted | serverReadInterrupted
    | serverWriteInterrupted => exact (he rfl).elim

/-- Without interruptions every run is finite, and when the input is at most one byte longer than
both channels together it ends with all of it written. -/
theorem ends_with_input_sent (hnul : ∀ b ∈ stdin, b ≠ 0) (hserver : 0 < capServer)
    (hclient : 0 < capClient) (hlen : stdin.length ≤ capServer + capClient + 1) :
    ((system capServer capClient stdin).restrict Uninterrupted).Ends fun s =>
      s.client.pc = .closed ∧ s.client.sent = stdin ∧ s.client.echoed <+: stdin := by
  refine .of_measure (μ := measure) (n := 8 * stdin.length + 3) ?_ ?_ ?_
  · rintro s ⟨⟨hpc, -⟩, hv, hin, hts, htc⟩
    have hwork : clientWork s.client = 1 := clientWork_of_ne_write (by simp [hpc]) (by simp [hpc])
    have hv : serverWork s.server = 2 := by simp [serverWork, hv, EchoProgram.PC.pending]
    simp only [measure, hin, hwork, hts, hv, htc, List.length_nil]
    omega
  · rintro s e t hr ⟨he, hst⟩
    exact measure_lt (single_reachable hr.of_restrict) hst he
  · intro s hr hterm
    have hf := flow_reachable hr.of_restrict
    have hs : ¬ Moves capServer capClient s := by
      rintro ⟨e, t, hst, he⟩
      exact hterm e t ⟨he, hst⟩
    have hr' := hr.of_restrict
    rcases stuck hf (ahead_reachable hr' hnul) (room_reachable hr') hserver hclient hs with hpc | hd
    · have hlines := hf.lines
      have hsent := hf.sent
      rw [stdin_of_closed hr hpc, List.append_nil] at hlines
      have hcstr : ∀ l ∈ s.client.lines, cstr l = l := by
        intro l hl
        exact cstr_eq_self fun b hb => hnul b (hlines ▸ List.mem_flatten.mpr ⟨l, hl, hb⟩)
      rw [unsent_of_ne_write (by simp [hpc]), List.append_nil, flatMap_cstr_eq hcstr,
        hlines] at hsent
      exact ⟨hpc, hsent, hsent ▸ hf.echoed ▸ hf.got⟩
    · have hle := hd.length_le hf
      omega

theorem ends_with_input_sent_smallest :
    ((system 1 1 [97, 98, 10]).restrict Uninterrupted).Ends fun s =>
      s.client.pc = .closed ∧ s.client.sent = [97, 98, 10] ∧ s.client.echoed <+: [97, 98, 10] :=
  ends_with_input_sent (by simp) one_pos one_pos (by simp)

end SystemCalls.EchoClient.Net

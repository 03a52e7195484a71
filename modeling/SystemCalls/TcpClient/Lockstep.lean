import SystemCalls.TcpClient.Client

/-!
# Client and server in step

Every byte the client sent is in one of four places: on its way to the server, held by
the server, on its way back, or received. The client takes one `recv` for the answer to
each line, so it stays in step just when each `recv` returns as many bytes as the line has.
-/

namespace SystemCalls.TcpClient

open Socket

variable {s t : Net} {e : Event} {stdin : List UInt8} {E : Execution Net Event}

/-- What the server has received and not yet sent back. -/
def held (s : TcpServer.State) : List UInt8 :=
  match s.pc with
  | .send n => s.buffer.bytes.take n
  | .accept | .recv | .terminated => []

theorem held_of_recv {v : TcpServer.State} (h : v.pc = .recv) : held v = [] := by
  simp [held, h]

theorem held_of_send {v : TcpServer.State} {n : ℕ} (h : v.pc = .send n) :
    held v = v.buffer.bytes.take n := by
  simp [held, h]

/-- No byte is lost, added or moved on the way to the server and back. -/
structure Conserved (s : Net) : Prop where
  toServer : accepted s.client.calls = received s.server.conversation ++ s.toServer
  server : received s.server.conversation = accepted s.server.conversation ++ held s.server
  toClient : accepted s.server.conversation = received s.client.calls ++ s.toClient

theorem conserved_step (h : Step s e t) (hs : Conserved s) : Conserved t := by
  obtain ⟨h₁, h₂, h₃⟩ := hs
  cases h with
  | prompt hc =>
    obtain ⟨-, rfl⟩ := step_prompt hc
    exact ⟨h₁, h₂, h₃⟩
  | fgets hc =>
    obtain ⟨-, rfl⟩ := step_fgets hc
    exact ⟨by simpa using h₁, h₂, by simpa using h₃⟩
  | clientSend hpc hc =>
    obtain ⟨len, hlen, rfl⟩ := step_send hc
    obtain rfl : _ = len := by simpa [hpc] using hlen
    refine ⟨?_, h₂, ?_⟩
    · simp [Call.accepted, h₁, List.take_take]
    · simpa [Call.received] using h₃
  | clientRecv hd hc =>
    obtain ⟨-, rfl⟩ := step_recv hc
    refine ⟨?_, h₂, ?_⟩
    · simpa [Call.accepted] using h₁
    · simp [Call.received, Recv.bytes, h₃, hd]
  | clientEof hd hclosed hc =>
    obtain ⟨-, rfl⟩ := step_recv hc
    refine ⟨?_, h₂, ?_⟩
    · simpa [Call.accepted] using h₁
    · simpa [Call.received, Recv.bytes] using h₃
  | @serverRecv v d rest hd hv =>
    obtain ⟨hpc, rfl⟩ := TcpServer.step_recv hv
    have hheld : held (TcpServer.onRecv s.server (.data d)) = d.bytes :=
      CharBuf.take_terminated _ (d.length_lt (by decide))
    refine ⟨?_, ?_, ?_⟩
    · simp [Call.received, Recv.bytes, h₁, hd]
    · simpa [Call.received, Call.accepted, Recv.bytes, hheld, held_of_recv hpc] using h₂
    · simpa [Call.accepted] using h₃
  | @serverSend v n hpc hv =>
    obtain ⟨m, hm, -, rfl⟩ := TcpServer.step_send hv
    obtain rfl : n = m := by simpa [hpc] using hm
    have hheld : held (TcpServer.onSend s.server n (.ok n)) = [] := rfl
    refine ⟨?_, ?_, ?_⟩
    · simpa [Call.received] using h₁
    · simpa [Call.received, Call.accepted, List.take_take, hheld, held_of_send hpc] using h₂
    · simp [Call.accepted, List.take_take, h₃]
  | serverEof hd hclosed hv =>
    obtain ⟨hpc, rfl⟩ := TcpServer.step_recv hv
    have hheld : held (TcpServer.onRecv s.server .eof) = [] := rfl
    refine ⟨?_, ?_, ?_⟩
    · simpa [Call.received, Recv.bytes] using h₁
    · simpa [Call.received, Call.accepted, Recv.bytes, hheld, held_of_recv hpc] using h₂
    · simpa [Call.accepted] using h₃

theorem conserved_reachable (h : (system stdin).Reachable s) : Conserved s := by
  refine h.invariant ?_ fun s e t hst hs => conserved_step hst hs
  rintro s₀ ⟨⟨-, -, hcalls, -⟩, ⟨hpc, hconv⟩, -, hts, htc⟩
  constructor <;> simp [hcalls, hconv, hts, htc, held, hpc]

/-- What the client sent, in the order in which it is still to be received. -/
theorem accepted_client (h : Conserved s) :
    accepted s.client.calls =
      received s.client.calls ++ (s.toClient ++ (held s.server ++ s.toServer)) := by
  rw [h.toServer, h.server, h.toClient, List.append_assoc, List.append_assoc]

/-! ### The client's own account -/

/-- The bytes printed as server echoes. -/
def echoed (out : List Line) : List UInt8 :=
  out.flatMap fun
    | .echo text => text
    | .prompt | .newline | .serverClosed | .closing | .perror _ _ => []

/-- A line has been read whose answer has not come yet. -/
def UnderWay : PC → Prop
  | .send _ | .recv => True
  | .prompt | .fgets | .closed => False

/-- The last chunk `fgets` returned. -/
def State.line (c : State) : List UInt8 := c.lines.getLastD []

/-- The lines before the one under way. -/
def earlier (c : State) : List (List UInt8) :=
  match c.pc with
  | .send _ | .recv => c.lines.dropLast
  | .prompt | .fgets | .closed => c.lines

/-- The lines whose `send` has returned. -/
def sentLines (c : State) : List (List UInt8) :=
  match c.pc with
  | .send _ => c.lines.dropLast
  | .prompt | .fgets | .recv | .closed => c.lines

/-- Of every line sent the bytes before its first NUL were sent. -/
structure Ledger (c : State) : Prop where
  lines_eq : UnderWay c.pc → c.lines = earlier c ++ [c.line]
  buffer_eq : ∀ len, c.pc = .send len → c.buffer.bytes.take len = cstr c.line
  accepted_eq : c.pc ≠ .closed → accepted c.calls = (sentLines c).flatMap cstr

theorem ledger_fgets {c : State} (hpc : c.pc = .fgets) (hc : Ledger c)
    (line : Option (Chunk maxRead)) : Ledger (onFgets c line) := by
  cases line with
  | none => exact ⟨False.elim, by simp [onFgets, State.close], by simp [onFgets, State.close]⟩
  | some line =>
    have hcstr := CharBuf.cstr_terminated c.buffer
      (line.length_lt (show maxRead < bufferSize by decide))
    refine ⟨?_, ?_, ?_⟩
    · simp [onFgets, earlier, State.line]
    · rintro len hlen
      obtain rfl : _ = len := by simpa [onFgets] using hlen
      have htake := List.prefix_iff_eq_take.mp
        (cstr_isPrefix (c.buffer.terminated line.bytes (line.length_lt (by decide))).bytes)
      simp only [onFgets, State.line, List.getLastD_concat]
      exact htake.symm.trans hcstr
    · have hacc := hc.accepted_eq (by simp [hpc])
      simpa [onFgets, sentLines, hpc] using hacc

theorem ledger_step (h : Step s e t) (hs : Ledger s.client) : Ledger t.client := by
  cases h with
  | prompt hc =>
    obtain ⟨hpc, rfl⟩ := step_prompt hc
    have hacc := hs.accepted_eq (by simp [hpc])
    exact ⟨False.elim, by simp, by simpa [State.print, sentLines, hpc] using hacc⟩
  | fgets hc =>
    obtain ⟨hpc, rfl⟩ := step_fgets hc
    exact ledger_fgets hpc hs _
  | @clientSend c len hpc hc =>
    obtain ⟨n, hn, rfl⟩ := step_send hc
    obtain rfl : len = n := by simpa [hpc] using hn
    have hlines := hs.lines_eq (by simp [hpc, UnderWay])
    have hacc := hs.accepted_eq (by simp [hpc])
    simp only [earlier, sentLines, hpc] at hlines hacc
    refine ⟨?_, by simp [onSend], ?_⟩
    · intro _
      simpa [onSend, State.call, earlier, State.line] using hlines
    · intro _
      simp only [onSend, State.call, sentLines, accepted_append, accepted_cons, Call.accepted,
        List.take_take, Nat.min_self]
      rw [hs.buffer_eq len hpc, hacc, hlines]
      simp
  | clientRecv hd hc =>
    obtain ⟨hpc, rfl⟩ := step_recv hc
    have hacc := hs.accepted_eq (by simp [hpc])
    refine ⟨False.elim, by simp [onRecv], ?_⟩
    simpa [onRecv, State.call, State.print, sentLines, hpc, Call.accepted] using hacc
  | clientEof hd hclosed hc =>
    obtain ⟨hpc, rfl⟩ := step_recv hc
    exact ⟨False.elim, by simp [onRecv, State.close], by simp [onRecv, State.close]⟩
  | serverRecv | serverSend | serverEof => exact hs

theorem ledger_reachable (h : (system stdin).Reachable s) : Ledger s.client := by
  refine h.invariant (P := fun s => Ledger s.client) ?_ fun s e t hst hs => ledger_step hst hs
  rintro s₀ ⟨⟨hpc, hlines, hcalls, -⟩, -⟩
  refine ⟨by simp [hpc, UnderWay], by simp [hpc], ?_⟩
  simp [sentLines, hpc, hlines, hcalls]

theorem closed_step (h : Step s e t) (hs : s.client.pc = .closed) : t.client.pc = .closed := by
  cases h with
  | prompt hc => simp [(step_prompt hc).1] at hs
  | fgets hc => simp [(step_fgets hc).1] at hs
  | clientSend hpc hc => simp [hpc] at hs
  | clientRecv hd hc => simp [(step_recv hc).1] at hs
  | clientEof hd hclosed hc => simp [(step_recv hc).1] at hs
  | serverRecv | serverSend | serverEof => exact hs

/-- Only a `recv` of the client changes what has been answered. -/
theorem quiet_step (h : Step s e t) (he : ∀ d, e ≠ .clientRecv d)
    (ht : t.client.pc ≠ .closed) :
    earlier t.client = earlier s.client ∧ echoed t.client.out = echoed s.client.out ∧
      received t.client.calls = received s.client.calls := by
  cases h with
  | prompt hc =>
    obtain ⟨hpc, rfl⟩ := step_prompt hc
    simp [earlier, hpc, State.print, echoed]
  | fgets hc =>
    obtain ⟨hpc, rfl⟩ := step_fgets hc
    cases hline : readLine s.stdin with
    | none => simp [hline, onFgets, State.close] at ht
    | some line => simp [earlier, hpc, onFgets]
  | clientSend hpc hc =>
    obtain ⟨len, hlen, rfl⟩ := step_send hc
    simp [earlier, hpc, onSend, State.call, Call.received]
  | clientRecv => exact (he _ rfl).elim
  | clientEof hd hclosed hc =>
    obtain ⟨-, rfl⟩ := step_recv hc
    simp [onRecv, State.close] at ht
  | serverRecv | serverSend | serverEof => exact ⟨rfl, rfl, rfl⟩

/-- One `recv` of the client: what it prints is cut at a NUL, and the prompt is next. -/
theorem recv_step {d : Chunk maxRead} (h : Step s (.clientRecv d) t) :
    s.client.pc = .recv ∧ t.client.pc = .prompt ∧ t.client.lines = s.client.lines ∧
      echoed t.client.out = echoed s.client.out ++ cstr d.bytes ∧
      received t.client.calls = received s.client.calls ++ d.bytes := by
  cases h with
  | clientRecv hd hc =>
    obtain ⟨hpc, rfl⟩ := step_recv hc
    have hcstr := CharBuf.cstr_terminated s.client.buffer
      (d.length_lt (show maxRead < bufferSize by decide))
    refine ⟨hpc, rfl, rfl, ?_, by simp [Call.received, Recv.bytes]⟩
    simpa [onRecv, State.call, State.print, echoed] using hcstr

/-- While the client is open, `Q` holds of the earlier lines, the echoes and the bytes
received. -/
def Account (Q : List (List UInt8) → List UInt8 → List UInt8 → Prop) (s : Net) : Prop :=
  s.client.pc ≠ .closed → Q (earlier s.client) (echoed s.client.out) (received s.client.calls)

theorem account_quiet {Q : List (List UInt8) → List UInt8 → List UInt8 → Prop}
    (h : Step s e t) (he : ∀ d, e ≠ .clientRecv d) (hs : Account Q s) : Account Q t := by
  intro ht
  obtain ⟨hear, hecho, hrecv⟩ := quiet_step h he ht
  rw [hear, hecho, hrecv]
  exact hs fun hclosed => ht (closed_step h hclosed)

/-- An account that holds of nothing and survives each `recv` of the client holds always. -/
theorem account_reachable {Q : List (List UInt8) → List UInt8 → List UInt8 → Prop}
    (h : (system stdin).Reachable s) (h₀ : Q [] [] [])
    (hrecv : ∀ s d t, (system stdin).Reachable s → Step s (.clientRecv d) t →
      Account Q s → Account Q t) : Account Q s := by
  refine h.invariant_of_reachable ?_ ?_
  · rintro s₀ ⟨⟨hpc, hlines, hcalls, hout⟩, -⟩ -
    simpa [earlier, hpc, hlines, hcalls, hout, echoed] using h₀
  · intro s e t hr hst hs
    by_cases he : ∃ d, e = .clientRecv d
    · obtain ⟨d, rfl⟩ := he
      exact hrecv s d t hr hst hs
    · push Not at he
      exact account_quiet hst he hs

/-- No more is printed as echo than was received. -/
theorem length_echoed_le (h : (system stdin).Reachable s) (hs : s.client.pc ≠ .closed) :
    (echoed s.client.out).length ≤ (received s.client.calls).length := by
  refine account_reachable (Q := fun _ echoes bytes => echoes.length ≤ bytes.length) h
    (Nat.le_refl _) ?_ hs
  intro s d t _ hst ih _
  obtain ⟨hpc, -, -, hecho, hrecv⟩ := recv_step hst
  have hprev := ih (by simp [hpc])
  have hle := length_cstr_le d.bytes
  rw [hecho, hrecv, List.length_append, List.length_append]
  omega

/-! ### In step -/

/-- At the prompt, what was printed as echoes is what was read so far. -/
def InStep (s : Net) : Prop :=
  s.client.pc = .prompt → echoed s.client.out = s.client.lines.flatten

/-- Every line before the one under way was echoed. -/
def Answered (s : Net) : Prop :=
  s.client.pc ≠ .closed → echoed s.client.out = (earlier s.client).flatten

/-- And nothing but these lines was received. -/
def Drained (s : Net) : Prop :=
  s.client.pc ≠ .closed → received s.client.calls = (earlier s.client).flatten

theorem answered_quiet (h : Step s e t) (he : ∀ d, e ≠ .clientRecv d) (hs : Answered s) :
    Answered t :=
  account_quiet (Q := fun lines echoes _ => echoes = lines.flatten) h he hs

theorem drained_quiet (h : Step s e t) (he : ∀ d, e ≠ .clientRecv d) (hs : Drained s) :
    Drained t :=
  account_quiet (Q := fun lines _ bytes => bytes = lines.flatten) h he hs

/-- What the client can have received after a `recv`: no more than the lines it sent. -/
theorem received_recv {d : Chunk maxRead} (hr : (system stdin).Reachable s)
    (h : Step s (.clientRecv d) t) :
    s.client.lines = earlier s.client ++ [s.client.line] ∧
      ∃ rest, s.client.lines.flatMap cstr = received s.client.calls ++ d.bytes ++ rest := by
  obtain ⟨hpc, hpc', hlines, -, hrecv⟩ := recv_step h
  refine ⟨(ledger_reachable hr).lines_eq (by simp [hpc, UnderWay]), ?_⟩
  have hrt : (system stdin).Reachable t := hr.step h
  have hacc := (ledger_reachable hrt).accepted_eq (by simp [hpc'])
  rw [accepted_client (conserved_reachable hrt), hrecv] at hacc
  refine ⟨t.toClient ++ (held t.server ++ t.toServer), ?_⟩
  rw [hacc, ← hlines]
  simp [sentLines, hpc']

/-- A `recv` that returns as many bytes as the line has returns the line, and the line has
no NUL. -/
theorem recv_eq_line {d : Chunk maxRead} (hr : (system stdin).Reachable s)
    (h : Step s (.clientRecv d) t) (hs : Drained s)
    (hd : d.bytes.length = s.client.line.length) :
    d.bytes = s.client.line ∧ cstr d.bytes = d.bytes := by
  obtain ⟨hlines, rest, hrest⟩ := received_recv hr h
  have hpc := (recv_step h).1
  rw [hs (by simp [hpc])] at hrest
  have hflat : s.client.lines.flatten = (earlier s.client).flatten ++ s.client.line := by
    conv_lhs => rw [hlines]
    simp
  have hcstr : ∀ l ∈ s.client.lines, cstr l = l := by
    refine cstr_eq_of_length ?_
    rw [hflat, hrest]
    simp only [List.length_append]
    omega
  rw [flatMap_cstr_eq hcstr, hflat, List.append_assoc, List.append_cancel_left_eq] at hrest
  have hline : d.bytes = s.client.line := by
    have hpre : d.bytes <+: s.client.line := hrest ▸ List.prefix_append _ _
    exact hpre.eq_of_length hd
  refine ⟨hline, ?_⟩
  rw [hline]
  exact hcstr _ (by rw [hlines]; simp)

theorem answered_initial (h : Connected stdin s) : Answered s ∧ Drained s := by
  obtain ⟨hpc, hlines, hcalls, hout⟩ := h.client
  constructor <;> intro _ <;> simp [earlier, hpc, hlines, hcalls, hout, echoed]

/-- Every `recv` of the client returns as many bytes as the line it just sent has. -/
def WholeAnswers (E : Execution Net Event) : Prop :=
  ∀ n d, E.event n = some (.clientRecv d) → d.bytes.length = (E.state n).client.line.length

theorem answered_of_whole (h : (system stdin).Valid E) (hE : WholeAnswers E) (n : ℕ) :
    Answered (E.state n) ∧ Drained (E.state n) := by
  induction n with
  | zero => exact answered_initial h.1
  | succ n ih =>
    obtain ⟨hans, hdr⟩ := ih
    cases he : E.event n with
    | none =>
      rw [h.of_none he]
      exact ⟨hans, hdr⟩
    | some e =>
      have hst : Step (E.state n) e (E.state (n + 1)) := h.of_some he
      by_cases hrec : ∃ d, e = .clientRecv d
      · obtain ⟨d, rfl⟩ := hrec
        obtain ⟨hpc, hpc', hlines, hecho, hrecv⟩ := recv_step hst
        obtain ⟨hd, hcstr⟩ := recv_eq_line (h.reachable n) hst hdr (hE n d he)
        have heq := (received_recv (h.reachable n) hst).1
        have hear : earlier (E.state (n + 1)).client =
            earlier (E.state n).client ++ [d.bytes] := by
          rw [hd, ← heq, ← hlines]
          simp [earlier, hpc']
        have hopen : (E.state n).client.pc ≠ .closed := by simp [hpc]
        refine ⟨fun _ => ?_, fun _ => ?_⟩
        · rw [hecho, hear, hans hopen, hcstr]
          simp
        · rw [hrecv, hear, hdr hopen]
          simp
      · push Not at hrec
        exact ⟨answered_quiet hst hrec hans, drained_quiet hst hrec hdr⟩

theorem answered_of_inStep (h : (system stdin).Valid E) (hE : ∀ n, InStep (E.state n)) (n : ℕ) :
    Answered (E.state n) := by
  induction n with
  | zero => exact (answered_initial h.1).1
  | succ n ih =>
    cases he : E.event n with
    | none => simpa [h.of_none he] using ih
    | some e =>
      have hst : Step (E.state n) e (E.state (n + 1)) := h.of_some he
      by_cases hrec : ∃ d, e = .clientRecv d
      · obtain ⟨d, rfl⟩ := hrec
        have hpc' := (recv_step hst).2.1
        intro _
        simpa [earlier, hpc'] using hE (n + 1) hpc'
      · push Not at hrec
        exact answered_quiet hst hrec ih

/-- For every input of the client and every schedule. -/
theorem in_step_iff (h : (system stdin).Valid E) :
    (∀ n, InStep (E.state n)) ↔ WholeAnswers E := by
  constructor
  · intro hE n d he
    have hst : Step (E.state n) (.clientRecv d) (E.state (n + 1)) := h.of_some he
    obtain ⟨hpc, hpc', hlines, hecho, -⟩ := recv_step hst
    have hopen : (E.state n).client.pc ≠ .closed := by simp [hpc]
    have hans := answered_of_inStep h hE n hopen
    obtain ⟨heq, rest, hrest⟩ := received_recv (h.reachable n) hst
    have hflat : (E.state n).client.lines.flatten =
        (earlier (E.state n).client).flatten ++ (E.state n).client.line := by
      conv_lhs => rw [heq]
      simp
    -- What is printed now is the whole line, so at least as much was received.
    have hline : cstr d.bytes = (E.state n).client.line := by
      have hnext := hE (n + 1) hpc'
      rw [hecho, hlines, hans, hflat, List.append_cancel_left_eq] at hnext
      exact hnext
    have hge := length_cstr_le d.bytes
    -- And no more: the earlier lines were received too, and no line is sent longer than it is.
    have hsent := length_flatMap_cstr_le (E.state n).client.lines
    have hprev := length_echoed_le (h.reachable n) hopen
    rw [hrest, hflat] at hsent
    rw [hans] at hprev
    rw [hline] at hge
    simp only [List.length_append] at hsent
    omega
  · intro hE n hpc
    have hans := (answered_of_whole h hE n).1 (by simp [hpc])
    simpa [earlier, hpc] using hans

/-- A connection just made, with NULs in both arrays. -/
def connected (stdin : List UInt8) : Net :=
  ⟨⟨.prompt, .zero _, [], [], []⟩, ⟨.recv, .zero _, ⟨"127.0.0.1", 40000⟩, [], [], []⟩,
    stdin, [], []⟩

theorem connected_initial (stdin : List UInt8) : (system stdin).initial (connected stdin) :=
  ⟨⟨rfl, rfl, rfl, rfl⟩, ⟨rfl, rfl⟩, rfl, rfl, rfl⟩

/-- The line "a\n" comes back whole. -/
theorem in_step_one_line :
    ∃ E, (system [97, 10]).Valid E ∧ (E.state 6).client.pc = .prompt ∧
      (E.state 6).client.lines = [[97, 10]] ∧ ∀ n, InStep (E.state n) := by
  let d : Chunk 1023 := ⟨[97, 10], by decide, by decide⟩
  let xs : List Event := [.prompt, .fgets, .clientSend, .serverRecv d, .serverSend, .clientRecv d]
  have htrace : ∃ t, (system [97, 10]).Trace (connected [97, 10]) xs t ∧
      t.client.pc = .prompt ∧ t.client.lines = [[97, 10]] :=
    ⟨_, .stepL (.prompt rfl) (.stepL (.fgets rfl) (.stepL (.clientSend rfl rfl)
      (.stepL (.serverRecv rfl rfl) (.stepL (.serverSend rfl rfl)
        (.stepL (.clientRecv rfl rfl) .refl))))), rfl, rfl⟩
  obtain ⟨t, ht, hpc, hlines⟩ := htrace
  obtain ⟨E, hE, -, hev, hlast⟩ := ht.exists_padding (connected_initial _)
  have h6 : E.state 6 = t := hlast 6 (by simp [xs])
  refine ⟨E, hE, by rw [h6, hpc], by rw [h6, hlines], (in_step_iff hE).mpr ?_⟩
  intro n d' he
  have hn : n = 5 ∧ d' = d := by
    rcases n with _ | _ | _ | _ | _ | _ | n <;> simp [hev, xs] at he
    exact ⟨rfl, he.symm⟩
  obtain ⟨rfl, rfl⟩ := hn
  have hst : Step (E.state 5) (.clientRecv d) (E.state 6) := hE.of_some he
  have hsame := (recv_step hst).2.2.1
  rw [h6, hlines] at hsame
  simp [State.line, ← hsame, d]

/-- Only the first byte of the line "ab\n" comes back in the `recv` for it. -/
theorem out_of_step_after_one_byte :
    ∃ t, (system [97, 98, 10]).Reachable t ∧ t.client.pc = .prompt ∧
      t.client.lines = [[97, 98, 10]] ∧ echoed t.client.out = [97] ∧ ¬ InStep t := by
  let d : Chunk 1023 := ⟨[97, 98, 10], by decide, by decide⟩
  let d' : Chunk 1023 := ⟨[97], by decide, by decide⟩
  have htrace : ∃ xs t, (system [97, 98, 10]).Trace (connected [97, 98, 10]) xs t ∧
      t.client.pc = .prompt ∧ t.client.lines = [[97, 98, 10]] ∧ echoed t.client.out = [97] :=
    ⟨_, _, .stepL (.prompt rfl) (.stepL (.fgets rfl) (.stepL (.clientSend rfl rfl)
      (.stepL (.serverRecv (d := d) rfl rfl) (.stepL (.serverSend rfl rfl)
        (.stepL (.clientRecv (d := d') rfl rfl) .refl))))), rfl, rfl, rfl⟩
  obtain ⟨xs, t, ht, hpc, hlines, hecho⟩ := htrace
  refine ⟨t, ⟨_, xs, connected_initial _, ht⟩, hpc, hlines, hecho, ?_⟩
  intro h
  have heq := h hpc
  rw [hecho, hlines] at heq
  simp at heq

end SystemCalls.TcpClient

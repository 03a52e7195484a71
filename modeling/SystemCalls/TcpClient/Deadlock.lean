import SystemCalls.TcpClient.Lockstep

/-!
# When client and server wait for each other

The client waits for an answer to every line it reads, also to one of which it sent
nothing: a line that begins with a NUL.
-/

namespace SystemCalls.TcpClient

open Socket

variable {s t : Net} {e : Event} {stdin : List UInt8}

/-- Both blocked in `recv`, with nothing on the way and neither side closed. -/
def Deadlocked (s : Net) : Prop :=
  s.client.pc = .recv ∧ s.server.pc = .recv ∧ s.toServer = [] ∧ s.toClient = []

/-- What `fgets` leaves of the input. -/
def afterLine (stdin : List UInt8) : List UInt8 :=
  stdin.drop (Stdio.fgets maxRead stdin).length

theorem length_afterLine_lt (h : stdin ≠ []) : (afterLine stdin).length < stdin.length := by
  have hline := List.length_pos_iff.mpr (Stdio.fgets_ne_nil (show 0 < maxRead by decide) h)
  have hstdin := List.length_pos_iff.mpr h
  rw [afterLine, List.length_drop]
  omega

/-- The chunks `fgets` cuts the input into, one call after another. -/
def chunks (stdin : List UInt8) : List (List UInt8) :=
  if _ : stdin = [] then [] else Stdio.fgets maxRead stdin :: chunks (afterLine stdin)
termination_by stdin.length
decreasing_by apply length_afterLine_lt; assumption

theorem chunks_of_ne_nil (h : stdin ≠ []) :
    chunks stdin = Stdio.fgets maxRead stdin :: chunks (afterLine stdin) := by
  rw [chunks, dif_neg h]

theorem ne_nil_of_mem_chunks {c : List UInt8} (hc : c ∈ chunks stdin) : c ≠ [] := by
  fun_induction chunks stdin with
  | case1 => simp at hc
  | case2 stdin hin ih =>
    rcases List.mem_cons.mp hc with rfl | hc
    · exact Stdio.fgets_ne_nil (by decide) hin
    · exact ih hc

/-! ### Safety -/

/-- The lines read and the chunks to come are those of the whole input. -/
theorem lines_append_chunks (h : (system stdin).Reachable s) :
    s.client.lines ++ chunks s.stdin = chunks stdin := by
  refine h.invariant (P := fun s => s.client.lines ++ chunks s.stdin = chunks stdin) ?_ ?_
  · rintro s₀ ⟨⟨-, hlines, -⟩, -, hin, -⟩
    simp [hlines, hin]
  · intro s e t hst hs
    cases hst with
    | prompt hc =>
      obtain ⟨-, rfl⟩ := step_prompt hc
      exact hs
    | fgets hc =>
      obtain ⟨-, rfl⟩ := step_fgets hc
      by_cases hin : s.stdin = []
      · simpa [readLine, hin, onFgets, State.print, State.close] using hs
      · rw [chunks_of_ne_nil hin] at hs
        simpa [readLine, hin, onFgets, afterLine] using hs
    | clientSend hpc hc =>
      obtain ⟨len, -, rfl⟩ := step_send hc
      exact hs
    | clientRecv hd hc =>
      obtain ⟨-, rfl⟩ := step_recv hc
      exact hs
    | clientEof hd hclosed hc =>
      obtain ⟨-, rfl⟩ := step_recv hc
      exact hs
    | serverRecv | serverSend | serverEof => exact hs

/-- The client has received no more than what it sent for the earlier lines. -/
theorem length_received_le (h : (system stdin).Reachable s) (hs : s.client.pc ≠ .closed) :
    (received s.client.calls).length ≤ ((earlier s.client).flatMap cstr).length := by
  refine account_reachable
    (Q := fun lines _ bytes => bytes.length ≤ (lines.flatMap cstr).length) h
    (Nat.le_refl _) ?_ hs
  intro s d t hr hst _ _
  obtain ⟨-, hpc', hlines, -, hrecv⟩ := recv_step hst
  obtain ⟨-, rest, hrest⟩ := received_recv hr hst
  have hear : earlier t.client = s.client.lines := by simp [earlier, hpc', hlines]
  rw [hear, hrest, hrecv]
  simp

theorem cstr_line_of_deadlocked (h : (system stdin).Reachable s) (hd : Deadlocked s) :
    s.client.line ∈ chunks stdin ∧ cstr s.client.line = [] := by
  obtain ⟨hpc, hserver, hts, htc⟩ := hd
  have hlines := (ledger_reachable h).lines_eq (by simp [hpc, UnderWay])
  have hacc := (ledger_reachable h).accepted_eq (by simp [hpc])
  have hle := length_received_le h (by simp [hpc])
  rw [accepted_client (conserved_reachable h), hts, htc, held_of_recv hserver] at hacc
  have hsent : sentLines s.client = earlier s.client ++ [s.client.line] := by
    rw [← hlines]
    simp [sentLines, hpc]
  rw [hsent] at hacc
  have hlen := congrArg List.length hacc
  simp only [List.append_nil, List.flatMap_append, List.flatMap_singleton,
    List.length_append] at hlen
  refine ⟨?_, List.length_eq_zero_iff.mp (by omega)⟩
  rw [← lines_append_chunks h, hlines]
  simp

/-! ### The schedule in lockstep -/

/-- At the prompt with nothing on the way. -/
def AtRest (s : Net) : Prop :=
  s.client.pc = .prompt ∧ s.server.pc = .recv ∧ s.toServer = [] ∧ s.toClient = []

/-- The client reads a line and sends it. -/
theorem exists_ask (stdin : List UInt8) (hs : AtRest s) (hin : s.stdin ≠ []) :
    ∃ xs t, (system stdin).Trace s xs t ∧ t.client.pc = .recv ∧ t.server.pc = .recv ∧
      t.toServer = cstr (Stdio.fgets maxRead s.stdin) ∧ t.toClient = [] ∧
      t.stdin = afterLine s.stdin := by
  obtain ⟨hpc, hserver, hts, htc⟩ := hs
  let line : Chunk maxRead := ⟨Stdio.fgets maxRead s.stdin, Stdio.fgets_ne_nil (by decide) hin,
    Stdio.length_fgets_le maxRead s.stdin⟩
  let buffer := s.client.buffer.terminated line.bytes (line.length_lt (by decide))
  let len := (cstr buffer.bytes).length
  let c₁ : State := { s.client.print .prompt with pc := .fgets }
  let c₂ := onFgets c₁ (some line)
  have htake : buffer.bytes.take len = cstr line.bytes := by
    rw [← List.prefix_iff_eq_take.mp (cstr_isPrefix buffer.bytes)]
    exact CharBuf.cstr_terminated _ _
  have h₁ : Step s .prompt { s with client := c₁ } := .prompt (by simp [step, hpc, c₁])
  have h₂ : Step { s with client := c₁ } .fgets
      { s with client := c₂, stdin := afterLine s.stdin } :=
    .fgets (by simp [step, readLine, hin, c₁, c₂, line])
  have h₃ : Step { s with client := c₂, stdin := afterLine s.stdin } .clientSend
      { s with
        client := onSend c₂ len (.ok len)
        stdin := afterLine s.stdin
        toServer := s.toServer ++ buffer.bytes.take len } :=
    .clientSend rfl rfl
  refine ⟨_, _, .stepL h₁ (.stepL h₂ (.stepL h₃ .refl)), rfl, hserver, ?_, htc, rfl⟩
  simp [hts, htake, line]

/-- The server echoes what was sent, and the client receives it, each in one piece. -/
theorem exists_answer (stdin : List UInt8) (hpc : s.client.pc = .recv)
    (hserver : s.server.pc = .recv) (hne : s.toServer ≠ [])
    (hle : s.toServer.length ≤ maxRead) (htc : s.toClient = []) :
    ∃ xs t, (system stdin).Trace s xs t ∧ AtRest t ∧ t.stdin = s.stdin := by
  let d : Chunk maxRead := ⟨s.toServer, hne, hle⟩
  let v := TcpServer.onRecv s.server (.data d)
  have hbuf : v.buffer.bytes.take d.bytes.length = d.bytes :=
    CharBuf.take_terminated _ (d.length_lt (by decide))
  have h₁ : Step s (.serverRecv d) { s with server := v, toServer := [] } :=
    .serverRecv (by simp [d]) (by simp [TcpServer.step, hserver, v])
  have h₂ : Step { s with server := v, toServer := [] } .serverSend
      { s with
        server := TcpServer.onSend v d.bytes.length (.ok d.bytes.length)
        toServer := []
        toClient := s.toClient ++ v.buffer.bytes.take d.bytes.length } :=
    .serverSend rfl (TcpServer.step_of_sendResult rfl ⟨d.length_pos, Nat.le_refl _⟩)
  have h₃ : Step
      { s with
        server := TcpServer.onSend v d.bytes.length (.ok d.bytes.length)
        toServer := []
        toClient := s.toClient ++ v.buffer.bytes.take d.bytes.length }
      (.clientRecv d)
      { s with
        client := onRecv s.client (.data d)
        server := TcpServer.onSend v d.bytes.length (.ok d.bytes.length)
        toServer := []
        toClient := [] } :=
    .clientRecv (by simp [htc, hbuf]) (by simp [step, hpc])
  exact ⟨_, _, .stepL h₁ (.stepL h₂ (.stepL h₃ .refl)), ⟨rfl, rfl, rfl, rfl⟩, rfl⟩

/-- Line by line up to the first that begins with a NUL. -/
theorem exists_deadlock (stdin : List UInt8) (hs : AtRest s)
    (hc : ∃ c ∈ chunks s.stdin, cstr c = []) :
    ∃ xs t, (system stdin).Trace s xs t ∧ Deadlocked t := by
  induction hn : s.stdin.length using Nat.strong_induction_on generalizing s with
  | _ n ih =>
    have hin : s.stdin ≠ [] := by
      intro hnil
      simp [hnil, chunks] at hc
    obtain ⟨xs, t, hx, hpc, hserver, hts, htc, hrest⟩ := exists_ask stdin hs hin
    by_cases hnul : cstr (Stdio.fgets maxRead s.stdin) = []
    · exact ⟨xs, t, hx, hpc, hserver, hts.trans hnul, htc⟩
    · have hle : t.toServer.length ≤ maxRead := by
        rw [hts]
        exact (length_cstr_le _).trans (Stdio.length_fgets_le _ _)
      obtain ⟨ys, u, hy, hu, hstdin⟩ := exists_answer stdin hpc hserver (hts ▸ hnul) hle htc
      have hc' : ∃ c ∈ chunks u.stdin, cstr c = [] := by
        rw [chunks_of_ne_nil hin] at hc
        simpa [hstdin, hrest, hnul] using hc
      have hlt : u.stdin.length < n := by
        rw [hstdin, hrest, ← hn]
        exact length_afterLine_lt hin
      obtain ⟨zs, w, hz, hw⟩ := ih _ hlt hu hc' rfl
      exact ⟨xs ++ (ys ++ zs), w, hx.append (hy.append hz), hw⟩

/-- For every input, under every schedule: no deadlock just when no chunk that `fgets` cuts
from the input begins with a NUL. -/
theorem deadlock_free_iff (stdin : List UInt8) :
    (∀ s, (system stdin).Reachable s → ¬ Deadlocked s) ↔
      ∀ c ∈ chunks stdin, c.head? ≠ some 0 := by
  constructor
  · intro h c hc hnul
    have hrest : AtRest (connected stdin) := ⟨rfl, rfl, rfl, rfl⟩
    have hcstr : cstr c = [] := (cstr_eq_nil_iff (ne_nil_of_mem_chunks hc)).mpr hnul
    obtain ⟨xs, t, hx, ht⟩ := exists_deadlock stdin hrest ⟨c, hc, hcstr⟩
    exact h t ⟨_, xs, connected_initial stdin, hx⟩ ht
  · intro h s hr hd
    obtain ⟨hmem, hcstr⟩ := cstr_line_of_deadlocked hr hd
    exact h _ hmem ((cstr_eq_nil_iff (ne_nil_of_mem_chunks hmem)).mp hcstr)

/-- A line of one NUL: the client sends nothing of it and waits for the answer. -/
theorem deadlocked_by_nul_line : ∃ s, (system [0, 10]).Reachable s ∧ Deadlocked s := by
  have htrace : ∃ xs t, (system [0, 10]).Trace (connected [0, 10]) xs t ∧ Deadlocked t :=
    ⟨_, _, .stepL (.prompt rfl) (.stepL (.fgets rfl) (.stepL (.clientSend rfl rfl) .refl)),
      rfl, rfl, rfl, rfl⟩
  obtain ⟨xs, t, hx, ht⟩ := htrace
  exact ⟨t, ⟨_, xs, connected_initial _, hx⟩, ht⟩

end SystemCalls.TcpClient

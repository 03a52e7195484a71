import SystemCalls.EchoClient.Client

/-!
# What the echo client prints

Every byte the client has written is in exactly one place until it is read back.
-/

namespace SystemCalls.EchoClient

open Socket WriteLoops

section Client

variable {s t : State} {len k n : ℕ} {chunk : Chunk maxRead}

@[simp] theorem onFgets_sent (r : Option (Chunk maxRead)) : (onFgets s r).sent = s.sent := by
  cases r <;> rfl

@[simp] theorem onFgets_got (r : Option (Chunk maxRead)) : (onFgets s r).got = s.got := by
  cases r <;> rfl

@[simp] theorem onFgets_echoed (r : Option (Chunk maxRead)) :
    (onFgets s r).echoed = s.echoed := by
  cases r <;> simp [onFgets, State.echoed, Line.echoed]

theorem unsent_of_ne_write (h : ∀ len sent, s.pc ≠ .write len sent) : s.unsent = [] := by
  unfold State.unsent
  split
  next len sent hpc => exact (h len sent hpc).elim
  next => rfl

theorem unsent_of_write (h : s.pc = .write len k) :
    s.unsent = (s.line.bytes.take len).drop k := by
  simp [State.unsent, h]

theorem unsent_whileSent (h : s.pc = .whileSent len k) :
    s.unsent = (s.line.bytes.take len).drop k := by
  by_cases hk : k < len
  · exact unsent_of_write (by rw [h, PC.whileSent, if_pos hk])
  · have hread : s.pc = .read := by rw [h, PC.whileSent, if_neg hk]
    rw [unsent_of_ne_write (by simp [hread]), eq_comm, List.drop_eq_nil_iff, List.length_take]
    omega

/-- The line is written up to its first NUL. -/
theorem unsent_onFgets : (onFgets s (some chunk)).unsent = cstr chunk.bytes := by
  have hlen : chunk.bytes.length < lineSize := chunk.length_lt (by decide)
  have hcstr : cstr (s.line.terminated chunk.bytes hlen).bytes = cstr chunk.bytes :=
    CharBuf.cstr_terminated _ _
  have hpre := List.prefix_iff_eq_take.mp (cstr_isPrefix (s.line.terminated chunk.bytes hlen).bytes)
  rw [unsent_whileSent rfl, List.drop_zero, ← hcstr]
  exact hpre.symm

theorem unsent_onWrite (h : s.pc = .write len k) :
    (onWrite s len k (.count n)).unsent = s.unsent.drop n := by
  rw [unsent_whileSent rfl, unsent_of_write h, List.drop_drop]
  rfl

/-- The arguments of `write` are inside the array. -/
def Writing (s : State) : Prop :=
  ∀ len k, s.pc = .write len k → k < len ∧ len ≤ lineSize

theorem writing_whileSent (h : s.pc = .whileSent len k) (hle : len ≤ lineSize) : Writing s := by
  intro len' k' hpc
  rw [h, PC.whileSent] at hpc
  split at hpc
  next hk =>
    cases hpc
    exact ⟨hk, hle⟩
  next => cases hpc

theorem writing_of_ne_write (h : ∀ len k, s.pc ≠ .write len k) : Writing s :=
  fun len k hpc => (h len k hpc).elim

theorem whileSent_ne_died : PC.whileSent len k ≠ .died := by
  unfold PC.whileSent
  split <;> nofun

theorem onFgets_ne_died (r : Option (Chunk maxRead)) : (onFgets s r).pc ≠ .died := by
  cases r with
  | none => nofun
  | some c => exact whileSent_ne_died

theorem writing_onFgets (r : Option (Chunk maxRead)) : Writing (onFgets s r) := by
  cases r with
  | none => exact writing_of_ne_write nofun
  | some c =>
    refine writing_whileSent rfl ((length_cstr_le _).trans_eq ?_)
    exact CharBuf.length_bytes _

/-- `continue` comes back to the same call. -/
theorem write_interrupted (hs : Writing s) (h : step s (.write (.error .eintr)) = some t) :
    t = s := by
  obtain ⟨len, k, hpc, rfl⟩ := step_write h
  obtain ⟨pc, line, lines, sent, got, out⟩ := s
  obtain rfl : pc = .write len k := hpc
  simp [onWrite, PC.whileSent, (hs len k rfl).1]

theorem length_unsent_pos (hs : Writing s) (h : s.pc = .write len k) : 0 < s.unsent.length := by
  obtain ⟨hk, hlen⟩ := hs len k h
  rw [unsent_of_write h, List.length_drop, List.length_take, s.line.length_bytes]
  omega

end Client

section Server

variable {v w : EchoProgram.State} {n : ℕ} {chunk : Chunk EchoProgram.BUF_SZ}

/-- In the loop of connection 0. -/
def Serving (v : EchoProgram.State) : Prop :=
  v.pc = .read 0 ∨ ∃ chunk off, v.pc = .write 0 chunk off ∧ off < chunk.length

theorem serving_whileOff {chunk : List UInt8} {off : ℕ} (h : v.pc = .whileOff 0 chunk off) :
    Serving v := by
  unfold EchoProgram.PC.whileOff at h
  split at h
  next hoff => exact .inr ⟨chunk, off, h, hoff⟩
  next => exact .inl h

theorem serving_read (hv : Serving v) (h : EchoProgram.Step v (.read (.data chunk)) w) :
    Serving w ∧ v.pc.pending 0 = [] ∧ w.pc.pending 0 = chunk.bytes := by
  cases h with
  | data hpc =>
    rcases hv with hv | ⟨c, off, hv, _⟩
    · obtain rfl : 0 = _ := by simpa [hpc] using hv.symm
      refine ⟨serving_whileOff rfl, by rw [hv]; rfl, ?_⟩
      exact EchoProgram.pending_whileOff
    · rw [hv] at hpc
      cases hpc

theorem serving_write (hv : Serving v) (h : EchoProgram.Step v (.write (.count n)) w) :
    Serving w ∧ n ≤ (v.pc.pending 0).length ∧
      w.pc.pending 0 = (v.pc.pending 0).drop n := by
  cases h with
  | @write i off _ chunk hpc hn =>
    rcases hv with hv | ⟨c, off', hv, _⟩
    · rw [hv] at hpc
      cases hpc
    · rw [hv] at hpc
      cases hpc
      refine ⟨serving_whileOff rfl, ?_, ?_⟩
      · have hle : n ≤ chunk.length - off := hn
        simpa [hv, EchoProgram.PC.pending] using hle
      · rw [hv]
        simp only [EchoProgram.PC.pending, if_true, List.drop_drop]
        exact EchoProgram.pending_whileOff

theorem not_close_of_serving (hv : Serving v) : ¬ EchoProgram.Step v .close w := by
  intro h
  cases h with
  | close hpc => rcases hv with hv | ⟨c, off, hv, _⟩ <;> simp [hv] at hpc

end Server

namespace Net

variable {s t : Net} {e : Event} {stdin : List UInt8} {capServer capClient : ℕ}

/-- The bytes on their way, the oldest first. -/
def onTheWay (s : Net) : List UInt8 :=
  s.toClient ++ s.server.pc.pending 0 ++ s.toServer

/-- What holds while the client has not left its loop. -/
structure Open (s : Net) : Prop where
  serving : Serving s.server
  flow : s.client.got ++ s.onTheWay = s.client.sent

/-- What holds in every run. -/
structure Flow (stdin : List UInt8) (s : Net) : Prop where
  lines : s.client.lines.flatten ++ s.stdin = stdin
  sent : s.client.sent ++ s.client.unsent = s.client.lines.flatMap cstr
  got : s.client.got <+: s.client.sent
  echoed : s.client.echoed = s.client.got
  running : s.client.pc ≠ .closed → Open s
  writing : Writing s.client
  alive : s.client.pc ≠ .died

/-- A byte that is sent is not a NUL. -/
theorem Flow.ne_zero (h : Flow stdin s) {b : UInt8} (hb : b ∈ s.client.sent) : b ≠ 0 := by
  have hmem : b ∈ s.client.lines.flatMap cstr := h.sent ▸ List.mem_append_left _ hb
  obtain ⟨l, _, hl⟩ := List.mem_flatMap.mp hmem
  simpa [cstr] using List.mem_takeWhile_imp hl

/-- A step that concerns the server alone. -/
theorem Flow.of_client_eq (hs : Flow stdin s) (hc : t.client = s.client) (hin : t.stdin = s.stdin)
    (ht : s.client.pc ≠ .closed → Open t) : Flow stdin t where
  lines := by rw [hc, hin]; exact hs.lines
  sent := hc ▸ hs.sent
  got := hc ▸ hs.got
  echoed := hc ▸ hs.echoed
  running := hc ▸ ht
  writing := hc ▸ hs.writing
  alive := hc ▸ hs.alive

theorem flow_fgets {c : State} (hs : Flow stdin s)
    (hc : step s.client (.fgets (readLine s.stdin)) = some c) :
    Flow stdin { s with
      client := c
      stdin := s.stdin.drop (Stdio.fgets maxRead s.stdin).length } := by
  obtain ⟨hpc, rfl⟩ := step_fgets hc
  have hsent := hs.sent
  rw [unsent_of_ne_write (by simp [hpc]), List.append_nil] at hsent
  obtain ⟨hserving, hflow⟩ := hs.running (by simp [hpc])
  refine ⟨?_, ?_, by simpa using hs.got, by simpa using hs.echoed, fun _ => ?_,
    writing_onFgets _, onFgets_ne_died _⟩
  · by_cases hin : s.stdin = []
    · simpa [readLine, hin, onFgets] using hs.lines
    · rw [← hs.lines]
      simp [readLine, hin, onFgets, Stdio.fgets_append_drop]
  · by_cases hin : s.stdin = []
    · simpa [readLine, hin, onFgets, State.unsent] using hsent
    · simp only [readLine, dif_neg hin, unsent_onFgets]
      simp [onFgets, hsent]
  · exact ⟨hserving, by simpa [onTheWay] using hflow⟩

theorem flow_clientWrite {c : State} {n : ℕ} (hs : Flow stdin s)
    (hc : step s.client (.write (.count n)) = some c) :
    Flow stdin { s with
      client := c
      toServer := s.toServer ++ s.client.unsent.take n } := by
  obtain ⟨len, k, hpc, rfl⟩ := step_write hc
  obtain ⟨hserving, hflow⟩ := hs.running (by simp [hpc])
  refine ⟨hs.lines, ?_, hs.got.trans (List.prefix_append _ _), hs.echoed, fun _ => ?_,
    writing_whileSent rfl (hs.writing _ _ hpc).2, whileSent_ne_died⟩
  · rw [unsent_onWrite hpc]
    simpa [onWrite] using hs.sent
  · refine ⟨hserving, ?_⟩
    simp only [onWrite, ← hflow]
    simp [onTheWay]

theorem flow_clientRead {c : State} {chunk : Chunk maxRead} {rest : List UInt8}
    (hs : Flow stdin s) (hd : s.toClient = chunk.bytes ++ rest)
    (hc : step s.client (.read (.data chunk)) = some c) :
    Flow stdin { s with client := c, toClient := rest } := by
  obtain ⟨hpc, rfl⟩ := step_read hc
  obtain ⟨hserving, hflow⟩ := hs.running (by simp [hpc])
  have hmoved : (s.client.got ++ chunk.bytes) ++
      (rest ++ s.server.pc.pending 0 ++ s.toServer) = s.client.sent := by
    rw [← hflow]
    simp [onTheWay, hd]
  -- What comes back was written, so it holds no NUL and is printed whole.
  have hcstr : cstr chunk.bytes = chunk.bytes := by
    apply cstr_eq_self
    intro b hb
    exact hs.ne_zero (by simp [← hmoved, hb])
  refine ⟨hs.lines, ?_, ⟨_, hmoved⟩, ?_, fun _ => ⟨hserving, hmoved⟩, writing_of_ne_write nofun,
    nofun⟩
  · have hsent := hs.sent
    rw [unsent_of_ne_write (by simp [hpc])] at hsent
    exact hsent
  · have hechoed := hs.echoed
    rw [State.echoed] at hechoed
    simp only [onRead, State.echoed, List.flatMap_append, List.flatMap_singleton, Line.echoed,
      CharBuf.cstr_terminated, hcstr, hechoed]

/-- The client leaves its loop. -/
theorem flow_close (hs : Flow stdin s) (hpc : s.client.pc = .read) :
    Flow stdin { s with client := { s.client with pc := .closed } } := by
  refine ⟨hs.lines, ?_, hs.got, hs.echoed, fun h => (h rfl).elim, writing_of_ne_write nofun,
    nofun⟩
  have hsent := hs.sent
  rw [unsent_of_ne_write (by simp [hpc])] at hsent
  exact hsent

theorem flow_step (h : Step capServer capClient s e t) (hs : Flow stdin s) : Flow stdin t := by
  cases h with
  | fgets hc => exact flow_fgets hs hc
  | clientWrite _ _ _ hc => exact flow_clientWrite hs hc
  | clientRead hd hc => exact flow_clientRead hs hd hc
  | clientEof _ _ hc | clientReadInterrupted hc =>
    obtain ⟨hpc, rfl⟩ := step_read hc
    exact flow_close hs hpc
  | clientWriteInterrupted hc =>
    rw [write_interrupted hs.writing hc]
    exact hs
  | serverRead hd hv =>
    refine hs.of_client_eq rfl rfl fun hpc => ?_
    obtain ⟨hserving, hflow⟩ := hs.running hpc
    obtain ⟨hw, hnil, hpending⟩ := serving_read hserving hv
    refine ⟨hw, ?_⟩
    rw [← hflow]
    simp [onTheWay, hpending, hnil, hd]
  | serverWrite _ _ hv =>
    refine hs.of_client_eq rfl rfl fun hpc => ?_
    obtain ⟨hserving, hflow⟩ := hs.running hpc
    obtain ⟨hw, _, hpending⟩ := serving_write hserving hv
    refine ⟨hw, ?_⟩
    rw [← hflow]
    simp [onTheWay, hpending]
  | serverReadInterrupted hv =>
    cases hv with
    | readInterrupted => exact hs
    | readFails _ he => exact (he rfl).elim
  | serverWriteInterrupted hv =>
    cases hv with
    | writeInterrupted => exact hs
    | writeFails _ he => exact (he rfl).elim
  | serverEof _ hclosed | serverWriteFails hclosed | serverKilled hclosed =>
    exact hs.of_client_eq rfl rfl fun hpc => (hpc hclosed).elim
  | serverClose hv =>
    refine hs.of_client_eq rfl rfl fun hpc => ?_
    exact (not_close_of_serving (hs.running hpc).serving hv).elim

theorem flow_reachable (h : (system capServer capClient stdin).Reachable s) : Flow stdin s := by
  apply h.invariant
  · rintro s ⟨⟨hpc, hlines, hsent, hgot, hout⟩, hserver, hin, hts, htc⟩
    have hunsent : s.client.unsent = [] := unsent_of_ne_write (by simp [hpc])
    refine ⟨by simp [hlines, hin], by simp [hsent, hunsent, hlines], by simp [hgot],
      by simp [State.echoed, hout, hgot], fun _ => ⟨.inl hserver, ?_⟩,
      writing_of_ne_write (by simp [hpc]), by simp [hpc]⟩
    simp [hgot, onTheWay, htc, hserver, EchoProgram.PC.pending, hts, hsent]
  · intro s e t hst hs
    exact flow_step hst hs

/-- In every run, interruptions and all: what the client prints is what it wrote, from the start
and in order, every byte once, and what it wrote comes from the start of its input. -/
theorem echoed_isPrefix (h : (system capServer capClient stdin).Reachable s) :
    s.client.echoed <+: s.client.sent ∧
      s.client.sent <+: s.client.lines.flatMap cstr ∧ s.client.lines.flatten <+: stdin ∧
      (s.client.pc ≠ .closed → s.client.echoed ++ s.onTheWay = s.client.sent) := by
  have hs := flow_reachable h
  refine ⟨hs.echoed ▸ hs.got, ⟨_, hs.sent⟩, ⟨_, hs.lines⟩, fun hpc => ?_⟩
  rw [hs.echoed]
  exact (hs.running hpc).flow

theorem echoed_isPrefix_short : ∃ s, (system 2 1 [97, 10]).Reachable s ∧ s.client.echoed = [97] ∧
    s.client.echoed <+: s.client.sent ∧
      s.client.sent <+: s.client.lines.flatMap cstr ∧ s.client.lines.flatten <+: [97, 10] ∧
      (s.client.pc ≠ .closed → s.client.echoed ++ s.onTheWay = s.client.sent) := by
  have h0 : (system 2 1 [97, 10]).Reachable
      ⟨⟨.prompt, .zero _, [], [], [], []⟩, { EchoProgram.start with pc := .read 0 },
        [97, 10], [], []⟩ :=
    .of_initial ⟨⟨rfl, rfl, rfl, rfl, rfl⟩, rfl, rfl, rfl, rfl⟩
  have h1 := h0.step (.fgets rfl)
  have h2 := h1.step (.clientWriteInterrupted rfl)
  have h3 := h2.step (.clientWrite (n := 2) (by decide) (by decide) (by decide) rfl)
  have h4 := h3.step (.serverRead rfl (.data (c := ⟨[97, 10], by simp, by decide⟩) rfl))
  have h5 := h4.step (.serverWrite one_pos (by decide) (.write rfl (by decide : 1 ≤ 2)))
  have h6 := h5.step (@Step.clientRead _ _ _ _ ⟨[97], by simp, by decide⟩ _ rfl rfl)
  exact ⟨_, h6, rfl, echoed_isPrefix h6⟩

end Net

end SystemCalls.EchoClient

import SystemCalls.ProcessManager.Reaping

/-!
# The lines of process_manager

A `fork` that finds something in the buffer makes it come out twice, and a buffer written
out in the middle of another process's line tears that line. In every run without the two,
each line comes out once.
-/

namespace SystemCalls.ProcessManager

open Stdio

variable {b : Buffering} {n : ℕ} {s t : State} {e : Event} {E : Execution State Event}

/-- The lines that the processes have printed, one process after the other. -/
def State.lines (s : State) : List (List Byte) :=
  s.procs.zipIdx.flatMap fun q => Stdio.lines isNewline (bytes q.2 q.1.text)

/-- The output consists of the lines that were printed, each of them whole and once. -/
def EmittedOnce (s : State) : Prop := (Stdio.lines isNewline s.output).Perm s.lines

/-- The step writes its process's buffer out. -/
def Writes (b : Buffering) (s : State) : Event → Prop
  | .put k => ∃ p c rest next, s.procs[k]? = some p ∧ p.pc = .print (c :: rest) next ∧
      ((b.mode = .line ∧ c = '\n') ∨ b.cap ≤ p.buffer.length + 1)
  | .exit k => ∃ p, s.procs[k]? = some p ∧ p.buffer ≠ []
  | _ => False

/-- The output does not end inside a line of another process than `k`. -/
def Fits (s : State) (k : ℕ) : Prop :=
  ∀ x, s.output.getLast? = some x → isNewline x = true ∨ x.proc = k

/-- A `fork` with nothing in the parent's buffer, or a step that tears no line. -/
structure Orderly (b : Buffering) (s : State) (e : Event) : Prop where
  fork : ∀ k pid, e = .fork k pid → b.mode = .line ∨ Aligned b s
  write : Writes b s e → Fits s e.actor

/-- No character has been copied and no line of the output is torn. -/
def Whole (s : State) : Prop := s.copied = [] ∧ Unbroken isNewline Byte.proc s.output

theorem writes_iff (h : Step b n s e t) : t.output ≠ s.output ↔ Writes b s e := by
  cases h with
  | @put l₁ l₂ p c rest next hs hp =>
    have hput : (p.put b l₁.length c (.print rest next)).2 ≠ [] ↔ _ := put_ne_nil
    simpa [Writes, hs, hp, isNewline] using hput
  | exit hs hp => simp [Writes, hs]
  | printed | info | fork | forkFail | sleep | wait | waitError | rusage | rusageError =>
    simp [Writes]

/-- A step keeps the lines whole just when it is orderly, and none mends them. -/
theorem whole_step (hr : (system b n).Reachable s) (h : Step b n s e t) :
    Whole t ↔ Whole s ∧ Orderly b s e := by
  obtain ⟨l₁, p, l₂, p', out, new, copy, procs, hl, ha, hsp, htp, ho, -⟩ := step_local h
  by_cases hs : Whole s
  · have hown := (ordered_reachable hr hs.1).own hsp hl
    have hout : out ≠ [] ↔ Writes b s e := by
      rw [← writes_iff h, ho, ne_eq, ne_eq, List.append_right_eq_self]
    have hwrite : Unbroken isNewline Byte.proc t.output ↔ (Writes b s e → Fits s e.actor) := by
      rw [ho, unbroken_append hs.2 hown, hout, ha, Fits]
    have hfork : t.copied = [] ↔ ∀ k pid, e = .fork k pid → b.mode = .line ∨ Aligned b s := by
      by_cases hf : ∃ k pid, e = .fork k pid
      · obtain ⟨k, pid, rfl⟩ := hf
        have hiff := copied_fork hr h
        rw [hs.1] at hiff
        simp [hiff]
      · push Not at hf
        simp [copied_eq_of_not_fork h hf, hs.1, hf]
    constructor
    · intro ht
      exact ⟨hs, hfork.mp ht.1, hwrite.mp ht.2⟩
    · rintro ⟨-, hord⟩
      exact ⟨hfork.mpr hord.fork, hwrite.mpr hord.write⟩
  · constructor
    · intro ht
      refine (hs ⟨List.prefix_nil.mp (ht.1 ▸ copied_isPrefix h), ?_⟩).elim
      exact List.IsChain.left_of_append (ho ▸ ht.2)
    · intro ht
      exact (hs ht.1).elim

/-! ### Completed runs -/

theorem length_flatten_lines (s : State) :
    s.lines.flatten.length = (s.procs.map fun q => q.text.length).sum := by
  have hflat : s.lines.flatten = s.procs.zipIdx.flatMap fun q => bytes q.2 q.1.text := by
    rw [State.lines, List.flatten_eq_flatMap, List.flatMap_assoc]
    simp only [← List.flatten_eq_flatMap, flatten_lines]
  have hfst : (s.procs.map fun q => q.text.length) =
      s.procs.zipIdx.map fun q => (bytes q.2 q.1.text).length := by
    conv_lhs => rw [← List.zipIdx_map_fst 0 s.procs, List.map_map]
    simp [bytes]
  rw [hflat, List.length_flatMap, hfst]

/-- A line has characters of one process only. -/
theorem proc_of_mem_lines {l : List Byte} (hl : l ∈ s.lines) : ∃ k, ∀ x ∈ l, x.proc = k := by
  obtain ⟨⟨q, k⟩, -, hl⟩ := List.mem_flatMap.mp hl
  refine ⟨k, fun x hx => ?_⟩
  have hmem : x ∈ bytes k q.text := by
    rw [← flatten_lines isNewline (bytes k q.text)]
    exact List.mem_flatten_of_mem hl hx
  exact proc_of_mem_bytes hmem

/-- When all have exited nothing is left in the buffers. -/
theorem buffer_of_completed (h : (system b n).Reachable s) (hc : Completed s) :
    ∀ p ∈ s.procs, p.buffer = [] := by
  intro p hp
  obtain ⟨status, hx⟩ := hc p hp
  rcases (accounted_reachable h).closed p hp with hl | ⟨-, hb⟩
  · simp [hx, PC.Live] at hl
  · exact hb

theorem whole_of_emittedOnce (h : (system b n).Reachable s) (hc : Completed s)
    (ho : EmittedOnce s) : Whole s := by
  constructor
  · have hcons := (accounted_reachable h).conserved
    have hempty : (s.procs.map fun q => q.buffer.length).sum = 0 := by
      refine List.sum_eq_zero fun m hm => ?_
      obtain ⟨q, hq, rfl⟩ := List.mem_map.mp hm
      simp [buffer_of_completed h hc q hq]
    have hlen := ho.flatten.length_eq
    rw [flatten_lines, length_flatten_lines] at hlen
    exact List.length_eq_zero_iff.mp (by omega)
  · exact unbroken_of_lines fun l hl => proc_of_mem_lines (ho.mem_iff.mp hl)

/-- Each line starts with a character of a process. -/
theorem head_mem_of_mem_lines (hs : Ordered s) {l : List Byte}
    (hl : l ∈ Stdio.lines isNewline s.output) :
    l.head?.map Byte.proc ∈ (s.procs.zipIdx.map Prod.snd).map some := by
  obtain ⟨x, l, rfl⟩ := List.exists_cons_of_ne_nil (ne_nil_of_mem_lines hl)
  have hx : x ∈ s.output := by
    rw [← flatten_lines isNewline s.output]
    exact List.mem_flatten_of_mem hl List.mem_cons_self
  simpa [List.zipIdx_map_snd] using hs.owner x hx

theorem emittedOnce_of_whole (h : (system b n).Reachable s) (hc : Completed s) (hw : Whole s) :
    EmittedOnce s := by
  have hs := ordered_reachable h hw.1
  have hnodup : ((s.procs.zipIdx.map Prod.snd).map some).Nodup := by
    rw [List.zipIdx_map_snd]
    exact (List.nodup_range' _).map fun _ _ h => Option.some.inj h
  have hperm := flatMap_filter_perm hnodup fun l hl => head_mem_of_mem_lines hs hl
  have hparts : s.lines = ((s.procs.zipIdx.map Prod.snd).map some).flatMap fun k =>
      (Stdio.lines isNewline s.output).filter fun l => l.head?.map Byte.proc = k := by
    rw [List.map_map, List.flatMap_map]
    refine List.flatMap_congr fun q hq => ?_
    have htext := hs.text q.2 q.1 (List.mem_zipIdx_iff_getElem?.mp hq)
    rw [buffer_of_completed h hc q.1 (List.fst_mem_of_mem_zipIdx hq), List.append_nil] at htext
    rw [← htext, lines_filter q.2 hw.2]
    rfl
  rw [EmittedOnce, hparts]
  exact hperm.symm

/-- A run to completion writes every line once just when at every `fork` the output is line
buffered or what the parent has printed fills whole buffers, and a process writes its buffer out
only where the output does not end inside another's line. -/
theorem emitted_once_iff (h : (system b n).Valid E) {N : ℕ} (hN : Completed (E.state N)) :
    EmittedOnce (E.state N) ↔ ∀ m < N, ∀ e, E.event m = some e → Orderly b (E.state m) e := by
  have hwhole (M : ℕ) :
      Whole (E.state M) ↔ ∀ m < M, ∀ e, E.event m = some e → Orderly b (E.state m) e := by
    induction M with
    | zero =>
      obtain ⟨pid, h0⟩ := h.1
      simp [h0, initialState, Whole, Unbroken]
    | succ M ih =>
      rw [Nat.forall_lt_succ_right, ← ih]
      cases he : E.event M with
      | none => simp [h.of_none he]
      | some e => simpa using whole_step (h.reachable M) (h.of_some he)
  rw [← hwhole]
  exact ⟨whole_of_emittedOnce (h.reachable N) hN, emittedOnce_of_whole (h.reachable N) hN⟩

/-! ### On a terminal -/

section Terminal

/-- The orderly runs in which every `fork` succeeds. -/
def orderly (b : Buffering) (n : ℕ) : LTS State Event :=
  (forked b n).restrict (Orderly b)

theorem whole_reachable (h : (orderly b n).Reachable s) : Whole s := by
  refine h.invariant_of_reachable ?_ ?_
  · rintro s ⟨pid, rfl⟩
    simp [initialState, Whole, Unbroken]
  · rintro s e t hr ⟨hord, -, hst⟩ hs
    exact (whole_step hr.of_restrict.of_restrict hst).mpr ⟨hs, hord⟩

theorem orderly_of_fits (hb : b.mode = .line) (hf : Fits s e.actor) : Orderly b s e :=
  ⟨fun _ _ _ => Or.inl hb, fun _ => hf⟩

/-- A process that may write may go on. -/
theorem fits_step (hr : (orderly b n).Reachable s) (h : Step b n s e t) (hf : Fits s e.actor) :
    Fits t e.actor := by
  obtain ⟨l₁, p, l₂, p', out, new, copy, procs, hl, ha, hsp, -, ho, -⟩ := step_local h
  have hs := ordered_reachable hr.of_restrict.of_restrict (whole_reachable hr).1
  intro x hx
  rw [ho, List.getLast?_append] at hx
  cases hlast : out.getLast? with
  | none => exact hf x (by simpa [hlast] using hx)
  | some y =>
    obtain rfl : y = x := by simpa [hlast] using hx
    rw [ha]
    exact Or.inr (hs.own hsp hl y (List.mem_of_getLast? hlast))

/-- Where a process has ended its line, every other may write. -/
theorem fits_of_flushed {k : ℕ} {p : Proc} (hs : Ordered s) (hp : s.procs[k]? = some p)
    (hflush : p.Flushed) (hf : Fits s k) (j : ℕ) : Fits s j := by
  intro x hx
  rcases hf x hx with hnew | rfl
  · exact Or.inl hnew
  · obtain ⟨ys, hys⟩ := List.getLast?_eq_some_iff.mp hx
    have htext := congrArg List.getLast? (hs.text x.proc p hp)
    rw [hflush.1, hys] at htext
    -- The last character of the output is the process's own last one.
    rcases hflush.2 with hnil | hline
    · simp [hnil, bytes] at htext
    · have hlast : x = ⟨x.proc, p.text.length - 1, '\n'⟩ := by
        simpa [bytes, List.getLast?_mapIdx, hline] using htext
      exact Or.inl (hlast ▸ rfl)

/-- From a state where some process may write, the program can run to completion: that process
goes on until it waits or has exited, then another. -/
theorem exists_completed_orderly (hb : b.mode = .line) {s : State} {k : ℕ} {p : Proc}
    (hr : (orderly b n).Reachable s) (hp : s.procs[k]? = some p) (hf : Fits s k) :
    ∃ xs t, (orderly b n).Trace s xs t ∧ Completed t := by
  by_cases hc : Completed s
  · exact ⟨[], s, .refl, hc⟩
  · obtain ⟨e, t, hst, hfe⟩ : ∃ e t, (forked b n).step s e t ∧ Fits s e.actor := by
      by_cases hstop : (∃ i, p.pc = .wait i) ∨ ∃ status, p.pc = .exited status
      · obtain ⟨e, t, hst⟩ := exists_step hr.of_restrict hc
        have htidy := (controlled_reachable hr.of_restrict.of_restrict).tidy hb p
          (List.mem_of_getElem? hp)
        have hflush : p.Flushed := by
          rcases hstop with ⟨i, hi⟩ | ⟨status, hi⟩
          · simpa [hi, PC.Tidy] using htidy
          · simpa [hi, PC.Tidy] using htidy
        have hs := ordered_reachable hr.of_restrict.of_restrict (whole_reachable hr).1
        exact ⟨e, t, hst, fits_of_flushed hs hp hflush hf e.actor⟩
      · push Not at hstop
        obtain ⟨hlt, rfl⟩ := List.getElem?_eq_some_iff.mp hp
        have hs : s.procs = s.procs.take k ++ s.procs[k] :: s.procs.drop (k + 1) := by simp
        obtain ⟨e, t, hst, ha⟩ := exists_step_of_not_wait (b := b) (n := n) hs hstop.1 hstop.2
        rw [List.length_take_of_le (Nat.le_of_lt hlt)] at ha
        exact ⟨e, t, hst, ha ▸ hf⟩
    have hord : (orderly b n).step s e t := ⟨orderly_of_fits hb hfe, hst⟩
    obtain ⟨l₁, q, l₂, q', -, -, -, procs, -, ha, -, ht, -⟩ := step_local hst.2
    have hq : t.procs[e.actor]? = some q' := by simp [ha, ht]
    have hlt := rank_step (control_step hst.2 hst.1) (counted_reachable hr.of_restrict)
    obtain ⟨xs, u, hx, hu⟩ :=
      exists_completed_orderly hb (hr.step hord) hq (fits_step hr hst.2 hfe)
    exact ⟨e :: xs, u, .stepL hord hx, hu⟩
termination_by s.control.rank n
decreasing_by exact hlt

end Terminal

/-- Line buffered, as on a terminal, with three children: each of them runs while the others
are between two lines. -/
theorem emitted_once_on_terminal :
    ∃ (E : Execution State Event) (N : ℕ), (system ⟨.line, 1024, by decide⟩ 3).Valid E ∧
      Completed (E.state N) ∧ EmittedOnce (E.state N) ∧ (E.state N).procs.length = 4 := by
  have hi : (orderly ⟨.line, 1024, by decide⟩ 3).initial (initialState 3 1) := ⟨1, rfl⟩
  obtain ⟨xs, t, hx, hc⟩ := exists_completed_orderly rfl (.of_initial hi) (k := 0) rfl (by
    simp [Fits, initialState])
  obtain ⟨E, hE, -, -, hlast⟩ := hx.exists_padding hi
  obtain ⟨hforked, hord⟩ := hE.of_restrict
  have hN : E.state xs.length = t := hlast _ (Nat.le_refl _)
  have hlen := (forks_and_reaps (hforked.reachable xs.length)).2.2.2.2.1 (hN ▸ hc)
  refine ⟨E, xs.length, hforked.of_restrict.1, hN ▸ hc, ?_, hlen.2.1⟩
  exact (emitted_once_iff hforked.of_restrict.1 (hN ▸ hc)).mpr fun m _ e he => hord m e he

/-! ### Into a file or a pipe -/

/-- A process at a `printf` can put its text. -/
theorem exists_printed (b : Buffering) (n : ℕ) {p : Proc} {l₁ l₂ : List Proc}
    {text : List Char} {next : PC} (hs : s.procs = l₁ ++ p :: l₂) (hp : p.pc = .print text next) :
    ∃ xs t p', (forked b n).Trace s xs t ∧ t.procs = l₁ ++ p' :: l₂ ∧
      p'.pc = next ∧ p'.text = p.text ++ text ∧ p'.pid = p.pid := by
  induction text generalizing s p with
  | nil =>
    exact ⟨_, _, _, .stepL ⟨by simp [Forked], .printed hs hp⟩ .refl, rfl, rfl, by simp, rfl⟩
  | cons c rest ih =>
    obtain ⟨u, hst, hu⟩ : ∃ u, (forked b n).step s (.put l₁.length) u ∧
        u.procs = l₁ ++ (p.put b l₁.length c (.print rest next)).1 :: l₂ :=
      ⟨_, ⟨by simp [Forked], .put hs hp⟩, rfl⟩
    obtain ⟨xs, t, p', hx, ht, hpc, htext, hpid⟩ := ih hu rfl
    exact ⟨_, t, p', .stepL hst hx, ht, hpc, by simp [htext, Proc.put], hpid⟩

/-- From pid 1 and with all other ids 0, the parent has printed 82 characters when it
first calls `fork`. -/
theorem exists_first_fork (b : Buffering) (hn : 0 < n) :
    ∃ s p, (forked b n).Reachable s ∧ s.procs = [] ++ p :: [] ∧ p.pc = .fork 0 ∧
      p.text.length = 82 := by
  have hi : (forked b n).initial (initialState n 1) := ⟨1, rfl⟩
  have hs₀ : (initialState n 1).procs = [] ++ ⟨1, main n, [], []⟩ :: [] := rfl
  obtain ⟨xs, s₁, p₁, hx, hs₁, hp₁, ht₁, hid₁⟩ := exists_printed b n hs₀ rfl
  obtain ⟨ys, s₂, p₂, hy, hs₂, hp₂, ht₂, hid₂⟩ := exists_printed b n hs₁ hp₁
  obtain ⟨u, hst, hu⟩ : ∃ u, (forked b n).step s₂ (.info 0 0 0 0) u ∧ u.procs =
      [] ++ { p₂ with pc := .print (processInfo p₂.pid 0 0 0) (forkLoop n 0) } :: [] :=
    ⟨_, ⟨by simp [Forked], .info hs₂ hp₂⟩, rfl⟩
  obtain ⟨zs, s₃, p₃, hz, hs₃, hp₃, ht₃, -⟩ := exists_printed b n hu rfl
  refine ⟨s₃, p₃, ?_, hs₃, ?_, ?_⟩
  · exact ⟨_, _, hi, hx.append (hy.append (.stepL hst hz))⟩
  · rw [hp₃, forkLoop, if_pos hn]
  · rw [ht₃, List.length_append, ht₂, List.length_append, ht₁, hid₂, hid₁]
    dsimp only
    decide +kernel

theorem copied_isPrefix_trace {xs : List Event} (h : (forked b n).Trace s xs t) :
    s.copied <+: t.copied := by
  induction h with
  | refl => exact List.prefix_rfl
  | stepL hst _ ih => exact (copied_isPrefix hst.2).trans ih

/-- Into a file or a pipe, with three children and a buffer of 4096 characters: the first
child inherits the heading and `exit` writes it a second time. -/
theorem heading_written_twice :
    ∃ s, (system ⟨.full, 4096, by decide⟩ 3).Reachable s ∧ Completed s ∧ ¬ EmittedOnce s := by
  let b : Buffering := ⟨.full, 4096, by decide⟩
  obtain ⟨s, p, hr, hs, hp, ht⟩ := exists_first_fork b (show 0 < 3 by decide)
  obtain ⟨u, hst⟩ : ∃ u, (forked b 3).step s (.fork 0 2) u :=
    ⟨_, by simp [Forked], .fork hs hp⟩
  obtain ⟨xs, t, hx, hc⟩ := exists_completed_forked (hr.step hst)
  have hrt := (hr.step hst).trace hx
  refine ⟨t, hrt.of_restrict, hc, fun ho => ?_⟩
  have hnil := (whole_of_emittedOnce hrt.of_restrict hc ho).1
  have hu : u.copied = [] := List.prefix_nil.mp (hnil ▸ copied_isPrefix_trace hx)
  have hsc : s.copied = [] := List.prefix_nil.mp (hu ▸ copied_isPrefix hst.2)
  -- The heading is shorter than the buffer, so the fork copies it.
  rcases (copied_fork hr.of_restrict hst.2).mp (hu.trans hsc.symm) with hline | hal
  · cases hline
  · have hdvd := hal p (by simp [hs])
    simp [ht, b] at hdvd

end SystemCalls.ProcessManager

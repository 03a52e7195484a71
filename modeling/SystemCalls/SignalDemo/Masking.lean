import SystemCalls.Transition

/-!
# Masking in signal_demo

`demonstrate_signal_masking` with `sigint_handler` installed, while SIGINT comes at any time. A
signal that is pending already does not come a second time, and a pending one that is unblocked
comes before `sigprocmask` returns.
-/

namespace SystemCalls.SignalDemo.Masking

inductive PC
  /-- At `sigprocmask(SIG_BLOCK)`. -/
  | block
  /-- At the head of the loop. -/
  | wait (i : ℕ)
  | sigpending
  /-- At `sigprocmask(SIG_SETMASK)`. -/
  | unblock
  | sleep
  | returned
  /-- By the `exit(0)` of the handler. -/
  | exited

/-- Between the calls of `sigprocmask`. -/
def PC.inside : PC → Bool
  | wait _ | sigpending | unblock => true
  | block | sleep | returned | exited => false

def PC.after : PC → Bool
  | sleep | returned => true
  | block | wait _ | sigpending | unblock | exited => false

structure State where
  pc : PC
  blocked : Bool
  pending : Bool
  sigint_count : ℕ
  /-- What was printed of `sigismember`. -/
  said : Option Bool
  /-- One of the calls has failed. -/
  failed : Bool
  /-- `sigint_count` at the first `sigprocmask`. -/
  atBlock : ℕ
  /-- A SIGINT was pending there or has come before the second one. -/
  inside : Bool
  /-- How many have come since. -/
  late : ℕ

inductive Event
  | call
  | fails
  | arrives
  | handler

/-- A SIGINT comes from outside. -/
def State.arrive (s : State) : State :=
  { s with
    pending := true
    inside := s.inside || s.pc.inside
    late := s.late + s.pc.after.toNat }

/-- `sigint_handler` -/
def State.handle (s : State) (pc : PC) : State :=
  { s with
    pc := if 3 ≤ s.sigint_count + 1 then .exited else pc
    pending := false
    sigint_count := s.sigint_count + 1 }

/-- `old` says whether SIGINT was blocked before. -/
inductive Step (old : Bool) : State → Event → State → Prop
  | block {s : State} (h : s.pc = .block) : Step old s .call { s with
      pc := .wait 5, blocked := true, atBlock := s.sigint_count, inside := s.pending }
  | tick {s : State} {i : ℕ} (h : s.pc = .wait (i + 1)) :
      Step old s .call { s with pc := .wait i }
  | waited {s : State} (h : s.pc = .wait 0) : Step old s .call { s with pc := .sigpending }
  | sigpending {s : State} (h : s.pc = .sigpending) :
      Step old s .call { s with pc := .unblock, said := some s.pending }
  | unblock {s : State} (h : s.pc = .unblock) (hq : s.pending = false ∨ old = true) :
      Step old s .call { s with pc := .sleep, blocked := old }
  | unblockPending {s : State} (h : s.pc = .unblock) (hp : s.pending = true) (ho : old = false) :
      Step old s .call (State.handle { s with blocked := old } .sleep)
  | sleep {s : State} (h : s.pc = .sleep) : Step old s .call { s with pc := .returned }
  | fails {s : State} (h : s.pc = .block ∨ s.pc = .sigpending ∨ s.pc = .unblock) :
      Step old s .fails { s with pc := .returned, failed := true }
  | arrives {s : State} : Step old s .arrives s.arrive
  | handler {s : State} (hp : s.pending = true) (hb : s.blocked = false) (hx : s.pc ≠ .exited) :
      Step old s .handler (s.handle s.pc)

/-- The function is called with any SIGINTs counted and pending. -/
def system (old : Bool) : LTS State Event where
  initial s := s.pc = .block ∧ s.blocked = old ∧ s.said = none ∧ s.failed = false ∧ s.late = 0
  step := Step old

variable {old : Bool} {s t : State} {e : Event}

/-- Nothing gets through inside, and what was held back counts once. -/
structure Accounted (old : Bool) (s : State) : Prop where
  before : s.pc = .block → s.blocked = old ∧ s.said = none ∧ s.failed = false ∧ s.late = 0
  inside : s.pc.inside = true → s.blocked = true ∧ s.sigint_count = s.atBlock ∧
    s.pending = s.inside ∧ s.failed = false ∧ s.late = 0
  after : s.pc.after = true → s.failed = false → s.blocked = old ∧
    if old then s.sigint_count = s.atBlock
    else s.atBlock + s.inside.toNat ≤ s.sigint_count ∧
      s.sigint_count + s.pending.toNat ≤ s.atBlock + s.inside.toNat + s.late
  said : s.said = some true → s.inside = true

theorem accounted_arrive (hs : Accounted old s) : Accounted old s.arrive := by
  obtain ⟨hbefore, hinside, hafter, hsaid⟩ := hs
  refine ⟨?_, ?_, ?_, ?_⟩
  · intro h
    have h : s.pc = .block := h
    obtain ⟨hb, hn, hf, hl⟩ := hbefore h
    exact ⟨hb, hn, hf, by simp [State.arrive, h, hl, PC.after]⟩
  · intro h
    have h : s.pc.inside = true := h
    obtain ⟨hb, hc, hp, hf, hl⟩ := hinside h
    refine ⟨hb, hc, by simp [State.arrive, h], hf, ?_⟩
    cases hpc : s.pc <;> simp [State.arrive, hpc, hl, PC.after, PC.inside] at h ⊢
  · intro h hf
    have h : s.pc.after = true := h
    obtain ⟨hb, hcount⟩ := hafter h hf
    refine ⟨hb, ?_⟩
    have hinside : s.pc.inside = false := by
      cases hpc : s.pc <;> simp [hpc, PC.after, PC.inside] at h ⊢
    cases old with
    | true => exact hcount
    | false =>
      obtain ⟨hle, hge⟩ := hcount
      simp only [State.arrive, hinside, h, Bool.or_false, Bool.toNat_true]
      exact ⟨hle, by omega⟩
  · intro h
    simp [State.arrive, hsaid h]

theorem accounted_handler (hs : Accounted old s) (hp : s.pending = true)
    (hb : s.blocked = false) : Accounted old (s.handle s.pc) := by
  obtain ⟨hbefore, hinside, hafter, hsaid⟩ := hs
  by_cases hexit : 3 ≤ s.sigint_count + 1
  · exact ⟨by simp [State.handle, hexit], by simp [State.handle, hexit, PC.inside],
      by simp [State.handle, hexit, PC.after], hsaid⟩
  have hpc : (s.handle s.pc).pc = s.pc := if_neg hexit
  refine ⟨?_, ?_, ?_, hsaid⟩
  · rw [hpc]
    exact hbefore
  · rw [hpc]
    intro h
    have hblocked := (hinside h).1
    simp [hb] at hblocked
  · rw [hpc]
    intro h hf
    obtain ⟨hold, hcount⟩ := hafter h hf
    obtain rfl : false = old := hb.symm.trans hold
    obtain ⟨hle, hge⟩ := hcount
    simp only [hp, Bool.toNat_true] at hge
    simp only [State.handle, hold, Bool.toNat_false, true_and]
    exact ⟨by omega, by omega⟩

theorem accounted_unblock (hs : Accounted old s) (h : s.pc = .unblock)
    (hq : s.pending = false ∨ old = true) :
    Accounted old { s with pc := .sleep, blocked := old } := by
  obtain ⟨_, hc, hp, _, hl⟩ := hs.inside (by simp [h, PC.inside])
  refine ⟨nofun, nofun, fun _ _ => ⟨rfl, ?_⟩, hs.said⟩
  cases old with
  | true => exact hc
  | false =>
    have hq : s.pending = false := by simpa using hq
    simp [← hp, hq, hc]

/-- The one SIGINT that is pending comes before `sigprocmask` returns. -/
theorem accounted_unblockPending (hs : Accounted false s) (h : s.pc = .unblock)
    (hp : s.pending = true) :
    Accounted false (State.handle { s with blocked := false } .sleep) := by
  obtain ⟨_, hc, hin, _, hl⟩ := hs.inside (by simp [h, PC.inside])
  by_cases hexit : 3 ≤ s.sigint_count + 1
  · exact ⟨by simp [State.handle, hexit], by simp [State.handle, hexit, PC.inside],
      by simp [State.handle, hexit, PC.after], hs.said⟩
  refine ⟨by simp [State.handle, hexit], by simp [State.handle, hexit, PC.inside],
    fun _ _ => ⟨rfl, ?_⟩, hs.said⟩
  simp [State.handle, ← hin, hp, hc]

theorem accounted_step (h : Step old s e t) (hs : Accounted old s) : Accounted old t := by
  cases h with
  | block h =>
    obtain ⟨hb, hn, hf, hl⟩ := hs.before h
    exact ⟨nofun, fun _ => ⟨rfl, rfl, rfl, hf, hl⟩, nofun, by simp [hn]⟩
  | tick h | waited h =>
    exact ⟨nofun, fun _ => hs.inside (by simp [h, PC.inside]), nofun, hs.said⟩
  | sigpending h =>
    have hin := hs.inside (by simp [h, PC.inside])
    refine ⟨nofun, fun _ => hin, nofun, fun hp => ?_⟩
    exact hin.2.2.1 ▸ Option.some.inj hp
  | unblock h hq => exact accounted_unblock hs h hq
  | unblockPending h hp ho =>
    subst ho
    exact accounted_unblockPending hs h hp
  | sleep h => exact ⟨nofun, nofun, fun _ => hs.after (by simp [h, PC.after]), hs.said⟩
  | fails h => exact ⟨nofun, nofun, nofun, hs.said⟩
  | arrives => exact accounted_arrive hs
  | handler hp hb hx => exact accounted_handler hs hp hb

theorem accounted_reachable (h : (system old).Reachable s) : Accounted old s := by
  apply h.invariant
  · rintro s ⟨hpc, hb, hn, hf, hl⟩
    exact ⟨fun _ => ⟨hb, hn, hf, hl⟩, by simp [hpc, PC.inside], by simp [hpc, PC.after],
      by simp [hn]⟩
  · intro s e t hst hs
    exact accounted_step hst hs

/-- When the function returns without a failure the mask is as before. If SIGINT was blocked
already the handler has seen none; otherwise it has seen one of those that came inside, however
many they are, and what else it has seen has come since. -/
theorem held_signals_count_once (h : (system old).Reachable s) (hr : s.pc = .returned)
    (hf : s.failed = false) : s.blocked = old ∧
      (old = true → s.sigint_count = s.atBlock) ∧
      (old = false → s.atBlock + s.inside.toNat ≤ s.sigint_count ∧
        s.sigint_count + s.pending.toNat ≤ s.atBlock + s.inside.toNat + s.late ∧
        (s.said = some true → s.sigint_count ≠ s.atBlock)) := by
  have hs := accounted_reachable h
  obtain ⟨hb, hcount⟩ := hs.after (by simp [hr, PC.after]) hf
  refine ⟨hb, ?_, ?_⟩
  · rintro rfl
    exact hcount
  · rintro rfl
    obtain ⟨hle, hge⟩ := hcount
    refine ⟨hle, hge, fun hsaid => ?_⟩
    rw [hs.said hsaid, Bool.toNat_true] at hle
    omega

/-- Two SIGINTs while it is blocked. -/
theorem held_signals_count_once_twice : ∃ s, (system false).Reachable s ∧ s.pc = .returned ∧
    s.late = 0 ∧ s.atBlock = 0 ∧ s.inside = true ∧ s.sigint_count = 1 := by
  have h0 : (system false).Reachable ⟨.block, false, false, 0, none, false, 0, false, 0⟩ :=
    .of_initial ⟨rfl, rfl, rfl, rfl, rfl⟩
  have h1 := h0.step (.block rfl)
  have h2 := h1.step .arrives
  have h3 := h2.step (.tick rfl)
  have h4 := h3.step .arrives
  have h5 := h4.step (.tick rfl)
  have h6 := h5.step (.tick rfl)
  have h7 := h6.step (.tick rfl)
  have h8 := h7.step (.tick rfl)
  have h9 := h8.step (.waited rfl)
  have h10 := h9.step (.sigpending rfl)
  have h11 := h10.step (.unblockPending rfl rfl rfl)
  have h12 := h11.step (.sleep rfl)
  obtain ⟨hle, hge, _⟩ := (held_signals_count_once h12 rfl rfl).2.2 rfl
  exact ⟨_, h12, rfl, rfl, rfl, rfl, Nat.le_antisymm hge hle⟩

end SystemCalls.SignalDemo.Masking

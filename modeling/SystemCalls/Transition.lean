import Mathlib.Logic.Function.Basic
import Mathlib.Order.Basic

/-!
# Labelled transition systems

Finite traces, reachable states and infinite padded executions, with the two
invariant rules every model in this project is proved with. Nothing here names
a program.
-/

namespace SystemCalls

/-- A labelled transition system with its initial states. -/
structure LTS (σ α : Type*) where
  initial : σ → Prop
  step : σ → α → σ → Prop

/-- An infinite observation of a system. A `none` event is a tick in which
nothing happens, so a system that blocks forever has executions too. -/
structure Execution (σ α : Type*) where
  state : ℕ → σ
  event : ℕ → Option α

namespace LTS

variable {σ α : Type*} {L : LTS σ α} {s t u : σ} {a : α} {xs ys : List α}

/-- Finite traces, one label for each step. -/
inductive Trace (L : LTS σ α) : σ → List α → σ → Prop
  | refl {s : σ} : Trace L s [] s
  | stepL {s t u : σ} {a : α} {xs : List α} :
      L.step s a t → Trace L t xs u → Trace L s (a :: xs) u

def Reachable (L : LTS σ α) (s : σ) : Prop :=
  ∃ s₀ xs, L.initial s₀ ∧ L.Trace s₀ xs s

/-- A predicate that no step can falsify. -/
def Preserves (L : LTS σ α) (P : σ → Prop) : Prop :=
  ∀ s a t, L.step s a t → P s → P t

/-- The same system with only those steps whose source and label meet `C`. -/
def restrict (L : LTS σ α) (C : σ → α → Prop) : LTS σ α where
  initial := L.initial
  step s a t := C s a ∧ L.step s a t

theorem Trace.append (h : L.Trace s xs t) (h' : L.Trace t ys u) :
    L.Trace s (xs ++ ys) u := by
  induction h with
  | refl => exact h'
  | stepL hs _ ih => exact .stepL hs (ih h')

theorem Trace.snoc (h : L.Trace s xs t) (hs : L.step t a u) :
    L.Trace s (xs ++ [a]) u :=
  h.append (.stepL hs .refl)

theorem Trace.preserves {P : σ → Prop} (hP : L.Preserves P)
    (h : L.Trace s xs t) (hs : P s) : P t := by
  induction h with
  | refl => exact hs
  | stepL hst _ ih => exact ih (hP _ _ _ hst hs)

theorem Reachable.of_initial (h : L.initial s) : L.Reachable s :=
  ⟨s, [], h, .refl⟩

theorem Reachable.step (h : L.Reachable s) (hs : L.step s a t) : L.Reachable t := by
  obtain ⟨s₀, xs, hi, hx⟩ := h
  exact ⟨s₀, xs ++ [a], hi, hx.snoc hs⟩

theorem Reachable.trace (h : L.Reachable s) (hx : L.Trace s xs t) : L.Reachable t := by
  obtain ⟨s₀, ys, hi, hy⟩ := h
  exact ⟨s₀, ys ++ xs, hi, hy.append hx⟩

/-- Initially true and preserved, hence true of every reachable state. -/
theorem Reachable.invariant {P : σ → Prop} (h : L.Reachable s)
    (hi : ∀ s₀, L.initial s₀ → P s₀) (hP : L.Preserves P) : P s := by
  obtain ⟨s₀, xs, hs₀, hx⟩ := h
  exact hx.preserves hP (hi s₀ hs₀)

/-- The same rule with a reachable source, for invariants proved in layers. -/
theorem Reachable.invariant_of_reachable {P : σ → Prop} (h : L.Reachable s)
    (hi : ∀ s₀, L.initial s₀ → P s₀)
    (hP : ∀ s a t, L.Reachable s → L.step s a t → P s → P t) : P s := by
  have hboth : L.Reachable s ∧ P s := by
    apply h.invariant (P := fun s => L.Reachable s ∧ P s)
    · intro s₀ h₀
      exact ⟨.of_initial h₀, hi s₀ h₀⟩
    · rintro s a t hst ⟨hr, hp⟩
      exact ⟨hr.step hst, hP s a t hr hst hp⟩
  exact hboth.2

/-- A measure that every step from a reachable state lowers bounds the runs. -/
theorem Trace.length_le {μ : σ → ℕ} (hr : L.Reachable s) (h : L.Trace s xs t)
    (hμ : ∀ s a t, L.Reachable s → L.step s a t → μ t < μ s) : xs.length + μ t ≤ μ s := by
  induction h with
  | refl => simp
  | @stepL s t u a xs hst _ ih =>
    have hlt := hμ s a t hr hst
    have hle := ih (hr.step hst)
    rw [List.length_cons]
    omega

/-- No step leads on from `s`. -/
def Terminal (L : LTS σ α) (s : σ) : Prop :=
  ∀ a t, ¬ L.step s a t

/-- With such a measure every run can be continued to its end. -/
theorem Reachable.exists_terminal {μ : σ → ℕ} (h : L.Reachable s)
    (hμ : ∀ s a t, L.Reachable s → L.step s a t → μ t < μ s) :
    ∃ t xs, L.Trace s xs t ∧ L.Reachable t ∧ L.Terminal t := by
  induction hn : μ s using Nat.strongRecOn generalizing s with
  | ind n ih =>
    by_cases hs : L.Terminal s
    · exact ⟨s, [], .refl, h, hs⟩
    · obtain ⟨a, t, hst⟩ : ∃ a t, L.step s a t := by simpa [Terminal] using hs
      obtain ⟨u, xs, hxs, hu, hterm⟩ := ih (μ t) (hn ▸ hμ s a t h hst) (h.step hst) rfl
      exact ⟨u, a :: xs, .stepL hst hxs, hu, hterm⟩

theorem exists_terminal_of_bounded {n : ℕ} (h : ∀ xs t, L.Trace s xs t → xs.length ≤ n) :
    ∃ t xs, L.Trace s xs t ∧ L.Terminal t := by
  induction n generalizing s with
  | zero =>
    refine ⟨s, [], .refl, fun a t hst => ?_⟩
    have hlen := h _ _ (.stepL hst .refl)
    simp at hlen
  | succ n ih =>
    by_cases hs : L.Terminal s
    · exact ⟨s, [], .refl, hs⟩
    · obtain ⟨a, t, hst⟩ : ∃ a t, L.step s a t := by simpa [Terminal] using hs
      obtain ⟨u, xs, hxs, hterm⟩ := ih fun xs u hxs => by
        have hlen := h _ _ (.stepL hst hxs)
        simpa using hlen
      exact ⟨u, a :: xs, .stepL hst hxs, hterm⟩

/-- Every run comes to an end, and `P` holds there. -/
structure Ends (L : LTS σ α) (P : σ → Prop) : Prop where
  bounded : ∃ n, ∀ s xs t, L.initial s → L.Trace s xs t → xs.length ≤ n
  final : ∀ s, L.Reachable s → L.Terminal s → P s

theorem Ends.of_measure {P : σ → Prop} {μ : σ → ℕ} {n : ℕ} (hn : ∀ s, L.initial s → μ s ≤ n)
    (hμ : ∀ s a t, L.Reachable s → L.step s a t → μ t < μ s)
    (hP : ∀ s, L.Reachable s → L.Terminal s → P s) : L.Ends P where
  bounded := by
    refine ⟨n, fun s xs t hs h => ?_⟩
    have hlen := h.length_le (.of_initial hs) hμ
    have hle := hn s hs
    omega
  final := hP

theorem Ends.exists_final {P : σ → Prop} (h : L.Ends P) (hs : L.initial s) :
    ∃ t, L.Reachable t ∧ L.Terminal t ∧ P t := by
  obtain ⟨n, hn⟩ := h.bounded
  obtain ⟨t, xs, hxs, ht⟩ := exists_terminal_of_bounded fun xs t hx => hn s xs t hs hx
  have hr : L.Reachable t := ⟨s, xs, hs, hxs⟩
  exact ⟨t, hr, ht, h.final t hr ht⟩

theorem Reachable.of_restrict {C : σ → α → Prop} (h : (L.restrict C).Reachable s) :
    L.Reachable s := by
  apply h.invariant (P := L.Reachable)
  · intro s₀ h₀
    exact .of_initial h₀
  · intro s a t hst hr
    exact hr.step hst.2

theorem Reachable.restrict_step {C : σ → α → Prop} (h : (L.restrict C).Reachable s)
    (hs : L.step s a t) (hc : C s a) : (L.restrict C).Reachable t :=
  h.step ⟨hc, hs⟩

/-- One tick of an execution: padding keeps the state. -/
def Tick (L : LTS σ α) (s : σ) : Option α → σ → Prop
  | none, t => t = s
  | some a, t => L.step s a t

def Valid (L : LTS σ α) (E : Execution σ α) : Prop :=
  L.initial (E.state 0) ∧ ∀ n, L.Tick (E.state n) (E.event n) (E.state (n + 1))

variable {E : Execution σ α} {n : ℕ}

theorem Valid.of_none (h : L.Valid E) (he : E.event n = none) :
    E.state (n + 1) = E.state n := by
  simpa [Tick, he] using h.2 n

theorem Valid.of_some (h : L.Valid E) (he : E.event n = some a) :
    L.step (E.state n) a (E.state (n + 1)) := by
  simpa [Tick, he] using h.2 n

theorem Valid.reachable (h : L.Valid E) (n : ℕ) : L.Reachable (E.state n) := by
  induction n with
  | zero => exact .of_initial h.1
  | succ n ih =>
    cases he : E.event n with
    | none => simpa [h.of_none he] using ih
    | some a => exact ih.step (h.of_some he)

/-- A run of the restricted system is one of the whole system. -/
theorem Valid.of_restrict {C : σ → α → Prop} (h : (L.restrict C).Valid E) :
    L.Valid E ∧ ∀ n a, E.event n = some a → C (E.state n) a := by
  refine ⟨⟨h.1, ?_⟩, fun n a ha => (h.of_some ha).1⟩
  intro n
  cases ha : E.event n with
  | none => exact h.of_none ha
  | some a => exact (h.of_some ha).2

/-- The states and events of a finite trace, padded with its last state forever. -/
theorem Trace.exists_padding (hi : L.initial s) (h : L.Trace s xs t) :
    ∃ E : Execution σ α, L.Valid E ∧ E.state 0 = s ∧
      (∀ n, E.event n = xs[n]?) ∧ ∀ n, xs.length ≤ n → E.state n = t := by
  suffices hE : ∃ E : Execution σ α, E.state 0 = s ∧ (∀ n, E.event n = xs[n]?) ∧
      (∀ n, L.Tick (E.state n) (E.event n) (E.state (n + 1))) ∧
      ∀ n, xs.length ≤ n → E.state n = t by
    obtain ⟨E, h0, he, hv, ht⟩ := hE
    exact ⟨E, ⟨h0 ▸ hi, hv⟩, h0, he, ht⟩
  clear hi
  induction h with
  | refl => exact ⟨⟨fun _ => _, fun _ => none⟩, rfl, by simp, fun _ => rfl, fun _ _ => rfl⟩
  | @stepL s t u a xs hst _ ih =>
    obtain ⟨E, h0, he, hv, hu⟩ := ih
    -- The new state and event go in front; every index of `E` moves up by one.
    refine ⟨⟨fun n => n.casesOn s E.state, fun n => n.casesOn (some a) E.event⟩,
      rfl, ?_, ?_, ?_⟩
    · rintro (_ | n)
      · rfl
      · simpa using he n
    · rintro (_ | n)
      · change L.step s a (E.state 0)
        rw [h0]
        exact hst
      · exact hv n
    · rintro (_ | n) hn
      · simp at hn
      · exact hu n (by simpa using hn)

end LTS

end SystemCalls

import SystemCalls.Transition

/-!
# Refinement

What a run of a system shows to the outside, the simulation rule that makes it a run of another
system, the composition of a system with the client that uses it, and the record of what a run
has shown. Nothing here names a program.
-/

namespace SystemCalls.LTS

variable {σ τ γ α β δ : Type*}

/-- A run of `L` and the labels that `obs` reads off its steps. -/
inductive Shows (L : LTS σ α) (obs : σ → α → σ → Option β) : σ → List β → σ → Prop
  | refl {s : σ} : Shows L obs s [] s
  | silent {s t u : σ} {a : α} {ys : List β} : L.step s a t → obs s a t = none →
      Shows L obs t ys u → Shows L obs s ys u
  | shown {s t u : σ} {a : α} {y : β} {ys : List β} : L.step s a t → obs s a t = some y →
      Shows L obs t ys u → Shows L obs s (y :: ys) u

/-- A forward simulation: what a step shows, `M` can do as well, and a step that shows nothing
stays with the same state of `M`. -/
structure Refines (L : LTS σ α) (obs : σ → α → σ → Option β) (M : LTS τ β)
    (R : σ → τ → Prop) : Prop where
  initial : ∀ s, L.initial s → ∃ x, M.initial x ∧ R s x
  silent : ∀ s a t x, L.Reachable s → L.step s a t → obs s a t = none → R s x → R t x
  shown : ∀ s a t x y, L.Reachable s → L.step s a t → obs s a t = some y → R s x →
    ∃ x', M.step x y x' ∧ R t x'

variable {L : LTS σ α} {obs : σ → α → σ → Option β} {M : LTS τ β} {R : σ → τ → Prop}
variable {s t : σ} {x : τ} {ys : List β}

theorem Refines.trace_of_related (h : L.Refines obs M R) (hs : L.Reachable s) (hR : R s x)
    (hshows : L.Shows obs s ys t) : ∃ x', M.Trace x ys x' ∧ R t x' := by
  induction hshows generalizing x with
  | refl => exact ⟨x, .refl, hR⟩
  | silent hst hobs _ ih => exact ih (hs.step hst) (h.silent _ _ _ _ hs hst hobs hR)
  | shown hst hobs _ ih =>
    obtain ⟨x₁, hx, hR₁⟩ := h.shown _ _ _ _ _ hs hst hobs hR
    obtain ⟨x₂, htrace, hR₂⟩ := ih (hs.step hst) hR₁
    exact ⟨x₂, .stepL hx htrace, hR₂⟩

/-- What a run from the beginning shows is a run of `M`. -/
theorem Refines.trace (h : L.Refines obs M R) (hs : L.initial s) (hshows : L.Shows obs s ys t) :
    ∃ x x', M.initial x ∧ M.Trace x ys x' := by
  obtain ⟨x, hx, hR⟩ := h.initial s hs
  obtain ⟨x', htrace, _⟩ := h.trace_of_related (.of_initial hs) hR hshows
  exact ⟨x, x', hx, htrace⟩

/-! ### Composition -/

/-- The client takes part in each step that shows something, and has steps of its own. -/
inductive ComposedStep (L : LTS σ α) (obs : σ → α → σ → Option β) (C : LTS γ (β ⊕ δ)) :
    σ × γ → α ⊕ δ → σ × γ → Prop
  | silent {s t : σ} {c : γ} {a : α} (h : L.step s a t) (hobs : obs s a t = none) :
      ComposedStep L obs C (s, c) (.inl a) (t, c)
  | joint {s t : σ} {c d : γ} {a : α} {y : β} (h : L.step s a t) (hobs : obs s a t = some y)
      (hc : C.step c (.inl y) d) : ComposedStep L obs C (s, c) (.inl a) (t, d)
  | own {s : σ} {c d : γ} {e : δ} (hc : C.step c (.inr e) d) :
      ComposedStep L obs C (s, c) (.inr e) (s, d)

def compose (L : LTS σ α) (obs : σ → α → σ → Option β) (C : LTS γ (β ⊕ δ)) :
    LTS (σ × γ) (α ⊕ δ) where
  initial p := L.initial p.1 ∧ C.initial p.2
  step := ComposedStep L obs C

/-- All of a label is shown. -/
def all (_ : τ) (y : β) (_ : τ) : Option β := some y

variable {C : LTS γ (β ⊕ δ)} {p : σ × γ}

theorem reachable_left (h : (L.compose obs C).Reachable p) : L.Reachable p.1 := by
  apply h.invariant
  · intro p hp
    exact .of_initial hp.1
  · intro p a q hpq hp
    cases hpq with
    | silent hst _ | joint hst _ _ => exact hp.step hst
    | own _ => exact hp

/-- What a client can meet with `L`, it can meet with `M`. -/
theorem Refines.compose (h : L.Refines obs M R) (hp : (L.compose obs C).Reachable p) :
    ∃ x, (M.compose all C).Reachable (x, p.2) ∧ R p.1 x := by
  apply hp.invariant_of_reachable
  · rintro ⟨s, c⟩ ⟨hs, hc⟩
    obtain ⟨x, hx, hR⟩ := h.initial s hs
    exact ⟨x, .of_initial ⟨hx, hc⟩, hR⟩
  · rintro p a q hr hpq ⟨x, hx, hR⟩
    have hs := reachable_left hr
    cases hpq with
    | silent hst hobs => exact ⟨x, hx, h.silent _ _ _ _ hs hst hobs hR⟩
    | joint hst hobs hc =>
      obtain ⟨x', hstep, hR'⟩ := h.shown _ _ _ _ _ hs hst hobs hR
      exact ⟨x', hx.step (.joint hstep rfl hc), hR'⟩
    | own hc => exact ⟨x, hx.step (.own hc), hR⟩

/-! ### Recording -/

/-- `L` with a list of what its run has shown so far. -/
def recorded (L : LTS σ α) (obs : σ → α → σ → Option β) : LTS (σ × List β) α where
  initial p := L.initial p.1 ∧ p.2 = []
  step p a q := L.step p.1 a q.1 ∧ q.2 = p.2 ++ (obs p.1 a q.1).toList

variable {q : σ × List β}

theorem reachable_of_recorded (h : (L.recorded obs).Reachable q) : L.Reachable q.1 := by
  apply h.invariant
  · rintro p ⟨hp, -⟩
    exact .of_initial hp
  · rintro p a q ⟨hst, -⟩ hp
    exact hp.step hst

/-- To record a run does not hinder it. -/
theorem Reachable.recorded (h : L.Reachable s) : ∃ ys, (L.recorded obs).Reachable (s, ys) := by
  apply h.invariant
  · intro s hs
    exact ⟨[], .of_initial ⟨hs, rfl⟩⟩
  · rintro s a t hst ⟨ys, hys⟩
    exact ⟨_, hys.step (t := (t, ys ++ (obs s a t).toList)) ⟨hst, rfl⟩⟩

end SystemCalls.LTS

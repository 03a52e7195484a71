import SystemCalls.Transition

/-!
# The abstract lock

What a lock is for, whatever it is made of: threads call for it, one of them at a time gets it,
and that one gives it back. Nothing here names a program.
-/

namespace SystemCalls.Lock

inductive Phase
  | idle
  | waiting
  | holding
  deriving DecidableEq

inductive Call (T : Type*)
  | call (t : T)
  | acquire (t : T)
  | release (t : T)

variable {T : Type*} [DecidableEq T]

inductive Step : (T → Phase) → Call T → (T → Phase) → Prop
  | call {s : T → Phase} {t : T} (h : s t = .idle) :
      Step s (.call t) (Function.update s t .waiting)
  | acquire {s : T → Phase} {t : T} (h : s t = .waiting) (hfree : ∀ u, s u ≠ .holding) :
      Step s (.acquire t) (Function.update s t .holding)
  | release {s : T → Phase} {t : T} (h : s t = .holding) :
      Step s (.release t) (Function.update s t .idle)

def system (T : Type*) [DecidableEq T] : LTS (T → Phase) (Call T) where
  initial s := s = fun _ => .idle
  step := Step

def Exclusive (s : T → Phase) : Prop :=
  ∀ t u, s t = .holding → s u = .holding → t = u

variable {s s' : T → Phase} {a : Call T}

theorem Exclusive.set {t : T} {p : Phase} (hs : Exclusive s)
    (h : p = .holding → ∀ u, s u ≠ .holding) : Exclusive (Function.update s t p) := by
  intro u v hu hv
  by_cases hut : u = t
  · by_cases hvt : v = t
    · rw [hut, hvt]
    · subst hut
      rw [Function.update_self] at hu
      rw [Function.update_of_ne hvt] at hv
      exact (h hu v hv).elim
  · rw [Function.update_of_ne hut] at hu
    by_cases hvt : v = t
    · subst hvt
      rw [Function.update_self] at hv
      exact (h hv u hu).elim
    · rw [Function.update_of_ne hvt] at hv
      exact hs u v hu hv

theorem exclusive_step (h : Step s a s') (hs : Exclusive s) : Exclusive s' := by
  cases h with
  | call h | release h => exact hs.set nofun
  | acquire h hfree => exact hs.set fun _ => hfree

end SystemCalls.Lock

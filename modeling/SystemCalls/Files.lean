import Mathlib.Logic.Function.Basic
import Mathlib.Data.List.Perm.Basic
import Mathlib.Data.List.Pairwise

/-!
# Files that are overwritten

A disk maps paths to contents, and a list of writes is done in order. The last write to a path
decides what is there, so lists of writes to different paths can be reordered.
-/

namespace SystemCalls.Files

variable {α β γ : Type*} [DecidableEq α] {ws ws' : List (α × β)} {d d' : α → Option β} {p : α}

def writeAll (d : α → Option β) (ws : List (α × β)) : α → Option β :=
  ws.foldl (fun d w => Function.update d w.1 (some w.2)) d

@[simp] theorem writeAll_nil : writeAll d [] = d := rfl

@[simp] theorem writeAll_cons (w : α × β) :
    writeAll d (w :: ws) = writeAll (Function.update d w.1 (some w.2)) ws := rfl

theorem writeAll_append : writeAll d (ws ++ ws') = writeAll (writeAll d ws) ws' :=
  List.foldl_append

theorem writeAll_of_ne (h : ∀ w ∈ ws, w.1 ≠ p) : writeAll d ws p = d p := by
  induction ws generalizing d with
  | nil => rfl
  | cons w ws ih =>
    rw [writeAll_cons, ih fun v hv => h v (by simp [hv])]
    exact Function.update_of_ne (h w (by simp)).symm _ _

/-- What is at a path that is written does not depend on what was there. -/
theorem writeAll_congr (h : ∃ w ∈ ws, w.1 = p) : writeAll d ws p = writeAll d' ws p := by
  induction ws generalizing d d' with
  | nil => simp at h
  | cons w ws ih =>
    by_cases hlater : ∃ v ∈ ws, v.1 = p
    · exact ih hlater
    · have hnone : ∀ v ∈ ws, v.1 ≠ p := fun v hv hp => hlater ⟨v, hv, hp⟩
      obtain ⟨v, hv, rfl⟩ := h
      have hfirst : v = w := by
        rcases List.mem_cons.mp hv with he | hv
        · exact he
        · exact absurd rfl (hnone v hv)
      subst hfirst
      simp [writeAll_of_ne hnone]

/-- Writes to the same paths again, or to more of them, leave nothing of the first ones. -/
theorem writeAll_writeAll (h : ∀ w ∈ ws, ∃ w' ∈ ws', w'.1 = w.1) :
    writeAll (writeAll d ws) ws' = writeAll d ws' := by
  funext p
  by_cases hp : ∃ w' ∈ ws', w'.1 = p
  · exact writeAll_congr hp
  · have hws' : ∀ w' ∈ ws', w'.1 ≠ p := fun w' hw' he => hp ⟨w', hw', he⟩
    have hws : ∀ w ∈ ws, w.1 ≠ p := by
      intro w hw he
      obtain ⟨w', hw', hsame⟩ := h w hw
      exact hws' w' hw' (hsame.trans he)
    rw [writeAll_of_ne hws', writeAll_of_ne hws', writeAll_of_ne hws]

/-- Lists of writes to different paths commute. -/
theorem writeAll_comm (h : ∀ w ∈ ws, ∀ w' ∈ ws', w.1 ≠ w'.1) :
    writeAll (writeAll d ws) ws' = writeAll (writeAll d ws') ws := by
  funext p
  by_cases hp : ∃ w ∈ ws, w.1 = p
  · have hother : ∀ w' ∈ ws', w'.1 ≠ p := by
      obtain ⟨w, hw, rfl⟩ := hp
      exact fun w' hw' he => h w hw w' hw' he.symm
    rw [writeAll_of_ne hother]
    exact writeAll_congr hp
  · have hws : ∀ w ∈ ws, w.1 ≠ p := fun w hw he => hp ⟨w, hw, he⟩
    rw [writeAll_of_ne hws]
    by_cases hp' : ∃ w' ∈ ws', w'.1 = p
    · exact writeAll_congr hp'
    · have hws' : ∀ w' ∈ ws', w'.1 ≠ p := fun w' hw' he => hp' ⟨w', hw', he⟩
      rw [writeAll_of_ne hws', writeAll_of_ne hws', writeAll_of_ne hws]

/-- The order in which several writers have their turns does not matter when they write
different paths. -/
theorem writeAll_perm {l l' : List γ} {f : γ → List (α × β)} (hperm : l.Perm l')
    (hpaths : l.Pairwise fun a b => ∀ w ∈ f a, ∀ w' ∈ f b, w.1 ≠ w'.1) :
    writeAll d (l.flatMap f) = writeAll d (l'.flatMap f) := by
  have hturns (l : List γ) :
      writeAll d (l.flatMap f) = l.foldl (fun d a => writeAll d (f a)) d := by
    unfold writeAll
    rw [List.foldl_flatMap]
  rw [hturns, hturns]
  refine hperm.foldl_eq' (fun a ha b hb d => ?_) d
  by_cases hab : a = b
  · rw [hab]
  · have hsymm : Std.Symm fun a b : γ => ∀ w ∈ f a, ∀ w' ∈ f b, w.1 ≠ w'.1 :=
      ⟨fun a b h w hw w' hw' he => h w' hw' w hw he.symm⟩
    exact writeAll_comm (hpaths.forall ha hb hab)

end SystemCalls.Files

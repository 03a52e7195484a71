import Mathlib.Algebra.BigOperators.Ring.Finset
import Mathlib.Data.Fintype.Basic

/-!
# Sums over processes

What becomes of a sum over all processes when one of them moves. Nothing here names a program.
-/

namespace SystemCalls

variable {I α : Type*} [DecidableEq I] [Fintype I]

/-- A sum changes only by the term of the process that moved. -/
theorem sum_update (f : α → ℕ) (g : I → α) (i : I) (a : α) :
    ∑ j, f (Function.update g i a j) + f (g i) = ∑ j, f (g j) + f a := by
  have hrest : ∑ j ∈ Finset.univ.erase i, f (Function.update g i a j) =
      ∑ j ∈ Finset.univ.erase i, f (g j) := by
    apply Finset.sum_congr rfl
    intro j hj
    rw [Function.update_of_ne (Finset.ne_of_mem_erase hj)]
  rw [← Finset.add_sum_erase _ _ (Finset.mem_univ i), hrest, Function.update_self,
    ← Finset.add_sum_erase _ (fun j => f (g j)) (Finset.mem_univ i)]
  omega

end SystemCalls

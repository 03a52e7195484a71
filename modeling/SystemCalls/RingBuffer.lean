import Mathlib.Algebra.Order.Group.Int
import Mathlib.Data.Int.ModEq

/-!
# Ring buffers

A ring of `cap` cells holds `count` values from index `head` on, indices wrapping
at `cap`. The two lemmas below say what storing at the tail and advancing the head
do to the sequence of values; the cells may hold values of any type.
-/

namespace SystemCalls.RingBuffer

variable {α : Type*} {cap head count : ℤ} {buf : ℤ → α} {v : α}

/-- The values of the ring, oldest first. -/
def contents (cap : ℤ) (buf : ℤ → α) (head count : ℤ) : List α :=
  (List.range count.toNat).map fun i : ℕ => buf ((head + i) % cap)

@[simp] theorem contents_zero : contents cap buf head 0 = [] := rfl

theorem length_contents : (contents cap buf head count).length = count.toNat := by
  simp [contents]

/-- Fewer than `cap` apart, two offsets name two cells. -/
theorem offset_ne {i j : ℤ} (hij : i < j) (hj : j - i < cap) :
    (head + i) % cap ≠ (head + j) % cap := by
  intro h
  have hd : cap ∣ (head + j) - (head + i) := Int.ModEq.dvd h
  have hle := Int.le_of_dvd (by omega) hd
  omega

/-- Storing in the cell after the last value appends it, if a cell is free. -/
theorem contents_store (h0 : 0 ≤ count) (hlt : count < cap) :
    contents cap (Function.update buf ((head + count) % cap) v) head (count + 1) =
      contents cap buf head count ++ [v] := by
  have hn : (count + 1).toNat = count.toNat + 1 := by omega
  have hlast : ((count.toNat : ℕ) : ℤ) = count := Int.toNat_of_nonneg h0
  simp only [contents, hn, List.range_succ, List.map_append, List.map_cons, List.map_nil,
    hlast, Function.update_self]
  congr 1
  apply List.map_congr_left
  intro i hi
  have hi' : (i : ℤ) < count := by
    have := List.mem_range.mp hi
    omega
  exact Function.update_of_ne (offset_ne hi' (by omega)) _ _

/-- The first value is in the head cell; advancing the head drops it. -/
theorem contents_advance (h : 0 < count) :
    contents cap buf head count =
      buf (head % cap) :: contents cap buf ((head + 1) % cap) (count - 1) := by
  have hn : count.toNat = (count - 1).toNat + 1 := by omega
  simp only [contents, hn, List.range_succ_eq_map, List.map_cons, List.map_map,
    Nat.cast_zero, add_zero]
  congr 1
  apply List.map_congr_left
  intro i _
  have he : ((head + 1) % cap + i) % cap = (head + 1 + i) % cap := Int.emod_add_emod _ _ _
  simp only [Function.comp_apply, Nat.cast_succ]
  rw [he, add_right_comm, add_assoc]

end SystemCalls.RingBuffer

import Mathlib.Data.Nat.Find
import Mathlib.Logic.Function.Basic

/-!
# Descriptor tables

The table of one process maps descriptor numbers to open files. New descriptors
take the lowest free number, and `fork` copies the whole table.
-/

namespace SystemCalls

/-- A descriptor table. Only finitely many numbers are ever in use. -/
structure Descriptors (F : Type*) where
  file : ℕ → Option F
  size : ℕ
  free_of_size_le : ∀ n, size ≤ n → file n = none

namespace Descriptors

variable {F G : Type*} {t : Descriptors F} {f g : F} {a b m n : ℕ}

/-- The table of a process that has exited. -/
def empty : Descriptors F where
  file _ := none
  size := 0
  free_of_size_le _ _ := rfl

theorem exists_free (t : Descriptors F) : ∃ n, (t.file n).isNone :=
  ⟨t.size, by simp [t.free_of_size_le]⟩

/-- The lowest free number, which `open`, `dup` and `pipe` take. -/
def lowest (t : Descriptors F) : ℕ :=
  Nat.find t.exists_free

/-- Makes descriptor `n` refer to `f`, whatever it referred to before. -/
def install (t : Descriptors F) (n : ℕ) (f : F) : Descriptors F where
  file := Function.update t.file n (some f)
  size := max t.size (n + 1)
  free_of_size_le m hm := by
    rw [Function.update_of_ne (by omega)]
    exact t.free_of_size_le m (by omega)

def close (t : Descriptors F) (n : ℕ) : Descriptors F where
  file := Function.update t.file n none
  size := t.size
  free_of_size_le m hm := by
    by_cases h : m = n
    · simp [h]
    · simpa [h] using t.free_of_size_le m hm

/-- `dup2(a, b)`: fails on a closed `a` and does nothing when the two are equal. -/
def dup2 (t : Descriptors F) (a b : ℕ) : Descriptors F :=
  match t.file a with
  | none => t
  | some f => if a = b then t else t.install b f

/-- `dup2(a, b)` in a process whose numbers have to be below `limit`, with `none` for -1. -/
def dup2OrFail (t : Descriptors F) (limit a b : ℕ) : Option (Descriptors F) :=
  if (t.file a).isSome ∧ b < limit then some (t.dup2 a b) else none

/-- `pipe`: the read end gets the lowest free number, the write end the next one. -/
def pipe (t : Descriptors F) (readEnd writeEnd : F) : (ℕ × ℕ) × Descriptors F :=
  let opened := t.install t.lowest readEnd
  ((t.lowest, opened.lowest), opened.install opened.lowest writeEnd)

/-- The same descriptors, with their files renamed. -/
def map (h : F → G) (t : Descriptors F) : Descriptors G where
  file n := (t.file n).map h
  size := t.size
  free_of_size_le n hn := by simp [t.free_of_size_le n hn]

/-- Some descriptor refers to `f`. -/
def Holds (t : Descriptors F) (f : F) : Prop :=
  ∃ n, t.file n = some f

@[simp] theorem file_empty : (empty : Descriptors F).file n = none := rfl

@[simp] theorem file_map (h : F → G) : (t.map h).file n = (t.file n).map h := rfl

theorem file_install : (t.install n f).file m = if m = n then some f else t.file m := by
  simp [install, Function.update_apply]

theorem file_close : (t.close n).file m = if m = n then none else t.file m := by
  simp [close, Function.update_apply]

theorem file_dup2 (ha : t.file a = some f) :
    (t.dup2 a b).file m = if m = b then some f else t.file m := by
  by_cases hab : a = b
  · subst b
    by_cases hm : m = a <;> simp [dup2, ha, hm]
  · simp [dup2, ha, hab, file_install]

theorem dup2OrFail_eq_some {u : Descriptors F} {limit : ℕ} (h : t.dup2OrFail limit a b = some u) :
    b < limit ∧ u = t.dup2 a b ∧ ∃ f, t.file a = some f := by
  unfold dup2OrFail at h
  split at h
  next hok =>
    cases h
    exact ⟨hok.2, rfl, Option.isSome_iff_exists.mp hok.1⟩
  next => cases h

theorem file_lowest (t : Descriptors F) : t.file t.lowest = none := by
  have h := Nat.find_spec t.exists_free
  exact Option.isNone_iff_eq_none.mp h

theorem lowest_le (h : t.file n = none) : t.lowest ≤ n :=
  Nat.find_min' t.exists_free (by simp [h])

theorem lowest_eq_zero_iff : t.lowest = 0 ↔ t.file 0 = none := by
  constructor
  · intro h
    rw [← h]
    exact t.file_lowest
  · intro h
    have hle := lowest_le h
    omega

theorem not_holds_empty : ¬ (empty : Descriptors F).Holds f := by
  rintro ⟨n, hn⟩
  simp at hn

theorem file_pipe (f g : F) : (t.pipe f g).2.file m =
    if m = (t.pipe f g).1.2 then some g else if m = (t.pipe f g).1.1 then some f else t.file m := by
  simp only [pipe, file_install]
  rfl

theorem file_pipe_fst (t : Descriptors F) (f g : F) : t.file (t.pipe f g).1.1 = none :=
  t.file_lowest

/-- The second number is free too, and it is another one. -/
theorem file_pipe_snd (t : Descriptors F) (f g : F) :
    (t.pipe f g).1.2 ≠ t.lowest ∧ t.file (t.pipe f g).1.2 = none := by
  have h := (t.install t.lowest f).file_lowest
  rw [file_install] at h
  split at h
  · cases h
  · exact ⟨‹_›, h⟩

/-- The write end's number is the greater one, so only the read end's can be 0. -/
theorem pipe_lt (t : Descriptors F) (f g : F) : (t.pipe f g).1.1 < (t.pipe f g).1.2 := by
  have hfree := file_pipe_snd t f g
  exact lt_of_le_of_ne (lowest_le hfree.2) hfree.1.symm

theorem pipe_eq_zero_iff (f g : F) : (t.pipe f g).1.1 = 0 ↔ t.file 0 = none :=
  lowest_eq_zero_iff

end Descriptors

end SystemCalls

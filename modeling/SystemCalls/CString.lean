import Mathlib.Data.List.TakeWhile

/-!
# Char arrays and C strings

A `char` array of fixed size that calls fill from its start on, and the NUL-terminated
string that is read from it. Bytes beyond those stored keep their old values.
-/

namespace SystemCalls

/-- `char buffer[size]` -/
structure CharBuf (size : ℕ) where
  bytes : List UInt8
  length_bytes : bytes.length = size

/-- The bytes of an ASCII text. -/
def ascii (text : String) : List UInt8 := text.toList.map fun c => c.toNat.toUInt8

/-- The bytes before the first NUL. -/
def cstr (bytes : List UInt8) : List UInt8 := bytes.takeWhile (· != 0)

namespace CharBuf

variable {size : ℕ} (b : CharBuf size) (data : List UInt8)

/-- A call stores `data` at the start of the array. -/
def write (h : data.length ≤ size) : CharBuf size where
  bytes := data ++ b.bytes.drop data.length
  length_bytes := by
    rw [List.length_append, List.length_drop, b.length_bytes]
    omega

/-- `buffer[i] = c` -/
def set (i : Fin size) (c : UInt8) : CharBuf size where
  bytes := b.bytes.set i c
  length_bytes := by rw [List.length_set, b.length_bytes]

/-- `data` and a NUL after it. -/
def terminated (h : data.length < size) : CharBuf size :=
  (b.write data h.le).set ⟨data.length, h⟩ 0

/-- An array of NULs. -/
def zero (size : ℕ) : CharBuf size := ⟨List.replicate size 0, List.length_replicate⟩

variable {data}

theorem bytes_terminated (h : data.length < size) :
    (b.terminated data h).bytes = data ++ 0 :: b.bytes.drop (data.length + 1) := by
  have hlen : data.length < b.bytes.length := b.length_bytes.symm ▸ h
  simp only [terminated, set, write]
  rw [List.set_append_right _ _ (Nat.le_refl _), Nat.sub_self, List.drop_eq_getElem_cons hlen,
    List.set_cons_zero]

theorem take_terminated (h : data.length < size) :
    (b.terminated data h).bytes.take data.length = data := by
  rw [bytes_terminated, List.take_left]

/-- Whatever stood in the array, `%s` prints `data` up to its first NUL. -/
theorem cstr_terminated (h : data.length < size) :
    cstr (b.terminated data h).bytes = cstr data := by
  rw [bytes_terminated, cstr, cstr, List.takeWhile_append]
  split
  next hall => simp [(List.takeWhile_prefix _).eq_of_length hall]
  next => rfl

end CharBuf

theorem cstr_isPrefix (bytes : List UInt8) : cstr bytes <+: bytes := List.takeWhile_prefix _

theorem length_cstr_le (bytes : List UInt8) : (cstr bytes).length ≤ bytes.length :=
  (cstr_isPrefix bytes).length_le

theorem cstr_eq_self {bytes : List UInt8} (h : ∀ b ∈ bytes, b ≠ 0) : cstr bytes = bytes := by
  rw [cstr, List.takeWhile_eq_self_iff]
  simpa using h

theorem cstr_eq_nil_iff {bytes : List UInt8} (h : bytes ≠ []) :
    cstr bytes = [] ↔ bytes.head? = some 0 := by
  cases bytes with
  | nil => exact (h rfl).elim
  | cons c bytes => by_cases hc : c = 0 <;> simp [cstr, hc]

theorem length_flatMap_cstr_le (lines : List (List UInt8)) :
    (lines.flatMap cstr).length ≤ lines.flatten.length := by
  induction lines with
  | nil => simp
  | cons l lines ih =>
    have hle := length_cstr_le l
    simp only [List.flatMap_cons, List.flatten_cons, List.length_append]
    omega

/-- Without a NUL in any line, nothing is cut off. -/
theorem cstr_eq_of_length {lines : List (List UInt8)}
    (h : lines.flatten.length ≤ (lines.flatMap cstr).length) : ∀ l ∈ lines, cstr l = l := by
  induction lines with
  | nil => simp
  | cons l lines ih =>
    have hle := length_cstr_le l
    have hles := length_flatMap_cstr_le lines
    simp only [List.flatMap_cons, List.flatten_cons, List.length_append] at h
    have hl : cstr l = l := (cstr_isPrefix l).eq_of_length (by omega)
    intro l' hl'
    rcases List.mem_cons.mp hl' with rfl | hmem
    · exact hl
    · exact ih (by omega) l' hmem

theorem flatMap_cstr_eq {lines : List (List UInt8)} (h : ∀ l ∈ lines, cstr l = l) :
    lines.flatMap cstr = lines.flatten := by
  rw [List.flatMap_def, List.map_congr_left h, List.map_id']

end SystemCalls

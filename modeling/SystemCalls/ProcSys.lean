import SystemCalls.CString
import Mathlib.Algebra.Group.Nat.Defs
import Mathlib.Algebra.Ring.Int.Defs
import Mathlib.Logic.Function.Basic

/-!
# Files below `/proc/sys`

`read_proc_sys` and `write_proc_sys` of 8.2.4. Both put the name into an array of 256 bytes, and
the reader has an array of its caller's size.
-/

namespace SystemCalls.ProcSys

/-- The handlers of a file: what they make of the bytes written, and what they give to be read. -/
structure Entry (V : Type*) where
  readable : Bool
  writable : Bool
  parse : List UInt8 → Option V
  print : V → List UInt8

/-- A path leads to an entry or to none, and several may lead to the same one, as with doubled
slashes. The values of different entries do not depend on each other. -/
structure Kernel (I V : Type*) where
  resolve : List UInt8 → Option I
  entry : I → Entry V
  value : I → V

/-- What `snprintf` leaves of a text in an array of `size` bytes, without the NUL. -/
def snprintf (size : ℕ) (text : List UInt8) : List UInt8 := text.take (size - 1)

/-- `path` -/
def path (rel : List UInt8) : List UInt8 := snprintf 256 (ascii "/proc/sys/" ++ rel)

variable {I V : Type*}

/-- Whether `write_proc_sys` returns 0, and the kernel afterwards. A write of no bytes sets
nothing. -/
def write_proc_sys [DecidableEq I] (k : Kernel I V) (rel val : List UInt8) :
    Bool × Kernel I V :=
  match k.resolve (path rel) with
  | none => (false, k)
  | some i =>
    if (k.entry i).writable = false then (false, k)
    else if val = [] then (true, k)
    else
      match (k.entry i).parse val with
      | none => (false, k)
      | some v => (true, { k with value := Function.update k.value i v })

inductive Result (outsz : ℕ)
  | failed
  | ok (out : CharBuf outsz)
  /-- The bytes do not fit in `out`. -/
  | overflow

/-- `outsz - 1`, in a `size_t`. -/
def count (outsz : ℕ) : ℕ := ((outsz - 1 : ℤ) % 2 ^ 64).toNat

/-- `out` with `bytes` and a NUL, which takes the place of a newline at the end. -/
def trimmed {outsz : ℕ} (out : CharBuf outsz) (bytes : List UInt8) (h : bytes.length < outsz) :
    CharBuf outsz :=
  if bytes.getLast? = some 10 then (out.terminated bytes h).set ⟨bytes.length - 1, by omega⟩ 0
  else out.terminated bytes h

def read_proc_sys (k : Kernel I V) (rel : List UInt8) {outsz : ℕ} (out : CharBuf outsz) :
    Result outsz :=
  match k.resolve (path rel) with
  | none => .failed
  | some i =>
    let bytes := ((k.entry i).print (k.value i)).take (count outsz)
    if (k.entry i).readable = false then .failed
    else if bytes = [] then .failed
    else if h : bytes.length < outsz then .ok (trimmed out bytes h)
    else .overflow

/-- A text that a line can hold. -/
def Plain (val : List UInt8) : Prop := ∀ b ∈ val, b ≠ 0 ∧ b ≠ 10

/-- The text is in the form in which the file itself shows what it holds, as a line. -/
def Entry.Shows (e : Entry V) (val : List UInt8) : Prop :=
  e.readable = true ∧ ∀ v, e.parse val = some v → e.print v = val ++ [10]

variable {k : Kernel I V} {rel rel' val : List UInt8} {outsz : ℕ} {out : CharBuf outsz}

theorem length_prefix : (ascii "/proc/sys/").length = 10 := by decide

/-- Names are told apart by what fits in the array. -/
theorem path_congr (h : rel.take 245 = rel'.take 245) : path rel = path rel' := by
  have htake (r : List UInt8) : path r = ascii "/proc/sys/" ++ r.take 245 := by
    rw [path, snprintf, List.take_append, length_prefix, List.take_of_length_le (by decide)]
  rw [htake, htake, h]

theorem count_eq (h : 0 < outsz) (hlt : outsz < 2 ^ 64) : count outsz = outsz - 1 := by
  unfold count
  omega

theorem cstr_append_zero (h : ∀ b ∈ val, b ≠ 0) (rest : List UInt8) :
    cstr (val ++ 0 :: rest) = val := by
  rw [cstr, List.takeWhile_append_of_pos (by simpa using h)]
  simp

/-- A line that fits is read without its newline. -/
theorem cstr_trimmed_line (hval : Plain val) (h : (val ++ [10]).length < outsz) :
    cstr (trimmed out (val ++ [10]) h).bytes = val := by
  rw [trimmed, if_pos (by simp)]
  simp only [CharBuf.set, CharBuf.bytes_terminated]
  rw [List.append_assoc, List.set_append_right _ _ (by simp)]
  simpa using cstr_append_zero (fun b hb => (hval b hb).1) _

theorem cstr_trimmed_plain (hval : Plain val) (h : val.length < outsz) :
    cstr (trimmed out val h).bytes = val := by
  have hlast : val.getLast? ≠ some 10 := by
    intro hl
    exact (hval 10 (List.mem_of_getLast? hl)).2 rfl
  rw [trimmed, if_neg hlast, CharBuf.cstr_terminated]
  exact cstr_eq_self fun b hb => (hval b hb).1

/-- A line that a file gives is read up to the size of the array. -/
theorem read_line {i : I} (hi : k.resolve (path rel) = some i)
    (hr : (k.entry i).readable = true) (hval : Plain val)
    (hprint : (k.entry i).print (k.value i) = val ++ [10]) (hsize : 2 ≤ outsz)
    (hlt : outsz < 2 ^ 64) :
    ∃ out', read_proc_sys k rel out = .ok out' ∧ cstr out'.bytes = val.take (outsz - 1) := by
  have hcount : count outsz = outsz - 1 := count_eq (by omega) hlt
  unfold read_proc_sys
  rw [hi]
  simp only [hprint, hcount, hr, Bool.true_eq_false, if_false]
  by_cases hfits : val.length + 1 ≤ outsz - 1
  · have htake : (val ++ [10]).take (outsz - 1) = val ++ [10] :=
      List.take_of_length_le (by simpa using hfits)
    have hlen : (val ++ [10]).length < outsz := by
      rw [List.length_append, List.length_singleton]
      omega
    have hval' : val.take (outsz - 1) = val := List.take_of_length_le (by omega)
    simp only [htake, hval']
    rw [if_neg (by simp), dif_pos hlen]
    exact ⟨_, rfl, cstr_trimmed_line hval hlen⟩
  · have htake : (val ++ [10]).take (outsz - 1) = val.take (outsz - 1) :=
      List.take_append_of_le_length (by omega)
    have hplain : Plain (val.take (outsz - 1)) := fun b hb => hval b (List.mem_of_mem_take hb)
    have hlen : (val.take (outsz - 1)).length < outsz := by
      rw [List.length_take]
      omega
    have hne : val.take (outsz - 1) ≠ [] := by
      intro hnil
      have hzero := congrArg List.length hnil
      rw [List.length_take, List.length_nil] at hzero
      omega
    simp only [htake]
    rw [if_neg hne, dif_pos hlen]
    exact ⟨_, rfl, cstr_trimmed_plain hplain hlen⟩

variable [DecidableEq I]

theorem write_cases {k' : Kernel I V} (hw : write_proc_sys k rel val = (true, k'))
    (hne : val ≠ []) : ∃ i v, k.resolve (path rel) = some i ∧ (k.entry i).parse val = some v ∧
      k' = { k with value := Function.update k.value i v } := by
  unfold write_proc_sys at hw
  split at hw
  · cases hw
  · next i hi =>
    split at hw
    · cases hw
    · split at hw
      · cases hw
      · next v hv =>
        cases hw
        exact ⟨i, v, hi, hv, rfl⟩

/-- After a write that succeeded, the text is read under every name that leads to the same entry,
as every name does that agrees in 245 bytes, cut to the reader's array and without a sign of that;
under a name that leads elsewhere nothing has changed. -/
theorem read_after_write {k' : Kernel I V} (hw : write_proc_sys k rel val = (true, k'))
    (hshows : ∀ i, k.resolve (path rel) = some i → (k.entry i).Shows val) (hval : Plain val)
    (hne : val ≠ []) (hsize : 2 ≤ outsz) (hlt : outsz < 2 ^ 64) (rel' : List UInt8)
    (out : CharBuf outsz) :
    (rel'.take 245 = rel.take 245 → k.resolve (path rel') = k.resolve (path rel)) ∧
      (k.resolve (path rel') = k.resolve (path rel) →
        ∃ out', read_proc_sys k' rel' out = .ok out' ∧ cstr out'.bytes = val.take (outsz - 1)) ∧
      (k.resolve (path rel') ≠ k.resolve (path rel) →
        read_proc_sys k' rel' out = read_proc_sys k rel' out) := by
  obtain ⟨i, v, hi, hv, rfl⟩ := write_cases hw hne
  obtain ⟨hr, hprint⟩ := hshows i hi
  refine ⟨fun h => congrArg k.resolve (path_congr h), fun hsame => ?_, fun hother => ?_⟩
  · apply read_line (k := { k with value := Function.update k.value i v }) (i := i)
      (hsame.trans hi) hr hval ?_ hsize hlt
    simpa using hprint v hv
  · unfold read_proc_sys
    dsimp only
    split
    · rfl
    · next j hj =>
      have hne : j ≠ i := by
        rintro rfl
        exact hother (hj.trans hi.symm)
      simp only [Function.update_of_ne hne]

/-- One file, a line of text, to which a doubled slash leads as well. -/
def hostname : Kernel Unit (List UInt8) where
  resolve p :=
    if p = path (ascii "kernel/hostname") ∨ p = path (ascii "kernel//hostname") then some ()
    else none
  entry _ := ⟨true, true, some, fun v => v ++ [10]⟩
  value _ := []

theorem read_after_write_cut : ∃ k', write_proc_sys hostname (ascii "kernel/hostname")
    (ascii "box") = (true, k') ∧
    ∃ out', read_proc_sys k' (ascii "kernel//hostname") (CharBuf.zero 3) = .ok out' ∧
      cstr out'.bytes = (ascii "box").take 2 := by
  have hw : write_proc_sys hostname (ascii "kernel/hostname") (ascii "box") = (true,
    { hostname with value := Function.update hostname.value () (ascii "box") }) := rfl
  have hshows : ∀ i, hostname.resolve (path (ascii "kernel/hostname")) = some i →
      (hostname.entry i).Shows (ascii "box") := by
    rintro i -
    refine ⟨rfl, ?_⟩
    rintro v ⟨⟩
    rfl
  have hplain : Plain (ascii "box") := by
    intro b hb
    have hb : b = 98 ∨ b = 111 ∨ b = 120 := by simpa [ascii] using hb
    rcases hb with rfl | rfl | rfl <;> decide
  have hread := (read_after_write hw hshows hplain (by decide) (by decide) (by decide)
    (ascii "kernel//hostname") (CharBuf.zero 3)).2.1 (by decide)
  exact ⟨_, hw, hread⟩

end SystemCalls.ProcSys

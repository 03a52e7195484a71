import Mathlib.Data.Int.DivMod
import Mathlib.Data.List.TakeWhile
import Mathlib.Data.Nat.Digits.Defs

/-!
# `atoi`

`strtol` in base 10 on the bytes of a C string, and `atoi` as its result in an `int`: 64-bit
`long`, 32-bit `int`.
-/

namespace SystemCalls

def isspace (b : UInt8) : Bool := b == 32 || (9 ≤ b && b ≤ 13)

def isdigit (b : UInt8) : Bool := 48 ≤ b && b ≤ 57

def valueOf (digits : List UInt8) : ℕ :=
  digits.foldl (fun n b => 10 * n + (b.toNat - 48)) 0

/-- The value of the digits at the start. -/
def digitsValue (text : List UInt8) : ℕ := valueOf (text.takeWhile isdigit)

/-- The decimal integer at the start of `text`, 0 when there is none. -/
def decimal (text : List UInt8) : ℤ :=
  match text.dropWhile isspace with
  | 45 :: rest => -digitsValue rest
  | 43 :: rest => digitsValue rest
  | rest => digitsValue rest

abbrev LONG_MIN : ℤ := -2 ^ 63
abbrev LONG_MAX : ℤ := 2 ^ 63 - 1

def strtol (text : List UInt8) : ℤ := max LONG_MIN (min LONG_MAX (decimal text))

/-- `(int) strtol(text, NULL, 10)` -/
def atoi (text : List UInt8) : ℤ := (strtol text).bmod (2 ^ 32)

variable {text : List UInt8} {n : ℕ}

/-- A positive number below 2^31 is what the integer at the start leaves modulo 2^32. The two
values that `strtol` gives out of range become -1 and 0. -/
theorem atoi_eq_iff (h : 0 < n) (hn : n < 2 ^ 31) :
    atoi text = n ↔ LONG_MIN ≤ decimal text ∧ decimal text ≤ LONG_MAX ∧
      decimal text % 2 ^ 32 = n := by
  unfold atoi strtol LONG_MIN LONG_MAX
  generalize decimal text = z
  rw [Int.bmod_def]
  constructor
  · intro heq
    split at heq <;> omega
  · rintro ⟨hmin, hmax, hmod⟩
    split <;> omega

/-- The text of a number with the digits `l`, the lowest one first. -/
def digitBytes (l : List ℕ) : List UInt8 := l.reverse.map fun d => (48 + d).toUInt8

theorem toNat_digit {d : ℕ} (h : d < 10) : (48 + d).toUInt8.toNat = 48 + d := by
  rw [UInt8.toNat_ofNat_of_lt']
  simp only [UInt8.size]
  omega

theorem valueOf_digitBytes (l : List ℕ) (h : ∀ d ∈ l, d < 10) :
    valueOf (digitBytes l) = Nat.ofDigits 10 l := by
  induction l with
  | nil => rfl
  | cons d l ih =>
    have hd := toNat_digit (h d List.mem_cons_self)
    have hl := ih fun d hd => h d (List.mem_cons_of_mem _ hd)
    rw [Nat.ofDigits_cons, ← hl]
    simp only [valueOf, digitBytes, List.reverse_cons, List.map_append, List.foldl_append,
      List.map_cons, List.map_nil, List.foldl_cons, List.foldl_nil, hd]
    omega

theorem isspace_of_isdigit {b : UInt8} (h : isdigit b = true) : isspace b = false := by
  simp [isdigit, isspace, UInt8.le_iff_toNat_le, ← UInt8.toNat_inj] at h ⊢
  omega

/-- Digits are read up to something else. -/
theorem decimal_append {d v : List UInt8} (hd : ∀ b ∈ d, isdigit b = true) (hne : d ≠ [])
    (hv : ∀ b ∈ v.head?, isdigit b = false) : decimal (d ++ v) = valueOf d := by
  have htake : digitsValue (d ++ v) = valueOf d := by
    rw [digitsValue, List.takeWhile_append_of_pos hd]
    cases v with
    | nil => simp
    | cons b v => simp [hv b rfl]
  rw [← htake, decimal]
  cases d with
  | nil => exact (hne rfl).elim
  | cons b d =>
    have hb := hd b List.mem_cons_self
    rw [List.cons_append, List.dropWhile_cons_of_neg (by simp [isspace_of_isdigit hb])]
    split
    next heq =>
      cases heq
      simp [isdigit] at hb
    next heq =>
      cases heq
      simp [isdigit] at hb
    next => rfl

theorem strtol_append {d v : List UInt8} (hd : ∀ b ∈ d, isdigit b = true) (hne : d ≠ [])
    (hv : ∀ b ∈ v.head?, isdigit b = false) : strtol (d ++ v) = min LONG_MAX (valueOf d) := by
  rw [strtol, decimal_append hd hne hv]
  unfold LONG_MIN LONG_MAX
  omega

/-- A string of digits is read whole. -/
theorem decimal_of_isdigit (h : ∀ b ∈ text, isdigit b = true) : decimal text = valueOf text := by
  cases text with
  | nil => rfl
  | cons b text => simpa using decimal_append (v := []) h (by simp) (by simp)

/-- What `printf` writes for `%d` is read back. -/
theorem decimal_digitBytes (n : ℕ) : decimal (digitBytes (Nat.digits 10 n)) = n := by
  have hlt : ∀ d ∈ Nat.digits 10 n, d < 10 := fun d hd => Nat.digits_lt_base (by decide) hd
  rw [decimal_of_isdigit, valueOf_digitBytes _ hlt, Nat.ofDigits_digits]
  intro b hb
  obtain ⟨d, hd, rfl⟩ := List.mem_map.mp hb
  have hd := hlt d (List.mem_reverse.mp hd)
  simp [isdigit, UInt8.le_iff_toNat_le]
  omega

end SystemCalls

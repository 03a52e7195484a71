import Mathlib.Algebra.Group.Nat.Defs
import SystemCalls.ShmDemo.Model

/-!
# `shm_demo`: reading and storing bytes

What an access leaves at each offset, and the value that a stored `int` is read as.
-/

namespace SystemCalls.ShmDemo

variable {content bytes : List UInt8} {code : List Access} {a : Access} {offset k l size : ℕ}
  {n v : UInt32}

/-! ### Bytes -/

theorem length_poke (h : offset + bytes.length ≤ content.length) :
    (poke offset bytes content).length = content.length := by
  simp only [poke, List.length_append, List.length_take, List.length_drop]
  omega

theorem getElem?_poke (h : offset + bytes.length ≤ content.length) :
    (poke offset bytes content)[l]? =
      if offset ≤ l ∧ l < offset + bytes.length then bytes[l - offset]? else content[l]? := by
  have htake : (content.take offset).length = offset := by
    rw [List.length_take]
    omega
  rw [poke, List.append_assoc]
  by_cases hlo : offset ≤ l
  · rw [List.getElem?_append_right (by omega), htake]
    by_cases hhi : l < offset + bytes.length
    · rw [List.getElem?_append_left (by omega), if_pos ⟨hlo, hhi⟩]
    · have hindex : offset + bytes.length + (l - offset - bytes.length) = l := by omega
      rw [List.getElem?_append_right (by omega), if_neg (by omega), List.getElem?_drop, hindex]
  · rw [List.getElem?_append_left (by omega), if_neg (by omega),
      List.getElem?_take_of_lt (by omega)]

/-- The first of several bytes can be stored before the others. -/
theorem poke_cons {b : UInt8} (h : offset + (b :: bytes).length ≤ content.length) :
    poke (offset + 1) bytes (poke offset [b] content) = poke offset (b :: bytes) content := by
  have hlen : (b :: bytes).length = bytes.length + 1 := rfl
  have hone : offset + [b].length ≤ content.length := by
    rw [List.length_singleton]
    omega
  apply List.ext_getElem?
  intro l
  rw [getElem?_poke (by rw [length_poke hone]; omega), getElem?_poke hone, getElem?_poke h,
    List.length_singleton, hlen]
  rcases Nat.lt_trichotomy l offset with hl | hl | hl
  · rw [if_neg (by omega), if_neg (by omega), if_neg (by omega)]
  · rw [if_neg (by omega), if_pos (by omega), if_pos (by omega), hl]
    simp
  · have hindex : l - offset = l - (offset + 1) + 1 := by omega
    rw [if_neg (by omega : ¬ (offset ≤ l ∧ l < offset + 1)), hindex, List.getElem?_cons_succ]
    congr 1
    rw [eq_iff_iff]
    omega

/-! ### Integers -/

theorem toNat_shiftLeft_or {x : UInt32} {b : UInt8} (h : x.toNat < 2 ^ 24) :
    (x <<< 8 ||| b.toUInt32).toNat = x.toNat * 256 + b.toNat := by
  have hb : b.toNat < 2 ^ 8 := b.toNat_lt
  have hshift : x.toNat <<< 8 < 2 ^ 32 := by
    rw [Nat.shiftLeft_eq]
    omega
  rw [UInt32.toNat_or, UInt32.toNat_shiftLeft, UInt8.toNat_toUInt32]
  change (x.toNat <<< 8) % 2 ^ 32 ||| b.toNat = _
  rw [Nat.mod_eq_of_lt hshift, ← Nat.shiftLeft_add_eq_or_of_lt hb, Nat.shiftLeft_eq]

/-- Little endian. -/
theorem toNat_intAt {b0 b1 b2 b3 : UInt8} {rest : List UInt8} :
    (intAt (b0 :: b1 :: b2 :: b3 :: rest)).toNat =
      ((b3.toNat * 256 + b2.toNat) * 256 + b1.toNat) * 256 + b0.toNat := by
  have hbyte (b : UInt8) : b.toNat < 256 := b.toNat_lt
  have h1 := hbyte b1
  have h2 := hbyte b2
  have h3 := hbyte b3
  obtain ⟨x3, hx3, e3⟩ : ∃ x, x = (0 : UInt32) <<< 8 ||| b3.toUInt32 ∧ x.toNat = b3.toNat :=
    ⟨_, rfl, by simp⟩
  obtain ⟨x2, hx2, e2⟩ : ∃ x, x = x3 <<< 8 ||| b2.toUInt32 ∧ x.toNat = x3.toNat * 256 + b2.toNat :=
    ⟨_, rfl, toNat_shiftLeft_or (by omega)⟩
  obtain ⟨x1, hx1, e1⟩ : ∃ x, x = x2 <<< 8 ||| b1.toUInt32 ∧ x.toNat = x2.toNat * 256 + b1.toNat :=
    ⟨_, rfl, toNat_shiftLeft_or (by omega)⟩
  have hint : intAt (b0 :: b1 :: b2 :: b3 :: rest) = x1 <<< 8 ||| b0.toUInt32 := by
    rw [hx1, hx2, hx3]
    rfl
  rw [hint, toNat_shiftLeft_or (by omega), e1, e2, e3]

/-- Reading back what was stored. -/
theorem intAt_intBytes (n : UInt32) (bytes : List UInt8) : intAt (intBytes n ++ bytes) = n := by
  have hn : n.toNat < 2 ^ 32 := n.toNat_lt
  apply UInt32.toNat_inj.mp
  rw [intBytes, List.cons_append, List.cons_append, List.cons_append, List.cons_append, toNat_intAt]
  simp [Nat.shiftRight_eq_div_pow]
  omega

/-- Only the first four bytes count. -/
theorem intAt_congr {content' : List UInt8} (h : ∀ l < 4, content[l]? = content'[l]?) :
    intAt content = intAt content' := by
  have htake : content.take 4 = content'.take 4 := by
    apply List.ext_getElem?
    intro l
    by_cases hl : l < 4
    · rw [List.getElem?_take_of_lt hl, List.getElem?_take_of_lt hl, h l hl]
    · rw [List.getElem?_take_eq_none (by omega), List.getElem?_take_eq_none (by omega)]
  rw [intAt, htake, intAt]

theorem intAt_drop_poke (n : UInt32) (h : offset + 4 ≤ content.length) :
    intAt ((poke offset (intBytes n) content).drop offset) = n := by
  have htake : (content.take offset).length = offset := by
    rw [List.length_take]
    omega
  rw [poke, List.append_assoc, List.drop_append_of_le_length (Nat.le_of_eq htake.symm),
    List.drop_eq_nil_of_le (Nat.le_of_eq htake), List.nil_append, intAt_intBytes]

/-! ### Accesses -/

/-- The offsets at which an access stores. -/
def Access.Writes : Access → ℕ → Prop
  | .put offset bytes, l => offset ≤ l ∧ l < offset + bytes.length
  | .load, _ => False
  | .store, l => l < 4

/-- In a segment of `size` bytes. -/
def Access.Within (size : ℕ) : Access → Prop
  | .put offset bytes => offset + bytes.length ≤ size
  | .load => True
  | .store => 4 ≤ size

theorem Access.length_run (h : a.Within content.length) :
    (a.run v content).2.length = content.length := by
  cases a with
  | put offset bytes => exact length_poke h
  | load => rfl
  | store =>
    have h : 4 ≤ content.length := h
    exact length_poke (by simpa [intBytes] using h)

theorem Access.getElem?_run (h : a.Within content.length) (hl : ¬ a.Writes l) :
    (a.run v content).2[l]? = content[l]? := by
  cases a with
  | put offset bytes => exact (getElem?_poke h).trans (if_neg hl)
  | load => rfl
  | store =>
    have h : 4 ≤ content.length := h
    have hl : ¬ (0 ≤ l ∧ l < 0 + (intBytes (v + 1)).length) := by
      simpa [intBytes, Access.Writes] using hl
    exact (getElem?_poke (by simpa [intBytes] using h)).trans (if_neg hl)

/-- The memory after all of `code`. -/
def runAll (code : List Access) (content : List UInt8) : List UInt8 :=
  code.foldl (fun content a => (a.run 0 content).2) content

@[simp] theorem runAll_nil : runAll [] content = content := rfl

@[simp] theorem runAll_cons : runAll (a :: code) content = runAll code (a.run 0 content).2 := rfl

theorem runAll_append {code' : List Access} :
    runAll (code ++ code') content = runAll code' (runAll code content) :=
  List.foldl_append

theorem length_runAll (h : ∀ a ∈ code, a.Within content.length) :
    (runAll code content).length = content.length := by
  induction code generalizing content with
  | nil => rfl
  | cons a code ih =>
    have hlen := Access.length_run (v := 0) (h a List.mem_cons_self)
    rw [runAll_cons, ih fun a ha => hlen ▸ h a (List.mem_cons_of_mem _ ha), hlen]

/-- A byte to which there is no store left has its final value. -/
theorem getElem?_runAll (h : ∀ a ∈ code, a.Within content.length)
    (hl : ∀ a ∈ code, ¬ a.Writes l) : (runAll code content)[l]? = content[l]? := by
  induction code generalizing content with
  | nil => rfl
  | cons a code ih =>
    have ha := h a List.mem_cons_self
    have hlen := Access.length_run (v := 0) ha
    rw [runAll_cons, ih (fun a ha => hlen ▸ h a (List.mem_cons_of_mem _ ha))
        (fun a ha => hl a (List.mem_cons_of_mem _ ha)),
      Access.getElem?_run ha (hl a List.mem_cons_self)]

/-- `strcpy` to `offset`, one byte at a time. -/
def strcpy (offset : ℕ) (text : String) : List Access :=
  (cString text).zipIdx.map fun (byte, i) => .put (offset + i) [byte]

theorem runAll_bytes (h : offset + k + bytes.length ≤ content.length) :
    runAll ((bytes.zipIdx k).map fun (byte, i) => .put (offset + i) [byte]) content =
      poke (offset + k) bytes content := by
  induction bytes generalizing content k with
  | nil => simp [poke]
  | cons b bytes ih =>
    have hlen : (b :: bytes).length = bytes.length + 1 := rfl
    have hone : offset + k + [b].length ≤ content.length := by
      rw [List.length_singleton]
      omega
    rw [List.zipIdx_cons, List.map_cons, runAll_cons]
    change runAll _ (poke (offset + k) [b] content) = _
    rw [ih (by rw [length_poke hone]; omega)]
    exact poke_cons h

/-- Which is the same as all bytes at once. -/
theorem runAll_strcpy {text : String} (h : offset + (cString text).length ≤ content.length) :
    runAll (strcpy offset text) content = poke offset (cString text) content :=
  runAll_bytes (k := 0) h

end SystemCalls.ShmDemo

import Mathlib.Data.List.Basic
import Mathlib.Data.List.DropRight
import Mathlib.Data.List.Chain

/-!
# Standard streams

The buffer of an output stream in one process, the lines of what several writers put
into one output, and `fgets` on an input stream. Line buffered the buffer is written out
at every newline, in both modes when it reaches its capacity.
-/

namespace SystemCalls.Stdio

inductive Mode
  | line
  | full
  deriving DecidableEq

structure Buffering where
  mode : Mode
  cap : ℕ
  cap_pos : 0 < cap

variable {α : Type*} (b : Buffering) (newline : α → Bool) (buffer : List α) (a : α)

/-- The buffer after `a` is put, and what is written out by that. -/
def put : List α × List α :=
  if (b.mode = .line ∧ newline a = true) ∨ b.cap ≤ buffer.length + 1 then
    ([], buffer ++ [a])
  else
    (buffer ++ [a], [])

/-- Nothing is lost or added: what is written out comes before what stays. -/
theorem put_append : (put b newline buffer a).2 ++ (put b newline buffer a).1 = buffer ++ [a] := by
  unfold put
  split <;> simp

variable {b newline buffer a}

theorem put_ne_nil : (put b newline buffer a).2 ≠ [] ↔
    (b.mode = .line ∧ newline a = true) ∨ b.cap ≤ buffer.length + 1 := by
  unfold put
  split <;> simp [*]

theorem put_newline (hm : b.mode = .line) (ha : newline a = true) :
    (put b newline buffer a).1 = [] := by
  simp [put, hm, ha]

/-- Fully buffered, the buffer holds what is left of a multiple of its capacity. -/
theorem length_put_full (hm : b.mode = .full) {n : ℕ} (hn : buffer.length = n % b.cap) :
    (put b newline buffer a).1.length = (n + 1) % b.cap := by
  have hlt := Nat.mod_lt n b.cap_pos
  have hmod : (n + 1) % b.cap = (n % b.cap + 1) % b.cap := by rw [Nat.mod_add_mod]
  by_cases hc : b.cap ≤ buffer.length + 1
  · have he : n % b.cap + 1 = b.cap := by omega
    simp [put, hm, hc, hmod, he]
  · have he : n % b.cap + 1 < b.cap := by omega
    simp [put, hm, hmod, Nat.mod_eq_of_lt he, hn, Nat.not_le.mpr he]

/-! ### A whole text -/

/-- The buffer after a text is put, and what is written out by that. -/
def puts (b : Buffering) (newline : α → Bool) : List α → List α → List α × List α
  | buffer, [] => (buffer, [])
  | buffer, a :: text =>
    let r := put b newline buffer a
    let s := puts b newline r.1 text
    (s.1, r.2 ++ s.2)

/-- What stays in the buffer of a stream to which a text was printed: full buffers go out,
and line buffered everything up to the last newline does. -/
def rest (b : Buffering) (newline : α → Bool) (text : List α) : List α :=
  let line := match b.mode with
    | .line => text.rtakeWhile (fun a => !newline a)
    | .full => text
  line.rtake (line.length % b.cap)

theorem puts_append (b : Buffering) (newline : α → Bool) (buffer text : List α) :
    (puts b newline buffer text).2 ++ (puts b newline buffer text).1 = buffer ++ text := by
  induction text generalizing buffer with
  | nil => simp [puts]
  | cons a text ih =>
    have hput := put_append b newline buffer a
    calc _ = (put b newline buffer a).2 ++ (put b newline buffer a).1 ++ text := by simp [puts, ih]
      _ = buffer ++ a :: text := by simp [hput]

theorem puts_concat (text : List α) (a : α) : (puts b newline buffer (text ++ [a])).1 =
    (put b newline (puts b newline buffer text).1 a).1 := by
  induction text generalizing buffer with
  | nil => simp [puts]
  | cons c text ih => simp [puts, ih]

theorem puts_puts (text next : List α) : (puts b newline buffer (text ++ next)).1 =
    (puts b newline (puts b newline buffer text).1 next).1 := by
  induction text generalizing buffer with
  | nil => simp [puts]
  | cons a text ih => simp [puts, ih]

/-- A partial line grows by one until the buffer is full. -/
theorem put_rtake {n : ℕ} {line : List α} (hn : line.length = n)
    (ha : ¬ (b.mode = .line ∧ newline a = true)) :
    (put b newline (line.rtake (n % b.cap)) a).1 = (line ++ [a]).rtake ((n + 1) % b.cap) := by
  have hlt := Nat.mod_lt n b.cap_pos
  have hle := Nat.mod_le n b.cap
  have hlen : (line.rtake (n % b.cap)).length = n % b.cap := by
    simp only [List.rtake, List.length_drop, hn]
    omega
  have hmod : (n + 1) % b.cap = (n % b.cap + 1) % b.cap := by rw [Nat.mod_add_mod]
  by_cases hc : b.cap ≤ n % b.cap + 1
  · have he : n % b.cap + 1 = b.cap := by omega
    simp [put, ha, hlen, hmod, he]
  · have he : n % b.cap + 1 < b.cap := by omega
    simp [put, ha, hlen, Nat.not_le.mpr he, hmod, Nat.mod_eq_of_lt he]

theorem puts_eq_rest (text : List α) : (puts b newline [] text).1 = rest b newline text := by
  induction text using List.reverseRecOn with
  | nil => cases h : b.mode <;> simp [puts, rest, h]
  | append_singleton text a ih =>
    rw [puts_concat, ih]
    by_cases ha : b.mode = .line ∧ newline a = true
    · simp [put, rest, ha.1, ha.2]
    · unfold rest
      rw [put_rtake rfl ha]
      cases h : b.mode with
      | full => simp
      | line => simp [show newline a = false by simpa [h] using ha]

theorem puts_rest (b : Buffering) (newline : α → Bool) (text next : List α) :
    (puts b newline (rest b newline text) next).1 = rest b newline (text ++ next) := by
  rw [← puts_eq_rest, ← puts_puts, puts_eq_rest]

/-- Fully buffered, a text shorter than the buffer stays in it. -/
theorem rest_of_length_lt {text : List α} (hm : b.mode = .full) (h : text.length < b.cap) :
    rest b newline text = text := by
  simp [rest, hm, Nat.mod_eq_of_lt h, List.rtake]

/-- Line buffered, nothing of a text of whole lines stays in the buffer. -/
theorem rest_of_lines {text : List α} (hm : b.mode = .line) (ha : newline a = true) :
    rest b newline (text ++ [a]) = [] := by
  simp [rest, hm, ha]

/-! ### Lines -/

section Lines

/-- A text cut after each newline. -/
def lines (newline : α → Bool) : List α → List (List α)
  | [] => []
  | a :: text =>
    if newline a then [a] :: lines newline text
    else (a :: (lines newline text).headD []) :: (lines newline text).tail

variable {κ : Type*} {who : α → κ} {text : List α}

theorem lines_cons_of_newline (ha : newline a = true) :
    lines newline (a :: text) = [a] :: lines newline text := by
  rw [lines, if_pos ha]

theorem flatten_lines (newline : α → Bool) (text : List α) :
    (lines newline text).flatten = text := by
  induction text with
  | nil => rfl
  | cons a text ih =>
    by_cases ha : newline a = true
    · simp [lines_cons_of_newline ha, ih]
    · rw [lines, if_neg ha]
      cases hl : lines newline text with
      | nil => simpa [hl] using ih
      | cons l ls => simpa [hl] using ih

/-- The first line starts with the first character. -/
theorem exists_lines_cons (newline : α → Bool) (a : α) (text : List α) :
    ∃ l ls, lines newline (a :: text) = (a :: l) :: ls := by
  rw [lines]
  split
  · exact ⟨[], _, rfl⟩
  · exact ⟨_, _, rfl⟩

theorem ne_nil_of_mem_lines {l : List α} (hl : l ∈ lines newline text) : l ≠ [] := by
  induction text generalizing l with
  | nil => simp [lines] at hl
  | cons a text ih =>
    rw [lines] at hl
    split at hl
    · rcases List.mem_cons.mp hl with rfl | hl
      · simp
      · exact ih hl
    · rcases List.mem_cons.mp hl with rfl | hl
      · simp
      · exact ih (List.mem_of_mem_tail hl)

/-- Without a newline the next line is continued. -/
theorem lines_cons_cons {c : α} {l : List α} {ls : List (List α)} (ha : ¬ newline a = true)
    (hl : lines newline (c :: text) = (c :: l) :: ls) :
    lines newline (a :: c :: text) = (a :: c :: l) :: ls := by
  rw [lines, if_neg ha, hl]
  rfl

/-- Only after a newline does another writer go on. -/
def Unbroken (newline : α → Bool) (who : α → κ) (text : List α) : Prop :=
  text.IsChain fun x y => newline x = true ∨ who x = who y

theorem unbroken_of_forall {k : κ} (h : ∀ x ∈ text, who x = k) : Unbroken newline who text := by
  induction text with
  | nil => exact List.isChain_nil
  | cons a text ih =>
    refine List.isChain_cons.mpr ⟨?_, ih fun x hx => h x (List.mem_cons_of_mem _ hx)⟩
    intro y hy
    have hmem := List.mem_of_mem_head? hy
    exact Or.inr ((h a List.mem_cons_self).trans (h y (List.mem_cons_of_mem _ hmem)).symm)

/-- A writer may add something when the text ends with a newline or with its own character. -/
theorem unbroken_append {k : κ} {next : List α} (h : Unbroken newline who text)
    (hk : ∀ x ∈ next, who x = k) : Unbroken newline who (text ++ next) ↔
      (next ≠ [] → ∀ x, text.getLast? = some x → newline x = true ∨ who x = k) := by
  unfold Unbroken
  rw [List.isChain_append]
  constructor
  · rintro ⟨-, -, hjoin⟩ hne x hx
    obtain ⟨y, next, rfl⟩ := List.exists_cons_of_ne_nil hne
    rw [← hk y List.mem_cons_self]
    exact hjoin x hx y rfl
  · intro hlast
    refine ⟨h, unbroken_of_forall hk, ?_⟩
    intro x hx y hy
    have hmem := List.mem_of_mem_head? hy
    rw [hk y hmem]
    exact hlast (List.ne_nil_of_mem hmem) x hx

/-- The lines of one writer are the lines that start with a character of that writer. -/
theorem lines_filter [DecidableEq κ] (k : κ) (h : Unbroken newline who text) :
    lines newline (text.filter fun x => who x = k) =
      (lines newline text).filter fun l => l.head?.map who = some k := by
  induction text with
  | nil => rfl
  | cons a text ih =>
    obtain ⟨hnext, htail⟩ := List.isChain_cons.mp h
    have ih := ih htail
    by_cases ha : newline a = true
    · by_cases hk : who a = k
      · simp [lines_cons_of_newline ha, hk, ih]
      · simp [lines_cons_of_newline ha, hk, ih]
    · cases text with
      | nil => by_cases hk : who a = k <;> simp [lines, ha, hk]
      | cons c text =>
        obtain ⟨l, ls, hl⟩ := exists_lines_cons newline c text
        have hc : who a = who c := (hnext c rfl).resolve_left ha
        rw [lines_cons_cons ha hl]
        rw [hl] at ih
        by_cases hk : who c = k
        · -- What follows `a` is still of that writer, and so is the line it is put before.
          rw [List.filter_cons_of_pos (by simpa using hk),
            List.filter_cons_of_pos (by simpa using hk)] at ih
          rw [List.filter_cons_of_pos (by simpa [hc] using hk),
            List.filter_cons_of_pos (by simpa using hk),
            List.filter_cons_of_pos (by simpa [hc] using hk), lines_cons_cons ha ih]
        · simpa [hc, hk] using ih

/-- When no line has characters of two writers, the text is unbroken. -/
theorem unbroken_of_lines (h : ∀ l ∈ lines newline text, ∃ k, ∀ x ∈ l, who x = k) :
    Unbroken newline who text := by
  induction text with
  | nil => exact List.isChain_nil
  | cons a text ih =>
    by_cases ha : newline a = true
    · rw [lines_cons_of_newline ha] at h
      refine List.isChain_cons.mpr ⟨fun _ _ => Or.inl ha, ih fun l hl => h l ?_⟩
      exact List.mem_cons_of_mem _ hl
    · cases text with
      | nil => exact List.isChain_singleton a
      | cons c text =>
        obtain ⟨l, ls, hl⟩ := exists_lines_cons newline c text
        rw [lines_cons_cons ha hl] at h
        obtain ⟨k, hk⟩ := h _ List.mem_cons_self
        refine List.isChain_cons_cons.mpr ⟨Or.inr ?_, ih ?_⟩
        · rw [hk a (by simp), hk c (by simp)]
        · intro m hm
          rw [hl] at hm
          rcases List.mem_cons.mp hm with rfl | hm
          · exact ⟨k, fun x hx => hk x (List.mem_cons_of_mem _ hx)⟩
          · exact h m (List.mem_cons_of_mem _ hm)

/-- A list is made of its parts, one for each key. -/
theorem flatMap_filter_perm [DecidableEq κ] {keys : List κ} (hkeys : keys.Nodup) {f : α → κ}
    {l : List α} (hl : ∀ a ∈ l, f a ∈ keys) :
    (keys.flatMap fun k => l.filter fun a => f a = k).Perm l := by
  induction keys generalizing l with
  | nil =>
    obtain rfl : l = [] := List.eq_nil_iff_forall_not_mem.mpr fun a ha => by simpa using hl a ha
    simp
  | cons k keys ih =>
    obtain ⟨hk, hkeys⟩ := List.nodup_cons.mp hkeys
    have hrest : ∀ a ∈ l.filter fun a => ¬ f a = k, f a ∈ keys := by
      intro a ha
      obtain ⟨ha, hne⟩ := List.mem_filter.mp ha
      exact (List.mem_cons.mp (hl a ha)).resolve_left (by simpa using hne)
    have hparts : (keys.flatMap fun k' => l.filter fun a => f a = k') =
        keys.flatMap fun k' => (l.filter fun a => ¬ f a = k).filter fun a => f a = k' := by
      refine List.flatMap_congr fun k' hk' => ?_
      rw [List.filter_filter]
      refine List.filter_congr fun a _ => ?_
      by_cases hf : f a = k'
      · have hne : ¬ k' = k := fun h => hk (h ▸ hk')
        simp [hf, hne]
      · simp [hf]
    rw [List.flatMap_cons, hparts]
    refine ((ih hkeys hrest).append_left _).trans ?_
    simpa using List.filter_append_perm (fun a => decide (f a = k)) l

end Lines

/-! ### Input -/

/-- The bytes `fgets` takes of the input: at most `max`, through the first newline. -/
def fgets : ℕ → List UInt8 → List UInt8
  | 0, _ | _ + 1, [] => []
  | max + 1, c :: input => if c = 10 then [c] else c :: fgets max input

variable (max : ℕ) (input : List UInt8)

theorem length_fgets_le : (fgets max input).length ≤ max := by
  fun_induction fgets max input with
  | case1 | case2 | case3 => simp
  | case4 max c input hc ih => simpa using ih

theorem fgets_isPrefix : fgets max input <+: input := by
  fun_induction fgets max input with
  | case1 | case2 => simp
  | case3 => simp
  | case4 max c input hc ih => exact List.cons_prefix_cons.mpr ⟨rfl, ih⟩

variable {max input}

/-- What is read and what is left are the input. -/
theorem fgets_append_drop : fgets max input ++ input.drop (fgets max input).length = input := by
  have htake := List.prefix_iff_eq_take.mp (fgets_isPrefix max input)
  conv_rhs => rw [← List.take_append_drop (fgets max input).length input, ← htake]

theorem fgets_ne_nil (hmax : 0 < max) (hi : input ≠ []) : fgets max input ≠ [] := by
  fun_cases fgets max input with
  | case1 => simp at hmax
  | case2 => simp at hi
  | case3 | case4 => simp

theorem fgets_line {line tail : List UInt8} (h : ∀ b ∈ line, b ≠ 10) :
    fgets max (line ++ 10 :: tail) = (line ++ [10]).take max := by
  induction line generalizing max with
  | nil => cases max <;> simp [fgets]
  | cons b line ih =>
    cases max with
    | zero => simp [fgets]
    | succ max =>
      rw [List.forall_mem_cons] at h
      simp [fgets, h.1, ih h.2]

end SystemCalls.Stdio

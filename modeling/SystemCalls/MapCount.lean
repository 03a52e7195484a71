import Mathlib.Data.Finset.Basic
import Mathlib.Data.Finset.Card
import Mathlib.Data.Int.DivMod
import SystemCalls.AddressSpace
import SystemCalls.Transition

/-!
# Counting in a mapped file

The program of 3.3.7 from its `fstat` on, beside processes that write and cut the file while it
counts. What is counted is what stands in the file when the loop gets to it, and a page that is
no longer in the file kills the program.
-/

namespace SystemCalls.MapCount

open AddressSpace

inductive PC
  | fstat
  | mmap (len : ℕ)
  /-- In `count_char`, with the first page of the map. -/
  | count (len b i n : ℕ)
  | munmap (len b : ℕ) (count : ℤ)
  | close (len : ℕ) (count : ℤ)
  | printed (len : ℕ) (count : ℤ)
  | empty
  | failed (call : String)
  /-- SIGBUS at a byte of the map. -/
  | killed (i : ℕ)
  deriving DecidableEq

/-- The fields from `original` on are not the program's. -/
structure State (ι : Type*) where
  memory : Memory ι
  pc : PC
  /-- The bytes at the `fstat`. -/
  original : List UInt8
  /-- Where others have put another byte since, or none. -/
  changed : Finset ℕ
  /-- The least size since. -/
  least : ℕ

inductive Actor
  | program
  | others

variable {ι : Type*} (P : ℕ) (filename : ι) (needle : UInt8)

/-- The positions of the original bytes that are not there. -/
def differing (original bytes : List UInt8) : Finset ℕ :=
  (Finset.range original.length).filter fun j => bytes[j]?.getD 0 ≠ original[j]?.getD 0

namespace State

def goto (s : State ι) (pc : PC) : State ι := { s with pc }

/-- The file is found with these bytes. -/
def statted (s : State ι) (pc : PC) : State ι :=
  { s with pc, original := s.memory.content filename, changed := ∅,
           least := (s.memory.content filename).length }

def rewritten (s : State ι) (content : ι → List UInt8) : State ι :=
  { s with memory := { s.memory with content },
           changed := s.changed ∪ differing s.original (content filename),
           least := min s.least (content filename).length }

end State

/-- `return (int)n` -/
def toInt (n : ℕ) : ℤ := Int.bmod n 4294967296

inductive Step : State ι → Actor → State ι → Prop
  | statFails {s : State ι} : s.pc = .fstat → Step s .program (s.goto (.failed "fstat"))
  | stat {s : State ι} : s.pc = .fstat → s.memory.content filename ≠ [] →
      Step s .program (s.statted filename (.mmap (s.memory.content filename).length))
  | statEmpty {s : State ι} : s.pc = .fstat → s.memory.content filename = [] →
      Step s .program (s.statted filename .empty)
  | mapFails {s : State ι} {len : ℕ} : s.pc = .mmap len →
      Step s .program (s.goto (.failed "mmap"))
  | map {s : State ι} {len b : ℕ} {place : Placement ι} {m : Memory ι} : s.pc = .mmap len →
      s.memory.mmap P place len (filePage .readOnly filename) = some (b, m) →
      Step s .program { s with memory := m, pc := .count len b 0 0 }
  | read {s : State ι} {len b i n : ℕ} {c : UInt8} : s.pc = .count len b i n → i < len →
      s.memory.load P (b * P + i) = some c →
      Step s .program (s.goto (.count len b (i + 1) (if c = needle then n + 1 else n)))
  | fault {s : State ι} {len b i n : ℕ} : s.pc = .count len b i n → i < len →
      s.memory.load P (b * P + i) = none → Step s .program (s.goto (.killed i))
  | counted {s : State ι} {len b i n : ℕ} : s.pc = .count len b i n → ¬ i < len →
      Step s .program (s.goto (.munmap len b (toInt n)))
  | unmapFails {s : State ι} {len b : ℕ} {count : ℤ} : s.pc = .munmap len b count →
      Step s .program (s.goto (.failed "munmap"))
  | unmap {s : State ι} {len b : ℕ} {count : ℤ} : s.pc = .munmap len b count →
      Step s .program { s with memory := s.memory.munmap P b len, pc := .close len count }
  | closeFails {s : State ι} {len : ℕ} {count : ℤ} : s.pc = .close len count →
      Step s .program (s.goto (.failed "close"))
  | close {s : State ι} {len : ℕ} {count : ℤ} : s.pc = .close len count →
      Step s .program (s.goto (.printed len count))
  | others {s : State ι} {content : ι → List UInt8} :
      Step s .others (s.rewritten filename content)

def start (m : Memory ι) : State ι := ⟨m, .fstat, [], ∅, 0⟩

def system (m : Memory ι) : LTS (State ι) Actor where
  initial s := s = start m
  step := Step P filename needle

/-! ### The count -/

/-- After the first `i` bytes the count is off by no more than what was changed among them. -/
def Near (original : List UInt8) (changed : Finset ℕ) (i n : ℕ) : Prop :=
  n ≤ (original.take i).count needle + (changed.filter (· < i)).card ∧
    (original.take i).count needle ≤ n + (changed.filter (· < i)).card

variable {P filename needle} {original : List UInt8} {changed changed' : Finset ℕ} {i n : ℕ}

theorem count_take_succ (h : i < original.length) : (original.take (i + 1)).count needle =
    (original.take i).count needle + if original[i] = needle then 1 else 0 := by
  rw [List.take_succ_eq_append_getElem h, List.count_append, List.count_singleton]
  simp

theorem card_filter_succ : (changed.filter (· < i + 1)).card =
    (changed.filter (· < i)).card + if i ∈ changed then 1 else 0 := by
  have hnot : i ∉ changed.filter (· < i) := by simp
  by_cases hi : i ∈ changed
  · rw [if_pos hi, ← Finset.card_insert_of_notMem hnot]
    congr 1
    ext j
    simp only [Finset.mem_filter, Finset.mem_insert]
    constructor
    · rintro ⟨hj, hlt⟩
      rcases Nat.lt_or_eq_of_le (Nat.le_of_lt_succ hlt) with hlt | rfl
      · exact .inr ⟨hj, hlt⟩
      · exact .inl rfl
    · rintro (rfl | ⟨hj, hlt⟩)
      · exact ⟨hi, Nat.lt_succ_self j⟩
      · exact ⟨hj, Nat.lt_succ_of_lt hlt⟩
  · rw [if_neg hi, Nat.add_zero]
    congr 1
    apply Finset.filter_congr
    intro j hj
    have hne : j ≠ i := by
      rintro rfl
      exact hi hj
    omega

theorem near_zero : Near needle original changed 0 0 := by simp [Near]

theorem Near.read {c : UInt8} (h : Near needle original changed i n) (hi : i < original.length)
    (hc : i ∉ changed → c = original[i]) :
    Near needle original changed (i + 1) (if c = needle then n + 1 else n) := by
  obtain ⟨hle, hge⟩ := h
  unfold Near
  rw [count_take_succ hi, card_filter_succ]
  by_cases hmem : i ∈ changed
  · rw [if_pos hmem]
    constructor <;> split <;> split <;> omega
  · rw [if_neg hmem, hc hmem]
    constructor <;> split <;> omega

theorem Near.mono (h : Near needle original changed i n) (hsub : changed ⊆ changed') :
    Near needle original changed' i n := by
  have hcard := Finset.card_le_card (Finset.filter_subset_filter (· < i) hsub)
  obtain ⟨hle, hge⟩ := h
  exact ⟨by omega, by omega⟩

/-- At the end every position counts. -/
theorem Near.total (h : Near needle original changed original.length n) :
    n ≤ original.count needle + changed.card ∧ original.count needle ≤ n + changed.card := by
  have hcard := Finset.card_filter_le changed (· < original.length)
  obtain ⟨hle, hge⟩ := h
  rw [List.take_length] at hle hge
  exact ⟨by omega, by omega⟩

/-! ### Runs -/

variable {m₀ : Memory ι} {s t : State ι} {b len : ℕ}

/-- The file is mapped as a whole where nothing was, and nothing else has changed. -/
structure Mapped (P : ℕ) (filename : ι) (m₀ m : Memory ι) (b len : ℕ) : Prop where
  frame : m₀.Frame m b (pagesOf P len)
  free : ∀ p, b ≤ p → p < b + pagesOf P len → m₀.pages p = none
  file : m.FileMapped b (pagesOf P len) .readOnly filename

theorem Mapped.rewritten {content : ι → List UInt8} (h : Mapped P filename m₀ s.memory b len) :
    Mapped P filename m₀ (s.rewritten filename content).memory b len :=
  ⟨⟨h.frame.pages, h.frame.brk⟩, h.free, h.file⟩

/-- Nothing is mapped that was not. -/
def Unmapped (m₀ m : Memory ι) : Prop := m.pages = m₀.pages ∧ m.brk = m₀.brk

/-- The count, after the conversion. -/
def Result (needle : UInt8) (s : State ι) (len : ℕ) (value : ℤ) : Prop :=
  len = s.original.length ∧ ∃ n, value = toInt n ∧ Near needle s.original s.changed len n

def PC.Sound (P : ℕ) (filename : ι) (needle : UInt8) (m₀ : Memory ι) (s : State ι) : PC → Prop
  | fstat | empty => Unmapped m₀ s.memory
  | mmap len => len = s.original.length ∧ Unmapped m₀ s.memory
  | count len b i n => len = s.original.length ∧ i ≤ len ∧
      Near needle s.original s.changed i n ∧ Mapped P filename m₀ s.memory b len
  | munmap len b value => Result needle s len value ∧ Mapped P filename m₀ s.memory b len
  | close len value | printed len value => Result needle s len value ∧ Unmapped m₀ s.memory
  | failed _ => True
  | killed i => i < s.original.length ∧ s.least ≤ i / P * P

structure Sound (P : ℕ) (filename : ι) (needle : UInt8) (m₀ : Memory ι) (s : State ι) :
    Prop where
  pc : s.pc.Sound P filename needle m₀ s
  unchanged : ∀ j < s.original.length, j ∉ s.changed →
    (s.memory.content filename)[j]?.getD 0 = s.original[j]?.getD 0
  least : s.least ≤ (s.memory.content filename).length

theorem sound_start : Sound P filename needle m₀ (start m₀) :=
  ⟨⟨rfl, rfl⟩, nofun, Nat.zero_le _⟩

theorem sound_rewritten {content : ι → List UInt8} (hs : Sound P filename needle m₀ s) :
    Sound P filename needle m₀ (s.rewritten filename content) := by
  have hsub : s.changed ⊆ s.changed ∪ differing s.original (content filename) :=
    Finset.subset_union_left
  refine ⟨?_, ?_, Nat.min_le_right ..⟩
  · have hpc := hs.pc
    change PC.Sound P filename needle m₀ (s.rewritten filename content) s.pc
    cases hp : s.pc with
    | fstat | empty | mmap | failed =>
      rw [hp] at hpc
      exact hpc
    | count len b i n =>
      rw [hp] at hpc
      obtain ⟨hlen, hi, hnear, hmap⟩ := hpc
      exact ⟨hlen, hi, hnear.mono hsub, hmap.rewritten⟩
    | munmap len b count =>
      rw [hp] at hpc
      obtain ⟨⟨hlen, n, hn, hnear⟩, hmap⟩ := hpc
      exact ⟨⟨hlen, n, hn, hnear.mono hsub⟩, hmap.rewritten⟩
    | close len count | printed len count =>
      rw [hp] at hpc
      obtain ⟨⟨hlen, n, hn, hnear⟩, hun⟩ := hpc
      exact ⟨⟨hlen, n, hn, hnear.mono hsub⟩, hun⟩
    | killed i =>
      rw [hp] at hpc
      exact ⟨hpc.1, Nat.le_trans (Nat.min_le_left ..) hpc.2⟩
  · intro j hj hmem
    by_contra hne
    apply hmem
    exact Finset.mem_union_right _ (Finset.mem_filter.mpr ⟨Finset.mem_range.mpr hj, hne⟩)

/-- A step that leaves the memory and the record of the others alone. -/
theorem Sound.goto {pc : PC} (hs : Sound P filename needle m₀ s)
    (hpc : pc.Sound P filename needle m₀ s) : Sound P filename needle m₀ (s.goto pc) := by
  refine ⟨?_, hs.unchanged, hs.least⟩
  change pc.Sound P filename needle m₀ (s.goto pc)
  cases pc <;> exact hpc

theorem sound_statted {pc : PC}
    (hpc : pc.Sound P filename needle m₀ (s.statted filename pc)) :
    Sound P filename needle m₀ (s.statted filename pc) :=
  ⟨hpc, fun _ _ _ => rfl, Nat.le_refl _⟩

theorem load_count (hP : 0 < P) (hmap : Mapped P filename m₀ s.memory b len) (hi : i < len) :
    s.memory.load P (b * P + i) = if i / P * P < (s.memory.content filename).length then
      some ((s.memory.content filename)[i]?.getD 0) else none := by
  have hroom : len ≤ pagesOf P len * P := Memory.le_pagesOf_mul hP
  exact Memory.load_fileMapped hmap.file (by omega) rfl

theorem Sound.read {c : UInt8} (hP : 0 < P) (hs : Sound P filename needle m₀ s)
    (hp : s.pc = .count len b i n) (hi : i < len)
    (hload : s.memory.load P (b * P + i) = some c) : Sound P filename needle m₀
      (s.goto (.count len b (i + 1) (if c = needle then n + 1 else n))) := by
  have hpc := hs.pc
  rw [hp] at hpc
  obtain ⟨hlen, -, hnear, hmap⟩ := hpc
  apply hs.goto
  refine ⟨hlen, hi, hnear.read (by omega) ?_, hmap⟩
  intro hmem
  rw [load_count hP hmap hi] at hload
  split at hload
  · have hc := hs.unchanged i (by omega) hmem
    rw [Option.some.inj hload, List.getElem?_eq_getElem (hlen ▸ hi)] at hc
    exact hc
  · cases hload

theorem Sound.fault (hP : 0 < P) (hs : Sound P filename needle m₀ s)
    (hp : s.pc = .count len b i n) (hi : i < len)
    (hload : s.memory.load P (b * P + i) = none) :
    Sound P filename needle m₀ (s.goto (.killed i)) := by
  have hpc := hs.pc
  rw [hp] at hpc
  obtain ⟨hlen, -, -, hmap⟩ := hpc
  apply hs.goto
  refine ⟨hlen ▸ hi, ?_⟩
  rw [load_count hP hmap hi] at hload
  split at hload
  · cases hload
  next hcut =>
    have hleast := hs.least
    omega

theorem Mapped.of_mmap {m : Memory ι} {place : Placement ι} (hun : Unmapped m₀ s.memory)
    (h : s.memory.mmap P place len (filePage .readOnly filename) = some (b, m)) :
    Mapped P filename m₀ m b len ∧ m.content = s.memory.content := by
  obtain ⟨-, hfree, rfl⟩ := Memory.mmap_eq_some h
  refine ⟨⟨⟨?_, hun.2⟩, ?_, Memory.fileMapped_setPages⟩, rfl⟩
  · intro p hp
    rw [Memory.frame_setPages.pages p hp, hun.1]
  · intro p hlow hhigh
    rw [← hun.1]
    exact hfree p hlow hhigh

theorem sound_step {a : Actor} (hP : 0 < P) (h : Step P filename needle s a t)
    (hs : Sound P filename needle m₀ s) : Sound P filename needle m₀ t := by
  have hpc := hs.pc
  cases h with
  | statFails | mapFails | unmapFails | closeFails => exact hs.goto trivial
  | stat hp =>
    rw [hp] at hpc
    exact sound_statted ⟨rfl, hpc⟩
  | statEmpty hp =>
    rw [hp] at hpc
    exact sound_statted hpc
  | map hp hmap =>
    rw [hp] at hpc
    obtain ⟨hlen, hun⟩ := hpc
    obtain ⟨hmapped, hcontent⟩ := Mapped.of_mmap hun hmap
    refine ⟨⟨hlen, Nat.zero_le _, near_zero, hmapped⟩, ?_, ?_⟩
    · rw [hcontent]
      exact hs.unchanged
    · rw [hcontent]
      exact hs.least
  | read hp hi hload => exact hs.read hP hp hi hload
  | fault hp hi hload => exact hs.fault hP hp hi hload
  | counted hp hi =>
    rw [hp] at hpc
    obtain ⟨hlen, hle, hnear, hmap⟩ := hpc
    have hend := Nat.le_antisymm hle (Nat.le_of_not_lt hi)
    exact hs.goto ⟨⟨hlen, _, rfl, hend ▸ hnear⟩, hmap⟩
  | unmap hp =>
    rw [hp] at hpc
    obtain ⟨hresult, hmap⟩ := hpc
    exact ⟨⟨hresult, hmap.frame.munmap hmap.free, hmap.frame.brk⟩, hs.unchanged, hs.least⟩
  | close hp =>
    rw [hp] at hpc
    exact hs.goto hpc
  | others => exact sound_rewritten hs

/-- However the file is written and cut in the meantime, the number printed is off by no more
than the bytes that were changed, and the map is gone. SIGBUS comes only when the file has been
so short that the page of the byte was behind its end. -/
theorem count_within_changes {m : Memory ι} (hP : 0 < P)
    (h : (system P filename needle m).Reachable s) :
    (∀ len value, s.pc = .printed len value → s.memory.pages = m.pages ∧
      len = s.original.length ∧ ∃ n, value = toInt n ∧
        n ≤ s.original.count needle + s.changed.card ∧
        s.original.count needle ≤ n + s.changed.card) ∧
      ∀ i, s.pc = .killed i → i < s.original.length ∧ s.least ≤ i / P * P := by
  have hs : Sound P filename needle m s := by
    apply h.invariant
    · rintro _ rfl
      exact sound_start
    · intro s a t hst hs
      exact sound_step hP hst hs
  have hpc := hs.pc
  constructor
  · intro len value hp
    rw [hp] at hpc
    obtain ⟨⟨rfl, n, hn, hnear⟩, hun⟩ := hpc
    exact ⟨hun.1, rfl, n, hn, hnear.total⟩
  · intro i hp
    rw [hp] at hpc
    exact hpc

/-- A process without mappings and a file of two bytes. -/
def twoBytes : Memory Unit := ⟨fun _ => none, fun _ => [7, 7], 0⟩

/-- The second byte is changed before it is counted. -/
theorem count_within_changes_overwritten : ∃ s, (system 4 () 7 twoBytes).Reachable s ∧
    s.pc = .printed 2 1 ∧ s.changed = {1} ∧ ∃ n, (1 : ℤ) = toInt n ∧
      n ≤ s.original.count 7 + s.changed.card ∧ s.original.count 7 ≤ n + s.changed.card := by
  have hmap : twoBytes.mmap 4 (.only 3) 2 (filePage .readOnly ()) =
      some (3, twoBytes.setPages 3 1 fun p => some (filePage .readOnly () (p - 3))) := rfl
  have h0 : (system 4 () 7 twoBytes).Reachable (start twoBytes) := .of_initial rfl
  have h1 := h0.step (.stat rfl (by decide))
  have h2 := h1.step (.map rfl hmap)
  have h3 := h2.step (.read rfl (by decide) rfl)
  have h4 := h3.step (@Step.others _ 4 () 7 _ fun _ => [7, 8])
  have h5 := h4.step (.read rfl (by decide) rfl)
  have h6 := h5.step (.counted rfl (by decide))
  have h7 := h6.step (.unmap rfl)
  have h8 := h7.step (.close rfl)
  obtain ⟨s, hs, hp, hc⟩ : ∃ s, (system 4 () 7 twoBytes).Reachable s ∧ s.pc = .printed 2 1 ∧
      s.changed = {1} := ⟨_, h8, by decide +kernel, by decide +kernel⟩
  exact ⟨s, hs, hp, hc, ((count_within_changes (by decide) hs).1 2 1 hp).2.2⟩

end SystemCalls.MapCount

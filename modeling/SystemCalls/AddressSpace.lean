import Mathlib.Data.List.Basic
import Mathlib.Logic.Function.Basic

/-!
# Address spaces

What a process has mapped, page by page: bytes of its own, or pages of a file that everybody
who maps or writes the file sees. `P` is the size of a page, and an address is a number. An
access that a page does not allow, and one to a page beyond the end of its file, has no
outcome, since the process is killed by SIGSEGV or SIGBUS.
-/

namespace SystemCalls.AddressSpace

/-- PROT_READ and PROT_WRITE. -/
structure Prot where
  read : Bool
  write : Bool
  deriving DecidableEq

abbrev Prot.noAccess : Prot := ⟨false, false⟩
abbrev Prot.readOnly : Prot := ⟨true, false⟩
abbrev Prot.readWrite : Prot := ⟨true, true⟩

/-- Where the bytes of a page are. -/
inductive Backing (ι : Type*)
  | anonymous (bytes : ℕ → UInt8)
  | file (inode : ι) (index : ℕ)

structure Page (ι : Type*) where
  prot : Prot
  backing : Backing ι

abbrev Pages (ι : Type*) := ℕ → Option (Page ι)

structure Memory (ι : Type*) where
  pages : Pages ι
  content : ι → List UInt8
  /-- The program break. -/
  brk : ℕ

/-- Where the kernel puts `n` pages, unless it fails. -/
structure Placement (ι : Type*) where
  place : Pages ι → ℕ → Option ℕ
  free : ∀ pages n b, place pages n = some b → ∀ p, b ≤ p → p < b + n → pages p = none

/-- A kernel that tries one place only. -/
def Placement.only {ι : Type*} (base : ℕ) : Placement ι where
  place pages n := if ∀ j < n, (pages (base + j)).isNone then some base else none
  free pages n b h p hb hp := by
    split at h
    next hfree =>
      obtain rfl := Option.some.inj h
      have hnone := hfree (p - base) (by omega)
      rwa [Nat.add_sub_cancel' hb, Option.isNone_iff_eq_none] at hnone
    next => cases h

variable {ι : Type*} (P : ℕ)

/-- The number of pages that hold `size` bytes. -/
def pagesOf (size : ℕ) : ℕ := (size + P - 1) / P

/-- A page of an anonymous mapping before its first store. -/
def zeroPage (prot : Prot) : Page ι := ⟨prot, .anonymous fun _ => 0⟩

/-- A page of a file, in a shared mapping or a private one that nothing is stored to. -/
def filePage (prot : Prot) (i : ι) (index : ℕ) : Page ι := ⟨prot, .file i index⟩

namespace Memory

def setPages (m : Memory ι) (b n : ℕ) (page : ℕ → Option (Page ι)) : Memory ι :=
  { m with pages := fun p => if b ≤ p ∧ p < b + n then page p else m.pages p }

def setPage (m : Memory ι) (p : ℕ) (page : Page ι) : Memory ι :=
  { m with pages := Function.update m.pages p (some page) }

def setContent [DecidableEq ι] (m : Memory ι) (i : ι) (bytes : List UInt8) : Memory ι :=
  { m with content := Function.update m.content i bytes }

/-- The number of the first page, which is the address divided by `P`. -/
def mmap (m : Memory ι) (place : Placement ι) (size : ℕ) (page : ℕ → Page ι) :
    Option (ℕ × Memory ι) :=
  if size = 0 then none
  else (place.place m.pages (pagesOf P size)).map fun b =>
    (b, m.setPages b (pagesOf P size) fun p => some (page (p - b)))

def munmap (m : Memory ι) (b size : ℕ) : Memory ι :=
  m.setPages b (pagesOf P size) fun _ => none

def mprotect (m : Memory ι) (b size : ℕ) (prot : Prot) : Memory ι :=
  m.setPages b (pagesOf P size) fun p => (m.pages p).map fun page => { page with prot }

/-- `sbrk` returns the old break and fails when a page it needs is taken. -/
def sbrk (m : Memory ι) (succeeds : Bool) (size : ℕ) : Option (ℕ × Memory ι) :=
  let b := pagesOf P m.brk
  let n := pagesOf P (m.brk + size) - b
  if succeeds ∧ ∀ j < n, (m.pages (b + j)).isNone then
    some (m.brk, { m.setPages b n fun _ => some (zeroPage .readWrite) with brk := m.brk + size })
  else none

def load (m : Memory ι) (a : ℕ) : Option UInt8 :=
  (m.pages (a / P)).bind fun page =>
    if page.prot.read then
      match page.backing with
      | .anonymous bytes => some (bytes (a % P))
      | .file i index =>
        if index * P < (m.content i).length then
          some ((m.content i)[index * P + a % P]?.getD 0)
        else none
    else none

/-- What is stored behind the end of a file does not get into it. -/
def store [DecidableEq ι] (m : Memory ι) (a : ℕ) (c : UInt8) : Option (Memory ι) :=
  (m.pages (a / P)).bind fun page =>
    if page.prot.write then
      match page.backing with
      | .anonymous bytes =>
        let bytes := Function.update bytes (a % P) c
        some (m.setPage (a / P) { page with backing := .anonymous bytes })
      | .file i index =>
        if index * P < (m.content i).length then
          some (m.setContent i ((m.content i).set (index * P + a % P) c))
        else none
    else none

def storeAll [DecidableEq ι] (m : Memory ι) (a : ℕ) : List UInt8 → Option (Memory ι)
  | [] => some m
  | c :: cs => (m.store P a c).bind fun m' => m'.storeAll (a + 1) cs

/-- `strcpy` -/
def strcpy [DecidableEq ι] (m : Memory ι) (a : ℕ) (text : List UInt8) : Option (Memory ι) :=
  m.storeAll P a (text ++ [0])

/-- The bytes up to the first NUL. When `n` bytes hold none, `%.*s` stops with `some []`, and
`none` stands for a `%s` that runs on. -/
def text (limit : Option (List UInt8)) (m : Memory ι) (a : ℕ) : ℕ → Option (List UInt8)
  | 0 => limit
  | n + 1 => (m.load P a).bind fun c =>
    if c = 0 then some [] else (m.text limit (a + 1) n).map (c :: ·)

/-- The pages from `b` on are anonymous, with these rights. -/
def Anonymous (m : Memory ι) (b n : ℕ) (prot : Prot) : Prop :=
  ∀ p, b ≤ p → p < b + n → ∃ bytes, m.pages p = some ⟨prot, .anonymous bytes⟩

/-- The pages from `b` on are those of a file, from its start. -/
def FileMapped (m : Memory ι) (b n : ℕ) (prot : Prot) (i : ι) : Prop :=
  ∀ j < n, m.pages (b + j) = some (filePage prot i j)

/-- When the break is inside a page, this page is the heap's. -/
def BreakMapped (m : Memory ι) : Prop :=
  m.brk % P ≠ 0 → ∃ bytes, m.pages (m.brk / P) = some ⟨.readWrite, .anonymous bytes⟩

/-- No page but these differs. -/
structure Frame (m m' : Memory ι) (b n : ℕ) : Prop where
  pages : ∀ p, ¬ (b ≤ p ∧ p < b + n) → m'.pages p = m.pages p
  brk : m'.brk = m.brk

/-- Pages that were mapped are not touched, and none stays mapped unless a `munmap` fails. -/
structure Kept (unmaps : Prop) (m m' : Memory ι) : Prop where
  mapped : ∀ p, m.pages p ≠ none → m'.pages p = m.pages p
  pages : unmaps → m'.pages = m.pages
  brk : m'.brk = m.brk

/-! ### Pages -/

section Pages

variable {P} {m m' m'' : Memory ι} {b n p a size : ℕ} {prot : Prot} {page : ℕ → Option (Page ι)}

theorem le_pagesOf_mul (hP : 0 < P) : size ≤ pagesOf P size * P := by
  have hlt := Nat.lt_mul_div_succ (size + P - 1) hP
  have hsucc : P * ((size + P - 1) / P + 1) = pagesOf P size * P + P := by
    rw [pagesOf, Nat.mul_succ, Nat.mul_comm]
  omega

theorem pagesOf_mul_add (hP : 0 < P) (k : ℕ) : pagesOf P (k * P + size) = k + pagesOf P size := by
  have hsum : k * P + size + P - 1 = size + P - 1 + k * P := by omega
  rw [pagesOf, hsum, Nat.add_mul_div_right _ _ hP, Nat.add_comm, pagesOf]

theorem div_mem (hP : 0 < P) (ha : b * P ≤ a) (ha' : a < (b + n) * P) :
    b ≤ a / P ∧ a / P < b + n :=
  ⟨(Nat.le_div_iff_mul_le hP).mpr ha, (Nat.div_lt_iff_lt_mul hP).mpr ha'⟩

theorem Frame.refl : Frame m m b n := ⟨fun _ _ => rfl, rfl⟩

theorem Frame.trans (h : Frame m m' b n) (h' : Frame m' m'' b n) : Frame m m'' b n :=
  ⟨fun p hp => (h'.pages p hp).trans (h.pages p hp), h'.brk.trans h.brk⟩

theorem Frame.mono {b' n' : ℕ} (h : Frame m m' b n) (hb : b' ≤ b) (hn : b + n ≤ b' + n') :
    Frame m m' b' n' := by
  refine ⟨fun p hp => h.pages p ?_, h.brk⟩
  rintro ⟨hlow, hhigh⟩
  exact hp ⟨by omega, by omega⟩

theorem frame_setPages : Frame m (m.setPages b n page) b n :=
  ⟨fun _ hp => if_neg hp, rfl⟩

theorem pages_setPages (hb : b ≤ p) (hp : p < b + n) : (m.setPages b n page).pages p = page p :=
  if_pos ⟨hb, hp⟩

theorem anonymous_setPages : Anonymous (m.setPages b n fun _ => some (zeroPage prot)) b n prot :=
  fun _ hb hp => ⟨_, pages_setPages hb hp⟩

theorem fileMapped_setPages {i : ι} :
    FileMapped (m.setPages b n fun p => some (filePage prot i (p - b))) b n prot i := by
  intro j hj
  rw [pages_setPages (by omega) (by omega), Nat.add_sub_cancel_left]

theorem mmap_eq_some {place : Placement ι} {page : ℕ → Page ι}
    (h : m.mmap P place size page = some (b, m')) :
    0 < size ∧ (∀ p, b ≤ p → p < b + pagesOf P size → m.pages p = none) ∧
      m' = m.setPages b (pagesOf P size) fun p => some (page (p - b)) := by
  simp only [mmap] at h
  split at h
  · cases h
  next hsize =>
    obtain ⟨b', hb, heq⟩ := Option.map_eq_some_iff.mp h
    cases heq
    exact ⟨Nat.pos_of_ne_zero hsize, place.free _ _ _ hb, rfl⟩

/-- Taking away what was put where nothing was. -/
theorem Frame.munmap (h : Frame m m' b (pagesOf P size))
    (hfree : ∀ p, b ≤ p → p < b + pagesOf P size → m.pages p = none) :
    (m'.munmap P b size).pages = m.pages := by
  funext p
  by_cases hp : b ≤ p ∧ p < b + pagesOf P size
  · rw [Memory.munmap, pages_setPages hp.1 hp.2, hfree p hp.1 hp.2]
  · rw [Memory.munmap, frame_setPages.pages p hp, h.pages p hp]

theorem Kept.refl {unmaps : Prop} : Kept unmaps m m := ⟨fun _ _ => rfl, fun _ => rfl, rfl⟩

/-- A mapping that was made where nothing was, and taken away again. -/
theorem Kept.of_frame (hf : Frame m m' b (pagesOf P size))
    (hfree : ∀ p, b ≤ p → p < b + pagesOf P size → m.pages p = none) (unmaps : Bool) :
    Kept (unmaps = true) m (if unmaps then m'.munmap P b size else m') := by
  have hpages := hf.munmap hfree
  cases unmaps with
  | true => exact ⟨fun p _ => congrFun hpages p, fun _ => hpages, hf.brk⟩
  | false =>
    refine ⟨?_, nofun, hf.brk⟩
    intro p hp
    apply hf.pages
    rintro ⟨hb, hp'⟩
    exact hp (hfree p hb hp')

theorem page_of_lt_pagesOf (hp : a / P ≤ p) (hp' : p < pagesOf P a) :
    p = a / P ∧ a % P ≠ 0 := by
  rcases Nat.eq_zero_or_pos P with rfl | hP
  · simp [pagesOf] at hp'
  · have hmul : p * P + P ≤ a + P - 1 := by
      rw [← Nat.succ_mul]
      exact (Nat.le_div_iff_mul_le hP).mp hp'
    have hle : p ≤ a / P := (Nat.le_div_iff_mul_le hP).mpr (by omega)
    have heq : p = a / P := Nat.le_antisymm hle hp
    refine ⟨heq, ?_⟩
    have hdiv := Nat.div_add_mod' a P
    rw [← heq] at hdiv
    omega

theorem lt_add_sub_iff (h : b ≤ p) : p < b + (n - b) ↔ p < n := by omega

/-- What `sbrk` returns is the start of heap pages that reach to the new break. -/
theorem sbrk_eq_some {succeeds : Bool} (hP : 0 < P) (hb : m.BreakMapped P)
    (h : m.sbrk P succeeds size = some (a, m')) :
    a = m.brk ∧ m'.brk = m.brk + size ∧ m'.content = m.content ∧
      Anonymous m' (m.brk / P) (pagesOf P (m.brk + size) - m.brk / P) .readWrite ∧
      (∀ p, pagesOf P m.brk ≤ p → p < pagesOf P (m.brk + size) → m.pages p = none) ∧
      ∀ p, ¬ (m.brk / P ≤ p ∧ p < pagesOf P (m.brk + size)) → m'.pages p = m.pages p := by
  simp only [sbrk] at h
  split at h
  next hfree =>
    obtain ⟨rfl, rfl⟩ := Prod.mk.inj (Option.some.inj h)
    have hnew : ∀ p, pagesOf P m.brk ≤ p → p < pagesOf P (m.brk + size) →
        (m.setPages (pagesOf P m.brk) (pagesOf P (m.brk + size) - pagesOf P m.brk)
          fun _ => some (zeroPage .readWrite)).pages p = some (zeroPage .readWrite) :=
      fun p hlow hhigh => if_pos ⟨hlow, (lt_add_sub_iff hlow).mpr hhigh⟩
    have hold : ∀ p, ¬ (pagesOf P m.brk ≤ p ∧ p < pagesOf P (m.brk + size)) →
        (m.setPages (pagesOf P m.brk) (pagesOf P (m.brk + size) - pagesOf P m.brk)
          fun _ => some (zeroPage .readWrite)).pages p = m.pages p :=
      fun p hp => if_neg fun hr => hp ⟨hr.1, (lt_add_sub_iff hr.1).mp hr.2⟩
    refine ⟨rfl, rfl, rfl, ?_, ?_, ?_⟩
    · intro p hp hp'
      rw [lt_add_sub_iff hp] at hp'
      by_cases hlow : pagesOf P m.brk ≤ p
      · exact ⟨_, hnew p hlow hp'⟩
      · obtain ⟨heq, hmod⟩ := page_of_lt_pagesOf hp (Nat.lt_of_not_le hlow)
        obtain ⟨bytes, hpage⟩ := hb hmod
        rw [← heq] at hpage
        exact ⟨bytes, (hold p fun hr => hlow hr.1).trans hpage⟩
    · intro p hlow hhigh
      have hnone := hfree.2 (p - pagesOf P m.brk)
        (Nat.sub_lt_left_of_lt_add hlow ((lt_add_sub_iff hlow).mpr hhigh))
      rwa [Nat.add_sub_cancel' hlow, Option.isNone_iff_eq_none] at hnone
    · intro p hp
      apply hold
      rintro ⟨hlow, hhigh⟩
      apply hp
      refine ⟨?_, hhigh⟩
      apply Nat.le_trans _ hlow
      exact Nat.div_le_div_right (by omega)
  next => cases h

end Pages

/-! ### Accesses -/

section Accesses

variable {P} {m m' m'' : Memory ι} {b n a x : ℕ} {prot : Prot} {bytes : ℕ → UInt8} {c : UInt8}
  {cs ds : List UInt8}

theorem load_anonymous (h : m.pages (a / P) = some ⟨prot, .anonymous bytes⟩)
    (hr : prot.read = true) : m.load P a = some (bytes (a % P)) := by
  simp [load, h, hr]

theorem load_eq_none {page : Page ι} (h : m.pages (a / P) = some page)
    (hr : page.prot.read = false) : m.load P a = none := by
  simp [load, h, hr]

theorem store_anonymous [DecidableEq ι] (h : m.pages (a / P) = some ⟨prot, .anonymous bytes⟩)
    (hw : prot.write = true) : m.store P a c =
      some (m.setPage (a / P) ⟨prot, .anonymous (Function.update bytes (a % P) c)⟩) := by
  simp [store, h, hw]

/-- A store that a page does not allow ends the process. -/
theorem store_eq_none [DecidableEq ι] {page : Page ι} (h : m.pages (a / P) = some page)
    (hw : page.prot.write = false) : m.store P a c = none := by
  simp [store, h, hw]

/-- What `cs` stored from `a` on leaves, where the pages of a range are anonymous. -/
structure Stored (P : ℕ) (m m' : Memory ι) (b n : ℕ) (prot : Prot) (a : ℕ)
    (cs : List UInt8) : Prop where
  anonymous : Anonymous m' b n prot
  frame : Frame m m' b n
  content : m'.content = m.content
  load : ∀ x, m'.load P x = if a ≤ x ∧ x < a + cs.length then cs[x - a]? else m.load P x

theorem load_setPage (h : m.pages (a / P) = some ⟨prot, .anonymous bytes⟩)
    (hr : prot.read = true) :
    (m.setPage (a / P) ⟨prot, .anonymous (Function.update bytes (a % P) c)⟩).load P x =
      if x = a then some c else m.load P x := by
  by_cases hx : x / P = a / P
  · have hnew : (m.setPage (a / P) ⟨prot, .anonymous (Function.update bytes (a % P) c)⟩).pages
        (x / P) = some ⟨prot, .anonymous (Function.update bytes (a % P) c)⟩ := by
      rw [hx]
      exact Function.update_self ..
    rw [load_anonymous hnew hr, load_anonymous (hx ▸ h) hr]
    by_cases hxa : x = a
    · subst hxa
      simp
    · have hmod : x % P ≠ a % P := by
        intro hmod
        apply hxa
        rw [← Nat.div_add_mod x P, ← Nat.div_add_mod a P, hx, hmod]
      rw [if_neg hxa, Function.update_of_ne hmod]
  · have hxa : x ≠ a := by
      rintro rfl
      exact hx rfl
    have hold : (m.setPage (a / P) ⟨prot, .anonymous (Function.update bytes (a % P) c)⟩).pages
        (x / P) = m.pages (x / P) := Function.update_of_ne hx ..
    simp only [load, hold, if_neg hxa]
    rfl

theorem exists_store [DecidableEq ι] (hm : Anonymous m b n prot) (hr : prot.read = true)
    (hw : prot.write = true) (ha : b * P ≤ a) (ha' : a < (b + n) * P) :
    ∃ m', m.store P a c = some m' ∧ Stored P m m' b n prot a [c] := by
  have hP : 0 < P := Nat.pos_of_mul_pos_left (Nat.zero_lt_of_lt ha')
  obtain ⟨hlow, hhigh⟩ := div_mem hP ha ha'
  obtain ⟨bytes, hpage⟩ := hm _ hlow hhigh
  refine ⟨_, store_anonymous hpage hw, ?_, ⟨?_, rfl⟩, rfl, ?_⟩
  · intro p hp hp'
    by_cases hpa : p = a / P
    · subst hpa
      exact ⟨_, Function.update_self ..⟩
    · obtain ⟨bytes', hpage'⟩ := hm p hp hp'
      exact ⟨bytes', (Function.update_of_ne hpa ..).trans hpage'⟩
  · intro p hp
    apply Function.update_of_ne
    rintro rfl
    exact hp ⟨hlow, hhigh⟩
  · intro x
    rw [load_setPage hpage hr]
    by_cases hx : x = a
    · subst hx
      simp
    · rw [if_neg hx, if_neg (by simp only [List.length_singleton]; omega)]

theorem Stored.append (h : Stored P m m' b n prot a cs)
    (h' : Stored P m' m'' b n prot (a + cs.length) ds) :
    Stored P m m'' b n prot a (cs ++ ds) := by
  refine ⟨h'.anonymous, h.frame.trans h'.frame, h'.content.trans h.content, ?_⟩
  intro x
  rw [h'.load, h.load, List.length_append]
  by_cases hx : a + cs.length ≤ x ∧ x < a + cs.length + ds.length
  · have hindex : x - (a + cs.length) = x - a - cs.length := by omega
    rw [if_pos hx, if_pos (by omega), List.getElem?_append_right (by omega), hindex]
  · rw [if_neg hx]
    by_cases hx' : a ≤ x ∧ x < a + cs.length
    · rw [if_pos hx', if_pos (by omega), List.getElem?_append_left (by omega)]
    · rw [if_neg hx', if_neg (by omega)]

/-- Stores inside the range are allowed, and each byte is where it was stored. -/
theorem exists_storeAll [DecidableEq ι] (hm : Anonymous m b n prot) (hr : prot.read = true)
    (hw : prot.write = true) (ha : b * P ≤ a) (ha' : a + cs.length ≤ (b + n) * P) :
    ∃ m', m.storeAll P a cs = some m' ∧ Stored P m m' b n prot a cs := by
  induction cs generalizing m a with
  | nil => exact ⟨m, rfl, hm, .refl, rfl, fun x => (if_neg (by simp)).symm⟩
  | cons c cs ih =>
    simp only [List.length_cons] at ha'
    obtain ⟨m1, h1, hs1⟩ := exists_store (c := c) hm hr hw ha (by omega)
    obtain ⟨m2, h2, hs2⟩ := ih hs1.anonymous (a := a + 1) (by omega) (by omega)
    refine ⟨m2, ?_, hs1.append hs2⟩
    simp [storeAll, h1, h2]

theorem div_add (hP : 0 < P) (x : ℕ) : (b * P + x) / P = b + x / P := by
  rw [Nat.mul_comm, Nat.mul_add_div hP]

/-- A page that is mapped and not yet stored to holds zeros. -/
theorem load_zeroPage (hr : prot.read = true) (ha : b * P ≤ a) (ha' : a < (b + n) * P) :
    (m.setPages b n fun _ => some (zeroPage prot)).load P a = some 0 := by
  have hP : 0 < P := Nat.pos_of_mul_pos_left (Nat.zero_lt_of_lt ha')
  obtain ⟨hlow, hhigh⟩ := div_mem hP ha ha'
  have hpage : (m.setPages b n fun _ => some (zeroPage prot)).pages (a / P) =
      some (zeroPage prot) := pages_setPages hlow hhigh
  exact load_anonymous hpage hr

theorem load_mprotect {size : ℕ} {prot' : Prot} (hm : Anonymous m b (pagesOf P size) prot)
    (hr : prot.read = true) (hr' : prot'.read = true) :
    (m.mprotect P b size prot').load P x = m.load P x := by
  by_cases hx : b ≤ x / P ∧ x / P < b + pagesOf P size
  · obtain ⟨bytes, hpage⟩ := hm _ hx.1 hx.2
    have hnew : (m.mprotect P b size prot').pages (x / P) = some ⟨prot', .anonymous bytes⟩ := by
      rw [mprotect, pages_setPages hx.1 hx.2, hpage]
      rfl
    rw [load_anonymous hnew hr', load_anonymous hpage hr]
  · have hold : (m.mprotect P b size prot').pages (x / P) = m.pages (x / P) :=
      frame_setPages.pages _ hx
    simp only [load, hold]
    rfl

section Files

variable {i : ι} (hm : FileMapped m b n prot i) (hn : x < n * P)

include hm hn

/-- The rest of the last page reads as NULs, and what is behind it does not read. -/
theorem load_fileMapped (hr : prot.read = true) : m.load P (b * P + x) =
    if x / P * P < (m.content i).length then some ((m.content i)[x]?.getD 0) else none := by
  have hP : 0 < P := Nat.pos_of_mul_pos_left (Nat.zero_lt_of_lt hn)
  have hpage := hm (x / P) ((Nat.div_lt_iff_lt_mul hP).mpr hn)
  have hmod : x / P * P + x % P = x := Nat.div_add_mod' ..
  simp [load, div_add hP, hpage, filePage, hr, hmod]

variable (hx : x < (m.content i).length)

include hx

theorem load_fileMapped_of_lt (hr : prot.read = true) :
    m.load P (b * P + x) = (m.content i)[x]? := by
  have hindex : x / P * P ≤ x := Nat.div_mul_le_self ..
  rw [load_fileMapped hm hn hr, if_pos (by omega), List.getElem?_eq_getElem hx]
  rfl

theorem store_fileMapped [DecidableEq ι] (hw : prot.write = true) :
    m.store P (b * P + x) c = some (m.setContent i ((m.content i).set x c)) := by
  have hP : 0 < P := Nat.pos_of_mul_pos_left (Nat.zero_lt_of_lt hn)
  have hpage := hm (x / P) ((Nat.div_lt_iff_lt_mul hP).mpr hn)
  have hindex : x / P * P ≤ x := Nat.div_mul_le_self ..
  have hmod : x / P * P + x % P = x := Nat.div_add_mod' ..
  simp [store, div_add hP, hpage, filePage, hw, hmod, Nat.lt_of_le_of_lt hindex hx]

end Files

end Accesses

/-! ### Texts -/

section Texts

variable {P} {m m' : Memory ι} {a n : ℕ} {limit : Option (List UInt8)} {cs : List UInt8}

theorem text_eq_of_nul (h : ∀ i ≤ cs.length, m.load P (a + i) = (cs ++ [0])[i]?)
    (hcs : ∀ c ∈ cs, c ≠ 0) (hn : cs.length < n) : m.text P limit a n = some cs := by
  induction cs generalizing a n with
  | nil =>
    obtain ⟨n, rfl⟩ : ∃ n', n = n' + 1 := ⟨n - 1, by simp at hn; omega⟩
    have hload : m.load P a = some 0 := h 0 (by simp)
    simp [text, hload]
  | cons c cs ih =>
    obtain ⟨n, rfl⟩ : ∃ n', n = n' + 1 := ⟨n - 1, by simp at hn; omega⟩
    have hload : m.load P a = some c := h 0 (by simp)
    have hc : c ≠ 0 := hcs c (by simp)
    have htail : m.text P limit (a + 1) n = some cs := by
      apply ih
      · intro i hi
        have hindex : a + 1 + i = a + (i + 1) := by omega
        rw [hindex]
        exact h (i + 1) (by simpa using hi)
      · intro d hd
        exact hcs d (by simp [hd])
      · simpa using hn
    simp [text, hload, hc, htail]

theorem text_congr (h : ∀ x, m'.load P x = m.load P x) :
    m'.text P limit a n = m.text P limit a n := by
  induction n generalizing a with
  | zero => rfl
  | succ n ih => simp only [text, h, ih]

theorem text_eq_of_limit (h : ∀ i < cs.length, m.load P (a + i) = cs[i]?)
    (hcs : ∀ c ∈ cs, c ≠ 0) : m.text P (some []) a cs.length = some cs := by
  induction cs generalizing a with
  | nil => rfl
  | cons c cs ih =>
    have hload : m.load P a = some c := h 0 (by simp)
    have hc : c ≠ 0 := hcs c (by simp)
    have htail : m.text P (some []) (a + 1) cs.length = some cs := by
      apply ih
      · intro i hi
        have hindex : a + 1 + i = a + (i + 1) := by omega
        rw [hindex]
        exact h (i + 1) (by simpa using hi)
      · intro d hd
        exact hcs d (by simp [hd])
    simp [text, hload, hc, htail]

/-- What `%.*s` prints of a file that is mapped as a whole. -/
theorem text_fileMapped {b k : ℕ} {prot : Prot} {i : ι} (hm : FileMapped m b k prot i)
    (hr : prot.read = true) (hlen : (m.content i).length ≤ k * P)
    (hcs : ∀ c ∈ m.content i, c ≠ 0) :
    m.text P (some []) (b * P) (m.content i).length = some (m.content i) := by
  apply text_eq_of_limit _ hcs
  intro x hx
  exact load_fileMapped_of_lt hm (by omega) hx hr

/-- A text copied to where there is room for it, and read back. -/
theorem exists_strcpy [DecidableEq ι] {b k : ℕ} {prot : Prot} (hm : Anonymous m b k prot)
    (hr : prot.read = true) (hw : prot.write = true) (ha : b * P ≤ a)
    (ha' : a + cs.length < (b + k) * P) (hcs : ∀ c ∈ cs, c ≠ 0) :
    ∃ m', m.strcpy P a cs = some m' ∧ Stored P m m' b k prot a (cs ++ [0]) ∧
      ∀ limit n, cs.length < n → m'.text P limit a n = some cs := by
  have hroom : a + (cs ++ [0]).length ≤ (b + k) * P := by
    rw [List.length_append, List.length_singleton]
    omega
  obtain ⟨m', h, hs⟩ := exists_storeAll hm hr hw ha hroom
  refine ⟨m', h, hs, fun limit n hn => text_eq_of_nul ?_ hcs hn⟩
  intro i hi
  rw [hs.load, if_pos (by simp; omega), Nat.add_sub_cancel_left]

end Texts

end Memory

end SystemCalls.AddressSpace

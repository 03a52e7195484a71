import SystemCalls.AddressSpace
import SystemCalls.CString

/-!
# The memory demonstration

The four parts of `memory_demo.c` that map memory, in the order of its `main`, in any address
space, wherever the kernel puts the mappings and whichever calls fail. What `printf` and
`fopen` map for themselves is no part of it.
-/

namespace SystemCalls.MemoryDemo

open AddressSpace

/-- What the calls answer, in the order of the program. -/
structure Env (ι : Type) where
  sbrk : Bool
  memory : Placement ι
  munmap : Bool
  fopen : Bool
  /-- How many bytes of the text get into the file. -/
  fwrite : ℕ
  reopen : Bool
  fstat : Bool
  mapped : Placement ι
  msync : Bool
  munmapMapped : Bool
  page : Placement ι
  mprotect : Bool
  munmapPage : Bool

/-- The lines printed, with what varies in them. -/
inductive Line
  | separator (title : String)
  | perror (call : String)
  | currentBreak (brk : ℕ)
  | allocated (size address : ℕ)
  | newBreak (brk : ℕ)
  | difference (bytes : ℤ)
  /-- `Content: %s`, of the heap and of the anonymous mapping. -/
  | heapContent (text : List UInt8)
  | mmapContent (text : List UInt8)
  | zeroFilled (is_zeroed : Bool)
  | unmapped
  | fileSize (st_size : ℕ)
  | fileMapped (address : ℕ)
  | original (text : List UInt8)
  | modified (text : List UInt8)
  | changesWritten
  | pageSize (page_size : ℕ)
  | wrote (text : List UInt8)
  | changing
  | read (text : List UInt8)
  | readOnly
  deriving DecidableEq

def heapText : List UInt8 := ascii "Hello from heap!"

def mmapText : List UInt8 := ascii "Hello from mmap!"

def fileText : List UInt8 := ascii "This is mapped file content!\nLine 2 here.\n"

def pageText : List UInt8 := ascii "Read-Write Memory"

variable {ι : Type} (P : ℕ)

section Model

variable [DecidableEq ι]

def demonstrateBrkSbrk (succeeds : Bool) (m : Memory ι) : Option (Memory ι × List Line) :=
  let size := 4096
  match m.sbrk P succeeds size with
  | none => some (m, [.separator "brk/sbrk Demo", .currentBreak m.brk, .perror "sbrk"])
  | some (new_space, m1) => do
    let m2 ← m1.strcpy P new_space heapText
    let buffer ← m2.text P none new_space size
    some (m2, [.separator "brk/sbrk Demo", .currentBreak m.brk, .allocated size new_space,
      .newBreak m1.brk, .difference (m1.brk - m.brk), .heapContent buffer])

/-- The loop over the rest of the memory, which stops at the first byte that is not 0. -/
def zeroFrom (m : Memory ι) (a : ℕ) : ℕ → Option Bool
  | 0 => some true
  | n + 1 => (m.load P a).bind fun c => if c ≠ 0 then some false else zeroFrom m (a + 1) n

def demonstrateMmap (place : Placement ι) (unmaps : Bool) (m : Memory ι) :
    Option (Memory ι × List Line) :=
  let size := 4096
  match m.mmap P place size fun _ => zeroPage .readWrite with
  | none => some (m, [.separator "mmap Anonymous Memory Demo", .perror "mmap"])
  | some (b, m1) => do
    let data := b * P
    let m2 ← m1.strcpy P data mmapText
    let text ← m2.text P none data size
    let is_zeroed ← zeroFrom P m2 (data + (text.length + 1)) (size - (text.length + 1))
    some (if unmaps then m2.munmap P b size else m2,
      [.separator "mmap Anonymous Memory Demo", .allocated size data, .mmapContent text,
        .zeroFilled is_zeroed, if unmaps then .unmapped else .perror "munmap"])

/-- `mapped[0] = 't'` and `mapped[5] = 'I'` -/
def modify (m : Memory ι) (mapped st_size : ℕ) : Option (Memory ι) :=
  if 5 < st_size then
    (m.store P mapped 't'.toNat.toUInt8).bind fun m' => m'.store P (mapped + 5) 'I'.toNat.toUInt8
  else some m

def demonstrateMmapFile (env : Env ι) (filename : ι) (m : Memory ι) :
    Option (Memory ι × List Line) :=
  let title := Line.separator "mmap File Mapping Demo"
  if !env.fopen then some (m, [title, .perror "fopen"])
  else
    let m1 := m.setContent filename (fileText.take env.fwrite)
    if !env.reopen then some (m1, [title, .perror "open"])
    else if !env.fstat then some (m1, [title, .perror "fstat"])
    else
      let st_size := (m1.content filename).length
      match m1.mmap P env.mapped st_size (filePage .readWrite filename) with
      | none => some (m1, [title, .fileSize st_size, .perror "mmap"])
      | some (b, m2) => do
        let mapped := b * P
        let before ← m2.text P (some []) mapped st_size
        let m3 ← modify P m2 mapped st_size
        let after ← m3.text P (some []) mapped st_size
        some (if env.munmapMapped then m3.munmap P b st_size else m3,
          [title, .fileSize st_size, .fileMapped mapped, .original before] ++
            (if env.msync then [] else [.perror "msync"]) ++ [.modified after, .changesWritten])

def demonstrateMprotect (place : Placement ι) (protects unmaps : Bool) (m : Memory ι) :
    Option (Memory ι × List Line) :=
  let page_size := P
  match m.mmap P place page_size fun _ => zeroPage .readWrite with
  | none => some (m, [.separator "mprotect Demo", .pageSize page_size, .perror "mmap"])
  | some (b, m1) => do
    let memory := b * P
    let m2 ← m1.strcpy P memory pageText
    let wrote ← m2.text P none memory page_size
    let lines := [Line.separator "mprotect Demo", .pageSize page_size, .wrote wrote, .changing]
    if !protects then
      some (if unmaps then m2.munmap P b page_size else m2, lines ++ [.perror "mprotect"])
    else
      let m3 := m2.mprotect P b page_size .readOnly
      let read ← m3.text P none memory page_size
      some (if unmaps then m3.munmap P b page_size else m3, lines ++ [.read read, .readOnly])

/-- `main`, without the figures of `demonstrate_memory_info`. -/
def main (env : Env ι) (filename : ι) (m : Memory ι) : Option (Memory ι × List Line) := do
  let (m1, brk) ← demonstrateBrkSbrk P env.sbrk m
  let (m2, anonymous) ← demonstrateMmap P env.memory env.munmap m1
  let (m3, file) ← demonstrateMmapFile P env filename m2
  let (m4, protect) ← demonstrateMprotect P env.page env.mprotect env.munmapPage m3
  some (m4, brk ++ anonymous ++ file ++ protect)

end Model

/-- What stands in the file after the two stores. -/
def edited (bytes : List UInt8) : List UInt8 :=
  if 5 < bytes.length then (bytes.set 0 't'.toNat.toUInt8).set 5 'I'.toNat.toUInt8 else bytes

/-- What is in the file at the end, where `old` was there before. -/
def leftIn (env : Env ι) (out : List Line) (old : List UInt8) : List UInt8 :=
  if env.fopen then
    if .changesWritten ∈ out then edited (fileText.take env.fwrite) else fileText.take env.fwrite
  else old

/-- The line tells what its caller means it to, where `final` is in the file at the end. -/
def Line.Fits (written final : List UInt8) : Line → Prop
  | difference bytes => bytes = 4096
  | heapContent text => text = heapText
  | mmapContent text => text = mmapText
  | zeroFilled is_zeroed => is_zeroed = true
  | original text => text = written
  | modified text => text = final
  | wrote text | read text => text = pageText
  | _ => True

variable {P} {m m' m'' : Memory ι} {env : Env ι} {filename : ι} {b size a n : ℕ}

/-- As `Memory.Kept`, but for the heap that `sbrk` made. Only the page that the break was inside,
if it was inside one, is written to. -/
structure Grown (P : ℕ) (unmaps : Prop) (m m' : Memory ι) : Prop where
  mapped : ∀ p, ¬ (p = m.brk / P ∧ m.brk % P ≠ 0) → m.pages p ≠ none → m'.pages p = m.pages p
  pages : unmaps → ∀ p, ¬ (m.brk / P ≤ p ∧ p < pagesOf P m'.brk) → m'.pages p = m.pages p
  brk : m'.brk = m.brk ∨ m'.brk = m.brk + 4096

theorem Grown.refl : Grown P True m m := ⟨fun _ _ _ => rfl, fun _ _ _ => rfl, .inl rfl⟩

theorem Grown.trans {unmaps unmaps' : Prop} (h : Grown P unmaps m m')
    (h' : Memory.Kept unmaps' m' m'') : Grown P (unmaps ∧ unmaps') m m'' := by
  refine ⟨?_, ?_, h'.brk ▸ h.brk⟩
  · intro p hne hp
    have hfirst := h.mapped p hne hp
    rw [h'.mapped p (hfirst ▸ hp), hfirst]
  · intro hu p hp
    rw [h'.pages hu.2]
    exact h.pages hu.1 p (h'.brk ▸ hp)

theorem zeroFrom_eq_true (h : ∀ i < n, m.load P (a + i) = some 0) :
    zeroFrom P m a n = some true := by
  induction n generalizing a with
  | zero => rfl
  | succ n ih =>
    have hload : m.load P a = some 0 := h 0 (by omega)
    have htail : zeroFrom P m (a + 1) n = some true := by
      apply ih
      intro i hi
      have hindex : a + 1 + i = a + (i + 1) := by omega
      rw [hindex]
      exact h (i + 1) (by omega)
    simp [zeroFrom, hload, htail]

theorem ne_zero_of_all {cs : List UInt8} (h : cs.all (· != 0) = true) : ∀ c ∈ cs, c ≠ 0 := by
  simpa using h

theorem content_if {unmaps : Bool} :
    (if unmaps then m.munmap P b size else m).content = m.content := by
  split <;> rfl

variable [DecidableEq ι]

theorem demonstrateMmap_spec (hP : 0 < P) (place : Placement ι) (unmaps : Bool) (m : Memory ι) :
    ∃ m' out, demonstrateMmap P place unmaps m = some (m', out) ∧
      Memory.Kept (unmaps = true) m m' ∧ m'.content = m.content ∧
      (∀ l ∈ out, ∀ written final, l.Fits written final) ∧ Line.changesWritten ∉ out := by
  cases hmap : m.mmap P place 4096 fun _ => zeroPage .readWrite with
  | none =>
    have hrun : demonstrateMmap P place unmaps m =
        some (m, [.separator "mmap Anonymous Memory Demo", .perror "mmap"]) := by
      simp only [demonstrateMmap, hmap]
    exact ⟨m, _, hrun, .refl, rfl, by simp [Line.Fits], by simp⟩
  | some r =>
    obtain ⟨b, m1⟩ := r
    obtain ⟨-, hfree, hm1⟩ := Memory.mmap_eq_some hmap
    have hroom : 4096 ≤ pagesOf P 4096 * P := Memory.le_pagesOf_mul hP
    have hcs : ∀ c ∈ mmapText, c ≠ 0 := ne_zero_of_all (by decide)
    have hlen : mmapText.length = 16 := by decide
    have hend : (b + pagesOf P 4096) * P = b * P + pagesOf P 4096 * P := Nat.add_mul ..
    obtain ⟨m2, hcopy, hs, hcopied⟩ := Memory.exists_strcpy (P := P)
      (hm1 ▸ Memory.anonymous_setPages) rfl rfl (Nat.le_refl _)
      (by omega) hcs
    have htext := hcopied none 4096 (by omega)
    have hzero : zeroFrom P m2 (b * P + (mmapText.length + 1))
        (4096 - (mmapText.length + 1)) = some true := by
      apply zeroFrom_eq_true
      intro i hi
      rw [hs.load, if_neg (by simp only [List.length_append, List.length_singleton]; omega), hm1]
      exact Memory.load_zeroPage rfl (by omega) (by omega)
    have hrun : demonstrateMmap P place unmaps m = some (if unmaps then m2.munmap P b 4096 else m2,
        [.separator "mmap Anonymous Memory Demo", .allocated 4096 (b * P), .mmapContent mmapText,
          .zeroFilled true, if unmaps then .unmapped else .perror "munmap"]) := by
      simp only [demonstrateMmap, hmap, hcopy, htext, hzero, Option.bind_eq_bind, Option.bind_some]
    have hframe : Memory.Frame m m2 b (pagesOf P 4096) :=
      (hm1 ▸ Memory.frame_setPages).trans hs.frame
    have hcontent : m2.content = m.content := hs.content.trans (hm1 ▸ rfl)
    refine ⟨_, _, hrun, .of_frame hframe hfree unmaps, content_if.trans hcontent, ?_, ?_⟩
    · cases unmaps <;> simp [Line.Fits]
    · cases unmaps <;> simp

theorem demonstrateMprotect_spec (hP : 18 ≤ P) (place : Placement ι) (protects unmaps : Bool)
    (m : Memory ι) :
    ∃ m' out, demonstrateMprotect P place protects unmaps m = some (m', out) ∧
      Memory.Kept (unmaps = true) m m' ∧ m'.content = m.content ∧
      (∀ l ∈ out, ∀ written final, l.Fits written final) ∧ Line.changesWritten ∉ out := by
  cases hmap : m.mmap P place P fun _ => zeroPage .readWrite with
  | none =>
    have hrun : demonstrateMprotect P place protects unmaps m =
        some (m, [.separator "mprotect Demo", .pageSize P, .perror "mmap"]) := by
      simp only [demonstrateMprotect, hmap]
    exact ⟨m, _, hrun, .refl, rfl, by simp [Line.Fits], by simp⟩
  | some r =>
    obtain ⟨b, m1⟩ := r
    obtain ⟨-, hfree, hm1⟩ := Memory.mmap_eq_some hmap
    have hroom : P ≤ pagesOf P P * P := Memory.le_pagesOf_mul (by omega)
    have hcs : ∀ c ∈ pageText, c ≠ 0 := ne_zero_of_all (by decide)
    have hlen : pageText.length = 17 := by decide
    have hend : (b + pagesOf P P) * P = b * P + pagesOf P P * P := Nat.add_mul ..
    obtain ⟨m2, hcopy, hs, hcopied⟩ := Memory.exists_strcpy (P := P)
      (hm1 ▸ Memory.anonymous_setPages) rfl rfl (Nat.le_refl _)
      (by omega) hcs
    have htext := hcopied none P (by omega)
    have hframe : Memory.Frame m m2 b (pagesOf P P) :=
      (hm1 ▸ Memory.frame_setPages).trans hs.frame
    have hcontent : m2.content = m.content := hs.content.trans (hm1 ▸ rfl)
    cases protects with
    | false =>
      have hrun : demonstrateMprotect P place false unmaps m =
          some (if unmaps then m2.munmap P b P else m2, [.separator "mprotect Demo", .pageSize P,
            .wrote pageText, .changing, .perror "mprotect"]) := by
        simp only [demonstrateMprotect, hmap, hcopy, htext, Option.bind_eq_bind, Option.bind_some]
        rfl
      exact ⟨_, _, hrun, .of_frame hframe hfree unmaps, content_if.trans hcontent,
        by simp [Line.Fits], by simp⟩
    | true =>
      have hread : (m2.mprotect P b P .readOnly).text P none (b * P) P = some pageText :=
        (Memory.text_congr fun _ => Memory.load_mprotect hs.anonymous rfl rfl).trans htext
      have hrun : demonstrateMprotect P place true unmaps m =
          some (if unmaps then (m2.mprotect P b P .readOnly).munmap P b P
            else m2.mprotect P b P .readOnly, [.separator "mprotect Demo", .pageSize P,
            .wrote pageText, .changing, .read pageText, .readOnly]) := by
        simp only [demonstrateMprotect, hmap, hcopy, htext, hread, Option.bind_eq_bind,
          Option.bind_some]
        rfl
      exact ⟨_, _, hrun, .of_frame (hframe.trans Memory.frame_setPages) hfree unmaps,
        content_if.trans hcontent, by simp [Line.Fits], by simp⟩

theorem length_edited (bytes : List UInt8) : (edited bytes).length = bytes.length := by
  unfold edited
  split <;> simp

theorem edited_ne_zero {bytes : List UInt8} (h : ∀ c ∈ bytes, c ≠ 0) :
    ∀ c ∈ edited bytes, c ≠ 0 := by
  intro c hc
  unfold edited at hc
  split at hc
  · rcases List.mem_or_eq_of_mem_set hc with hc | rfl
    · rcases List.mem_or_eq_of_mem_set hc with hc | rfl
      · exact h c hc
      · decide
    · decide
  · exact h c hc

/-- The two stores go into the file. -/
theorem modify_eq {k : ℕ} (hm : m.FileMapped b k .readWrite filename)
    (hlen : (m.content filename).length ≤ k * P) :
    modify P m (b * P) (m.content filename).length =
      some (m.setContent filename (edited (m.content filename))) := by
  unfold modify edited
  by_cases hfive : 5 < (m.content filename).length
  · have hroom : 5 < k * P := by omega
    have hroom' : 0 < k * P := by omega
    have hpos : 0 < (m.content filename).length := by omega
    have hm' : (m.setContent filename ((m.content filename).set 0 't'.toNat.toUInt8)).FileMapped
        b k .readWrite filename := hm
    have hfirst := Memory.store_fileMapped (c := 't'.toNat.toUInt8) hm hroom' hpos rfl
    have hsecond := Memory.store_fileMapped (c := 'I'.toNat.toUInt8) (x := 5) hm' hroom
      (by simpa [Memory.setContent] using hfive) rfl
    rw [Nat.add_zero] at hfirst
    rw [if_pos hfive, if_pos hfive, hfirst, Option.bind_some, hsecond]
    simp [Memory.setContent]
  · rw [if_neg hfive, if_neg hfive]
    simp [Memory.setContent]

/-- The text through the mapping, the two stores, and the text after them. -/
theorem through_mapping {k : ℕ} {bytes : List UInt8} (hm : m.FileMapped b k .readWrite filename)
    (hfile : m.content filename = bytes) (hlen : bytes.length ≤ k * P) (hne : ∀ c ∈ bytes, c ≠ 0) :
    m.text P (some []) (b * P) bytes.length = some bytes ∧
      modify P m (b * P) bytes.length = some (m.setContent filename (edited bytes)) ∧
      (m.setContent filename (edited bytes)).text P (some []) (b * P) bytes.length =
        some (edited bytes) := by
  subst hfile
  have hm' : (m.setContent filename (edited (m.content filename))).FileMapped b k .readWrite
      filename := hm
  have hfile' : (m.setContent filename (edited (m.content filename))).content filename =
      edited (m.content filename) := Function.update_self ..
  have hafter := Memory.text_fileMapped hm' rfl (by rwa [hfile', length_edited])
    (by rw [hfile']; exact edited_ne_zero hne)
  rw [hfile', length_edited] at hafter
  exact ⟨Memory.text_fileMapped hm rfl hlen hne, modify_eq hm hlen, hafter⟩

theorem demonstrateMmapFile_spec (hP : 0 < P) (env : Env ι) (filename : ι) (m : Memory ι) :
    ∃ m' out, demonstrateMmapFile P env filename m = some (m', out) ∧
      Memory.Kept (env.munmapMapped = true) m m' ∧
      m'.content = Function.update m.content filename (leftIn env out (m.content filename)) ∧
      ∀ l ∈ out, l.Fits (fileText.take env.fwrite) (m'.content filename) := by
  have htext : ∀ c ∈ fileText.take env.fwrite, c ≠ 0 := by
    intro c hc
    exact ne_zero_of_all (by decide : fileText.all (· != 0) = true) c (List.mem_of_mem_take hc)
  cases hopen : env.fopen with
  | false =>
    have hrun : demonstrateMmapFile P env filename m =
        some (m, [.separator "mmap File Mapping Demo", .perror "fopen"]) := by
      simp [demonstrateMmapFile, hopen]
    exact ⟨m, _, hrun, .refl, by simp [leftIn, hopen], by simp [Line.Fits]⟩
  | true =>
  obtain ⟨m1, hm1⟩ : ∃ m1, m1 = m.setContent filename (fileText.take env.fwrite) := ⟨_, rfl⟩
  have hkept : Memory.Kept (env.munmapMapped = true) m m1 :=
    hm1 ▸ ⟨fun _ _ => rfl, fun _ => rfl, rfl⟩
  have hcontent : m1.content = Function.update m.content filename (fileText.take env.fwrite) :=
    hm1 ▸ rfl
  have hfile : m1.content filename = fileText.take env.fwrite := by
    rw [hcontent, Function.update_self]
  cases hreopen : env.reopen with
  | false =>
    have hrun : demonstrateMmapFile P env filename m =
        some (m1, [.separator "mmap File Mapping Demo", .perror "open"]) := by
      simp [demonstrateMmapFile, hopen, hreopen, hm1]
    exact ⟨m1, _, hrun, hkept, by simp [leftIn, hopen, hcontent], by simp [Line.Fits]⟩
  | true =>
  cases hstat : env.fstat with
  | false =>
    have hrun : demonstrateMmapFile P env filename m =
        some (m1, [.separator "mmap File Mapping Demo", .perror "fstat"]) := by
      simp [demonstrateMmapFile, hopen, hreopen, hstat, hm1]
    exact ⟨m1, _, hrun, hkept, by simp [leftIn, hopen, hcontent], by simp [Line.Fits]⟩
  | true =>
  cases hmap : m1.mmap P env.mapped (m1.content filename).length (filePage .readWrite filename) with
  | none =>
    have hrun : demonstrateMmapFile P env filename m =
        some (m1, [.separator "mmap File Mapping Demo",
          .fileSize (m1.content filename).length, .perror "mmap"]) := by
      simp only [demonstrateMmapFile, hopen, hreopen, hstat, ← hm1, hmap]
      rfl
    exact ⟨m1, _, hrun, hkept, by simp [leftIn, hopen, hcontent], by simp [Line.Fits]⟩
  | some r =>
    obtain ⟨b, m2⟩ := r
    obtain ⟨hpos, hfree, hm2⟩ := Memory.mmap_eq_some hmap
    have hroom : (m1.content filename).length ≤ pagesOf P (m1.content filename).length * P :=
      Memory.le_pagesOf_mul hP
    have hmapped : m2.FileMapped b (pagesOf P (m1.content filename).length) .readWrite filename :=
      hm2 ▸ Memory.fileMapped_setPages
    have hfile2 : m2.content filename = fileText.take env.fwrite := by
      rw [hm2]
      exact hfile
    rw [hfile] at hroom hmap hmapped hpos hfree
    obtain ⟨hbefore, hmodify, hafter⟩ := through_mapping hmapped hfile2 hroom htext
    obtain ⟨m3, hm3⟩ : ∃ m3, m3 = m2.setContent filename (edited (fileText.take env.fwrite)) :=
      ⟨_, rfl⟩
    rw [← hm3] at hmodify hafter
    have hfile3 : m3.content filename = edited (fileText.take env.fwrite) := by
      rw [hm3]
      exact Function.update_self ..
    have hframe : m.Frame m3 b (pagesOf P (fileText.take env.fwrite).length) := by
      rw [hm3, hm2, hfile, hm1]
      exact ⟨fun p hp => if_neg hp, rfl⟩
    have hcontent3 : m3.content =
        Function.update m.content filename (edited (fileText.take env.fwrite)) := by
      rw [hm3, hm2]
      simp [Memory.setContent, Memory.setPages, hcontent]
    have hrun : demonstrateMmapFile P env filename m =
        some (if env.munmapMapped then m3.munmap P b (fileText.take env.fwrite).length else m3,
          [.separator "mmap File Mapping Demo", .fileSize (fileText.take env.fwrite).length,
            .fileMapped (b * P), .original (fileText.take env.fwrite)] ++
          (if env.msync then [] else [.perror "msync"]) ++
          [.modified (edited (fileText.take env.fwrite)), .changesWritten]) := by
      simp only [demonstrateMmapFile, hopen, hreopen, hstat, ← hm1, hfile, hmap, hbefore, hmodify,
        hafter, Option.bind_eq_bind, Option.bind_some]
      rfl
    refine ⟨_, _, hrun, .of_frame hframe ?_ env.munmapMapped, ?_, ?_⟩
    · rwa [hm1] at hfree
    · rw [content_if, hcontent3]
      simp [leftIn, hopen]
    · rw [content_if, hfile3]
      cases env.msync <;> simp [Line.Fits]

theorem demonstrateBrkSbrk_spec (hP : 0 < P) (hb : m.BreakMapped P) (succeeds : Bool) :
    ∃ m' out, demonstrateBrkSbrk P succeeds m = some (m', out) ∧ Grown P True m m' ∧
      m'.content = m.content ∧ (∀ l ∈ out, ∀ written final, l.Fits written final) ∧
      Line.changesWritten ∉ out := by
  cases hgrow : m.sbrk P succeeds 4096 with
  | none =>
    have hrun : demonstrateBrkSbrk P succeeds m =
        some (m, [.separator "brk/sbrk Demo", .currentBreak m.brk, .perror "sbrk"]) := by
      simp only [demonstrateBrkSbrk, hgrow]
    exact ⟨m, _, hrun, .refl, rfl, by simp [Line.Fits], by simp⟩
  | some r =>
    obtain ⟨new_space, m1⟩ := r
    obtain ⟨rfl, hbrk, hcontent, hheap, hfree, hpages⟩ := Memory.sbrk_eq_some hP hb hgrow
    have hcs : ∀ c ∈ heapText, c ≠ 0 := ne_zero_of_all (by decide)
    have hlen : heapText.length = 16 := by decide
    have hroom : m.brk + 4096 ≤ pagesOf P (m.brk + 4096) * P := Memory.le_pagesOf_mul hP
    have hstart : m.brk / P * P ≤ m.brk := Nat.div_mul_le_self ..
    have hend : m.brk / P + (pagesOf P (m.brk + 4096) - m.brk / P) = pagesOf P (m.brk + 4096) := by
      apply Nat.add_sub_cancel'
      rw [Nat.div_le_iff_le_mul_add_pred hP, Nat.mul_comm]
      omega
    obtain ⟨m2, hcopy, hs, hcopied⟩ := Memory.exists_strcpy (P := P)
      hheap rfl rfl hstart (by rw [hend]; omega) hcs
    have htext := hcopied none 4096 (by omega)
    have hrun : demonstrateBrkSbrk P succeeds m = some (m2, [.separator "brk/sbrk Demo",
        .currentBreak m.brk, .allocated 4096 m.brk, .newBreak m1.brk,
        .difference (m1.brk - m.brk), .heapContent heapText]) := by
      simp only [demonstrateBrkSbrk, hgrow, hcopy, htext, Option.bind_eq_bind, Option.bind_some]
    have hbrk2 : m2.brk = m.brk + 4096 := hs.frame.brk.trans hbrk
    have hdifference : (m1.brk : ℤ) - m.brk = 4096 := by omega
    have hout : ∀ p, ¬ (m.brk / P ≤ p ∧ p < pagesOf P (m.brk + 4096)) →
        m2.pages p = m.pages p := by
      intro p hp
      rw [hs.frame.pages p (by rwa [hend]), hpages p hp]
    refine ⟨m2, _, hrun, ⟨?_, fun _ => hbrk2 ▸ hout, .inr hbrk2⟩, hs.content.trans hcontent,
      by simp [Line.Fits, hdifference], by simp⟩
    intro p hne hp
    apply hout
    rintro ⟨hlow, hhigh⟩
    by_cases hnew : pagesOf P m.brk ≤ p
    · exact hp (hfree p hnew hhigh)
    · exact hne (Memory.page_of_lt_pagesOf hlow (Nat.lt_of_not_le hnew))

/-- A heap of one page with the break inside it, and a file with other bytes. -/
def oneHeapPage : Memory Unit :=
  ⟨fun p => if p = 5 then some (zeroPage .readWrite) else none, fun _ => [1, 2], 5 * 4096 + 7⟩

end SystemCalls.MemoryDemo

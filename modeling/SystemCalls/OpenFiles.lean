import Mathlib.Data.List.Basic
import Mathlib.Data.List.TakeDrop
import SystemCalls.Descriptors

/-!
# Open file descriptions

Three levels: the numbers in the table of a process, the open descriptions with an offset each,
and the contents of the files. Numbers made by `dup` share a description, and every `open`
makes a new one.
-/

namespace SystemCalls.OpenFiles

/-- `data` stored at an offset, with NULs in a gap before it. Nothing stored makes no gap. -/
def splice (content : List UInt8) (offset : ℕ) (data : List UInt8) : List UInt8 :=
  if data = [] then content
  else content.takeD offset 0 ++ data ++ content.drop (offset + data.length)

structure Description (ι : Type*) where
  inode : ι
  offset : ℕ

structure Kernel (ι : Type*) where
  content : ι → List UInt8
  description : ℕ → Description ι
  next : ℕ
  table : Descriptors ℕ
  table_lt : ∀ n d, table.file n = some d → d < next

variable {ι : Type*}

namespace Kernel

/-- `open`, with O_TRUNC or without. -/
def openFile [DecidableEq ι] (k : Kernel ι) (i : ι) (truncate : Bool) : ℕ × Kernel ι :=
  (k.table.lowest,
    { content := if truncate then Function.update k.content i [] else k.content
      description := Function.update k.description k.next ⟨i, 0⟩
      next := k.next + 1
      table := k.table.install k.table.lowest k.next
      table_lt := by
        intro n d h
        rw [Descriptors.file_install] at h
        split at h
        · cases h
          omega
        · have hlt := k.table_lt n d h
          omega })

def dup (k : Kernel ι) (d : ℕ) (h : d < k.next) : ℕ × Kernel ι :=
  (k.table.lowest,
    { k with
      table := k.table.install k.table.lowest d
      table_lt := by
        intro n e hn
        rw [Descriptors.file_install] at hn
        split at hn
        · cases hn
          exact h
        · exact k.table_lt n e hn })

def close (k : Kernel ι) (n : ℕ) : Kernel ι :=
  { k with
    table := k.table.close n
    table_lt := by
      intro m d h
      rw [Descriptors.file_close] at h
      split at h
      · cases h
      · exact k.table_lt m d h }

/-- `lseek` to a place that is counted from the start. -/
def seek (k : Kernel ι) (d offset : ℕ) : Kernel ι :=
  { k with
    description := Function.update k.description d { k.description d with offset } }

/-- The size of the file behind a description. -/
def size (k : Kernel ι) (d : ℕ) : ℕ := (k.content (k.description d).inode).length

/-- What `pread` returns. -/
def pread (k : Kernel ι) (d count offset : ℕ) : List UInt8 :=
  ((k.content (k.description d).inode).drop offset).take count

def read (k : Kernel ι) (d count : ℕ) : List UInt8 × Kernel ι :=
  let bytes := k.pread d count (k.description d).offset
  (bytes, k.seek d ((k.description d).offset + bytes.length))

def pwrite [DecidableEq ι] (k : Kernel ι) (d : ℕ) (data : List UInt8) (offset : ℕ) : Kernel ι :=
  let i := (k.description d).inode
  { k with content := Function.update k.content i (splice (k.content i) offset data) }

def write [DecidableEq ι] (k : Kernel ι) (d : ℕ) (data : List UInt8) : Kernel ι :=
  (k.pwrite d data (k.description d).offset).seek d ((k.description d).offset + data.length)

end Kernel

/-! ### Contents -/

section Splice

variable {content a b : List UInt8} {o p i : ℕ}

@[simp] theorem splice_nil : splice content o [] = content := rfl

theorem length_splice (h : a ≠ []) :
    (splice content o a).length = max content.length (o + a.length) := by
  simp only [splice, if_neg h, List.length_append, List.takeD_length, List.length_drop]
  omega

theorem getElem?_takeD : (content.takeD o 0)[i]? =
    if i < o then some (content[i]?.getD 0) else none := by
  by_cases hi : i < o
  · rw [if_pos hi]
    induction content generalizing o i with
    | nil => simp [hi]
    | cons c content ih =>
      obtain ⟨o, rfl⟩ : ∃ o', o = o' + 1 := ⟨o - 1, by omega⟩
      rcases i with _ | i
      · simp
      · simpa using ih (by omega)
  · rw [if_neg hi, List.getElem?_eq_none]
    rw [List.takeD_length]
    omega

/-- Every byte of a spliced content: stored, kept, or in the gap. -/
theorem getElem?_splice (h : a ≠ []) : (splice content o a)[i]? =
    if i < o then some (content[i]?.getD 0)
    else if i < o + a.length then a[i - o]? else content[i]? := by
  have hlen : (content.takeD o 0).length = o := List.takeD_length ..
  rw [splice, if_neg h, List.append_assoc]
  by_cases ho : i < o
  · rw [List.getElem?_append_left (by omega), getElem?_takeD, if_pos ho, if_pos ho]
  · rw [List.getElem?_append_right (by omega), hlen, if_neg ho]
    by_cases ha : i < o + a.length
    · rw [List.getElem?_append_left (by omega), if_pos ha]
    · have hindex : o + a.length + (i - o - a.length) = i := by omega
      rw [List.getElem?_append_right (by omega), if_neg ha, List.getElem?_drop, hindex]

/-- With the bytes that are not there read as NULs the gap needs no case. -/
theorem getD_splice : (splice content o a)[i]?.getD 0 =
    if o ≤ i ∧ i < o + a.length then a[i - o]?.getD 0 else content[i]?.getD 0 := by
  by_cases h : a = []
  · rw [h, splice_nil, List.length_nil, if_neg (by omega)]
  · rw [getElem?_splice h]
    by_cases ho : i < o
    · rw [if_pos ho, if_neg (by omega)]
      rfl
    · by_cases ha : i < o + a.length
      · rw [if_neg ho, if_pos ha, if_pos (by omega)]
      · rw [if_neg ho, if_neg ha, if_neg (by omega)]

/-- A byte that is there stays there when it is not overwritten. -/
theorem getElem?_splice_of_some {c : UInt8} (h : content[i]? = some c)
    (hi : ¬ (o ≤ i ∧ i < o + a.length)) : (splice content o a)[i]? = some c := by
  by_cases ha : a = []
  · simpa [ha] using h
  · rw [getElem?_splice ha]
    by_cases ho : i < o
    · simp [ho, h]
    · rw [if_neg ho, if_neg (by omega), h]

/-- Ranges that do not meet. -/
def Apart (o : ℕ) (a : List UInt8) (p : ℕ) (b : List UInt8) : Prop :=
  o + a.length ≤ p ∨ p + b.length ≤ o

/-- What is stored is there afterwards. -/
theorem take_drop_splice : ((splice content o a).drop o).take a.length = a := by
  by_cases h : a = []
  · simp [h]
  · have hlen : (content.takeD o 0).length = o := List.takeD_length ..
    rw [splice, if_neg h, List.append_assoc, List.drop_append_of_le_length (by omega),
      List.drop_of_length_le (by omega), List.nil_append, List.take_left]

end Splice

/-! ### Calls -/

namespace Kernel

variable {k : Kernel ι} {d e m n offset : ℕ} {i : ι} {truncate : Bool} {data : List UInt8}

theorem file_dup (h : d < k.next) : (k.dup d h).2.table.file m =
    if m = k.table.lowest then some d else k.table.file m :=
  Descriptors.file_install

theorem file_close : (k.close n).table.file m = if m = n then none else k.table.file m :=
  Descriptors.file_close

@[simp] theorem content_close : (k.close n).content = k.content := rfl

@[simp] theorem content_seek : (k.seek d offset).content = k.content := rfl

@[simp] theorem description_seek_self :
    (k.seek d offset).description d = { k.description d with offset } :=
  Function.update_self ..

theorem description_seek_ne (h : e ≠ d) :
    (k.seek d offset).description e = k.description e :=
  Function.update_of_ne h ..

theorem offset_seek : ((k.seek d offset).description e).offset =
    if e = d then offset else (k.description e).offset := by
  by_cases h : e = d
  · simp [h]
  · rw [description_seek_ne h, if_neg h]

@[simp] theorem inode_seek :
    ((k.seek d offset).description e).inode = (k.description e).inode := by
  by_cases h : e = d
  · simp [h]
  · rw [description_seek_ne h]

variable [DecidableEq ι]

theorem file_openFile : (k.openFile i truncate).2.table.file m =
    if m = k.table.lowest then some k.next else k.table.file m :=
  Descriptors.file_install

@[simp] theorem content_openFile : (k.openFile i false).2.content = k.content := rfl

@[simp] theorem description_openFile : (k.openFile i truncate).2.description k.next = ⟨i, 0⟩ :=
  Function.update_self ..

@[simp] theorem table_write : (k.write d data).table = k.table := rfl

theorem content_write : (k.write d data).content = Function.update k.content
    (k.description d).inode
    (splice (k.content (k.description d).inode) (k.description d).offset data) := rfl

@[simp] theorem description_pwrite :
    (k.pwrite d data offset).description = k.description := rfl

theorem content_pwrite : (k.pwrite d data offset).content = Function.update k.content
    (k.description d).inode (splice (k.content (k.description d).inode) offset data) := rfl

@[simp] theorem inode_write :
    ((k.write d data).description e).inode = (k.description e).inode :=
  inode_seek

theorem offset_write : ((k.write d data).description e).offset =
    if e = d then (k.description d).offset + data.length else (k.description e).offset :=
  offset_seek

/-- A number that is taken and closed again leaves the table as it was. -/
theorem file_close_openFile {k' : Kernel ι} (h : k'.table = (k.openFile i truncate).2.table) :
    (k'.close k.table.lowest).table.file m = k.table.file m := by
  rw [file_close, h, file_openFile]
  by_cases hm : m = k.table.lowest
  · rw [if_pos hm, hm, k.table.file_lowest]
  · rw [if_neg hm, if_neg hm]

end Kernel

end SystemCalls.OpenFiles

import SystemCalls.Atoi
import SystemCalls.OpenFiles
import SystemCalls.WriteLoops

/-!
# Patching bytes in the middle of a file

The program of 2.3.6: `lseek`, one `write`, and `lseek` again for the size.
-/

namespace SystemCalls.Patch

open OpenFiles WriteLoops

/-- `long long` has the size of `long`. -/
def atoll (text : List UInt8) : ℤ := strtol text

/-- What the calls of one run answer. -/
structure Env where
  openFails : Bool
  /-- Whatever the offset, as ESPIPE does. -/
  seekFails : Bool
  /-- The largest offset `lseek` takes. -/
  maxBytes : ℕ
  write : Answer
  sizeFails : Bool
  closeFails : Bool

structure Result (ι : Type*) where
  kernel : Kernel ι
  status : ℕ
  /-- The number printed after "file size now: ". -/
  size : Option ℕ
  /-- What `perror` or `fprintf(stderr, ...)` begins with. -/
  message : Option String

variable {ι : Type*} [DecidableEq ι]

/-- From `open` on. -/
def patch (k : Kernel ι) (env : Env) (file : ι) (off : ℤ) (text : List UInt8) : Result ι :=
  if env.openFails then ⟨k, 1, none, some "open"⟩
  else
    let d := k.next
    let (fd, k) := k.openFile file false
    if env.seekFails ∨ off < 0 ∨ env.maxBytes < off then ⟨k.close fd, 1, none, some "lseek"⟩
    else
      let k := k.seek d off.toNat
      match env.write with
      | .error _ => ⟨k.close fd, 1, none, some "write"⟩
      | .count n =>
        let k := k.write d (text.take n)
        if n ≠ text.length then ⟨k.close fd, 1, none, some "short write"⟩
        else if env.sizeFails then ⟨k.close fd, 1, none, some "lseek SEEK_END"⟩
        else
          let size := k.size d
          let k := (k.seek d size).close fd
          if env.closeFails then ⟨k, 1, some size, some "close"⟩ else ⟨k, 0, some size, none⟩

/-- `main`, where `inode` looks up a path. -/
def main (k : Kernel ι) (env : Env) (inode : List UInt8 → ι) (argv : List (List UInt8)) :
    Result ι :=
  match argv with
  | [_, file, offset, text] => patch k env (inode file) (atoll offset) text
  | _ => ⟨k, 1, none, some "usage: "⟩

/-- The first `n` bytes of `text` have been stored, and nothing else is changed. -/
structure Patched (k : Kernel ι) (file : ι) (off : ℤ) (text : List UInt8) (r : Result ι) (n : ℕ) :
    Prop where
  content : r.kernel.content =
    Function.update k.content file (splice (k.content file) off.toNat (text.take n))
  table : ∀ m, r.kernel.table.file m = k.table.file m
  offset : 0 < n ∨ r.size.isSome → 0 ≤ off
  size : ∀ size, r.size = some size →
    n = text.length ∧ size = (r.kernel.content file).length
  status : r.status = 0 ∧ r.message = none ∧ r.size.isSome ∨ r.status = 1 ∧ r.message.isSome

variable {k : Kernel ι} {env : Env} {file : ι} {off : ℤ} {text : List UInt8} {n : ℕ}

theorem table_closed {k' : Kernel ι} (h : k'.table = (k.openFile file false).2.table) (m : ℕ) :
    (k'.close k.table.lowest).table.file m = k.table.file m :=
  Kernel.file_close_openFile h

/-- Nothing stored. -/
theorem Patched.unchanged {k' : Kernel ι} {message : String} (hc : k'.content = k.content)
    (ht : ∀ m, k'.table.file m = k.table.file m) :
    Patched k file off text ⟨k', 1, none, some message⟩ 0 where
  content := by simp [hc]
  table := ht
  offset := by simp
  size := nofun
  status := .inr ⟨rfl, rfl⟩

theorem unchanged_opened {k' : Kernel ι} {message : String} (hc : k'.content = k.content)
    (ht : k'.table = (k.openFile file false).2.table) :
    Patched k file off text ⟨k'.close k.table.lowest, 1, none, some message⟩ 0 :=
  .unchanged hc (table_closed ht)

/-- The kernel after the store. -/
def stored (k : Kernel ι) (file : ι) (offset : ℕ) (bytes : List UInt8) : Kernel ι :=
  ((k.openFile file false).2.seek k.next offset).write k.next bytes

theorem content_stored : (stored k file n text).content =
    Function.update k.content file (splice (k.content file) n text) := by
  simp [stored, Kernel.content_write]

theorem size_stored : (stored k file n text).size k.next =
    (splice (k.content file) n text).length := by
  simp [Kernel.size, stored, Kernel.write, Kernel.pwrite]

/-- Closed after the store of the first `n` bytes. -/
theorem Patched.of_stored {k' : Kernel ι} {status : ℕ} {size : Option ℕ} {message : Option String}
    (hc : k'.content = (stored k file off.toNat (text.take n)).content)
    (ht : k'.table = (k.openFile file false).2.table) (hoff : 0 ≤ off)
    (hsize : ∀ v, size = some v →
      n = text.length ∧ v = (splice (k.content file) off.toNat (text.take n)).length)
    (hstatus : status = 0 ∧ message = none ∧ size.isSome ∨ status = 1 ∧ message.isSome) :
    Patched k file off text ⟨k'.close k.table.lowest, status, size, message⟩ n where
  content := hc.trans content_stored
  table := table_closed ht
  offset _ := hoff
  size v hv := by
    rw [Kernel.content_close, hc, content_stored, Function.update_self]
    exact hsize v hv
  status := hstatus

/-- On every path some first bytes of the text are stored, all of them if the size is printed. -/
theorem exists_patched (henv : env.write.Fits text.length) :
    ∃ n ≤ text.length, Patched k file off text (patch k env file off text) n := by
  unfold patch
  split
  · exact ⟨0, Nat.zero_le _, .unchanged rfl fun _ => rfl⟩
  dsimp only
  split
  · exact ⟨0, Nat.zero_le _, unchanged_opened rfl rfl⟩
  next hoff =>
    have hoff : 0 ≤ off := by omega
    split
    · exact ⟨0, Nat.zero_le _, unchanged_opened rfl rfl⟩
    next n hn =>
      rw [hn] at henv
      refine ⟨n, henv, ?_⟩
      split
      · exact .of_stored rfl rfl hoff nofun (.inr ⟨rfl, rfl⟩)
      next hlen =>
        have hlen : n = text.length := not_not.mp hlen
        split
        · exact .of_stored rfl rfl hoff nofun (.inr ⟨rfl, rfl⟩)
        · have hsize : ∀ v, some ((stored k file off.toNat (text.take n)).size k.next) = some v →
              n = text.length ∧
                v = (splice (k.content file) off.toNat (text.take n)).length := by
            rintro v hv
            exact ⟨hlen, (Option.some.inj hv).symm.trans size_stored⟩
          split
          · exact .of_stored rfl rfl hoff hsize (.inr ⟨rfl, rfl⟩)
          · exact .of_stored rfl rfl hoff hsize (.inl ⟨rfl, rfl, rfl⟩)

/-- In every run of `main` the bytes outside the range of the text stay what they are and the
descriptor is closed again. When it returns 0 the text is in its place, and the size printed is
that of the file, which has grown if the text goes beyond its end. -/
theorem main_patches {inode : List UInt8 → ι} {prog path offset : List UInt8}
    {r : Result ι} (h : main k env inode [prog, path, offset, text] = r)
    (henv : env.write.Fits text.length) :
    (∀ m, r.kernel.table.file m = k.table.file m) ∧
      (∀ j ≠ inode path, r.kernel.content j = k.content j) ∧
      (∀ i : ℕ, i < atoll offset ∨ atoll offset + text.length ≤ i →
        (r.kernel.content (inode path))[i]?.getD 0 = (k.content (inode path))[i]?.getD 0) ∧
      (r.status = 0 → 0 ≤ atoll offset ∧
        ((r.kernel.content (inode path)).drop (atoll offset).toNat).take text.length = text ∧
        (r.kernel.content (inode path)).length = (if text = [] then (k.content (inode path)).length
          else max (k.content (inode path)).length ((atoll offset).toNat + text.length)) ∧
        r.size = some (r.kernel.content (inode path)).length) := by
  obtain ⟨n, hn, hp⟩ : ∃ n ≤ text.length, Patched k (inode path) (atoll offset) text r n :=
    h ▸ exists_patched henv
  have hat : r.kernel.content (inode path) =
      splice (k.content (inode path)) (atoll offset).toNat (text.take n) := by
    rw [hp.content, Function.update_self]
  refine ⟨hp.table, fun j hj => ?_, fun i hi => ?_, fun hstatus => ?_⟩
  · rw [hp.content, Function.update_of_ne hj]
  · rw [hat, getD_splice, List.length_take]
    have hoff := hp.offset
    rw [if_neg (by omega)]
  · obtain ⟨-, -, hsome⟩ | ⟨hone, -⟩ := hp.status
    · obtain ⟨v, hv⟩ := Option.isSome_iff_exists.mp hsome
      obtain ⟨hall, hlen⟩ := hp.size v hv
      rw [hall, List.take_length] at hat
      refine ⟨hp.offset (.inr hsome), by rw [hat, take_drop_splice], ?_, by rw [hv, hlen]⟩
      rw [hat]
      split
      next htext => simp [htext]
      next htext => exact length_splice htext
    · omega

/-- A file of three bytes, not open yet. -/
def threeBytes : Kernel Unit := ⟨fun _ => [1, 2, 3], fun _ => ⟨(), 0⟩, 0, .empty, by simp⟩

/-- Two bytes at offset 2, one of them beyond the end. -/
theorem main_patches_across_end : ∃ r, main threeBytes ⟨false, false, 100, .count 2, false, false⟩
    (fun _ => ()) [[112], [102], [50], [120, 121]] = r ∧ r.size = some 4 ∧
      ((r.kernel.content ()).drop 2).take 2 = [120, 121] := by
  have hatoll : atoll [50] = 2 := by decide
  obtain ⟨-, -, -, hzero⟩ := main_patches (rfl : main threeBytes
    ⟨false, false, 100, .count 2, false, false⟩ (fun _ => ()) [[112], [102], [50], [120, 121]] = _)
    (by decide : 2 ≤ 2)
  obtain ⟨-, htext, hlen, hsize⟩ := hzero rfl
  rw [hatoll] at htext hlen
  refine ⟨_, rfl, ?_, htext⟩
  rw [hsize, hlen]
  rfl

end SystemCalls.Patch

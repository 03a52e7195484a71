import SystemCalls.CString
import SystemCalls.OpenFiles
import SystemCalls.WriteLoops

/-!
# The three levels seen from a program

`main` of 0.5.8: two numbers made by `open` and `dup`, a third by another `open` of the file, and
one cleanup for all paths.
-/

namespace SystemCalls.FdDemo

open OpenFiles WriteLoops

inductive Call
  | openFd1
  | dup
  | openFd3
  | write
  | readFd2
  | lseekFd2
  | readFd1
  | lseekFd3
  | readFd3
  deriving DecidableEq

/-- What the calls answer: those that fail, what `write` takes of the five bytes, and what a
`read` gives at most of those that are there. -/
structure Env where
  fails : Call → Bool
  write : Answer
  fits : write.Fits 5
  most : Call → ℕ

/-- The call gives the program all it asks for. -/
def Env.ok (env : Env) : Call → Bool
  | .write => match env.write with
    | .error _ => false
    | .count w => w == 5
  | .readFd1 => !env.fails .readFd1 && 5 ≤ env.most .readFd1
  | .readFd3 => !env.fails .readFd3 && 5 ≤ env.most .readFd3
  | c => !env.fails c

/-- What `perror` is given when the call fails or is short; the last `lseek` is not checked. -/
def Call.message : Call → String
  | .openFd1 => "open fd1"
  | .dup => "dup"
  | .openFd3 => "open fd3"
  | .write => "write"
  | .readFd2 => "read fd2"
  | .lseekFd2 => "lseek fd2"
  | .readFd1 => "read fd1 after shared lseek"
  | .lseekFd3 => ""
  | .readFd3 => "read fd3"

/-- The calls that are checked, in order. -/
def checked : List Call :=
  [.openFd1, .dup, .openFd3, .write, .readFd2, .lseekFd2, .readFd1, .readFd3]

/-- What is printed: the number, or the text in `buf`. -/
inductive Line
  | fd2 (n : ℕ)
  | fd1 (text : List UInt8)
  | fd3 (text : List UInt8)
  deriving DecidableEq

structure Result (ι : Type*) where
  kernel : Kernel ι
  status : ℕ
  out : List Line
  /-- The argument of `perror`. -/
  message : Option String

variable {ι : Type*} [DecidableEq ι]

/-- `"hello"` -/
def hello : List UInt8 := ascii "hello"

/-- The numbers of the three descriptors. -/
structure Numbers where
  fd1 : ℕ
  fd2 : ℕ
  fd3 : ℕ

/-- From the label `cleanup` on. -/
def cleanup (k : Kernel ι) (n : Numbers) (out : List Line) (message : Option String) : Result ι :=
  ⟨((k.close n.fd3).close n.fd2).close n.fd1, 0, out, message⟩

/-- From the last `lseek` on, with the descriptions of `fd1` and `fd3`. -/
def readThird (k : Kernel ι) (env : Env) (n : Numbers) (d3 : ℕ) (out : List Line) : Result ι :=
  let k := if env.fails .lseekFd3 then k else k.seek d3 0
  if env.fails .readFd3 then cleanup k n out (some "read fd3")
  else
    let (bytes, k) := k.read d3 (min 5 (env.most .readFd3))
    if bytes.length ≠ 5 then cleanup k n out (some "read fd3")
    else cleanup k n (out ++ [.fd3 (cstr bytes)]) none

/-- From `lseek(fd2, 0, SEEK_SET)` on. -/
def rewind (k : Kernel ι) (env : Env) (n : Numbers) (d1 d3 : ℕ) (out : List Line) : Result ι :=
  if env.fails .lseekFd2 then cleanup k n out (some "lseek fd2")
  else
    let k := k.seek d1 0
    if env.fails .readFd1 then cleanup k n out (some "read fd1 after shared lseek")
    else
      let (bytes, k) := k.read d1 (min 5 (env.most .readFd1))
      if bytes.length ≠ 5 then cleanup k n out (some "read fd1 after shared lseek")
      else readThird k env n d3 (out ++ [.fd1 (cstr bytes)])

/-- From `write` on. -/
def writeFirst (k : Kernel ι) (env : Env) (n : Numbers) (d1 d3 : ℕ) : Result ι :=
  match env.write with
  | .error _ => cleanup k n [] (some "write")
  | .count w =>
    let k := k.write d1 (hello.take w)
    if w ≠ 5 then cleanup k n [] (some "write")
    else if env.fails .readFd2 then cleanup k n [] (some "read fd2")
    else
      let (bytes, k) := k.read d1 (min 5 (env.most .readFd2))
      rewind k env n d1 d3 [.fd2 bytes.length]

/-- `dup(fd1)`, where `fd1` has the description made last. -/
def dupLast (k : Kernel ι) (path : ι) : ℕ × Kernel ι :=
  (k.openFile path true).2.dup k.next (Nat.lt_succ_self _)

def main (k : Kernel ι) (env : Env) (path : ι) : Result ι :=
  if env.fails .openFd1 then ⟨k, 1, [], some "open fd1"⟩
  else
    let (fd1, k1) := k.openFile path true
    if env.fails .dup then ⟨k1.close fd1, 1, [], some "dup"⟩
    else
      let (fd2, k2) := dupLast k path
      if env.fails .openFd3 then ⟨(k2.close fd1).close fd2, 1, [], some "open fd3"⟩
      else
        let (fd3, k3) := k2.openFile path false
        writeFirst k3 env ⟨fd1, fd2, fd3⟩ k.next k2.next

variable {k k' : Kernel ι} {env : Env} {path : ι} {n : Numbers} {d1 d3 m : ℕ} {out : List Line}
  {message : Option String}

/-! ### The descriptors -/

/-- The kernel after the three calls, and the numbers they return. -/
def opened (k : Kernel ι) (path : ι) : Numbers × Kernel ι :=
  let (fd3, k3) := (dupLast k path).2.openFile path false
  (⟨(k.openFile path true).1, (dupLast k path).1, fd3⟩, k3)

/-- What was free with a number taken was free before. -/
theorem file_of_install {t : Descriptors ℕ} {a d : ℕ} (h : (t.install a d).file m = none) :
    t.file m = none := by
  rw [Descriptors.file_install] at h
  split at h
  · cases h
  · exact h

/-- The three numbers were free at the start. -/
theorem free_of_opened (k : Kernel ι) (path : ι) : k.table.file (opened k path).1.fd1 = none ∧
    k.table.file (opened k path).1.fd2 = none ∧ k.table.file (opened k path).1.fd3 = none := by
  have h2 := (k.openFile path true).2.table.file_lowest
  have h3 := (dupLast k path).2.table.file_lowest
  exact ⟨k.table.file_lowest, file_of_install h2, file_of_install (file_of_install h3)⟩

theorem file_opened (hm1 : m ≠ (opened k path).1.fd1) (hm2 : m ≠ (opened k path).1.fd2) :
    (dupLast k path).2.table.file m = k.table.file m := by
  have hdup := Kernel.file_dup (k := (k.openFile path true).2) (m := m) (Nat.lt_succ_self k.next)
  have hopen : (k.openFile path true).2.table.file m = _ := Kernel.file_openFile
  exact (hdup.trans (if_neg hm2)).trans (hopen.trans (if_neg hm1))

/-- When the second `open` fails the first two are closed. -/
theorem table_close_dupLast : (((dupLast k path).2.close (opened k path).1.fd1).close
    (opened k path).1.fd2).table.file m = k.table.file m := by
  obtain ⟨h1, h2, -⟩ := free_of_opened k path
  rw [Kernel.file_close, Kernel.file_close]
  split
  next hm => rw [hm, h2]
  next hm2 =>
    split
    next hm => rw [hm, h1]
    next hm1 => exact file_opened hm1 hm2

/-- Wherever the cleanup is entered from, the table is what it was. -/
theorem table_cleanup (h : k'.table = (opened k path).2.table) :
    (cleanup k' (opened k path).1 out message).kernel.table.file m = k.table.file m := by
  obtain ⟨h1, h2, h3⟩ := free_of_opened k path
  have hopen : k'.table.file m = if m = (opened k path).1.fd3 then some (dupLast k path).2.next
      else (dupLast k path).2.table.file m := by
    rw [h]
    exact Kernel.file_openFile
  rw [cleanup, Kernel.file_close, Kernel.file_close, Kernel.file_close]
  split
  next hm => rw [hm, h1]
  next hm1 =>
    split
    next hm => rw [hm, h2]
    next hm2 =>
      split
      next hm => rw [hm, h3]
      next hm3 => rw [hopen, if_neg hm3, file_opened hm1 hm2]

/-! ### The offsets -/

/-- What is printed when nothing fails. -/
def expected : List Line := [.fd2 0, .fd1 hello, .fd3 hello]

/-- The lines are those expected, up to the first of the calls that fails or is short, and that
call is the one reported. -/
structure Outcome (t : Descriptors ℕ) (env : Env) (calls : List Call) (r : Result ι) : Prop where
  table : ∀ m, r.kernel.table.file m = t.file m
  out : r.out <+: expected
  message : r.message = (calls.find? fun c => !env.ok c).map Call.message
  done : r.message = none → r.out = expected

/-- Both descriptions are of the file, and it holds the five bytes. -/
structure Written (k : Kernel ι) (d1 d3 o1 : ℕ) : Prop where
  ne : d1 ≠ d3
  content1 : k.content (k.description d1).inode = hello
  content3 : k.content (k.description d3).inode = hello
  offset1 : (k.description d1).offset = o1
  offset3 : (k.description d3).offset = 0

omit [DecidableEq ι] in
theorem Written.seek1 {o1 o : ℕ} (h : Written k d1 d3 o1) : Written (k.seek d1 o) d1 d3 o where
  ne := h.ne
  content1 := by simpa using h.content1
  content3 := by simpa using h.content3
  offset1 := by rw [Kernel.offset_seek, if_pos rfl]
  offset3 := by rw [Kernel.offset_seek, if_neg h.ne.symm, h.offset3]

omit [DecidableEq ι] in
theorem Written.seek3 {o1 : ℕ} (h : Written k d1 d3 o1) : Written (k.seek d3 0) d1 d3 o1 where
  ne := h.ne
  content1 := by simpa using h.content1
  content3 := by simpa using h.content3
  offset1 := by rw [Kernel.offset_seek, if_neg h.ne, h.offset1]
  offset3 := by rw [Kernel.offset_seek, if_pos rfl]

omit [DecidableEq ι] in
theorem Written.read1 {o1 : ℕ} (h : Written k d1 d3 o1) (most : ℕ) :
    (k.read d1 most).1 = (hello.drop o1).take most ∧
      Written (k.read d1 most).2 d1 d3 (o1 + ((hello.drop o1).take most).length) := by
  have hbytes : k.pread d1 most o1 = (hello.drop o1).take most := by
    rw [Kernel.pread, h.content1]
  simp only [Kernel.read, h.offset1, hbytes]
  exact ⟨trivial, h.seek1⟩

omit [DecidableEq ι] in
theorem Written.read3 {o1 : ℕ} (h : Written k d1 d3 o1) (most : ℕ) :
    (k.read d3 most).1 = hello.take most := by
  simp only [Kernel.read, Kernel.pread, h.offset3, h.content3, List.drop_zero]

/-- A `read` of the five bytes is short when the kernel gives fewer. -/
theorem length_take_hello (most : ℕ) : (hello.take (min 5 most)).length ≠ 5 ↔ ¬ 5 ≤ most := by
  have hlen : hello.length = 5 := by decide
  simp only [List.length_take, hlen]
  omega

theorem take_hello {most : ℕ} (h : 5 ≤ most) : hello.take (min 5 most) = hello := by
  rw [Nat.min_eq_left h]
  decide

theorem outcome_cleanup {c : Call} {calls : List Call} (k k' : Kernel ι) (path : ι)
    (hk : k'.table = (opened k path).2.table) (hout : out <+: expected) (hno : env.ok c = false) :
    Outcome k.table env (c :: calls) (cleanup k' (opened k path).1 out (some c.message)) :=
  ⟨fun _ => table_cleanup hk, hout, by simp [cleanup, hno], by simp [cleanup]⟩

omit [DecidableEq ι] in
/-- A call that gives all it is asked for leaves the outcome to the calls after it. -/
theorem Outcome.cons {t : Descriptors ℕ} {c : Call} {calls : List Call} {r : Result ι}
    (h : Outcome t env calls r) (hc : env.ok c = true) : Outcome t env (c :: calls) r :=
  ⟨h.table, h.out, by simp [h.message, hc], h.done⟩

theorem outcome_readThird {o1 : ℕ} (env : Env) (k k' : Kernel ι) (path : ι)
    (hk : k'.table = (opened k path).2.table) (h : Written k' d1 d3 o1) :
    Outcome k.table env [.readFd3]
      (readThird k' env (opened k path).1 d3 [.fd2 0, .fd1 hello]) := by
  have hpre : [Line.fd2 0, .fd1 hello] <+: expected := ⟨[.fd3 hello], rfl⟩
  unfold readThird
  obtain ⟨k'', hk'', hs, hw⟩ : ∃ k'', (if env.fails .lseekFd3 then k' else k'.seek d3 0) = k'' ∧
      k''.table = (opened k path).2.table ∧ Written k'' d1 d3 o1 := by
    split
    · exact ⟨_, rfl, hk, h⟩
    · exact ⟨_, rfl, hk, h.seek3⟩
  rw [hk'']
  by_cases hf : env.fails .readFd3
  · have hno : env.ok .readFd3 = false := by simp [Env.ok, hf]
    simp only [hf, if_true]
    exact outcome_cleanup k k'' path hs hpre hno
  · simp only [hf, hw.read3, Bool.false_eq_true, if_false]
    by_cases hmost : 5 ≤ env.most .readFd3
    · have hok : env.ok .readFd3 = true := by simp [Env.ok, hf, hmost]
      have hlen : ¬ hello.length ≠ 5 := by decide
      simp only [take_hello hmost, if_neg hlen]
      exact ⟨fun _ => table_cleanup hs, List.prefix_rfl, by simp [cleanup, hok], fun _ => rfl⟩
    · have hno : env.ok .readFd3 = false := by simp [Env.ok, hmost]
      simp only [if_pos ((length_take_hello _).mpr hmost)]
      exact outcome_cleanup k (k''.read d3 _).2 path hs hpre hno

theorem outcome_rewind {o1 : ℕ} (env : Env) (k k' : Kernel ι) (path : ι)
    (hk : k'.table = (opened k path).2.table) (h : Written k' d1 d3 o1) :
    Outcome k.table env [.lseekFd2, .readFd1, .readFd3]
      (rewind k' env (opened k path).1 d1 d3 [.fd2 0]) := by
  have hpre : [Line.fd2 0] <+: expected := ⟨[.fd1 hello, .fd3 hello], rfl⟩
  obtain ⟨hbytes, hw⟩ := (h.seek1 (o := 0)).read1 (min 5 (env.most .readFd1))
  rw [List.drop_zero] at hbytes hw
  unfold rewind
  cases hseek : env.fails .lseekFd2 with
  | true =>
    have hno : env.ok .lseekFd2 = false := by simp [Env.ok, hseek]
    exact outcome_cleanup k k' path hk hpre hno
  | false =>
    refine Outcome.cons ?_ (by simp [Env.ok, hseek])
    cases hread : env.fails .readFd1 with
    | true =>
      have hno : env.ok .readFd1 = false := by simp [Env.ok, hread]
      exact outcome_cleanup k (k'.seek d1 0) path hk hpre hno
    | false =>
      simp only [Bool.false_eq_true, if_false, hbytes]
      by_cases hmost : 5 ≤ env.most .readFd1
      · have hlen : ¬ hello.length ≠ 5 := by decide
        have hcstr : cstr hello = hello := by decide
        simp only [take_hello hmost, if_neg hlen, hcstr]
        rw [take_hello hmost] at hw
        have hok : env.ok .readFd1 = true := by simp [Env.ok, hread, hmost]
        exact (outcome_readThird env k ((k'.seek d1 0).read d1 _).2 path hk hw).cons hok
      · have hno : env.ok .readFd1 = false := by simp [Env.ok, hmost]
        simp only [if_pos ((length_take_hello _).mpr hmost)]
        exact outcome_cleanup k ((k'.seek d1 0).read d1 _).2 path hk hpre hno

/-- The descriptions of the two `open` calls, and an empty file. -/
theorem description_opened (k : Kernel ι) (path : ι) :
    (opened k path).2.description k.next = ⟨path, 0⟩ ∧
      (opened k path).2.description (dupLast k path).2.next = ⟨path, 0⟩ ∧
      (opened k path).2.content path = [] := by
  refine ⟨?_, Kernel.description_openFile, Function.update_self ..⟩
  have hne : k.next ≠ (dupLast k path).2.next := (Nat.lt_succ_self k.next).ne
  exact (Function.update_of_ne hne _ _).trans (Function.update_self ..)

theorem written_opened (k : Kernel ι) (path : ι) :
    Written ((opened k path).2.write k.next hello) k.next (dupLast k path).2.next 5 := by
  obtain ⟨h1, h3, hnil⟩ := description_opened k path
  have hne : k.next ≠ (dupLast k path).2.next := (Nat.lt_succ_self k.next).ne
  have hsplice : splice [] 0 hello = hello := by decide
  refine ⟨hne, ?_, ?_, ?_, ?_⟩
  · simp [Kernel.content_write, h1, hnil, hsplice]
  · simp [Kernel.content_write, h1, h3, hnil, hsplice]
  · rw [Kernel.offset_write, if_pos rfl, h1]
    rfl
  · rw [Kernel.offset_write, if_neg hne.symm, h3]

theorem outcome_writeFirst (k : Kernel ι) (env : Env) (path : ι) :
    Outcome k.table env [.write, .readFd2, .lseekFd2, .readFd1, .readFd3]
      (writeFirst (opened k path).2 env (opened k path).1 k.next (dupLast k path).2.next) := by
  unfold writeFirst
  cases hw : env.write with
  | error e =>
    have hno : env.ok .write = false := by simp [Env.ok, hw]
    exact outcome_cleanup k (opened k path).2 path rfl List.nil_prefix hno
  | count w =>
    by_cases hfive : w = 5
    · subst hfive
      refine Outcome.cons ?_ (by simp [Env.ok, hw])
      have htake : hello.take 5 = hello := by decide
      have hnil : hello.drop 5 = [] := by decide
      obtain ⟨hbytes, hwr⟩ := (written_opened k path).read1 (min 5 (env.most .readFd2))
      rw [hnil, List.take_nil] at hbytes hwr
      cases hread : env.fails .readFd2 with
      | true =>
        have hno : env.ok .readFd2 = false := by simp [Env.ok, hread]
        simp only [htake, ne_eq, not_true, if_false, if_true]
        exact outcome_cleanup k ((opened k path).2.write k.next hello) path rfl List.nil_prefix hno
      | false =>
        simp only [htake, hbytes, Bool.false_eq_true, if_false, ne_eq, not_true]
        have hok : env.ok .readFd2 = true := by simp [Env.ok, hread]
        exact (outcome_rewind env k (((opened k path).2.write k.next hello).read k.next _).2 path
          rfl hwr).cons hok
    · have hno : env.ok .write = false := by simp [Env.ok, hw, hfive]
      simp only [ne_eq, hfive, not_false_eq_true, if_true]
      exact outcome_cleanup k ((opened k path).2.write k.next (hello.take w)) path rfl
        List.nil_prefix hno

end SystemCalls.FdDemo

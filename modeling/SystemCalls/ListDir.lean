import SystemCalls.CString
import SystemCalls.Socket
import Mathlib.Algebra.Group.Nat.Defs

/-!
# The directory listing

`list_dir` of 2.6.7 on any directory. A library call that succeeds may leave something in `errno`,
and none sets it to 0. `list_dir` reads `errno` once, after the last `readdir`.
-/

namespace SystemCalls.ListDir

/-- The `errno` of a call that failed. -/
structure Failure where
  errno : Errno
  ne_zero : errno.code ≠ 0

/-- What calls that succeed put into `errno`, if anything. -/
abbrev Effect := Option Failure

def leave (errno : Errno) : Effect → Errno
  | none => errno
  | some f => f.errno

structure Stat where
  st_mode : UInt32
  st_size : ℤ

abbrev S_IFMT : UInt32 := 0o170000

def S_ISDIR (mode : UInt32) : Bool := mode &&& S_IFMT == 0o040000
def S_ISLNK (mode : UInt32) : Bool := mode &&& S_IFMT == 0o120000
def S_ISREG (mode : UInt32) : Bool := mode &&& S_IFMT == 0o100000

/-- An entry with what the calls made for it do. -/
structure Entry where
  d_name : List UInt8
  readdir : Effect
  strcmp : Effect
  snprintf : Effect
  lstat : Except Failure (Stat × Effect)
  /-- Of `printf` after `lstat` succeeded and of `perror` after it failed. -/
  print : Effect

structure Directory where
  /-- On entry. -/
  errno : Errno
  opendir : Except Failure Effect
  entries : List Entry
  /-- Why `readdir` returns NULL: the end, which leaves `errno` alone, or an error. -/
  last : Option Failure
  closedir : Except Failure Effect

inductive Output
  | stdout (text : List UInt8)
  | stderr (text : List UInt8)
  | perror (s : List UInt8) (e : Errno)

/-- `sizeof path` -/
abbrev SIZEOF_PATH : ℕ := 4096

/-- `"%s/%s"` -/
def joined (dirpath d_name : List UInt8) : List UInt8 := dirpath ++ ascii "/" ++ d_name

/-- What `snprintf` returns: the length without the NUL, or -1 when that is no `int`. -/
def snprintf (text : List UInt8) : ℤ := if text.length < 2 ^ 31 then text.length else -1

/-- The line for a path. -/
def line (path : List UInt8) (sb : Stat) : List UInt8 :=
  if S_ISDIR sb.st_mode then ascii "[dir]  " ++ path ++ ascii "/\n"
  else if S_ISLNK sb.st_mode then ascii "[lnk]  " ++ path ++ ascii "\n"
  else if S_ISREG sb.st_mode then
    ascii "[file] " ++ path ++ ascii " (" ++ ascii (toString sb.st_size) ++ ascii " bytes)\n"
  else ascii "[?]    " ++ path ++ ascii "\n"

def Entry.IsDot (e : Entry) : Prop := e.d_name = ascii "." ∨ e.d_name = ascii ".."

instance (e : Entry) : Decidable e.IsDot := inferInstanceAs (Decidable (_ ∨ _))

/-- How a round of the loop ends. -/
inductive Round
  | continued (errno : Errno) (out : List Output)
  | tooLong

/-- The body of the loop. -/
def body (dirpath : List UInt8) (errno : Errno) (e : Entry) : Round :=
  let errno := leave (leave errno e.readdir) e.strcmp
  if e.IsDot then .continued errno []
  else
    let path := joined dirpath e.d_name
    let n := snprintf path
    let errno := leave errno e.snprintf
    if n < 0 ∨ SIZEOF_PATH ≤ n then .tooLong
    else
      match e.lstat with
      | .error f => .continued (leave f.errno e.print) [.perror path f.errno]
      | .ok (sb, effect) =>
        .continued (leave (leave errno effect) e.print) [.stdout (line path sb)]

/-- What the loop prints, and `errno` after its last round unless it returned. -/
def loop (dirpath : List UInt8) : List Entry → Errno → List Output × Option Errno
  | [], errno => ([], some errno)
  | e :: entries, errno =>
    match body dirpath errno e with
    | .tooLong => ([], none)
    | .continued errno out =>
      (out ++ (loop dirpath entries errno).1, (loop dirpath entries errno).2)

structure Result where
  ret : ℤ
  out : List Output

/-- From `if (errno)` on. -/
def finish (d : Directory) (out : List Output) (errno : Errno) : Result :=
  if errno.code ≠ 0 then ⟨-1, out ++ [.perror (ascii "readdir") errno]⟩
  else
    match d.closedir with
    | .error f => ⟨-1, out ++ [.perror (ascii "closedir") f.errno]⟩
    | .ok _ => ⟨0, out⟩

def listDir (dirpath : List UInt8) (d : Directory) : Result :=
  match d.opendir with
  | .error f => ⟨-1, [.perror (ascii "opendir") f.errno]⟩
  | .ok effect =>
    match loop dirpath d.entries (leave d.errno effect) with
    | (out, none) => ⟨-1, out ++ [.stderr (ascii "path too long\n")]⟩
    | (out, some errno) => finish d out (leave errno d.last)

/-! ### What it is for -/

/-- The path and its NUL do not fit in the buffer. -/
def Entry.TooLong (dirpath : List UInt8) (e : Entry) : Prop :=
  ¬ e.IsDot ∧ SIZEOF_PATH ≤ (joined dirpath e.d_name).length

instance (dirpath : List UInt8) (e : Entry) : Decidable (e.TooLong dirpath) :=
  inferInstanceAs (Decidable (_ ∧ _))

/-- What a listing may fail for. -/
inductive Reason (dirpath : List UInt8) (d : Directory) : Prop
  | opendir {f : Failure} (h : d.opendir = .error f)
  | readdir {f : Failure} (h : d.last = some f)
  | tooLong {e : Entry} (he : e ∈ d.entries) (h : e.TooLong dirpath)
  | closedir {f : Failure} (h : d.closedir = .error f)

/-- The line of an entry. -/
def Entry.listed (dirpath : List UInt8) (e : Entry) : Option (List UInt8) :=
  if e.IsDot then none
  else
    match e.lstat with
    | .error _ => none
    | .ok (sb, _) => some (line (joined dirpath e.d_name) sb)

def Output.line : Output → Option (List UInt8)
  | stdout text => some text
  | stderr _ | perror _ _ => none

/-- The lines on standard output. -/
def Result.lines (r : Result) : List (List UInt8) := r.out.filterMap Output.line

/-- -1 is returned for a reason, and without one every entry is listed. -/
structure Correct (dirpath : List UInt8) (d : Directory) : Prop where
  fails_iff : (listDir dirpath d).ret = -1 ↔ Reason dirpath d
  lists : ¬ Reason dirpath d →
    (listDir dirpath d).lines = d.entries.filterMap (Entry.listed dirpath)

/-- No call for the entry touches `errno`. -/
structure Entry.Quiet (e : Entry) : Prop where
  readdir : e.readdir = none
  strcmp : e.strcmp = none
  calls : ¬ e.IsDot → e.snprintf = none ∧ (∃ sb, e.lstat = .ok (sb, none)) ∧ e.print = none

/-- `errno` is 0 on entry and no call up to the last `readdir` touches it. -/
structure Quiet (d : Directory) : Prop where
  errno : d.errno.code = 0
  opendir : d.opendir = .ok none
  entries : ∀ e ∈ d.entries, e.Quiet

variable {dirpath text : List UInt8} {d : Directory} {e : Entry} {errno : Errno}

/-! ### One round -/

theorem leave_eq_zero {effect : Effect} :
    (leave errno effect).code = 0 ↔ errno.code = 0 ∧ effect = none := by
  cases effect with
  | none => simp [leave]
  | some f => simp [leave, f.ne_zero]

theorem snprintf_overflows : (snprintf text < 0 ∨ SIZEOF_PATH ≤ snprintf text) ↔
    SIZEOF_PATH ≤ text.length := by
  unfold snprintf SIZEOF_PATH
  split <;> omega

theorem body_of_tooLong (h : e.TooLong dirpath) : body dirpath errno e = .tooLong := by
  unfold body
  rw [if_neg h.1]
  exact if_pos (snprintf_overflows.mpr h.2)

/-- What one round or all of them leave in `errno` and print, when no path is too long. -/
structure Clean (errno errno' : Errno) (quiet : Prop) (out : List Output)
    (lines : List (List UInt8)) : Prop where
  errno_iff : errno'.code = 0 ↔ errno.code = 0 ∧ quiet
  lines_eq : out.filterMap Output.line = lines

theorem body_of_fits (h : ¬ e.TooLong dirpath) (errno : Errno) :
    ∃ errno' out, body dirpath errno e = .continued errno' out ∧
      Clean errno errno' e.Quiet out (e.listed dirpath).toList := by
  by_cases hdot : e.IsDot
  · refine ⟨_, _, if_pos hdot, ?_, by simp [Entry.listed, hdot]⟩
    rw [leave_eq_zero, leave_eq_zero]
    constructor
    · rintro ⟨⟨hz, hr⟩, hs⟩
      exact ⟨hz, hr, hs, fun hn => (hn hdot).elim⟩
    · rintro ⟨hz, hq⟩
      exact ⟨⟨hz, hq.readdir⟩, hq.strcmp⟩
  · have hfits : ¬ (snprintf (joined dirpath e.d_name) < 0 ∨
        SIZEOF_PATH ≤ snprintf (joined dirpath e.d_name)) :=
      fun hn => h ⟨hdot, snprintf_overflows.mp hn⟩
    unfold body
    simp only [if_neg hdot, if_neg hfits]
    cases hl : e.lstat with
    | error f =>
      refine ⟨_, _, rfl, ?_, by simp [Entry.listed, hdot, hl, Output.line]⟩
      constructor
      · intro hz
        exact (f.ne_zero (leave_eq_zero.mp hz).1).elim
      · rintro ⟨-, hq⟩
        obtain ⟨sb, hsb⟩ := (hq.calls hdot).2.1
        simp [hl] at hsb
    | ok r =>
      obtain ⟨sb, effect⟩ := r
      refine ⟨_, _, rfl, ?_, by simp [Entry.listed, hdot, hl, Output.line]⟩
      simp only [leave_eq_zero]
      constructor
      · rintro ⟨⟨⟨⟨⟨hz, hr⟩, hs⟩, hn⟩, rfl⟩, hp⟩
        exact ⟨hz, hr, hs, fun _ => ⟨hn, ⟨sb, hl⟩, hp⟩⟩
      · rintro ⟨hz, hq⟩
        obtain ⟨hn, ⟨sb', hsb⟩, hp⟩ := hq.calls hdot
        rw [hl, Except.ok.injEq, Prod.mk.injEq] at hsb
        exact ⟨⟨⟨⟨⟨hz, hq.readdir⟩, hq.strcmp⟩, hn⟩, hsb.2⟩, hp⟩

/-! ### The whole loop -/

theorem loop_of_tooLong {entries : List Entry} (he : e ∈ entries) (h : e.TooLong dirpath)
    (errno : Errno) : (loop dirpath entries errno).2 = none := by
  induction entries generalizing errno with
  | nil => simp at he
  | cons e' entries ih =>
    rw [loop]
    by_cases h' : e'.TooLong dirpath
    · rw [body_of_tooLong h']
    · obtain ⟨errno', out, hb, -⟩ := body_of_fits h' errno
      rw [hb]
      rcases List.mem_cons.mp he with rfl | he
      · exact (h' h).elim
      · exact ih he errno'

theorem loop_of_fits {entries : List Entry} (h : ∀ e ∈ entries, ¬ e.TooLong dirpath)
    (errno : Errno) :
    ∃ errno' out, loop dirpath entries errno = (out, some errno') ∧
      Clean errno errno' (∀ e ∈ entries, e.Quiet) out
        (entries.filterMap (Entry.listed dirpath)) := by
  induction entries generalizing errno with
  | nil => exact ⟨errno, [], rfl, by simp, rfl⟩
  | cons e entries ih =>
    rw [List.forall_mem_cons] at h
    obtain ⟨errno₁, out₁, hb, hq₁, hl₁⟩ := body_of_fits h.1 errno
    obtain ⟨errno₂, out₂, hr, hq₂, hl₂⟩ := ih h.2 errno₁
    refine ⟨errno₂, out₁ ++ out₂, by simp only [loop, hb, hr], ?_, ?_⟩
    · rw [hq₂, hq₁, List.forall_mem_cons, and_assoc]
    · rw [List.filterMap_append, hl₁, hl₂]
      cases hl : e.listed dirpath <;> simp [hl]

/-! ### The verdict -/

theorem ret_finish (d : Directory) (out : List Output) (errno : Errno) :
    (finish d out errno).ret = -1 ↔ errno.code ≠ 0 ∨ ∃ f, d.closedir = .error f := by
  unfold finish
  split
  next hne => simp [hne]
  next hz =>
    cases hc : d.closedir with
    | error f => simp
    | ok effect => simpa using hz

theorem lines_finish (d : Directory) (out : List Output) (errno : Errno) :
    (finish d out errno).lines = out.filterMap Output.line := by
  unfold finish Result.lines
  split
  · simp [Output.line]
  · cases d.closedir <;> simp [Output.line]

theorem ret_of_reason (h : Reason dirpath d) : (listDir dirpath d).ret = -1 := by
  unfold listDir
  cases ho : d.opendir with
  | error f => rfl
  | ok effect =>
    by_cases hlong : ∃ e ∈ d.entries, e.TooLong dirpath
    · obtain ⟨e, he, hlong⟩ := hlong
      have hnone := loop_of_tooLong he hlong (leave d.errno effect)
      dsimp only
      split
      next => rfl
      next heq =>
        rw [heq] at hnone
        cases hnone
    · simp only [not_exists, not_and] at hlong
      obtain ⟨errno', out, hloop, -⟩ := loop_of_fits hlong (leave d.errno effect)
      simp only [hloop, ret_finish]
      cases h with
      | opendir h => simp [ho] at h
      | @readdir f h => exact .inl (by simpa [h, leave] using f.ne_zero)
      | tooLong he h => exact (hlong _ he h).elim
      | closedir h => exact .inr ⟨_, h⟩

/-- Without a reason, all is listed and the return value tells whether `errno` was touched. -/
theorem listDir_of_no_reason (h : ¬ Reason dirpath d) :
    ((listDir dirpath d).ret = -1 ↔ ¬ Quiet d) ∧
      (listDir dirpath d).lines = d.entries.filterMap (Entry.listed dirpath) := by
  have hfits : ∀ e ∈ d.entries, ¬ e.TooLong dirpath := fun e he hlong => h (.tooLong he hlong)
  have hclose : ¬ ∃ f, d.closedir = .error f := fun ⟨f, hf⟩ => h (.closedir hf)
  have hlast : d.last = none := by
    cases hl : d.last with
    | none => rfl
    | some f => exact (h (.readdir hl)).elim
  cases ho : d.opendir with
  | error f => exact (h (.opendir ho)).elim
  | ok effect =>
    obtain ⟨errno', out, hloop, hiff, hlines⟩ := loop_of_fits hfits (leave d.errno effect)
    have heq : listDir dirpath d = finish d out errno' := by
      simp only [listDir, ho, hloop, hlast]
      rfl
    rw [heq, ret_finish, lines_finish]
    refine ⟨?_, hlines⟩
    have hquiet : errno'.code = 0 ↔ Quiet d := by
      rw [hiff, leave_eq_zero]
      constructor
      · rintro ⟨⟨hz, rfl⟩, hq⟩
        exact ⟨hz, ho, hq⟩
      · intro hq
        have hopen := hq.opendir
        rw [ho, Except.ok.injEq] at hopen
        exact ⟨⟨hq.errno, hopen⟩, hq.entries⟩
    simp [hclose, ← hquiet]

/-- The listing is correct exactly when it has a reason to fail or `errno` is 0 throughout. -/
theorem list_dir_correct_iff (dirpath : List UInt8) (d : Directory) :
    Correct dirpath d ↔ Reason dirpath d ∨ Quiet d := by
  constructor
  · intro h
    by_cases hr : Reason dirpath d
    · exact .inl hr
    · right
      by_contra hq
      exact hr (h.fails_iff.mp ((listDir_of_no_reason hr).1.mpr hq))
  · intro h
    by_cases hr : Reason dirpath d
    · exact ⟨⟨fun _ => hr, fun _ => ret_of_reason hr⟩, fun hn => (hn hr).elim⟩
    · obtain ⟨hret, hlines⟩ := listDir_of_no_reason hr
      have hq : Quiet d := h.resolve_left hr
      exact ⟨⟨fun hf => (hret.mp hf hq).elim, fun hf => (hr hf).elim⟩, fun _ => hlines⟩

def eacces : Failure := ⟨⟨13⟩, by decide⟩

/-- A directory that may be read but not searched: `lstat` fails for its one file. -/
def unsearchable : Directory where
  errno := ⟨0⟩
  opendir := .ok none
  entries :=
    [⟨ascii ".", none, none, none, .error eacces, none⟩,
      ⟨ascii "..", none, none, none, .error eacces, none⟩,
      ⟨ascii "notes", none, none, none, .error eacces, none⟩]
  last := none
  closedir := .ok none

/-- The end of the directory is reported as an error of `readdir`. -/
theorem list_dir_fails_after_lstat : ¬ Correct (ascii "d") unsearchable := by
  intro h
  have hret : (listDir (ascii "d") unsearchable).ret = -1 := by decide +kernel
  cases h.fails_iff.mp hret with
  | opendir h => cases h
  | readdir h => cases h
  | closedir h => cases h
  | tooLong he h =>
    have hfits : ∀ e ∈ unsearchable.entries, ¬ e.TooLong (ascii "d") := by decide +kernel
    exact hfits _ he h

end SystemCalls.ListDir

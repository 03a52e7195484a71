import Mathlib.Data.List.Induction
import SystemCalls.Bpf
import SystemCalls.Socket
import SystemCalls.Transition

/-!
# System call filters

`install_basic_filter` of 8.6.2 and a process that runs with the filter it attaches. The filters
a process has come from whoever started it too, and the strictest answer of all of them counts.
-/

namespace SystemCalls.Seccomp

open Bpf

/-- What a filter sees of a system call. -/
structure SeccompData where
  nr : UInt32
  arch : UInt32
  instruction_pointer : UInt64
  args : Fin 6 → UInt64

namespace SeccompData

/-- The low and the high half of the two-word fields from offset 8 on. -/
def half (v : UInt64) (i : ℕ) : UInt32 :=
  if i % 2 = 0 then v.toUInt32 else (v >>> 32).toUInt32

/-- The offset of a word of the 64 bytes. -/
def inside (k : UInt32) : Bool :=
  k.toNat % 4 = 0 && k.toNat < 64

def word (d : SeccompData) (k : UInt32) : Option UInt32 :=
  if inside k then
    match k.toNat / 4 with
    | 0 => some d.nr
    | 1 => some d.arch
    | 2 | 3 => some (half d.instruction_pointer (k.toNat / 4))
    | i => some (half (d.args (Fin.ofNat 6 ((i - 4) / 2))) i)
  else none

/-- `offsetof(struct seccomp_data, nr)`. -/
def offsetofNr : UInt32 := 0

theorem word_offsetofNr (d : SeccompData) : d.word offsetofNr = some d.nr := rfl

theorem word_isSome {d : SeccompData} (k : UInt32) (h : inside k = true) : (d.word k).isSome := by
  unfold word
  rw [if_pos h]
  split <;> rfl

end SeccompData

/-- An instruction as it is handed to the kernel. -/
structure SockFilter where
  code : UInt16
  jt : UInt8
  jf : UInt8
  k : UInt32
  deriving DecidableEq

abbrev BPF_LD : UInt16 := 0x00
abbrev BPF_ALU : UInt16 := 0x04
abbrev BPF_JMP : UInt16 := 0x05
abbrev BPF_RET : UInt16 := 0x06
abbrev BPF_W : UInt16 := 0x00
abbrev BPF_ABS : UInt16 := 0x20
abbrev BPF_AND : UInt16 := 0x50
abbrev BPF_JA : UInt16 := 0x00
abbrev BPF_JEQ : UInt16 := 0x10
abbrev BPF_JGT : UInt16 := 0x20
abbrev BPF_JGE : UInt16 := 0x30
abbrev BPF_JSET : UInt16 := 0x40
abbrev BPF_K : UInt16 := 0x00
abbrev BPF_A : UInt16 := 0x10

def BPF_STMT (code : UInt16) (k : UInt32) : SockFilter := ⟨code, 0, 0, k⟩

def BPF_JUMP (code : UInt16) (k : UInt32) (jt jf : UInt8) : SockFilter := ⟨code, jt, jf, k⟩

/-- The instruction behind a code word, for the codes the interpreter knows. -/
def SockFilter.decode (i : SockFilter) : Option Insn :=
  if i.code = BPF_LD ||| BPF_W ||| BPF_ABS then some (.load i.k)
  else if i.code = BPF_ALU ||| BPF_AND ||| BPF_K then some (.and i.k)
  else if i.code = BPF_JMP ||| BPF_JA then some (.skip i.k)
  else if i.code = BPF_JMP ||| BPF_JEQ ||| BPF_K then some (.jump .eq i.k i.jt i.jf)
  else if i.code = BPF_JMP ||| BPF_JGT ||| BPF_K then some (.jump .gt i.k i.jt i.jf)
  else if i.code = BPF_JMP ||| BPF_JGE ||| BPF_K then some (.jump .ge i.k i.jt i.jf)
  else if i.code = BPF_JMP ||| BPF_JSET ||| BPF_K then some (.jump .set i.k i.jt i.jf)
  else if i.code = BPF_RET ||| BPF_K then some (.ret i.k)
  else if i.code = BPF_RET ||| BPF_A then some .retAcc
  else none

abbrev SECCOMP_RET_KILL : UInt32 := 0x00000000
abbrev SECCOMP_RET_TRAP : UInt32 := 0x00030000
abbrev SECCOMP_RET_ERRNO : UInt32 := 0x00050000
abbrev SECCOMP_RET_USER_NOTIF : UInt32 := 0x7fc00000
abbrev SECCOMP_RET_TRACE : UInt32 := 0x7ff00000
abbrev SECCOMP_RET_LOG : UInt32 := 0x7ffc0000
abbrev SECCOMP_RET_ALLOW : UInt32 := 0x7fff0000
abbrev SECCOMP_RET_ACTION_FULL : UInt32 := 0xffff0000

/-- The action of an answer as the signed number that answers are compared by. -/
def level (v : UInt32) : Int :=
  (v &&& SECCOMP_RET_ACTION_FULL).toBitVec.toInt

/-- A program the kernel has accepted. -/
structure Filter where
  prog : List Insn
  checked : check SeccompData.inside prog = true

/-- The answer of one filter, which there always is. -/
def Filter.answer (f : Filter) (d : SeccompData) : UInt32 :=
  (run d.word f.prog).get (run_isSome SeccompData.word_isSome f.checked)

/-- Of all answers the first one with the lowest level, the newest filter first. -/
def verdict (fs : List Filter) (d : SeccompData) : UInt32 :=
  fs.foldl (fun ret f => if level (f.answer d) < level ret then f.answer d else ret)
    SECCOMP_RET_ALLOW

/-- No filter wants anything else than to let the call through. -/
def Allows (fs : List Filter) (d : SeccompData) : Prop :=
  ∀ f ∈ fs, level SECCOMP_RET_ALLOW ≤ level (f.answer d)

structure Process where
  /-- Has CAP_SYS_ADMIN. -/
  privileged : Bool
  noNewPrivs : Bool
  filters : List Filter
  /-- The calls whose handlers the kernel has run. -/
  performed : List SeccompData
  ended : Bool

/-- A system call, with the program its arguments point to if they point to one. -/
structure Request where
  data : SeccompData
  prog : List SockFilter

abbrev SYS_read : UInt32 := 0
abbrev SYS_write : UInt32 := 1
abbrev SYS_prctl : UInt32 := 157
abbrev SYS_exit_group : UInt32 := 231
abbrev AUDIT_ARCH_X86_64 : UInt32 := 0xc000003e
abbrev PR_SET_SECCOMP : UInt64 := 22
abbrev PR_SET_NO_NEW_PRIVS : UInt64 := 38
abbrev SECCOMP_MODE_FILTER : UInt64 := 2

/-- `prctl(option, arg2, ...)` of a 64 bit program. -/
def Request.Prctl (r : Request) (option arg2 : UInt64) : Prop :=
  r.data.nr = SYS_prctl ∧ r.data.arch = AUDIT_ARCH_X86_64 ∧ r.data.args 0 = option ∧
    r.data.args 1 = arg2

abbrev Answer := Except Errno Unit

/-- What the handler of a system call may do to the process. -/
inductive Handler (p : Process) (r : Request) : Answer → Process → Prop
  | noNewPrivs (hr : r.Prctl PR_SET_NO_NEW_PRIVS 1) :
      Handler p r (.ok ()) { p with noNewPrivs := true }
  | noNewPrivsFails {e : Errno} (hr : r.Prctl PR_SET_NO_NEW_PRIVS 1) : Handler p r (.error e) p
  | attach {prog : List Insn} {h : check SeccompData.inside prog = true}
      (hr : r.Prctl PR_SET_SECCOMP SECCOMP_MODE_FILTER)
      (hp : p.noNewPrivs = true ∨ p.privileged = true)
      (hd : r.prog.mapM SockFilter.decode = some prog) :
      Handler p r (.ok ()) { p with filters := ⟨prog, h⟩ :: p.filters }
  | attachFails {e : Errno} (hr : r.Prctl PR_SET_SECCOMP SECCOMP_MODE_FILTER) :
      Handler p r (.error e) p
  -- Filters can be added in other ways, and none is ever taken away.
  | other {a : Answer} {q : Process} {fs : List Filter}
      (hn : ¬ r.Prctl PR_SET_NO_NEW_PRIVS 1) (hr : ¬ r.Prctl PR_SET_SECCOMP SECCOMP_MODE_FILTER)
      (hp : p.noNewPrivs = true → q.noNewPrivs = true) (hf : q.filters = fs ++ p.filters)
      (hl : q.performed = p.performed) : Handler p r a q

/-- The handler may be reached with this verdict, at once or if a supervisor wants it. -/
def MayPerform (v : UInt32) : Prop :=
  level v ∈
    [SECCOMP_RET_ALLOW, SECCOMP_RET_LOG, SECCOMP_RET_TRACE, SECCOMP_RET_USER_NOTIF].map level

/-- The call may return without its handler. -/
def MayAnswer (v : UInt32) : Prop :=
  level v ∈
    [SECCOMP_RET_ERRNO, SECCOMP_RET_TRAP, SECCOMP_RET_TRACE, SECCOMP_RET_USER_NOTIF].map level

inductive Event
  | call (r : Request) (a : Answer)
  /-- By a filter or by another process. -/
  | killed

inductive Step : Process → Event → Process → Prop
  | performed {p q : Process} {r : Request} {a : Answer} (h : p.ended = false)
      (hv : MayPerform (verdict p.filters r.data)) (hq : Handler p r a q) :
      Step p (.call r a) { q with performed := q.performed ++ [r.data] }
  | answered {p : Process} {r : Request} {a : Answer} (h : p.ended = false)
      (hv : MayAnswer (verdict p.filters r.data)) : Step p (.call r a) p
  | killed {p : Process} (h : p.ended = false) : Step p .killed { p with ended := true }

/-- A process from `p` on. -/
def system (p : Process) : LTS Process Event where
  initial s := s = p
  step := Step

/-- `filter` of `install_basic_filter`. -/
def filter : List SockFilter :=
  [ BPF_STMT (BPF_LD ||| BPF_W ||| BPF_ABS) SeccompData.offsetofNr,
    BPF_JUMP (BPF_JMP ||| BPF_JEQ ||| BPF_K) SYS_read 0 1,
    BPF_STMT (BPF_RET ||| BPF_K) SECCOMP_RET_ALLOW,
    BPF_JUMP (BPF_JMP ||| BPF_JEQ ||| BPF_K) SYS_write 0 1,
    BPF_STMT (BPF_RET ||| BPF_K) SECCOMP_RET_ALLOW,
    BPF_JUMP (BPF_JMP ||| BPF_JEQ ||| BPF_K) SYS_exit_group 0 1,
    BPF_STMT (BPF_RET ||| BPF_K) SECCOMP_RET_ALLOW,
    BPF_STMT (BPF_RET ||| BPF_K) SECCOMP_RET_KILL ]

/-- The numbers that the calls in the comments of the filter have on x86-64. The filter does not
load `arch`, so a call that has one of them elsewhere passes as well, whatever it is there. -/
def allowed : List UInt32 := [SYS_read, SYS_write, SYS_exit_group]

/-- `install_basic_filter()` takes the process to `q` and returns the number. -/
inductive InstallBasicFilter (p : Process) : Int → Process → Prop
  | noNewPrivsFails {r : Request} {e : Errno} {q : Process} (hr : r.Prctl PR_SET_NO_NEW_PRIVS 1)
      (h : Step p (.call r (.error e)) q) : InstallBasicFilter p (-1) q
  | attachFails {r r' : Request} {e : Errno} {m q : Process} (hr : r.Prctl PR_SET_NO_NEW_PRIVS 1)
      (h : Step p (.call r (.ok ())) m) (hr' : r'.Prctl PR_SET_SECCOMP SECCOMP_MODE_FILTER)
      (hprog : r'.prog = filter) (h' : Step m (.call r' (.error e)) q) :
      InstallBasicFilter p (-1) q
  | installed {r r' : Request} {m q : Process} (hr : r.Prctl PR_SET_NO_NEW_PRIVS 1)
      (h : Step p (.call r (.ok ())) m) (hr' : r'.Prctl PR_SET_SECCOMP SECCOMP_MODE_FILTER)
      (hprog : r'.prog = filter) (h' : Step m (.call r' (.ok ())) q) : InstallBasicFilter p 0 q

variable {p q s t : Process} {r : Request} {a : Answer} {e : Event} {d : SeccompData}
  {f : Filter} {fs gs : List Filter} {v : UInt32} {n : Int}

/-- One more filter, the oldest one. -/
theorem verdict_append_singleton : verdict (fs ++ [f]) d =
    if level (f.answer d) < level (verdict fs d) then f.answer d else verdict fs d := by
  rw [verdict, List.foldl_append]
  rfl

theorem level_verdict_append_le (fs gs : List Filter) (d : SeccompData) :
    level (verdict (fs ++ gs) d) ≤ level (verdict fs d) := by
  induction gs using List.reverseRecOn with
  | nil => simp
  | append_singleton gs g ih =>
    rw [← List.append_assoc, verdict_append_singleton]
    split <;> omega

/-- The verdict is at most as lenient as any of the filters. -/
theorem level_verdict_le (h : f ∈ fs) : level (verdict fs d) ≤ level (f.answer d) := by
  obtain ⟨gs, hs, rfl⟩ := List.append_of_mem h
  have hle : level (verdict (gs ++ [f]) d) ≤ level (f.answer d) := by
    rw [verdict_append_singleton]
    split <;> omega
  have happ : level (verdict (gs ++ f :: hs) d) ≤ level (verdict (gs ++ [f]) d) := by
    simpa using level_verdict_append_le (gs ++ [f]) hs d
  omega

theorem level_verdict_le_allow (fs : List Filter) (d : SeccompData) :
    level (verdict fs d) ≤ level SECCOMP_RET_ALLOW :=
  level_verdict_append_le [] fs d

/-- And it is the answer of one of them. -/
theorem verdict_mem (fs : List Filter) (d : SeccompData) :
    verdict fs d = SECCOMP_RET_ALLOW ∨ ∃ f ∈ fs, verdict fs d = f.answer d := by
  induction fs using List.reverseRecOn with
  | nil => exact .inl rfl
  | append_singleton fs g ih =>
    rw [verdict_append_singleton]
    split
    · exact .inr ⟨g, by simp, rfl⟩
    · rcases ih with ih | ⟨f, hf, hv⟩
      · exact .inl ih
      · exact .inr ⟨f, by simp [hf], hv⟩

theorem verdict_eq_allow_iff : level (verdict fs d) = level SECCOMP_RET_ALLOW ↔ Allows fs d := by
  constructor
  · intro h f hf
    rw [← h]
    exact level_verdict_le hf
  · intro h
    rcases verdict_mem fs d with hv | ⟨f, hf, hv⟩
    · rw [hv]
    · have hle := level_verdict_le_allow fs d
      have hf := h f hf
      rw [hv] at hle ⊢
      omega

/-- Neither the handler nor an answer after a filter that kills. -/
theorem not_returns_of_kill (h : level v ≤ level SECCOMP_RET_KILL) :
    ¬ MayPerform v ∧ ¬ MayAnswer v := by
  have hkill : level SECCOMP_RET_KILL = 0 := by decide
  have hperform : ∀ l ∈ [SECCOMP_RET_ALLOW, SECCOMP_RET_LOG, SECCOMP_RET_TRACE,
      SECCOMP_RET_USER_NOTIF].map level, 0 < l := by decide
  have hanswer : ∀ l ∈ [SECCOMP_RET_ERRNO, SECCOMP_RET_TRAP, SECCOMP_RET_TRACE,
      SECCOMP_RET_USER_NOTIF].map level, 0 < l := by decide
  constructor
  · intro hv
    have hpos := hperform _ hv
    omega
  · intro hv
    have hpos := hanswer _ hv
    omega

/-- The instructions of the source are the list of the three numbers. -/
theorem decode_filter : filter.mapM SockFilter.decode =
    some (allowList SeccompData.offsetofNr SECCOMP_RET_ALLOW SECCOMP_RET_KILL allowed) := by
  decide

theorem answer_allowList {h : check SeccompData.inside
      (allowList SeccompData.offsetofNr SECCOMP_RET_ALLOW SECCOMP_RET_KILL allowed) = true} :
    Filter.answer ⟨_, h⟩ d = if d.nr ∈ allowed then SECCOMP_RET_ALLOW else SECCOMP_RET_KILL := by
  simp [Filter.answer, run_allowList d.word_offsetofNr]

/-- The filter in force, whichever way its check was made. -/
def Basic (f : Filter) : Prop :=
  f.prog = allowList SeccompData.offsetofNr SECCOMP_RET_ALLOW SECCOMP_RET_KILL allowed

theorem Basic.answer_eq (h : Basic f) :
    f.answer d = if d.nr ∈ allowed then SECCOMP_RET_ALLOW else SECCOMP_RET_KILL := by
  obtain ⟨prog, hc⟩ := f
  obtain rfl : prog = _ := h
  exact answer_allowList

theorem Basic.nr_mem (h : Basic f) (hv : level SECCOMP_RET_KILL < level (f.answer d)) :
    d.nr ∈ allowed := by
  by_contra hnr
  rw [h.answer_eq, if_neg hnr] at hv
  omega

/-- With the filter among the others a call that returns has one of the three numbers. -/
theorem Basic.nr_mem_of_call (h : Basic f) (hf : f ∈ s.filters) (hs : Step s (.call r a) t) :
    r.data.nr ∈ allowed := by
  refine h.nr_mem (d := r.data) ?_
  have hle := level_verdict_le (d := r.data) hf
  by_contra hlt
  have hno := not_returns_of_kill (v := verdict s.filters r.data) (by omega)
  cases hs with
  | performed _ hv => exact hno.1 hv
  | answered _ hv => exact hno.2 hv

theorem handler_filters (h : Handler p r a q) :
    (∃ fs, q.filters = fs ++ p.filters) ∧ q.performed = p.performed := by
  cases h with
  | attach => exact ⟨⟨[_], rfl⟩, rfl⟩
  | noNewPrivs | noNewPrivsFails | attachFails => exact ⟨⟨[], rfl⟩, rfl⟩
  | other _ _ _ hf hl => exact ⟨⟨_, hf⟩, hl⟩

/-- Filters are only added, and the calls made are those that returned. -/
theorem step_filters (h : Step s e t) : (∃ fs, t.filters = fs ++ s.filters) ∧
    ∃ ds, t.performed = s.performed ++ ds ∧ ∀ d ∈ ds, ∃ r a, e = .call r a ∧ d = r.data := by
  cases h with
  | @performed q r a _ _ hq =>
    obtain ⟨hf, hl⟩ := handler_filters hq
    refine ⟨hf, [r.data], by simp [hl], fun d hd => ?_⟩
    exact ⟨r, a, rfl, by simpa using hd⟩
  | answered | killed => exact ⟨⟨[], rfl⟩, [], by simp, by simp⟩

/-- Nothing but the three numbers since `q`, whose filters are all still there. -/
structure Confined (q s : Process) : Prop where
  filters : ∃ fs, s.filters = fs ++ q.filters
  performed : ∃ ds, s.performed = q.performed ++ ds ∧ ∀ d ∈ ds, d.nr ∈ allowed

theorem confined_step (hf : Basic f) (hq : f ∈ q.filters) (h : Step s e t)
    (hs : Confined q s) : Confined q t := by
  obtain ⟨fs, hfs⟩ := hs.filters
  obtain ⟨ds, hds, hall⟩ := hs.performed
  obtain ⟨⟨gs, hgs⟩, ds', hds', hnew⟩ := step_filters h
  refine ⟨⟨gs ++ fs, by simp [hgs, hfs]⟩, ds ++ ds', by simp [hds', hds], ?_⟩
  intro d hd
  rcases List.mem_append.mp hd with hd | hd
  · exact hall d hd
  · obtain ⟨r, a, rfl, rfl⟩ := hnew d hd
    exact hf.nr_mem_of_call (by simp [hfs, hq]) h

theorem noNewPrivs_filters (hr : r.Prctl PR_SET_NO_NEW_PRIVS 1) (h : Step s (.call r a) t) :
    t.filters = s.filters := by
  cases h with
  | performed _ _ hq =>
    cases hq with
    | noNewPrivs | noNewPrivsFails => rfl
    | attach hr' | attachFails hr' =>
      have hopt := hr.2.2.1.symm.trans hr'.2.2.1
      exact absurd hopt (by decide)
    | other hn => exact (hn hr).elim
  | answered => rfl

/-- A handler that was reached has attached the program. -/
theorem attached_filters (hr : r.Prctl PR_SET_SECCOMP SECCOMP_MODE_FILTER) (hprog : r.prog = filter)
    (ha : Allows s.filters r.data) (h : Step s (.call r (.ok ())) t) :
    ∃ f, Basic f ∧ t.filters = f :: s.filters := by
  cases h with
  | performed _ _ hq =>
    cases hq with
    | @attach prog hc _ _ hd =>
      rw [hprog, decode_filter] at hd
      exact ⟨⟨prog, hc⟩, (Option.some.inj hd).symm, rfl⟩
    | noNewPrivs hr' =>
      have hopt := hr.2.2.1.symm.trans hr'.2.2.1
      exact absurd hopt (by decide)
    | other _ hn => exact (hn hr).elim
  | answered _ hv =>
    rw [MayAnswer, verdict_eq_allow_iff.mpr ha] at hv
    exact absurd hv (by decide)

/-- The filters after success, when those the process came with let the second `prctl` through. -/
theorem installed_filters (h : InstallBasicFilter p 0 q)
    (hp : ∀ r : Request, r.Prctl PR_SET_SECCOMP SECCOMP_MODE_FILTER → Allows p.filters r.data) :
    ∃ f, Basic f ∧ q.filters = f :: p.filters := by
  cases h with
  | installed hr h hr' hprog h' =>
    have hm := noNewPrivs_filters hr h
    rw [← hm]
    exact attached_filters hr' hprog (hm ▸ hp _ hr') h'

/-- From its return on no call comes back that has not one of the three numbers, whatever its
architecture and whatever filters are added, and of those with one of the numbers the calls
that the older filters let through. -/
theorem install_basic_filter_confines (h : InstallBasicFilter p 0 q)
    (hp : ∀ r : Request, r.Prctl PR_SET_SECCOMP SECCOMP_MODE_FILTER → Allows p.filters r.data)
    (hs : (system q).Reachable s) :
    (∃ ds, s.performed = q.performed ++ ds ∧ ∀ d ∈ ds, d.nr ∈ allowed) ∧
      (∀ r a t, Step s (.call r a) t → r.data.nr ∈ allowed) ∧
      ∀ d, Allows q.filters d ↔ d.nr ∈ allowed ∧ Allows p.filters d := by
  obtain ⟨f, hf, hq⟩ := installed_filters h hp
  have hmem : f ∈ q.filters := by simp [hq]
  have hc : Confined q s := by
    apply hs.invariant
    · rintro _ rfl
      exact ⟨⟨[], rfl⟩, [], by simp, by simp⟩
    · intro s e t hst hs
      exact confined_step hf hmem hst hs
  obtain ⟨fs, hfs⟩ := hc.filters
  refine ⟨hc.performed, fun r a t hst => hf.nr_mem_of_call (by simp [hfs, hmem]) hst, fun d => ?_⟩
  have hiff : level SECCOMP_RET_ALLOW ≤ level (f.answer d) ↔ d.nr ∈ allowed := by
    constructor
    · intro hle
      have hlt : level SECCOMP_RET_KILL < level SECCOMP_RET_ALLOW := by decide
      exact hf.nr_mem (by omega)
    · intro hnr
      simp [hf.answer_eq, hnr]
  rw [hq, ← hiff]
  exact List.forall_mem_cons

/-- A `prctl` call with the arguments the program gives. -/
def prctl (option arg2 : UInt64) (prog : List SockFilter) : Request where
  data := ⟨SYS_prctl, AUDIT_ARCH_X86_64, 0, fun i => if i = 0 then option else if i = 1 then arg2
    else 0⟩
  prog := prog

theorem prctl_prctl {option arg2 : UInt64} {prog : List SockFilter} :
    (prctl option arg2 prog).Prctl option arg2 :=
  ⟨rfl, rfl, rfl, rfl⟩

theorem install_basic_filter_confines_unfiltered : ∃ p q s, p.filters = [] ∧
    InstallBasicFilter p 0 q ∧ (system q).Reachable s ∧
    (∃ ds, s.performed = q.performed ++ ds ∧ ∀ d ∈ ds, d.nr ∈ allowed) ∧
      (∀ r a t, Step s (.call r a) t → r.data.nr ∈ allowed) ∧
      ∀ d, Allows q.filters d ↔ d.nr ∈ allowed ∧ Allows p.filters d := by
  let p : Process := ⟨false, false, [], [], false⟩
  have h1 : Step p (.call (prctl PR_SET_NO_NEW_PRIVS 1 []) (.ok ())) _ :=
    .performed rfl (.head _) (.noNewPrivs prctl_prctl)
  have h2 := Step.performed (p := ⟨false, true, [], [(prctl PR_SET_NO_NEW_PRIVS 1 []).data], false⟩)
    (r := prctl PR_SET_SECCOMP SECCOMP_MODE_FILTER filter) rfl (.head _)
    (.attach (h := by decide) prctl_prctl (.inl rfl) decode_filter)
  have h : InstallBasicFilter p 0 _ := .installed prctl_prctl h1 prctl_prctl rfl h2
  exact ⟨p, _, _, rfl, h, .of_initial rfl,
    install_basic_filter_confines h (fun _ _ => nofun) (.of_initial rfl)⟩

end SystemCalls.Seccomp

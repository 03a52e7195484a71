import SystemCalls.Transition
import SystemCalls.FileOperations.Restore

/-!
# `daemonize`

The function of 1.5.6 in the caller, in the child of its first `fork` and in the child of that.
Each process has its ids and its descriptor table; a session has a controlling terminal or none.
-/

namespace SystemCalls.Daemonize

open Descriptors FileOperations

abbrev STDIN_FILENO : ℕ := 0
abbrev STDERR_FILENO : ℕ := 2

inductive Role
  | caller
  | child
  | grandchild
  deriving DecidableEq

def Role.next : Role → Option Role
  | caller => some child
  | child => some grandchild
  | grandchild => none

inductive PC
  | fork
  | setsid
  | forkAgain
  | chdir
  | openNull
  /-- At `dup2(fd, n)`. -/
  | dup2 (fd n : ℕ)
  | close (fd : ℕ)
  | returned (ret : ℤ)
  /-- At `_exit(0)`. -/
  | exiting
  | exited
  deriving DecidableEq

namespace PC

/-- Where the new process is, after each of the two `fork` calls. -/
def forked : PC → Option PC
  | fork => some setsid
  | forkAgain => some chdir
  | _ => none

/-- After a `dup2` that has not failed. -/
def afterDup2 (fd n : ℕ) : PC :=
  if n < STDERR_FILENO then .dup2 fd (n + 1)
  else if STDERR_FILENO < fd then .close fd else .returned 0

end PC

structure Proc (F : Type*) where
  pc : PC
  pid : ℕ
  pgid : ℕ
  sid : ℕ
  table : Descriptors F

structure State (F : Type*) where
  proc : Role → Option (Proc F)
  /-- The controlling terminal of each session. -/
  tty : ℕ → Option ℕ

variable {F : Type*} (limit : ℕ) (null : F) (t : Descriptors F)

def State.set (s : State F) (r : Role) (p : Proc F) : State F :=
  { s with proc := Function.update s.proc r (some p) }

/-- A step of one process that no other notices. Any call may fail. -/
inductive Local : Proc F → Proc F → Prop
  | forkFails {p : Proc F} (h : p.pc = .fork ∨ p.pc = .forkAgain) :
      Local p { p with pc := .returned (-1) }
  | setsidFails {p : Proc F} (h : p.pc = .setsid) : Local p { p with pc := .returned (-1) }
  | chdir {p : Proc F} (h : p.pc = .chdir) : Local p { p with pc := .openNull }
  | chdirFails {p : Proc F} (h : p.pc = .chdir) : Local p { p with pc := .returned (-1) }
  | openNull {p : Proc F} {fd : ℕ} {u : Descriptors F} (h : p.pc = .openNull)
      (ho : openFile limit p.table (some null) = (some fd, u)) :
      Local p { p with pc := .dup2 fd STDIN_FILENO, table := u }
  | openFails {p : Proc F} (h : p.pc = .openNull) : Local p { p with pc := .returned (-1) }
  | dup2 {p : Proc F} {fd n : ℕ} {u : Descriptors F} (h : p.pc = .dup2 fd n)
      (hd : p.table.dup2OrFail limit fd n = some u) :
      Local p { p with pc := .afterDup2 fd n, table := u }
  | dup2Fails {p : Proc F} {fd n : ℕ} (h : p.pc = .dup2 fd n) :
      Local p { p with pc := .returned (-1), table := p.table.close fd }
  | close {p : Proc F} {fd : ℕ} (h : p.pc = .close fd) :
      Local p { p with pc := .returned 0, table := p.table.close fd }
  | exit {p : Proc F} (h : p.pc = .exiting) : Local p { p with pc := .exited }

inductive Event
  | proc (r : Role)
  | terminal

inductive Step : State F → Event → State F → Prop
  | single {s : State F} {r : Role} {p p' : Proc F} (h : s.proc r = some p)
      (hl : Local limit null p p') : Step s (.proc r) (s.set r p')
  -- The new pid is no id of a process that is still there.
  | fork {s : State F} {r r' : Role} {p : Proc F} {pc : PC} {n : ℕ} (h : s.proc r = some p)
      (hpc : p.pc.forked = some pc) (hr : r.next = some r')
      (hn : ∀ q p, s.proc q = some p → p.pc ≠ .exited → n ≠ p.pid ∧ n ≠ p.pgid ∧ n ≠ p.sid) :
      Step s (.proc r) ((s.set r { p with pc := .exiting }).set r' { p with pc, pid := n })
  | setsid {s : State F} {r : Role} {p : Proc F} (h : s.proc r = some p) (hpc : p.pc = .setsid) :
      Step s (.proc r)
        { s.set r { p with pc := .forkAgain, sid := p.pid, pgid := p.pid } with
          tty := Function.update s.tty p.pid none }
  -- Elsewhere a session gets or loses its terminal, which only its leader can do.
  | terminal {s : State F} {n : ℕ} {tty : Option ℕ}
      (h : ∀ c, s.proc .child = some c → n ≠ c.pid) :
      Step s .terminal { s with tty := Function.update s.tty n tty }

/-- A process with table `t`, in any session and process group, calls `daemonize`. -/
def system : LTS (State F) Event where
  initial s := ∃ p, s.proc .caller = some p ∧ p.pc = .fork ∧ p.table = t ∧
    s.proc .child = none ∧ s.proc .grandchild = none
  step := Step limit null

/-- What a process that has returned 0 is. -/
structure Daemon (s : State F) (r : Role) (p : Proc F) : Prop where
  std : ∀ n ≤ STDERR_FILENO, p.table.file n = some null
  rest : ∀ n, STDERR_FILENO < n → p.table.file n = t.file n
  not_leader : p.pid ≠ p.sid
  no_tty : s.tty p.sid = none
  alone : ∀ q p', s.proc q = some p' → q ≠ r → ∀ ret, p'.pc ≠ .returned ret

variable {limit null t} {s s' : State F} {p p' : Proc F} {q r : Role} {e : Event}

@[simp] theorem State.proc_set : (s.set r p).proc q = if q = r then some p else s.proc q := by
  simp [State.set, Function.update_apply]

@[simp] theorem State.tty_set : (s.set r p).tty = s.tty := rfl

/-! ### One process -/

/-- Has left the call through `_exit`. -/
def PC.Gone (pc : PC) : Prop := pc = .exiting ∨ pc = .exited

theorem PC.Gone.ne_returned {pc : PC} {ret : ℤ} (h : pc.Gone) : pc ≠ .returned ret := by
  rcases h with h | h <;> simp [h]

theorem PC.Gone.forked {pc : PC} (h : pc.Gone) : pc.forked = none := by
  rcases h with h | h <;> simp [h, PC.forked]

theorem Local.ids (h : Local limit null p p') : p'.pid = p.pid ∧ p'.sid = p.sid := by
  cases h <;> exact ⟨rfl, rfl⟩

theorem Local.gone (h : Local limit null p p') (hg : p.pc.Gone) : p'.pc.Gone := by
  rcases hg with hg | hg <;> cases h <;> simp_all [PC.Gone]

/-- The table at each point after the second `fork`. Number `fd` was free, below `n` the standard
descriptors have been replaced, and nothing else has changed. -/
def Progress (null : F) (t : Descriptors F) : PC → Descriptors F → Prop
  | .chdir, u | .openNull, u => u = t
  | .dup2 fd n, u => n ≤ STDERR_FILENO ∧ t.file fd = none ∧
      ∀ m, u.file m = if m = fd ∨ m < n then some null else t.file m
  | .close fd, u => STDERR_FILENO < fd ∧ t.file fd = none ∧
      ∀ m, u.file m = if m = fd ∨ m ≤ STDERR_FILENO then some null else t.file m
  | .returned ret, u => ret = 0 →
      ∀ m, u.file m = if m ≤ STDERR_FILENO then some null else t.file m
  | _, _ => False

theorem openFile_eq_some {f : F} {fd : ℕ} {u : Descriptors F}
    (h : openFile limit t (some f) = (some fd, u)) : fd = t.lowest ∧ u = t.install t.lowest f := by
  simp only [openFile, newDescriptor] at h
  split at h
  next =>
    cases h
    exact ⟨rfl, rfl⟩
  next => cases h

/-- Also when number `fd` is one of the standard ones, where one `dup2` changes nothing and no
`close` follows. -/
theorem progress_afterDup2 {fd n : ℕ} {u v : Descriptors F} (h : Progress null t (.dup2 fd n) u)
    (hd : u.dup2OrFail limit fd n = some v) : Progress null t (.afterDup2 fd n) v := by
  obtain ⟨hn, hfree, hu⟩ := h
  obtain ⟨-, rfl, -⟩ := dup2OrFail_eq_some hd
  have hfd : u.file fd = some null := by simp [hu]
  have hv : ∀ m, (u.dup2 fd n).file m =
      if m = fd ∨ m < n + 1 then some null else t.file m := by
    intro m
    have hor : (m = fd ∨ m < n + 1) ↔ m = n ∨ m = fd ∨ m < n := by omega
    rw [file_dup2 hfd, hu, if_congr hor rfl rfl]
    by_cases hm : m = n <;> simp [hm]
  unfold PC.afterDup2
  split
  next hlt => exact ⟨hlt, hfree, hv⟩
  next hlt =>
    have heq : n = STDERR_FILENO := Nat.le_antisymm hn (Nat.le_of_not_lt hlt)
    subst heq
    split
    next hfd => exact ⟨hfd, hfree, fun m => by simpa [Nat.lt_succ_iff] using hv m⟩
    next hfd =>
      rintro - m
      have hor : (m = fd ∨ m < STDERR_FILENO + 1) ↔ m ≤ STDERR_FILENO := by omega
      rw [hv m, if_congr hor rfl rfl]

theorem Local.progress (h : Local limit null p p') (hp : Progress null t p.pc p.table) :
    Progress null t p'.pc p'.table := by
  cases h with
  | forkFails | setsidFails | chdirFails | openFails | dup2Fails =>
    intro hret
    cases hret
  | chdir h =>
    rw [h] at hp
    exact hp
  | openNull h ho =>
    rw [h] at hp
    obtain rfl : p.table = t := hp
    obtain ⟨rfl, rfl⟩ := openFile_eq_some ho
    refine ⟨Nat.zero_le _, file_lowest _, fun m => ?_⟩
    simp [file_install]
  | dup2 h hd =>
    rw [h] at hp
    exact progress_afterDup2 hp hd
  | @close fd h =>
    rw [h] at hp
    obtain ⟨hfd, hfree, hu⟩ := hp
    rintro - m
    rw [file_close, hu m]
    by_cases hm : m = fd
    · subst hm
      simp [hfree, Nat.not_le.mpr hfd]
    · simp [hm]
  | exit h =>
    rw [h] at hp
    exact hp.elim

/-! ### The three processes -/

/-- The child before its `fork`. Once `setsid` has returned it leads a session without a
terminal. -/
def ChildAt (s : State F) (c : Proc F) : Prop :=
  c.pc = .setsid ∨ c.pc = .returned (-1) ∨
    c.pc = .forkAgain ∧ c.sid = c.pid ∧ s.tty c.pid = none

/-- How far the forks have got. -/
inductive Stage (null : F) (t : Descriptors F) (s : State F) : Prop
  | alone {p : Proc F} (hp : s.proc .caller = some p) (hc : s.proc .child = none)
      (hg : s.proc .grandchild = none) (hpc : p.pc = .fork ∨ p.pc = .returned (-1))
      (ht : p.table = t)
  | child {p c : Proc F} (hp : s.proc .caller = some p) (hc : s.proc .child = some c)
      (hg : s.proc .grandchild = none) (hgone : p.pc.Gone) (hat : ChildAt s c) (ht : c.table = t)
  | grandchild {p c g : Proc F} (hp : s.proc .caller = some p) (hc : s.proc .child = some c)
      (hg : s.proc .grandchild = some g) (hgone : p.pc.Gone) (hgone' : c.pc.Gone)
      (hsid : g.sid = c.pid) (hpid : g.pid ≠ c.pid) (htty : s.tty c.pid = none)
      (ht : Progress null t g.pc g.table)

/-- A process that has not left the call, with what the others do. -/
inductive Live (null : F) (t : Descriptors F) (s : State F) : Role → Proc F → Prop
  | caller {p : Proc F} (hc : s.proc .child = none) (hg : s.proc .grandchild = none)
      (hpc : p.pc = .fork ∨ p.pc = .returned (-1)) (ht : p.table = t) : Live null t s .caller p
  | child {p c : Proc F} (hp : s.proc .caller = some p) (hg : s.proc .grandchild = none)
      (hgone : p.pc.Gone) (hat : ChildAt s c) (ht : c.table = t) : Live null t s .child c
  | grandchild {p c g : Proc F} (hp : s.proc .caller = some p) (hc : s.proc .child = some c)
      (hgone : p.pc.Gone) (hgone' : c.pc.Gone) (hsid : g.sid = c.pid) (hpid : g.pid ≠ c.pid)
      (htty : s.tty c.pid = none) (ht : Progress null t g.pc g.table) :
      Live null t s .grandchild g

theorem Stage.live (h : Stage null t s) (hr : s.proc r = some p) (hne : ¬ p.pc.Gone) :
    Live null t s r p := by
  cases h with
  | alone hp hc hg hpc ht =>
    cases r with
    | caller =>
      obtain rfl := Option.some.inj (hp.symm.trans hr)
      exact .caller hc hg hpc ht
    | child => simp [hc] at hr
    | grandchild => simp [hg] at hr
  | child hp hc hg hgone hat ht =>
    cases r with
    | caller =>
      obtain rfl := Option.some.inj (hp.symm.trans hr)
      exact (hne hgone).elim
    | child =>
      obtain rfl := Option.some.inj (hc.symm.trans hr)
      exact .child hp hg hgone hat ht
    | grandchild => simp [hg] at hr
  | grandchild hp hc hg hgone hgone' hsid hpid htty ht =>
    cases r with
    | caller =>
      obtain rfl := Option.some.inj (hp.symm.trans hr)
      exact (hne hgone).elim
    | child =>
      obtain rfl := Option.some.inj (hc.symm.trans hr)
      exact (hne hgone').elim
    | grandchild =>
      obtain rfl := Option.some.inj (hg.symm.trans hr)
      exact .grandchild hp hc hgone hgone' hsid hpid htty ht

/-- A process that has left the call makes at most its `_exit`. -/
theorem stage_gone (h : Stage null t s) (hr : s.proc r = some p) (hgone : p.pc.Gone)
    (hgone' : p'.pc.Gone) (hid : p'.pid = p.pid) : Stage null t (s.set r p') := by
  cases h with
  | alone hp hc hg hpc =>
    cases r with
    | caller =>
      obtain rfl := Option.some.inj (hp.symm.trans hr)
      rcases hpc with hpc | hpc <;> simp [hpc, PC.Gone] at hgone
    | child => simp [hc] at hr
    | grandchild => simp [hg] at hr
  | child hp hc hg _ hat ht =>
    cases r with
    | caller =>
      exact .child (p := p') (by simp) (by simpa using hc) (by simpa using hg) hgone' hat ht
    | child =>
      obtain rfl := Option.some.inj (hc.symm.trans hr)
      rcases hat with hat | hat | ⟨hat, -⟩ <;> simp [hat, PC.Gone] at hgone
    | grandchild => simp [hg] at hr
  | grandchild hp hc hg hpgone hcgone hsid hpid htty ht =>
    cases r with
    | caller =>
      exact .grandchild (p := p') (by simp) (by simpa using hc) (by simpa using hg) hgone' hcgone
        hsid hpid htty ht
    | child =>
      obtain rfl := Option.some.inj (hc.symm.trans hr)
      exact .grandchild (c := p') (by simpa using hp) (by simp) (by simpa using hg) hpgone hgone'
        (hid ▸ hsid) (hid ▸ hpid) (hid ▸ htty) ht
    | grandchild =>
      obtain rfl := Option.some.inj (hg.symm.trans hr)
      rcases hgone with hgone | hgone <;> simp [hgone, Progress] at ht

theorem stage_local (h : Stage null t s) (hr : s.proc r = some p)
    (hl : Local limit null p p') : Stage null t (s.set r p') := by
  obtain ⟨hpid', hsid'⟩ := hl.ids
  by_cases hgone : p.pc.Gone
  · exact stage_gone h hr hgone (hl.gone hgone) hpid'
  · cases h.live hr hgone with
    | caller hc hg hpc ht =>
      refine .alone (p := p') (by simp) (by simpa using hc) (by simpa using hg) ?_ ?_ <;>
        cases hl <;> simp_all
    | child hp hg hgone hat ht =>
      refine .child (c := p') (by simpa using hp) (by simp) (by simpa using hg) hgone ?_ ?_ <;>
        cases hl <;> simp_all [ChildAt]
    | grandchild hp hc hgone hgone' hsid hpid htty ht =>
      exact .grandchild (g := p') (by simpa using hp) (by simpa using hc) (by simp) hgone hgone'
        (hsid' ▸ hsid) (hpid' ▸ hpid) htty (hl.progress ht)

theorem stage_fork {r' : Role} {pc : PC} {n : ℕ} (h : Stage null t s) (hr : s.proc r = some p)
    (hpc : p.pc.forked = some pc) (hnext : r.next = some r')
    (hn : ∀ q p, s.proc q = some p → p.pc ≠ .exited → n ≠ p.pid ∧ n ≠ p.pgid ∧ n ≠ p.sid) :
    Stage null t ((s.set r { p with pc := .exiting }).set r' { p with pc, pid := n }) := by
  cases h.live hr (fun hgone => by simp [hgone.forked] at hpc) with
  | caller hc hg hat ht =>
    obtain rfl : Role.child = r' := by simpa [Role.next] using hnext
    have hfork : p.pc = .fork := by
      rcases hat with hat | hat <;> simp [hat, PC.forked] at hpc ⊢
    obtain rfl : PC.setsid = pc := by simpa [hfork, PC.forked] using hpc
    exact .child (p := { p with pc := .exiting }) (c := { p with pc := .setsid, pid := n })
      (by simp) (by simp) (by simp [hg]) (.inl rfl) (.inl rfl) ht
  | @child a c hp hg hgone hat ht =>
    obtain rfl : Role.grandchild = r' := by simpa [Role.next] using hnext
    -- Only the leader of the new session gets to this `fork`.
    have hfork : p.pc = .forkAgain ∧ p.sid = p.pid ∧ s.tty p.pid = none := by
      rcases hat with hat | hat | hat
      · simp [hat, PC.forked] at hpc
      · simp [hat, PC.forked] at hpc
      · exact hat
    obtain ⟨hfork, hsid, htty⟩ := hfork
    obtain rfl : PC.chdir = pc := by simpa [hfork, PC.forked] using hpc
    exact .grandchild (p := a) (c := { p with pc := .exiting })
      (g := { p with pc := .chdir, pid := n }) (by simp [hp]) (by simp) (by simp) hgone (.inl rfl)
      hsid (hn _ _ hr (by simp [hfork])).1 htty ht
  | grandchild => simp [Role.next] at hnext

theorem stage_setsid (h : Stage null t s) (hr : s.proc r = some p) (hpc : p.pc = .setsid) :
    Stage null t { s.set r { p with pc := .forkAgain, sid := p.pid, pgid := p.pid } with
      tty := Function.update s.tty p.pid none } := by
  cases h.live hr (by simp [hpc, PC.Gone]) with
  | caller _ _ hat => rcases hat with hat | hat <;> simp [hat] at hpc
  | @child a c hp hg hgone hat ht =>
    refine .child (p := a) (c := { p with pc := .forkAgain, sid := p.pid, pgid := p.pid })
      ?_ ?_ ?_ hgone ?_ ht
    · simpa using hp
    · simp
    · simpa using hg
    · exact .inr (.inr ⟨rfl, rfl, by simp⟩)
  | grandchild _ _ _ _ _ _ _ ht => simp [hpc, Progress] at ht

theorem stage_step (h : Step limit null s e s') (hs : Stage null t s) : Stage null t s' := by
  cases h with
  | single hr hl => exact stage_local hs hr hl
  | fork hr hpc hnext hpid => exact stage_fork hs hr hpc hnext hpid
  | setsid hr hpc => exact stage_setsid hs hr hpc
  | terminal hleader =>
    cases hs with
    | alone ha hc hg hpc ht => exact .alone ha hc hg hpc ht
    | child ha hc hg hgone hat ht =>
      refine .child ha hc hg hgone ?_ ht
      rcases hat with hat | hat | ⟨hat, hsid, htty⟩
      · exact .inl hat
      · exact .inr (.inl hat)
      · refine .inr (.inr ⟨hat, hsid, ?_⟩)
        simpa [(hleader _ hc).symm] using htty
    | grandchild ha hc hg hgone hgone' hsid hpid htty ht =>
      refine .grandchild ha hc hg hgone hgone' hsid hpid ?_ ht
      simpa [(hleader _ hc).symm] using htty

theorem stage_reachable (h : (system limit null t).Reachable s) : Stage null t s := by
  apply h.invariant
  · rintro s ⟨p, hp, hpc, ht, hc, hg⟩
    exact .alone hp hc hg (.inl hpc) ht
  · intro s e s' hs hstage
    exact stage_step hs hstage

/-- Whatever the caller's table, session and process group were. -/
theorem daemon_of_returned (h : (system limit null t).Reachable s) (hp : s.proc r = some p)
    (hret : p.pc = .returned 0) : Daemon null t s r p := by
  cases (stage_reachable h).live hp (by simp [hret, PC.Gone]) with
  | caller _ _ hpc => rcases hpc with hpc | hpc <;> simp [hpc] at hret
  | child _ _ _ hat => rcases hat with hat | hat | ⟨hat, -⟩ <;> simp [hat] at hret
  | @grandchild a c g ha hc hgone hgone' hsid hpid htty ht =>
    rw [hret] at ht
    have hfile := ht rfl
    refine ⟨fun n hn => ?_, fun n hn => ?_, hsid ▸ hpid, hsid ▸ htty, fun q a' ha' hq => ?_⟩
    · rw [hfile, if_pos hn]
    · rw [hfile, if_neg (Nat.not_le.mpr hn)]
    · cases q with
      | caller =>
        obtain rfl : a = a' := by simpa [ha] using ha'
        exact fun ret => hgone.ne_returned
      | child =>
        obtain rfl : c = a' := by simpa [hc] using ha'
        exact fun ret => hgone'.ne_returned
      | grandchild => exact (hq rfl).elim

/-- A process group leader without any descriptor. -/
def bare : State Unit where
  proc r := if r = .caller then some ⟨.fork, 2, 2, 1, empty⟩ else none
  tty n := if n = 1 then some 0 else none

/-- There `/dev/null` comes on number 0. -/
theorem daemon_of_returned_bare : ∃ s p, (system 8 () empty).Reachable s ∧
    s.proc .grandchild = some p ∧ p.pc = .returned 0 ∧ Daemon () empty s .grandchild p := by
  have h0 : (system 8 () empty).Reachable bare := .of_initial ⟨_, rfl, rfl, rfl, rfl, rfl⟩
  have h1 := h0.step (.fork (r := .caller) (n := 3) rfl rfl rfl fun q p hp => by
    cases q <;> cases hp
    decide)
  have h2 := h1.step (.setsid (r := .child) rfl rfl)
  have h3 := h2.step (.fork (r := .child) (n := 4) rfl rfl rfl fun q p hp => by
    cases q <;> cases hp <;> decide)
  have h4 := h3.step (.single (r := .grandchild) rfl (.chdir rfl))
  have hopen : openFile 8 (empty : Descriptors Unit) (some ()) = (some 0, empty.install 0 ()) := by
    have hlow : (empty : Descriptors Unit).lowest = 0 := lowest_eq_zero_iff.mpr rfl
    simp [openFile, newDescriptor, hlow]
  have h5 := h4.step (.single (r := .grandchild) rfl (.openNull rfl hopen))
  have h6 := h5.step (.single (r := .grandchild) rfl (.dup2 rfl rfl))
  have h7 := h6.step (.single (r := .grandchild) rfl (.dup2 rfl rfl))
  have h8 := h7.step (.single (r := .grandchild) rfl (.dup2 rfl rfl))
  exact ⟨_, _, h8, rfl, rfl, daemon_of_returned h8 rfl rfl⟩

end SystemCalls.Daemonize

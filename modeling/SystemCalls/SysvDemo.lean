import SystemCalls.CString
import SystemCalls.Counting
import SystemCalls.Transition
import Mathlib.Algebra.Order.BigOperators.Group.Finset

/-!
# The System V message queue program

Any number of runs of 4.3.7 at once. One key names one queue for all of them, and whoever is
first to its end removes it under the others.
-/

namespace SystemCalls.SysvDemo

/-- The bytes of `msgsnd`, with the NUL. All messages have `mtype` 1. -/
def text : List UInt8 := ascii "sysv hello" ++ [0]

inductive Parent
  | msgget
  | fork
  | msgsnd
  | waitpid
  /-- At `msgctl(IPC_RMID)`, with what `main` returns after it. -/
  | remove (status : ℕ)
  | returned (status : ℕ)
  /-- Without a key or a queue. -/
  | quit

inductive Child
  | absent
  | msgrcv
  /-- Past `msgrcv` with this in `mtext`. -/
  | got (m : List UInt8)
  | failed

/-- One run of the program. -/
structure Run where
  parent : Parent
  child : Child
  qid : ℕ

/-- `current` is the queue under the key; the others are gone. -/
structure State (I : Type*) where
  current : Option ℕ
  queue : ℕ → List (List UInt8)
  next : ℕ
  run : I → Run

inductive Event (I : Type*)
  | call (i : I)
  /-- A call fails though nobody has removed the queue. -/
  | fails (i : I)

variable {I : Type*} [DecidableEq I]

def State.set (s : State I) (i : I) (r : Run) : State I :=
  { s with run := Function.update s.run i r }

/-- `cap` is `msg_qbytes`. -/
def Room (cap : ℕ) (msgs : List (List UInt8)) : Prop := text.length * (msgs.length + 1) ≤ cap

variable (cap : ℕ)

inductive Step : State I → Event I → State I → Prop
  | create {s : State I} {i : I} (h : (s.run i).parent = .msgget) (hn : s.current = none) :
      Step s (.call i) { s.set i ⟨.fork, (s.run i).child, s.next⟩ with
        current := some s.next, next := s.next + 1 }
  | attach {s : State I} {i : I} {q : ℕ} (h : (s.run i).parent = .msgget)
      (hq : s.current = some q) : Step s (.call i) (s.set i ⟨.fork, (s.run i).child, q⟩)
  | msggetFails {s : State I} {i : I} (h : (s.run i).parent = .msgget) :
      Step s (.fails i) (s.set i { s.run i with parent := .quit })
  | fork {s : State I} {i : I} (h : (s.run i).parent = .fork) :
      Step s (.call i) (s.set i { s.run i with parent := .msgsnd, child := .msgrcv })
  | forkFails {s : State I} {i : I} (h : (s.run i).parent = .fork) :
      Step s (.fails i) (s.set i { s.run i with parent := .remove 1 })
  | msgsnd {s : State I} {i : I} (h : (s.run i).parent = .msgsnd)
      (hq : s.current = some (s.run i).qid) (hroom : Room cap (s.queue (s.run i).qid)) :
      Step s (.call i) { s.set i { s.run i with parent := .waitpid } with
        queue := Function.update s.queue (s.run i).qid (s.queue (s.run i).qid ++ [text]) }
  /-- EIDRM or EINVAL. -/
  | msgsndGone {s : State I} {i : I} (h : (s.run i).parent = .msgsnd)
      (hq : s.current ≠ some (s.run i).qid) :
      Step s (.call i) (s.set i { s.run i with parent := .remove 1 })
  | msgsndFails {s : State I} {i : I} (h : (s.run i).parent = .msgsnd) :
      Step s (.fails i) (s.set i { s.run i with parent := .remove 1 })
  | waitpid {s : State I} {i : I} (h : (s.run i).parent = .waitpid)
      (hc : (s.run i).child ≠ .msgrcv) :
      Step s (.call i) (s.set i { s.run i with parent := .remove 0 })
  | waitpidFails {s : State I} {i : I} (h : (s.run i).parent = .waitpid) :
      Step s (.fails i) (s.set i { s.run i with parent := .remove 0 })
  /-- With EINVAL the queue is gone already. -/
  | remove {s : State I} {i : I} {r : ℕ} (h : (s.run i).parent = .remove r) :
      Step s (.call i) { s.set i { s.run i with parent := .returned r } with
        current := if s.current = some (s.run i).qid then none else s.current }
  | msgrcv {s : State I} {i : I} {m : List UInt8} {q : List (List UInt8)}
      (h : (s.run i).child = .msgrcv) (hq : s.current = some (s.run i).qid)
      (hm : s.queue (s.run i).qid = m :: q) :
      Step s (.call i) { s.set i { s.run i with child := .got m } with
        queue := Function.update s.queue (s.run i).qid q }
  | msgrcvGone {s : State I} {i : I} (h : (s.run i).child = .msgrcv)
      (hq : s.current ≠ some (s.run i).qid) :
      Step s (.call i) (s.set i { s.run i with child := .failed })
  | msgrcvFails {s : State I} {i : I} (h : (s.run i).child = .msgrcv) :
      Step s (.fails i) (s.set i { s.run i with child := .failed })

/-- What was left in the queue by runs that did not come to their end, if it is there at all. -/
def leftover (left : Option ℕ) (q : ℕ) : ℕ := if q = 0 then left.getD 0 else 0

def start (left : Option ℕ) : State I where
  current := left.map fun _ => 0
  queue q := List.replicate (leftover left q) text
  next := 1
  run _ := ⟨.msgget, .absent, 0⟩

def system (I : Type*) [DecidableEq I] (cap : ℕ) (left : Option ℕ) : LTS (State I) (Event I) where
  initial s := s = start left
  step := Step cap

variable {cap} {left : Option ℕ} {s t : State I} {e : Event I} {i j : I} {q : ℕ} {r : Run}

/-- The parent is past `msgsnd`, without an error. -/
def Parent.Sent : Parent → Bool
  | waitpid => true
  | remove status | returned status => status = 0
  | msgget | fork | msgsnd | quit => false

/-- How many messages the run has put into `q`. -/
def Run.sent (q : ℕ) (r : Run) : ℕ := if r.parent.Sent = true ∧ r.qid = q then 1 else 0

/-- How many it has taken out. -/
def Run.received (q : ℕ) (r : Run) : ℕ :=
  match r.child with
  | .got _ => if r.qid = q then 1 else 0
  | .absent | .msgrcv | .failed => 0

/-- What a run knows of itself. -/
structure Run.Sound (next : ℕ) (r : Run) : Prop where
  qid : r.qid < next
  got : ∀ m, r.child = .got m → m = text
  begun : r.parent = .msgget ∨ r.parent = .fork → r.child = .absent
  born : r.parent = .msgsnd ∨ r.parent = .waitpid → r.child ≠ .absent

/-- No identifier comes twice, and nothing but the text is in the queues. -/
structure Sound (s : State I) : Prop where
  run : ∀ i, (s.run i).Sound s.next
  next : 0 < s.next
  current : ∀ q, s.current = some q → q < s.next
  fresh : ∀ q, s.next ≤ q → s.queue q = []
  texts : ∀ q, ∀ m ∈ s.queue q, m = text

theorem forall_set {R : I → Run → Prop} (h : R i r) (hs : ∀ j, j ≠ i → R j (s.run j)) (j : I) :
    R j ((s.set i r).run j) := by
  by_cases hji : j = i
  · subst hji
    simpa [State.set] using h
  · simpa [State.set, hji] using hs j hji

theorem Sound.set (hs : Sound s) (hr : r.Sound s.next) : Sound (s.set i r) :=
  ⟨forall_set (R := fun _ r => r.Sound s.next) hr fun j _ => hs.run j, hs.next, hs.current,
    hs.fresh, hs.texts⟩

omit [DecidableEq I] in
theorem Sound.setQueue {msgs : List (List UInt8)} (hs : Sound s) (hq : q < s.next)
    (hm : ∀ m ∈ msgs, m = text) : Sound { s with queue := Function.update s.queue q msgs } where
  run := hs.run
  next := hs.next
  current := hs.current
  fresh p hp := by
    have hne : p ≠ q := by
      have hp : s.next ≤ p := hp
      omega
    simpa [hne] using hs.fresh p hp
  texts p := by
    by_cases hpq : p = q
    · subst hpq
      simpa using hm
    · simpa [hpq] using hs.texts p

theorem sound_create (hs : Sound s) (h : (s.run i).parent = .msgget) :
    Sound { s.set i ⟨.fork, (s.run i).child, s.next⟩ with
      current := some s.next, next := s.next + 1 } where
  run := by
    apply forall_set (R := fun _ r => r.Sound (s.next + 1))
    · have hi := hs.run i
      exact ⟨Nat.lt_succ_self _, hi.got, fun _ => hi.begun (.inl h), by simp⟩
    · intro j _
      have hj := hs.run j
      exact ⟨hj.qid.trans (Nat.lt_succ_self _), hj.got, hj.begun, hj.born⟩
  next := Nat.succ_pos _
  current := by
    rintro _ ⟨⟩
    exact Nat.lt_succ_self _
  fresh p hp := hs.fresh p ((Nat.le_succ _).trans hp)
  texts := hs.texts

theorem sound_step (h : Step cap s e t) (hs : Sound s) : Sound t := by
  cases h with
  | create h => exact sound_create hs h
  | @attach i q h hq =>
    have hi := hs.run i
    exact hs.set ⟨hs.current q hq, hi.got, fun _ => hi.begun (.inl h), by simp⟩
  | @msggetFails i h => exact hs.set ⟨(hs.run i).qid, (hs.run i).got, by simp, by simp⟩
  | @fork i h => exact hs.set ⟨(hs.run i).qid, by simp, by simp, by simp⟩
  | @forkFails i h | @msgsndGone i h | @msgsndFails i h | @waitpid i h | @waitpidFails i h =>
    exact hs.set ⟨(hs.run i).qid, (hs.run i).got, by simp, by simp⟩
  | @msgsnd i h hq hroom =>
    have hi := hs.run i
    have hmsgs := hs.texts (s.run i).qid
    have hset : Sound (s.set i { s.run i with parent := .waitpid }) :=
      hs.set ⟨hi.qid, hi.got, by simp, fun _ => hi.born (.inl h)⟩
    refine hset.setQueue hi.qid fun m hm => ?_
    rcases List.mem_append.mp hm with hm | hm
    · exact hmsgs m hm
    · simpa using hm
  | @remove i r h =>
    have hset : Sound (s.set i { s.run i with parent := .returned r }) :=
      hs.set ⟨(hs.run i).qid, (hs.run i).got, by simp, by simp⟩
    refine ⟨hset.run, hset.next, fun q hq => ?_, hset.fresh, hset.texts⟩
    split at hq
    · cases hq
    · exact hs.current q hq
  | @msgrcv i m q h hq hm =>
    have hi := hs.run i
    have hmsgs := hs.texts (s.run i).qid
    rw [hm] at hmsgs
    have hset : Sound (s.set i { s.run i with child := .got m }) := by
      refine hs.set ⟨hi.qid, ?_, fun hp => ?_, by simp⟩
      · rintro _ ⟨⟩
        exact hmsgs m List.mem_cons_self
      · have hc := hi.begun hp
        simp [h] at hc
    exact hset.setQueue hi.qid fun m' hm' => hmsgs m' (List.mem_cons_of_mem _ hm')
  | @msgrcvGone i h | @msgrcvFails i h =>
    have hi := hs.run i
    refine hs.set ⟨hi.qid, by simp, fun hp => ?_, by simp⟩
    have hc := hi.begun hp
    simp [h] at hc

theorem sound_reachable (h : (system I cap left).Reachable s) : Sound s := by
  apply h.invariant
  · rintro _ rfl
    refine ⟨fun _ => ⟨Nat.one_pos, nofun, fun _ => rfl, by simp [start]⟩, Nat.one_pos, ?_, ?_, ?_⟩
    · intro q hq
      cases left with
      | none => cases hq
      | some n =>
        cases hq
        exact Nat.one_pos
    · intro q hq
      have hne : q ≠ 0 := by
        have hq : 1 ≤ q := hq
        omega
      simp [start, leftover, hne]
    · intro q m hm
      exact List.eq_of_mem_replicate hm
  · intro s e t hst hs
    exact sound_step hst hs

/-- In all runs, failures too: what a child gets is the text, from whichever run it comes. -/
theorem got_text (h : (system I cap left).Reachable s) {m : List UInt8}
    (hc : (s.run i).child = .got m) : m = text :=
  ((sound_reachable h).run i).got m hc

/-! ### No queue is left behind -/

/-- No call fails but for a queue that another run has removed. -/
def Smooth (_ : State I) (e : Event I) : Prop := ∃ i, e = .call i

/-- With a queue still to be removed. -/
def Parent.Holds : Parent → Prop
  | fork | msgsnd | waitpid | remove _ => True
  | msgget | returned _ | quit => False

/-- Whoever has removed its queue leaves none of that name, and whatever queue there is has
somebody who will remove it, unless nobody has begun. -/
structure Kept (s : State I) : Prop where
  gone : ∀ i r, (s.run i).parent = .returned r → s.current ≠ some (s.run i).qid
  failed : ∀ i, (s.run i).child = .failed → s.current ≠ some (s.run i).qid
  owner : ∀ q, s.current = some q →
    (∃ i, (s.run i).parent.Holds ∧ (s.run i).qid = q) ∨ ∀ i, (s.run i).parent = .msgget
  quit : ∀ i, (s.run i).parent ≠ .quit
  forked : ∀ i, (s.run i).child = .absent →
    (s.run i).parent = .msgget ∨ (s.run i).parent = .fork

/-- A run goes on with its queue. -/
theorem Kept.set (hs : Kept s) (hget : (s.run i).parent ≠ .msgget)
    (hqid : r.qid = (s.run i).qid) (hholds : r.parent.Holds ↔ (s.run i).parent.Holds)
    (hret : ∀ k, r.parent = .returned k → (s.run i).parent = .returned k)
    (hfail : r.child = .failed → s.current ≠ some (s.run i).qid) (hquit : r.parent ≠ .quit)
    (hforked : r.child ≠ .absent) : Kept (s.set i r) where
  gone := forall_set (R := fun _ r => ∀ k, r.parent = .returned k → s.current ≠ some r.qid)
    (fun k hk => hqid ▸ hs.gone i k (hret k hk)) fun j _ => hs.gone j
  failed := forall_set (R := fun _ r => r.child = .failed → s.current ≠ some r.qid)
    (fun hf => hqid ▸ hfail hf) fun j _ => hs.failed j
  owner q hq := by
    rcases hs.owner q hq with ⟨j, hj, hjq⟩ | hall
    · refine .inl ⟨j, ?_⟩
      by_cases hji : j = i
      · subst hji
        simpa [State.set, hholds, hqid] using ⟨hj, hjq⟩
      · simpa [State.set, hji] using ⟨hj, hjq⟩
    · exact (hget (hall i)).elim
  quit := forall_set (R := fun _ r => r.parent ≠ .quit) hquit fun j _ => hs.quit j
  forked := forall_set (R := fun _ r => r.child = .absent → r.parent = .msgget ∨ r.parent = .fork)
    (fun hc => (hforked hc).elim) fun j _ => hs.forked j

theorem kept_attach (hs : Kept s) (hsound : Sound s) (h : (s.run i).parent = .msgget) {q : ℕ}
    {current : Option ℕ} {next : ℕ} (hq : current = some q)
    (hold : s.current = current ∨ s.current = none ∧ q = s.next) :
    Kept { s.set i ⟨.fork, (s.run i).child, q⟩ with current, next } where
  gone := by
    refine forall_set (R := fun _ r => ∀ k, r.parent = .returned k → current ≠ some r.qid) nofun ?_
    intro j _ k hk
    rcases hold with rfl | ⟨_, hnext⟩
    · exact hs.gone j k hk
    · rintro hj
      have hlt := (hsound.run j).qid
      obtain rfl := Option.some.inj (hq.symm.trans hj)
      omega
  failed := by
    refine forall_set (R := fun _ r => r.child = .failed → current ≠ some r.qid) ?_ ?_
    · intro hf
      have hc := (hsound.run i).begun (.inl h)
      exact absurd (hc.symm.trans hf) nofun
    · intro j _ hf
      rcases hold with rfl | ⟨_, hnext⟩
      · exact hs.failed j hf
      · rintro hj
        have hlt := (hsound.run j).qid
        obtain rfl := Option.some.inj (hq.symm.trans hj)
        omega
  owner p hp := by
    obtain rfl := Option.some.inj (hq.symm.trans hp)
    exact .inl ⟨i, by simp [State.set, Parent.Holds]⟩
  quit := forall_set (R := fun _ r => r.parent ≠ .quit) nofun fun j _ => hs.quit j
  forked := forall_set (R := fun _ r => r.child = .absent → r.parent = .msgget ∨ r.parent = .fork)
    (fun _ => .inr rfl) fun j _ => hs.forked j

theorem kept_remove {k : ℕ} (hs : Kept s) (h : (s.run i).parent = .remove k) :
    Kept { s.set i { s.run i with parent := .returned k } with
      current := if s.current = some (s.run i).qid then none else s.current } := by
  have hnot {q : ℕ} (hq : s.current ≠ some q) :
      (if s.current = some (s.run i).qid then none else s.current) ≠ some q := by
    split
    · nofun
    · exact hq
  have hown : (if s.current = some (s.run i).qid then none else s.current) ≠
      some (s.run i).qid := by
    split
    · nofun
    · assumption
  refine ⟨?_, ?_, ?_, ?_, ?_⟩
  · exact forall_set (R := fun _ r => ∀ k, r.parent = .returned k → _ ≠ some r.qid)
      (fun _ _ => hown) fun j _ k hk => hnot (hs.gone j k hk)
  · exact forall_set (R := fun _ r => r.child = .failed → _ ≠ some r.qid)
      (fun _ => hown) fun j _ hf => hnot (hs.failed j hf)
  · intro q hq
    have hcurrent : s.current = some q := by
      by_contra hne
      exact hnot hne hq
    rcases hs.owner q hcurrent with ⟨j, hj, hjq⟩ | hall
    · have hji : j ≠ i := by
        rintro rfl
        exact hown (hjq ▸ hq)
      exact .inl ⟨j, by simpa [State.set, hji] using ⟨hj, hjq⟩⟩
    · have hi := hall i
      rw [h] at hi
      cases hi
  · exact forall_set (R := fun _ r => r.parent ≠ .quit) nofun fun j _ => hs.quit j
  · refine forall_set (R := fun _ r => r.child = .absent → r.parent = .msgget ∨ r.parent = .fork)
      (fun hc => ?_) fun j _ => hs.forked j
    have hp := hs.forked i hc
    simp [h] at hp

theorem kept_step (h : Step cap s e t) (he : Smooth s e) (hsound : Sound s) (hs : Kept s) :
    Kept t := by
  have hchild {i : I} (h : (s.run i).child = .msgrcv) : (s.run i).parent ≠ .msgget := by
    intro hp
    have hc := (hsound.run i).begun (.inl hp)
    simp [h] at hc
  cases h with
  | create h hn => exact kept_attach hs hsound h rfl (.inr ⟨hn, rfl⟩)
  | @attach i q h hq => exact kept_attach hs hsound h hq (.inl rfl)
  | fork h => exact hs.set (by simp [h]) rfl (by simp [h, Parent.Holds]) nofun nofun nofun nofun
  | @waitpid i h =>
    exact hs.set (by simp [h]) rfl (by simp [h, Parent.Holds]) nofun (hs.failed i) nofun
      ((hsound.run i).born (.inr h))
  | @msgsndGone i h =>
    exact hs.set (by simp [h]) rfl (by simp [h, Parent.Holds]) nofun (hs.failed i) nofun
      ((hsound.run i).born (.inl h))
  | @msgsnd i h hq hroom =>
    have hset := hs.set (r := { s.run i with parent := .waitpid }) (i := i) (by simp [h]) rfl
      (by simp [h, Parent.Holds]) nofun (hs.failed i) nofun ((hsound.run i).born (.inl h))
    exact ⟨hset.gone, hset.failed, hset.owner, hset.quit, hset.forked⟩
  | remove h => exact kept_remove hs h
  | @msgrcv i m q h hq hm =>
    have hset := hs.set (r := { s.run i with child := .got m }) (i := i) (hchild h) rfl Iff.rfl
      (fun _ hk => hk) nofun (hs.quit i) nofun
    exact ⟨hset.gone, hset.failed, hset.owner, hset.quit, hset.forked⟩
  | @msgrcvGone i h hq =>
    exact hs.set (hchild h) rfl Iff.rfl (fun _ hk => hk) (fun _ => hq) (hs.quit i) nofun
  | msggetFails | forkFails | msgsndFails | waitpidFails | msgrcvFails => simp [Smooth] at he

theorem kept_reachable (h : ((system I cap left).restrict Smooth).Reachable s) : Kept s := by
  apply h.invariant_of_reachable
  · rintro _ rfl
    exact ⟨nofun, nofun, fun _ _ => .inr fun _ => rfl, nofun, fun _ _ => .inl rfl⟩
  · rintro s e t hr ⟨he, hst⟩ hs
    exact kept_step hst he (sound_reachable hr.of_restrict) hs

/-! ### Every run ends -/

variable [Fintype I]

def sentTo (s : State I) (q : ℕ) : ℕ := ∑ j, (s.run j).sent q

def receivedFrom (s : State I) (q : ℕ) : ℕ := ∑ j, (s.run j).received q

/-- Each message is in its queue or has been received. -/
def Counted (left : Option ℕ) (s : State I) : Prop :=
  ∀ q, sentTo s q + leftover left q = receivedFrom s q + (s.queue q).length

/-- A run moves, and the queues change by what it sends and receives. -/
theorem Counted.move (hs : Counted left s) (queue : ℕ → List (List UInt8))
    (h : ∀ q, r.sent q + (s.run i).received q + (s.queue q).length =
      (s.run i).sent q + r.received q + (queue q).length) :
    Counted left { s.set i r with queue } := by
  intro q
  have hold := hs q
  have hi := h q
  have hsent := sum_update (Run.sent q) s.run i r
  have hreceived := sum_update (Run.received q) s.run i r
  change ∑ j, Run.sent q (Function.update s.run i r j) + _ =
    ∑ j, Run.received q (Function.update s.run i r j) + (queue q).length
  unfold sentTo receivedFrom at hold
  omega

/-- A run neither sends nor receives. -/
theorem Counted.set (hs : Counted left s) (hsent : ∀ q, r.sent q = (s.run i).sent q)
    (hreceived : ∀ q, r.received q = (s.run i).received q) : Counted left (s.set i r) :=
  hs.move s.queue fun q => by rw [hsent, hreceived]

theorem received_eq_zero (h : ∀ m, r.child ≠ .got m) (q : ℕ) : r.received q = 0 := by
  cases hc : r.child with
  | got m => exact (h m hc).elim
  | absent | msgrcv | failed => simp [Run.received, hc]

theorem sent_eq_zero (h : r.parent.Sent = false) (q : ℕ) : r.sent q = 0 := by
  simp [Run.sent, h]

theorem counted_step (h : Step cap s e t) (hsound : Sound s) (hs : Counted left s) :
    Counted left t := by
  cases h with
  | @create i h | @attach i _ h =>
    have hc := (hsound.run i).begun (.inl h)
    refine hs.set (fun q => ?_) fun q => ?_
    · rw [sent_eq_zero rfl, sent_eq_zero (by rw [h]; rfl)]
    · rw [received_eq_zero (by simp [hc]), received_eq_zero (by simp [hc])]
  | @fork i h =>
    have hc := (hsound.run i).begun (.inr h)
    refine hs.set (fun q => ?_) fun q => ?_
    · rw [sent_eq_zero rfl, sent_eq_zero (by rw [h]; rfl)]
    · rw [received_eq_zero (by simp), received_eq_zero (by simp [hc])]
  | msggetFails h | forkFails h | msgsndGone h | msgsndFails h | waitpid h | waitpidFails h
  | remove h =>
    exact hs.set (fun q => by simp [Run.sent, h, Parent.Sent]) fun q => rfl
  | @msgsnd i h =>
    refine hs.move _ fun q => ?_
    change Run.sent q _ + (s.run i).received q + _ = _ + (s.run i).received q + _
    by_cases hq : q = (s.run i).qid
    · subst hq
      simp [Run.sent, h, Parent.Sent]
      omega
    · simp [Run.sent, Ne.symm hq, hq]
  | @msgrcv i m q h _ hm =>
    refine hs.move _ fun q => ?_
    change (s.run i).sent q + _ + _ = (s.run i).sent q + _ + _
    by_cases hq : q = (s.run i).qid
    · subst hq
      simp [Run.received, h, hm]
      omega
    · simp [Run.received, h, Ne.symm hq, hq]
  | msgrcvGone h | msgrcvFails h =>
    refine hs.set (fun q => rfl) fun q => ?_
    rw [received_eq_zero (by simp), received_eq_zero (by simp [h])]

theorem counted_reachable (h : (system I cap left).Reachable s) : Counted left s := by
  apply h.invariant_of_reachable
  · rintro _ rfl q
    simp [sentTo, receivedFrom, start, Run.sent, Run.received, Parent.Sent]
  · intro s e t hr hst hs
    exact counted_step hst (sound_reachable hr) hs

/-! The calls that are still to be made, two for a `fork`. -/

def Parent.rest : Parent → ℕ
  | msgget => 7
  | fork => 6
  | msgsnd => 4
  | waitpid => 3
  | remove _ => 2
  | returned _ | quit => 0

def Child.rest : Child → ℕ
  | msgrcv => 1
  | absent | got _ | failed => 0

def Run.rest (r : Run) : ℕ := r.parent.rest + r.child.rest

def measure (s : State I) : ℕ := ∑ i, (s.run i).rest

theorem measure_set (h : r.rest < (s.run i).rest) :
    ∑ j, ((s.set i r).run j).rest < measure s := by
  have hsum := sum_update Run.rest s.run i r
  change ∑ j, (Function.update s.run i r j).rest < ∑ j, (s.run j).rest
  omega

theorem measure_lt (h : Step cap s e t) (hs : Sound s) : measure t < measure s := by
  cases h with
  | @create i h | @attach i _ h => exact measure_set (by simp [Run.rest, h, Parent.rest])
  | @fork i h =>
    have hc := (hs.run i).begun (.inr h)
    exact measure_set (by simp [Run.rest, h, hc, Parent.rest, Child.rest])
  | msggetFails h | forkFails h | msgsnd h | msgsndGone h | msgsndFails h | waitpid h
  | waitpidFails h | remove h => exact measure_set (by simp [Run.rest, h, Parent.rest])
  | msgrcv h | msgrcvGone h | msgrcvFails h =>
    exact measure_set (by simp [Run.rest, h, Child.rest])

/-- What a run has come to: its child has the text, or its queue was removed before. -/
def Over (r : Run) : Prop :=
  (∃ status, r.parent = .returned status) ∧ (r.child = .got text ∨ r.child = .failed)

section Terminal

variable (hr : ((system I cap left).restrict Smooth).Reachable s)
  (hterm : ((system I cap left).restrict Smooth).Terminal s)

include hterm in
omit [Fintype I] in
/-- A child that waits does so at an empty queue. -/
theorem empty_of_msgrcv (h : (s.run i).child = .msgrcv) :
    s.current = some (s.run i).qid ∧ s.queue (s.run i).qid = [] := by
  by_cases hq : s.current = some (s.run i).qid
  · refine ⟨hq, ?_⟩
    cases hm : s.queue (s.run i).qid with
    | nil => rfl
    | cons m msgs => exact (hterm _ _ ⟨⟨i, rfl⟩, .msgrcv h hq hm⟩).elim
  · exact (hterm _ _ ⟨⟨i, rfl⟩, .msgrcvGone h hq⟩).elim

include hr hterm in
omit [Fintype I] in
/-- A parent that has not returned waits for room or for its child. -/
theorem parent_cases (i : I) : (∃ status, (s.run i).parent = .returned status) ∨
    ((s.run i).parent = .msgsnd ∧ s.current = some (s.run i).qid ∧
      ¬ Room cap (s.queue (s.run i).qid)) ∨
    ((s.run i).parent = .waitpid ∧ (s.run i).child = .msgrcv) := by
  have hno {t : State I} (h : Step cap s (.call i) t) : False := hterm _ _ ⟨⟨i, rfl⟩, h⟩
  cases hp : (s.run i).parent with
  | msgget =>
    cases hc : s.current with
    | none => exact (hno (.create hp hc)).elim
    | some q => exact (hno (.attach hp hc)).elim
  | fork => exact (hno (.fork hp)).elim
  | msgsnd =>
    by_cases hq : s.current = some (s.run i).qid
    · exact .inr (.inl ⟨rfl, hq, fun hroom => hno (.msgsnd hp hq hroom)⟩)
    · exact (hno (.msgsndGone hp hq)).elim
  | waitpid =>
    by_cases hc : (s.run i).child = .msgrcv
    · exact .inr (.inr ⟨rfl, hc⟩)
    · exact (hno (.waitpid hp hc)).elim
  | remove r => exact (hno (.remove hp)).elim
  | returned r => exact .inl ⟨r, rfl⟩
  | quit => exact ((kept_reachable hr).quit i hp).elim

include hr hterm in
/-- If a child waited, the message of its parent would be in the queue. -/
theorem no_msgrcv (hcap : text.length ≤ cap) (i : I) : (s.run i).child ≠ .msgrcv := by
  intro hi
  obtain ⟨hq, hnil⟩ := empty_of_msgrcv hterm hi
  have hkept := kept_reachable hr
  have hroom : Room cap (s.queue (s.run i).qid) := by
    rw [hnil]
    simpa [Room] using hcap
  have hcount := counted_reachable hr.of_restrict (s.run i).qid
  rw [hnil, List.length_nil, Nat.add_zero] at hcount
  have hreceived : receivedFrom s (s.run i).qid = 0 := by
    refine Finset.sum_eq_zero fun j _ => ?_
    by_cases hj : (s.run j).qid = (s.run i).qid
    · apply received_eq_zero
      intro m hm
      rcases parent_cases hr hterm j with ⟨k, hk⟩ | ⟨-, -, hfull⟩ | ⟨-, hc⟩
      · exact hkept.gone j k hk (hj ▸ hq)
      · exact hfull (hj ▸ hroom)
      · simp [hm] at hc
    · cases hc : (s.run j).child <;> simp [Run.received, hc, hj]
  have hsent : (s.run i).sent (s.run i).qid ≤ sentTo s (s.run i).qid :=
    Finset.single_le_sum (f := fun j => (s.run j).sent (s.run i).qid) (fun _ _ => Nat.zero_le _)
      (Finset.mem_univ i)
  have hone : (s.run i).sent (s.run i).qid = 1 := by
    rcases parent_cases hr hterm i with ⟨k, hk⟩ | ⟨-, -, hfull⟩ | ⟨hp, -⟩
    · exact (hkept.gone i k hk hq).elim
    · exact (hfull hroom).elim
    · simp [Run.sent, hp, Parent.Sent]
  omega

include hr hterm in
/-- If a parent waited for room, its child would have made some. -/
theorem no_msgsnd (hcap : text.length ≤ cap) (hleft : text.length * left.getD 0 ≤ cap) (i : I) :
    (s.run i).parent ≠ .msgsnd := by
  intro hi
  have hkept := kept_reachable hr
  have hno := no_msgrcv hr hterm hcap
  obtain ⟨hq, hfull⟩ : s.current = some (s.run i).qid ∧
      ¬ Room cap (s.queue (s.run i).qid) := by
    rcases parent_cases hr hterm i with ⟨k, hk⟩ | ⟨-, hq, hfull⟩ | ⟨hp, -⟩
    · simp [hi] at hk
    · exact ⟨hq, hfull⟩
    · simp [hi] at hp
  have hcount := counted_reachable hr.of_restrict (s.run i).qid
  have hsent : sentTo s (s.run i).qid = 0 := by
    refine Finset.sum_eq_zero fun j _ => ?_
    by_cases hj : (s.run j).qid = (s.run i).qid
    · rcases parent_cases hr hterm j with ⟨k, hk⟩ | ⟨hp, -⟩ | ⟨-, hc⟩
      · exact (hkept.gone j k hk (hj ▸ hq)).elim
      · exact sent_eq_zero (by rw [hp]; rfl) _
      · exact (hno j hc).elim
    · simp [Run.sent, hj]
  have hreceived : (s.run i).received (s.run i).qid ≤ receivedFrom s (s.run i).qid :=
    Finset.single_le_sum (f := fun j => (s.run j).received (s.run i).qid)
      (fun _ _ => Nat.zero_le _) (Finset.mem_univ i)
  have hone : (s.run i).received (s.run i).qid = 1 := by
    cases hc : (s.run i).child with
    | absent => exact (((sound_reachable hr.of_restrict).run i).born (.inl hi) hc).elim
    | msgrcv => exact (hno i hc).elim
    | failed => exact (hkept.failed i hc hq).elim
    | got m => simp [Run.received, hc]
  have hle : leftover left (s.run i).qid ≤ left.getD 0 := by
    unfold leftover
    split <;> omega
  have hlen : (s.queue (s.run i).qid).length + 1 ≤ left.getD 0 := by omega
  exact hfull ((Nat.mul_le_mul_left _ hlen).trans hleft)

end Terminal

/-- However many runs there are and however their calls fall between each other, all of them come
to their end, and no queue is left behind, not even one that was there before. -/
theorem all_runs_end_without_queue (first : I) (hcap : text.length ≤ cap)
    (hleft : text.length * left.getD 0 ≤ cap) :
    ((system I cap left).restrict Smooth).Ends fun s => s.current = none ∧ ∀ i, Over (s.run i) := by
  refine .of_measure (μ := measure) (n := measure (start left : State I)) ?_ ?_ ?_
  · rintro _ rfl
    exact le_refl _
  · rintro s e t hr ⟨_, hst⟩
    exact measure_lt hst (sound_reachable hr.of_restrict)
  · intro s hr hterm
    have hkept := kept_reachable hr
    have hno := no_msgrcv hr hterm hcap
    have hreturned : ∀ i, ∃ k, (s.run i).parent = .returned k := by
      intro i
      rcases parent_cases hr hterm i with hret | ⟨hp, -⟩ | ⟨-, hc⟩
      · exact hret
      · exact (no_msgsnd hr hterm hcap hleft i hp).elim
      · exact (hno i hc).elim
    refine ⟨?_, fun i => ⟨hreturned i, ?_⟩⟩
    · by_contra hne
      obtain ⟨q, hq⟩ := Option.ne_none_iff_exists'.mp hne
      rcases hkept.owner q hq with ⟨i, hi, _⟩ | hall
      · obtain ⟨k, hk⟩ := hreturned i
        rw [hk] at hi
        exact hi
      · obtain ⟨k, hk⟩ := hreturned first
        exact absurd ((hall first).symm.trans hk) nofun
    · obtain ⟨k, hk⟩ := hreturned i
      cases hc : (s.run i).child with
      | absent =>
        have hp := hkept.forked i hc
        simp [hk] at hp
      | msgrcv => exact (hno i hc).elim
      | got m => exact .inl (by rw [got_text hr.of_restrict hc])
      | failed => exact .inr rfl

/-- Three runs, and two messages left over. -/
theorem all_runs_end_without_queue_three :
    ((system (Fin 3) 16384 (some 2)).restrict Smooth).Ends fun s =>
      s.current = none ∧ ∀ i, Over (s.run i) :=
  all_runs_end_without_queue 0 (by decide) (by decide)

end SystemCalls.SysvDemo

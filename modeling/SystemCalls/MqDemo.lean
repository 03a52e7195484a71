import Mathlib.Algebra.BigOperators.Group.Finset.Basic
import Mathlib.Algebra.Order.BigOperators.Group.Finset
import SystemCalls.CString
import SystemCalls.Transition

/-!
# The POSIX message queue program

Any number of runs of 4.4.6 at once. They share the name of the queue, and whatever was left
under that name by an earlier run, so the calls of one run come between those of another.
-/

namespace SystemCalls.MqDemo

/-- The bytes of `mq_send`, with the NUL. -/
def text : List UInt8 := ascii "posix mq hello" ++ [0]

/-- `mq_maxmsg` -/
abbrev maxmsg : ℕ := 10

/-- `mq_msgsize`, and `sizeof buf`. -/
abbrev msgsize : ℕ := 256

/-- The parent before each of its calls. -/
inductive Parent
  | unlink
  | openQueue
  | fork
  | send
  | wait
  /-- Before the last `mq_close` and `mq_unlink`. -/
  | last
  | finished
  /-- After a failed `mq_open` or `fork`. -/
  | quit
  | sendFailed
  deriving DecidableEq

inductive Child
  | absent
  | receive
  /-- Past `mq_receive` with these bytes in `buf`. -/
  | received (bytes : List UInt8)
  | failed
  deriving DecidableEq

/-- Past `mq_send`. -/
def Parent.Sent : Parent → Bool
  | wait | last | finished => true
  | unlink | openQueue | fork | send | quit | sendFailed => false

def Child.Received : Child → Bool
  | received _ => true
  | absent | receive | failed => false

/-- `buf[n] = '\0'` is inside the array. -/
def Child.Inside : Child → Prop
  | received bytes => bytes.length < msgsize
  | absent | receive | failed => True

/-- `name` is the queue under MQ_NAME, and `mq` the variable of each run. -/
structure State (I : Type*) where
  name : Option ℕ
  queue : ℕ → List (List UInt8)
  next : ℕ
  mq : I → ℕ
  parent : I → Parent
  child : I → Child

inductive Event (I : Type*)
  | parent (i : I)
  | child (i : I)
  /-- The first `mq_unlink`, whose answer is not looked at. -/
  | unlinkFails (i : I)
  | openFails (i : I)
  | forkFails (i : I)
  | sendFails (i : I)
  | receiveFails (i : I)

variable {I : Type*}

namespace State

variable [DecidableEq I]

def setParent (s : State I) (i : I) (p : Parent) : State I :=
  { s with parent := Function.update s.parent i p }

def setChild (s : State I) (i : I) (c : Child) : State I :=
  { s with child := Function.update s.child i c }

def setMq (s : State I) (i : I) (q : ℕ) : State I :=
  { s with mq := Function.update s.mq i q }

def setQueue (s : State I) (q : ℕ) (msgs : List (List UInt8)) : State I :=
  { s with queue := Function.update s.queue q msgs }

/-- `mq_unlink(MQ_NAME)`, which may fail: whoever has the queue open keeps it. -/
def unlink (s : State I) (ok : Bool) : State I := { s with name := if ok then none else s.name }

end State

inductive Step [DecidableEq I] : State I → Event I → State I → Prop
  | unlink {s : State I} {i : I} (h : s.parent i = .unlink) :
      Step s (.parent i) ((s.unlink true).setParent i .openQueue)
  | unlinkFails {s : State I} {i : I} (h : s.parent i = .unlink) :
      Step s (.unlinkFails i) ((s.unlink false).setParent i .openQueue)
  | openNew {s : State I} {i : I} (h : s.parent i = .openQueue) (hn : s.name = none) :
      Step s (.parent i)
        ({ s with name := some s.next, next := s.next + 1 }.setQueue s.next [] |>.setMq i s.next
          |>.setParent i .fork)
  | openOld {s : State I} {i : I} {q : ℕ} (h : s.parent i = .openQueue) (hn : s.name = some q) :
      Step s (.parent i) ((s.setMq i q).setParent i .fork)
  | openFails {s : State I} {i : I} (h : s.parent i = .openQueue) :
      Step s (.openFails i) (s.setParent i .quit)
  | fork {s : State I} {i : I} (h : s.parent i = .fork) :
      Step s (.parent i) ((s.setParent i .send).setChild i .receive)
  | forkFails {s : State I} {i : I} {ok : Bool} (h : s.parent i = .fork) :
      Step s (.forkFails i) ((s.unlink ok).setParent i .quit)
  | send {s : State I} {i : I} (h : s.parent i = .send)
      (hroom : (s.queue (s.mq i)).length < maxmsg) :
      Step s (.parent i)
        ((s.setQueue (s.mq i) (s.queue (s.mq i) ++ [text])).setParent i .wait)
  | sendFails {s : State I} {i : I} {ok : Bool} (h : s.parent i = .send) :
      Step s (.sendFails i) ((s.unlink ok).setParent i .sendFailed)
  | wait {s : State I} {i : I} (h : s.parent i = .wait) (hc : s.child i ≠ .receive) :
      Step s (.parent i) (s.setParent i .last)
  | last {s : State I} {i : I} {ok : Bool} (h : s.parent i = .last) :
      Step s (.parent i) ((s.unlink ok).setParent i .finished)
  | receive {s : State I} {i : I} {m : List UInt8} {rest : List (List UInt8)}
      (h : s.child i = .receive) (hq : s.queue (s.mq i) = m :: rest) :
      Step s (.child i) ((s.setQueue (s.mq i) rest).setChild i (.received m))
  | receiveFails {s : State I} {i : I} (h : s.child i = .receive) :
      Step s (.receiveFails i) (s.setChild i .failed)

/-- `stale` are the queues there were before, one of them perhaps under the name. -/
structure Stale where
  name : Option ℕ
  queue : ℕ → List (List UInt8)
  next : ℕ
  name_lt : ∀ q, name = some q → q < next
  queue_nil : ∀ q, next ≤ q → queue q = []

def start (stale : Stale) : State I :=
  ⟨stale.name, stale.queue, stale.next, fun _ => 0, fun _ => .unlink, fun _ => .absent⟩

def system (I : Type*) [DecidableEq I] (stale : Stale) : LTS (State I) (Event I) where
  initial s := s = start stale
  step := Step

/-- A first `mq_unlink` does not fail while a queue from before is under the name. -/
def CleansUp (stale : Stale) (s : State I) (e : Event I) : Prop :=
  ∀ i, e = .unlinkFails i → ∀ q, s.name = some q → stale.next ≤ q

/-- The runs in which what was left is removed. -/
def cleaned (I : Type*) [DecidableEq I] (stale : Stale) : LTS (State I) (Event I) :=
  (system I stale).restrict (CleansUp stale)

variable {stale : Stale} {s t : State I} {e : Event I} {i : I} {q : ℕ}

/-! ### No message of another program -/

/-- Past `mq_open` with a queue. -/
def Parent.Attached : Parent → Prop
  | fork | send | wait | last | finished | sendFailed => True
  | unlink | openQueue | quit => False

/-- Past `fork`. -/
def Parent.Forked : Parent → Prop
  | send | wait | last | finished | sendFailed => True
  | unlink | openQueue | fork | quit => False

theorem Parent.Forked.attached {p : Parent} (h : p.Forked) : p.Attached := by
  cases p <;> trivial

theorem Parent.Sent.forked {p : Parent} (h : p.Sent = true) : p.Forked := by
  cases p <;> trivial

/-- The queues in use are not the old ones, and hold nothing but the text. -/
structure Clean (stale : Stale) (s : State I) : Prop where
  next : stale.next ≤ s.next
  name : ∀ q, s.name = some q → q < s.next ∧ (stale.next ≤ q ∨ ∀ i, s.parent i = .unlink)
  mq : ∀ i, (s.parent i).Attached → stale.next ≤ s.mq i ∧ s.mq i < s.next
  queue : ∀ q, stale.next ≤ q → ∀ m ∈ s.queue q, m = text
  received : ∀ i m, s.child i = .received m → m = text
  forked : ∀ i, s.child i ≠ .absent ↔ (s.parent i).Forked

theorem queue_setQueue {r : ℕ} {msgs : List (List UInt8)} :
    (s.setQueue r msgs).queue q = if q = r then msgs else s.queue q := by
  simp [State.setQueue, Function.update_apply]

theorem Clean.name_of_ne (hs : Clean stale s) (i : I) (hi : s.parent i ≠ .unlink)
    (hq : s.name = some q) : stale.next ≤ q ∧ q < s.next := by
  obtain ⟨hlt, hle | hall⟩ := hs.name q hq
  · exact ⟨hle, hlt⟩
  · exact (hi (hall i)).elim

theorem Clean.unlink {ok : Bool} (hs : Clean stale s) : Clean stale (s.unlink ok) where
  next := hs.next
  name q hq := by
    cases ok with
    | true => cases hq
    | false => exact hs.name q hq
  mq := hs.mq
  queue := hs.queue
  received := hs.received
  forked := hs.forked

variable [DecidableEq I]

/-- A parent goes on without `mq_open` and `fork`. -/
theorem Clean.setParent {p : Parent} (hs : Clean stale s)
    (hname : (∀ q, s.name = some q → stale.next ≤ q) ∨ s.parent i ≠ .unlink)
    (hatt : p.Attached → (s.parent i).Attached) (hfork : p.Forked ↔ (s.parent i).Forked) :
    Clean stale (s.setParent i p) where
  next := hs.next
  name q hq := by
    rcases hname with hn | hi
    · exact ⟨(hs.name q hq).1, .inl (hn q hq)⟩
    · obtain ⟨hle, hlt⟩ := hs.name_of_ne i hi hq
      exact ⟨hlt, .inl hle⟩
  mq j hj := by
    by_cases hji : j = i
    · subst hji
      exact hs.mq j (hatt (by simpa [State.setParent] using hj))
    · exact hs.mq j (by simpa [State.setParent, hji] using hj)
  queue := hs.queue
  received := hs.received
  forked j := by
    by_cases hji : j = i
    · subst hji
      simpa [State.setParent, hfork] using hs.forked j
    · simpa [State.setParent, hji] using hs.forked j

/-- `mq_open` gives a queue that is in use. -/
theorem Clean.attach (hs : Clean stale s) (h : s.parent i = .openQueue)
    (hq : stale.next ≤ q ∧ q < s.next) : Clean stale ((s.setMq i q).setParent i .fork) where
  next := hs.next
  name r hr := by
    obtain ⟨hle, hlt⟩ := hs.name_of_ne i (by simp [h]) hr
    exact ⟨hlt, .inl hle⟩
  mq j hj := by
    by_cases hji : j = i
    · subst hji
      simpa [State.setParent, State.setMq] using hq
    · simp only [State.setParent, State.setMq, Function.update_of_ne hji] at hj ⊢
      exact hs.mq j hj
  queue := hs.queue
  received := hs.received
  forked j := by
    by_cases hji : j = i
    · subst hji
      simpa [State.setParent, State.setMq, h, Parent.Forked] using hs.forked j
    · simpa [State.setParent, State.setMq, hji] using hs.forked j

omit [DecidableEq I] in
theorem Clean.setQueue {msgs : List (List UInt8)} (hs : Clean stale s)
    (hm : stale.next ≤ q → ∀ m ∈ msgs, m = text) : Clean stale (s.setQueue q msgs) where
  next := hs.next
  name := hs.name
  mq := hs.mq
  queue r hr := by
    by_cases hrq : r = q
    · subst hrq
      simpa [State.setQueue] using hm hr
    · simpa [State.setQueue, hrq] using hs.queue r hr
  received := hs.received
  forked := hs.forked

theorem Clean.setChild {c : Child} (hs : Clean stale s) (hc : ∀ m, c = .received m → m = text)
    (hf : c ≠ .absent ↔ (s.parent i).Forked) : Clean stale (s.setChild i c) where
  next := hs.next
  name := hs.name
  mq := hs.mq
  queue := hs.queue
  received j m hj := by
    by_cases hji : j = i
    · subst hji
      exact hc m (by simpa [State.setChild] using hj)
    · exact hs.received j m (by simpa [State.setChild, hji] using hj)
  forked j := by
    by_cases hji : j = i
    · subst hji
      simpa [State.setChild] using hf
    · simpa [State.setChild, hji] using hs.forked j

omit [DecidableEq I] in
/-- `mq_open` makes a queue. -/
theorem Clean.create (hs : Clean stale s) :
    Clean stale ({ s with name := some s.next, next := s.next + 1 }.setQueue s.next []) where
  next := hs.next.trans (Nat.le_succ _)
  name q hq := by
    cases hq
    exact ⟨Nat.lt_succ_self _, .inl hs.next⟩
  mq j hj := by
    obtain ⟨hle, hlt⟩ := hs.mq j hj
    exact ⟨hle, hlt.trans (Nat.lt_succ_self _)⟩
  queue r hr := by
    by_cases hrq : r = s.next
    · simp [State.setQueue, hrq]
    · simpa [State.setQueue, hrq] using hs.queue r hr
  received := hs.received
  forked := hs.forked

theorem Clean.fork (hs : Clean stale s) (h : s.parent i = .fork) :
    Clean stale ((s.setParent i .send).setChild i .receive) where
  next := hs.next
  name q hq := by
    obtain ⟨hle, hlt⟩ := hs.name_of_ne i (by simp [h]) hq
    exact ⟨hlt, .inl hle⟩
  mq j hj := by
    by_cases hji : j = i
    · subst hji
      exact hs.mq j (by simp [h, Parent.Attached])
    · exact hs.mq j (by simpa [State.setParent, State.setChild, hji] using hj)
  queue := hs.queue
  received j m hj := by
    by_cases hji : j = i
    · subst hji
      simp [State.setChild] at hj
    · exact hs.received j m (by simpa [State.setParent, State.setChild, hji] using hj)
  forked j := by
    by_cases hji : j = i
    · subst hji
      simp [State.setParent, State.setChild, Parent.Forked]
    · simpa [State.setParent, State.setChild, hji] using hs.forked j

theorem clean_step (h : Step s e t) (he : CleansUp stale s e) (hs : Clean stale s) :
    Clean stale t := by
  cases h with
  | unlink h =>
    exact hs.unlink.setParent (.inl nofun) nofun (by simp [State.unlink, h, Parent.Forked])
  | unlinkFails h =>
    exact hs.unlink.setParent (.inl (he _ rfl)) nofun (by simp [State.unlink, h, Parent.Forked])
  | openNew h => exact hs.create.attach h ⟨hs.next, Nat.lt_succ_self _⟩
  | @openOld i q h hn => exact hs.attach h (hs.name_of_ne i (by simp [h]) hn)
  | openFails h => exact hs.setParent (.inr (by simp [h])) nofun (by simp [h, Parent.Forked])
  | fork h => exact hs.fork h
  | forkFails h =>
    exact hs.unlink.setParent (.inr (by simp [State.unlink, h])) nofun
      (by simp [State.unlink, h, Parent.Forked])
  | @send i h =>
    have hold := hs.queue (s.mq i)
    have hq : Clean stale (s.setQueue (s.mq i) (s.queue (s.mq i) ++ [text])) := by
      refine hs.setQueue fun hle m hm => ?_
      rcases List.mem_append.mp hm with hm | hm
      · exact hold hle m hm
      · simpa using hm
    exact hq.setParent (.inr (by simp [State.setQueue, h]))
      (by simp [State.setQueue, h, Parent.Attached]) (by simp [State.setQueue, h, Parent.Forked])
  | sendFails h =>
    exact hs.unlink.setParent (.inr (by simp [State.unlink, h]))
      (by simp [State.unlink, h, Parent.Attached]) (by simp [State.unlink, h, Parent.Forked])
  | wait h =>
    exact hs.setParent (.inr (by simp [h])) (by simp [h, Parent.Attached])
      (by simp [h, Parent.Forked])
  | last h =>
    exact hs.unlink.setParent (.inr (by simp [State.unlink, h]))
      (by simp [State.unlink, h, Parent.Attached]) (by simp [State.unlink, h, Parent.Forked])
  | @receive i m rest h hq =>
    have hf : (s.parent i).Forked := (hs.forked i).mp (by simp [h])
    have hall := hs.queue (s.mq i) (hs.mq i hf.attached).1
    rw [hq, List.forall_mem_cons] at hall
    refine (hs.setQueue fun _ => hall.2).setChild ?_ (by simpa [State.setQueue] using hf)
    rintro _ ⟨⟩
    exact hall.1
  | @receiveFails i h =>
    have hf := (hs.forked i).mp (by simp [h])
    exact hs.setChild nofun (by simpa using hf)

theorem clean_reachable (h : (cleaned I stale).Reachable s) : Clean stale s := by
  apply h.invariant
  · rintro _ rfl
    refine ⟨le_refl _, fun q hq => ⟨stale.name_lt q hq, .inr fun _ => rfl⟩, nofun, ?_, nofun, ?_⟩
    · simp +contextual [start, stale.queue_nil]
    · simp [start, Parent.Forked]
  · rintro s e t ⟨he, hst⟩ hs
    exact clean_step hst he hs

/-- Whatever was left under the name, if it is removed, and whatever else fails in whichever run:
a child that receives gets the text, so `buf[n]` is inside the array. -/
theorem received_text (h : (cleaned I stale).Reachable s) (i : I) :
    (∀ m, s.child i = .received m → m = text) ∧ (s.child i).Inside := by
  have hs := (clean_reachable h).received i
  refine ⟨hs, ?_⟩
  cases hc : s.child i with
  | received m =>
    rw [hs m hc]
    exact (by decide : text.length < msgsize)
  | absent | receive | failed => trivial

/-- A queue left under the name, with a message of the largest size in it. -/
def left : Stale where
  name := some 0
  queue q := if q = 0 then [List.replicate msgsize 65] else []
  next := 1
  name_lt := by simp
  queue_nil q hq := by
    have hne : q ≠ 0 := by omega
    simp [hne]

theorem received_text_after_crash : ∃ s : State Unit, (cleaned Unit left).Reachable s ∧
    s.child () = .received text ∧
    ∀ i, (∀ m, s.child i = .received m → m = text) ∧ (s.child i).Inside := by
  have h0 : (cleaned Unit left).Reachable (start left) := .of_initial rfl
  have h1 := h0.restrict_step (.unlink (i := ()) rfl) nofun
  have h2 := h1.restrict_step (.openNew (i := ()) rfl rfl) nofun
  have h3 := h2.restrict_step (.fork (i := ()) rfl) nofun
  have h4 := h3.restrict_step (.send (i := ()) rfl (by decide)) nofun
  have h5 := h4.restrict_step (.receive (i := ()) rfl rfl) nofun
  exact ⟨_, h5, rfl, received_text h5⟩

/-- Without the condition what was left is received, and the NUL is stored behind the array. -/
theorem exists_received_left : ∃ (s : State Unit) (m : List UInt8),
    (system Unit left).Reachable s ∧ s.child () = .received m ∧ m ≠ text ∧
      ¬ (s.child ()).Inside := by
  have h0 : (system Unit left).Reachable (start left) := .of_initial rfl
  have h1 := h0.step (.unlinkFails (i := ()) rfl)
  have h2 := h1.step (.openOld (i := ()) rfl rfl)
  have h3 := h2.step (.fork (i := ()) rfl)
  have h4 := h3.step (.receive (i := ()) rfl rfl)
  have hlen : (List.replicate msgsize (65 : UInt8)).length = msgsize := List.length_replicate
  refine ⟨_, List.replicate msgsize 65, h4, rfl, ?_, ?_⟩
  · intro he
    have htext : text.length = 15 := by decide
    rw [he, htext] at hlen
    exact absurd hlen (by decide)
  · intro hin
    have hlt : (List.replicate msgsize (65 : UInt8)).length < msgsize := hin
    rw [hlen] at hlt
    exact absurd hlt (Nat.lt_irrefl _)

/-! ### No child waits for nothing -/

variable [Fintype I]

def sentTo (s : State I) (q : ℕ) : Finset I :=
  Finset.univ.filter fun i => (s.parent i).Sent = true ∧ s.mq i = q

def receivedFrom (s : State I) (q : ℕ) : Finset I :=
  Finset.univ.filter fun i => (s.child i).Received = true ∧ s.mq i = q

/-- Each message is in the queue or has been received. -/
def Counted (stale : Stale) (s : State I) : Prop :=
  ∀ q, stale.next ≤ q →
    (sentTo s q).card = (receivedFrom s q).card + (s.queue q).length

theorem card_filter_insert {P P' : I → Prop} [DecidablePred P] [DecidablePred P'] (hi : ¬ P i)
    (h : ∀ j, P' j ↔ j = i ∨ P j) :
    (Finset.univ.filter P').card = (Finset.univ.filter P).card + 1 := by
  have hinsert : Finset.univ.filter P' = insert i (Finset.univ.filter P) := by
    ext j
    simp [h]
  rw [hinsert, Finset.card_insert_of_notMem (by simpa using hi)]

omit [DecidableEq I] in
/-- A step that neither sends nor receives. -/
theorem Counted.of_eq (hs : Counted stale s) (hsent : ∀ q, sentTo t q = sentTo s q)
    (hrec : ∀ q, receivedFrom t q = receivedFrom s q) (hqueue : t.queue = s.queue) :
    Counted stale t := by
  intro q hq
  rw [hsent, hrec, hqueue]
  exact hs q hq

theorem sentTo_setParent {p : Parent} (h : p.Sent = (s.parent i).Sent) :
    sentTo (s.setParent i p) q = sentTo s q := by
  apply Finset.filter_congr
  intro j _
  by_cases hji : j = i
  · subst hji
    simp [State.setParent, h]
  · simp [State.setParent, hji]

theorem receivedFrom_setChild {c : Child} (h : c.Received = (s.child i).Received) :
    receivedFrom (s.setChild i c) q = receivedFrom s q := by
  apply Finset.filter_congr
  intro j _
  by_cases hji : j = i
  · subst hji
    simp [State.setChild, h]
  · simp [State.setChild, hji]

theorem sentTo_setMq {r : ℕ} (h : (s.parent i).Sent = false) :
    sentTo (s.setMq i r) q = sentTo s q := by
  apply Finset.filter_congr
  intro j _
  by_cases hji : j = i
  · subst hji
    simp [State.setMq, h]
  · simp [State.setMq, hji]

theorem receivedFrom_setMq {r : ℕ} (h : (s.child i).Received = false) :
    receivedFrom (s.setMq i r) q = receivedFrom s q := by
  apply Finset.filter_congr
  intro j _
  by_cases hji : j = i
  · subst hji
    simp [State.setMq, h]
  · simp [State.setMq, hji]

theorem Counted.attach {r : ℕ} (hs : Counted stale s) (hclean : Clean stale s)
    (h : s.parent i = .openQueue) : Counted stale ((s.setMq i r).setParent i .fork) := by
  have hchild : s.child i = .absent := by
    by_contra hne
    have hf := (hclean.forked i).mp hne
    simp [h, Parent.Forked] at hf
  have hrec (q : ℕ) : receivedFrom (s.setMq i r) q = receivedFrom s q :=
    receivedFrom_setMq (by simp [hchild, Child.Received])
  refine hs.of_eq (fun q => ?_) hrec rfl
  rw [sentTo_setParent (by simp [State.setMq, h, Parent.Sent]),
    sentTo_setMq (by simp [h, Parent.Sent])]

omit [DecidableEq I] in
/-- No run has a queue that is not made yet. -/
theorem queue_next (hs : Counted stale s) (hclean : Clean stale s) : s.queue s.next = [] := by
  have hcard := hs s.next hclean.next
  have hnone : sentTo s s.next = ∅ := by
    apply Finset.filter_eq_empty_iff.mpr
    rintro j _ ⟨hsent, hmq⟩
    have hlt := (hclean.mq j (Parent.Sent.forked hsent).attached).2
    omega
  rw [hnone, Finset.card_empty] at hcard
  exact List.length_eq_zero_iff.mp (by omega)

theorem counted_send (hs : Counted stale s) (h : s.parent i = .send) :
    Counted stale ((s.setQueue (s.mq i) (s.queue (s.mq i) ++ [text])).setParent i .wait) := by
  intro q hq
  have hold := hs q hq
  have hrec : receivedFrom
      ((s.setQueue (s.mq i) (s.queue (s.mq i) ++ [text])).setParent i .wait) q =
      receivedFrom s q := rfl
  change _ = _ + ((s.setQueue _ _).queue q).length
  rw [hrec, queue_setQueue]
  by_cases hqi : q = s.mq i
  · have hsent : (sentTo ((s.setQueue (s.mq i) (s.queue (s.mq i) ++ [text])).setParent i .wait)
        q).card = (sentTo s q).card + 1 := by
      refine card_filter_insert (i := i) (by simp [h, Parent.Sent]) fun j => ?_
      by_cases hji : j = i
      · subst hji
        simp [State.setParent, State.setQueue, Parent.Sent, hqi]
      · simp [State.setParent, State.setQueue, hji]
    rw [hsent, if_pos hqi, hold, hqi, List.length_append, List.length_singleton]
    omega
  · have hsent : sentTo ((s.setQueue (s.mq i) (s.queue (s.mq i) ++ [text])).setParent i .wait) q =
        sentTo s q := by
      apply Finset.filter_congr
      intro j _
      by_cases hji : j = i
      · subst hji
        simp [State.setParent, State.setQueue, Ne.symm hqi]
      · simp [State.setParent, State.setQueue, hji]
    rw [hsent, if_neg hqi, hold]

theorem counted_receive {m : List UInt8} {rest : List (List UInt8)} (hs : Counted stale s)
    (h : s.child i = .receive) (hm : s.queue (s.mq i) = m :: rest) :
    Counted stale ((s.setQueue (s.mq i) rest).setChild i (.received m)) := by
  intro q hq
  have hold := hs q hq
  have hsent : sentTo ((s.setQueue (s.mq i) rest).setChild i (.received m)) q = sentTo s q := rfl
  change _ = _ + ((s.setQueue _ _).queue q).length
  rw [hsent, queue_setQueue]
  by_cases hqi : q = s.mq i
  · have hrec : (receivedFrom ((s.setQueue (s.mq i) rest).setChild i (.received m)) q).card =
        (receivedFrom s q).card + 1 := by
      refine card_filter_insert (i := i) (by simp [h, Child.Received]) fun j => ?_
      by_cases hji : j = i
      · subst hji
        simp [State.setChild, State.setQueue, Child.Received, hqi]
      · simp [State.setChild, State.setQueue, hji]
    rw [hrec, if_pos hqi, hold, hqi, hm, List.length_cons]
    omega
  · have hrec : receivedFrom ((s.setQueue (s.mq i) rest).setChild i (.received m)) q =
        receivedFrom s q := by
      apply Finset.filter_congr
      intro j _
      by_cases hji : j = i
      · subst hji
        simp [State.setChild, State.setQueue, Ne.symm hqi]
      · simp [State.setChild, State.setQueue, hji]
    rw [hrec, if_neg hqi, hold]

theorem counted_step (hclean : Clean stale s) (h : Step s e t) (hs : Counted stale s) :
    Counted stale t := by
  cases h with
  | unlink h | unlinkFails h | openFails h | forkFails h | sendFails h | last h | wait h =>
    exact hs.of_eq (fun q => sentTo_setParent (by simp [State.unlink, h, Parent.Sent]))
      (fun _ => rfl) rfl
  | openNew h =>
    have hcreate : Counted stale
        ({ s with name := some s.next, next := s.next + 1 }.setQueue s.next []) := by
      refine hs.of_eq (fun _ => rfl) (fun _ => rfl) ?_
      have hnil := queue_next hs hclean
      exact hnil ▸ Function.update_eq_self ..
    exact hcreate.attach hclean.create h
  | openOld h => exact hs.attach hclean h
  | @fork i h =>
    have hchild : s.child i = .absent := by
      by_contra hne
      have hf := (hclean.forked i).mp hne
      simp [h, Parent.Forked] at hf
    exact hs.of_eq (fun q => sentTo_setParent (by simp [h, Parent.Sent]))
      (fun q => receivedFrom_setChild (by simp [State.setParent, hchild, Child.Received])) rfl
  | send h => exact counted_send hs h
  | receive h hm => exact counted_receive hs h hm
  | receiveFails h =>
    exact hs.of_eq (fun _ => rfl)
      (fun q => receivedFrom_setChild (by simp [h, Child.Received])) rfl

theorem counted_reachable (h : (cleaned I stale).Reachable s) : Counted stale s := by
  apply h.invariant_of_reachable
  · rintro _ rfl q hq
    simp [sentTo, receivedFrom, start, Parent.Sent, Child.Received, stale.queue_nil q hq]
  · rintro s e t hr ⟨-, hst⟩ hs
    exact counted_step (clean_reachable hr) hst hs

/-- No `mq_send` and no `mq_receive` fails. -/
def Delivers (_ : State I) (e : Event I) : Prop :=
  ∀ i, e ≠ .sendFails i ∧ e ≠ .receiveFails i

omit [Fintype I] in
theorem no_failure (h : ((cleaned I stale).restrict Delivers).Reachable s) :
    (∀ i, s.parent i ≠ .sendFailed) ∧ ∀ i, s.child i ≠ .failed := by
  apply h.invariant (P := fun s => (∀ i, s.parent i ≠ .sendFailed) ∧ ∀ i, s.child i ≠ .failed)
  · rintro _ rfl
    exact ⟨nofun, nofun⟩
  · rintro s e t ⟨hd, -, hst⟩ ⟨hp, hc⟩
    have hparent {p : Parent} (i : I) (hne : p ≠ .sendFailed) (j : I) :
        Function.update s.parent i p j ≠ .sendFailed := by
      by_cases hji : j = i
      · simpa [hji] using hne
      · simpa [hji] using hp j
    have hchild {c : Child} (i : I) (hne : c ≠ .failed) (j : I) :
        Function.update s.child i c j ≠ .failed := by
      by_cases hji : j = i
      · simpa [hji] using hne
      · simpa [hji] using hc j
    cases hst with
    | unlink | unlinkFails | openNew | openOld | openFails | forkFails | send | wait | last =>
      exact ⟨hparent _ nofun, hc⟩
    | fork => exact ⟨hparent _ nofun, hchild _ nofun⟩
    | receive => exact ⟨hp, hchild _ nofun⟩
    | sendFails => exact ((hd _).1 rfl).elim
    | receiveFails => exact ((hd _).2 rfl).elim

omit [DecidableEq I] in
/-- A child that waits at an empty queue waits for a run that has not sent yet. -/
theorem exists_sender (hclean : Clean stale s) (hs : Counted stale s)
    (hfail : ∀ j, s.parent j ≠ .sendFailed) (hi : s.child i = .receive)
    (hnil : s.queue (s.mq i) = []) : ∃ j, s.parent j = .send ∧ s.mq j = s.mq i := by
  by_contra hno
  have hsent : ∀ j, s.child j ≠ .absent → s.mq j = s.mq i → (s.parent j).Sent = true := by
    intro j hj hmq
    have hf := (hclean.forked j).mp hj
    cases hp : s.parent j with
    | send => exact (hno ⟨j, hp, hmq⟩).elim
    | sendFailed => exact (hfail j hp).elim
    | wait | last | finished => rfl
    | unlink | openQueue | fork | quit => simp [hp, Parent.Forked] at hf
  have hsub : receivedFrom s (s.mq i) ⊆ sentTo s (s.mq i) := by
    intro j hj
    obtain ⟨hrec, hmq⟩ := (Finset.mem_filter.mp hj).2
    refine Finset.mem_filter.mpr ⟨Finset.mem_univ j, hsent j ?_ hmq, hmq⟩
    rintro habs
    simp [habs, Child.Received] at hrec
  have hatt := ((hclean.forked i).mp (by simp [hi])).attached
  have hcard := hs (s.mq i) (hclean.mq i hatt).1
  rw [hnil, List.length_nil, Nat.add_zero] at hcard
  have heq := Finset.eq_of_subset_of_card_le hsub hcard.le
  have hmem : i ∈ receivedFrom s (s.mq i) := by
    rw [heq]
    exact Finset.mem_filter.mpr ⟨Finset.mem_univ i, hsent i (by simp [hi]) rfl, rfl⟩
  have hrec := (Finset.mem_filter.mp hmem).2.1
  simp [hi, Child.Received] at hrec

omit [DecidableEq I] in
/-- When every child has received, every parent has sent. -/
theorem no_sender (hclean : Clean stale s) (hs : Counted stale s)
    (hall : ∀ j, s.child j ≠ .absent → (s.child j).Received = true) : ∀ j, s.parent j ≠ .send := by
  intro j hj
  have hf : (s.parent j).Forked := by simp [hj, Parent.Forked]
  have hcard := hs (s.mq j) (hclean.mq j hf.attached).1
  have hlt : sentTo s (s.mq j) ⊂ receivedFrom s (s.mq j) := by
    rw [Finset.ssubset_iff_of_subset]
    · refine ⟨j, Finset.mem_filter.mpr ⟨Finset.mem_univ j, ?_, rfl⟩, fun hmem => ?_⟩
      · exact hall j ((hclean.forked j).mpr hf)
      · have hsent := (Finset.mem_filter.mp hmem).2.1
        simp [hj, Parent.Sent] at hsent
    · intro l hl
      obtain ⟨hsent, hmq⟩ := (Finset.mem_filter.mp hl).2
      have hrec := hall l ((hclean.forked l).mpr (Parent.Sent.forked hsent))
      exact Finset.mem_filter.mpr ⟨Finset.mem_univ l, hrec, hmq⟩
  have hcards := Finset.card_lt_card hlt
  omega

/-! ### Every run ends -/

/-- The calls the parent has still to make, with two for `fork`. -/
def Parent.rest : Parent → ℕ
  | unlink => 7
  | openQueue => 6
  | fork => 5
  | send => 3
  | wait => 2
  | last => 1
  | finished | quit | sendFailed => 0

def Child.rest : Child → ℕ
  | receive => 1
  | absent | received _ | failed => 0

def measure (s : State I) : ℕ :=
  ∑ i, ((s.parent i).rest + (s.child i).rest)

theorem measure_lt (hclean : Clean stale s) (h : Step s e t) : measure t < measure s := by
  have hlt {t : State I} (i : I) (hother : ∀ j ≠ i, t.parent j = s.parent j ∧ t.child j = s.child j)
      (hi : (t.parent i).rest + (t.child i).rest < (s.parent i).rest + (s.child i).rest) :
      measure t < measure s := by
    refine Finset.sum_lt_sum (fun j _ => ?_) ⟨i, Finset.mem_univ i, hi⟩
    by_cases hji : j = i
    · exact hji ▸ hi.le
    · rw [(hother j hji).1, (hother j hji).2]
  cases h with
  | @unlink i h | @unlinkFails i h | @openNew i h | @openOld i _ h | @openFails i h
  | @forkFails i _ h | @send i h | @sendFails i _ h | @wait i h | @last i _ h =>
    refine hlt i (fun j hji => ?_) ?_
    · simp [State.setParent, State.setMq, State.setQueue, State.unlink, hji]
    · simp [State.setParent, State.setMq, State.setQueue, State.unlink, h, Parent.rest]
  | @fork i h =>
    have hchild : s.child i = .absent := by
      by_contra hne
      have hf := (hclean.forked i).mp hne
      simp [h, Parent.Forked] at hf
    refine hlt i (fun j hji => ?_) ?_
    · simp [State.setParent, State.setChild, hji]
    · simp [State.setParent, State.setChild, h, hchild, Parent.rest, Child.rest]
  | @receive i _ _ h | @receiveFails i h =>
    refine hlt i (fun j hji => ?_) ?_
    · simp [State.setChild, State.setQueue, hji]
    · simp [State.setChild, State.setQueue, h, Child.rest]

/-- What a run has come to: it has received the text and cleaned up, or it had no queue or no
child. -/
def Over (s : State I) (i : I) : Prop :=
  s.parent i = .finished ∧ s.child i = .received text ∨ s.parent i = .quit ∧ s.child i = .absent

theorem over_of_terminal (hr : ((cleaned I stale).restrict Delivers).Reachable s)
    (hterm : ((cleaned I stale).restrict Delivers).Terminal s) (i : I) : Over s i := by
  have hclean := clean_reachable hr.of_restrict
  have hs := counted_reachable hr.of_restrict
  obtain ⟨hfail, hchild⟩ := no_failure hr
  have hno {e : Event I} {t : State I} (h : Step s e t) (hd : Delivers s e)
      (he : CleansUp stale s e := by exact nofun) : False := hterm e t ⟨hd, he, h⟩
  have hwaits : ∀ j, s.child j ≠ .receive := by
    intro j hj
    cases hq : s.queue (s.mq j) with
    | cons m rest => exact hno (.receive hj hq) fun _ => ⟨nofun, nofun⟩
    | nil =>
      obtain ⟨l, hl, hmq⟩ := exists_sender hclean hs hfail hj hq
      exact hno (.send hl (by simp [hmq, hq])) fun _ => ⟨nofun, nofun⟩
  have hreceived : ∀ j, s.child j ≠ .absent → (s.child j).Received = true := by
    intro j hj
    cases hc : s.child j with
    | absent => exact (hj hc).elim
    | receive => exact (hwaits j hc).elim
    | failed => exact (hchild j hc).elim
    | received m => rfl
  cases hp : s.parent i with
  | unlink => exact (hno (.unlink hp) fun _ => ⟨nofun, nofun⟩).elim
  | openQueue => exact (hno (.openFails hp) fun _ => ⟨nofun, nofun⟩).elim
  | fork => exact (hno (.fork hp) fun _ => ⟨nofun, nofun⟩).elim
  | send => exact (no_sender hclean hs hreceived i hp).elim
  | wait => exact (hno (.wait hp (hwaits i)) fun _ => ⟨nofun, nofun⟩).elim
  | last => exact (hno (.last hp : Step s (.parent i) ((s.unlink true).setParent i .finished))
      fun _ => ⟨nofun, nofun⟩).elim
  | sendFailed => exact (hfail i hp).elim
  | finished =>
    left
    have hne : s.child i ≠ .absent := (hclean.forked i).mpr (by simp [hp, Parent.Forked])
    cases hc : s.child i with
    | received m => exact ⟨hp, by rw [hclean.received i m hc]⟩
    | absent => exact (hne hc).elim
    | receive => exact (hwaits i hc).elim
    | failed => exact (hchild i hc).elim
  | quit =>
    right
    refine ⟨hp, ?_⟩
    by_contra hne
    have hf := (hclean.forked i).mp hne
    simp [hp, Parent.Forked] at hf

/-- However many runs there are and however their calls fall between each other, all of them come
to their end when no `mq_send` and no `mq_receive` fails and what was left is removed. -/
theorem all_runs_end (stale : Stale) :
    ((cleaned I stale).restrict Delivers).Ends fun s => ∀ i, Over s i := by
  refine .of_measure (μ := measure) (n := measure (start stale : State I)) ?_ ?_ ?_
  · rintro _ rfl
    exact le_refl _
  · rintro s e t hr ⟨-, -, hst⟩
    exact measure_lt (clean_reachable hr.of_restrict) hst
  · intro s hr hterm
    exact over_of_terminal hr hterm

/-- Of a run alone whose `mq_send` has failed, the child never receives: it keeps the queue open
itself, and the parent does not wait for it. -/
theorem child_waits_of_sendFailed [Subsingleton I] (h : (cleaned I stale).Reachable s)
    (hp : s.parent i = .sendFailed) : s.child i = .receive ∨ s.child i = .failed := by
  have hclean := clean_reachable h
  have hf : (s.parent i).Forked := by simp [hp, Parent.Forked]
  have hcard := counted_reachable h (s.mq i) (hclean.mq i hf.attached).1
  have hnone : sentTo s (s.mq i) = ∅ := by
    apply Finset.filter_eq_empty_iff.mpr
    rintro j _ ⟨hsent, _⟩
    rw [Subsingleton.elim j i, hp] at hsent
    cases hsent
  rw [hnone, Finset.card_empty] at hcard
  have hrec : receivedFrom s (s.mq i) = ∅ := Finset.card_eq_zero.mp (by omega)
  cases hc : s.child i with
  | receive => exact .inl rfl
  | failed => exact .inr rfl
  | absent => exact ((hclean.forked i).mpr hf hc).elim
  | received m =>
    have hnot := Finset.filter_eq_empty_iff.mp hrec (Finset.mem_univ i)
    simp [hc, Child.Received] at hnot

end SystemCalls.MqDemo

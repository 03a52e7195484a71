import SystemCalls.CString
import SystemCalls.Transition
import Mathlib.Data.Multiset.AddSub
import Mathlib.Data.Multiset.MapFold

/-!
# The UDP echo server

The loop of 6.3.6 between any number of peers. The network loses, reorders and duplicates
datagrams, and the server has one buffer, which keeps what the last datagram left in it.
-/

namespace SystemCalls.UdpEcho

/-- A datagram of a peer, on its way to the server or back. -/
structure Datagram (A : Type*) where
  peer : A
  payload : List UInt8

/-- `sizeof buf` -/
abbrev bufSize : ℕ := 2048

variable {A : Type*}

/-- What `recvfrom` stores of a datagram; the rest of a longer one is dropped. -/
def Datagram.cut (d : Datagram A) : Datagram A := { d with payload := d.payload.take bufSize }

inductive Server (A : Type*)
  /-- At `recvfrom`. -/
  | recv
  /-- At `sendto`, with `peer` and `n` as they were filled in. -/
  | send (peer : A) (n : ℕ)
  | exited

/-- `sent` and `received` are what the peers have sent and got back so far. -/
structure State (A : Type*) where
  server : Server A
  buf : CharBuf bufSize
  requests : Multiset (Datagram A)
  replies : Multiset (Datagram A)
  sent : Multiset (Datagram A)
  received : Multiset (Datagram A)
  /-- The lines on stderr. -/
  log : List (ℕ × A)

inductive Event
  | peer
  | server
  | failure
  | delivery
  | loss
  | duplication

theorem length_cut_le (d : Datagram A) : d.cut.payload.length ≤ bufSize := by
  rw [Datagram.cut, List.length_take]
  omega

inductive Step : State A → Event → State A → Prop
  | peer {s : State A} (d : Datagram A) :
      Step s .peer { s with requests := d ::ₘ s.requests, sent := d ::ₘ s.sent }
  | recvfrom {s : State A} {d : Datagram A} {q : Multiset (Datagram A)}
      (h : s.server = .recv) (hd : s.requests = d ::ₘ q) :
      Step s .server { s with
        server := .send d.peer d.cut.payload.length
        buf := s.buf.write d.cut.payload (length_cut_le d)
        requests := q
        log := s.log ++ [(d.cut.payload.length, d.peer)] }
  /-- EINTR. -/
  | recvfromAgain {s : State A} (h : s.server = .recv) : Step s .failure s
  | recvfromFails {s : State A} (h : s.server = .recv) :
      Step s .failure { s with server := .exited }
  | sendto {s : State A} {peer : A} {n : ℕ} (h : s.server = .send peer n) :
      Step s .server { s with
        server := .recv
        replies := ⟨peer, s.buf.bytes.take n⟩ ::ₘ s.replies }
  | sendtoFails {s : State A} {peer : A} {n : ℕ} (h : s.server = .send peer n) :
      Step s .failure { s with server := .recv }
  | deliver {s : State A} {d : Datagram A} {q : Multiset (Datagram A)}
      (hd : s.replies = d ::ₘ q) :
      Step s .delivery { s with replies := q, received := d ::ₘ s.received }
  | loseRequest {s : State A} {d : Datagram A} {q : Multiset (Datagram A)}
      (hd : s.requests = d ::ₘ q) : Step s .loss { s with requests := q }
  | loseReply {s : State A} {d : Datagram A} {q : Multiset (Datagram A)}
      (hd : s.replies = d ::ₘ q) : Step s .loss { s with replies := q }
  | duplicateRequest {s : State A} {d : Datagram A} (hd : d ∈ s.requests) :
      Step s .duplication { s with requests := d ::ₘ s.requests }
  | duplicateReply {s : State A} {d : Datagram A} (hd : d ∈ s.replies) :
      Step s .duplication { s with replies := d ::ₘ s.replies }

/-- The buffer on the stack starts with whatever was there. -/
def system (A : Type*) : LTS (State A) Event where
  initial s := ∃ buf, s = ⟨.recv, buf, 0, 0, 0, 0, []⟩
  step := Step

variable {s t : State A} {e : Event} {d : Datagram A}

/-- What the server is about to send. -/
def State.pending (s : State A) : Multiset (Datagram A) :=
  match s.server with
  | .send peer n => {⟨peer, s.buf.bytes.take n⟩}
  | .recv | .exited => 0

/-- All that is an answer or can become one. -/
def State.traffic (s : State A) : Multiset (Datagram A) :=
  s.received + s.replies + s.pending + s.requests.map Datagram.cut

/-- Of the buffer only what `recvfrom` has just stored goes out. -/
theorem take_write (buf : CharBuf bufSize) (d : Datagram A) :
    (buf.write d.cut.payload (length_cut_le d)).bytes.take d.cut.payload.length =
      d.cut.payload :=
  List.take_left

theorem add_singleton_add (u v : Multiset (Datagram A)) (d : Datagram A) :
    u + {d} + v = d ::ₘ (u + v) := by
  rw [Multiset.add_comm u, Multiset.singleton_add, Multiset.cons_add]

theorem traffic_of_send {peer : A} {n : ℕ} (h : s.server = .send peer n) :
    s.traffic = ⟨peer, s.buf.bytes.take n⟩ ::ₘ
      (s.received + s.replies + s.requests.map Datagram.cut) := by
  simp only [State.traffic, State.pending, h, add_singleton_add]

/-- A step sends a request, or only moves and drops, or is the network that duplicates. -/
theorem traffic_cases (h : Step s e t) :
    t.sent = s.sent ∧ t.traffic ≤ s.traffic ∨
      (∃ d, t.sent = d ::ₘ s.sent ∧ t.traffic = d.cut ::ₘ s.traffic) ∨
      e = .duplication ∧ t.sent = s.sent ∧ ∃ d ∈ s.traffic, t.traffic = d ::ₘ s.traffic := by
  cases h with
  | peer d => exact .inr (.inl ⟨d, rfl, by simp [State.traffic, State.pending]⟩)
  | @recvfrom d q h hd =>
    refine .inl ⟨rfl, le_of_eq ?_⟩
    rw [traffic_of_send rfl, take_write]
    simp [State.traffic, State.pending, h, hd, Datagram.cut]
  | recvfromAgain h => exact .inl ⟨rfl, le_rfl⟩
  | recvfromFails h => exact .inl ⟨rfl, by simp [State.traffic, State.pending, h]⟩
  | sendto h =>
    refine .inl ⟨rfl, le_of_eq ?_⟩
    rw [traffic_of_send h]
    simp [State.traffic, State.pending]
  | sendtoFails h =>
    refine .inl ⟨rfl, ?_⟩
    rw [traffic_of_send h]
    simp only [State.traffic, State.pending, Multiset.add_zero]
    exact Multiset.le_cons_self _ _
  | deliver hd =>
    refine .inl ⟨rfl, le_of_eq ?_⟩
    simp [State.traffic, State.pending, hd]
  | @loseRequest d q hd =>
    refine .inl ⟨rfl, ?_⟩
    simp only [State.traffic, State.pending, hd, Multiset.map_cons, Multiset.add_cons]
    exact Multiset.le_cons_self _ _
  | @loseReply d q hd =>
    refine .inl ⟨rfl, ?_⟩
    simp only [State.traffic, State.pending, hd, Multiset.add_cons, Multiset.cons_add]
    exact Multiset.le_cons_self _ _
  | @duplicateRequest d hd =>
    refine .inr (.inr ⟨rfl, rfl, d.cut, ?_, by simp [State.traffic, State.pending]⟩)
    exact Multiset.mem_add.mpr (.inr (Multiset.mem_map_of_mem _ hd))
  | @duplicateReply d hd =>
    exact .inr (.inr ⟨rfl, rfl, d, by simp [State.traffic, hd],
      by simp [State.traffic, State.pending]⟩)

theorem received_le_traffic (s : State A) : s.received ≤ s.traffic := by
  unfold State.traffic
  rw [Multiset.add_assoc, Multiset.add_assoc]
  exact Multiset.le_add_right _ _

/-- The network loses and reorders only. -/
def NoDuplicate (_ : State A) (e : Event) : Prop := e ≠ .duplication

/-- A peer gets its byte back after a longer datagram has been through the buffer. -/
theorem exists_received : ∃ s : State Bool,
    ((system Bool).restrict NoDuplicate).Reachable s ∧ s.received = {⟨true, [7]⟩} := by
  have h0 : ((system Bool).restrict NoDuplicate).Reachable
      ⟨.recv, CharBuf.zero bufSize, 0, 0, 0, 0, []⟩ := .of_initial ⟨_, rfl⟩
  have h1 := h0.restrict_step (.peer ⟨false, [1, 2, 3]⟩) nofun
  have h2 := h1.restrict_step (.recvfrom (d := ⟨false, [1, 2, 3]⟩) (q := 0) rfl rfl) nofun
  have h3 := h2.restrict_step (.sendto rfl) nofun
  have h4 := h3.restrict_step (.peer ⟨true, [7]⟩) nofun
  have h5 := h4.restrict_step (.recvfrom (d := ⟨true, [7]⟩) (q := 0) rfl rfl) nofun
  have h6 := h5.restrict_step (.sendto rfl) nofun
  have h7 := h6.restrict_step (.deliver (d := ⟨true, [7]⟩) (q := {⟨false, [1, 2, 3]⟩}) rfl) nofun
  exact ⟨_, h7, rfl⟩

/-- Whatever the network does: what a peer gets back is the start of a datagram that it has sent
itself, and has no byte from anybody else. -/
theorem received_of_sent (h : (system A).Reachable s) (hd : d ∈ s.received) :
    ∃ q ∈ s.sent, q.peer = d.peer ∧ d.payload = q.payload.take bufSize := by
  suffices htraffic : s.traffic ⊆ s.sent.map Datagram.cut by
    obtain ⟨q, hq, rfl⟩ :=
      Multiset.mem_map.mp (htraffic (Multiset.mem_of_le (received_le_traffic s) hd))
    exact ⟨q, hq, rfl, rfl⟩
  apply h.invariant (P := fun s => s.traffic ⊆ s.sent.map Datagram.cut)
  · rintro _ ⟨buf, rfl⟩
    simp [State.traffic, State.pending]
  · intro s e t hst hs
    rcases traffic_cases hst with ⟨hsent, hle⟩ | ⟨q, hsent, hq⟩ | ⟨-, hsent, q, hmem, hq⟩
    · rw [hsent]
      exact fun _ hx => hs (Multiset.mem_of_le hle hx)
    · rw [hsent, hq, Multiset.map_cons]
      exact Multiset.cons_subset_cons hs
    · rw [hsent, hq]
      exact Multiset.cons_subset.mpr ⟨hs hmem, hs⟩

theorem received_of_sent_second : ∃ s : State Bool, (system Bool).Reachable s ∧
    ⟨true, [7]⟩ ∈ s.received ∧
      ∃ q ∈ s.sent, q.peer = true ∧ [7] = q.payload.take bufSize := by
  obtain ⟨s, hs, hreceived⟩ := exists_received
  have hmem : ⟨true, [7]⟩ ∈ s.received := by
    rw [hreceived]
    exact Multiset.mem_singleton_self _
  exact ⟨s, hs.of_restrict, hmem, received_of_sent hs.of_restrict hmem⟩

/-- Then each datagram comes back at most once. -/
theorem received_le_sent (h : ((system A).restrict NoDuplicate).Reachable s) :
    s.received ≤ s.sent.map Datagram.cut := by
  apply (received_le_traffic s).trans
  apply h.invariant (P := fun s => s.traffic ≤ s.sent.map Datagram.cut)
  · rintro _ ⟨buf, rfl⟩
    simp [State.traffic, State.pending]
  · rintro s e t ⟨hno, hst⟩ hs
    rcases traffic_cases hst with ⟨hsent, hle⟩ | ⟨q, hsent, hq⟩ | ⟨hdup, -⟩
    · rw [hsent]
      exact hle.trans hs
    · rw [hsent, hq, Multiset.map_cons]
      exact Multiset.cons_le_cons _ hs
    · exact (hno hdup).elim

theorem received_le_sent_second : ∃ s : State Bool,
    ((system Bool).restrict NoDuplicate).Reachable s ∧ s.received = {⟨true, [7]⟩} ∧
      s.received ≤ s.sent.map Datagram.cut := by
  obtain ⟨s, hs, hreceived⟩ := exists_received
  exact ⟨s, hs, hreceived, received_le_sent hs⟩

end SystemCalls.UdpEcho

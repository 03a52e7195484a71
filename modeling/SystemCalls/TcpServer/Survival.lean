import SystemCalls.TcpServer.Server

/-!
# What clients can do to tcp_server

The server with the client of its current connection, which may go away at any time.
From then on `send` on that connection fails with EPIPE.
-/

namespace SystemCalls.TcpServer

open Socket

/-- `gone`: the client of the connection accepted last has closed or reset it. -/
structure World where
  server : State
  gone : Bool

inductive Event
  | answer (a : Answer)
  | depart

/-- The kernel's side: `send` fails with EPIPE just when the peer has gone. -/
def Provoked (gone : Bool) : Answer → Prop
  | .send r => r = .error .epipe ↔ gone = true
  | .accept _ | .recv _ => True

/-- A connection just accepted has a client. -/
def goneAfter (gone : Bool) : Answer → Bool
  | .accept (.ok _) => false
  | .accept (.error _) | .recv _ | .send _ => gone

inductive Step : World → Event → World → Prop
  | answer {w : World} {a : Answer} {t : State} (ha : Provoked w.gone a)
      (hs : step w.server a = some t) :
      Step w (.answer a) ⟨t, goneAfter w.gone a⟩
  | depart {w : World} : Step w .depart { w with gone := true }

def system : LTS World Event where
  initial w := Listening w.server
  step := Step

variable {w w' : World} {e : Event} {E : Execution World Event}

/-- The server is in its echo loop. -/
def Serving (w : World) : Prop := w.server.pc ≠ .accept ∧ w.server.pc ≠ .terminated

/-- The answers that end the echo loop. -/
def Ends : Answer → Prop
  | .recv .eof | .recv (.error _) | .send (.error _) => True
  | .accept _ | .recv (.data _) | .send (.ok _) => False

/-- Never terminated, and back in `accept` again and again. -/
def Survives (E : Execution World Event) : Prop :=
  (∀ n, (E.state n).server.pc ≠ .terminated) ∧
    ∀ n, ∃ m, n ≤ m ∧ (E.state m).server.pc = .accept

/-- No `send` is made after the client has gone, and every client accepted ends its
connection. -/
structure Orderly (E : Execution World Event) : Prop where
  heard : ∀ n r, E.event n = some (.answer (.send r)) → (E.state n).gone = false
  ended : ∀ n client, E.event n = some (.answer (.accept (.ok client))) →
    ∃ m a, n < m ∧ E.event m = some (.answer a) ∧ Ends a

theorem step_cases (h : Step w e w') :
    (e = .depart ∧ w'.server = w.server) ∨
      ∃ a, e = .answer a ∧ step w.server a = some w'.server ∧ Provoked w.gone a := by
  cases h with
  | depart => exact Or.inl ⟨rfl, rfl⟩
  | answer ha hs => exact Or.inr ⟨_, rfl, hs, ha⟩

/-- Only a departure leaves the server with a client that has gone. -/
theorem gone_step (h : Step w e w') (he : e ≠ .depart) (hw : w.gone = false) :
    w'.gone = false := by
  cases h with
  | depart => exact (he rfl).elim
  | @answer a t ha hs =>
    cases a with
    | accept r => cases r <;> simp [goneAfter, hw]
    | recv r | send r => exact hw

/-- Only EPIPE terminates the server, and only a client that has gone causes it. -/
theorem terminated_step (h : Step w e w') (hw : w.server.pc ≠ .terminated)
    (hw' : w'.server.pc = .terminated) : (∃ r, e = .answer (.send r)) ∧ w.gone = true := by
  rcases step_cases h with ⟨-, hs⟩ | ⟨a, rfl, hs, ha⟩
  · exact (hw (hs ▸ hw')).elim
  · have hnext := step_pc hs
    rw [hw'] at hnext
    cases a with
    | accept r => cases r <;> simp [Answer.next] at hnext
    | recv r => cases r <;> simp [Answer.next] at hnext
    | send r =>
      refine ⟨⟨r, rfl⟩, ha.mp ?_⟩
      cases r with
      | ok k => simp [Answer.next] at hnext
      | error e =>
        by_contra hne
        have he : e ≠ .epipe := by
          rintro rfl
          exact hne rfl
        simp [Answer.next, he] at hnext

/-- A `send` to a client that has gone terminates the server. -/
theorem terminated_of_gone {r : Send} (h : Step w (.answer (.send r)) w')
    (hgone : w.gone = true) : w'.server.pc = .terminated := by
  cases h with
  | answer ha hs =>
    obtain rfl : r = .error .epipe := ha.mpr hgone
    rw [step_pc hs]
    simp [Answer.next]

/-- The echo loop is entered by a successful `accept` only. -/
theorem serving_of_step (h : Step w e w') (hw' : Serving w') :
    Serving w ∨ ∃ client, e = .answer (.accept (.ok client)) := by
  rcases step_cases h with ⟨-, hs⟩ | ⟨a, rfl, hs, -⟩
  · exact Or.inl (by simpa [Serving, hs] using hw')
  · cases a with
    | accept r =>
      cases r with
      | ok client => exact Or.inr ⟨client, rfl⟩
      | error e => exact (hw'.1 (step_pc hs)).elim
    | recv r =>
      have hpc := (step_recv hs).1
      exact Or.inl (by simp [Serving, hpc])
    | send r =>
      obtain ⟨n, hpc, -⟩ := step_send hs
      exact Or.inl (by simp [Serving, hpc])

theorem serving_of_accept {client : Peer} (h : Step w (.answer (.accept (.ok client))) w') :
    Serving w' := by
  cases h with
  | answer _ hs => simp [Serving, step_pc hs, Answer.next]

/-- It is left only by an answer that ends it. -/
theorem serving_step (h : Step w e w') (hw : Serving w) :
    Serving w' ∨ ∃ a, e = .answer a ∧ Ends a := by
  rcases step_cases h with ⟨-, hs⟩ | ⟨a, rfl, hs, -⟩
  · exact Or.inl (by simpa [Serving, hs] using hw)
  · have hnext := step_pc hs
    cases a with
    | accept r => exact (hw.1 (step_accept hs).1).elim
    | recv r =>
      cases r with
      | data c => exact Or.inl (by simp [Serving, hnext, Answer.next])
      | eof | error => exact Or.inr ⟨_, rfl, trivial⟩
    | send r =>
      cases r with
      | ok k => exact Or.inl (by simp [Serving, hnext, Answer.next])
      | error e => exact Or.inr ⟨_, rfl, trivial⟩

theorem accept_of_ends {a : Answer} (h : Step w (.answer a) w') (ha : Ends a)
    (hw' : w'.server.pc ≠ .terminated) : w'.server.pc = .accept := by
  cases h with
  | answer _ hs =>
    have hnext := step_pc hs
    cases a with
    | accept r => exact ha.elim
    | recv r =>
      cases r with
      | data c => exact ha.elim
      | eof | error => exact hnext
    | send r =>
      cases r with
      | ok k => exact ha.elim
      | error e => by_cases he : e = .epipe <;> simp_all [Answer.next]

/-! ### Whole runs -/

/-- While nothing ends the connection the server goes on serving it. -/
theorem serving_of_not_ends (h : system.Valid E) {m n : ℕ} (hmn : m ≤ n)
    (hm : Serving (E.state m))
    (hn : ∀ k a, m ≤ k → k < n → E.event k = some (.answer a) → ¬ Ends a) :
    Serving (E.state n) := by
  induction n, hmn using Nat.le_induction with
  | base => exact hm
  | succ n hmn ih =>
    have hs := ih fun k a hmk hkn => hn k a hmk (by omega)
    cases he : E.event n with
    | none => simpa [h.of_none he] using hs
    | some e =>
      rcases serving_step (h.of_some he) hs with hs' | ⟨a, rfl, ha⟩
      · exact hs'
      · exact (hn n a hmn (by omega) he ha).elim

/-- A server in its echo loop came there by an `accept`, and stayed. -/
theorem exists_accept (h : system.Valid E) {n : ℕ} (hn : Serving (E.state n)) :
    ∃ k client, k < n ∧ E.event k = some (.answer (.accept (.ok client))) ∧
      ∀ j, k < j → j ≤ n → Serving (E.state j) := by
  induction n with
  | zero => exact (hn.1 h.1.1).elim
  | succ n ih =>
    by_cases hs : Serving (E.state n)
    · obtain ⟨k, client, hkn, he, hall⟩ := ih hs
      refine ⟨k, client, by omega, he, ?_⟩
      intro j hkj hjn
      rcases Nat.le_succ_iff.mp hjn with hj | rfl
      · exact hall j hkj hj
      · exact hn
    · cases he : E.event n with
      | none =>
        rw [h.of_none he] at hn
        exact (hs hn).elim
      | some e =>
        rcases serving_of_step (h.of_some he) hn with hs' | ⟨client, rfl⟩
        · exact (hs hs').elim
        · refine ⟨n, client, by omega, he, ?_⟩
          intro j hj hjn
          obtain rfl : j = n + 1 := by omega
          exact hn

theorem not_terminated (h : system.Valid E)
    (hheard : ∀ n r, E.event n = some (.answer (.send r)) → (E.state n).gone = false) (n : ℕ) :
    (E.state n).server.pc ≠ .terminated := by
  induction n with
  | zero => simp [h.1.1]
  | succ n ih =>
    cases he : E.event n with
    | none => simpa [h.of_none he] using ih
    | some e =>
      intro hterm
      obtain ⟨⟨r, rfl⟩, hgone⟩ := terminated_step (h.of_some he) ih hterm
      simp [hheard n r he] at hgone

/-- For every sequence of clients and every order of their steps and the server's. -/
theorem survives_iff (h : system.Valid E) : Survives E ↔ Orderly E := by
  constructor
  · rintro ⟨hlive, hback⟩
    refine ⟨?_, ?_⟩
    · intro n r he
      by_contra hgone
      exact hlive (n + 1) (terminated_of_gone (h.of_some he) (by simpa using hgone))
    · intro n client he
      have hserving := serving_of_accept (h.of_some he)
      obtain ⟨m, hm, hpc⟩ := hback (n + 1)
      by_contra hnone
      push Not at hnone
      have hm' := serving_of_not_ends h hm hserving fun k a hk _ => hnone k a (by omega)
      exact hm'.1 hpc
  · intro hE
    have hlive := not_terminated h hE.heard
    refine ⟨hlive, ?_⟩
    intro n
    by_cases hn : (E.state n).server.pc = .accept
    · exact ⟨n, le_rfl, hn⟩
    · obtain ⟨k, client, hkn, he, hall⟩ := exists_accept h ⟨hn, hlive n⟩
      obtain ⟨m, a, hkm, hem, ha⟩ := hE.ended k client he
      have hpc := accept_of_ends (h.of_some hem) ha (hlive (m + 1))
      refine ⟨m + 1, ?_, hpc⟩
      by_contra hlt
      exact (hall (m + 1) (by omega) (by omega)).1 hpc

/-- At the first call of `accept`, with an array of NULs. -/
def listening : State := ⟨.accept, .zero _, ⟨"", 0⟩, [], [], []⟩

/-- A client that sends one byte, gets its echo and closes. -/
theorem survives_echoed_client :
    ∃ E, system.Valid E ∧ E.event 2 = some (.answer (.send (.ok 1))) ∧ Survives E := by
  have hi : system.initial ⟨listening, false⟩ := ⟨rfl, rfl⟩
  let xs : List Event := [.answer (.accept (.ok ⟨"127.0.0.1", 40000⟩)),
    .answer (.recv (.data ⟨[97], by decide, by decide⟩)), .answer (.send (.ok 1)), .depart,
    .answer (.recv .eof)]
  have htrace : ∃ w, system.Trace ⟨listening, false⟩ xs w :=
    ⟨_, .stepL (.answer trivial rfl) (.stepL (.answer trivial rfl) (.stepL
      (.answer (by simp [Provoked, goneAfter]) rfl) (.stepL .depart
        (.stepL (.answer trivial rfl) .refl))))⟩
  obtain ⟨w, hw⟩ := htrace
  obtain ⟨E, hE, hzero, hev, -⟩ := hw.exists_padding hi
  refine ⟨E, hE, by simp [hev, xs], (survives_iff hE).mpr ⟨?_, ?_⟩⟩
  · intro n r he
    -- The only `send` is the third call, and the client is still there.
    obtain rfl : n = 2 := by
      rcases n with _ | _ | _ | _ | _ | n <;> simp [hev, xs] at he ⊢
    have h0 : Step (E.state 0) xs[0] (E.state 1) := hE.of_some (hev 0)
    have h1 : Step (E.state 1) xs[1] (E.state 2) := hE.of_some (hev 1)
    exact gone_step h1 (by simp [xs]) (gone_step h0 (by simp [xs]) (by rw [hzero]))
  · intro n client he
    obtain rfl : n = 0 := by
      rcases n with _ | _ | _ | _ | _ | n <;> simp [hev, xs] at he ⊢
    exact ⟨4, .recv .eof, by decide, by simp [hev, xs], trivial⟩

/-- A client that sends one byte, closes and then resets the connection, all before the
server's `send`. -/
theorem stopped_by_reset :
    ∃ E, system.Valid E ∧ (E.state 4).server.pc = .terminated ∧ ¬ Survives E := by
  have hi : system.initial ⟨listening, false⟩ := ⟨rfl, rfl⟩
  let xs : List Event := [.answer (.accept (.ok ⟨"127.0.0.1", 40000⟩)),
    .answer (.recv (.data ⟨[97], by decide, by decide⟩)), .depart,
    .answer (.send (.error .epipe))]
  have htrace : ∃ w, system.Trace ⟨listening, false⟩ xs w ∧ w.server.pc = .terminated :=
    ⟨_, .stepL (.answer trivial rfl) (.stepL (.answer trivial rfl) (.stepL .depart
      (.stepL (.answer (by simp [Provoked]) rfl) .refl))), rfl⟩
  obtain ⟨w, hw, hpc⟩ := htrace
  obtain ⟨E, hE, -, -, hlast⟩ := hw.exists_padding hi
  have h4 : (E.state 4).server.pc = .terminated := by rw [hlast 4 (by simp [xs]), hpc]
  exact ⟨E, hE, h4, fun hs => hs.1 4 h4⟩

end SystemCalls.TcpServer

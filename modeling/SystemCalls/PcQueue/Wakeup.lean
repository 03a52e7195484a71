import SystemCalls.PcQueue.Fifo
import Mathlib.Tactic.DeriveFintype
import Mathlib.Data.Fintype.Sum
import Mathlib.Algebra.BigOperators.Group.Finset.Basic
import Mathlib.Algebra.Order.BigOperators.Group.Finset

/-!
# The producer/consumer program loses no wakeup

One `producer`, any number of `consumer` threads. `queue_push` and `queue_pop` signal
one sleeper each, so the argument counts: while a consumer sleeps on `not_empty`,
every value in the ring is covered by a consumer already on its way to it or by a
signal about to be sent.
-/

namespace SystemCalls.PcQueue

open Monitor RingBuffer

/-- Places in `producer` and `consumer` between their calls. -/
inductive Place
  /-- The loop test of `producer`. -/
  | produce (i : ℤ)
  | returned
  /-- The call of `queue_pop` at the top of the loop of `consumer`. -/
  | consume
  | print (val : ℤ)
  | finished

/-- `if (!queue_pop(q, &val)) break;` -/
def popped : Option ℤ → Place
  | some val => .print val
  | none => .finished

def producerConsumer (items : ℤ) : Place → Call Place
  | .produce i => if i ≤ items then .push i (.produce (i + 1)) else .shutdown .returned
  | .returned => .exit
  | .consume => .pop popped
  | .print _ => .skip .consume
  | .finished => .exit

inductive Thread (n : ℕ)
  | prod
  | cons (i : Fin n)
  deriving DecidableEq, Fintype

def Thread.start {n : ℕ} : Thread n → Place
  | .prod => .produce 1
  | .cons _ => .consume

/-- `main` with `n` consumers in place of one. -/
def program (cap items : ℤ) (n : ℕ) (buf : ℤ → ℤ) :
    LTS (State (Thread n) Queue Cond (PC Place)) (Act (Thread n)) :=
  system cap (producerConsumer items) buf Thread.start

/-- Where `producer` can be, and what `shutdown` is there. -/
def producerAt : PC Place → Bool → Prop
  | .caller (.produce _), down => down = false
  | .caller .returned, down => down = true
  | .pushLock _ k, down | .pushTest _ k, down | .pushWait _ k, down | .pushCheck _ k, down
  | .pushStore _ k, down | .pushTail k, down | .pushCount k, down | .pushSignal k, down
  | .pushUnlock k, down => (∃ i, k = .produce i) ∧ down = false
  | .downLock k, down | .downSet k, down => k = .returned ∧ down = false
  | .downNotEmpty k, down | .downNotFull k, down | .downUnlock k, down =>
      k = .returned ∧ down = true
  | _, _ => False

/-- Where a `consumer` can be; it has seen `shutdown` where it is about to finish. -/
def consumerAt : PC Place → Bool → Prop
  | .caller .consume, _ | .caller (.print _), _ => True
  | .caller .finished, down => down = true
  | .popLock k, _ | .popTest k, _ | .popWait k, _ | .popCheck k, _ | .popRead k, _
  | .popHead _ k, _ | .popCount _ k, _ | .popSignal _ k, _ | .popUnlock _ k, _ => k = popped
  | .popEmpty k, down => k = popped ∧ down = true
  | _, _ => False

def role {n : ℕ} : Thread n → PC Place → Bool → Prop
  | .prod => producerAt
  | .cons _ => consumerAt

variable {cap items : ℤ} {n : ℕ} {buf : ℤ → ℤ} {t u : Thread n} {p : PC Place}

theorem consumerAt_down {down : Bool} (h : consumerAt p down) : consumerAt p true := by
  cases p with
  | caller k => cases k <;> simp_all [consumerAt]
  | _ => simp_all [consumerAt]

theorem producerAt_act {f : Queue → Queue × PC Place} {q : Queue}
    (hc : code cap (producerConsumer items) p = .act f)
    (h : producerAt p q.shutdown) : producerAt (f q).2 (f q).1.shutdown := by
  cases p with
  | caller k =>
    cases k with
    | produce i =>
      by_cases hi : i ≤ items <;>
        simp only [code, producerConsumer, hi, if_true, if_false, Call.entry,
          Stmt.act.injEq] at hc <;> subst hc <;> simpa [producerAt] using h
    | _ => simp_all [producerAt, code, producerConsumer, Call.entry]
  | pushTest val k =>
    simp only [code, Stmt.act.injEq] at hc
    subst hc
    dsimp only
    split <;> exact h
  | pushCheck val k =>
    simp only [code, Stmt.act.injEq] at hc
    subst hc
    simpa [h.2, producerAt] using h
  | downSet k =>
    simp only [code, Stmt.act.injEq] at hc
    subst hc
    exact ⟨h.1, rfl⟩
  | pushStore | pushTail | pushCount =>
    simp only [code, Stmt.act.injEq] at hc
    subst hc
    exact h
  | _ => first | exact h.elim | simp [code] at hc

theorem consumerAt_act {f : Queue → Queue × PC Place} {q : Queue}
    (hc : code cap (producerConsumer items) p = .act f)
    (h : consumerAt p q.shutdown) :
    consumerAt (f q).2 (f q).1.shutdown ∧ (f q).1.shutdown = q.shutdown := by
  cases p with
  | caller k =>
    cases k with
    | consume | print =>
      simp only [code, producerConsumer, Call.entry, Stmt.act.injEq] at hc
      subst hc
      simp [consumerAt]
    | _ => simp_all [consumerAt, code, producerConsumer, Call.entry]
  | popTest k =>
    simp only [code, Stmt.act.injEq] at hc
    subst hc
    refine ⟨?_, rfl⟩
    dsimp only
    split <;> exact h
  | popCheck k =>
    simp only [code, Stmt.act.injEq] at hc
    subst hc
    refine ⟨?_, rfl⟩
    dsimp only
    split
    · rename_i hz
      exact ⟨h, hz.2⟩
    · exact h
  | popRead | popHead | popCount =>
    simp only [code, Stmt.act.injEq] at hc
    subst hc
    exact ⟨h, rfl⟩
  | _ => first | exact h.elim | simp [code] at hc

/-- Outside `downSet` no statement changes `shutdown`. -/
theorem act_shutdown {f : Queue → Queue × PC Place} {q : Queue}
    (hc : code cap (producerConsumer items) p = .act f) (hp : ∀ k, p ≠ .downSet k) :
    (f q).1.shutdown = q.shutdown := by
  cases p with
  | caller k => rw [(entry_act hc q).1]
  | downSet k => exact (hp k rfl).elim
  | _ =>
    simp only [code, Stmt.act.injEq, reduceCtorEq] at hc <;>
      subst hc <;> rfl

theorem role_act {f : Queue → Queue × PC Place} {q : Queue}
    (hc : code cap (producerConsumer items) p = .act f) (h : role t p q.shutdown) :
    role t (f q).2 (f q).1.shutdown := by
  cases t with
  | prod => exact producerAt_act hc h
  | cons i => exact (consumerAt_act hc h).1

/-- Statements other than data statements keep a thread in its role. -/
theorem role_next {down : Bool} {m : PC Place} (h : role t p down)
    (hc : (code cap (producerConsumer items) p).next = some m) : role t m down := by
  cases p with
  | caller k =>
    rcases code_caller cap (producerConsumer items) k with ⟨f, hf⟩ | hf <;>
      simp [hf, Stmt.next] at hc
  | popEmpty k =>
    cases t with
    | prod => exact h.elim
    | cons i =>
      obtain ⟨rfl, rfl⟩ := h
      obtain rfl := Option.some.inj hc
      rfl
  | popUnlock out k =>
    cases t with
    | prod => exact h.elim
    | cons i =>
      obtain rfl : k = popped := h
      obtain rfl := Option.some.inj hc
      trivial
  | pushUnlock k =>
    cases t with
    | cons i => exact h.elim
    | prod =>
      obtain ⟨⟨i, rfl⟩, rfl⟩ := h
      obtain rfl := Option.some.inj hc
      rfl
  | downUnlock k =>
    cases t with
    | cons i => exact h.elim
    | prod =>
      obtain ⟨rfl, rfl⟩ := h
      obtain rfl := Option.some.inj hc
      rfl
  | pushReturn k => cases t <;> exact h.elim
  | pushTest | pushCheck | pushStore | pushTail | pushCount | popTest | popCheck | popRead
  | popHead | popCount | downSet => simp [code, Stmt.next] at hc
  | _ =>
    obtain rfl := Option.some.inj hc
    cases t <;> exact h

theorem role_outline (cap items : ℤ) :
    Outline (T := Thread n) (code cap (producerConsumer items)) held (fun _ _ => True)
      (fun _ => True) (fun t p q => role t p q.shutdown)
      (fun t p q => role t p q.shutdown) where
  act hc _ h := role_act hc h
  skip := by
    intro t p f q hc hp h
    have hr := role_act hc h
    rwa [(discipline cap (producerConsumer items)).frame hc hp] at hr
  stable := by
    intro t u p r f q hc _ hne hA hQ
    by_cases hp : ∃ k, p = .downSet k
    · obtain ⟨k, rfl⟩ := hp
      simp only [code, Stmt.act.injEq] at hc
      subst hc
      -- Only the producer sets `shutdown`, so the other thread is a consumer.
      cases t with
      | cons i => exact hA.elim
      | prod =>
        cases u with
        | prod => exact (hne rfl).elim
        | cons j => exact consumerAt_down hQ
    · rwa [act_shutdown hc fun k hk => hp ⟨k, hk⟩]
  lock hc _ h _ := role_next h (by rw [hc]; rfl)
  unlock hc h := ⟨trivial, role_next h (by rw [hc]; rfl)⟩
  wait hc h := ⟨trivial, role_next h (by rw [hc]; rfl)⟩
  resume _ h _ := h
  signal := by
    intro t p c m q hc
    have hn : role t p q.shutdown → role t m q.shutdown := by
      intro h
      rcases hc with hc | hc
      · exact role_next h (by rw [hc]; rfl)
      · exact role_next h (by rw [hc]; rfl)
    exact ⟨fun _ => hn, fun _ => hn⟩

variable {s s' : State (Thread n) Queue Cond (PC Place)} {a : Act (Thread n)}

theorem role_reachable (h : (program cap items n buf).Reachable s) (t : Thread n) :
    role t (s.thread t).pc s.shared.shutdown := by
  have hstart : ∀ t : Thread n, role t (.caller t.start) false := by
    intro t
    cases t <;> simp [role, producerAt, consumerAt, Thread.start]
  have hh := holds_reachable (discipline cap (producerConsumer items)) (role_outline cap items)
    (start_not_held Thread.start) trivial hstart h
  by_cases ht : (s.thread t).Active held
  · exact hh.active t ht
  · exact hh.passive t ht

/-- A thread asleep on `not_empty` is in the loop of `queue_pop`. -/
theorem asleep_notEmpty (he : Exclusive (code cap (producerConsumer items)) held s)
    (ht : s.thread t = .asleep .notEmpty p) : ∃ k, p = .popTest k := by
  have hw := he.waited t
  rw [ht] at hw
  obtain ⟨q, hq⟩ := hw
  rcases wait_cases hq with ⟨k, -, -, rfl⟩ | ⟨_, _, -, hc, -⟩
  · exact ⟨k, rfl⟩
  · cases hc

theorem asleep_notFull (he : Exclusive (code cap (producerConsumer items)) held s)
    (ht : s.thread t = .asleep .notFull p) : ∃ val k, p = .pushTest val k := by
  have hw := he.waited t
  rw [ht] at hw
  obtain ⟨q, hq⟩ := hw
  rcases wait_cases hq with ⟨_, -, hc, -⟩ | ⟨val, k, -, -, rfl⟩
  · cases hc
  · exact ⟨val, k, rfl⟩

/-- A consumer that will take a value if it finds one, or a signal on `not_empty`
about to be sent. -/
def weight : Status Cond (PC Place) → ℤ
  | .run (.popTest _) | .run (.popCheck _) | .run (.popRead _) | .run (.popHead _ _)
  | .run (.popCount _ _) | .run (.pushSignal _) | .woken (.popTest _) => 1
  | _ => 0

theorem weight_nonneg (x : Status Cond (PC Place)) : 0 ≤ weight x := by
  unfold weight
  split <;> decide

theorem sum_weight_nonneg (s : State (Thread n) Queue Cond (PC Place)) :
    0 ≤ ∑ t, weight (s.thread t) :=
  Finset.sum_nonneg fun t _ => weight_nonneg (s.thread t)

/-- While a consumer sleeps on `not_empty`, every value is covered. -/
def Covered (s : State (Thread n) Queue Cond (PC Place)) : Prop :=
  ∀ t p, s.thread t = .asleep .notEmpty p → s.shared.count ≤ ∑ u, weight (s.thread u)

/-- A data statement keeps the balance of values and weight, or leaves no value. -/
theorem weight_act {f : Queue → Queue × PC Place} {q : Queue}
    (hc : code cap (producerConsumer items) p = .act f) :
    (f q).1.count - weight (.run (f q).2) ≤ q.count - weight (.run p) ∨
      (f q).1.count ≤ 0 := by
  cases p with
  | caller k =>
    have hq := (entry_act hc q).1
    left
    rw [hq]
    cases hk : producerConsumer items k <;> simp only [code, hk, Call.entry, Stmt.act.injEq,
      reduceCtorEq] at hc <;> subst hc <;> simp [weight]
  | popTest k | popCheck k =>
    simp only [code, Stmt.act.injEq] at hc
    subst hc
    dsimp only
    split
    · rename_i hz
      exact Or.inr hz.1.le
    · simp [weight]
  | pushTest val k | pushCheck val k =>
    simp only [code, Stmt.act.injEq] at hc
    subst hc
    dsimp only
    split <;> simp [weight]
  | pushCount k | popCount out k =>
    simp only [code, Stmt.act.injEq] at hc
    subst hc
    simp [weight, Queue.incCount, Queue.decCount]
  | pushStore | pushTail | popRead | popHead | downSet =>
    simp only [code, Stmt.act.injEq] at hc
    subst hc
    exact Or.inl le_rfl
  | _ => simp [code] at hc

theorem weight_next {m : PC Place} (hc : (code cap (producerConsumer items) p).next = some m)
    (hp : ∀ k, p ≠ .pushSignal k) : weight (.run p) ≤ weight (.run m) := by
  cases p with
  | caller k =>
    rcases code_caller cap (producerConsumer items) k with ⟨f, hf⟩ | hf <;>
      simp [hf, Stmt.next] at hc
  | pushTest | pushCheck | pushStore | pushTail | pushCount | popTest | popCheck | popRead
  | popHead | popCount | downSet => simp [code, Stmt.next] at hc
  | pushSignal k => exact (hp k rfl).elim
  | _ => exact weight_nonneg _

/-- Another thread's step can only add to a thread's weight. -/
theorem weight_other (h : Step (code cap (producerConsumer items)) s a s') (hu : u ≠ a.actor) :
    weight (s.thread u) ≤ weight (s'.thread u) := by
  rcases step_other h hu with he | ⟨c, p, hp, _⟩
  · rw [he]
  · rw [hp]
    exact weight_nonneg _

theorem sum_weight_step (h : Step (code cap (producerConsumer items)) s a s') :
    ∑ u, weight (s.thread u) - weight (s.thread a.actor) + weight (s'.thread a.actor) ≤
      ∑ u, weight (s'.thread u) := by
  have hrest : ∑ u ∈ Finset.univ.erase a.actor, weight (s.thread u) ≤
      ∑ u ∈ Finset.univ.erase a.actor, weight (s'.thread u) := by
    apply Finset.sum_le_sum
    intro u hu
    exact weight_other h (Finset.ne_of_mem_erase hu)
  rw [← Finset.add_sum_erase _ _ (Finset.mem_univ a.actor),
    ← Finset.add_sum_erase _ (fun u => weight (s'.thread u)) (Finset.mem_univ a.actor)]
  omega

/-- A consumer that goes to sleep on `not_empty` has just found the ring empty. -/
theorem count_of_wait (hcap : 1 ≤ cap) (hr : (program cap items n buf).Reachable s)
    {q : PC Place} (ht : s.thread t = .run q)
    (hc : code cap (producerConsumer items) q = .wait .notEmpty p) :
    s.shared.count = 0 ∧ s.shared.shutdown = false := by
  rcases wait_cases hc with ⟨k, rfl, -, -⟩ | ⟨_, _, -, hne, -⟩
  · exact (assertion_of_run hcap hr ht trivial).2
  · cases hne

theorem shared_of_wait {c : Cond} {q : PC Place}
    (h : Step (code cap (producerConsumer items)) s (.run t) s') (ht : s.thread t = .run q)
    (hc : code cap (producerConsumer items) q = .wait c p) : s'.shared = s.shared := by
  rcases step_shared (discipline cap (producerConsumer items)) h with
    hs | ⟨u, r, f, ha, hu, _, hf, _⟩
  · exact hs
  · cases ha
    rw [ht] at hu
    cases hu
    rw [hc] at hf
    cases hf

theorem covered_step (hcap : 1 ≤ cap) (hr : (program cap items n buf).Reachable s)
    (h : Step (code cap (producerConsumer items)) s a s') (hs : Covered s) : Covered s' := by
  intro t p ht
  rcases asleep_step h ht with hold | ⟨q, rfl, hq, hw⟩
  · have hle := hs t p hold
    have hsum := sum_weight_step h
    cases h with
    | @act v q f hv hc =>
      simp only [Act.actor, hv, set_thread_self] at hsum
      change (f s.shared).1.count ≤ _
      rcases weight_act (q := s.shared) hc with hb | hz
      · exact le_trans (by omega) hsum
      · exact hz.trans (sum_weight_nonneg _)
    | @lock v q m hv hc _ | @unlock v q m hv hc _ | @broadcast v q m c hv hc =>
      have hn := weight_next (m := m) (by rw [hc]; rfl) (by rintro k rfl; simp [code] at hc)
      simp only [Act.actor, hv, set_thread_self] at hsum
      change s.shared.count ≤ _
      exact le_trans (by omega) hsum
    | @wait v q m c hv hc _ =>
      have hz : weight (.run q) = 0 := by
        rcases wait_cases hc with ⟨k, rfl, -, -⟩ | ⟨val, k, rfl, -, -⟩ <;> rfl
      simp only [Act.actor, hv, set_thread_self, hz] at hsum
      change s.shared.count ≤ _
      exact le_trans (by have := weight_nonneg (.asleep c m); omega) hsum
    | @reacquire v q hv _ =>
      have hn : weight (.woken q) ≤ weight (.run q) := by
        cases q <;> simp [weight]
      simp only [Act.actor, hv, set_thread_self] at hsum
      change s.shared.count ≤ _
      exact le_trans (by omega) hsum
    | @signal v w q m r c hv hc hw =>
      have hvw : v ≠ w := by
        rintro rfl
        simp [hv] at hw
      change s.shared.count ≤ _
      -- The woken consumer takes over the weight of the signal.
      have hmove : weight (.run q) ≤ weight (.run m) + weight (.woken r) := by
        by_cases hq : ∃ k, q = .pushSignal k
        · obtain ⟨k, rfl⟩ := hq
          simp only [code, Stmt.signal.injEq] at hc
          obtain ⟨rfl, rfl⟩ := hc
          obtain ⟨k', rfl⟩ := asleep_notEmpty (exclusive hr) hw
          simp [weight]
        · have hn := weight_next (m := m) (by rw [hc]; rfl) fun k hk => hq ⟨k, hk⟩
          have := weight_nonneg (.woken r)
          omega
      rw [sum_set, sum_set, set_thread_ne hvw, hv, hw]
      have hz : weight (.asleep c r) = 0 := rfl
      omega
    | @signalNone v q m c hv hc hn =>
      have hq : ∀ k, q ≠ .pushSignal k := by
        rintro k rfl
        simp only [code, Stmt.signal.injEq] at hc
        exact hn t p (hc.1 ▸ hold)
      have hn := weight_next (m := m) (by rw [hc]; rfl) hq
      simp only [Act.actor, hv, set_thread_self] at hsum
      change s.shared.count ≤ _
      exact le_trans (by omega) hsum
    | @spurious v q c hv =>
      have hz : weight (.asleep c q) = 0 := rfl
      have := weight_nonneg (.woken q)
      simp only [Act.actor, hv, set_thread_self, hz] at hsum
      change s.shared.count ≤ _
      exact le_trans (by omega) hsum
  · rw [shared_of_wait h hq hw, (count_of_wait hcap hr hq hw).1]
    exact sum_weight_nonneg s'

theorem covered_reachable (hcap : 1 ≤ cap) (h : (program cap items n buf).Reachable s) :
    Covered s := by
  apply h.invariant_of_reachable
  · rintro s₀ rfl t p ht
    simp at ht
  · intro s a s' hr hst hs
    exact covered_step hcap hr hst hs

/-- Only the producer sleeps on `not_full`. -/
theorem prod_of_asleep_notFull (hr : (program cap items n buf).Reachable s)
    (ht : s.thread t = .asleep .notFull p) : t = .prod ∧ s.shared.shutdown = false := by
  have hrole := role_reachable hr t
  obtain ⟨val, k, rfl⟩ := asleep_notFull (exclusive hr) ht
  rw [ht] at hrole
  cases t with
  | prod => exact ⟨rfl, hrole.2⟩
  | cons i => exact hrole.elim

theorem act_count {f : Queue → Queue × PC Place} {q : Queue}
    (hc : code cap (producerConsumer items) p = .act f) :
    (f q).1.count = q.count ∨ (∃ k, p = .pushCount k) ∨
      ∃ out k, (f q).2 = .popSignal out k := by
  cases p with
  | caller k => rw [(entry_act hc q).1]; exact Or.inl rfl
  | pushCount k => exact Or.inr (Or.inl ⟨k, rfl⟩)
  | popCount out k =>
    simp only [code, Stmt.act.injEq] at hc
    subst hc
    exact Or.inr (Or.inr ⟨out, k, rfl⟩)
  | _ =>
    simp only [code, Stmt.act.injEq, reduceCtorEq] at hc <;> subst hc <;> exact Or.inl rfl

/-- While the producer sleeps the ring is full, or a signal is on its way to it. -/
def Full (cap : ℤ) (s : State (Thread n) Queue Cond (PC Place)) : Prop :=
  ∀ t p, s.thread t = .asleep .notFull p →
    s.shared.count = cap ∨ ∃ u out k, s.thread u = .run (.popSignal out k)

theorem full_act (hr : (program cap items n buf).Reachable s)
    (h : Step (code cap (producerConsumer items)) s a s')
    (ht : s.thread t = .asleep .notFull p) (hcount : s.shared.count = cap) :
    s'.shared.count = cap ∨ ∃ u out k, s'.thread u = .run (.popSignal out k) := by
  cases h with
  | @act v q f hv hc =>
    rcases act_count (q := s.shared) hc with he | ⟨k, rfl⟩ | ⟨out, k, hk⟩
    · exact Or.inl (he.trans hcount)
    · -- The producer sleeps, so it is not the one that counts up.
      have hrole := role_reachable hr v
      rw [hv] at hrole
      obtain ⟨rfl, _⟩ := prod_of_asleep_notFull hr ht
      cases v with
      | prod => simp [hv] at ht
      | cons i => exact hrole.elim
    · exact Or.inr ⟨v, out, k, by simp [hk]⟩
  | lock | unlock | wait | reacquire | signal | signalNone | broadcast | spurious =>
    exact Or.inl hcount

theorem full_signal (hr : (program cap items n buf).Reachable s)
    (h : Step (code cap (producerConsumer items)) s a s')
    (ht : s.thread t = .asleep .notFull p) (ht' : s'.thread t = .asleep .notFull p)
    {out : ℤ} {k : Option ℤ → Place} (hu : s.thread u = .run (.popSignal out k)) :
    s'.thread u = .run (.popSignal out k) := by
  by_cases ha : u = a.actor
  · subst ha
    cases h with
    | act hv hc | lock hv hc _ | unlock hv hc _ | wait hv hc _ | broadcast hv hc =>
      rw [Act.actor, hv] at hu
      cases hu
      simp [code] at hc
    | reacquire hv _ | spurious hv => simp [Act.actor, hv] at hu
    | @signal v w q m r c hv hc hw =>
      rw [Act.actor, hv] at hu
      cases hu
      simp only [code, Stmt.signal.injEq] at hc
      obtain ⟨rfl, rfl⟩ := hc
      have htw : t = w := by
        rw [(prod_of_asleep_notFull hr ht).1, (prod_of_asleep_notFull hr hw).1]
      subst htw
      have htv : t ≠ v := by
        rintro rfl
        simp [ht] at hv
      simp [htv] at ht'
    | @signalNone v q m c hv hc hn =>
      rw [Act.actor, hv] at hu
      cases hu
      simp only [code, Stmt.signal.injEq] at hc
      exact (hn t p (hc.1 ▸ ht)).elim
  · rcases step_other h ha with he | ⟨c, r, hr, _⟩
    · rw [he, hu]
    · simp [hu] at hr

theorem full_step (hcap : 1 ≤ cap) (hr : (program cap items n buf).Reachable s)
    (h : Step (code cap (producerConsumer items)) s a s') (hs : Full cap s) : Full cap s' := by
  intro t p ht
  rcases asleep_step h ht with hold | ⟨q, rfl, hq, hw⟩
  · rcases hs t p hold with hcount | ⟨u, out, k, hu⟩
    · exact full_act hr h hold hcount
    · exact Or.inr ⟨u, out, k, full_signal hr h hold ht hu⟩
  · left
    rw [shared_of_wait h hq hw]
    rcases wait_cases hw with ⟨_, -, hne, -⟩ | ⟨val, k, rfl, -, -⟩
    · cases hne
    · exact (assertion_of_run hcap hr hq trivial).2.1

theorem full_reachable (hcap : 1 ≤ cap) (h : (program cap items n buf).Reachable s) :
    Full cap s := by
  apply h.invariant_of_reachable
  · rintro s₀ rfl t p ht
    simp at ht
  · intro s a s' hr hst hs
    exact full_step hcap hr hst hs

/-- Once `shutdown` is set a thread sleeps on `not_empty` only until the broadcast
that follows in the same critical section. -/
def Announced (s : State (Thread n) Queue Cond (PC Place)) : Prop :=
  s.shared.shutdown = true → ∀ t p, s.thread t = .asleep .notEmpty p →
    ∃ u k, s.thread u = .run (.downNotEmpty k)

theorem announced_broadcast (h : Step (code cap (producerConsumer items)) s a s')
    (ht' : s'.thread t = .asleep .notEmpty p) {k : Place}
    (hu : s.thread u = .run (.downNotEmpty k)) : s'.thread u = .run (.downNotEmpty k) := by
  by_cases ha : u = a.actor
  · subst ha
    cases h with
    | act hv hc | lock hv hc _ | unlock hv hc _ | wait hv hc _ | signal hv hc _
    | signalNone hv hc _ =>
      rw [Act.actor, hv] at hu
      cases hu
      simp [code] at hc
    | reacquire hv _ | spurious hv => simp [Act.actor, hv] at hu
    | @broadcast v q m c hv hc =>
      rw [Act.actor, hv] at hu
      cases hu
      simp only [code, Stmt.broadcast.injEq] at hc
      obtain ⟨rfl, rfl⟩ := hc
      by_cases htv : t = v
      · simp [htv] at ht'
      · rw [set_thread_ne htv] at ht'
        exact (Status.wakeOn_ne_asleep ht').elim
  · rcases step_other h ha with he | ⟨c, r, hr, _⟩
    · rw [he, hu]
    · simp [hu] at hr

theorem announced_step (hcap : 1 ≤ cap) (hr : (program cap items n buf).Reachable s)
    (h : Step (code cap (producerConsumer items)) s a s') (hs : Announced s) : Announced s' := by
  intro hdown t p ht
  rcases asleep_step h ht with hold | ⟨q, rfl, hq, hw⟩
  · by_cases hd : s.shared.shutdown = true
    · obtain ⟨u, k, hu⟩ := hs hd t p hold
      exact ⟨u, k, announced_broadcast h ht hu⟩
    · cases h with
      | @act v q f hv hc =>
        by_cases hq : ∃ k, q = .downSet k
        · obtain ⟨k, rfl⟩ := hq
          simp only [code, Stmt.act.injEq] at hc
          subst hc
          exact ⟨v, k, by simp⟩
        · have he := act_shutdown (q := s.shared) hc fun k hk => hq ⟨k, hk⟩
          exact (hd (he ▸ hdown)).elim
      | lock | unlock | wait | reacquire | signal | signalNone | broadcast | spurious =>
        exact (hd hdown).elim
  · rw [shared_of_wait h hq hw, (count_of_wait hcap hr hq hw).2] at hdown
    simp at hdown

theorem announced_reachable (hcap : 1 ≤ cap) (h : (program cap items n buf).Reachable s) :
    Announced s := by
  apply h.invariant_of_reachable
  · rintro s₀ rfl _ t p ht
    simp at ht
  · intro s a s' hr hst hs
    exact announced_step hcap hr hst hs

/-- Every thread that has not returned sleeps in `pthread_cond_wait`, none of them
woken, and there is such a thread. -/
def Stuck (code : PC Place → Stmt Queue Cond (PC Place))
    (s : State (Thread n) Queue Cond (PC Place)) : Prop :=
  (∀ t, Idle code (s.thread t)) ∧ ∃ t c p, s.thread t = .asleep c p

theorem weight_of_idle {x : Status Cond (PC Place)}
    (h : Idle (code cap (producerConsumer items)) x) : weight x = 0 := by
  cases x with
  | asleep c p => rfl
  | woken p => exact h.elim
  | run p => cases p <;> simp_all [Idle, code, weight]

/-- The program returns only from `producer` and `consumer` themselves. -/
theorem exit_place (h : code cap (producerConsumer items) p = .exit) :
    p = .caller .returned ∨ p = .caller .finished := by
  cases p with
  | caller k =>
    cases k with
    | produce i =>
      by_cases hi : i ≤ items <;> simp [code, producerConsumer, hi, Call.entry] at h
    | returned => exact Or.inl rfl
    | finished => exact Or.inr rfl
    | consume | print => simp [code, producerConsumer, Call.entry] at h
  | _ => simp [code] at h

/-- An idle producer sleeps on a full ring or has announced the shutdown. -/
theorem idle_prod (hcap : 1 ≤ cap) (hr : (program cap items n buf).Reachable s)
    (hidle : ∀ t, Idle (code cap (producerConsumer items)) (s.thread t)) :
    (s.shared.count = cap ∧ s.shared.shutdown = false) ∨
      (s.shared.shutdown = true ∧ ∃ q, s.thread .prod = .run q) := by
  have hrole := role_reachable hr .prod
  have hi := hidle .prod
  cases hx : s.thread .prod with
  | woken q => simp [hx, Idle] at hi
  | run q =>
    rw [hx] at hrole hi
    rcases exit_place hi with rfl | rfl
    · exact Or.inr ⟨hrole, _, rfl⟩
    · exact hrole.elim
  | asleep c q =>
    cases c with
    | notEmpty =>
      obtain ⟨k, rfl⟩ := asleep_notEmpty (exclusive hr) hx
      rw [hx] at hrole
      exact hrole.elim
    | notFull =>
      left
      refine ⟨?_, (prod_of_asleep_notFull hr hx).2⟩
      rcases full_reachable hcap hr .prod q hx with hc | ⟨u, out, k, hu⟩
      · exact hc
      · have := hidle u
        simp [hu, Idle, code] at this

/-- An idle consumer sleeps on `not_empty` or has seen the shutdown. -/
theorem idle_cons (hr : (program cap items n buf).Reachable s) {i : Fin n}
    (hi : Idle (code cap (producerConsumer items)) (s.thread (.cons i))) :
    (∃ q, s.thread (.cons i) = .asleep .notEmpty q) ∨ s.shared.shutdown = true := by
  have hrole := role_reachable hr (.cons i)
  cases hx : s.thread (.cons i) with
  | woken q => simp [hx, Idle] at hi
  | run q =>
    rw [hx] at hrole hi
    rcases exit_place hi with rfl | rfl
    · exact hrole.elim
    · exact Or.inr hrole
  | asleep c q =>
    cases c with
    | notEmpty => exact Or.inl ⟨q, rfl⟩
    | notFull =>
      have := (prod_of_asleep_notFull hr hx).1
      cases this

/-- What the producer has left to push, with `m` values accepted: it pushes `1` to `items`. -/
def numbered (items : ℤ) : PC Place → ℕ → Prop
  | .caller (.produce i), m => (m : ℤ) < i
  | .pushLock val k, m | .pushTest val k, m | .pushWait val k, m | .pushCheck val k, m
  | .pushStore val k, m => k = .produce (val + 1) ∧ val ≤ items ∧ (m : ℤ) < val
  | .pushTail k, m | .pushCount k, m | .pushSignal k, m | .pushUnlock k, m
  | .pushReturn k, m => ∃ i, k = .produce i ∧ (m : ℤ) < i
  | _, _ => True

theorem numbered_act {f : Queue → Queue × PC Place} {q : Queue}
    (hc : code cap (producerConsumer items) p = .act f)
    (h : numbered items p q.pushed.length) :
    numbered items (f q).2 (f q).1.pushed.length := by
  cases p with
  | caller k =>
    cases k with
    | produce i =>
      by_cases hi : i ≤ items <;>
        simp only [code, producerConsumer, hi, if_true, if_false, Call.entry,
          Stmt.act.injEq] at hc <;> subst hc
      · exact ⟨rfl, hi, h⟩
      · trivial
    | consume | print =>
      simp only [code, producerConsumer, Call.entry, Stmt.act.injEq] at hc
      subst hc
      trivial
    | returned | finished => simp [code, producerConsumer, Call.entry] at hc
  | pushTest | popTest | popCheck =>
    simp only [code, Stmt.act.injEq] at hc
    subst hc
    dsimp only
    split <;> exact h
  | pushCheck val k =>
    simp only [code, Stmt.act.injEq] at hc
    subst hc
    dsimp only
    split
    · obtain ⟨rfl, -, hlt⟩ := h
      exact ⟨_, rfl, by omega⟩
    · exact h
  | pushStore val k =>
    simp only [code, Stmt.act.injEq] at hc
    subst hc
    obtain ⟨rfl, -, hlt⟩ := h
    refine ⟨_, rfl, ?_⟩
    simp only [Queue.store, List.length_append, List.length_singleton]
    omega
  | pushTail | pushCount | popRead | popHead | popCount | downSet =>
    simp only [code, Stmt.act.injEq] at hc
    subst hc
    exact h
  | _ => simp [code] at hc

theorem numbered_next {m : PC Place} {k : ℕ}
    (hc : (code cap (producerConsumer items) p).next = some m)
    (hr : ∃ down, producerAt p down) (h : numbered items p k) : numbered items m k := by
  cases p with
  | caller k =>
    rcases code_caller cap (producerConsumer items) k with ⟨f, hf⟩ | hf <;>
      simp [hf, Stmt.next] at hc
  | pushUnlock k | pushReturn k =>
    obtain rfl := Option.some.inj hc
    obtain ⟨i, rfl, hi⟩ := h
    exact hi
  | downUnlock k =>
    obtain rfl := Option.some.inj hc
    obtain ⟨_, rfl, -⟩ := hr
    trivial
  | popEmpty | popUnlock => exact hr.choose_spec.elim
  | pushLock | pushWait | pushSignal | popLock | popWait | popSignal | downLock | downNotEmpty
  | downNotFull =>
    obtain rfl := Option.some.inj hc
    exact h
  | _ => simp [code, Stmt.next] at hc

/-- A consumer accepts nothing. -/
theorem pushed_act {f : Queue → Queue × PC Place} {q : Queue} {down : Bool}
    (hc : code cap (producerConsumer items) p = .act f) (h : consumerAt p down) :
    (f q).1.pushed = q.pushed := by
  cases p with
  | caller k => rw [(entry_act hc q).1]
  | popTest | popCheck | popRead | popHead | popCount =>
    simp only [code, Stmt.act.injEq] at hc
    subst hc
    rfl
  | _ => first | exact h.elim | simp [code] at hc

theorem numbered_step (hr : (program cap items n buf).Reachable s)
    (hst : Step (code cap (producerConsumer items)) s a s')
    (h : numbered items (s.thread .prod).pc s.shared.pushed.length) :
    numbered items (s'.thread .prod).pc s'.shared.pushed.length := by
  have hrole := role_reachable hr a.actor
  by_cases ha : a.actor = .prod
  · rw [ha] at hrole
    cases hst with
    | @act u p f ht hc =>
      obtain rfl : u = .prod := ha
      rw [ht] at h
      simpa [Status.pc] using numbered_act hc h
    | @lock u p m ht hc | @unlock u p m ht hc | @wait u p m c ht hc
    | @signalNone u p m c ht hc | @broadcast u p m c ht hc | @signal u v p m q c ht hc =>
      obtain rfl : u = .prod := ha
      simp only [ht, Status.pc] at h hrole
      have hnext : (code cap (producerConsumer items) p).next = some m := by rw [hc]; rfl
      simpa [Status.pc] using numbered_next hnext ⟨_, hrole⟩ h
    | @reacquire u p ht | @spurious u p c ht =>
      obtain rfl : u = .prod := ha
      rw [ht] at h
      simpa [Status.pc] using h
  · rw [step_other_pc hst (Ne.symm ha)]
    have hsame : s'.shared.pushed = s.shared.pushed := by
      cases hst with
      | @act u p f ht hc =>
        cases u with
        | prod => exact (ha rfl).elim
        | cons i =>
          rw [Act.actor, ht] at hrole
          exact pushed_act hc hrole
      | lock | unlock | wait | reacquire | signal | signalNone | broadcast | spurious => rfl
    rwa [hsame]

theorem numbered_reachable (h : (program cap items n buf).Reachable s) :
    numbered items (s.thread .prod).pc s.shared.pushed.length := by
  apply h.invariant_of_reachable
    (P := fun s => numbered items (s.thread .prod).pc s.shared.pushed.length)
  · rintro _ rfl
    exact Int.zero_lt_one
  · exact fun s a t hr hst hs => numbered_step hr hst hs

/-- With room for all values the producer never finds the ring full. -/
theorem lt_of_asleep_prod (hcap : 1 ≤ cap) (hr : (program cap items n buf).Reachable s)
    (hfree : s.owner = none) {c : Cond} (hx : s.thread .prod = .asleep c p) :
    s.shared.count < items := by
  have hI := (assertions_hold hcap hr).free hfree
  have hnum := numbered_reachable hr
  obtain ⟨q, hq⟩ : ∃ q, code cap (producerConsumer items) q = .wait c p := by
    have hw := (exclusive hr).waited .prod
    rwa [hx] at hw
  have hrole := role_reachable hr .prod
  rw [hx] at hnum hrole
  rcases wait_cases hq with ⟨k, -, -, rfl⟩ | ⟨val, k, -, -, rfl⟩
  · exact hrole.elim
  · obtain ⟨-, hle, hlt⟩ := hnum
    have hlen := congrArg List.length hI.fifo
    rw [List.length_append, length_contents] at hlen
    have hcount := hI.count_nonneg
    omega

theorem not_stuck (hn : 1 ≤ n ∨ items ≤ cap) (hcap : 1 ≤ cap)
    (hr : (program cap items n buf).Reachable s) :
    ¬ Stuck (code cap (producerConsumer items)) s := by
  rintro ⟨hidle, t, c, p, ht⟩
  rcases idle_prod hcap hr hidle with ⟨hcount, hdown⟩ | ⟨hdown, q, hq⟩
  · rcases hn with hn | hroom
    · -- The ring is full, so a consumer asleep on `not_empty` would be covered.
      have hzero : ∑ u, weight (s.thread u) = 0 :=
        Finset.sum_eq_zero fun u _ => weight_of_idle (hidle u)
      rcases idle_cons hr (hidle (.cons ⟨0, hn⟩)) with ⟨q, hq⟩ | hd
      · have := covered_reachable hcap hr _ q hq
        omega
      · simp [hdown] at hd
    · have hfree : s.owner = none := by
        by_contra hsome
        obtain ⟨u, hu⟩ := Option.ne_none_iff_exists'.mp hsome
        have hact := ((exclusive hr).owner u).mp hu
        have hi := hidle u
        cases hx : s.thread u with
        | asleep | woken => simp [hx, Status.Active] at hact
        | run p =>
          rw [hx] at hact hi
          exact (discipline cap (producerConsumer items)).exit hi hact
      cases hx : s.thread .prod with
      | asleep d q =>
        have hlt := lt_of_asleep_prod hcap hr hfree hx
        omega
      | woken q => simpa [hx, Idle] using hidle .prod
      | run q =>
        have hi := hidle .prod
        have hrole := role_reachable hr .prod
        rw [hx] at hi hrole
        rcases exit_place hi with rfl | rfl
        · exact (Bool.false_ne_true (hdown.symm.trans hrole)).elim
        · exact hrole.elim
  · cases c with
    | notFull =>
      rw [(prod_of_asleep_notFull hr ht).1, hq] at ht
      simp at ht
    | notEmpty =>
      obtain ⟨u, k, hu⟩ := announced_reachable hcap hr hdown t p ht
      have := hidle u
      simp [hu, Idle, code] at this

/-- With at least one consumer, or room for all values: no reachable state is stuck; while a
consumer sleeps on `not_empty` with a value in the ring some thread can run; and once `shutdown`
is set no thread sleeps, except before the broadcast in that same critical section. -/
theorem no_lost_wakeup (hn : 1 ≤ n ∨ items ≤ cap) (hcap : 1 ≤ cap)
    (hr : (program cap items n buf).Reachable s) :
    ¬ Stuck (code cap (producerConsumer items)) s ∧
    (∀ t p, s.thread t = .asleep .notEmpty p → 0 < s.shared.count →
      ∃ u s', Step (code cap (producerConsumer items)) s (.run u) s') ∧
    (s.shared.shutdown = true → ∀ t c p, s.thread t = .asleep c p →
      c = .notEmpty ∧ ∃ u k, s.thread u = .run (.downNotEmpty k)) := by
  refine ⟨not_stuck hn hcap hr, ?_, ?_⟩
  · intro t p ht hpos
    have hle := covered_reachable hcap hr t p ht
    obtain ⟨u, hu⟩ : ∃ u, weight (s.thread u) ≠ 0 := by
      by_contra hall
      have hzero : ∑ u, weight (s.thread u) = 0 :=
        Finset.sum_eq_zero fun u _ => by_contra fun hu => hall ⟨u, hu⟩
      omega
    exact exists_run_of_not_idle (discipline cap (producerConsumer items)) (exclusive hr)
      fun hi => hu (weight_of_idle hi)
  · intro hdown t c p ht
    cases c with
    | notEmpty => exact ⟨rfl, announced_reachable hcap hr hdown t p ht⟩
    | notFull =>
      have := (prod_of_asleep_notFull hr ht).2
      simp [hdown] at this

def initialState (n : ℕ) : State (Thread n) Queue Cond (PC Place) :=
  ⟨queueInit fun _ => 0, none, fun t => .run (.caller t.start)⟩

/-- The consumer sleeps, the producer has counted its value and not yet signalled. -/
theorem no_lost_wakeup_before_signal :
    ∃ s, (program 1 1 1 fun _ => 0).Reachable s ∧
      s.thread (.cons 0) = .asleep .notEmpty (.popTest popped) ∧ s.shared.count = 1 ∧
      ¬ Stuck (code 1 (producerConsumer 1)) s ∧
      ∃ u s', Step (code 1 (producerConsumer 1)) s (.run u) s' := by
  obtain ⟨s, hs⟩ : ∃ s, schedule (code 1 (producerConsumer 1)) (fun _ _ => true)
        (initialState 1)
      (List.replicate 4 (.cons 0, none) ++ List.replicate 7 (.prod, none)) = some s := ⟨_, rfl⟩
  have hr : (program 1 1 1 fun _ => 0).Reachable s :=
    reachable_of_free_schedule rfl hs
  have hsleep : s.thread (.cons 0) = .asleep .notEmpty (.popTest popped) := by cases hs; rfl
  have hcount : s.shared.count = 1 := by cases hs; rfl
  have hmain := no_lost_wakeup (.inl (le_refl 1)) (le_refl 1) hr
  exact ⟨s, hr, hsleep, hcount, hmain.1, hmain.2.1 _ _ hsleep (by omega)⟩

/-- With no consumer at all the producer sleeps on a full ring forever; and between
the store to `shutdown` and the broadcast a consumer still sleeps unwoken. -/
theorem stuck_without_consumers :
    (∃ s, (program 1 2 0 fun _ => 0).Reachable s ∧ Stuck (code 1 (producerConsumer 2)) s) ∧
    ∃ s, (program 1 0 1 fun _ => 0).Reachable s ∧ s.shared.shutdown = true ∧
      s.thread (.cons 0) = .asleep .notEmpty (.popTest popped) := by
  constructor
  · obtain ⟨s, hs⟩ : ∃ s, schedule (code 1 (producerConsumer 2)) (fun _ _ => true)
        (initialState 0)
        (List.replicate 13 (.prod, none)) = some s := ⟨_, rfl⟩
    have hsleep : s.thread .prod = .asleep .notFull (.pushTest 2 (.produce 3)) := by
      cases hs; rfl
    refine ⟨s, reachable_of_free_schedule rfl hs, ?_, .prod, _, _, hsleep⟩
    intro t
    cases t with
    | prod => simp [hsleep, Idle]
    | cons i => exact i.elim0
  · obtain ⟨s, hs⟩ : ∃ s, schedule (code 1 (producerConsumer 0)) (fun _ _ => true)
        (initialState 1)
        (List.replicate 4 (.cons 0, none) ++ List.replicate 3 (.prod, none)) = some s :=
      ⟨_, rfl⟩
    exact ⟨s, reachable_of_free_schedule rfl hs, by cases hs; rfl, by cases hs; rfl⟩

end SystemCalls.PcQueue

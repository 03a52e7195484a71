import SystemCalls.PcQueue.Fifo
import SystemCalls.Refinement

/-!
# What the callers of the queue see

FIFO is a statement about the results of `queue_pop`, in the order of their returns, and
about the arguments of the calls of `queue_push` that store. A result is what the caller goes on
with, so the client program is given a note of the call it has just made; the notes are read
off the steps into and out of the queue's code.
-/

namespace SystemCalls.PcQueue

open Monitor RingBuffer

/-- The caller's last call, with its argument or its result. -/
inductive Note
  | other
  | push (val : ℤ)
  | pop (r : Option ℤ)

variable {κ T : Type*}

/-- The client program, with a note at each place. -/
def noted (prog : κ → Call κ) (k : κ × Note) : Call (κ × Note) :=
  match prog k.1 with
  | .push val k' => .push val (k', .push val)
  | .pop k' => .pop fun r => (k' r, .pop r)
  | .shutdown k' => .shutdown (k', .other)
  | .skip k' => .skip (k', .other)
  | .exit => .exit

/-- What a run shows of the queue. -/
inductive Shown
  | accepted (val : ℤ)
  /-- `none` for a return value of 0. -/
  | returned (r : Option ℤ)
  deriving DecidableEq

/-- A caller's argument as it is stored, and a result as the caller gets it. -/
def shown : PC (κ × Note) → PC (κ × Note) → Option Shown
  | .pushStore _ (_, .push val), _ => some (.accepted val)
  | _, .caller (_, .pop r) => some (.returned r)
  | _, _ => none

def observe (s : State T Queue Cond (PC (κ × Note))) (a : Act T)
    (t : State T Queue Cond (PC (κ × Note))) : Option Shown :=
  match s.thread a.actor, t.thread a.actor with
  | .run p, .run m => shown p m
  | _, _ => none

def Shown.value : Shown → Option ℤ
  | accepted _ => none
  | returned r => r

def Shown.argument : Shown → Option ℤ
  | accepted val => some val
  | returned _ => none

/-- The values that `queue_pop` has returned, in order. -/
def returnedValues (ys : List Shown) : List ℤ := ys.filterMap Shown.value

/-- The values that `queue_push` has accepted, in order. -/
def acceptedValues (ys : List Shown) : List ℤ := ys.filterMap Shown.argument

/-- The queue with noted callers and a record of what they have seen. -/
def history [DecidableEq T] (cap : ℤ) (prog : κ → Call κ) (buf : ℤ → ℤ) (start : T → κ) :
    LTS (State T Queue Cond (PC (κ × Note)) × List Shown) (Act T) :=
  (system cap (noted prog) buf fun t => (start t, .other)).recorded observe

/-! ### The notes hinder nothing -/

def PC.map {κ' : Type*} (g : κ' → κ) : PC κ' → PC κ
  | .caller k => .caller (g k)
  | .pushLock val k => .pushLock val (g k)
  | .pushTest val k => .pushTest val (g k)
  | .pushWait val k => .pushWait val (g k)
  | .pushCheck val k => .pushCheck val (g k)
  | .pushReturn k => .pushReturn (g k)
  | .pushStore val k => .pushStore val (g k)
  | .pushTail k => .pushTail (g k)
  | .pushCount k => .pushCount (g k)
  | .pushSignal k => .pushSignal (g k)
  | .pushUnlock k => .pushUnlock (g k)
  | .popLock k => .popLock fun r => g (k r)
  | .popTest k => .popTest fun r => g (k r)
  | .popWait k => .popWait fun r => g (k r)
  | .popCheck k => .popCheck fun r => g (k r)
  | .popEmpty k => .popEmpty fun r => g (k r)
  | .popRead k => .popRead fun r => g (k r)
  | .popHead out k => .popHead out fun r => g (k r)
  | .popCount out k => .popCount out fun r => g (k r)
  | .popSignal out k => .popSignal out fun r => g (k r)
  | .popUnlock out k => .popUnlock out fun r => g (k r)
  | .downLock k => .downLock (g k)
  | .downSet k => .downSet (g k)
  | .downNotEmpty k => .downNotEmpty (g k)
  | .downNotFull k => .downNotFull (g k)
  | .downUnlock k => .downUnlock (g k)

/-- The state without the notes. -/
abbrev forget (s : State T Queue Cond (PC (κ × Note))) : State T Queue Cond (PC κ) :=
  s.map (PC.map Prod.fst)

variable {cap : ℤ} {prog : κ → Call κ} {buf : ℤ → ℤ} {start : T → κ}

theorem code_noted (p : PC (κ × Note)) : (code cap (noted prog) p).map (PC.map Prod.fst) =
    code cap prog (p.map Prod.fst) := by
  cases p with
  | caller k =>
    simp only [code, PC.map, noted]
    cases prog k.1 <;> rfl
  | pushTest | pushCheck | popTest | popCheck =>
    simp only [code, Stmt.map, apply_ite (PC.map Prod.fst)]
    rfl
  | _ => rfl

/-- Every state of the program without notes is met by a run that is recorded. -/
theorem exists_history [DecidableEq T] {s : State T Queue Cond (PC κ)}
    (h : (system cap prog buf start).Reachable s) :
    ∃ s' ys, (history cap prog buf start).Reachable (s', ys) ∧ forget s' = s := by
  obtain ⟨s', hs', rfl⟩ : ∃ s', (system cap (noted prog) buf fun t =>
      (start t, .other)).Reachable s' ∧ forget s' = s := exists_reachable_of_map code_noted h
  obtain ⟨ys, hys⟩ : ∃ ys, (history cap prog buf start).Reachable (s', ys) := hs'.recorded
  exact ⟨s', ys, hys, rfl⟩

/-! ### Notes and results -/

/-- The note that the caller will find is that of the call it is in. -/
def NoteOf : PC (κ × Note) → Prop
  | .caller _ => True
  | .pushLock val k | .pushTest val k | .pushWait val k | .pushCheck val k | .pushStore val k =>
      k.2 = .push val
  | .pushReturn k | .pushTail k | .pushCount k | .pushSignal k | .pushUnlock k =>
      ∃ val, k.2 = .push val
  | .popLock k | .popTest k | .popWait k | .popCheck k | .popEmpty k | .popRead k
  | .popHead _ k | .popCount _ k | .popSignal _ k | .popUnlock _ k => ∀ r, (k r).2 = .pop r
  | .downLock k | .downSet k | .downNotEmpty k | .downNotFull k | .downUnlock k => k.2 = .other

/-- A value that is read and not yet returned. -/
def owed : PC (κ × Note) → List ℤ
  | .popHead out _ | .popCount out _ | .popSignal out _ | .popUnlock out _ => [out]
  | _ => []

variable {p m : PC (κ × Note)} {q : Queue}

theorem noteOf_act {f : Queue → Queue × PC (κ × Note)}
    (hc : code cap (noted prog) p = .act f) (h : NoteOf p) : NoteOf (f q).2 := by
  cases p with
  | caller k =>
    simp only [code, noted] at hc
    cases hk : prog k.1 <;> simp only [hk, Call.entry, Stmt.act.injEq, reduceCtorEq] at hc <;>
      subst hc <;> simp [NoteOf]
  | pushTest | pushCheck | popTest | popCheck =>
    simp only [code, Stmt.act.injEq] at hc
    subst hc
    dsimp only
    split <;> first | exact h | exact ⟨_, h⟩
  | pushStore =>
    simp only [code, Stmt.act.injEq] at hc
    subst hc
    exact ⟨_, h⟩
  | pushTail | pushCount | popRead | popHead | popCount | downSet =>
    simp only [code, Stmt.act.injEq] at hc
    subst hc
    exact h
  | _ => simp [code] at hc

theorem noteOf_next (hc : (code cap (noted prog) p).next = some m) (h : NoteOf p) : NoteOf m := by
  cases p with
  | caller k =>
    rcases code_caller cap (noted prog) k with ⟨f, hf⟩ | hf <;> simp [hf, Stmt.next] at hc
  | pushReturn | pushUnlock | popEmpty | popUnlock | downUnlock =>
    obtain rfl := Option.some.inj hc
    trivial
  | pushLock | pushWait | pushSignal | popLock | popWait | popSignal | downLock | downNotEmpty
  | downNotFull =>
    obtain rfl := Option.some.inj hc
    exact h
  | _ => simp [code, Stmt.next] at hc

theorem noteOf_outline (cap : ℤ) (prog : κ → Call κ) :
    Outline (T := T) (code cap (noted prog)) held (fun _ _ => True) (fun _ => True)
      (fun _ p _ => NoteOf p) (fun _ p _ => NoteOf p) where
  act := fun hc _ h => noteOf_act hc h
  skip := fun hc _ h => noteOf_act hc h
  stable := fun _ _ _ _ h => h
  lock := fun hc _ h _ => noteOf_next (by rw [hc]; rfl) h
  unlock := fun hc h => ⟨trivial, noteOf_next (by rw [hc]; rfl) h⟩
  wait := fun hc h => ⟨trivial, noteOf_next (by rw [hc]; rfl) h⟩
  resume := fun _ h _ => h
  signal := by
    rintro t p c n q (hc | hc)
    · exact ⟨fun _ h => noteOf_next (by rw [hc]; rfl) h, fun _ h => noteOf_next (by rw [hc]; rfl) h⟩
    · exact ⟨fun _ h => noteOf_next (by rw [hc]; rfl) h, fun _ h => noteOf_next (by rw [hc]; rfl) h⟩

theorem noteOf_reachable [DecidableEq T] {s : State T Queue Cond (PC (κ × Note))}
    (h : (system cap (noted prog) buf fun t => (start t, .other)).Reachable s) (t : T) :
    NoteOf (s.thread t).pc := by
  have hholds : Holds held (fun _ => True) (fun _ p _ => NoteOf p) (fun _ p _ => NoteOf p) s :=
    holds_reachable (discipline cap (noted prog)) (noteOf_outline cap prog)
      (start_not_held fun t => (start t, Note.other)) trivial (fun _ => trivial) h
  by_cases ht : (s.thread t).Active held
  · exact hholds.active t ht
  · exact hholds.passive t ht

/-! ### The record -/

/-- What a statement shows is what it does to `pushed`, and a value read is owed until it is
returned. -/
structure Effect (p m : PC (κ × Note)) (q q' : Queue) : Prop where
  pushed : q'.pushed = q.pushed ++ acceptedValues (shown p m).toList
  popped : ∃ xs, q'.popped = q.popped ++ xs ∧
    returnedValues (shown p m).toList ++ owed m = owed p ++ xs

theorem effect_act {f : Queue → Queue × PC (κ × Note)}
    (hc : code cap (noted prog) p = .act f) (h : NoteOf p) : Effect p (f q).2 q (f q).1 := by
  cases p with
  | caller k =>
    simp only [code, noted] at hc
    cases hk : prog k.1 <;> simp only [hk, Call.entry, Stmt.act.injEq, reduceCtorEq] at hc <;>
      subst hc <;>
      exact ⟨by simp [shown, acceptedValues], [], by simp [shown, returnedValues, owed]⟩
  | pushTest | pushCheck | popTest | popCheck =>
    simp only [code, Stmt.act.injEq] at hc
    subst hc
    dsimp only
    split <;> exact ⟨by simp [shown, acceptedValues], [], by simp [shown, returnedValues, owed]⟩
  | pushStore val k =>
    simp only [code, Stmt.act.injEq] at hc
    subst hc
    obtain ⟨k, note⟩ := k
    obtain rfl : note = .push val := h
    exact ⟨rfl, [], by simp [shown, returnedValues, owed, Queue.store, Shown.value]⟩
  | popRead =>
    simp only [code, Stmt.act.injEq] at hc
    subst hc
    exact ⟨by simp [shown, acceptedValues, Queue.read], _, rfl, rfl⟩
  | pushTail | pushCount | popHead | popCount | downSet =>
    simp only [code, Stmt.act.injEq] at hc
    subst hc
    exact ⟨by simp [shown, acceptedValues, Queue.nextTail, Queue.incCount, Queue.nextHead,
      Queue.decCount, Queue.setShutdown], [], by simp [shown, returnedValues, owed, Queue.nextTail,
      Queue.incCount, Queue.nextHead, Queue.decCount, Queue.setShutdown]⟩
  | _ => simp [code] at hc

theorem effect_next (hc : (code cap (noted prog) p).next = some m) (h : NoteOf p) :
    Effect p m q q := by
  cases p with
  | caller k =>
    rcases code_caller cap (noted prog) k with ⟨f, hf⟩ | hf <;> simp [hf, Stmt.next] at hc
  | pushReturn k | pushUnlock k =>
    obtain rfl := Option.some.inj hc
    obtain ⟨k, note⟩ := k
    obtain ⟨val, rfl⟩ : ∃ val, note = .push val := h
    exact ⟨by simp [shown, acceptedValues], [], by simp [shown, returnedValues, owed]⟩
  | downUnlock k =>
    obtain rfl := Option.some.inj hc
    obtain ⟨k, note⟩ := k
    obtain rfl : note = .other := h
    exact ⟨by simp [shown, acceptedValues], [], by simp [shown, returnedValues, owed]⟩
  | popEmpty k =>
    obtain rfl := Option.some.inj hc
    have hr : shown (.popEmpty k) (.caller (k none)) = some (.returned none) := by
      have hk : k none = ((k none).1, .pop none) := Prod.ext rfl (h none)
      rw [hk]
      rfl
    exact ⟨by simp [hr, acceptedValues, Shown.argument], [],
      by simp [hr, returnedValues, owed, Shown.value]⟩
  | popUnlock out k =>
    obtain rfl := Option.some.inj hc
    have hr : shown (.popUnlock out k) (.caller (k (some out))) =
        some (.returned (some out)) := by
      have hk : k (some out) = ((k (some out)).1, .pop (some out)) := Prod.ext rfl (h (some out))
      rw [hk]
      rfl
    exact ⟨by simp [hr, acceptedValues, Shown.argument], [],
      by simp [hr, returnedValues, owed, Shown.value]⟩
  | pushLock | pushWait | pushSignal | popLock | popWait | popSignal | downLock | downNotEmpty
  | downNotFull =>
    obtain rfl := Option.some.inj hc
    exact ⟨by simp [shown, acceptedValues], [], by simp [shown, returnedValues, owed]⟩
  | _ => simp [code, Stmt.next] at hc

theorem owed_of_not_held (h : ¬ held p) : owed p = [] := by
  cases p <;> first | rfl | exact (h trivial).elim

/-- The value that the holder of the mutex owes. -/
def inHand (s : State T Queue Cond (PC (κ × Note))) : List ℤ :=
  match s.owner with
  | none => []
  | some t => owed (s.thread t).pc

/-- What has been shown is what the queue has taken and given, but for a value in hand. -/
structure Recorded (s : State T Queue Cond (PC (κ × Note))) (ys : List Shown) : Prop where
  accepted : acceptedValues ys = s.shared.pushed
  returned : returnedValues ys ++ inHand s = s.shared.popped

variable [DecidableEq T] {s t : State T Queue Cond (PC (κ × Note))} {a : Act T} {ys : List Shown}

omit [DecidableEq T] in
/-- A statement of the thread that has the mutex before or after it. -/
theorem Recorded.effect (h : Recorded s ys) (heff : Effect p m s.shared t.shared)
    (hobs : observe s a t = shown p m) (hs : inHand s = owed p) (ht : inHand t = owed m) :
    Recorded t (ys ++ (observe s a t).toList) := by
  obtain ⟨xs, hpop, hval⟩ := heff.popped
  constructor
  · rw [acceptedValues, List.filterMap_append, hobs, heff.pushed, ← h.accepted]
    rfl
  · have hret := h.returned
    rw [returnedValues, List.filterMap_append, List.append_assoc, hobs, ht, hpop, ← hret, hs,
      List.append_assoc]
    exact congrArg _ hval

omit [DecidableEq T] in
/-- A statement that neither shows anything nor touches the queue. -/
theorem Recorded.silent (h : Recorded s ys) (hsh : t.shared = s.shared)
    (hobs : observe s a t = none) (ht : inHand t = inHand s) :
    Recorded t (ys ++ (observe s a t).toList) := by
  rw [hobs, Option.toList_none, List.append_nil]
  exact ⟨hsh ▸ h.accepted, by rw [ht, hsh, h.returned]⟩

omit [DecidableEq T] in
theorem inHand_of_owner {u : T} (ho : s.owner = some u) : inHand s = owed (s.thread u).pc := by
  simp [inHand, ho]

omit [DecidableEq T] in
theorem inHand_of_free (ho : s.owner = none) : inHand s = [] := by
  simp [inHand, ho]

theorem inHand_eq (h : Step (code cap (noted prog)) s a t) (hu : s.owner ≠ some a.actor)
    (ho : t.owner = s.owner) : inHand t = inHand s := by
  cases hs : s.owner with
  | none => rw [inHand_of_free hs, inHand_of_free (ho.trans hs)]
  | some u =>
    have hne : u ≠ a.actor := by
      rintro rfl
      exact hu hs
    rw [inHand_of_owner hs, inHand_of_owner (ho.trans hs), step_other_pc h hne]

theorem shown_entry {k : κ × Note} {f : Queue → Queue × PC (κ × Note)}
    (hc : code cap (noted prog) (.caller k) = .act f) : shown (.caller k) (f q).2 = none := by
  simp only [code, noted] at hc
  cases hk : prog k.1 <;> simp only [hk, Call.entry, Stmt.act.injEq, reduceCtorEq] at hc <;>
    subst hc <;> rfl

theorem held_of_signal {c : Cond} (hc : code cap (noted prog) p = .signal c m ∨
    code cap (noted prog) p = .broadcast c m) : held p := by
  cases p with
  | caller k =>
    rcases code_caller cap (noted prog) k with ⟨f, hf⟩ | hf <;> simp [hf] at hc
  | pushSignal | popSignal | downNotEmpty | downNotFull => trivial
  | _ => simp [code] at hc

omit [DecidableEq T] in
/-- A `signal` or `broadcast`, whoever is woken. -/
theorem Recorded.signal {c : Cond} (h : Recorded s ys)
    (he : Exclusive (code cap (noted prog)) held s)
    (hn : NoteOf p) (ht : s.thread a.actor = .run p) (hm : t.thread a.actor = .run m)
    (hc : code cap (noted prog) p = .signal c m ∨ code cap (noted prog) p = .broadcast c m)
    (hsh : t.shared = s.shared) (hto : t.owner = s.owner) :
    Recorded t (ys ++ (observe s a t).toList) := by
  have ho : s.owner = some a.actor := by
    rw [he.owner, ht]
    exact held_of_signal hc
  have hnext : (code cap (noted prog) p).next = some m := by
    rcases hc with hc | hc <;> rw [hc] <;> rfl
  have heff : Effect p m s.shared t.shared := by
    rw [hsh]
    exact effect_next hnext hn
  refine h.effect heff (by simp [observe, ht, hm]) ?_ ?_
  · rw [inHand_of_owner ho, ht, Status.pc]
  · rw [inHand_of_owner (hto.trans ho), hm, Status.pc]

theorem recorded_step (he : Exclusive (code cap (noted prog)) held s)
    (hn : ∀ t, NoteOf (s.thread t).pc) (hst : Step (code cap (noted prog)) s a t)
    (h : Recorded s ys) : Recorded t (ys ++ (observe s a t).toList) := by
  have hnote := hn a.actor
  have howner := he.owner a.actor
  have hst' := hst
  cases hst with
  | @act u p f ht hc =>
    simp only [Act.actor, ht, Status.pc, Status.Active] at hnote howner
    by_cases hp : held p
    · have ho := howner.mpr hp
      refine h.effect (effect_act hc hnote) (by simp [observe, Act.actor, ht]) ?_ ?_
      · rw [inHand_of_owner ho, ht, Status.pc]
      · rw [inHand_of_owner (u := u) (by exact ho)]
        simp [Status.pc]
    · cases p with
      | caller k =>
        refine h.silent ((discipline cap (noted prog)).frame hc hp _) ?_ ?_
        · simp [observe, Act.actor, ht, shown_entry hc]
        · exact inHand_eq hst' (fun ho => hp (howner.mp ho)) rfl
      | pushLock | popLock | downLock => simp [code] at hc
      | _ => exact (hp trivial).elim
  | @lock u p m ht hc ho =>
    simp only [Act.actor, ht, Status.pc] at hnote
    have hd := (discipline cap (noted prog)).lock hc
    have hnext : (code cap (noted prog) p).next = some m := by rw [hc]; rfl
    refine h.effect (effect_next hnext hnote) (by simp [observe, Act.actor, ht]) ?_ ?_
    · rw [inHand_of_free ho, owed_of_not_held hd.1]
    · simp [inHand, Status.pc]
  | @unlock u p m ht hc ho =>
    simp only [Act.actor, ht, Status.pc] at hnote
    have hd := (discipline cap (noted prog)).unlock hc
    have hnext : (code cap (noted prog) p).next = some m := by rw [hc]; rfl
    refine h.effect (effect_next hnext hnote) (by simp [observe, Act.actor, ht]) ?_ ?_
    · rw [inHand_of_owner ho, ht, Status.pc]
    · rw [inHand_of_free rfl, owed_of_not_held hd.2]
  | wait ht hc ho =>
    refine h.silent rfl (by simp [observe, Act.actor, ht]) ?_
    rw [inHand_of_free rfl, inHand_of_owner ho, ht]
    rcases wait_cases hc with ⟨k, rfl, -, -⟩ | ⟨val, k, rfl, -, -⟩ <;> rfl
  | @reacquire u p ht ho =>
    refine h.silent rfl (by simp [observe, Act.actor, ht]) ?_
    have hw := he.waited u
    rw [ht] at hw
    obtain ⟨q, c, hq⟩ := hw
    rw [inHand_of_free ho, inHand_of_owner (u := u) rfl]
    rcases wait_cases hq with ⟨k, -, -, rfl⟩ | ⟨val, k, -, -, rfl⟩ <;> simp [Status.pc, owed]
  | signal ht hc _ | signalNone ht hc _ =>
    simp only [Act.actor, ht, Status.pc] at hnote
    exact h.signal he hnote ht set_thread_self (.inl hc) rfl rfl
  | broadcast ht hc =>
    simp only [Act.actor, ht, Status.pc] at hnote
    exact h.signal he hnote ht set_thread_self (.inr hc) rfl rfl
  | spurious ht =>
    simp only [Act.actor, ht, Status.Active, iff_false] at howner
    exact h.silent rfl (by simp [observe, Act.actor, ht]) (inHand_eq hst' howner rfl)

theorem recorded_reachable {p : State T Queue Cond (PC (κ × Note)) × List Shown}
    (h : (history cap prog buf start).Reachable p) : Recorded p.1 p.2 := by
  apply h.invariant_of_reachable
  · rintro ⟨s, ys⟩ ⟨rfl, rfl⟩
    exact ⟨rfl, rfl⟩
  · rintro ⟨s, ys⟩ a ⟨t, zs⟩ hr ⟨hst, hzs⟩ hs
    have hreach := LTS.reachable_of_recorded hr
    simp only at hzs
    subst hzs
    exact recorded_step (exclusive hreach) (noteOf_reachable hreach) hst hs

/-! ### A return value of 0 -/

theorem shown_act {f : Queue → Queue × PC (κ × Note)} {r : Option ℤ}
    (hc : code cap (noted prog) p = .act f) (h : NoteOf p) :
    shown p (f q).2 ≠ some (.returned r) := by
  cases p with
  | caller k => simp [shown_entry hc]
  | pushStore val k =>
    obtain ⟨k, note⟩ := k
    obtain rfl : note = .push val := h
    simp [shown]
  | pushTest | pushCheck | popTest | popCheck =>
    simp only [code, Stmt.act.injEq] at hc
    subst hc
    dsimp only
    split <;> simp [shown]
  | pushTail | pushCount | popRead | popHead | popCount | downSet =>
    simp only [code, Stmt.act.injEq] at hc
    subst hc
    simp [shown]
  | _ => simp [code] at hc

theorem popEmpty_of_next (hc : (code cap (noted prog) p).next = some m) (h : NoteOf p)
    (hr : shown p m = some (.returned none)) : ∃ k, p = .popEmpty k := by
  cases p with
  | caller k =>
    rcases code_caller cap (noted prog) k with ⟨f, hf⟩ | hf <;> simp [hf, Stmt.next] at hc
  | popEmpty k => exact ⟨k, rfl⟩
  | pushReturn k | pushUnlock k =>
    obtain rfl := Option.some.inj hc
    obtain ⟨k, note⟩ := k
    obtain ⟨val, rfl⟩ : ∃ val, note = .push val := h
    simp [shown] at hr
  | downUnlock k =>
    obtain rfl := Option.some.inj hc
    obtain ⟨k, note⟩ := k
    obtain rfl : note = .other := h
    simp [shown] at hr
  | popUnlock out k =>
    obtain rfl := Option.some.inj hc
    have hk : k (some out) = ((k (some out)).1, .pop (some out)) := Prod.ext rfl (h (some out))
    rw [hk] at hr
    simp [shown] at hr
  | pushLock | pushWait | pushSignal | popLock | popWait | popSignal | downLock | downNotEmpty
  | downNotFull =>
    obtain rfl := Option.some.inj hc
    simp [shown] at hr
  | _ => simp [code, Stmt.next] at hc

/-- The only way to return 0. -/
theorem popEmpty_of_returned (hn : ∀ t, NoteOf (s.thread t).pc)
    (hst : Step (code cap (noted prog)) s a t) (h : observe s a t = some (.returned none)) :
    ∃ u k, s.thread u = .run (.popEmpty k) := by
  have hnote := hn a.actor
  cases hst with
  | act ht hc =>
    simp only [Act.actor, ht, Status.pc] at hnote
    simp only [observe, Act.actor, ht, set_thread_self] at h
    exact (shown_act hc hnote h).elim
  | lock ht hc _ | unlock ht hc _ | signal ht hc _ | signalNone ht hc _ | broadcast ht hc =>
    simp only [Act.actor, ht, Status.pc] at hnote
    simp only [observe, Act.actor, ht, set_thread_self] at h
    obtain ⟨k, rfl⟩ := popEmpty_of_next (by rw [hc]; rfl) hnote h
    exact ⟨_, k, ht⟩
  | wait ht | reacquire ht | spurious ht => simp [observe, Act.actor, ht] at h

/-- For every capacity, any number of threads and every client program: with the mutex free the
ring is well formed, and the values that `queue_pop` has returned, followed by those in the ring,
are the ones that `queue_push` has accepted; and when a call returns 0, shutdown is set and
every accepted value has been returned. -/
theorem queue_fifo (hcap : 1 ≤ cap) :
    (∀ s, (system cap prog buf start).Reachable s →
      ∃ s' ys, (history cap prog buf start).Reachable (s', ys) ∧ forget s' = s) ∧
    ∀ s ys, (history cap prog buf start).Reachable (s, ys) →
      (s.owner = none →
        (0 ≤ s.shared.count ∧ s.shared.count ≤ cap) ∧
        (0 ≤ s.shared.head ∧ s.shared.head < cap) ∧
        (0 ≤ s.shared.tail ∧ s.shared.tail < cap) ∧
        s.shared.tail = (s.shared.head + s.shared.count) % cap ∧
        returnedValues ys ++ contents cap s.shared.buf s.shared.head s.shared.count =
          acceptedValues ys) ∧
      ∀ a t, (history cap prog buf start).step (s, ys) a t →
        observe s a t.1 = some (.returned none) →
        s.shared.shutdown = true ∧ returnedValues ys = acceptedValues ys := by
  refine ⟨fun s => exists_history, fun s ys h => ?_⟩
  have hreach := LTS.reachable_of_recorded h
  have hrec := recorded_reachable h
  constructor
  · intro hfree
    have hI := (assertions_hold hcap hreach).free hfree
    refine ⟨⟨hI.count_nonneg, hI.count_le⟩, ⟨hI.head_nonneg, hI.head_lt⟩,
      ⟨hI.tail_nonneg, hI.tail_lt⟩, hI.tail_eq, ?_⟩
    have hret := hrec.returned
    rw [inHand_of_free hfree, List.append_nil] at hret
    rw [hret, hrec.accepted, hI.fifo]
  · rintro a ⟨t, zs⟩ ⟨hst, -⟩ hobs
    obtain ⟨u, k, hu⟩ := popEmpty_of_returned (noteOf_reachable hreach) hst hobs
    obtain ⟨hI, h0, hdown⟩ := assertion_of_run hcap hreach hu trivial
    have ho : s.owner = some u := by
      rw [(exclusive hreach).owner, hu]
      trivial
    have howed : inHand s = [] := by
      rw [inHand_of_owner ho, hu]
      rfl
    have hret := hrec.returned
    rw [howed, List.append_nil] at hret
    exact ⟨hdown, by rw [hret, hrec.accepted, hI.drained h0]⟩

/-- One thread pushes 7 and 8, the other pops once. -/
def pushTwicePop : ℕ → Call ℕ
  | 0 => .push 7 1
  | 1 => .push 8 2
  | 3 => .pop fun _ => 4
  | _ => .exit

/-- The popping thread comes first and sleeps; it is woken, and returns 7 after both pushes. -/
theorem queue_fifo_pushTwicePop :
    ∃ s ys, (history 2 pushTwicePop (fun _ => 0) fun t : Bool => if t then 0 else 3).Reachable
        (s, ys) ∧
      returnedValues ys = [7] ∧ contents 2 s.shared.buf s.shared.head s.shared.count = [8] ∧
      acceptedValues ys = [7, 8] := by
  let s₀ : State Bool Queue Cond (PC (ℕ × Note)) :=
    ⟨queueInit fun _ => 0, none, fun t => .run (.caller (if t then 0 else 3, .other))⟩
  obtain ⟨s, hs⟩ : ∃ s, schedule (code 2 (noted pushTwicePop)) (fun _ _ => true) s₀
      (List.replicate 4 (false, none) ++ List.replicate 7 (true, none) ++
        [(true, some false)] ++ List.replicate 10 (true, none) ++
        List.replicate 8 (false, none)) = some s := ⟨_, rfl⟩
  have hr : (system 2 (noted pushTwicePop) (fun _ => 0) fun t : Bool =>
      (if t then 0 else 3, .other)).Reachable s := reachable_of_free_schedule rfl hs
  obtain ⟨ys, hys⟩ : ∃ ys, (history 2 pushTwicePop (fun _ => 0) fun t : Bool =>
      if t then 0 else 3).Reachable (s, ys) := hr.recorded
  have hfree : s.owner = none := by cases hs; rfl
  have hpush : acceptedValues ys = [7, 8] := by
    rw [(recorded_reachable hys).accepted]
    cases hs
    rfl
  have hrest : contents 2 s.shared.buf s.shared.head s.shared.count = [8] := by cases hs; rfl
  have hfifo := (((queue_fifo (by decide)).2 s ys hys).1 hfree).2.2.2.2
  rw [hrest, hpush] at hfifo
  have hseven : returnedValues ys ++ [8] = [7] ++ [8] := hfifo
  exact ⟨s, ys, hys, List.append_cancel_right hseven, hrest, hpush⟩

end SystemCalls.PcQueue

import SystemCalls.ShmDemo.Memory

/-!
# `shm_demo`: what the parent reads

The child of `demonstrate_basic_shm` stores `message` byte by byte, and the parent reads the three
members while the child may still be at it. `sleep` orders nothing, and `wait` comes after the
reads.
-/

namespace SystemCalls.ShmDemo.Torn

def message : String := "Modified by child!"

def childStores (pid : UInt32) : List Access :=
  .put 0 (intBytes 42) :: (strcpy 4 message ++ [.put 104 (intBytes pid)])

/-- What the parent is about to read. -/
inductive PC
  | counter
  | message
  | writer_pid
  | wait
  | done
  deriving DecidableEq

structure State where
  content : List UInt8
  /-- The stores the child has not made. -/
  code : List Access
  pc : PC
  counter : UInt32
  message : List UInt8
  writer_pid : UInt32

inductive Event
  | child
  | parent
  deriving DecidableEq

/-- The next byte that `printf` reads of `message`. -/
def State.byte (s : State) : UInt8 :=
  s.content.getD (4 + s.message.length) 0

inductive Step : State → Event → State → Prop
  | child {s : State} {a : Access} {code : List Access} (h : s.code = a :: code) :
      Step s .child { s with code, content := (a.run 0 s.content).2 }
  | counter {s : State} (h : s.pc = .counter) :
      Step s .parent { s with pc := .message, counter := intAt s.content }
  | message {s : State} (h : s.pc = .message) (hb : s.byte ≠ 0) :
      Step s .parent { s with message := s.message ++ [s.byte] }
  | messageEnds {s : State} (h : s.pc = .message) (hb : s.byte = 0) :
      Step s .parent { s with pc := .writer_pid }
  | writer_pid {s : State} (h : s.pc = .writer_pid) :
      Step s .parent { s with pc := .wait, writer_pid := intAt (s.content.drop 104) }
  | wait {s : State} (h : s.pc = .wait) (hc : s.code = []) :
      Step s .parent { s with pc := .done }

/-- After `fork`, in a segment that held `content` when it was attached. -/
def start (pid : UInt32) (content : List UInt8) : State :=
  ⟨runAll Demo.basic.init content, childStores pid, .counter, 0, [], 0⟩

def system (pid : UInt32) : LTS State Event where
  initial s := ∃ content, sizeofSharedData ≤ content.length ∧ s = start pid content
  step := Step

/-- The offsets of the next read. -/
def State.Reads (s : State) (l : ℕ) : Prop :=
  match s.pc with
  | .counter => l < 4
  | .message => l = 4 + s.message.length
  | .writer_pid => 104 ≤ l ∧ l < 108
  | .wait | .done => False

/-- The parent reads no byte that the child has still to store. -/
def Settled (s : State) (e : Event) : Prop :=
  e = .parent → ∀ l, s.Reads l → ∀ a ∈ s.code, ¬ a.Writes l

/-- The values that the parent has printed. -/
def Whole (pid : UInt32) (s : State) : Prop :=
  s.pc = .done →
    s.counter = 42 ∧ s.message ++ [0] = cString message ∧ s.writer_pid = pid

variable {content : List UInt8} {pid : UInt32} {s t : State} {e : Event}

/-! ### The final memory -/

/-- `message` without its NUL. -/
def messageBytes : List UInt8 := message.toList.map fun c => c.toNat.toUInt8

theorem cString_message : cString message = messageBytes ++ [0] := rfl

theorem messageBytes_ne_zero : ∀ b ∈ messageBytes, b ≠ 0 := by decide +kernel

theorem length_messageBytes : messageBytes.length = 18 := by decide +kernel

theorem length_cString_message : (cString message).length = 19 := by
  rw [cString_message, List.length_append, length_messageBytes]
  rfl

/-- The stores are those of the child's code, with `message` in pieces. -/
theorem runAll_childStores (h : sizeofSharedData ≤ content.length) :
    runAll (childStores pid) content = runAll (Demo.basic.childCode pid) content := by
  have hzero : (poke 0 (intBytes 42) content).length = content.length :=
    length_poke (Nat.le_trans (by decide : 0 + 4 ≤ 108) h)
  have hfit : 4 + (cString message).length ≤ (poke 0 (intBytes 42) content).length := by
    rw [hzero, length_cString_message]
    exact Nat.le_trans (by decide) h
  rw [childStores, runAll_cons, runAll_append]
  change runAll _ (runAll _ (poke 0 (intBytes 42) content)) = _
  rw [runAll_strcpy hfit]
  rfl

/-- The memory holds the whole update. -/
structure Final (pid : UInt32) (content : List UInt8) : Prop where
  counter : intAt content = 42
  message : ∀ i < 19, content[4 + i]? = (cString message)[i]?
  writer_pid : intAt (content.drop 104) = pid

theorem final_childCode (h : sizeofSharedData ≤ content.length) :
    Final pid (runAll (Demo.basic.childCode pid) content) := by
  have h108 : 108 ≤ content.length := h
  have hint : ∀ n, (intBytes n).length = 4 := fun _ => rfl
  have hmessage := length_cString_message
  let c1 := poke 0 (intBytes 42) content
  have h1 : c1.length = content.length := length_poke (by rw [hint]; omega)
  let c2 := poke 4 (cString message) c1
  have h2 : c2.length = content.length := (length_poke (by omega)).trans h1
  change Final pid (poke 104 (intBytes pid) c2)
  refine ⟨?_, fun i hi => ?_, intAt_drop_poke pid (by omega)⟩
  · have hcounter : intAt c1 = 42 :=
      intAt_drop_poke 42 (by omega : 0 + 4 ≤ content.length)
    rw [← hcounter]
    refine intAt_congr fun l hl => ?_
    rw [getElem?_poke (by rw [hint]; omega), if_neg (by omega), getElem?_poke (by omega),
      if_neg (by omega)]
  · rw [getElem?_poke (by rw [hint]; omega), if_neg (by omega), getElem?_poke (by omega),
      if_pos (by omega), Nat.add_sub_cancel_left]

/-- The stores that are left lead to the whole update. -/
structure Tracked (pid : UInt32) (s : State) : Prop where
  within : ∀ a ∈ s.code, a.Within s.content.length
  final : Final pid (runAll s.code s.content)

theorem tracked_step (h : Step s e t) (hs : Tracked pid s) : Tracked pid t := by
  cases h with
  | @child a code h =>
    have hwithin := hs.within
    have hfinal := hs.final
    rw [h] at hwithin hfinal
    have hlen := Access.length_run (v := 0) (hwithin a List.mem_cons_self)
    exact ⟨fun b hb => hlen ▸ hwithin b (List.mem_cons_of_mem _ hb), hfinal⟩
  | counter | message | messageEnds | writer_pid | wait => exact ⟨hs.within, hs.final⟩

theorem within_childStores (h : sizeofSharedData ≤ content.length) :
    ∀ a ∈ childStores pid, a.Within content.length := by
  have h108 : 108 ≤ content.length := h
  intro a ha
  simp only [childStores, strcpy, List.mem_cons, List.mem_append, List.mem_map, List.not_mem_nil,
    or_false] at ha
  rcases ha with rfl | ⟨⟨b, i⟩, hi, rfl⟩ | rfl
  · exact Nat.le_trans (by decide : 0 + 4 ≤ 108) h108
  · have hlt := (List.mem_zipIdx hi).2.1
    rw [length_cString_message] at hlt
    simp only [Access.Within, List.length_singleton]
    omega
  · exact Nat.le_trans (by decide : 104 + 4 ≤ 108) h108

theorem length_init (h : sizeofSharedData ≤ content.length) :
    (runAll Demo.basic.init content).length = content.length := by
  have h108 : 108 ≤ content.length := h
  refine length_runAll fun a ha => ?_
  simp only [Demo.init, sharedData, List.mem_cons, List.not_mem_nil, or_false] at ha
  rcases ha with rfl | rfl | rfl
  · exact Nat.le_trans (by decide : 0 + 4 ≤ 108) h108
  · exact Nat.le_trans (by decide +kernel : 4 + (cString "Initial message").length ≤ 108) h108
  · exact Nat.le_trans (by decide : 104 + 4 ≤ 108) h108

theorem tracked_start (h : sizeofSharedData ≤ content.length) :
    Tracked pid (start pid content) := by
  have hlen : sizeofSharedData ≤ (runAll Demo.basic.init content).length :=
    (length_init h).symm ▸ h
  refine ⟨within_childStores hlen, ?_⟩
  change Final pid (runAll (childStores pid) (runAll Demo.basic.init content))
  rw [runAll_childStores hlen]
  exact final_childCode hlen

/-! ### What has been read -/

/-- The values printed so far are those of the whole update. -/
structure Printed (pid : UInt32) (s : State) : Prop where
  counter : s.pc ≠ .counter → s.counter = 42
  message : s.pc = .counter ∨ s.pc = .message → ∃ k ≤ messageBytes.length,
    s.message = messageBytes.take k
  messageEnds : s.pc ≠ .counter → s.pc ≠ .message → s.message = messageBytes
  writer_pid : s.pc = .wait ∨ s.pc = .done → s.writer_pid = pid

/-- What is read now will not change any more. -/
theorem getElem?_of_settled {l : ℕ} (ht : Tracked pid s) (hc : Settled s .parent)
    (hl : s.Reads l) : (runAll s.code s.content)[l]? = s.content[l]? :=
  getElem?_runAll ht.within (hc rfl l hl)

theorem byte_of_settled {k : ℕ} (ht : Tracked pid s) (hc : Settled s .parent)
    (hpc : s.pc = .message) (hk : k ≤ messageBytes.length)
    (hm : s.message = messageBytes.take k) : (messageBytes ++ [0])[k]? = some s.byte := by
  have hlen : s.message.length = k := by
    rw [hm, List.length_take, Nat.min_eq_left hk]
  have hlt : k < 19 := by
    rw [length_messageBytes] at hk
    omega
  have hread := getElem?_of_settled (l := 4 + k) ht hc (by simp [State.Reads, hpc, hlen])
  have hsome := List.getElem?_eq_getElem (length_cString_message.symm ▸ hlt)
  rw [ht.final.message k hlt] at hread
  rw [← cString_message, State.byte, hlen, List.getD_eq_getElem?_getD, ← hread, hsome]
  rfl

theorem printed_message (ht : Tracked pid s) (hc : Settled s .parent) (hpc : s.pc = .message)
    (hb : s.byte ≠ 0) (hs : Printed pid s) :
    Printed pid { s with message := s.message ++ [s.byte] } := by
  obtain ⟨k, hk, hm⟩ := hs.message (.inr hpc)
  have hbyte := byte_of_settled ht hc hpc hk hm
  have hlt : k < messageBytes.length := by
    refine Nat.lt_of_le_of_ne hk fun he => hb ?_
    rw [he, List.getElem?_concat_length] at hbyte
    exact (Option.some.inj hbyte).symm
  rw [List.getElem?_append_left hlt] at hbyte
  refine ⟨hs.counter, fun _ => ⟨k + 1, hlt, ?_⟩, fun _ h => (h hpc).elim, fun h => ?_⟩
  · rw [List.take_add_one, hbyte, hm]
    rfl
  · simp [hpc] at h

theorem printed_messageEnds (ht : Tracked pid s) (hc : Settled s .parent)
    (hpc : s.pc = .message) (hb : s.byte = 0) (hs : Printed pid s) :
    Printed pid { s with pc := .writer_pid } := by
  obtain ⟨k, hk, hm⟩ := hs.message (.inr hpc)
  have hbyte := byte_of_settled ht hc hpc hk hm
  have hend : k = messageBytes.length := by
    by_contra hne
    rw [List.getElem?_append_left (Nat.lt_of_le_of_ne hk hne)] at hbyte
    exact messageBytes_ne_zero _ (List.mem_of_getElem? hbyte) hb
  refine ⟨fun _ => hs.counter (by simp [hpc]), by simp, fun _ _ => ?_, by simp⟩
  rw [hm, hend, List.take_length]

theorem printed_step (h : Step s e t) (hc : Settled s e) (ht : Tracked pid s)
    (hs : Printed pid s) : Printed pid t := by
  cases h with
  | child => exact ⟨hs.counter, hs.message, hs.messageEnds, hs.writer_pid⟩
  | counter h =>
    have hint : intAt s.content = 42 := by
      rw [← ht.final.counter]
      exact intAt_congr fun l hl =>
        (getElem?_of_settled ht hc (by simpa [State.Reads, h] using hl)).symm
    exact ⟨fun _ => hint, fun _ => hs.message (.inl h), fun _ h => (h rfl).elim, by simp⟩
  | message h hb => exact printed_message ht hc h hb hs
  | messageEnds h hb => exact printed_messageEnds ht hc h hb hs
  | writer_pid h =>
    have hint : intAt (s.content.drop 104) = pid := by
      rw [← ht.final.writer_pid]
      refine intAt_congr fun l hl => ?_
      rw [List.getElem?_drop, List.getElem?_drop]
      refine (getElem?_of_settled ht hc ?_).symm
      simp only [State.Reads, h]
      omega
    exact ⟨fun _ => hs.counter (by simp [h]), by simp,
      fun _ _ => hs.messageEnds (by simp [h]) (by simp [h]), fun _ => hint⟩
  | wait h =>
    exact ⟨fun _ => hs.counter (by simp [h]), by simp,
      fun _ _ => hs.messageEnds (by simp [h]) (by simp [h]), fun _ => hs.writer_pid (.inl h)⟩

/-! ### Runs to the end -/

/-- Every step that reads nothing early. -/
def Patient (L : LTS State Event) : Prop :=
  ∀ s e t, Step s e t → e = .child ∨ s.code = [] → L.step s e t

theorem patient_settled (pid : UInt32) : Patient ((system pid).restrict Settled) := by
  intro s e t hst he
  refine ⟨fun hparent l _ a ha => ?_, hst⟩
  rcases he with he | he
  · simp [he] at hparent
  · simp [he] at ha

theorem patient_system (pid : UInt32) : Patient (system pid) :=
  fun _ _ _ hst _ => hst

variable {L : LTS State Event}

/-- The child goes on to its end. -/
theorem reach_stored (hL : Patient L) (h : L.Reachable s) :
    ∃ t, L.Reachable t ∧ t.code = [] ∧ t.pc = s.pc ∧ t.counter = s.counter := by
  induction hcode : s.code generalizing s with
  | nil => exact ⟨s, h, hcode, rfl, rfl⟩
  | cons a code ih =>
    have hstored := h.step (hL _ _ _ (.child hcode) (.inl rfl))
    have hrest := ih hstored rfl
    exact hrest

/-- Then the parent reads up to a NUL. -/
theorem reach_messageEnds {k : ℕ} (hL : Patient L) (h : L.Reachable s) (hcode : s.code = [])
    (hpc : s.pc = .message) (hk : s.content.getD (4 + (s.message.length + k)) 0 = 0) :
    ∃ t, L.Reachable t ∧ t.code = [] ∧ t.pc = .writer_pid ∧ t.counter = s.counter := by
  induction k generalizing s with
  | zero => exact ⟨_, h.step (hL _ _ _ (.messageEnds hpc hk) (.inr hcode)), hcode, rfl, rfl⟩
  | succ k ih =>
    by_cases hb : s.byte = 0
    · exact ⟨_, h.step (hL _ _ _ (.messageEnds hpc hb) (.inr hcode)), hcode, rfl, rfl⟩
    · have hread := h.step (hL _ _ _ (.message hpc hb) (.inr hcode))
      have hlen : s.message.length + (k + 1) = (s.message ++ [s.byte]).length + k := by
        rw [List.length_append, List.length_singleton]
        omega
      rw [hlen] at hk
      have hrest := ih hread hcode hpc hk
      exact hrest

theorem reach_done (hL : Patient L) (h : L.Reachable s) (hpc : s.pc = .message) :
    ∃ t, L.Reachable t ∧ t.pc = .done ∧ t.counter = s.counter := by
  obtain ⟨t, ht, hcode, hpc', hcounter⟩ := reach_stored hL h
  -- Past its end the memory reads as zero.
  have hk : t.content.getD (4 + (t.message.length + t.content.length)) 0 = 0 := by
    rw [List.getD_eq_getElem?_getD, List.getElem?_eq_none (by omega)]
    rfl
  obtain ⟨u, hu, hcode, hpc', hcounter'⟩ := reach_messageEnds hL ht hcode (hpc'.trans hpc) hk
  have hwait := hu.step (hL _ _ _ (.writer_pid hpc') (.inr hcode))
  have hdone := hwait.step (hL _ _ _ (.wait rfl hcode) (.inr hcode))
  exact ⟨_, hdone, rfl, hcounter'.trans hcounter⟩

/-! ### The update as a whole -/

/-- In a run in which no read overtakes a store to the same byte. -/
theorem whole_of_settled (h : ((system pid).restrict Settled).Reachable s) : Whole pid s := by
  have hs : Tracked pid s ∧ Printed pid s := by
    apply h.invariant (P := fun s => Tracked pid s ∧ Printed pid s)
    · rintro _ ⟨content, hlen, rfl⟩
      refine ⟨tracked_start hlen, by simp [start], fun _ => ⟨0, Nat.zero_le _, rfl⟩, ?_, ?_⟩ <;>
        simp [start]
    · rintro s e t ⟨hc, hst⟩ ⟨ht, hp⟩
      exact ⟨tracked_step hst ht, printed_step hst hc ht hp⟩
  intro hdone
  refine ⟨hs.2.counter (by simp [hdone]), ?_, hs.2.writer_pid (.inr hdone)⟩
  rw [hs.2.messageEnds (by simp [hdone]) (by simp [hdone]), cString_message]

/-- The child of the two runs below. -/
def childPid : UInt32 := 1234

theorem reachable_start {L : LTS State Event} (h : L.initial = (system childPid).initial) :
    L.Reachable (start childPid (List.replicate 108 0)) := by
  refine .of_initial ?_
  rw [h]
  exact ⟨_, by simp [sizeofSharedData], rfl⟩

/-- The second of sleep is long enough. -/
theorem whole_of_settled_sleep : ∃ s, ((system childPid).restrict Settled).Reachable s ∧
    s.pc = .done ∧ s.counter = 42 ∧ s.message ++ [0] = cString message ∧
    s.writer_pid = childPid := by
  have hL := patient_settled childPid
  obtain ⟨s, hs, hcode, hpc, -⟩ := reach_stored hL (reachable_start rfl)
  have hcounter := hs.step (hL _ _ _ (.counter hpc) (.inr hcode))
  obtain ⟨t, ht, hdone, -⟩ := reach_done hL hcounter rfl
  exact ⟨t, ht, hdone, whole_of_settled ht hdone⟩

/-- The parent reads the counter before the child has stored it. -/
theorem early_counter : ¬ ∀ pid s, (system pid).Reachable s → Whole pid s := by
  intro hall
  have hstart : (system childPid).Reachable _ := reachable_start rfl
  have hread := hstart.step (.counter rfl)
  obtain ⟨t, ht, hdone, hcounter⟩ := reach_done (patient_system childPid) hread rfl
  have h42 := (hall _ t ht hdone).1
  rw [hcounter] at h42
  exact absurd h42 (by decide)

end SystemCalls.ShmDemo.Torn

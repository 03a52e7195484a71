import SystemCalls.ShmDemo.Model

/-!
# `shm_demo`: the segments it leaves

Every run comes to an end. A segment that a function has created is gone when it returns; one
that `shmget` has found under the key is taken for its own, and loses its key.
-/

namespace SystemCalls.ShmDemo

variable {i : Segments} {o : Outcomes} {s s' : State} {x : Actor} {d : Demo} {k r : Nth}
  {g : Segment} {id n : ℕ} {f : Segment → Option Segment}

theorem modify_of_ne (σ : Store) (h : n ≠ id) : σ.modify id f n = σ n := by
  simp [Store.modify, h]

theorem modify_self (σ : Store) (h : σ id = some g) : σ.modify id f id = f g := by
  simp [Store.modify, h]

/-! ### Runs end -/

def Demo.after : Demo → ℕ
  | .basic => 52
  | .info => 26
  | .multiple => 0

/-- Steps left at most in the caller and in the children it may still fork. -/
def PC.left : PC → ℕ
  | .shmget d => d.after + 26
  | .stat => Demo.info.after + 2
  | .shmat d => d.after + 25
  | .init d code => d.after + 21 + code.length
  | .fork d .first => d.after + 20
  | .fork d .second => d.after + 12
  | .wait d .first => d.after + 4
  | .wait d .second => d.after + 3
  | .shmdt d => d.after + 2
  | .rmid d => d.after + 1
  | .done => 0

def Child.left (c : Child) : ℕ :=
  c.code.length + if c.attached then 1 else 0

def State.childLeft (s : State) (k : Nth) : ℕ :=
  (s.child k).elim 0 Child.left

def State.left (s : State) : ℕ :=
  s.pc.left + s.childLeft .first + s.childLeft .second

theorem step_left (h : Step o s x s') : s'.left < s.left := by
  cases h with
  | @getFail d hp | @getFound d _ _ hp | @getNew d _ hp | @attachFail d hp | @attach d hp
  | @detach d hp | @rmid d hp =>
    cases d <;> simp [State.left, State.childLeft, hp, PC.left, PC.afterDemo, PC.afterGet,
      Demo.after, Demo.init, sharedData]
  | stat hp | init hp | initialized hp =>
    simp [State.left, State.childLeft, hp, PC.left, Demo.after]
  | @fork d k hp ho =>
    cases d <;> cases k <;> simp [State.left, State.childLeft, hp, PC.left, PC.afterFork,
      Demo.after, Demo.childCode, sharedData, Child.left] <;> omega
  | @forkFail d k hp ho =>
    cases d <;> cases k <;> simp [State.left, State.childLeft, hp, PC.left, PC.afterFork,
      PC.afterForkFail, Demo.after]
  | @reap d k r c hp hr hc hx =>
    cases d <;> cases k <;> cases r <;> simp [State.left, State.childLeft, hp, PC.left,
      PC.afterWait, hc, Demo.after] <;> omega
  | @echild d k hp hr =>
    cases d <;> cases k <;> simp [State.left, State.childLeft, hp, PC.left, PC.afterWait,
      Demo.after]
  | @childAccess k a code value hc =>
    cases k <;> simp [State.left, State.childLeft, hc, Child.left]
  | @childDetach k value hc =>
    cases k <;> simp [State.left, State.childLeft, hc, Child.left]

/-- Some numbers are free. -/
def Bounded (σ : Store) : Prop :=
  ∃ bound, ∀ id, bound ≤ id → σ id = none

theorem Bounded.modify {σ : Store} (h : Bounded σ) : Bounded (σ.modify id f) := by
  obtain ⟨bound, hb⟩ := h
  refine ⟨bound, fun n hn => ?_⟩
  by_cases he : n = id
  · subst he
    simp [Store.modify, hb n hn]
  · rw [modify_of_ne σ he, hb n hn]

theorem bounded_step (h : Step o s x s') (hb : Bounded s.store) : Bounded s'.store := by
  cases h with
  | getFail | getFound | stat | attachFail | initialized | forkFail | reap | echild => exact hb
  | @getNew d id =>
    obtain ⟨bound, hb⟩ := hb
    refine ⟨bound + id + 1, fun n hn => ?_⟩
    have hne : n ≠ id := by omega
    simp [hne, hb n (by omega)]
  | attach | init | fork | detach | rmid | childAccess | childDetach => exact hb.modify

theorem bounded_reachable (h : (system i o).Reachable s) : Bounded s.store := by
  apply h.invariant (P := fun s => Bounded s.store)
  · rintro _ rfl
    exact ⟨i.bound, i.none_of_le⟩
  · intro s x s' hs hb
    exact bounded_step hs hb

/-- A child can always go on. -/
theorem exited_of_terminal {c : Child} (h : (system i o).Terminal s) (hc : s.child k = some c) :
    c.Exited := by
  obtain ⟨code, value, attached⟩ := c
  cases attached with
  | true =>
    cases code with
    | nil => exact (h _ _ (.childDetach hc)).elim
    | cons a code => exact (h _ _ (.childAccess hc)).elim
  | false => rfl

theorem exists_get (hb : Bounded s.store) (h : s.pc = .shmget d) : ∃ s', Step o s .caller s' := by
  by_cases ho : o.shmget d = true
  · by_cases hg : ∃ id g, s.Finds d id g
    · obtain ⟨id, g, hg⟩ := hg
      by_cases hsize : d.size ≤ g.content.length
      · exact ⟨_, .getFound h ho hg hsize⟩
      · exact ⟨_, .getFail h (Or.inr ⟨id, g, hg, Nat.lt_of_not_le hsize⟩)⟩
    · obtain ⟨bound, hb⟩ := hb
      exact ⟨_, .getNew h ho (by simpa using hg) (hb bound (Nat.le_refl _))⟩
  · exact ⟨_, .getFail h (Or.inl (by simpa using ho))⟩

theorem exists_wait (hx : ∀ r c, s.child r = some c → c.Exited) (h : s.pc = .wait d k) :
    ∃ s', Step o s .caller s' := by
  by_cases hr : ∃ r c, s.WaitsFor k r ∧ s.child r = some c
  · obtain ⟨r, c, hr, hc⟩ := hr
    exact ⟨_, .reap h hr hc (hx r c hc)⟩
  · refine ⟨_, .echild h fun r hwaits => ?_⟩
    cases hc : s.child r with
    | none => rfl
    | some c => exact (hr ⟨r, c, hwaits, hc⟩).elim

theorem done_of_terminal (hr : (system i o).Reachable s) (h : (system i o).Terminal s) :
    s.pc = .done := by
  have hno : ¬ ∃ s', Step o s .caller s' := fun ⟨s', hs⟩ => h _ _ hs
  cases hp : s.pc with
  | shmget d => exact (hno (exists_get (bounded_reachable hr) hp)).elim
  | stat => exact (hno ⟨_, .stat hp⟩).elim
  | shmat d =>
    by_cases ho : o.shmat d = true
    · exact (hno ⟨_, .attach hp ho⟩).elim
    · exact (hno ⟨_, .attachFail hp (by simpa using ho)⟩).elim
  | init d code =>
    cases code with
    | nil => exact (hno ⟨_, .initialized hp⟩).elim
    | cons a code => exact (hno ⟨_, .init hp⟩).elim
  | fork d k =>
    by_cases ho : o.fork d k = true
    · exact (hno ⟨_, .fork hp ho⟩).elim
    · exact (hno ⟨_, .forkFail hp (by simpa using ho)⟩).elim
  | wait d k => exact (hno (exists_wait (fun r c hc => exited_of_terminal h hc) hp)).elim
  | shmdt d => exact (hno ⟨_, .detach hp⟩).elim
  | rmid d => exact (hno ⟨_, .rmid hp⟩).elim
  | done => rfl

/-! ### Segments of its own -/

/-- The caller holds an identifier. -/
def PC.Inside : PC → Prop
  | .shmget _ | .done => False
  | _ => True

def PC.attached : PC → ℕ
  | .init .. | .fork .. | .wait .. | .shmdt _ => 1
  | _ => 0

/-- The children that may not have been waited for yet. -/
def PC.MayHave : PC → Nth → Prop
  | .fork _ .second, k => k = .first
  | .wait .multiple .first, _ => True
  | .wait .multiple .second, k => k = .second
  | .wait _ _, k => k = .first
  | _, _ => False

/-- Only `demonstrate_multiple_attachments` has a second child. -/
def PC.Valid : PC → Prop
  | .fork d .second | .wait d .second => d = .multiple
  | _ => True

theorem PC.inside_of_mayHave {pc : PC} (h : pc.MayHave k) : pc.Inside := by
  cases pc <;> simp_all [PC.MayHave, PC.Inside]

def State.childAttached (s : State) (k : Nth) : ℕ :=
  (s.child k).elim 0 fun c => if c.attached then 1 else 0

def State.attached (s : State) : ℕ :=
  s.pc.attached + s.childAttached .first + s.childAttached .second

/-- The initial segments and one more, `id`, with `n` attachments. -/
structure Own (i : Segments) (σ : Store) (id n : ℕ) : Prop where
  free : i.store id = none
  other : ∀ m, m ≠ id → σ m = i.store m
  segment : ∃ g, σ id = some g ∧ g.dest = false ∧ g.nattch = n

theorem own_new (h : i.store id = none) (key size : ℕ) :
    Own i (Function.update i.store id (some (.new key size))) id 0 where
  free := h
  other m hm := by simp [hm]
  segment := ⟨.new key size, by simp, rfl, rfl⟩

namespace Own

variable {σ : Store}

theorem modify {m : ℕ} (h : Own i σ id n)
    (hf : ∀ g : Segment, g.dest = false → g.nattch = n →
      ∃ g', f g = some g' ∧ g'.dest = false ∧ g'.nattch = m) : Own i (σ.modify id f) id m := by
  obtain ⟨g, hg, hdest, hn⟩ := h.segment
  refine ⟨h.free, fun m hm => ?_, ?_⟩
  · rw [modify_of_ne σ hm, h.other m hm]
  · rw [modify_self σ hg]
    exact hf g hdest hn

theorem attach (h : Own i σ id n) : Own i (σ.modify id Segment.attach) id (n + 1) :=
  h.modify fun g hdest hn => ⟨_, rfl, hdest, by simp [hn]⟩

theorem write (h : Own i σ id n) (content : List UInt8) :
    Own i (σ.modify id (Segment.write content)) id n :=
  h.modify fun _ hdest hn => ⟨_, rfl, hdest, hn⟩

theorem detach (h : Own i σ id (n + 1)) : Own i (σ.modify id Segment.detach) id n :=
  h.modify fun g hdest hn =>
    ⟨{ g with nattch := n }, by simp [Segment.detach, hdest, hn], hdest, rfl⟩

/-- Without attachments `IPC_RMID` destroys it at once. -/
theorem remove (h : Own i σ id 0) : σ.modify id Segment.remove = i.store := by
  obtain ⟨g, hg, -, hn⟩ := h.segment
  funext m
  by_cases hm : m = id
  · subst hm
    rw [modify_self σ hg, h.free]
    simp [Segment.remove, hn]
  · rw [modify_of_ne σ hm, h.other m hm]

end Own

/-- Inside a function its segment is a new one with exactly its own attachments, and outside
there is none. -/
structure Tidy (i : Segments) (s : State) : Prop where
  outside : ¬ s.pc.Inside → s.store = i.store
  inside : s.pc.Inside → Own i s.store s.shmid s.attached
  child : ∀ k, s.child k ≠ none → s.pc.MayHave k ∧ s.pid k = true
  valid : s.pc.Valid

/-- No segment that is large enough is under the key of the first function, or it gets none. -/
def Unclaimed (i : Segments) (o : Outcomes) : Prop :=
  o.shmget .basic = false ∨
    ∀ id g, i.store id = some g → g.key = SHM_KEY → g.content.length < sizeofSharedData

theorem tidy_start (i : Segments) : Tidy i (start i) where
  outside _ := rfl
  inside h := h.elim
  child _ h := (h rfl).elim
  valid := trivial

theorem Tidy.child_eq_none (h : Tidy i s) (hk : ¬ s.pc.MayHave k) : s.child k = none := by
  by_contra hc
  exact hk (h.child k hc).1

/-- An unclaimed key is never found. -/
theorem Unclaimed.not_finds (h : Unclaimed i o) (ht : Tidy i s) (hp : s.pc = .shmget d)
    (ho : o.shmget d = true) (hg : s.Finds d id g) : g.content.length < d.size := by
  obtain ⟨hid, hkey, hne⟩ := hg
  rw [ht.outside (by simp [hp, PC.Inside])] at hid
  cases d with
  | basic =>
    rcases h with h | h
    · simp [h] at ho
    · exact h id g hid hkey
  | info | multiple => exact (hne rfl).elim

/-- Once a `waitpid` has returned only the other child may be left. -/
theorem mayHave_afterWait (hv : (PC.wait d k).Valid) (h : (PC.wait d k).MayHave r) (hr : r ≠ k) :
    (PC.afterWait d k).MayHave r := by
  cases d <;> cases k <;> cases r <;> simp_all [PC.afterWait, PC.MayHave, PC.Valid]

theorem attached_of_alone (h : ∀ k, s.child k = none) : s.attached = s.pc.attached := by
  simp [State.attached, State.childAttached, h]

/-- Inside a function and without children. -/
theorem tidy_of_alone (hnone : ∀ k, s.child k = none) (hin : s.pc.Inside) (hvalid : s.pc.Valid)
    (hown : Own i s.store s.shmid s.pc.attached) : Tidy i s where
  outside h := (h hin).elim
  inside _ := by
    rw [attached_of_alone hnone]
    exact hown
  child k h := (h (hnone k)).elim
  valid := hvalid

/-- Before the first `fork` and after the last `waitpid`. -/
theorem Tidy.alone {pc : PC} (ht : Tidy i s) (hp : s.pc = pc) (hmay : ∀ k, ¬ pc.MayHave k)
    (hinside : pc.Inside) :
    (∀ k, s.child k = none) ∧ Own i s.store s.shmid pc.attached := by
  subst hp
  have hnone : ∀ k, s.child k = none := fun k => ht.child_eq_none (hmay k)
  have hin := ht.inside hinside
  rw [attached_of_alone hnone] at hin
  exact ⟨hnone, hin⟩

/-- A `waitpid` that returns: the child it was for is gone. -/
theorem Tidy.wait (ht : Tidy i s) (hp : s.pc = .wait d k) (hpc : s'.pc = .afterWait d k)
    (hsame : s'.store = s.store ∧ s'.shmid = s.shmid ∧ s'.pid = s.pid)
    (hattached : ∀ r, s'.childAttached r = s.childAttached r)
    (hchild : ∀ r, s'.child r ≠ none → s.child r ≠ none ∧ r ≠ k) : Tidy i s' := by
  have hvalid : (PC.wait d k).Valid := hp ▸ ht.valid
  have hin := ht.inside (by simp [hp, PC.Inside])
  refine ⟨?_, fun _ => ?_, fun r hr => ?_, ?_⟩
  · rw [hpc]
    cases d <;> cases k <;> simp [PC.afterWait, PC.Inside]
  · rw [hsame.1, hsame.2.1]
    convert hin using 1
    simp only [State.attached, hattached, hpc, hp]
    cases d <;> cases k <;> rfl
  · obtain ⟨hr', hne⟩ := hchild r hr
    have hmay := ht.child r hr'
    rw [hpc, hsame.2.2]
    exact ⟨mayHave_afterWait hvalid (hp ▸ hmay.1) hne, hmay.2⟩
  · rw [hpc]
    cases d <;> cases k <;> simp_all [PC.afterWait, PC.Valid]

/-- A step of a child. -/
theorem Tidy.childStep (ht : Tidy i s) (hk : s.child k ≠ none)
    (hsame : s'.pc = s.pc ∧ s'.pid = s.pid) (hchild : ∀ r, r ≠ k → s'.child r = s.child r)
    (hown : Own i s'.store s'.shmid s'.attached) : Tidy i s' where
  outside h := by
    rw [hsame.1] at h
    exact (h (PC.inside_of_mayHave (ht.child k hk).1)).elim
  inside _ := hown
  child r hr := by
    rw [hsame.1, hsame.2]
    by_cases he : r = k
    · exact he ▸ ht.child k hk
    · exact ht.child r (hchild r he ▸ hr)
  valid := hsame.1 ▸ ht.valid

/-- A `fork`, whether it succeeds or not. -/
theorem Tidy.fork (ht : Tidy i s) (hp : s.pc = .fork d k)
    (hpc : s'.pc = .afterFork d k ∨ s'.pc = .afterForkFail d k ∧ s'.child k = none)
    (hother : ∀ r, r ≠ k → s'.child r = s.child r ∧ s'.pid r = s.pid r)
    (hpid : s'.child k ≠ none → s'.pid k = true)
    (hown : Own i s'.store s'.shmid s'.attached) : Tidy i s' := by
  have hvalid : (PC.fork d k).Valid := hp ▸ ht.valid
  refine ⟨fun h => ?_, fun _ => hown, fun r hr => ?_, ?_⟩
  · rcases hpc with hpc | ⟨hpc, -⟩ <;> rw [hpc] at h <;>
      cases d <;> cases k <;> simp [PC.afterForkFail, PC.afterFork, PC.Inside] at h
  · by_cases he : r = k
    · subst he
      refine ⟨?_, hpid hr⟩
      rcases hpc with hpc | ⟨-, hnone⟩
      · rw [hpc]
        cases d <;> cases r <;> simp_all [PC.afterFork, PC.MayHave, PC.Valid]
      · exact (hr hnone).elim
    · have hmay := ht.child r ((hother r he).1 ▸ hr)
      refine ⟨?_, (hother r he).2.trans hmay.2⟩
      rcases hpc with hpc | ⟨hpc, -⟩ <;> rw [hpc] <;> cases d <;> cases k <;> cases r <;>
        simp_all [PC.afterForkFail, PC.afterFork, PC.MayHave, PC.Valid]
  · rcases hpc with hpc | ⟨hpc, -⟩ <;> rw [hpc] <;> cases d <;> cases k <;>
      simp_all [PC.afterForkFail, PC.afterFork, PC.Valid]

theorem tidy_step (h : Step o s x s') (hu : Unclaimed i o) (ht : Tidy i s) : Tidy i s' := by
  cases h with
  | @getFail d hp ho =>
    have hnone : ∀ k, s.child k = none := fun k => ht.child_eq_none (by simp [hp, PC.MayHave])
    refine ⟨fun _ => ht.outside (by simp [hp, PC.Inside]), ?_, by simp [hnone], ?_⟩
    · cases d <;> simp [PC.afterDemo, PC.Inside]
    · cases d <;> trivial
  | @getFound d id g hp ho hg hsize =>
    exact absurd hsize (Nat.not_le.mpr (hu.not_finds ht hp ho hg))
  | @getNew d id hp ho hg hid =>
    have hnone : ∀ k, s.child k = none := fun k => ht.child_eq_none (by simp [hp, PC.MayHave])
    have hstore := ht.outside (by simp [hp, PC.Inside])
    have hown := own_new (i := i) (hstore ▸ hid) d.key d.size
    rw [← hstore] at hown
    cases d <;> exact tidy_of_alone hnone trivial trivial hown
  | stat hp | attachFail hp | initialized hp =>
    obtain ⟨hnone, hin⟩ := ht.alone hp (fun _ => id) trivial
    exact tidy_of_alone hnone trivial trivial hin
  | @attach d hp ho =>
    obtain ⟨hnone, hin⟩ := ht.alone hp (fun _ => id) trivial
    exact tidy_of_alone hnone trivial trivial hin.attach
  | @init d a code hp =>
    obtain ⟨hnone, hin⟩ := ht.alone hp (fun _ => id) trivial
    exact tidy_of_alone hnone trivial trivial (hin.write (a.run 0 s.content).2)
  | @fork d k hp ho =>
    have hk : s.child k = none := ht.child_eq_none (by cases k <;> simp [hp, PC.MayHave])
    refine ht.fork hp (Or.inl rfl) (fun r hr => by simp [hr]) (fun _ => by simp) ?_
    convert (ht.inside (by simp [hp, PC.Inside])).attach using 1
    cases d <;> cases k <;>
      simp [State.attached, State.childAttached, PC.attached, PC.afterFork, hp, hk] <;> omega
  | @forkFail d k hp ho =>
    have hk : s.child k = none := ht.child_eq_none (by cases k <;> simp [hp, PC.MayHave])
    refine ht.fork hp (Or.inr ⟨rfl, hk⟩) (fun r hr => by simp [hr]) (fun h => (h hk).elim) ?_
    convert ht.inside (by simp [hp, PC.Inside]) using 1
    cases d <;> cases k <;> simp [State.attached, State.childAttached, PC.attached,
      PC.afterForkFail, PC.afterFork, hp]
  | @reap d k r c hp hr hc hx =>
    refine ht.wait hp rfl ⟨rfl, rfl, rfl⟩ (fun r' => ?_) fun r' hr' => ?_
    · by_cases he : r' = r
      · subst he
        simp [State.childAttached, hc, show c.attached = false from hx]
      · simp [State.childAttached, he]
    · have hne : r' ≠ r := by
        rintro rfl
        simp at hr'
      have hleft : s.child r' ≠ none := by simpa [hne] using hr'
      refine ⟨hleft, ?_⟩
      rintro rfl
      exact hne (hr (ht.child r' hleft).2).symm
  | @echild d k hp hr =>
    refine ht.wait hp rfl ⟨rfl, rfl, rfl⟩ (fun _ => rfl) fun r hr' => ⟨hr', ?_⟩
    rintro rfl
    exact hr' (hr r fun _ => rfl)
  | @detach d hp =>
    obtain ⟨hnone, hin⟩ := ht.alone hp (fun _ => id) trivial
    exact tidy_of_alone hnone trivial trivial hin.detach
  | @rmid d hp =>
    obtain ⟨hnone, hin⟩ := ht.alone hp (fun _ => id) trivial
    refine ⟨fun _ => hin.remove, ?_, by simp [hnone], ?_⟩
    · cases d <;> simp [PC.afterDemo, PC.Inside]
    · cases d <;> trivial
  | @childAccess k a code value hc =>
    have hin := ht.inside (PC.inside_of_mayHave (ht.child k (by simp [hc])).1)
    refine ht.childStep (k := k) (by simp [hc]) ⟨rfl, rfl⟩ (fun r hr => by simp [hr]) ?_
    convert hin.write (a.run value s.content).2 using 1
    cases k <;> simp [State.attached, State.childAttached, hc]
  | @childDetach k value hc =>
    have hin := ht.inside (PC.inside_of_mayHave (ht.child k (by simp [hc])).1)
    refine ht.childStep (k := k) (by simp [hc]) ⟨rfl, rfl⟩ (fun r hr => by simp [hr]) ?_
    refine Own.detach ?_
    convert hin using 1
    cases k with
    | first =>
      simp [State.attached, State.childAttached, hc]
      omega
    | second => simp [State.attached, State.childAttached, hc]

theorem tidy_reachable (hu : Unclaimed i o) (h : (system i o).Reachable s) : Tidy i s := by
  apply h.invariant
  · rintro _ rfl
    exact tidy_start i
  · intro s x s' hs ht
    exact tidy_step hs hu ht

/-! ### Somebody else's segment -/

/-- The first function has returned. -/
def PC.Later : PC → Prop
  | .shmget d | .shmat d | .init d _ | .fork d _ | .wait d _ | .shmdt d | .rmid d => d ≠ .basic
  | .stat | .done => True

/-- No segment `id` with a key is left. -/
def KeyGone (σ : Store) (id : ℕ) : Prop :=
  ∀ g, σ id = some g → g.key = IPC_PRIVATE

/-- The first function works on the segment `id` it has found, and afterwards its key is gone. -/
structure Taken (i : Segments) (id : ℕ) (s : State) : Prop where
  before : s.pc = .shmget .basic → s.store = i.store ∧ ∀ k, s.child k = none
  inside : ¬ s.pc.Later → s.pc ≠ .shmget .basic → s.shmid = id
  later : s.pc.Later → KeyGone s.store id

/-- None of the calls on a segment gives it a key. -/
def KeepsKey (f : Segment → Option Segment) : Prop :=
  ∀ g g', f g = some g' → g.key = IPC_PRIVATE → g'.key = IPC_PRIVATE

theorem keepsKey_attach : KeepsKey Segment.attach := by
  rintro g _ ⟨⟩ h
  exact h

theorem keepsKey_write (content : List UInt8) : KeepsKey (Segment.write content) := by
  rintro g _ ⟨⟩ h
  exact h

theorem keepsKey_detach : KeepsKey Segment.detach := by
  intro g g' hg h
  unfold Segment.detach at hg
  split at hg
  · cases hg
  · cases hg
    exact h

theorem keepsKey_remove : KeepsKey Segment.remove := by
  intro g g' hg h
  unfold Segment.remove at hg
  split at hg
  · cases hg
  · cases hg
    rfl

theorem KeyGone.modify {σ : Store} (h : KeyGone σ id) (hf : KeepsKey f) :
    KeyGone (σ.modify n f) id := by
  intro g hg
  by_cases he : id = n
  · subst he
    cases hσ : σ id with
    | none => simp [Store.modify, hσ] at hg
    | some g₀ =>
      rw [modify_self σ hσ] at hg
      exact hf g₀ g hg (h g₀ hσ)
  · rw [modify_of_ne σ he] at hg
    exact h g hg

/-- `IPC_RMID` takes the key away, whoever else is attached. -/
theorem keyGone_remove (σ : Store) : KeyGone (σ.modify id Segment.remove) id := by
  intro g hg
  cases hσ : σ id with
  | none => simp [Store.modify, hσ] at hg
  | some g₀ =>
    rw [modify_self σ hσ] at hg
    unfold Segment.remove at hg
    split at hg
    · cases hg
    · cases hg
      rfl

/-- A call of one function on its segment. -/
theorem Taken.modify (ht : Taken i id s) (hp : s.pc ≠ .shmget .basic) (hf : KeepsKey f)
    (hid : s'.shmid = s.shmid) (hstore : s'.store = s.store.modify s.shmid f)
    (hp' : s'.pc ≠ .shmget .basic) (hl : s'.pc.Later ↔ s.pc.Later) : Taken i id s' where
  before h := (hp' h).elim
  inside h _ := hid.trans (ht.inside (mt hl.mpr h) hp)
  later h := by
    rw [hstore]
    exact (ht.later (hl.mp h)).modify hf

/-- A call that leaves the segments alone. -/
theorem Taken.keep (ht : Taken i id s) (hp : s.pc ≠ .shmget .basic) (hid : s'.shmid = s.shmid)
    (hstore : s'.store = s.store) (hp' : s'.pc ≠ .shmget .basic)
    (hl : s'.pc.Later ↔ s.pc.Later) : Taken i id s' where
  before h := (hp' h).elim
  inside h _ := hid.trans (ht.inside (mt hl.mpr h) hp)
  later h := by
    rw [hstore]
    exact ht.later (hl.mp h)

/-- A new segment of a later function is under no key. -/
theorem Taken.new {size : ℕ} (ht : Taken i id s) (hl : s.pc.Later)
    (hstore : s'.store = Function.update s.store n (some (.new IPC_PRIVATE size)))
    (hp' : s'.pc ≠ .shmget .basic) (hl' : s'.pc.Later) : Taken i id s' where
  before h := (hp' h).elim
  inside h _ := (h hl').elim
  later _ g hg := by
    rw [hstore] at hg
    by_cases he : id = n
    · subst he
      simp only [Function.update_self, Option.some.injEq] at hg
      rw [← hg]
      rfl
    · rw [Function.update_of_ne he] at hg
      exact ht.later hl g hg

/-- The only segment the first function can find. -/
theorem Taken.finds_eq (ht : Taken i id s) (hid : i.store id = some g) (hkey : g.key = SHM_KEY)
    (hp : s.pc = .shmget .basic) {g' : Segment} (h : s.Finds .basic n g') : n = id ∧ g' = g := by
  obtain ⟨hn, hkey', hne⟩ := h
  rw [(ht.before hp).1] at hn
  have he : n = id := i.key_unique hn hid (hkey'.trans hkey.symm) (by rwa [hkey'])
  subst he
  exact ⟨rfl, by simpa [hid] using hn.symm⟩

theorem taken_step (h : Step o s x s') (ho : o.shmget .basic = true) (hid : i.store id = some g)
    (hkey : g.key = SHM_KEY) (hsize : sizeofSharedData ≤ g.content.length)
    (ht : Taken i id s) : Taken i id s' := by
  have hfinds : s.pc = .shmget .basic → s.Finds .basic id g := by
    intro hp
    exact ⟨by rw [(ht.before hp).1, hid], hkey, by decide⟩
  cases h with
  | @getFail d hp ho' =>
    cases d with
    | basic =>
      rcases ho' with ho' | ⟨n, g', hg', hlen⟩
      · simp [ho] at ho'
      · obtain ⟨-, rfl⟩ := ht.finds_eq hid hkey hp hg'
        exact absurd hsize (Nat.not_le.mpr hlen)
    | info | multiple =>
      exact ht.keep (by simp [hp]) rfl rfl (by simp [PC.afterDemo])
        (by simp [hp, PC.afterDemo, PC.Later])
  | @getFound d n g' hp ho' hg' hsize' =>
    cases d with
    | basic =>
      obtain ⟨rfl, -⟩ := ht.finds_eq hid hkey hp hg'
      exact ⟨by simp [PC.afterGet], fun _ _ => rfl, by simp [PC.afterGet, PC.Later]⟩
    | info | multiple => exact (hg'.2.2 rfl).elim
  | @getNew d n hp ho' hg' hn =>
    cases d with
    | basic => exact (hg' id g (hfinds hp)).elim
    | info | multiple =>
      exact ht.new (by simp [hp, PC.Later]) rfl (by simp [PC.afterGet])
        (by simp [PC.afterGet, PC.Later])
  | stat hp => exact ht.keep (by simp [hp]) rfl rfl (by simp) (by simp [hp, PC.Later])
  | @attachFail d hp _ => exact ht.keep (by simp [hp]) rfl rfl (by simp) (by simp [hp, PC.Later])
  | @attach d hp _ =>
    exact ht.modify (by simp [hp]) keepsKey_attach rfl rfl (by simp) (by simp [hp, PC.Later])
  | @init d a code hp =>
    exact ht.modify (by simp [hp]) (keepsKey_write _) rfl rfl (by simp) (by simp [hp, PC.Later])
  | @initialized d hp => exact ht.keep (by simp [hp]) rfl rfl (by simp) (by simp [hp, PC.Later])
  | @fork d k hp _ =>
    refine ht.modify (by simp [hp]) keepsKey_attach rfl rfl ?_ ?_ <;>
      cases d <;> cases k <;> simp [hp, PC.afterFork, PC.Later]
  | @forkFail d k hp _ =>
    refine ht.keep (by simp [hp]) rfl rfl ?_ ?_ <;>
      cases d <;> cases k <;> simp [hp, PC.afterForkFail, PC.afterFork, PC.Later]
  | @reap d k r c hp hr hc hx =>
    refine ht.keep (by simp [hp]) rfl rfl ?_ ?_ <;>
      cases d <;> cases k <;> simp [hp, PC.afterWait, PC.Later]
  | @echild d k hp hr =>
    refine ht.keep (by simp [hp]) rfl rfl ?_ ?_ <;>
      cases d <;> cases k <;> simp [hp, PC.afterWait, PC.Later]
  | @detach d hp =>
    exact ht.modify (by simp [hp]) keepsKey_detach rfl rfl (by simp) (by simp [hp, PC.Later])
  | @rmid d hp =>
    cases d with
    | basic =>
      refine ⟨by simp [PC.afterDemo], by simp [PC.afterDemo, PC.Later], fun _ => ?_⟩
      rw [← ht.inside (by simp [hp, PC.Later]) (by simp [hp])]
      exact keyGone_remove _
    | info | multiple =>
      exact ht.modify (by simp [hp]) keepsKey_remove rfl rfl (by simp [PC.afterDemo])
        (by simp [hp, PC.afterDemo, PC.Later])
  | @childAccess k a code value hc =>
    have hp : s.pc ≠ .shmget .basic := fun hp => by simp [(ht.before hp).2] at hc
    exact ht.modify hp (keepsKey_write _) rfl rfl hp Iff.rfl
  | @childDetach k value hc =>
    have hp : s.pc ≠ .shmget .basic := fun hp => by simp [(ht.before hp).2] at hc
    exact ht.modify hp keepsKey_detach rfl rfl hp Iff.rfl

theorem taken_start (i : Segments) (id : ℕ) : Taken i id (start i) where
  before _ := ⟨rfl, fun _ => rfl⟩
  inside _ h := (h rfl).elim
  later h := (h rfl).elim

theorem taken_reachable (ho : o.shmget .basic = true) (hid : i.store id = some g)
    (hkey : g.key = SHM_KEY) (hsize : sizeofSharedData ≤ g.content.length)
    (h : (system i o).Reachable s) : Taken i id s := by
  apply h.invariant
  · rintro _ rfl
    exact taken_start i id
  · intro s x s' hs ht
    exact taken_step hs ho hid hkey hsize ht

/-! ### Whole runs -/

theorem ends_of_unclaimed (hu : Unclaimed i o) : (system i o).Ends (LeftAlone i) := by
  refine .of_measure (μ := State.left) (n := (start i).left) ?_ (fun _ _ _ _ => step_left) ?_
  · rintro _ rfl
    exact Nat.le_refl _
  · intro s hs hterm
    have hp := done_of_terminal hs hterm
    exact ⟨hp, (tidy_reachable hu hs).outside (by simp [hp, PC.Inside])⟩

theorem not_left_alone (ho : o.shmget .basic = true) (hid : i.store id = some g)
    (hkey : g.key = SHM_KEY) (hsize : sizeofSharedData ≤ g.content.length) :
    ¬ (system i o).Ends (LeftAlone i) := by
  intro h
  obtain ⟨s, hs, -, hp, hstore⟩ := h.exists_final rfl
  have hgone := (taken_reachable ho hid hkey hsize hs).later (by simp [hp, PC.Later])
  rw [hstore] at hgone
  have hprivate := hgone g hid
  rw [hkey] at hprivate
  exact absurd hprivate (by decide)

/-- One segment of 108 bytes under the key, in use by another program. -/
def claimed : Segments where
  store id := if id = 7 then some ⟨SHM_KEY, List.replicate 108 1, 1, false⟩ else none
  bound := 8
  none_of_le id h := if_neg (by omega)
  key_unique {id id' g g'} h h' _ _ := by
    by_cases he : id = 7
    · by_cases he' : id' = 7
      · rw [he, he']
      · simp [he'] at h'
    · simp [he] at h

/-- The other program's segment is overwritten and marked for destruction. -/
theorem other_segment_removed : ¬ ∀ (i : Segments) (o : Outcomes),
    (system i o).Ends (LeftAlone i) := by
  intro h
  refine not_left_alone (i := claimed) (o := ⟨fun _ => true, fun _ => true, fun _ _ => true, 42⟩)
    rfl (if_pos rfl) rfl ?_ (h _ _)
  simp [sizeofSharedData]

/-- The segments are left alone in every run exactly when no segment that could pass for its own
is under the key, or the first `shmget` fails. -/
theorem left_alone_iff (i : Segments) (o : Outcomes) :
    (system i o).Ends (LeftAlone i) ↔
      (o.shmget .basic = false ∨
        ∀ id g, i.store id = some g → g.key = SHM_KEY → g.content.length < sizeofSharedData) := by
  constructor
  · intro h
    by_contra hn
    simp only [not_or, Bool.not_eq_false, not_forall, Nat.not_lt] at hn
    obtain ⟨ho, id, g, hid, hkey, hsize⟩ := hn
    exact not_left_alone ho hid hkey hsize h
  · exact ends_of_unclaimed

end SystemCalls.ShmDemo

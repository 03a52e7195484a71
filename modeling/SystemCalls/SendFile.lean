import SystemCalls.WriteLoops

/-!
# `send_all_file`

The loop around `sendfile`, on the answers of the kernel. The file may change its length during
the call; the loop goes by the size that `fstat` has reported.
-/

namespace SystemCalls.SendFile

open WriteLoops

/-- At its next `sendfile`, or returned. -/
inductive Loop
  | sending (offset : ℕ)
  | returned (ret : ℤ)
  deriving DecidableEq

/-- `while (offset < st.st_size)`, with the `return` after it. -/
def whileLeft (st_size offset : ℕ) : Loop :=
  if offset < st_size then .sending offset else .returned 0

/-- The body of the loop from the return of `sendfile` on; a count has moved `offset` on. -/
def body (st_size offset : ℕ) : Answer → Loop
  | .error e => if e = .eintr then whileLeft st_size offset else .returned (-1)
  | .count n => if n = 0 then .returned 0 else whileLeft st_size (offset + n)

/-- `send_all_file` after `k` answers of `sendfile`. -/
def sendAllFile (st_size : ℕ) (ans : ℕ → Answer) : ℕ → Loop
  | 0 => whileLeft st_size 0
  | k + 1 =>
    match sendAllFile st_size ans k with
    | .sending offset => body st_size offset (ans k)
    | .returned ret => .returned ret

/-- The positions of the file that the first `k` answers handed to `out_fd`, in order. -/
def handed (st_size : ℕ) (ans : ℕ → Answer) (k : ℕ) : List ℕ :=
  (List.range k).flatMap fun j =>
    match sendAllFile st_size ans j with
    | .sending offset => List.range' offset (ans j).bytes
    | .returned _ => []

/-- The call returns 0 if and only if every position has been handed over once and in order. -/
def Reports (st_size : ℕ) (ans : ℕ → Answer) : Prop :=
  (∃ k, sendAllFile st_size ans k = .returned 0) ↔
    ∃ k, handed st_size ans k = List.range st_size

variable {st_size k j : ℕ} {ans : ℕ → Answer}

theorem handed_succ : handed st_size ans (k + 1) = handed st_size ans k ++
    match sendAllFile st_size ans k with
    | .sending offset => List.range' offset (ans k).bytes
    | .returned _ => [] := by
  simp [handed, List.range_succ]

/-- How a run without an early 0 stands after `k` answers. -/
inductive Outcome (st_size : ℕ) (ans : ℕ → Answer) (k : ℕ) : Prop
  | sending (ho : ¬ Over st_size ans k)
      (hr : sendAllFile st_size ans k = .sending (total ans k))
      (hh : handed st_size ans k = List.range (total ans k))
  | complete (ho : Over st_size ans k) (hr : sendAllFile st_size ans k = .returned 0)
      (hh : handed st_size ans k = List.range st_size)
  | failed (ho : Over st_size ans k) (hr : sendAllFile st_size ans k = .returned (-1))
      (hh : (handed st_size ans k).length < st_size)

theorem Outcome.length_lt (h : Outcome st_size ans k) (hle : total ans k ≤ st_size)
    (hr : sendAllFile st_size ans k ≠ .returned 0) : (handed st_size ans k).length < st_size := by
  cases h with
  | sending ho _ hh =>
    rw [hh, List.length_range]
    exact lt_of_le_of_ne hle fun he => ho (.inl he)
  | complete _ hr' => exact (hr hr').elim
  | failed _ _ hh => exact hh

/-- Everything has been sent when the offset reaches the size. -/
theorem Outcome.of_whileLeft (hle : total ans k ≤ st_size)
    (hr : sendAllFile st_size ans k = whileLeft st_size (total ans k))
    (hh : handed st_size ans k = List.range (total ans k))
    (he : ∀ j < k, ∀ e, ans j = .error e → e = .eintr) : Outcome st_size ans k := by
  by_cases hlt : total ans k < st_size
  · refine .sending ?_ (by rw [hr, whileLeft, if_pos hlt]) hh
    rintro (hall | ⟨j, hj, e, hje, hne⟩)
    · omega
    · exact hne (he j hj e hje)
  · have heq : total ans k = st_size := by omega
    exact .complete (.inl heq) (by rw [hr, whileLeft, if_neg hlt]) (by rw [hh, heq])

/-- The bytes of one more answer follow the ones before. -/
theorem handed_sending (hr : sendAllFile st_size ans k = .sending (total ans k))
    (hh : handed st_size ans k = List.range (total ans k)) :
    handed st_size ans (k + 1) = List.range (total ans (k + 1)) := by
  rw [handed_succ, hr, hh, total_succ]
  simp only [List.range_eq_range']
  simpa using List.range'_append_1 (s := 0) (m := total ans k) (n := (ans k).bytes)

theorem Outcome.sending_succ (hle : ∀ k, total ans k ≤ st_size) (ho : ¬ Over st_size ans k)
    (hr : sendAllFile st_size ans k = .sending (total ans k))
    (hh : handed st_size ans k = List.range (total ans k)) (hzero : ans k ≠ .count 0) :
    Outcome st_size ans (k + 1) := by
  have hsucc := total_succ ans k
  have hhanded := handed_sending hr hh
  have hbefore : ∀ j < k, ∀ e, ans j = .error e → e = .eintr := by
    intro j hj e hje
    by_contra hne
    exact ho (.inr ⟨j, hj, e, hje, hne⟩)
  have hupto (hk : ∀ e, ans k = .error e → e = .eintr) :
      ∀ j < k + 1, ∀ e, ans j = .error e → e = .eintr := by
    intro j hj e hje
    rcases Nat.lt_succ_iff_lt_or_eq.mp hj with hj | rfl
    · exact hbefore j hj e hje
    · exact hk e hje
  cases ha : ans k with
  | count n =>
    have hn : n ≠ 0 := fun hn => hzero (by rw [ha, hn])
    rw [ha, Answer.bytes] at hsucc
    refine .of_whileLeft (hle _) ?_ hhanded (hupto ?_)
    · simp [sendAllFile, hr, body, ha, hn, hsucc]
    · simp [ha]
  | error e =>
    rw [ha, Answer.bytes, Nat.add_zero] at hsucc
    by_cases he : e = .eintr
    · refine .of_whileLeft (hle _) ?_ hhanded (hupto ?_)
      · simp [sendAllFile, hr, body, ha, he, hsucc]
      · simp [ha, he]
    · refine .failed (.inr ⟨k, by omega, e, ha, he⟩) (by simp [sendAllFile, hr, body, ha, he]) ?_
      rw [hhanded, List.length_range, hsucc]
      exact lt_of_le_of_ne (hle k) fun hall => ho (.inl hall)

theorem outcome (hle : ∀ k, total ans k ≤ st_size)
    (h : ∀ j < k, ans j = .count 0 → Over st_size ans j) : Outcome st_size ans k := by
  induction k with
  | zero => exact .of_whileLeft (hle 0) rfl (by simp [handed]) (by simp)
  | succ k ih =>
    cases ih fun j hj => h j (by omega) with
    | sending ho hr hh =>
      exact .sending_succ hle ho hr hh fun hzero => ho (h k (Nat.lt_succ_self k) hzero)
    | complete ho hr hh =>
      exact .complete (ho.succ (hle _)) (by simp [sendAllFile, hr]) (by simp [handed_succ, hr, hh])
    | failed ho hr hh =>
      refine .failed (ho.succ (hle _)) (by simp [sendAllFile, hr]) ?_
      simpa [handed_succ, hr] using hh

/-- After it has returned nothing changes any more. -/
theorem sendAllFile_of_returned {ret : ℤ} (h : sendAllFile st_size ans k = .returned ret)
    (hj : k ≤ j) : sendAllFile st_size ans j = .returned ret ∧
      handed st_size ans j = handed st_size ans k := by
  induction j, hj using Nat.le_induction with
  | base => exact ⟨h, rfl⟩
  | succ j _ ih => exact ⟨by simp [sendAllFile, ih.1], by simp [handed_succ, ih.1, ih.2]⟩

/-- Success means a complete transfer exactly when no `sendfile` of the loop returns 0. -/
theorem reports_iff (st_size : ℕ) (a : Answers st_size) :
    Reports st_size a.ans ↔ ∀ k, a.ans k = .count 0 → Over st_size a.ans k := by
  have hle := a.total_le
  constructor
  · intro h k
    induction k using Nat.strongRecOn with
    | ind k ih =>
      intro hk
      by_contra hnot
      have hr : sendAllFile st_size a.ans k = .sending (total a.ans k) := by
        cases outcome hle ih with
        | sending _ hr _ => exact hr
        | complete ho | failed ho => exact (hnot ho).elim
      have hnext : sendAllFile st_size a.ans (k + 1) = .returned 0 := by
        simp [sendAllFile, hr, body, hk]
      -- It has returned 0, so something must have been complete; but nothing ever is.
      obtain ⟨m, hm⟩ := h.mp ⟨k + 1, hnext⟩
      have hlt (j : ℕ) (hj : j ≤ k) : (handed st_size a.ans j).length < st_size := by
        refine (outcome hle fun i hi => ih i (by omega)).length_lt (hle j) fun hret => ?_
        have hsame := (sendAllFile_of_returned hret hj).1
        rw [hr] at hsame
        cases hsame
      have hmlt : (handed st_size a.ans m).length < st_size := by
        by_cases hmk : m ≤ k
        · exact hlt m hmk
        · rw [(sendAllFile_of_returned hnext (by omega)).2, handed_succ, hr]
          simpa [hk, Answer.bytes] using hlt k le_rfl
      rw [hm, List.length_range] at hmlt
      exact lt_irrefl _ hmlt
  · intro h
    have hout (k : ℕ) : Outcome st_size a.ans k := outcome hle fun j _ => h j
    constructor
    · rintro ⟨k, hk⟩
      cases hout k with
      | sending _ hr _ => simp [hr] at hk
      | complete _ _ hh => exact ⟨k, hh⟩
      | failed _ hr _ => simp [hr] at hk
    · rintro ⟨k, hk⟩
      by_contra hnone
      have hlt := (hout k).length_lt (hle k) fun hr => hnone ⟨k, hr⟩
      rw [hk, List.length_range] at hlt
      exact lt_irrefl _ hlt

/-- A file of two bytes, cut to one after `fstat`. -/
def truncated : Answers 2 where
  ans
    | 0 => .count 1
    | _ => .count 0
  valid := by
    intro k
    have htotal : total (fun | 0 => .count 1 | _ => .count 0) k = min 1 k := by
      induction k with
      | zero => rfl
      | succ k ih =>
        rw [total_succ, ih]
        cases k <;> simp [Answer.bytes]
    rw [htotal]
    cases k <;> simp [Answer.bytes]

/-- The second byte never arrives, and the call returns 0. -/
theorem truncated_reported : ¬ Reports 2 truncated.ans := by
  intro h
  have hret : sendAllFile 2 truncated.ans 2 = .returned 0 := by decide
  obtain ⟨k, hk⟩ := h.mp ⟨2, hret⟩
  have hlt : (handed 2 truncated.ans k).length < 2 := by
    rcases k with - | - | k
    · decide
    · decide
    · rw [(sendAllFile_of_returned hret (by omega)).2]
      decide
  rw [hk, List.length_range] at hlt
  exact lt_irrefl _ hlt

end SystemCalls.SendFile

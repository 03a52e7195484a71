import SystemCalls.Socket

/-!
# `resource_limits`: the CPU limit

`demonstrate_cpu_limit` lowers `RLIMIT_CPU` to two seconds, works for a moment and asks for
`RLIM_INFINITY` again. Without privilege a hard limit can only go down.
-/

namespace SystemCalls.ResourceLimits

/-- `rlim_t`. -/
abbrev Rlim := UInt64

def RLIM_INFINITY : Rlim := 0xFFFFFFFFFFFFFFFF

/-- `struct rlimit`, as a program fills it in. -/
structure Rlimit where
  rlim_cur : Rlim
  rlim_max : Rlim
  deriving DecidableEq

/-- The limit of a process: the kernel keeps the soft one within the hard one. -/
structure Limit extends Rlimit where
  soft_le : rlim_cur ≤ rlim_max

variable (privileged : Bool) (l : Limit) (new : Rlimit)

/-- `setrlimit`, with `CAP_SYS_RESOURCE` or without: the result and the limit afterwards. -/
def setrlimit : Except Errno Unit × Limit :=
  if h : new.rlim_cur ≤ new.rlim_max then
    if l.rlim_max < new.rlim_max ∧ privileged = false then (.error .eperm, l)
    else (.ok (), ⟨new, h⟩)
  else (.error .einval, l)

/-- The limit when the function returns. Only the first call is checked. -/
def demonstrate_cpu_limit : Limit :=
  match setrlimit privileged l ⟨2, 2⟩ with
  | (.error _, l) => l
  | (.ok (), l) => (setrlimit privileged l ⟨RLIM_INFINITY, RLIM_INFINITY⟩).2

variable {privileged l new}

theorem setrlimit_eperm (hle : new.rlim_cur ≤ new.rlim_max) (h : l.rlim_max < new.rlim_max) :
    setrlimit false l new = (.error .eperm, l) := by
  simp [setrlimit, hle, h]

theorem setrlimit_ok (hle : new.rlim_cur ≤ new.rlim_max)
    (h : privileged = true ∨ new.rlim_max ≤ l.rlim_max) :
    setrlimit privileged l new = (.ok (), ⟨new, hle⟩) := by
  have hn : ¬ (l.rlim_max < new.rlim_max ∧ privileged = false) := by
    rintro ⟨hlt, hp⟩
    rcases h with h | h
    · simp [hp] at h
    · exact UInt64.not_lt.mpr h hlt
  simp [setrlimit, hle, hn]

/-- What a call without privilege can do: change nothing, or lower the hard limit. -/
theorem setrlimit_unprivileged (l : Limit) (new : Rlimit) : (setrlimit false l new).2 = l ∨
    ((setrlimit false l new).2.toRlimit = new ∧ new.rlim_max ≤ l.rlim_max) := by
  by_cases hle : new.rlim_cur ≤ new.rlim_max
  · by_cases h : l.rlim_max < new.rlim_max
    · rw [setrlimit_eperm hle h]
      exact Or.inl rfl
    · rw [setrlimit_ok hle (Or.inr (UInt64.not_lt.mp h))]
      exact Or.inr ⟨rfl, UInt64.not_lt.mp h⟩
  · exact Or.inl (by simp [setrlimit, hle])

/-- Without privilege the hard limit never rises, whatever is asked for. -/
theorem rlim_max_le_of_unprivileged (l : Limit) (requests : List Rlimit) :
    (requests.foldl (fun l new => (setrlimit false l new).2) l).rlim_max ≤ l.rlim_max := by
  induction requests generalizing l with
  | nil => exact UInt64.le_refl _
  | cons new requests ih =>
    have hfirst : (setrlimit false l new).2.rlim_max ≤ l.rlim_max := by
      rcases setrlimit_unprivileged l new with h | ⟨h, hle⟩
      · rw [h]
        exact UInt64.le_refl _
      · rwa [h]
    exact UInt64.le_trans (ih _) hfirst

/-- A privileged process is left without a limit. -/
theorem cpu_limit_privileged (l : Limit) :
    (demonstrate_cpu_limit true l).toRlimit = ⟨RLIM_INFINITY, RLIM_INFINITY⟩ := by
  rw [demonstrate_cpu_limit, setrlimit_ok (by decide) (Or.inl rfl)]
  simp only
  rw [setrlimit_ok (UInt64.le_refl _) (Or.inl rfl)]

/-- Without privilege a lower hard limit refuses the first call. -/
theorem cpu_limit_of_lt (h : l.rlim_max < 2) : demonstrate_cpu_limit false l = l := by
  rw [demonstrate_cpu_limit, setrlimit_eperm (by decide) h]

/-- The two seconds stay: the second call may not raise the hard limit again. -/
theorem cpu_limit_of_le (h : 2 ≤ l.rlim_max) :
    (demonstrate_cpu_limit false l).toRlimit = ⟨2, 2⟩ := by
  rw [demonstrate_cpu_limit, setrlimit_ok (by decide) (Or.inr h)]
  simp only
  rw [setrlimit_eperm (UInt64.le_refl _) (by decide)]

theorem Limit.eq_iff (l l' : Limit) : l = l' ↔ l.toRlimit = l'.toRlimit := by
  obtain ⟨_, _⟩ := l
  obtain ⟨_, _⟩ := l'
  simp

/-- An ordinary process without a limit is left with two seconds. -/
theorem not_restored_unlimited : ¬ ∀ (privileged : Bool) (l : Limit),
    demonstrate_cpu_limit privileged l = l := by
  intro h
  have hl := h false ⟨⟨RLIM_INFINITY, RLIM_INFINITY⟩, UInt64.le_refl _⟩
  have htwo := cpu_limit_of_le (l := ⟨⟨RLIM_INFINITY, RLIM_INFINITY⟩, UInt64.le_refl _⟩) (by decide)
  rw [hl] at htwo
  exact absurd htwo (by decide)

/-- The limit is restored exactly where both calls leave it as it is. -/
theorem restored_iff (privileged : Bool) (l : Limit) : demonstrate_cpu_limit privileged l = l ↔
    (privileged = false ∧ (l.rlim_max < 2 ∨ l.toRlimit = ⟨2, 2⟩)) ∨
      (privileged = true ∧ l.toRlimit = ⟨RLIM_INFINITY, RLIM_INFINITY⟩) := by
  cases privileged with
  | true =>
    rw [Limit.eq_iff, cpu_limit_privileged, eq_comm]
    simp
  | false =>
    by_cases h : l.rlim_max < 2
    · simp [cpu_limit_of_lt h, h]
    · rw [Limit.eq_iff, cpu_limit_of_le (UInt64.not_lt.mp h), eq_comm]
      simp [h]

end SystemCalls.ResourceLimits

import Mathlib.Logic.Function.Basic

/-!
# Epoll instances

The interest list of one epoll instance. A level-triggered descriptor is reported whenever it is
ready, an edge-triggered one once for what has arrived since it was last reported.
-/

namespace SystemCalls

namespace Epoll

inductive Entry
  /-- EPOLLIN alone. -/
  | level
  /-- With EPOLLET: `queued` if an event is still to be reported. -/
  | edge (queued : Bool)
  deriving DecidableEq

end Epoll

/-- An epoll instance, `none` for a descriptor that is not in its interest list. -/
@[ext] structure Epoll (D : Type*) where
  entry : D → Option Epoll.Entry

namespace Epoll

variable {D : Type*} {e : Epoll D} {d x : D} {ds : List D} {ready ready' : D → Prop}
  {served served' : D → Prop}

/-- The instance `epoll_create1` returns. -/
def empty : Epoll D := ⟨fun _ => none⟩

/-- An event of the edge-triggered `d` is still to be reported. -/
def Queued (e : Epoll D) (d : D) : Prop := e.entry d = some (.edge true)

/-- `d` is in the interest list, edge-triggered. -/
def Watched (e : Epoll D) (d : D) : Prop := ∃ queued, e.entry d = some (.edge queued)

/-- What `epoll_wait` may report. -/
def Pending (e : Epoll D) (ready : D → Prop) (d : D) : Prop :=
  match e.entry d with
  | none => False
  | some .level => ready d
  | some (.edge queued) => queued

theorem Queued.pending (h : e.Queued d) : e.Pending ready d := by
  simp only [Queued] at h
  simp [Pending, h]

section Operations

variable [DecidableEq D]

/-- `EPOLL_CTL_ADD`; an edge-triggered descriptor that is ready has an event at once. -/
def ctlAdd (e : Epoll D) (d : D) (entry : Entry) : Epoll D :=
  ⟨Function.update e.entry d (some entry)⟩

/-- The last descriptor of a file is closed, which takes it out of the interest list. -/
def remove (e : Epoll D) (d : D) : Epoll D := ⟨Function.update e.entry d none⟩

/-- Something has arrived at `d`. -/
def notify (e : Epoll D) (d : D) : Epoll D :=
  match e.entry d with
  | some (.edge _) => ⟨Function.update e.entry d (some (.edge true))⟩
  | some .level | none => e

/-- `epoll_wait` takes the events of `ds` from the queue. -/
def report (e : Epoll D) (ds : List D) : Epoll D where
  entry d :=
    match e.entry d with
    | some (.edge queued) => some (.edge (queued && !decide (d ∈ ds)))
    | other => other

@[simp] theorem queued_ctlAdd {entry : Entry} :
    (e.ctlAdd x entry).Queued d ↔ if d = x then entry = .edge true else e.Queued d := by
  by_cases h : d = x <;> simp [ctlAdd, Queued, h]

@[simp] theorem queued_remove : (e.remove x).Queued d ↔ d ≠ x ∧ e.Queued d := by
  by_cases h : d = x <;> simp [remove, Queued, h]

@[simp] theorem queued_report : (e.report ds).Queued d ↔ e.Queued d ∧ d ∉ ds := by
  simp only [report, Queued]
  split <;> simp_all

theorem queued_notify : (e.notify x).Queued d ↔ e.Queued d ∨ d = x ∧ e.Watched x := by
  by_cases h : d = x
  · subst d
    simp only [notify, Queued, Watched]
    split <;> simp_all
  · have hne : (e.notify x).entry d = e.entry d := by
      simp only [notify]
      split <;> simp [h]
    simp [Queued, hne, h]

theorem watched_ctlAdd {queued : Bool} : (e.ctlAdd x (.edge queued)).Watched x :=
  ⟨queued, by simp [ctlAdd]⟩

theorem Watched.notify (h : e.Watched d) : (e.notify x).Watched d := by
  obtain ⟨queued, hd⟩ := h
  by_cases hx : d = x
  · subst d
    exact ⟨true, by simp [Epoll.notify, hd]⟩
  · refine ⟨queued, ?_⟩
    simp only [Epoll.notify]
    split <;> simp [hx, hd]

theorem Watched.queued_notify (h : e.Watched x) : (e.notify x).Queued x :=
  Epoll.queued_notify.mpr (.inr ⟨rfl, h⟩)

theorem Watched.report (h : e.Watched d) : (e.report ds).Watched d := by
  obtain ⟨queued, hd⟩ := h
  exact ⟨queued && !decide (d ∈ ds), by simp [Epoll.report, hd]⟩

theorem report_of_not_queued (h : ∀ d ∈ ds, ¬ e.Queued d) : e.report ds = e := by
  ext1
  funext d
  have hd : e.entry d = some (.edge true) → d ∉ ds := fun hq hmem => h d hmem hq
  simp only [report]
  split <;> simp_all

theorem notify_ctlAdd {queued : Bool} :
    (e.ctlAdd x (.edge queued)).notify x = e.ctlAdd x (.edge true) := by
  simp [notify, ctlAdd]

theorem report_ctlAdd {queued : Bool} :
    (e.ctlAdd x (.edge queued)).report [x] = e.ctlAdd x (.edge false) := by
  ext1
  funext d
  by_cases h : d = x
  · simp [report, ctlAdd, h]
  · simp only [report, ctlAdd, Function.update_of_ne h]
    split <;> simp_all

end Operations

/-- No ready descriptor is forgotten: its event is queued, or it is being served. -/
def Attended (e : Epoll D) (ready served : D → Prop) : Prop :=
  ∀ d, ready d → e.Queued d ∨ served d

theorem Attended.mono (h : e.Attended ready served)
    (hr : ∀ d, ready' d → ready d ∨ served' d) (hs : ∀ d, served d → served' d) :
    e.Attended ready' served' := by
  intro d hd
  rcases hr d hd with hready | hserved
  · exact (h d hready).imp_right (hs d)
  · exact .inr hserved

/-- `x` has been served, and is not ready any more or has a new event. -/
theorem Attended.done (h : e.Attended ready served) (hx : ready x → e.Queued x)
    (hs : ∀ d, d ≠ x → served d → served' d) : e.Attended ready served' := by
  intro d hd
  by_cases hdx : d = x
  · subst d
    exact .inl (hx hd)
  · exact (h d hd).imp_right (hs d hdx)

/-- With nothing to report and nothing being served, nothing is ready. -/
theorem Attended.idle (h : e.Attended ready served) (hs : ∀ d, ¬ served d)
    (hp : ∀ d, ¬ e.Pending ready' d) (d : D) : ¬ ready d := by
  intro hd
  rcases h d hd with hq | hd
  · exact hp d hq.pending
  · exact hs d hd

variable [DecidableEq D]

/-- An arrival at `x`, which is watched or already being served. -/
theorem Attended.notify (h : e.Attended ready served) (hne : ∀ d, d ≠ x → ready' d → ready d)
    (hx : ready' x → ready x ∨ e.Watched x ∨ served x) :
    (e.notify x).Attended ready' served := by
  intro d hd
  rw [queued_notify]
  by_cases hdx : d = x
  · subst d
    rcases hx hd with hr | hw | hs
    · exact (h x hr).imp_left .inl
    · exact .inl (.inr ⟨rfl, hw⟩)
    · exact .inr hs
  · exact (h d (hne d hdx hd)).imp_left .inl

/-- The reported descriptors are the ones to serve. -/
theorem Attended.report (h : e.Attended ready served) (hs : ∀ d, served d → served' d)
    (hds : ∀ d ∈ ds, ready d → served' d) : (e.report ds).Attended ready served' := by
  intro d hd
  rw [queued_report]
  by_cases hmem : d ∈ ds
  · exact .inr (hds d hmem hd)
  · exact (h d hd).imp (fun hq => ⟨hq, hmem⟩) (hs d)

theorem Attended.ctlAdd {entry : Entry} (h : e.Attended ready served)
    (hx : ready x → entry = .edge true ∨ served' x) (hs : ∀ d, d ≠ x → served d → served' d) :
    (e.ctlAdd x entry).Attended ready served' := by
  intro d hd
  rw [queued_ctlAdd]
  by_cases hdx : d = x
  · subst d
    simpa using hx hd
  · simpa [hdx] using (h d hd).imp_right (hs d hdx)

theorem Attended.remove (h : e.Attended ready served) (hx : ¬ ready' x)
    (hne : ∀ d, d ≠ x → ready' d → ready d) (hs : ∀ d, d ≠ x → served d → served' d) :
    (e.remove x).Attended ready' served' := by
  intro d hd
  rw [queued_remove]
  have hdx : d ≠ x := by
    rintro rfl
    exact hx hd
  exact (h d (hne d hdx hd)).imp (fun hq => ⟨hdx, hq⟩) (hs d hdx)

end Epoll

end SystemCalls

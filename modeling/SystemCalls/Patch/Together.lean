import SystemCalls.OpenFiles
import SystemCalls.Transition

/-!
# Several patches at once

Any number of patches of 2.3.6 with their calls in any order, each with `lseek` and `write` or
with the `pwrite` that the chapter gives as the thread-safe style. Descriptions may be shared.
-/

namespace SystemCalls.Patch

open OpenFiles

inductive Style
  | seekWrite
  | pwrite
  deriving DecidableEq

structure Job (ι : Type*) where
  style : Style
  file : ι
  off : ℕ
  text : List UInt8
  /-- The description behind `fd`. -/
  desc : ℕ

inductive PC
  | start
  /-- Between `lseek` and `write`. -/
  | sought
  | done (n : ℕ)
  | failed

structure Jobs (W ι : Type*) where
  kernel : Kernel ι
  pc : W → PC

namespace Jobs

variable {W ι : Type*} [DecidableEq W]

def set (s : Jobs W ι) (w : W) (kernel : Kernel ι) (pc : PC) : Jobs W ι where
  kernel := kernel
  pc := Function.update s.pc w pc

@[simp] theorem kernel_set {s : Jobs W ι} {w : W} {k' : Kernel ι} {p : PC} :
    (s.set w k' p).kernel = k' := rfl

@[simp] theorem pc_set_self {s : Jobs W ι} {w : W} {k' : Kernel ι} {p : PC} :
    (s.set w k' p).pc w = p :=
  Function.update_self ..

theorem pc_set_ne {s : Jobs W ι} {w : W} {k' : Kernel ι} {p : PC} {v : W} (h : v ≠ w) :
    (s.set w k' p).pc v = s.pc v :=
  Function.update_of_ne h ..

variable [DecidableEq ι]

/-- A call of one of the jobs; `write` and `pwrite` may store any part. -/
inductive Step (job : W → Job ι) : Jobs W ι → W → Jobs W ι → Prop
  | seek {s : Jobs W ι} {w : W} (h : s.pc w = .start) (hs : (job w).style = .seekWrite) :
      Step job s w (s.set w (s.kernel.seek (job w).desc (job w).off) .sought)
  | write {s : Jobs W ι} {w : W} {n : ℕ} (h : s.pc w = .sought) (hn : n ≤ (job w).text.length) :
      Step job s w (s.set w (s.kernel.write (job w).desc ((job w).text.take n)) (.done n))
  | pwrite {s : Jobs W ι} {w : W} {n : ℕ} (h : s.pc w = .start) (hs : (job w).style = .pwrite)
      (hn : n ≤ (job w).text.length) :
      Step job s w
        (s.set w (s.kernel.pwrite (job w).desc ((job w).text.take n) (job w).off) (.done n))
  | fails {s : Jobs W ι} {w : W} (h : s.pc w = .start ∨ s.pc w = .sought) :
      Step job s w (s.set w s.kernel .failed)

def system (job : W → Job ι) (k : Kernel ι) : LTS (Jobs W ι) W where
  initial s := s = ⟨k, fun _ => .start⟩
  step := Step job

/-- The ranges of one file do not meet, and no two jobs with `lseek` share a description. -/
structure Compatible (job : W → Job ι) (k : Kernel ι) : Prop where
  file : ∀ w, (k.description (job w).desc).inode = (job w).file
  apart : ∀ v w, v ≠ w → (job v).file = (job w).file →
    Apart (job v).off (job v).text (job w).off (job w).text
  own : ∀ v w, v ≠ w → (job v).style = .seekWrite → (job w).style = .seekWrite →
    (job v).desc ≠ (job w).desc

variable {job : W → Job ι} {k : Kernel ι} {s t : Jobs W ι} {w : W} {n : ℕ}

/-- The bytes of `w`'s text up to `n` are in their place. -/
def Stored (job : W → Job ι) (s : Jobs W ι) (w : W) (n : ℕ) : Prop :=
  n ≤ (job w).text.length ∧
    ∀ j < n, (s.kernel.content (job w).file)[(job w).off + j]? = (job w).text[j]?

/-- Nothing that is done has stored a byte there. -/
def Untouched (job : W → Job ι) (s : Jobs W ι) (f : ι) (i : ℕ) : Prop :=
  ∀ w n, s.pc w = .done n → (job w).file = f → ¬ ((job w).off ≤ i ∧ i < (job w).off + n)

structure Intact (job : W → Job ι) (k : Kernel ι) (s : Jobs W ι) : Prop where
  file : ∀ w, (s.kernel.description (job w).desc).inode = (job w).file
  sought : ∀ w, s.pc w = .sought → (job w).style = .seekWrite ∧
    (s.kernel.description (job w).desc).offset = (job w).off
  stored : ∀ w n, s.pc w = .done n → Stored job s w n
  untouched : ∀ f i, Untouched job s f i →
    (s.kernel.content f)[i]?.getD 0 = (k.content f)[i]?.getD 0

/-- One job stores its first `n` bytes where they belong. -/
theorem Intact.store {k' : Kernel ι} (hcomp : Compatible job k) (hs : Intact job k s)
    (hw : ∀ n, s.pc w ≠ .done n) (hn : n ≤ (job w).text.length)
    (hc : k'.content = Function.update s.kernel.content (job w).file
      (splice (s.kernel.content (job w).file) (job w).off ((job w).text.take n)))
    (hfile : ∀ v, (k'.description (job v).desc).inode = (job v).file)
    (hsought : ∀ v ≠ w, s.pc v = .sought → (k'.description (job v).desc).offset =
      (s.kernel.description (job v).desc).offset) :
    Intact job k (s.set w k' (.done n)) where
  file := hfile
  sought v hv := by
    by_cases hvw : v = w
    · subst hvw
      simp at hv
    · rw [pc_set_ne hvw] at hv
      exact ⟨(hs.sought v hv).1, (hsought v hvw hv).trans (hs.sought v hv).2⟩
  stored v m hv := by
    by_cases hvw : v = w
    · subst hvw
      cases (pc_set_self).symm.trans hv
      refine ⟨hn, fun j hj => ?_⟩
      have hne : (job v).text.take n ≠ [] := List.ne_nil_of_length_pos (by
        rw [List.length_take]
        omega)
      rw [kernel_set, hc, Function.update_self, getElem?_splice hne, if_neg (by omega),
        List.length_take, if_pos (by omega), Nat.add_sub_cancel_left,
        List.getElem?_take_of_lt hj]
    · rw [pc_set_ne hvw] at hv
      obtain ⟨hm, hall⟩ := hs.stored v m hv
      refine ⟨hm, fun j hj => ?_⟩
      rw [kernel_set, hc]
      by_cases hf : (job v).file = (job w).file
      · have happ := hcomp.apart v w hvw hf
        have hin : j < (job v).text.length := by omega
        have hbyte := hall j hj
        rw [List.getElem?_eq_getElem hin, hf] at hbyte
        rw [hf, Function.update_self, List.getElem?_eq_getElem hin]
        apply getElem?_splice_of_some hbyte
        rw [List.length_take]
        unfold Apart at happ
        omega
      · rw [Function.update_of_ne hf]
        exact hall j hj
  untouched f i hi := by
    have hold : Untouched job s f i := by
      intro v m hv
      have hvw : v ≠ w := by
        rintro rfl
        exact hw m hv
      exact hi v m ((pc_set_ne hvw).trans hv)
    rw [kernel_set, hc]
    by_cases hf : f = (job w).file
    · subst hf
      have hrange := hi w n pc_set_self rfl
      rw [Function.update_self, getD_splice, List.length_take, if_neg (by omega)]
      exact hs.untouched _ i hold
    · rw [Function.update_of_ne hf]
      exact hs.untouched f i hold

omit [DecidableEq ι] in
/-- No byte is stored. -/
theorem Intact.move {k' : Kernel ι} {p : PC} (hs : Intact job k s) (hw : ∀ n, s.pc w ≠ .done n)
    (hp : ∀ n, p ≠ .done n) (hc : k'.content = s.kernel.content)
    (hfile : ∀ v, (k'.description (job v).desc).inode = (job v).file)
    (hsought : ∀ v, (s.set w k' p).pc v = .sought → (job v).style = .seekWrite ∧
      (k'.description (job v).desc).offset = (job v).off) :
    Intact job k (s.set w k' p) where
  file := hfile
  sought := hsought
  stored v m hv := by
    by_cases hvw : v = w
    · subst hvw
      exact (hp m (pc_set_self.symm.trans hv)).elim
    · rw [pc_set_ne hvw] at hv
      rw [Stored, kernel_set, hc]
      exact hs.stored v m hv
  untouched f i hi := by
    rw [kernel_set, hc]
    refine hs.untouched f i fun v m hv => hi v m ?_
    have hvw : v ≠ w := by
      rintro rfl
      exact hw m hv
    rw [pc_set_ne hvw]
    exact hv

theorem intact_step (hcomp : Compatible job k) (h : Step job s w t) (hs : Intact job k s) :
    Intact job k t := by
  cases h with
  | seek hpc hstyle =>
    refine hs.move (by simp [hpc]) nofun rfl (by simpa using hs.file) fun v hv => ?_
    by_cases hvw : v = w
    · subst hvw
      simp [hstyle]
    · rw [pc_set_ne hvw] at hv
      obtain ⟨hvs, hoff⟩ := hs.sought v hv
      exact ⟨hvs, by rw [Kernel.offset_seek, if_neg (hcomp.own v w hvw hvs hstyle), hoff]⟩
  | write hpc hn =>
    obtain ⟨hstyle, hoff⟩ := hs.sought w hpc
    refine hs.store hcomp (by simp [hpc]) hn ?_ (by simpa using hs.file) fun v hvw hv => ?_
    · rw [Kernel.content_write, hs.file, hoff]
    · rw [Kernel.offset_write, if_neg (hcomp.own v w hvw (hs.sought v hv).1 hstyle)]
  | pwrite hpc _ hn =>
    refine hs.store hcomp (by simp [hpc]) hn ?_ (by simpa using hs.file) fun _ _ _ => rfl
    rw [Kernel.content_pwrite, hs.file]
  | fails hpc =>
    refine hs.move (by rcases hpc with hpc | hpc <;> simp [hpc]) nofun rfl hs.file fun v hv => ?_
    by_cases hvw : v = w
    · subst hvw
      simp at hv
    · rw [pc_set_ne hvw] at hv
      exact hs.sought v hv

/-- In every order of the calls and whatever part each stores: what a job has stored is in its
place, and every other byte is what it was. -/
theorem patches_intact (hcomp : Compatible job k) (h : (system job k).Reachable s) :
    (∀ w n, s.pc w = .done n → Stored job s w n) ∧
      ∀ f i, Untouched job s f i →
        (s.kernel.content f)[i]?.getD 0 = (k.content f)[i]?.getD 0 := by
  have hs : Intact job k s := by
    apply h.invariant
    · rintro _ rfl
      exact ⟨hcomp.file, nofun, nofun, fun _ _ _ => rfl⟩
    · intro s w t hst hs
      exact intact_step hcomp hst hs
  exact ⟨hs.stored, hs.untouched⟩

/-- Two jobs on one description, at 0 and at 2. -/
def twoJobs (style : Style) (w : Bool) : Job Unit :=
  ⟨style, (), if w then 2 else 0, if w then [7, 8] else [5, 6], 0⟩

/-- An open file without bytes. -/
def emptyFile : Kernel Unit := ⟨fun _ => [], fun _ => ⟨(), 0⟩, 1, .empty, by simp⟩

theorem patches_intact_pwrite : ∃ s, (system (twoJobs .pwrite) emptyFile).Reachable s ∧
    s.kernel.content () = [5, 6, 7, 8] ∧
      (∀ w n, s.pc w = .done n → Stored (twoJobs .pwrite) s w n) ∧
        ∀ f i, Untouched (twoJobs .pwrite) s f i →
          (s.kernel.content f)[i]?.getD 0 = (emptyFile.content f)[i]?.getD 0 := by
  have hcomp : Compatible (twoJobs .pwrite) emptyFile := by
    refine ⟨fun _ => rfl, ?_, nofun⟩
    rintro (_ | _) (_ | _) hne - <;> simp_all [twoJobs, Apart]
  have h0 : (system (twoJobs .pwrite) emptyFile).Reachable ⟨emptyFile, fun _ => .start⟩ :=
    .of_initial rfl
  have h1 := h0.step (.pwrite (w := true) (n := 2) rfl rfl (by decide))
  have h2 := h1.step (.pwrite (w := false) (n := 2) rfl rfl (by decide))
  exact ⟨_, h2, by decide, patches_intact hcomp h2⟩

/-- With `lseek` on one description the second `lseek` moves the first job's `write`. -/
theorem shared_offset_misplaces : ∃ s, (system (twoJobs .seekWrite) emptyFile).Reachable s ∧
    (∀ w, s.pc w = .done 2) ∧ ¬ Stored (twoJobs .seekWrite) s false 2 := by
  have h0 : (system (twoJobs .seekWrite) emptyFile).Reachable ⟨emptyFile, fun _ => .start⟩ :=
    .of_initial rfl
  have h1 := h0.step (.seek (w := false) rfl rfl)
  have h2 := h1.step (.seek (w := true) rfl rfl)
  have h3 := h2.step (.write (w := false) (n := 2) rfl (by decide))
  have h4 := h3.step (.write (w := true) (n := 2) rfl (by decide))
  refine ⟨_, h4, by rintro (_ | _) <;> rfl, fun hst => ?_⟩
  have hbyte := hst.2 0 (by omega)
  revert hbyte
  decide

end Jobs

end SystemCalls.Patch

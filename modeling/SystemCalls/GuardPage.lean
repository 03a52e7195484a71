import SystemCalls.AddressSpace

/-!
# A guard page behind a buffer

The program of 3.4.6, which maps a buffer of four times 4096 bytes and takes all rights from
what comes behind it. The 4096 is the program's own figure, and the pages of the machine may
have another size.
-/

namespace SystemCalls.GuardPage

open AddressSpace

abbrev PAGE_SIZE : ℕ := 4096

abbrev DATA_PAGES : ℕ := 4

abbrev total : ℕ := PAGE_SIZE * (DATA_PAGES + 1)

abbrev data_len : ℕ := PAGE_SIZE * DATA_PAGES

/-- What the calls answer, in the order of the program. -/
structure Env (ι : Type) where
  mmap : Placement ι
  mprotect : Bool
  madvise : Bool
  mlock : Bool
  munlock : Bool
  munmap : Bool

inductive Line
  | perror (call : String)
  | locked (bytes data guard : ℕ)

/-- How the program ends. -/
structure Result (ι : Type) where
  status : ℕ
  out : List Line
  memory : Memory ι
  /-- The buffer's first page and the memory, when the line about the lock is printed. -/
  atLine : Option (ℕ × Memory ι)

variable {ι : Type} (P : ℕ)

/-- `mprotect` fails with EINVAL unless the address is the start of a page. -/
def mprotect (succeeds : Bool) (m : Memory ι) (address size : ℕ) (prot : Prot) :
    Option (Memory ι) :=
  if address % P = 0 ∧ succeeds then some (m.mprotect P (address / P) size prot) else none

def Env.unmapped (env : Env ι) (m : Memory ι) (b : ℕ) : Memory ι :=
  if env.munmap then m.munmap P b total else m

def main [DecidableEq ι] (env : Env ι) (m : Memory ι) : Option (Result ι) :=
  match m.mmap P env.mmap total fun _ => zeroPage .readWrite with
  | none => some ⟨1, [.perror "mmap"], m, none⟩
  | some (b, m1) =>
    let data := b * P
    let guard := data + PAGE_SIZE * DATA_PAGES
    match mprotect P env.mprotect m1 guard PAGE_SIZE .noAccess with
    | none => some ⟨1, [.perror "mprotect guard"], env.unmapped P m1 b, none⟩
    | some m2 =>
      if !env.madvise then some ⟨1, [.perror "madvise"], env.unmapped P m2 b, none⟩
      else do
        let m3 ← m2.storeAll P data (List.replicate data_len 0xAB)
        let out := (if env.mlock then [] else [.perror "mlock"]) ++
          [.locked data_len data guard] ++ (if env.munlock then [] else [.perror "munlock"])
        if env.munmap then some ⟨0, out, env.unmapped P m3 b, some (b, m3)⟩
        else some ⟨1, out ++ [.perror "munmap"], env.unmapped P m3 b, some (b, m3)⟩

/-- The buffer is full and can be written, and an access to the 4096 bytes behind it, from the
first one on, ends the process. -/
structure Guarded [DecidableEq ι] (m : Memory ι) (b : ℕ) : Prop where
  filled : ∀ x < data_len, m.load P (b * P + x) = some 0xAB ∧
    ∀ c, (m.store P (b * P + x) c).isSome
  guard : ∀ x, data_len ≤ x → x < total → m.load P (b * P + x) = none ∧
    ∀ c, m.store P (b * P + x) c = none

variable {P} {m m1 m2 m3 : Memory ι} {env : Env ι} {b k : ℕ} {succeeds : Bool}

theorem mprotect_eq_some
    (h : mprotect P succeeds m1 (b * P + data_len) PAGE_SIZE .noAccess = some m2) (hP : 0 < P) :
    ∃ k, k * P = data_len ∧ m2 = m1.mprotect P (b + k) PAGE_SIZE .noAccess := by
  unfold mprotect at h
  split at h
  next hmod =>
    have hdata : data_len % P = 0 := by
      have hmod' := hmod.1
      rwa [Nat.mul_comm, Nat.mul_add_mod] at hmod'
    refine ⟨data_len / P, Nat.div_mul_cancel (Nat.dvd_of_mod_eq_zero hdata), ?_⟩
    rw [← Memory.div_add hP]
    exact (Option.some.inj h).symm
  next => cases h

/-- What the two calls before the stores leave. -/
structure Prepared (P : ℕ) (m m2 : Memory ι) (b k : ℕ) : Prop where
  frame : m.Frame m2 b (pagesOf P total)
  size : k * P = data_len
  data : m2.Anonymous b k .readWrite
  guard : ∀ p, b + k ≤ p → p < b + k + pagesOf P PAGE_SIZE →
    ∃ page, m2.pages p = some page ∧ page.prot = .noAccess

theorem pagesOf_total (hP : 0 < P) (hk : k * P = data_len) :
    pagesOf P total = k + pagesOf P PAGE_SIZE := by
  have hsum : total = k * P + PAGE_SIZE := hk ▸ rfl
  rw [hsum, Memory.pagesOf_mul_add hP]

theorem Prepared.of_calls (hP : 0 < P)
    (hm1 : m1 = m.setPages b (pagesOf P total) fun _ => some (zeroPage .readWrite))
    (hm2 : m2 = m1.mprotect P (b + k) PAGE_SIZE .noAccess) (hk : k * P = data_len) :
    Prepared P m m2 b k := by
  have htotal := pagesOf_total hP hk
  have hzero : ∀ p, b ≤ p → p < b + pagesOf P total →
      m1.pages p = some (zeroPage .readWrite) := by
    intro p hlow hhigh
    rw [hm1]
    exact Memory.pages_setPages hlow hhigh
  refine ⟨?_, hk, ?_, ?_⟩
  · apply Memory.Frame.trans (hm1 ▸ Memory.frame_setPages)
    rw [hm2]
    exact Memory.frame_setPages.mono (by omega) (by omega)
  · intro p hlow hhigh
    rw [hm2, Memory.mprotect, Memory.frame_setPages.pages p (by omega),
      hzero p hlow (by omega)]
    exact ⟨_, rfl⟩
  · intro p hlow hhigh
    rw [hm2, Memory.mprotect, Memory.pages_setPages hlow hhigh, hzero p (by omega) (by omega)]
    exact ⟨_, rfl, rfl⟩

variable [DecidableEq ι]

/-- Filling the buffer stays inside it. -/
theorem Prepared.fill (hP : 0 < P) (h : Prepared P m m2 b k) :
    ∃ m3, m2.storeAll P (b * P) (List.replicate data_len 0xAB) = some m3 ∧
      m.Frame m3 b (pagesOf P total) ∧ Guarded P m3 b := by
  have htotal := pagesOf_total hP h.size
  have hend : (b + k) * P = b * P + data_len := by rw [Nat.add_mul, h.size]
  obtain ⟨bytes, hbytes⟩ : ∃ bytes, bytes = List.replicate data_len (0xAB : UInt8) := ⟨_, rfl⟩
  have hlen : bytes.length = data_len := by rw [hbytes, List.length_replicate]
  have hroom : b * P + bytes.length ≤ (b + k) * P := by omega
  obtain ⟨m3, hfill, hs⟩ := Memory.exists_storeAll h.data rfl rfl (Nat.le_refl (b * P))
    hroom
  have hframe : m2.Frame m3 b (pagesOf P total) := hs.frame.mono (Nat.le_refl _) (by omega)
  refine ⟨m3, hbytes ▸ hfill, h.frame.trans hframe, ?_, ?_⟩
  · intro x hx
    refine ⟨?_, ?_⟩
    · rw [hs.load, hlen, if_pos (by omega), Nat.add_sub_cancel_left, hbytes,
        List.getElem?_replicate, if_pos hx]
    · intro c
      have hin : b * P + x < (b + k) * P := by
        rw [hend]
        omega
      obtain ⟨m', hstore, -⟩ := Memory.exists_store (c := c) hs.anonymous rfl rfl
        (Nat.le_add_right _ x) hin
      rw [hstore]
      rfl
  · intro x hlow hhigh
    have hpage : b + k ≤ (b * P + x) / P ∧ (b * P + x) / P < b + k + pagesOf P PAGE_SIZE := by
      apply Memory.div_mem hP
      · omega
      · have hroom : PAGE_SIZE ≤ pagesOf P PAGE_SIZE * P := Memory.le_pagesOf_mul hP
        have hsum : total = data_len + PAGE_SIZE := rfl
        rw [Nat.add_mul, hend]
        omega
    obtain ⟨page, hguard, hprot⟩ := h.guard _ hpage.1 hpage.2
    rw [← hs.frame.pages _ (by omega)] at hguard
    exact ⟨Memory.load_eq_none hguard (by rw [hprot]),
      fun c => Memory.store_eq_none hguard (by rw [hprot])⟩

omit [DecidableEq ι] in
theorem Env.kept_unmapped (hf : m.Frame m1 b (pagesOf P total))
    (hfree : ∀ p, b ≤ p → p < b + pagesOf P total → m.pages p = none) :
    Memory.Kept (env.munmap = true) m (env.unmapped P m1 b) :=
  .of_frame hf hfree env.munmap

/-- Whatever fails and whatever the size of a page, the program is not killed and leaves the
address space as it was. When it gets to its line about the lock, the buffer ends where a page
ends, and behind it every access is refused. -/
theorem main_guards (hP : 0 < P) (env : Env ι) (m : Memory ι) :
    ∃ r, main P env m = some r ∧ Memory.Kept (env.munmap = true) m r.memory ∧
      (r.status = 0 ↔ r.atLine.isSome = true ∧ env.munmap = true) ∧
      ∀ b m3, r.atLine = some (b, m3) → P ∣ data_len ∧ Guarded P m3 b := by
  cases hmap : m.mmap P env.mmap total fun _ => zeroPage .readWrite with
  | none =>
    have hrun : main P env m = some ⟨1, [.perror "mmap"], m, none⟩ := by
      simp only [main, hmap]
    exact ⟨_, hrun, .refl, by simp, by simp⟩
  | some r =>
  obtain ⟨b, m1⟩ := r
  obtain ⟨-, hfree, hm1⟩ := Memory.mmap_eq_some hmap
  have hframe : m.Frame m1 b (pagesOf P total) := hm1 ▸ Memory.frame_setPages
  cases hguard : mprotect P env.mprotect m1 (b * P + data_len) PAGE_SIZE .noAccess with
  | none =>
    have hrun : main P env m =
        some ⟨1, [.perror "mprotect guard"], env.unmapped P m1 b, none⟩ := by
      simp only [main, hmap, hguard]
    exact ⟨_, hrun, env.kept_unmapped hframe hfree, by simp, by simp⟩
  | some m2 =>
  obtain ⟨k, hk, hm2⟩ := mprotect_eq_some hguard hP
  have hprepared : Prepared P m m2 b k := .of_calls hP hm1 hm2 hk
  cases hadvise : env.madvise with
  | false =>
    have hrun : main P env m = some ⟨1, [.perror "madvise"], env.unmapped P m2 b, none⟩ := by
      simp [main, hmap, hguard, hadvise]
    exact ⟨_, hrun, env.kept_unmapped hprepared.frame hfree, by simp, by simp⟩
  | true =>
    obtain ⟨m3, hfill, hframe3, hguarded⟩ := hprepared.fill hP
    have hkept := env.kept_unmapped hframe3 hfree
    have hline : ∀ b' m', some (b, m3) = some (b', m') → P ∣ data_len ∧ Guarded P m' b' := by
      rintro _ _ ⟨⟩
      exact ⟨⟨k, by rw [Nat.mul_comm, hk]⟩, hguarded⟩
    cases hunmap : env.munmap with
    | true =>
      have hrun : ∃ out, main P env m = some ⟨0, out, env.unmapped P m3 b, some (b, m3)⟩ := by
        simp [main, hmap, hguard, hadvise, hfill, hunmap]
      obtain ⟨out, hrun⟩ := hrun
      exact ⟨_, hrun, hunmap ▸ hkept, by simp, hline⟩
    | false =>
      have hrun : ∃ out, main P env m = some ⟨1, out, env.unmapped P m3 b, some (b, m3)⟩ := by
        simp [main, hmap, hguard, hadvise, hfill, hunmap]
      obtain ⟨out, hrun⟩ := hrun
      exact ⟨_, hrun, hunmap ▸ hkept, by simp, hline⟩

theorem main_guards_wide_pages :
    let env : Env Unit := ⟨.only 7, true, true, false, false, true⟩
    let m : Memory Unit := ⟨fun _ => none, fun _ => [], 0⟩
    ∃ r, main 8192 env m = some r ∧ Memory.Kept (true = true) m r.memory ∧
      (r.status = 0 ↔ r.atLine.isSome = true ∧ true = true) ∧
      ∀ b m3, r.atLine = some (b, m3) → 8192 ∣ data_len ∧ Guarded 8192 m3 b := by
  intro env m
  exact main_guards (by decide) env m

end SystemCalls.GuardPage

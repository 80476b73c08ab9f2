import MathUnikernel.PmmOwnership

/-!
# The free-frame counter

`pmm.free_frames` against the number of clear bits.  Single frames and runs of frames go through
`claim_frame` and `free_frame`, which keep the two in step; the 2 MiB operations write bitmap bytes
and leave the counter alone.
-/

namespace MathUnikernel.Pmm
open ByteBitmap Runs

/-- The number of frames below `total_frames` whose bit is clear. -/
def clearCount (s : PmmContext) : ℕ :=
  ((Finset.range s.totalFrames).filter fun f => s.used f = false).card

def CounterExact (s : PmmContext) : Prop := s.freeFrames = clearCount s

theorem clearCount_le (s : PmmContext) : clearCount s ≤ s.totalFrames :=
  (Finset.card_filter_le _ _).trans (Finset.card_range _).le

/-- Marking a set of clear frames lowers the count by its size. -/
theorem clearCount_mark (s s' : PmmContext) (A : Finset ℕ)
    (hT : s'.totalFrames = s.totalFrames) (hA : ∀ f ∈ A, f < s.totalFrames ∧ s.used f = false)
    (hused : ∀ g, s'.used g = (s.used g || decide (g ∈ A))) :
    clearCount s' + A.card = clearCount s := by
  unfold clearCount
  have hfilter : (Finset.range s'.totalFrames).filter (fun f => s'.used f = false) =
      ((Finset.range s.totalFrames).filter fun f => s.used f = false) \ A := by
    ext f
    simp only [hT, hused, Finset.mem_filter, Finset.mem_range, Finset.mem_sdiff,
      Bool.or_eq_false_iff, decide_eq_false_iff_not]
    tauto
  have hsub : A ⊆ (Finset.range s.totalFrames).filter fun f => s.used f = false := by
    intro f hf
    simpa using hA f hf
  rw [hfilter]
  exact Finset.card_sdiff_add_card_eq_card hsub

/-- Unmarking a set of used frames raises the count by its size. -/
theorem clearCount_unmark (s s' : PmmContext) (A : Finset ℕ)
    (hT : s'.totalFrames = s.totalFrames) (hA : ∀ f ∈ A, f < s.totalFrames ∧ s.used f = true)
    (hused : ∀ g, s'.used g = (s.used g && !decide (g ∈ A))) :
    clearCount s' = clearCount s + A.card := by
  refine (clearCount_mark s' s A hT.symm (fun f hf => ?_) fun g => ?_).symm
  · exact ⟨hT ▸ (hA f hf).1, by simp [hused, hf]⟩
  · rw [hused]
    by_cases hg : g ∈ A
    · simp [hg, (hA g hg).2]
    · simp [hg]

/-! ## Operations that keep the counter exact -/

theorem CounterExact.claimFrame {s : PmmContext} (h : CounterExact s) {f : ℕ}
    (hf : f < s.totalFrames) (hT : s.totalFrames < 2 ^ 64) : CounterExact (claimFrame s f) := by
  rw [claimFrame_eq]
  split_ifs with hused
  · exact h
  · have hcount := clearCount_mark s (Pmm.claimFrame s f) {f} (by simp)
      (by simpa [hf] using hused) fun g => by simp [used_claimFrame]
    rw [claimFrame_eq, if_neg hused, Finset.card_singleton] at hcount
    have hle := clearCount_le s
    unfold CounterExact at h ⊢
    simp only
    omega

theorem CounterExact.freeFrame {s : PmmContext} (h : CounterExact s) {f : ℕ}
    (hf : f < s.totalFrames) (hT : s.totalFrames < 2 ^ 64) : CounterExact (freeFrame s f) := by
  rw [freeFrame_eq]
  split_ifs with hused
  · have hcount := clearCount_unmark s (Pmm.freeFrame s f) {f} (by simp)
      (by simpa [hf] using hused) fun g => by simp [used_freeFrame]
    have hle := clearCount_le (Pmm.freeFrame s f)
    rw [freeFrame_eq, if_pos hused, Finset.card_singleton] at hcount
    rw [freeFrame_totalFrames, freeFrame_eq, if_pos hused] at hle
    unfold CounterExact at h ⊢
    simp only
    omega
  · exact h

theorem CounterExact.claimRun {s : PmmContext} (h : CounterExact s) {st n : ℕ}
    (hrun : ∀ j, st ≤ j → j < st + n → j < s.totalFrames) (hT : s.totalFrames < 2 ^ 64) :
    CounterExact (claimRun s st n) := by
  induction n with
  | zero => exact h
  | succ n ih =>
    rw [claimRun_succ]
    have hprev := ih fun j hlo hhi => hrun j hlo (by omega)
    exact hprev.claimFrame (by simpa using hrun (st + n) (by omega) (by omega)) (by simpa using hT)

/-! ## The 2 MiB operations -/

/-- The frames of block `b` as a finite set. -/
def blockFrames (b : ℕ) : Finset ℕ := Finset.Ico (512 * b) (512 * b + 512)

theorem card_blockFrames (b : ℕ) : (blockFrames b).card = 512 := by
  simp [blockFrames]

theorem clearCount_pmmAlloc2mb {s : PmmContext} {b : ℕ} (hb : FreeGroup s b)
    (hfirst : ∀ b' < b, ¬FreeGroup s b') (hsize : s.bitmapSize < 2 ^ 31)
    (hlt : ∀ f ∈ freeSet s, f < s.totalFrames) :
    clearCount (pmmAlloc2mb s).2 + 512 = clearCount s := by
  have hle := hb.le_size
  refine (card_blockFrames b) ▸
    clearCount_mark s (pmmAlloc2mb s).2 (blockFrames b) (by simp) (fun f hf => ?_) fun g => ?_
  · obtain ⟨hlo, hhi⟩ := Finset.mem_Ico.mp hf
    have hfree := hb.free f hlo hhi
    exact ⟨hlt f ⟨by omega, hfree⟩, hfree⟩
  · simp only [used_pmmAlloc2mb hb hfirst (show 64 * b + 64 ≤ 2 ^ 31 by omega), blockFrames,
      Finset.mem_Ico]

theorem clearCount_pmmFree2mb {s : PmmContext} {b : ℕ} (hb : 64 * b + 64 ≤ s.bitmapSize)
    (hused : ∀ f ∈ block b, f < s.totalFrames ∧ s.used f = true) :
    clearCount (pmmFree2mb s (512 * b * 4096)) = clearCount s + 512 := by
  have hcount := clearCount_unmark s (pmmFree2mb s (512 * b * 4096)) (blockFrames b) (by simp)
    (fun f hf => hused f (Finset.mem_Ico.mp hf)) fun g => by
      simp only [used_pmmFree2mb s hb, blockFrames, Finset.mem_Ico]
  rwa [card_blockFrames] at hcount

/-! ## One call -/

/-- What a run keeps whatever becomes of the counter: free frames lie below `total_frames`, and
owned frames lie there too with their bit set. -/
structure Held (w : World) : Prop where
  free_lt : ∀ f ∈ freeSet w.pmm, f < w.pmm.totalFrames
  owned_used : ∀ f ∈ w.owned, f < w.pmm.totalFrames ∧ w.pmm.used f = true
  totalFrames_le : w.pmm.totalFrames ≤ 8 * w.pmm.bitmapSize
  totalFrames_lt : w.pmm.totalFrames < 2 ^ 52

/-- The calls after which the counter still counts: the 2 MiB operations are left out, but for a
`pmm_alloc_2mb` that finds no block. -/
def CountsCall (s : PmmContext) : Call → Prop
  | .alloc2mb => ∀ b, ¬FreeGroup s b
  | .free2mb _ => False
  | _ => True

/-- A request only sets bits, those of the frames it hands over among them. -/
structure Marks (s : PmmContext) (r n : ℕ) (s' : PmmContext) : Prop where
  mono : ∀ f, s.used f = true → s'.used f = true
  granted_used : ∀ f ∈ granted r n, f < s.totalFrames ∧ s'.used f = true

theorem marks_zero (s : PmmContext) (n : ℕ) : Marks s 0 n s :=
  ⟨fun _ h => h, fun _ hf => absurd rfl hf.1⟩

theorem marks_of_mark {s s' : PmmContext} {f n : ℕ} (hlt : ∀ g, f ≤ g → g < f + n → g < s.totalFrames)
    (hT : s.totalFrames < 2 ^ 52)
    (hused : ∀ g, s'.used g = (s.used g || decide (f ≤ g ∧ g < f + n))) :
    Marks s (indexToPhysAddr f) n s' := by
  refine ⟨fun g hg => by simp [hused, hg], fun g hg => ?_⟩
  obtain ⟨-, hlo, hhi⟩ := hg
  have hf := hlt f le_rfl (by omega)
  rw [indexToPhysAddr_of_lt (by omega), Nat.mul_div_cancel f (by omega)] at hlo hhi
  exact ⟨hlt g hlo hhi, by simp [hused, hlo, hhi]⟩

theorem Held.marks {w : World} (h : Held w) {c : Call}
    (hc : w.pmm.bitmapSize < 2 ^ 31 ∨ CountsCall w.pmm c) (hnone : c.released = ∅) :
    Marks w.pmm (c.exec w.pmm).1 c.frames (c.exec w.pmm).2 := by
  have hT := h.totalFrames_lt
  cases c with
  | alloc =>
    simp only [Call.exec, Call.frames]
    rcases pmmAlloc_cases w.pmm with ⟨f, hf, he⟩ | ⟨-, he⟩ <;> rw [he]
    · refine marks_of_mark (fun g hlo hhi => ?_) hT fun g => ?_
      · have := hf.lt_total
        omega
      · rw [used_claimFrame]
        congr 1
        exact decide_eq_decide.mpr (by omega)
    · exact marks_zero w.pmm 1
  | alloc2mb =>
    simp only [Call.exec, Call.frames]
    rcases pmmAlloc2mb_cases w.pmm with ⟨b, hb, hfirst, he⟩ | ⟨-, he⟩
    · have hsize : w.pmm.bitmapSize < 2 ^ 31 := hc.resolve_right fun hn => hn b hb
      have hle := hb.le_size
      rw [show (pmmAlloc2mb w.pmm).1 = indexToPhysAddr (512 * b) by rw [he]]
      exact marks_of_mark (fun g hlo hhi => h.free_lt g ⟨by omega, hb.free g hlo hhi⟩) hT
        (used_pmmAlloc2mb hb hfirst (by omega))
    · rw [he]
      exact marks_zero w.pmm 512
  | allocContiguous n =>
    simp only [Call.exec, Call.frames]
    rcases pmmAllocContiguous_cases w.pmm n with ⟨st, -, hrun, he⟩ | he <;> rw [he]
    · exact marks_of_mark (fun g hlo hhi => (hrun g hlo hhi).1) hT fun g => used_claimRun w.pmm st n g
    · exact marks_zero w.pmm n
  | free a => exact absurd hnone (Set.singleton_ne_empty _)
  | free2mb a =>
    exact absurd hnone (Set.Nonempty.ne_empty ⟨512 * (a / 0x200000), by omega, by omega⟩)

/-- A free clears the bits of what it gives back and touches no other bit. -/
theorem Call.used_exec_of_released {s : PmmContext} {c : Call} (ha : c.aligned)
    (hne : c.released.Nonempty) (hin : ∀ f ∈ c.released, f < 8 * s.bitmapSize) (g : ℕ) :
    (c.exec s).1 = 0 ∧ ((c.exec s).2.used g = true ↔ s.used g = true ∧ g ∉ c.released) := by
  cases c with
  | alloc => exact absurd hne Set.not_nonempty_empty
  | alloc2mb => exact absurd hne Set.not_nonempty_empty
  | allocContiguous n => exact absurd hne Set.not_nonempty_empty
  | free a =>
    obtain ⟨f, rfl⟩ : ∃ f, a = f * 4096 := ⟨a / 4096, by simp only [Call.aligned] at ha; omega⟩
    simp [Call.exec, Call.released, pmmFree_frame, used_freeFrame]
  | free2mb a =>
    obtain ⟨b, rfl⟩ : ∃ b, a = 512 * b * 4096 :=
      ⟨a / 0x200000, by simp only [Call.aligned] at ha; omega⟩
    have hb : 512 * b * 4096 / 0x200000 = b := by omega
    simp only [Call.released, hb] at hin ⊢
    have hlast := hin (512 * b + 511) ⟨by omega, by omega⟩
    simp only [Call.exec, used_pmmFree2mb s (show 64 * b + 64 ≤ s.bitmapSize by omega),
      Bool.and_eq_true, Bool.not_eq_true', decide_eq_false_iff_not, block, Set.mem_ofPred_eq,
      true_and]

theorem Held.released_lt {w : World} (h : Held w) {c : Call} (hr : c.released ⊆ w.owned) :
    ∀ f ∈ c.released, f < 8 * w.pmm.bitmapSize :=
  fun f hf => (h.owned_used f (hr hf)).1.trans_le h.totalFrames_le

theorem Held.step {w w' : World} {c : Call} (h : Held w)
    (hc : w.pmm.bitmapSize < 2 ^ 31 ∨ CountsCall w.pmm c) (hstep : Step w c w') : Held w' := by
  obtain ⟨ha, hr, rfl⟩ := hstep
  obtain ⟨hsize, htotal⟩ := c.exec_sizes w.pmm
  have hle := h.totalFrames_le
  have hlt := h.totalFrames_lt
  rcases c.released.eq_empty_or_nonempty with hnone | hne
  · have hm := h.marks hc hnone
    refine ⟨?_, ?_, by simpa [World.exec, hsize, htotal] using hle, by simpa [World.exec, htotal]⟩
    · rintro f ⟨hf, hfree⟩
      simp only [World.exec, hsize, htotal] at hf hfree ⊢
      refine h.free_lt f ⟨hf, ?_⟩
      by_contra hused
      rw [hm.mono f (by simpa using hused)] at hfree
      exact Bool.false_ne_true hfree.symm
    · simp only [World.exec, hnone, Set.sdiff_empty, htotal]
      rintro f (hf | hf)
      · exact ⟨(h.owned_used f hf).1, hm.mono f (h.owned_used f hf).2⟩
      · exact hm.granted_used f hf
  · have hused := c.used_exec_of_released ha hne (h.released_lt hr)
    refine ⟨?_, ?_, by simpa [World.exec, hsize, htotal] using hle, by simpa [World.exec, htotal]⟩
    · rintro f ⟨hf, hfree⟩
      simp only [World.exec, hsize, htotal] at hf hfree ⊢
      by_cases hrel : f ∈ c.released
      · exact (h.owned_used f (hr hrel)).1
      · refine h.free_lt f ⟨hf, ?_⟩
        by_contra hu
        rw [((hused f).2).mpr ⟨by simpa using hu, hrel⟩] at hfree
        exact Bool.false_ne_true hfree.symm
    · simp only [World.exec, htotal]
      rintro f (⟨hf, hrel⟩ | hf)
      · exact ⟨(h.owned_used f hf).1, ((hused f).2).mpr ⟨(h.owned_used f hf).2, hrel⟩⟩
      · exact absurd (hused f).1 hf.1

/-- A call that goes through `claim_frame` or `free_frame` keeps the counter exact. -/
theorem CounterExact.exec {w : World} (h : CounterExact w.pmm) (hw : Held w) {c : Call}
    (ha : c.aligned) (hr : c.released ⊆ w.owned) (hc : CountsCall w.pmm c) :
    CounterExact (c.exec w.pmm).2 := by
  have hT : w.pmm.totalFrames < 2 ^ 64 := hw.totalFrames_lt.trans (by norm_num)
  cases c with
  | alloc =>
    simp only [Call.exec]
    rcases pmmAlloc_cases w.pmm with ⟨f, hf, he⟩ | ⟨-, he⟩ <;> rw [he]
    · exact h.claimFrame hf.lt_total hT
    · exact h
  | alloc2mb =>
    rw [Call.exec, pmmAlloc2mb_of_none hc]
    exact h
  | allocContiguous n =>
    simp only [Call.exec]
    rcases pmmAllocContiguous_cases w.pmm n with ⟨st, -, hrun, he⟩ | he <;> rw [he]
    · exact h.claimRun (fun j hlo hhi => (hrun j hlo hhi).1) hT
    · exact h
  | free a =>
    obtain ⟨f, rfl⟩ : ∃ f, a = f * 4096 := ⟨a / 4096, by simp only [Call.aligned] at ha; omega⟩
    have hf : f ∈ w.owned := hr (by simp [Call.released])
    rw [Call.exec, pmmFree_frame]
    exact h.freeFrame (hw.owned_used f hf).1 hT
  | free2mb a => exact absurd hc id

/-- The 2 MiB operations break an exact counter, as far as the marking loop works at all. -/
theorem not_counterExact_exec {w : World} (h : CounterExact w.pmm) (hw : Held w) {c : Call}
    (ha : c.aligned) (hr : c.released ⊆ w.owned) (hsize : w.pmm.bitmapSize < 2 ^ 31)
    (hc : ¬CountsCall w.pmm c) : ¬CounterExact (c.exec w.pmm).2 := by
  unfold CounterExact at h ⊢
  have hle := hw.totalFrames_le
  cases c with
  | alloc => exact absurd trivial hc
  | allocContiguous n => exact absurd trivial hc
  | free a => exact absurd trivial hc
  | alloc2mb =>
    rcases pmmAlloc2mb_cases w.pmm with ⟨b, hb, hfirst, -⟩ | ⟨hnone, -⟩
    · have hcount := clearCount_pmmAlloc2mb hb hfirst hsize hw.free_lt
      simp only [Call.exec, pmmAlloc2mb_freeFrames]
      omega
    · exact absurd hnone hc
  | free2mb a =>
    obtain ⟨b, rfl⟩ : ∃ b, a = 512 * b * 4096 :=
      ⟨a / 0x200000, by simp only [Call.aligned] at ha; omega⟩
    have hb : 512 * b * 4096 / 0x200000 = b := by omega
    have hused : ∀ f ∈ block b, f < w.pmm.totalFrames ∧ w.pmm.used f = true :=
      fun f hf => hw.owned_used f (hr (by rwa [Call.released, hb]))
    have hlast := (hused (512 * b + 511) ⟨by omega, by omega⟩).1
    have hcount := clearCount_pmmFree2mb (s := w.pmm) (b := b) (by omega) hused
    simp only [Call.exec, pmmFree2mb_freeFrames]
    omega

/-! ## Runs from `pmm_init` -/

theorem held_pmmInit {entries : List MemmapEntry} {mem : ℕ → UInt8} {r : ℕ} {s : PmmContext}
    (hinit : pmmInit entries mem = some (r, s)) : Held ⟨s, ∅⟩ := by
  have hsized := pmmInit_sized hinit
  refine ⟨?_, fun f hf => absurd hf (Set.notMem_empty f), ?_, ?_⟩
  · rintro f ⟨hlt, hfree⟩
    rw [hsized.totalFrames]
    exact lt_totalFrames_of_listed ((used_pmmInit hinit hlt).mp hfree).1 (hsized.bitmapSize ▸ hlt)
  · simp only [hsized.totalFrames, hsized.bitmapSize, bitmapSizeOf]
    omega
  · simpa only [hsized.totalFrames] using totalFramesOf_lt entries

theorem counterExact_pmmInit {entries : List MemmapEntry} {mem : ℕ → UInt8} {r : ℕ}
    {s : PmmContext} (hb : Bounded entries) (hinit : pmmInit entries mem = some (r, s)) :
    CounterExact s := by
  have hT : totalFramesOf entries < 2 ^ 64 := (totalFramesOf_lt entries).trans (by norm_num)
  refine (pmmInit_invariant (fun s => CounterExact s ∧ s.totalFrames = totalFramesOf entries)
    (fun s f hf hs => ?_) (fun s f hf hs => ?_) ?_ hinit).1
  · exact ⟨hs.1.freeFrame (hs.2 ▸ hb.lt_totalFrames_of_listed hf) (hs.2 ▸ hT), by simpa using hs.2⟩
  · exact ⟨hs.1.claimFrame (hs.2 ▸ hb.lt_totalFrames_of_storage hf) (hs.2 ▸ hT), by simpa using hs.2⟩
  · refine ⟨?_, rfl⟩
    have hnone : clearCount (afterMemset entries mem) = 0 := by
      refine Finset.card_eq_zero.mpr (Finset.filter_eq_empty_iff.mpr fun f hf => ?_)
      have hlt : f < totalFramesOf entries := Finset.mem_range.mp hf
      have hfill := getBit_fill_ff (fun i => mem (bitmapPhysOf entries + i)) 0 (bitmapSizeOf entries) f
      rw [decide_eq_true (by unfold bitmapSizeOf; omega), Bool.true_or] at hfill
      exact fun hclear => Bool.false_ne_true (hclear.symm.trans hfill)
    exact hnone.symm

/-- The counter stays exact over every run without 2 MiB blocks, and over no other run on a bitmap
whose byte indices fit an `int`. -/
theorem freeFrames_exact_iff {entries : List MemmapEntry} {mem : ℕ → UInt8} {r : ℕ} {s : PmmContext}
    (hinit : pmmInit entries mem = some (r, s)) (hb : Bounded entries)
    {tr : List (World × Call × World)} {w : World} (hrun : Run Step ⟨s, ∅⟩ tr w) :
    CounterExact s ∧
    ((∀ x ∈ tr, CountsCall x.1.pmm x.2.1) → ∀ x ∈ tr, CounterExact x.2.2.pmm) ∧
    (s.bitmapSize < 2 ^ 31 → (∀ x ∈ tr, CounterExact x.2.2.pmm) →
      ∀ x ∈ tr, CountsCall x.1.pmm x.2.1) := by
  have hexact := counterExact_pmmInit hb hinit
  refine ⟨hexact, fun hcounts => ?_, fun hsize hall => ?_⟩
  · have hinv := hrun.invariant_of_guard (G := fun w c => CountsCall w.pmm c)
      (I := fun w => Held w ∧ CounterExact w.pmm) ⟨held_pmmInit hinit, hexact⟩
      (fun w c w' hw hc hstep => ⟨hw.1.step (.inr hc) hstep, ?_⟩) hcounts
    · exact fun x hx => (hinv.2 x hx).2.2
    · rw [hstep.result]
      exact hw.2.exec hw.1 hstep.aligned hstep.owned hc
  · have hinv := hrun.invariant_of_guard (G := fun w c => CounterExact (c.exec w.pmm).2)
      (I := fun w => (Held w ∧ CounterExact w.pmm) ∧ w.pmm.bitmapSize < 2 ^ 31)
      ⟨⟨held_pmmInit hinit, hexact⟩, hsize⟩
      (fun w c w' hw hc hstep => ⟨⟨hw.1.1.step (.inl hw.2) hstep, ?_⟩, ?_⟩)
      fun x hx => ?_
    · intro x hx
      have hstep := hrun.step_of_mem hx
      obtain ⟨⟨hheld, hpre⟩, hlt⟩ := (hinv.2 x hx).1
      by_contra hc
      have hpost := hall x hx
      rw [hstep.result] at hpost
      exact not_counterExact_exec hpre hheld hstep.aligned hstep.owned hlt hc hpost
    · rwa [hstep.result]
    · rw [hstep.result]
      exact (c.exec_sizes w.pmm).1.symm ▸ hw.2
    · have hpost := hall x hx
      rwa [(hrun.step_of_mem hx).result] at hpost

/-- One `pmm_alloc_2mb` on the small machine leaves the counter 512 too high. -/
theorem freeFrames_stale_smallMap : ¬∀ (entries : List MemmapEntry) (mem : ℕ → UInt8) (r : ℕ)
    (s : PmmContext), pmmInit entries mem = some (r, s) →
    ∀ (tr : List (World × Call × World)) (w : World), Run Step ⟨s, ∅⟩ tr w →
      ∀ x ∈ tr, CounterExact x.2.2.pmm := by
  intro h
  obtain ⟨s, hs, hsize, htotal, hused⟩ := pmmInit_smallMap
  obtain ⟨hfree, hfirst, -⟩ := pmmAlloc2mb_smallMap hsize hused
  have hstep : Step ⟨s, ∅⟩ .alloc2mb (World.exec ⟨s, ∅⟩ .alloc2mb) :=
    ⟨trivial, by simp [Call.released], rfl⟩
  have hexact : CounterExact (pmmAlloc2mb s).2 :=
    h smallMap (fun _ => 0) pmmInitSuccess s hs _ _ (Run.nil.snoc hstep) _
      (List.mem_singleton.mpr rfl)
  have hcount := clearCount_pmmAlloc2mb hfree hfirst (by omega) (held_pmmInit hs).free_lt
  have hbefore := counterExact_pmmInit (by decide) hs
  unfold CounterExact at hexact hbefore
  rw [pmmAlloc2mb_freeFrames] at hexact
  omega

/-- A frame is handed out and taken back on the small machine. -/
theorem freeFrames_exact_iff_smallMap : ∃ s w tr,
    pmmInit smallMap (fun _ => 0) = some (pmmInitSuccess, s) ∧ Run Step ⟨s, ∅⟩ tr w ∧
    tr.length = 2 ∧ ∀ x ∈ tr, CounterExact x.2.2.pmm := by
  obtain ⟨s, hs, hsize, htotal, hused⟩ := pmmInit_smallMap
  have hfirst : FirstFree s 512 := by
    refine ⟨by omega, by omega, (hused 512 (by omega)).mpr le_rfl, fun g hg => ?_⟩
    by_contra hfree
    have := (hused g (by omega)).mp (by simpa using hfree)
    omega
  have hstep1 : Step ⟨s, ∅⟩ .alloc (World.exec ⟨s, ∅⟩ .alloc) :=
    ⟨trivial, by simp [Call.released], rfl⟩
  have hgrant : 512 ∈ (World.exec ⟨s, ∅⟩ .alloc).owned := by
    refine .inr ?_
    simp [Call.exec, pmmAlloc_of_firstFree hfirst, Call.frames, granted, indexToPhysAddr]
  have hstep2 : Step (World.exec ⟨s, ∅⟩ .alloc) (.free 0x200000)
      ((World.exec ⟨s, ∅⟩ .alloc).exec (.free 0x200000)) :=
    ⟨rfl, by simpa [Call.released] using hgrant, rfl⟩
  have hrun := (Run.nil.snoc hstep1).snoc hstep2
  have hexact := (freeFrames_exact_iff hs (by decide) hrun).2.1 (by simp [CountsCall])
  exact ⟨s, _, _, hs, hrun, rfl, hexact⟩

end MathUnikernel.Pmm

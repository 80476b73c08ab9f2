import MathUnikernel.Library.Runs
import MathUnikernel.PmmInit

/-!
# Frame ownership

Callers own the frames of the allocation results they received and have not freed.  Over every
sequence of calls, the free frames and the owned frames partition the frames `pmm_init` left free.
-/

namespace MathUnikernel.Pmm
open ByteBitmap Runs

/-- The frames of the bitmap whose bit is clear. -/
def freeSet (s : PmmContext) : Set ℕ := {f | f < 8 * s.bitmapSize ∧ s.used f = false}

/-- The frames handed over by the result `r` of a request for `n` frames. -/
def granted (r n : ℕ) : Set ℕ := {f | r ≠ 0 ∧ r / 4096 ≤ f ∧ f < r / 4096 + n}

inductive Call
  | alloc
  | alloc2mb
  | allocContiguous (numFrames : ℕ)
  | free (physAddr : ℕ)
  | free2mb (physAddr : ℕ)

/-- The result of a call, 0 for the calls without one, and the state it leaves. -/
def Call.exec (s : PmmContext) : Call → ℕ × PmmContext
  | .alloc => pmmAlloc s
  | .alloc2mb => pmmAlloc2mb s
  | .allocContiguous numFrames => pmmAllocContiguous s numFrames
  | .free physAddr => (0, pmmFree s physAddr)
  | .free2mb physAddr => (0, pmmFree2mb s physAddr)

/-- How many frames a non-zero result stands for. -/
def Call.frames : Call → ℕ
  | .alloc => 1
  | .alloc2mb => 512
  | .allocContiguous numFrames => numFrames
  | .free _ => 0
  | .free2mb _ => 0

/-- The frames a call gives back. -/
def Call.released : Call → Set ℕ
  | .free physAddr => {physAddr / 4096}
  | .free2mb physAddr => block (physAddr / 0x200000)
  | _ => ∅

/-- Callers free the address of one frame, or of an aligned block. -/
def Call.aligned : Call → Prop
  | .free physAddr => physAddr % 4096 = 0
  | .free2mb physAddr => physAddr % 0x200000 = 0
  | _ => True

structure World where
  pmm : PmmContext
  owned : Set ℕ

/-- The call, and the change of owners it stands for. -/
def World.exec (w : World) (c : Call) : World where
  pmm := (c.exec w.pmm).2
  owned := (w.owned \ c.released) ∪ granted (c.exec w.pmm).1 c.frames

/-- One call by a caller that frees only what callers own. -/
structure Step (w : World) (c : Call) (w' : World) : Prop where
  aligned : c.aligned
  owned : c.released ⊆ w.owned
  result : w' = w.exec c

/-- Free and owned frames are disjoint and together make up `U`. -/
structure Partition (U : Set ℕ) (w : World) : Prop where
  union : freeSet w.pmm ∪ w.owned = U
  disjoint : Disjoint (freeSet w.pmm) w.owned

/-- Moving a set of free frames to the owners keeps the partition. -/
theorem Partition.grant {U A : Set ℕ} {w : World} (h : Partition U w) {pmm : PmmContext}
    (hA : A ⊆ freeSet w.pmm) (hfree : freeSet pmm = freeSet w.pmm \ A) :
    Partition U ⟨pmm, w.owned ∪ A⟩ := by
  have hd := Set.disjoint_left.mp h.disjoint
  constructor
  · simp only [hfree, ← h.union]
    ext f
    simp only [Set.mem_union, Set.mem_sdiff]
    have := @hA f
    tauto
  · simp only [hfree]
    refine Set.disjoint_left.mpr fun f hf hu => ?_
    rcases hu with hu | hu
    · exact hd hf.1 hu
    · exact hf.2 hu

/-- Moving a set of owned frames back to the free ones keeps the partition. -/
theorem Partition.release {U A : Set ℕ} {w : World} (h : Partition U w) {pmm : PmmContext}
    (hA : A ⊆ w.owned) (hfree : freeSet pmm = freeSet w.pmm ∪ A) :
    Partition U ⟨pmm, w.owned \ A⟩ := by
  have hd := Set.disjoint_left.mp h.disjoint
  constructor
  · simp only [hfree, ← h.union]
    ext f
    simp only [Set.mem_union, Set.mem_sdiff]
    have := @hA f
    tauto
  · simp only [hfree]
    refine Set.disjoint_left.mpr fun f hf hu => ?_
    rcases hf with hf | hf
    · exact hd hf hu.1
    · exact hu.2 hf

/-! ## What a request hands over -/

/-- A set of free frames below `total_frames` on which the allocators work: frame 0 is not among
them and the byte indices of its blocks fit an `int`. -/
structure Sound (U : Set ℕ) (s : PmmContext) : Prop where
  lt_total : ∀ f ∈ U, f < s.totalFrames
  zero_notMem : 0 ∉ U
  totalFrames_le : s.totalFrames ≤ 8 * s.bitmapSize
  bitmapSize_lt : s.bitmapSize < 2 ^ 31

/-- A request moves the frames of its result from the free set to the caller, and a request that
returns 0 changes nothing. -/
structure Served (s : PmmContext) (r n : ℕ) (s' : PmmContext) : Prop where
  granted_free : granted r n ⊆ freeSet s
  freeSet_eq : freeSet s' = freeSet s \ granted r n
  unchanged : r = 0 → s' = s

theorem served_zero (s : PmmContext) (n : ℕ) : Served s 0 n s := by
  have h : granted 0 n = ∅ := by ext f; simp [granted]
  exact ⟨by simp [h], by simp [h], fun _ => rfl⟩

/-- Setting the bits of a run of free frames that starts above 0 serves a request. -/
theorem served_of_mark {U : Set ℕ} {s s' : PmmContext} {f n : ℕ} (hs : Sound U s)
    (hU : freeSet s ⊆ U) (hn : 0 < n) (hfree : ∀ g, f ≤ g → g < f + n → g ∈ freeSet s)
    (hsize : s'.bitmapSize = s.bitmapSize)
    (hused : ∀ g, s'.used g = (s.used g || decide (f ≤ g ∧ g < f + n))) :
    Served s (indexToPhysAddr f) n s' := by
  have hmem := hU (hfree f le_rfl (by omega))
  have hlt := hs.lt_total f hmem
  have hpos : f ≠ 0 := fun h => hs.zero_notMem (h ▸ hmem)
  have hle := hs.totalFrames_le
  have hsz := hs.bitmapSize_lt
  have haddr : indexToPhysAddr f = f * 4096 := indexToPhysAddr_of_lt (by omega)
  have hgranted : granted (indexToPhysAddr f) n = {g | f ≤ g ∧ g < f + n} := by
    ext g
    rw [haddr]
    simp only [granted, Set.mem_ofPred_eq]
    omega
  refine ⟨?_, ?_, fun h => ?_⟩
  · rw [hgranted]
    exact fun g hg => hfree g hg.1 hg.2
  · ext g
    simp only [hgranted, freeSet, Set.mem_ofPred_eq, Set.mem_sdiff, hsize, hused,
      Bool.or_eq_false_iff, decide_eq_false_iff_not]
    tauto
  · rw [haddr] at h
    omega

theorem served_pmmAlloc {U : Set ℕ} {s : PmmContext} (hs : Sound U s) (hU : freeSet s ⊆ U) :
    Served s (pmmAlloc s).1 1 (pmmAlloc s).2 := by
  rcases pmmAlloc_cases s with ⟨f, hf, h⟩ | ⟨-, h⟩ <;> rw [h]
  · refine served_of_mark hs hU Nat.one_pos (fun g hlo hhi => ?_) (by simp) fun g => ?_
    · obtain rfl : g = f := by omega
      exact ⟨hf.lt_size, hf.free⟩
    · rw [used_claimFrame]
      congr 1
      exact decide_eq_decide.mpr (by omega)
  · exact served_zero s 1

theorem served_pmmAlloc2mb {U : Set ℕ} {s : PmmContext} (hs : Sound U s) (hU : freeSet s ⊆ U) :
    Served s (pmmAlloc2mb s).1 512 (pmmAlloc2mb s).2 := by
  rcases pmmAlloc2mb_cases s with ⟨b, hb, hfirst, h⟩ | ⟨-, h⟩
  · have hle := hb.le_size
    have hsz := hs.bitmapSize_lt
    rw [show (pmmAlloc2mb s).1 = indexToPhysAddr (512 * b) by rw [h]]
    exact served_of_mark hs hU (by omega) (fun g hlo hhi => ⟨by omega, hb.free g hlo hhi⟩) (by simp)
      (used_pmmAlloc2mb hb hfirst (by omega))
  · rw [h]
    exact served_zero s 512

theorem served_pmmAllocContiguous {U : Set ℕ} {s : PmmContext} (hs : Sound U s)
    (hU : freeSet s ⊆ U) (n : ℕ) :
    Served s (pmmAllocContiguous s n).1 n (pmmAllocContiguous s n).2 := by
  rcases pmmAllocContiguous_cases s n with ⟨st, hn, hrun, h⟩ | h <;> rw [h]
  · have hle := hs.totalFrames_le
    refine served_of_mark hs hU hn (fun g hlo hhi => ?_) (by simp) fun g => used_claimRun s st n g
    obtain ⟨hlt, hfree⟩ := hrun g hlo hhi
    exact ⟨by omega, hfree⟩
  · exact served_zero s n

/-! ## One call -/

theorem freeSet_freeFrame {s : PmmContext} {f : ℕ} (hf : f < 8 * s.bitmapSize) :
    freeSet (freeFrame s f) = freeSet s ∪ {f} := by
  ext g
  simp only [freeSet, Set.mem_ofPred_eq, freeFrame_bitmapSize, used_freeFrame, Set.mem_union,
    Set.mem_singleton_iff, Bool.and_eq_false_iff, Bool.not_eq_false', decide_eq_true_eq]
  constructor
  · rintro ⟨hlt, h | h⟩
    · exact .inl ⟨hlt, h⟩
    · exact .inr h
  · rintro (h | rfl)
    · exact ⟨h.1, .inl h.2⟩
    · exact ⟨hf, .inr rfl⟩

theorem freeSet_pmmFree2mb {s : PmmContext} {b : ℕ} (hb : 64 * b + 64 ≤ s.bitmapSize) :
    freeSet (pmmFree2mb s (512 * b * 4096)) = freeSet s ∪ block b := by
  ext g
  simp only [freeSet, block, Set.mem_ofPred_eq, pmmFree2mb_bitmapSize, used_pmmFree2mb s hb,
    Set.mem_union, Bool.and_eq_false_iff, Bool.not_eq_false', decide_eq_true_eq]
  constructor
  · rintro ⟨hlt, h | h⟩
    · exact .inl ⟨hlt, h⟩
    · exact .inr h
  · rintro (h | h)
    · exact ⟨h.1, .inl h.2⟩
    · exact ⟨by omega, .inr h⟩

theorem Call.exec_sizes (c : Call) (s : PmmContext) :
    (c.exec s).2.bitmapSize = s.bitmapSize ∧ (c.exec s).2.totalFrames = s.totalFrames := by
  cases c with
  | alloc => simp [Call.exec]
  | alloc2mb => simp [Call.exec]
  | allocContiguous n =>
    rcases pmmAllocContiguous_cases s n with ⟨st, -, -, h⟩ | h <;> simp [Call.exec, h]
  | free a =>
    simp only [Call.exec, pmmFree]
    split_ifs <;> simp
  | free2mb a => simp [Call.exec]

/-- Each request serves its caller; the two free operations return 0. -/
theorem Call.exec_cases {U : Set ℕ} {s : PmmContext} (hs : Sound U s) (hU : freeSet s ⊆ U)
    (c : Call) :
    (c.released = ∅ ∧ Served s (c.exec s).1 c.frames (c.exec s).2) ∨
      ((c.exec s).1 = 0 ∧ c.released.Nonempty ∧ (c.aligned → c.released ⊆ U →
        freeSet (c.exec s).2 = freeSet s ∪ c.released)) := by
  have hle := hs.totalFrames_le
  cases c with
  | alloc => exact .inl ⟨rfl, served_pmmAlloc hs hU⟩
  | alloc2mb => exact .inl ⟨rfl, served_pmmAlloc2mb hs hU⟩
  | allocContiguous n => exact .inl ⟨rfl, served_pmmAllocContiguous hs hU n⟩
  | free a =>
    refine .inr ⟨rfl, ⟨a / 4096, rfl⟩, fun ha hr => ?_⟩
    have hlt := hs.lt_total (a / 4096) (hr rfl)
    obtain ⟨f, rfl⟩ : ∃ f, a = f * 4096 := ⟨a / 4096, by simp only [Call.aligned] at ha; omega⟩
    rw [Nat.mul_div_cancel f (by omega)] at hlt
    simp only [Call.exec, Call.released, pmmFree_frame, Nat.mul_div_cancel f (by omega : 0 < 4096)]
    exact freeSet_freeFrame (by omega)
  | free2mb a =>
    refine .inr ⟨rfl, ⟨512 * (a / 0x200000), by omega, by omega⟩, fun ha hr => ?_⟩
    have hlast := hs.lt_total (512 * (a / 0x200000) + 511) (hr ⟨by omega, by omega⟩)
    obtain ⟨b, rfl⟩ : ∃ b, a = 512 * b * 4096 :=
      ⟨a / 0x200000, by simp only [Call.aligned] at ha; omega⟩
    have hb : 512 * b * 4096 / 0x200000 = b := by omega
    simp only [Call.exec, Call.released, hb] at hlast ⊢
    exact freeSet_pmmFree2mb (by omega)

/-- The ownership invariant of a run. -/
structure Owned (U : Set ℕ) (w : World) : Prop where
  sound : Sound U w.pmm
  partition : Partition U w

theorem Owned.freeSet_subset {U : Set ℕ} {w : World} (h : Owned U w) : freeSet w.pmm ⊆ U :=
  h.partition.union ▸ Set.subset_union_left

theorem Owned.owned_subset {U : Set ℕ} {w : World} (h : Owned U w) : w.owned ⊆ U :=
  h.partition.union ▸ Set.subset_union_right

theorem Owned.step {U : Set ℕ} {w w' : World} {c : Call} (h : Owned U w) (hstep : Step w c w') :
    Owned U w' := by
  obtain ⟨ha, hr, rfl⟩ := hstep
  obtain ⟨hsize, htotal⟩ := c.exec_sizes w.pmm
  refine ⟨⟨?_, h.sound.zero_notMem, ?_, ?_⟩, ?_⟩
  · simpa only [World.exec, htotal] using h.sound.lt_total
  · simpa only [World.exec, htotal, hsize] using h.sound.totalFrames_le
  · simpa only [World.exec, hsize] using h.sound.bitmapSize_lt
  · rw [World.exec]
    rcases c.exec_cases h.sound h.freeSet_subset with ⟨hempty, hserved⟩ | ⟨hzero, -, hfree⟩
    · rw [hempty, Set.sdiff_empty]
      exact h.partition.grant hserved.granted_free hserved.freeSet_eq
    · have hnone : granted (c.exec w.pmm).1 c.frames = ∅ := by
        ext f
        simp [granted, hzero]
      rw [hnone, Set.union_empty]
      exact h.partition.release hr (hfree ha (hr.trans h.owned_subset))

/-! ## Runs from `pmm_init` -/

/-- No available entry covers a byte of frame 0. -/
def FrameZeroReserved (entries : List MemmapEntry) : Prop :=
  ∀ e ∈ entries, e.available = true → e.length = 0 ∨ 4096 ≤ e.base

instance (entries : List MemmapEntry) : Decidable (FrameZeroReserved entries) :=
  inferInstanceAs (Decidable (∀ e ∈ entries, _))

theorem not_listed_zero {entries : List MemmapEntry} (h : FrameZeroReserved entries) :
    ¬Listed entries 0 := by
  rintro ⟨e, he, hav, hlo, hhi⟩
  unfold MemmapEntry.ceiling at hhi
  rcases h e he hav with hz | hz <;> omega

theorem owned_pmmInit {entries : List MemmapEntry} {mem : ℕ → UInt8} {r : ℕ} {s : PmmContext}
    (hinit : pmmInit entries mem = some (r, s)) (h0 : FrameZeroReserved entries)
    (hsize : s.bitmapSize < 2 ^ 31) : Owned (freeSet s) ⟨s, ∅⟩ := by
  have hsized := pmmInit_sized hinit
  refine ⟨⟨?_, ?_, ?_, hsize⟩, ⟨by simp, by simp⟩⟩
  · rintro f ⟨hlt, hfree⟩
    rw [hsized.totalFrames]
    exact lt_totalFrames_of_listed ((used_pmmInit hinit hlt).mp hfree).1 (hsized.bitmapSize ▸ hlt)
  · rintro ⟨hlt, hfree⟩
    exact not_listed_zero h0 ((used_pmmInit hinit hlt).mp hfree).1
  · rw [hsized.totalFrames, hsized.bitmapSize, bitmapSizeOf]
    omega

/-- Over every run of the five operations from `pmm_init`, the free and the owned frames partition
the frames left free at boot, every other bit stays set, and each result was free and in range. -/
theorem frame_ownership {entries : List MemmapEntry} {mem : ℕ → UInt8} {r : ℕ} {s : PmmContext}
    (hinit : pmmInit entries mem = some (r, s)) (h0 : FrameZeroReserved entries)
    (hsize : s.bitmapSize < 2 ^ 31) {tr : List (World × Call × World)} {w : World}
    (hrun : Run Step ⟨s, ∅⟩ tr w) :
    (Disjoint (freeSet w.pmm) w.owned ∧ freeSet w.pmm ∪ w.owned = freeSet s) ∧
    (∀ f, f < 8 * s.bitmapSize → f ∉ freeSet s → w.pmm.used f = true) ∧
    ∀ x ∈ tr,
      (∀ f ∈ granted (x.2.1.exec x.1.pmm).1 x.2.1.frames,
        x.1.pmm.used f = false ∧ f < x.1.pmm.totalFrames) ∧
      (x.2.1.released = ∅ → (x.2.1.exec x.1.pmm).1 = 0 → x.2.2.pmm.bitmap = x.1.pmm.bitmap) := by
  have hstart := owned_pmmInit hinit h0 hsize
  obtain ⟨hw, hall⟩ := hrun.invariant hstart fun w c w' h hstep => h.step hstep
  have hsizes : w.pmm.bitmapSize = s.bitmapSize :=
    (hrun.invariant (I := fun w => w.pmm.bitmapSize = s.bitmapSize) rfl (by
      rintro w c _ h ⟨-, -, rfl⟩
      exact (c.exec_sizes w.pmm).1.trans h)).1
  refine ⟨⟨hw.partition.disjoint, hw.partition.union⟩, fun f hf hn => ?_, fun x hx => ?_⟩
  · by_contra hused
    exact hn (hw.freeSet_subset ⟨hsizes ▸ hf, by simpa using hused⟩)
  · obtain ⟨hpre, -⟩ := hall x hx
    rcases x.2.1.exec_cases hpre.sound hpre.freeSet_subset with ⟨-, hserved⟩ | ⟨hzero, hne, -⟩
    · refine ⟨fun f hf => ?_, fun _ hzero => ?_⟩
      · have hfree := hserved.granted_free hf
        exact ⟨hfree.2, hpre.sound.lt_total f (hpre.freeSet_subset hfree)⟩
      · rw [(hrun.step_of_mem hx).result, World.exec, hserved.unchanged hzero]
    · exact ⟨fun f hf => absurd hzero hf.1, fun hnone => absurd hnone hne.ne_empty⟩

/-- The small machine's block is handed out and taken back. -/
theorem frame_ownership_smallMap : ∃ s w tr, pmmInit smallMap (fun _ => 0) = some (pmmInitSuccess, s) ∧
    Run Step ⟨s, ∅⟩ tr w ∧ tr.length = 2 ∧ freeSet w.pmm ∪ w.owned = freeSet s := by
  obtain ⟨s, hs, hsize, htotal, hused⟩ := pmmInit_smallMap
  obtain ⟨hfree, hfirst, -⟩ := pmmAlloc2mb_smallMap hsize hused
  have halloc := pmmAlloc2mb_of_first hfree hfirst
  have hstep1 : Step ⟨s, ∅⟩ .alloc2mb (World.exec ⟨s, ∅⟩ .alloc2mb) := ⟨trivial, by simp [Call.released], rfl⟩
  have hgrant : block 1 ⊆ (World.exec ⟨s, ∅⟩ .alloc2mb).owned := by
    intro f hf
    refine .inr ?_
    simp only [Call.exec, halloc, Call.frames, granted, indexToPhysAddr]
    simp only [block, Set.mem_ofPred_eq] at hf ⊢
    omega
  have hstep2 : Step (World.exec ⟨s, ∅⟩ .alloc2mb) (.free2mb 0x200000)
      ((World.exec ⟨s, ∅⟩ .alloc2mb).exec (.free2mb 0x200000)) := ⟨rfl, hgrant, rfl⟩
  have hrun := (Run.nil.snoc hstep1).snoc hstep2
  exact ⟨s, _, _, hs, hrun, rfl, (frame_ownership hs (by decide) (by omega) hrun).1.2⟩

end MathUnikernel.Pmm

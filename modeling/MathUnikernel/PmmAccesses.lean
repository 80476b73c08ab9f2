import MathUnikernel.PmmOwnership

/-!
# The bytes of the bitmap that each call touches

The functions of `pmm.c` once more, with a record of every byte they read or write.
-/

namespace MathUnikernel.Pmm
open ByteBitmap Scan Runs

/-- The context and the indices of the bytes touched so far, in order. -/
structure Traced where
  ctx : PmmContext
  touched : List ℕ

namespace Traced

/-! ## The functions -/

def read (t : Traced) (i : ℕ) : UInt8 × Traced :=
  (t.ctx.bitmap i, { t with touched := t.touched ++ [i] })

def write (t : Traced) (i : ℕ) (byte : UInt8) : Traced :=
  ⟨{ t.ctx with bitmap := Function.update t.ctx.bitmap i byte }, t.touched ++ [i]⟩

def claimFrame (t : Traced) (frameIndex : ℕ) : Traced :=
  let byteIndex := frameIndex / 8
  let bitIndex := frameIndex % 8
  let (byte, t) := t.read byteIndex
  if byte &&& mask bitIndex = 0 then
    let (byte, t) := t.read byteIndex
    let t := t.write byteIndex (byte ||| mask bitIndex)
    { t with ctx.freeFrames := (t.ctx.freeFrames + (2 ^ 64 - 1)) % 2 ^ 64 }
  else t

def freeFrame (t : Traced) (frameIndex : ℕ) : Traced :=
  let byteIndex := frameIndex / 8
  let bitIndex := frameIndex % 8
  let (byte, t) := t.read byteIndex
  if byte &&& mask bitIndex ≠ 0 then
    let (byte, t) := t.read byteIndex
    let t := t.write byteIndex (byte &&& ~~~mask bitIndex)
    { t with ctx.freeFrames := (t.ctx.freeFrames + 1) % 2 ^ 64 }
  else t

/-- The first loop of `pmm_alloc`, with `n` bytes left. -/
def skipBytes : ℕ → ℕ → Traced → ℕ × Traced
  | 0, i, t => (i, t)
  | n + 1, i, t =>
    let (byte, t) := t.read i
    if byte = 0xff then skipBytes n (i + 1) t else (i, t)

/-- Its second loop, with `n` bits left. -/
def skipBits (byteIndex : ℕ) : ℕ → ℕ → Traced → ℕ × Traced
  | 0, b, t => (b, t)
  | n + 1, b, t =>
    let (byte, t) := t.read byteIndex
    if byte &&& mask b = 0 then (b, t) else skipBits byteIndex n (b + 1) t

def pmmAlloc (t : Traced) : ℕ × Traced :=
  let (byteIndex, t) := skipBytes t.ctx.bitmapSize 0 t
  if t.ctx.bitmapSize ≤ byteIndex then (0, t)
  else
    let (bitIndex, t) := skipBits byteIndex 8 0 t
    let frameIndex := byteIndex * 8 + bitIndex
    if t.ctx.totalFrames ≤ frameIndex then (0, t)
    else (indexToPhysAddr frameIndex, t.claimFrame frameIndex)

def pmmFree (t : Traced) (physAddr : ℕ) : Traced :=
  if physAddr &&& 0xfff ≠ 0 then t else t.freeFrame (physAddrToIndex physAddr)

/-- `is_valid`, with `n` bytes of the group left. -/
def readGroup : ℕ → ℕ → Traced → Bool × Traced
  | 0, _, t => (true, t)
  | n + 1, i, t =>
    let (byte, t) := t.read i
    if byte = 0 then readGroup n (i + 1) t else (false, t)

/-- The search of `pmm_alloc_2mb`, with `n` groups left. -/
def findGroup : ℕ → ℕ → Traced → ℕ × Traced
  | 0, byteIndex, t => (byteIndex, t)
  | n + 1, byteIndex, t =>
    let (isValid, t) := readGroup 64 byteIndex t
    if isValid then (byteIndex, t) else findGroup n (byteIndex + 64) t

def fillInt (stop i : ℕ) (t : Traced) : Traced :=
  if i < stop ∧ i < 2 ^ 31 then fillInt stop (i + 1) (t.write i 0xff) else t
termination_by stop - i
decreasing_by omega

def markGroup (t : Traced) (byteIndex : ℕ) : Traced :=
  if byteIndex % 2 ^ 32 < 2 ^ 31 then fillInt (byteIndex + 64) (byteIndex % 2 ^ 32) t else t

def pmmAlloc2mb (t : Traced) : ℕ × Traced :=
  let (byteIndex, t) := findGroup (t.ctx.bitmapSize / 64) 0 t
  if t.ctx.bitmapSize < byteIndex + 64 then (0, t)
  else (indexToPhysAddr (byteIndex * 8), t.markGroup byteIndex)

def pmmFree2mb (t : Traced) (physAddr : ℕ) : Traced :=
  if physAddr % 0x200000 ≠ 0 then t
  else
    let byteIndex := physAddrToIndex physAddr / 8
    if t.ctx.bitmapSize < byteIndex + 64 then t
    else (List.range 64).foldl (fun t k => t.write (byteIndex + k) 0x00) t

def searchContiguous (totalFrames numFrames i foundFrames startFrame : ℕ) (t : Traced) :
    Option ℕ × Traced :=
  if i < totalFrames then
    let byteIndex := i / 8
    let bitIndex := i % 8
    let (skip, t) :=
      if bitIndex = 0 then
        let (byte, t) := t.read byteIndex
        (decide (byte = 0xff), t)
      else (false, t)
    let foundFrames := if skip then 0 else foundFrames
    let i' := if skip then i + 7 else i
    let (byte, t) := t.read byteIndex
    if byte &&& mask bitIndex = 0 then
      let startFrame := if foundFrames = 0 then i' else startFrame
      if foundFrames + 1 = numFrames then (some startFrame, t)
      else searchContiguous totalFrames numFrames (i' + 1) (foundFrames + 1) startFrame t
    else searchContiguous totalFrames numFrames (i' + 1) 0 startFrame t
  else (none, t)
termination_by totalFrames - i
decreasing_by all_goals (split_ifs <;> omega)

def pmmAllocContiguous (t : Traced) (numFrames : ℕ) : ℕ × Traced :=
  match searchContiguous t.ctx.totalFrames numFrames 0 0 0 t with
  | (some startFrame, t) =>
    (indexToPhysAddr startFrame,
      (List.range numFrames).foldl (fun t j => t.claimFrame (startFrame + j)) t)
  | (none, t) => (0, t)

end Traced

/-- A call with its record. -/
def Call.trace (t : Traced) : Call → ℕ × Traced
  | .alloc => t.pmmAlloc
  | .alloc2mb => t.pmmAlloc2mb
  | .allocContiguous numFrames => t.pmmAllocContiguous numFrames
  | .free physAddr => (0, t.pmmFree physAddr)
  | .free2mb physAddr => (0, t.pmmFree2mb physAddr)

/-! ## Without the record -/

/-- From `t` to `t'` the context became `s`, and only bytes below `n` were touched. -/
structure Touches (n : ℕ) (t : Traced) (s : PmmContext) (t' : Traced) : Prop where
  ctx : t'.ctx = s
  below : ∀ i ∈ t'.touched, i ∈ t.touched ∨ i < n

theorem Touches.refl (n : ℕ) (t : Traced) : Touches n t t.ctx t := ⟨rfl, fun _ h => .inl h⟩

theorem Touches.trans {n : ℕ} {t t' t'' : Traced} {s s' : PmmContext} (h : Touches n t s t')
    (h' : Touches n t' s' t'') : Touches n t s' t'' :=
  ⟨h'.ctx, fun i hi => (h'.below i hi).elim (h.below i) .inr⟩

theorem touches_read {n i : ℕ} (t : Traced) (hi : i < n) : Touches n t t.ctx (t.read i).2 := by
  refine ⟨rfl, fun j hj => ?_⟩
  rcases List.mem_append.mp hj with hj | hj
  · exact .inl hj
  · exact .inr (List.mem_singleton.mp hj ▸ hi)

theorem touches_write {n i : ℕ} (t : Traced) (byte : UInt8) (hi : i < n) :
    Touches n t { t.ctx with bitmap := Function.update t.ctx.bitmap i byte } (t.write i byte) := by
  refine ⟨rfl, fun j hj => ?_⟩
  rcases List.mem_append.mp hj with hj | hj
  · exact .inl hj
  · exact .inr (List.mem_singleton.mp hj ▸ hi)

@[simp] theorem Traced.read_fst (t : Traced) (i : ℕ) : (t.read i).1 = t.ctx.bitmap i := rfl

@[simp] theorem Traced.read_ctx (t : Traced) (i : ℕ) : (t.read i).2.ctx = t.ctx := rfl

/-! ### Single frames -/

theorem touches_claimFrame {n f : ℕ} (t : Traced) (hf : f / 8 < n) :
    Touches n t (claimFrame t.ctx f) (t.claimFrame f) := by
  have hread := touches_read t hf
  simp only [Traced.claimFrame, claimFrame]
  by_cases hbyte : t.ctx.bitmap (f / 8) &&& mask (f % 8) = 0
  · rw [if_pos hbyte, if_pos (by exact hbyte)]
    have hagain := touches_read (t.read (f / 8)).2 hf
    have hwrite := touches_write ((t.read (f / 8)).2.read (f / 8)).2
      (t.ctx.bitmap (f / 8) ||| mask (f % 8)) hf
    exact ⟨rfl, ((hread.trans hagain).trans hwrite).below⟩
  · rw [if_neg hbyte, if_neg (by exact hbyte)]
    exact hread

/-- `free_frame` has no bound of its own. -/
theorem touches_freeFrame {n f : ℕ} (t : Traced) (hf : f / 8 < n) :
    Touches n t (freeFrame t.ctx f) (t.freeFrame f) := by
  have hread := touches_read t hf
  simp only [Traced.freeFrame, freeFrame]
  by_cases hbyte : t.ctx.bitmap (f / 8) &&& mask (f % 8) ≠ 0
  · rw [if_pos hbyte, if_pos (by exact hbyte)]
    have hagain := touches_read (t.read (f / 8)).2 hf
    have hwrite := touches_write ((t.read (f / 8)).2.read (f / 8)).2
      (t.ctx.bitmap (f / 8) &&& ~~~mask (f % 8)) hf
    exact ⟨rfl, ((hread.trans hagain).trans hwrite).below⟩
  · rw [if_neg hbyte, if_neg (by exact hbyte)]
    exact hread

/-- It reads the byte in any case. -/
theorem mem_touched_freeFrame (t : Traced) (f : ℕ) : f / 8 ∈ (t.freeFrame f).touched := by
  simp only [Traced.freeFrame]
  split_ifs <;> simp [Traced.read, Traced.write]

/-! ### Searches -/

theorem touches_skipBytes {n : ℕ} (left i : ℕ) (t : Traced) (hn : i + left ≤ n) :
    (Traced.skipBytes left i t).1 = scan (fun i => t.ctx.bitmap i != 0xff) left i ∧
      Touches n t t.ctx (Traced.skipBytes left i t).2 := by
  induction left generalizing i t with
  | zero => exact ⟨rfl, .refl n t⟩
  | succ left ih =>
    have hread := touches_read t (by omega : i < n)
    simp only [Traced.skipBytes, scan]
    by_cases hbyte : t.ctx.bitmap i = 0xff
    · have hrest := ih (i + 1) (t.read i).2 (by omega)
      rw [if_pos (by exact hbyte), if_neg (by simp [hbyte])]
      exact ⟨hrest.1, hread.trans hrest.2⟩
    · rw [if_neg (by exact hbyte), if_pos (by simp [hbyte])]
      exact ⟨rfl, hread⟩

theorem touches_skipBits {n byteIndex : ℕ} (left b : ℕ) (t : Traced) (hn : byteIndex < n) :
    (Traced.skipBits byteIndex left b t).1 =
        scan (fun b => t.ctx.bitmap byteIndex &&& mask b == 0) left b ∧
      Touches n t t.ctx (Traced.skipBits byteIndex left b t).2 := by
  induction left generalizing b t with
  | zero => exact ⟨rfl, .refl n t⟩
  | succ left ih =>
    have hread := touches_read t hn
    simp only [Traced.skipBits, scan]
    by_cases hbit : t.ctx.bitmap byteIndex &&& mask b = 0
    · rw [if_pos (by exact hbit), if_pos (by simp [hbit])]
      exact ⟨rfl, hread⟩
    · have hrest := ih (b + 1) (t.read byteIndex).2
      rw [if_neg (by exact hbit), if_neg (by simp [hbit])]
      exact ⟨hrest.1, hread.trans hrest.2⟩

theorem touches_pmmAlloc {n : ℕ} (t : Traced) (hsize : t.ctx.bitmapSize ≤ n)
    (htotal : t.ctx.totalFrames ≤ 8 * n) :
    t.pmmAlloc.1 = (pmmAlloc t.ctx).1 ∧ Touches n t (pmmAlloc t.ctx).2 t.pmmAlloc.2 := by
  have hbytes := @touches_skipBytes n t.ctx.bitmapSize 0 t (by omega)
  simp only [Traced.pmmAlloc, pmmAlloc]
  generalize Traced.skipBytes t.ctx.bitmapSize 0 t = found at hbytes ⊢
  cases found with | mk byteIndex t' =>
  simp only at hbytes ⊢
  rw [hbytes.1, hbytes.2.ctx]
  generalize scan (fun i => t.ctx.bitmap i != 0xff) t.ctx.bitmapSize 0 = byteIndex
  by_cases hend : t.ctx.bitmapSize ≤ byteIndex
  · rw [if_pos hend, if_pos hend]
    exact ⟨rfl, hbytes.2⟩
  · rw [if_neg hend, if_neg hend]
    have hbits := @touches_skipBits n byteIndex 8 0 t' (by omega)
    rw [hbytes.2.ctx] at hbits
    generalize Traced.skipBits byteIndex 8 0 t' = found at hbits ⊢
    cases found with | mk bitIndex t'' =>
    simp only at hbits ⊢
    rw [hbits.1, hbits.2.ctx]
    generalize scan (fun b => t.ctx.bitmap byteIndex &&& mask b == 0) 8 0 = bitIndex
    by_cases hlast : t.ctx.totalFrames ≤ byteIndex * 8 + bitIndex
    · rw [if_pos hlast, if_pos hlast]
      exact ⟨rfl, hbytes.2.trans hbits.2⟩
    · rw [if_neg hlast, if_neg hlast]
      have hclaim := @touches_claimFrame n (byteIndex * 8 + bitIndex) t'' (by omega)
      rw [hbits.2.ctx] at hclaim
      exact ⟨rfl, (hbytes.2.trans hbits.2).trans hclaim⟩

/-! ### Blocks -/

theorem touches_readGroup {n : ℕ} (left i : ℕ) (t : Traced) (hn : i + left ≤ n) :
    ((Traced.readGroup left i t).1 = true ↔ ∀ e < left, t.ctx.bitmap (i + e) = 0) ∧
      Touches n t t.ctx (Traced.readGroup left i t).2 := by
  induction left generalizing i t with
  | zero => exact ⟨by simp [Traced.readGroup], .refl n t⟩
  | succ left ih =>
    have hread := touches_read t (by omega : i < n)
    simp only [Traced.readGroup]
    by_cases hbyte : t.ctx.bitmap i = 0
    · have hrest := ih (i + 1) (t.read i).2 (by omega)
      rw [if_pos (by exact hbyte)]
      refine ⟨hrest.1.trans ?_, hread.trans hrest.2⟩
      constructor
      · intro h e he
        cases e with
        | zero => exact hbyte
        | succ e => simpa [Nat.add_right_comm, Nat.add_assoc] using h e (by omega)
      · intro h e he
        simpa [Nat.add_right_comm, Nat.add_assoc] using h (e + 1) (by omega)
    · rw [if_neg (by exact hbyte)]
      refine ⟨⟨fun h => absurd h Bool.false_ne_true, fun h => ?_⟩, hread⟩
      exact absurd (h 0 (Nat.succ_pos left)) hbyte

theorem touches_findGroup {n : ℕ} (left g : ℕ) (t : Traced) (hn : 64 * (g + left) ≤ n) :
    (Traced.findGroup left (64 * g) t).1 =
        64 * scan (fun group => groupIsZero t.ctx.bitmap (64 * group)) left g ∧
      Touches n t t.ctx (Traced.findGroup left (64 * g) t).2 := by
  induction left generalizing g t with
  | zero => exact ⟨rfl, .refl n t⟩
  | succ left ih =>
    have hgroup := @touches_readGroup n 64 (64 * g) t (by omega)
    have hzero : (Traced.readGroup 64 (64 * g) t).1 = groupIsZero t.ctx.bitmap (64 * g) := by
      apply Bool.eq_iff_iff.mpr
      rw [hgroup.1]
      simp [groupIsZero]
    simp only [Traced.findGroup, scan, hzero]
    split_ifs with h
    · exact ⟨rfl, hgroup.2⟩
    · have hrest := ih (g + 1) (Traced.readGroup 64 (64 * g) t).2 (by omega)
      rw [hgroup.2.ctx] at hrest
      exact ⟨hrest.1, hgroup.2.trans hrest.2⟩

theorem touches_fillInt {n : ℕ} (stop i : ℕ) (t : Traced) (hn : stop ≤ n) :
    Touches n t { t.ctx with bitmap := fillInt stop i t.ctx.bitmap } (t.fillInt stop i) := by
  fun_induction Traced.fillInt stop i t with
  | case1 i t h ih =>
    rw [fillInt, if_pos h]
    exact (touches_write t 0xff (by omega)).trans ih
  | case2 i t h =>
    rw [fillInt, if_neg h]
    exact .refl n t

theorem touches_markGroup {n : ℕ} (byteIndex : ℕ) (t : Traced) (hn : byteIndex + 64 ≤ n) :
    Touches n t { t.ctx with bitmap := markGroup t.ctx.bitmap byteIndex }
      (t.markGroup byteIndex) := by
  unfold Traced.markGroup markGroup
  split_ifs
  · exact touches_fillInt _ _ t hn
  · exact .refl n t

theorem touches_pmmAlloc2mb {n : ℕ} (t : Traced) (hsize : t.ctx.bitmapSize ≤ n) :
    t.pmmAlloc2mb.1 = (pmmAlloc2mb t.ctx).1 ∧
      Touches n t (pmmAlloc2mb t.ctx).2 t.pmmAlloc2mb.2 := by
  have hgroup := @touches_findGroup n (t.ctx.bitmapSize / 64) 0 t (by omega)
  simp only [Traced.pmmAlloc2mb, pmmAlloc2mb]
  rw [Nat.mul_zero] at hgroup
  generalize Traced.findGroup (t.ctx.bitmapSize / 64) 0 t = found at hgroup ⊢
  cases found with | mk byteIndex t' =>
  simp only at hgroup ⊢
  rw [hgroup.1, hgroup.2.ctx]
  split_ifs with h
  · exact ⟨rfl, hgroup.2⟩
  · have hmark := touches_markGroup _ t' (show _ ≤ n from (Nat.le_of_not_lt h).trans hsize)
    rw [hgroup.2.ctx] at hmark
    exact ⟨rfl, hgroup.2.trans hmark⟩

theorem touches_clear {n : ℕ} (t : Traced) (byteIndex left : ℕ) (hn : byteIndex + left ≤ n) :
    Touches n t { t.ctx with bitmap := fill t.ctx.bitmap byteIndex (byteIndex + left) 0x00 }
      ((List.range left).foldl (fun t k => t.write (byteIndex + k) 0x00) t) := by
  induction left with
  | zero =>
    rw [Nat.add_zero, fill_self]
    exact .refl n t
  | succ left ih =>
    have hrest := ih (by omega)
    have hwrite := touches_write ((List.range left).foldl
      (fun t k => t.write (byteIndex + k) 0x00) t) 0x00 (by omega : byteIndex + left < n)
    rw [List.range_succ, List.foldl_append]
    refine ⟨?_, (hrest.trans hwrite).below⟩
    rw [List.foldl_cons, List.foldl_nil, hwrite.ctx, hrest.ctx, ← Nat.add_assoc,
      fill_succ t.ctx.bitmap (Nat.le_add_right byteIndex left)]

/-- `pmm_free_2mb` turns away every block that does not end inside the bitmap. -/
theorem touches_pmmFree2mb {n : ℕ} (t : Traced) (physAddr : ℕ) (hsize : t.ctx.bitmapSize ≤ n) :
    Touches n t (pmmFree2mb t.ctx physAddr) (t.pmmFree2mb physAddr) := by
  unfold Traced.pmmFree2mb pmmFree2mb
  simp only
  split_ifs
  · exact .refl n t
  · exact .refl n t
  · exact touches_clear t _ 64 (by omega)

/-! ### Runs of frames -/

/-- The test for a full byte, at a byte's first bit only. -/
theorem touches_skip {n i : ℕ} (t : Traced) (hi : i / 8 < n) {pair : Bool × Traced}
    (hpair : (if i % 8 = 0 then (decide ((t.read (i / 8)).1 = 0xff), (t.read (i / 8)).2)
      else (false, t)) = pair) :
    pair.1 = decide (i % 8 = 0 ∧ t.ctx.bitmap (i / 8) = 0xff) ∧ Touches n t t.ctx pair.2 := by
  subst hpair
  split_ifs with hbit
  · exact ⟨by simp only [hbit, true_and]; rfl, touches_read t hi⟩
  · exact ⟨by simp [hbit], .refl n t⟩

theorem touches_searchContiguous {n numFrames : ℕ} (i found start : ℕ) (t : Traced)
    (htotal : t.ctx.totalFrames ≤ 8 * n) :
    (Traced.searchContiguous t.ctx.totalFrames numFrames i found start t).1 =
        searchContiguous t.ctx numFrames i found start ∧
      Touches n t t.ctx (Traced.searchContiguous t.ctx.totalFrames numFrames i found start t).2 := by
  induction hm : t.ctx.totalFrames - i using Nat.strong_induction_on generalizing i found start t with
  | _ m ih =>
    rw [Traced.searchContiguous, searchContiguous]
    by_cases hi : i < t.ctx.totalFrames
    · rw [if_pos hi, if_pos hi]
      have hbyte : i / 8 < n := by omega
      generalize hpair : (if i % 8 = 0 then (decide ((t.read (i / 8)).1 = 0xff), (t.read (i / 8)).2)
        else (false, t)) = pair
      have hskip := touches_skip t hbyte hpair
      cases pair with | mk skip t' =>
      have hread := hskip.2.trans (hskip.2.ctx ▸ touches_read t' hbyte)
      -- every way on continues behind `i` from the context it had
      have hrest : ∀ i' found start, i < i' → _ := fun i' found start hlt =>
        ih (t.ctx.totalFrames - i') (by omega) i' found start (t'.read (i / 8)).2
          (hread.ctx ▸ htotal) (by rw [hread.ctx])
      rw [hread.ctx] at hrest
      have hnext := fun i' found start hlt =>
        And.intro (hrest i' found start hlt).1 (hread.trans (hrest i' found start hlt).2)
      have hbits : (t'.read (i / 8)).1 = t.ctx.bitmap (i / 8) := by rw [← hskip.2.ctx]; rfl
      dsimp only
      rw [hpair]
      dsimp only
      rw [hbits]
      by_cases hfull : i % 8 = 0 ∧ t.ctx.bitmap (i / 8) = 0xff
      · rw [show skip = true by simpa [hfull] using hskip.1]
        simp only [if_pos hfull, if_true]
        split_ifs
        · exact ⟨rfl, hread⟩
        · exact hnext _ _ _ (by omega)
        · exact hnext _ _ _ (by omega)
      · rw [show skip = false by simpa [hfull] using hskip.1]
        simp only [if_neg hfull, Bool.false_eq_true, if_false]
        split_ifs
        · exact ⟨rfl, hread⟩
        · exact ⟨rfl, hread⟩
        · exact hnext _ _ _ (by omega)
        · exact hnext _ _ _ (by omega)
        · exact hnext _ _ _ (by omega)
    · rw [if_neg hi, if_neg hi]
      exact ⟨rfl, .refl n t⟩

theorem touches_claims {n : ℕ} (t : Traced) (startFrame numFrames : ℕ)
    (hn : ∀ f, startFrame ≤ f → f < startFrame + numFrames → f / 8 < n) :
    Touches n t (claimRun t.ctx startFrame numFrames)
      ((List.range numFrames).foldl (fun t j => t.claimFrame (startFrame + j)) t) := by
  induction numFrames with
  | zero => exact .refl n t
  | succ left ih =>
    have hrest := ih fun f hlo hhi => hn f hlo (by omega)
    have hclaim := touches_claimFrame ((List.range left).foldl
      (fun t j => t.claimFrame (startFrame + j)) t) (hn (startFrame + left) (by omega) (by omega))
    rw [hrest.ctx] at hclaim
    rw [claimRun_succ, List.range_succ, List.foldl_append]
    exact hrest.trans hclaim

/-- The frames it claims were found below `total_frames`. -/
theorem touches_pmmAllocContiguous {n : ℕ} (t : Traced) (numFrames : ℕ)
    (htotal : t.ctx.totalFrames ≤ 8 * n) :
    (t.pmmAllocContiguous numFrames).1 = (pmmAllocContiguous t.ctx numFrames).1 ∧
      Touches n t (pmmAllocContiguous t.ctx numFrames).2 (t.pmmAllocContiguous numFrames).2 := by
  have hsearch := @touches_searchContiguous n numFrames 0 0 0 t htotal
  have hsound := fun st => @searchContiguous_sound t.ctx numFrames st 0 0 0 (runAt_zero t.ctx 0 0)
  unfold Traced.pmmAllocContiguous pmmAllocContiguous
  rw [← hsearch.1] at hsound ⊢
  generalize Traced.searchContiguous t.ctx.totalFrames numFrames 0 0 0 t = found at hsearch hsound ⊢
  rcases found with ⟨_ | startFrame, t'⟩
  · exact ⟨rfl, hsearch.2⟩
  · have hrun := (hsound startFrame rfl).2
    have hclaims := @touches_claims n t' startFrame numFrames fun f hlo hhi => by
      have := (hrun f hlo hhi).1
      omega
    rw [hsearch.2.ctx] at hclaims
    exact ⟨rfl, hsearch.2.trans hclaims⟩

/-! ## Safe calls -/

/-- The frame that `pmm_free` is given has a bit in a bitmap of `n` bytes. -/
def Call.InBitmap (n : ℕ) : Call → Prop
  | .free physAddr => physAddr % 4096 = 0 → physAddr / 4096 < 8 * n
  | _ => True

theorem and_fff_eq_zero_iff (a : ℕ) : a &&& 0xfff = 0 ↔ a % 4096 = 0 := by
  rw [show (0xfff : ℕ) = 2 ^ 12 - 1 from rfl, Nat.and_two_pow_sub_one_eq_mod]

theorem touches_pmmFree {n : ℕ} (t : Traced) (physAddr : ℕ)
    (hn : physAddr % 4096 = 0 → physAddr / 4096 < 8 * n) :
    Touches n t (pmmFree t.ctx physAddr) (t.pmmFree physAddr) := by
  unfold Traced.pmmFree pmmFree
  by_cases haligned : physAddr &&& 0xfff ≠ 0
  · rw [if_pos haligned, if_pos haligned]
    exact .refl n t
  · rw [if_neg haligned, if_neg haligned]
    have := hn ((and_fff_eq_zero_iff physAddr).mp (not_not.mp haligned))
    exact touches_freeFrame t (by unfold physAddrToIndex; omega)

/-- The record changes nothing about a call. -/
theorem Call.touches {n : ℕ} (t : Traced) (c : Call) (hsize : t.ctx.bitmapSize ≤ n)
    (htotal : t.ctx.totalFrames ≤ 8 * n) (hc : c.InBitmap n) :
    (c.trace t).1 = (c.exec t.ctx).1 ∧ Touches n t (c.exec t.ctx).2 (c.trace t).2 := by
  cases c with
  | alloc => exact touches_pmmAlloc t hsize htotal
  | alloc2mb => exact touches_pmmAlloc2mb t hsize
  | allocContiguous numFrames => exact touches_pmmAllocContiguous t numFrames htotal
  | free physAddr => exact ⟨rfl, touches_pmmFree t physAddr hc⟩
  | free2mb physAddr => exact ⟨rfl, touches_pmmFree2mb t physAddr hsize⟩

theorem Call.trace_eq (t : Traced) (c : Call) :
    (c.trace t).1 = (c.exec t.ctx).1 ∧ (c.trace t).2.ctx = (c.exec t.ctx).2 := by
  have hlarge : ∃ n, t.ctx.bitmapSize ≤ n ∧ t.ctx.totalFrames ≤ 8 * n ∧ c.InBitmap n := by
    cases c with
    | free physAddr =>
      exact ⟨t.ctx.bitmapSize + t.ctx.totalFrames + physAddr + 1, by omega, by omega,
        fun _ => by omega⟩
    | alloc | alloc2mb | allocContiguous _ | free2mb _ =>
      exact ⟨t.ctx.bitmapSize + t.ctx.totalFrames, by omega, by omega, trivial⟩
  obtain ⟨n, hsize, htotal, hc⟩ := hlarge
  have h := c.touches t hsize htotal hc
  exact ⟨h.1, h.2.ctx⟩

/-- Every byte touched is a byte of the bitmap, and an address behind the last frame changes
nothing. -/
structure SafeCall (s : PmmContext) (c : Call) : Prop where
  touched : ∀ i ∈ (c.trace ⟨s, []⟩).2.touched, i < s.bitmapSize
  beyond : ∀ physAddr, c = .free physAddr ∨ c = .free2mb physAddr →
    s.totalFrames * 4096 ≤ physAddr →
      (c.exec s).2.bitmap = s.bitmap ∧ (c.exec s).2.freeFrames = s.freeFrames

/-- `pmm_free` is given a frame below `total_frames`, or one of the padding bits of the last byte
while that bit is clear. -/
def Call.InRange (s : PmmContext) (c : Call) : Prop :=
  ∀ physAddr, c = .free physAddr → physAddr % 4096 = 0 →
    physAddr / 4096 < s.totalFrames ∨
      physAddr / 4096 < 8 * s.bitmapSize ∧ s.used (physAddr / 4096) = false

theorem pmmFree_of_aligned (s : PmmContext) {a : ℕ} (ha : a % 4096 = 0) :
    pmmFree s a = freeFrame s (a / 4096) := by
  rw [pmmFree, if_neg (not_not.mpr ((and_fff_eq_zero_iff a).mpr ha)), physAddrToIndex]

theorem pmmFree_of_not_aligned (s : PmmContext) {a : ℕ} (ha : a % 4096 ≠ 0) : pmmFree s a = s := by
  rw [pmmFree, if_pos fun h => ha ((and_fff_eq_zero_iff a).mp h)]

/-- The block of an address behind the last frame does not end inside the bitmap. -/
theorem pmmFree2mb_beyond {s : PmmContext} (hsize : s.bitmapSize = (s.totalFrames + 7) / 8) {a : ℕ}
    (ha : s.totalFrames * 4096 ≤ a) : pmmFree2mb s a = s := by
  unfold pmmFree2mb physAddrToIndex
  dsimp only
  by_cases haligned : a % 0x200000 ≠ 0
  · rw [if_pos haligned]
  · rw [if_neg haligned, if_pos (by omega)]

theorem safeCall_of_inRange {s : PmmContext} (hsize : s.bitmapSize = (s.totalFrames + 7) / 8)
    {c : Call} (h : c.InRange s) : SafeCall s c := by
  constructor
  · intro i hi
    have hc : c.InBitmap s.bitmapSize := by
      cases c with
      | free physAddr => exact fun ha => (h physAddr rfl ha).elim (fun _ => by omega) And.left
      | alloc | alloc2mb | allocContiguous _ | free2mb _ => trivial
    have htouches := (c.touches ⟨s, []⟩ le_rfl (by dsimp only; omega) hc).2
    exact (htouches.below i hi).elim (fun h => absurd h List.not_mem_nil) id
  · rintro a (rfl | rfl) ha
    · by_cases haligned : a % 4096 = 0
      · have hclear : s.used (a / 4096) = false :=
          (h a rfl haligned).elim (fun hlt => by omega) And.right
        rw [Call.exec, pmmFree_of_aligned s haligned, freeFrame_eq, hclear]
        exact ⟨rfl, rfl⟩
      · rw [Call.exec, pmmFree_of_not_aligned s haligned]
        exact ⟨rfl, rfl⟩
    · rw [Call.exec, pmmFree2mb_beyond hsize ha]
      exact ⟨rfl, rfl⟩

/-- A frame behind the bitmap has its byte touched, a set padding bit is cleared. -/
theorem inRange_of_safeCall {s : PmmContext} {c : Call} (h : SafeCall s c) : c.InRange s := by
  rintro a rfl haligned
  by_contra hout
  have hbeyond : s.totalFrames ≤ a / 4096 := by omega
  by_cases hlt : a / 4096 < 8 * s.bitmapSize
  · have hused : s.used (a / 4096) = true := by
      by_contra hclear
      exact hout (.inr ⟨hlt, by simpa using hclear⟩)
    have hsame := (h.beyond a (.inl rfl) (by omega)).1
    have hgone := getBit_clearBit_self s.bitmap (a / 4096)
    rw [Call.exec, pmmFree_of_aligned s haligned, freeFrame_eq, if_pos hused] at hsame
    change clearBit s.bitmap (a / 4096) = s.bitmap at hsame
    rw [hsame] at hgone
    exact Bool.false_ne_true (hgone.symm.trans hused)
  · have hmem := mem_touched_freeFrame ⟨s, []⟩ (physAddrToIndex a)
    have htouched := h.touched (physAddrToIndex a / 8) (by
      rw [Call.trace, Traced.pmmFree,
        if_neg (not_not.mpr ((and_fff_eq_zero_iff a).mpr haligned))]
      exact hmem)
    unfold physAddrToIndex at htouched
    omega

/-! ## Every reachable state -/

/-- One call of any caller, with any argument. -/
def CallStep (s : PmmContext) (c : Call) (s' : PmmContext) : Prop := s' = (c.exec s).2

theorem bitmapSize_of_run {entries : List MemmapEntry} {mem : ℕ → UInt8} {r : ℕ} {s₀ s : PmmContext}
    (hinit : pmmInit entries mem = some (r, s₀)) {tr : List (PmmContext × Call × PmmContext)}
    (hrun : Run CallStep s₀ tr s) : s.bitmapSize = (s.totalFrames + 7) / 8 := by
  have hsized := pmmInit_sized hinit
  have hstart : s₀.bitmapSize = (s₀.totalFrames + 7) / 8 := by
    rw [hsized.bitmapSize, hsized.totalFrames, bitmapSizeOf]
  apply (hrun.invariant (I := fun s => s.bitmapSize = (s.totalFrames + 7) / 8) hstart _).1
  rintro s c _ h rfl
  obtain ⟨hsize, htotal⟩ := c.exec_sizes s
  rw [hsize, htotal]
  exact h

/-- After every run of calls from `pmm_init`, a call is safe exactly when it does not hand
`pmm_free` a frame behind the last one. -/
theorem safeCall_iff {entries : List MemmapEntry} {mem : ℕ → UInt8} {r : ℕ} {s₀ s : PmmContext}
    (hinit : pmmInit entries mem = some (r, s₀)) {tr : List (PmmContext × Call × PmmContext)}
    (hrun : Run CallStep s₀ tr s) (c : Call) : SafeCall s c ↔ c.InRange s :=
  ⟨inRange_of_safeCall, safeCall_of_inRange (bitmapSize_of_run hinit hrun)⟩

/-- Byte 128 behind the 128 bytes of the small machine's bitmap. -/
theorem not_safeCall_smallMap : ¬∀ (entries : List MemmapEntry) (mem : ℕ → UInt8) (r : ℕ)
    (s₀ s : PmmContext) (tr : List (PmmContext × Call × PmmContext)),
    pmmInit entries mem = some (r, s₀) → Run CallStep s₀ tr s → ∀ c, SafeCall s c := by
  intro h
  obtain ⟨s, hs, hsize, htotal, -⟩ := pmmInit_smallMap
  have hin := inRange_of_safeCall (h _ _ _ s s [] hs .nil (.free 0x400000)) 0x400000 rfl rfl
  omega

/-- A block taken and a frame asked for, then the block returned, a frame of it and one behind the
last. -/
theorem safeCall_iff_smallMap : ∃ s₀ s tr, pmmInit smallMap (fun _ => 0) = some (pmmInitSuccess, s₀) ∧
    Run CallStep s₀ tr s ∧ tr.map (·.2.1) = [.alloc2mb, .alloc] ∧ SafeCall s (.free2mb 0x200000) ∧
    SafeCall s (.free 0x200000) ∧ ¬SafeCall s (.free 0x400000) := by
  obtain ⟨s₀, hs, hsize, htotal, -⟩ := pmmInit_smallMap
  have hblock : CallStep s₀ .alloc2mb (pmmAlloc2mb s₀).2 := rfl
  have hframe : CallStep (pmmAlloc2mb s₀).2 .alloc (pmmAlloc (pmmAlloc2mb s₀).2).2 := rfl
  have hrun := (Run.nil.snoc hblock).snoc hframe
  have htotal' : (pmmAlloc (pmmAlloc2mb s₀).2).2.totalFrames = 1024 := by
    rw [pmmAlloc_totalFrames, pmmAlloc2mb_totalFrames, htotal]
  have hsize' : (pmmAlloc (pmmAlloc2mb s₀).2).2.bitmapSize = 128 := by
    rw [pmmAlloc_bitmapSize, pmmAlloc2mb_bitmapSize, hsize]
  have hsafe := safeCall_iff hs hrun
  refine ⟨s₀, _, _, hs, hrun, rfl, (hsafe _).mpr ?_, (hsafe _).mpr ?_, mt (hsafe _).mp ?_⟩
  · intro a ha
    cases ha
  · intro a ha _
    cases ha
    exact .inl (by omega)
  · intro hin
    have hlt := hin 0x400000 rfl rfl
    omega

end MathUnikernel.Pmm

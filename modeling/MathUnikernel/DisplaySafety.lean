import MathUnikernel.DisplayNumbers

/-!
# Stores to the framebuffer

The cursor goes wherever newlines and tabs take it, and wraps.  What keeps the stores inside the
framebuffer are the two tests that `fb_putchar` makes for each pixel.
-/

namespace MathUnikernel.Display

/-! ## Indices -/

/-- The rows of the framebuffer do not overlap, and its pixels can be counted in 32 bits. -/
structure Terminal.Fits (t : Terminal) : Prop where
  width : t.fbWidth.toNat ≤ t.fbPitch.toNat / 4
  size : t.fbPitch.toNat / 4 * t.fbHeight.toNat < 2 ^ 32

/-- The pixels of the framebuffer, the padding of the rows included. -/
def Terminal.pixelCount (t : Terminal) : ℕ := t.fbPitch.toNat / 4 * t.fbHeight.toNat

theorem pixelIndex_lt {x y width height rowLength : ℕ} (hx : x < width) (hy : y < height)
    (hwidth : width ≤ rowLength) : y * rowLength + x < rowLength * height := by
  calc y * rowLength + x < y * rowLength + rowLength := by omega
    _ = rowLength * (y + 1) := by ring
    _ ≤ rowLength * height := Nat.mul_le_mul_left _ hy

theorem toNat_rowLength (pitch : UInt32) : (pitch / 4).toNat = pitch.toNat / 4 := by
  rw [UInt32.toNat_div]
  rfl

theorem Terminal.Fits.toNat_index {t : Terminal} (h : t.Fits) {x y : UInt32} (hx : x < t.fbWidth)
    (hy : y < t.fbHeight) :
    (y * (t.fbPitch / 4) + x).toNat = y.toNat * (t.fbPitch.toNat / 4) + x.toNat ∧
      y.toNat * (t.fbPitch.toNat / 4) + x.toNat < t.pixelCount := by
  have hlt : y.toNat * (t.fbPitch.toNat / 4) + x.toNat < t.pixelCount :=
    pixelIndex_lt (UInt32.lt_iff_toNat_lt.mp hx) (UInt32.lt_iff_toNat_lt.mp hy) h.width
  have hsize : t.pixelCount < 2 ^ 32 := h.size
  refine ⟨?_, hlt⟩
  rw [UInt32.toNat_add, UInt32.toNat_mul, toNat_rowLength,
    Nat.mod_eq_of_lt (show y.toNat * (t.fbPitch.toNat / 4) < 2 ^ 32 by omega)]
  exact Nat.mod_eq_of_lt (by omega)

/-! ## One character -/

theorem mem_gridLoop {α : Type*} {rows columns : ℕ} {body : UInt32 → UInt32 → List α} {a : α} :
    a ∈ gridLoop rows columns body ↔
      ∃ y < rows, ∃ x < columns, a ∈ body (UInt32.ofNat y) (UInt32.ofNat x) := by
  simp [gridLoop]

/-- The store is to a pixel of the 8-by-8 cell at the cursor, and the pixel is on the screen. -/
def InCell (t : Terminal) (s : PixelStore) : Prop :=
  ∃ x < 8, ∃ y < 8, (t.cursorX.toNat + x) % 2 ^ 32 < t.fbWidth.toNat ∧
    (t.cursorY.toNat + y) % 2 ^ 32 < t.fbHeight.toNat ∧
    s.index.toNat = (t.cursorY.toNat + y) % 2 ^ 32 * (t.fbPitch.toNat / 4) +
      (t.cursorX.toNat + x) % 2 ^ 32

theorem mem_drawBlock {t : Terminal} {y x : UInt32} {s : PixelStore} (h : s ∈ drawBlock t y x) :
    t.cursorX + x < t.fbWidth ∧ t.cursorY + y < t.fbHeight ∧
      s.index = (t.cursorY + y) * (t.fbPitch / 4) + (t.cursorX + x) := by
  obtain ⟨sy, hsy, sx, hsx, hs⟩ := mem_gridLoop.mp h
  -- at scale 1 a block is one pixel
  obtain rfl : sy = 0 := Nat.lt_one_iff.mp hsy
  obtain rfl : sx = 0 := Nat.lt_one_iff.mp hsx
  have hy : t.cursorY + y * scale + UInt32.ofNat 0 = t.cursorY + y := by simp [scale]
  have hx : t.cursorX + x * scale + UInt32.ofNat 0 = t.cursorX + x := by simp [scale]
  simp only [hy, hx] at hs
  split_ifs at hs with hon
  · rw [List.mem_singleton.mp hs]
    exact ⟨hon.1, hon.2, rfl⟩
  · exact absurd hs List.not_mem_nil

theorem toNat_offset (cursor : UInt32) {k : ℕ} (hk : k < 8) :
    (cursor + UInt32.ofNat k).toNat = (cursor.toNat + k) % 2 ^ 32 := by
  rw [UInt32.toNat_add, UInt32.toNat_ofNat', Nat.mod_eq_of_lt (show k < 2 ^ 32 by omega)]

theorem Terminal.Fits.inCell {t : Terminal} (h : t.Fits) {font : Font} {c : UInt8} {s : PixelStore}
    (hs : s ∈ drawGlyph font c t) : InCell t s ∧ s.index.toNat < t.pixelCount := by
  obtain ⟨y, hy, x, hx, hs⟩ := mem_gridLoop.mp hs
  split_ifs at hs
  · obtain ⟨hxon, hyon, hindex⟩ := mem_drawBlock hs
    obtain ⟨hnat, hlt⟩ := h.toNat_index hxon hyon
    rw [← hindex] at hnat
    rw [← hnat] at hlt
    rw [toNat_offset _ hy, toNat_offset _ hx] at hnat
    rw [UInt32.lt_iff_toNat_lt, toNat_offset _ hx] at hxon
    rw [UInt32.lt_iff_toNat_lt, toNat_offset _ hy] at hyon
    exact ⟨⟨x, hx, y, hy, hxon, hyon, hnat⟩, hlt⟩
  · exact absurd hs List.not_mem_nil

/-- Whatever branch it takes, `fb_putchar` stores nothing but pixels of the glyph. -/
theorem stores_fbPutchar (font : Font) (c : UInt8) (t : Terminal) :
    ∃ new, (fbPutchar font c t).stores = t.stores ++ new ∧
      ∀ s ∈ new, s ∈ drawGlyph font c t := by
  unfold fbPutchar
  dsimp only
  split_ifs
  · exact ⟨[], (List.append_nil _).symm, fun s hs => absurd hs List.not_mem_nil⟩
  · exact ⟨[], (List.append_nil _).symm, fun s hs => absurd hs List.not_mem_nil⟩
  · exact ⟨[], (List.append_nil _).symm, fun s hs => absurd hs List.not_mem_nil⟩
  · exact ⟨drawGlyph font c t, rfl, fun s hs => hs⟩
  · exact ⟨drawGlyph font c t, rfl, fun s hs => hs⟩

/-! ## Runs -/

/-- The terminal has the framebuffer that `display_init` was given, and has stored inside it since
the stores `old`. -/
structure Inside (pitch width height : UInt32) (old : List PixelStore) (t : Terminal) : Prop where
  pitch : t.fbPitch = pitch
  width : t.fbWidth = width
  height : t.fbHeight = height
  fits : t.Fits
  stores : ∀ s ∈ t.stores, s ∈ old ∨ s.index.toNat < t.pixelCount

variable {pitch width height : UInt32} {old : List PixelStore} {t : Terminal}

/-- The framebuffer itself is set by `display_init` only. -/
theorem screen_fbPutchar (font : Font) (c : UInt8) (t : Terminal) :
    (fbPutchar font c t).fbPtr = t.fbPtr ∧ (fbPutchar font c t).fbPitch = t.fbPitch ∧
      (fbPutchar font c t).fbWidth = t.fbWidth ∧ (fbPutchar font c t).fbHeight = t.fbHeight := by
  unfold fbPutchar
  dsimp only
  split_ifs
  · exact ⟨rfl, rfl, rfl, rfl⟩
  · exact ⟨rfl, rfl, rfl, rfl⟩
  · exact ⟨rfl, rfl, rfl, rfl⟩
  · exact ⟨rfl, rfl, rfl, rfl⟩
  · exact ⟨rfl, rfl, rfl, rfl⟩

/-- A step that keeps the screen and stores inside it. -/
theorem Inside.step {t' : Terminal} (h : Inside pitch width height old t)
    (hpitch : t'.fbPitch = t.fbPitch) (hwidth : t'.fbWidth = t.fbWidth)
    (hheight : t'.fbHeight = t.fbHeight) {new : List PixelStore}
    (hstores : t'.stores = t.stores ++ new) (hnew : ∀ s ∈ new, s.index.toNat < t.pixelCount) :
    Inside pitch width height old t' := by
  have hcount : t'.pixelCount = t.pixelCount := by
    rw [Terminal.pixelCount, Terminal.pixelCount, hpitch, hheight]
  refine ⟨hpitch.trans h.pitch, hwidth.trans h.width, hheight.trans h.height, ⟨?_, ?_⟩, ?_⟩
  · rw [hwidth, hpitch]
    exact h.fits.width
  · rw [hpitch, hheight]
    exact h.fits.size
  · intro s hs
    rw [hstores] at hs
    rw [hcount]
    exact (List.mem_append.mp hs).elim (h.stores s) fun hs => Or.inr (hnew s hs)

theorem Inside.fbPutchar (h : Inside pitch width height old t) (font : Font) (c : UInt8) :
    Inside pitch width height old (fbPutchar font c t) := by
  obtain ⟨-, hpitch, hwidth, hheight⟩ := screen_fbPutchar font c t
  obtain ⟨new, hstores, hnew⟩ := stores_fbPutchar font c t
  exact h.step hpitch hwidth hheight hstores fun s hs => (h.fits.inCell (hnew s hs)).2

theorem Inside.putchars (h : Inside pitch width height old t) (font : Font) (str : List UInt8) :
    Inside pitch width height old (putchars font str t) := by
  induction str generalizing t with
  | nil => exact h
  | cons c str ih => exact ih (h.fbPutchar font c)

theorem Inside.fbClear (h : Inside pitch width height old t) :
    Inside pitch width height old (fbClear t) := by
  apply @Inside.step pitch width height old t (Display.fbClear t) h rfl rfl rfl _ rfl
  intro s hs
  obtain ⟨y, hy, x, hx, hs⟩ := mem_gridLoop.mp hs
  have hpixel : ∀ {k : ℕ} {bound : UInt32}, k < bound.toNat → UInt32.ofNat k < bound := by
    intro k bound hk
    rw [UInt32.lt_iff_toNat_lt, UInt32.toNat_ofNat', Nat.mod_eq_of_lt (hk.trans bound.toNat_lt)]
    exact hk
  obtain ⟨hnat, hlt⟩ := h.fits.toNat_index (hpixel hx) (hpixel hy)
  rw [List.mem_singleton.mp hs, hnat]
  exact hlt

theorem inside_displayInit (hwidth : width.toNat ≤ pitch.toNat / 4)
    (hsize : pitch.toNat / 4 * height.toNat < 2 ^ 32) (addr : UInt64) (t : Terminal) :
    Inside pitch width height t.stores (displayInit addr pitch width height t).2 := by
  refine ⟨rfl, rfl, rfl, ⟨hwidth, hsize⟩, ?_⟩
  intro s hs
  apply (List.mem_append.mp hs).imp id
  intro hs
  obtain ⟨i, hi, rfl⟩ := List.mem_map.mp hs
  have hcount : (pitch / 4 * height).toNat = pitch.toNat / 4 * height.toNat := by
    rw [UInt32.toNat_mul, toNat_rowLength]
    exact Nat.mod_eq_of_lt hsize
  have hlt : i < pitch.toNat / 4 * height.toNat := hcount ▸ List.mem_range.mp hi
  change (UInt32.ofNat i).toNat < pitch.toNat / 4 * height.toNat
  rw [UInt32.toNat_ofNat', Nat.mod_eq_of_lt (hlt.trans hsize)]
  exact hlt

/-- Calls of the display functions. -/
inductive Call
  | putchar (c : UInt8)
  | print (str : List UInt8)
  | printDec (buffer : ℕ → UInt8) (val : UInt64)
  | printHex (val : UInt64)
  | clear

def Call.exec (font : Font) : Call → Terminal → Terminal
  | .putchar c => fbPutchar font c
  | .print str => fbPrint font str
  | .printDec buffer val => fbPrintDec font buffer val
  | .printHex val => fbPrintHex font val
  | .clear => fbClear

def runCalls (font : Font) (calls : List Call) (t : Terminal) : Terminal :=
  calls.foldl (fun t call => call.exec font t) t

theorem Inside.exec (h : Inside pitch width height old t) (font : Font) (call : Call) :
    Inside pitch width height old (call.exec font t) := by
  cases call with
  | putchar c => exact h.fbPutchar font c
  | print str =>
    rw [Call.exec, fbPrint_eq]
    exact h.putchars font _
  | printDec buffer val =>
    rw [Call.exec, fbPrintDec_eq]
    exact h.putchars font _
  | printHex val =>
    rw [Call.exec, fbPrintHex_eq]
    exact h.putchars font _
  | clear => exact h.fbClear

theorem Inside.runCalls (h : Inside pitch width height old t) (font : Font) (calls : List Call) :
    Inside pitch width height old (runCalls font calls t) := by
  induction calls generalizing t with
  | nil => exact h
  | cons call calls ih => exact ih (h.exec font call)

/-- After `display_init` every store of every run is inside the framebuffer, and a character changes
only pixels of the cell at the cursor. -/
theorem fb_stores_inside (font : Font) (hwidth : width.toNat ≤ pitch.toNat / 4)
    (hsize : pitch.toNat / 4 * height.toNat < 2 ^ 32) (addr : UInt64) (t₀ : Terminal)
    (calls : List Call) :
    (∀ s ∈ (runCalls font calls (displayInit addr pitch width height t₀).2).stores,
      s ∈ t₀.stores ∨ s.index.toNat < pitch.toNat / 4 * height.toNat) ∧
    ∀ c, ∃ new, (fbPutchar font c
        (runCalls font calls (displayInit addr pitch width height t₀).2)).stores =
          (runCalls font calls (displayInit addr pitch width height t₀).2).stores ++ new ∧
      ∀ s ∈ new, InCell (runCalls font calls (displayInit addr pitch width height t₀).2) s ∧
        s.index.toNat < pitch.toNat / 4 * height.toNat := by
  have h := (inside_displayInit hwidth hsize addr t₀).runCalls font calls
  have hcount : (runCalls font calls (displayInit addr pitch width height t₀).2).pixelCount =
      pitch.toNat / 4 * height.toNat := by
    rw [Terminal.pixelCount, h.pitch, h.height]
  constructor
  · intro s hs
    rw [← hcount]
    exact h.stores s hs
  · intro c
    obtain ⟨new, hstores, hnew⟩ := stores_fbPutchar font c
      (runCalls font calls (displayInit addr pitch width height t₀).2)
    refine ⟨new, hstores, ?_⟩
    intro s hs
    rw [← hcount]
    exact h.fits.inCell (hnew s hs)

/-- A framebuffer of 100 by 50 pixels whose rows are padded to 416 bytes. -/
theorem fb_stores_inside_padded :
    (416 : UInt32).toNat / 4 * (50 : UInt32).toNat = 5200 ∧
      ∀ s ∈ (runCalls (fun _ _ => 0xff)
          [.printDec (fun _ => 0) 1234567, .putchar tab, .print [72, 105, 10], .printHex 255]
          (displayInit 0xfd000000 416 100 50 Terminal.boot).2).stores,
        s ∈ Terminal.boot.stores ∨ s.index.toNat < 5200 :=
  ⟨rfl, (@fb_stores_inside 416 100 50 _ (by decide) (by decide) _ _ _).1⟩

end MathUnikernel.Display

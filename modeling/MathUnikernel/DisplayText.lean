import MathUnikernel.DisplaySafety

/-!
# Text on the screen

`fb_print` puts characters on a grid: eight pixels for a column, ten for a line.  A full line and a
newline begin the next one; nothing ever scrolls.
-/

namespace MathUnikernel.Display

/-- A terminal that `display_init` or `fb_clear` has just left. -/
inductive Fresh : Terminal → Prop
  | init (addr : UInt64) (pitch width height : UInt32) :
    Fresh (displayInit addr pitch width height Terminal.boot).2
  | clear (t : Terminal) : Fresh (fbClear t)

/-- The columns of a line. -/
def Terminal.columns (t : Terminal) : ℕ := t.fbWidth.toNat / 8

/-- Column and line after a character at column and line `p`. -/
def advance (columns : ℕ) (c : UInt8) (p : ℕ × ℕ) : ℕ × ℕ :=
  if c = newline then (0, p.2 + 1)
  else if p.1 + 1 < columns then (p.1 + 1, p.2)
  else (0, p.2 + 1)

/-- Column and line of the character after `str`. -/
def layout (columns : ℕ) (str : List UInt8) : ℕ × ℕ :=
  str.foldl (fun p c => advance columns c p) (0, 0)

/-- What the grid says of the next character `c`, when `pre` has been printed on `t`. -/
structure OnGrid (font : Font) (t : Terminal) (pre : List UInt8) (c : UInt8) : Prop where
  glyph : c.toNat < 128
  column : (fbPrint font pre t).cursorX.toNat = 8 * (layout t.columns pre).1
  width : (fbPrint font pre t).cursorX.toNat + 8 ≤ t.fbWidth.toNat
  line : (fbPrint font pre t).cursorY.toNat = 10 * (layout t.columns pre).2 % 2 ^ 32
  height : 10 * (layout t.columns pre).2 + 8 ≤ t.fbHeight.toNat →
    (fbPrint font pre t).cursorY.toNat + 8 ≤ t.fbHeight.toNat
  /-- The pixels of a cell that reaches over the lower edge are left out there. -/
  clipped : ∀ s ∈ drawGlyph font c (fbPrint font pre t), ∃ x y : UInt32,
    (fbPrint font pre t).cursorX + x < t.fbWidth ∧ (fbPrint font pre t).cursorY + y < t.fbHeight ∧
      s.index = ((fbPrint font pre t).cursorY + y) * (t.fbPitch / 4) +
        ((fbPrint font pre t).cursorX + x)

/-! ## The cursor on the grid -/

theorem Fresh.cursor {t : Terminal} (h : Fresh t) : t.cursorX = 0 ∧ t.cursorY = 0 := by
  cases h with
  | init addr pitch width height => exact ⟨rfl, rfl⟩
  | clear t => exact ⟨rfl, rfl⟩

/-- The cursor is at column and line `p`. -/
structure AtCell (t : Terminal) (p : ℕ × ℕ) : Prop where
  column : t.cursorX.toNat = 8 * p.1
  line : t.cursorY.toNat = 10 * p.2 % 2 ^ 32
  onLine : p.1 < t.columns

theorem toNat_nextLine {t : Terminal} {p : ℕ × ℕ} (h : AtCell t p) :
    (t.cursorY + 10 * scale).toNat = 10 * (p.2 + 1) % 2 ^ 32 := by
  rw [UInt32.toNat_add, h.line, show (10 * scale).toNat = 10 by decide]
  omega

/-- One character on the grid: the test of the width finds the last column of the line. -/
theorem AtCell.step {t : Terminal} {p : ℕ × ℕ} (h : AtCell t p) (hptr : t.fbPtr ≠ 0)
    (hwide : 8 ≤ t.fbWidth.toNat) (hwidth : t.fbWidth.toNat + 8 < 2 ^ 32) (font : Font) {c : UInt8}
    (hc : c ≠ tab) : AtCell (fbPutchar font c t) (advance t.columns c p) := by
  have hline := toNat_nextLine h
  have hcolumn := h.column
  have honLine := h.onLine
  unfold Terminal.columns at honLine
  have hstep : (t.cursorX + 8 * scale).toNat = 8 * (p.1 + 1) := by
    rw [UInt32.toNat_add, hcolumn, show (8 * scale).toNat = 8 by decide]
    omega
  -- the test asks whether one more glyph would still fit
  have htest : t.fbWidth < t.cursorX + 8 * scale + 8 * scale ↔ ¬p.1 + 1 < t.columns := by
    rw [UInt32.lt_iff_toNat_lt, UInt32.toNat_add, hstep, show (8 * scale).toNat = 8 by decide,
      Terminal.columns]
    omega
  have hfirst : 0 < t.columns := by
    unfold Terminal.columns
    omega
  unfold advance
  by_cases hnew : c = newline
  · rw [if_pos hnew, hnew, fbPutchar_newline font hptr]
    exact ⟨rfl, hline, hfirst⟩
  · rw [if_neg hnew, fbPutchar_glyph font hptr hnew hc]
    by_cases hlast : p.1 + 1 < t.columns
    · rw [if_pos hlast, if_neg (fun hlt => htest.mp hlt hlast)]
      exact ⟨hstep, h.line, hlast⟩
    · rw [if_neg hlast, if_pos (htest.mpr hlast)]
      exact ⟨rfl, hline, hfirst⟩

theorem AtCell.putchars {t : Terminal} {p : ℕ × ℕ} (h : AtCell t p) (hptr : t.fbPtr ≠ 0)
    (hwide : 8 ≤ t.fbWidth.toNat) (hwidth : t.fbWidth.toNat + 8 < 2 ^ 32) (font : Font)
    {str : List UInt8} (htab : ∀ c ∈ str, c ≠ tab) :
    AtCell (putchars font str t) (str.foldl (fun p c => advance t.columns c p) p) := by
  induction str generalizing t p with
  | nil => exact h
  | cons c str ih =>
    obtain ⟨hptr', -, hwidth', -⟩ := screen_fbPutchar font c t
    have hstep := h.step hptr hwide hwidth font (htab c List.mem_cons_self)
    have hcolumns : (fbPutchar font c t).columns = t.columns :=
      congrArg (fun w : UInt32 => w.toNat / 8) hwidth'
    have hrest := ih hstep (by rwa [hptr']) (by rwa [hwidth']) (by rwa [hwidth'])
      fun c' hc' => htab c' (List.mem_cons_of_mem c hc')
    rw [hcolumns] at hrest
    exact hrest

theorem screen_putchars (font : Font) (str : List UInt8) (t : Terminal) :
    (putchars font str t).fbPtr = t.fbPtr ∧ (putchars font str t).fbPitch = t.fbPitch ∧
      (putchars font str t).fbWidth = t.fbWidth ∧
      (putchars font str t).fbHeight = t.fbHeight := by
  induction str generalizing t with
  | nil => exact ⟨rfl, rfl, rfl, rfl⟩
  | cons c str ih =>
    obtain ⟨hptr, hpitch, hwidth, hheight⟩ := screen_fbPutchar font c t
    obtain ⟨hptr', hpitch', hwidth', hheight'⟩ := ih (fbPutchar font c t)
    exact ⟨hptr'.trans hptr, hpitch'.trans hpitch, hwidth'.trans hwidth, hheight'.trans hheight⟩

theorem fbPrint_of_ne_zero (font : Font) {str : List UInt8} (h : ∀ c ∈ str, c ≠ 0) (t : Terminal) :
    fbPrint font str t = putchars font str t := by
  have hall : str.takeWhile (· ≠ 0) = str := by
    apply List.takeWhile_eq_self_iff.mpr
    intro c hc
    exact decide_eq_true (h c hc)
  rw [fbPrint_eq, hall]

/-- Every character of a string below 128 without tabs is drawn on the grid: inside the width, and
inside the height as long as there are lines. -/
theorem text_on_grid (font : Font) {t : Terminal} (hfresh : Fresh t) (hptr : t.fbPtr ≠ 0)
    (hwide : 8 ≤ t.fbWidth.toNat) (hwidth : t.fbWidth.toNat + 8 < 2 ^ 32) {str : List UInt8}
    (hstr : ∀ c ∈ str, c ≠ 0 ∧ c ≠ tab ∧ c.toNat < 128) :
    ∀ pre c post, str = pre ++ c :: post → c ≠ newline → OnGrid font t pre c := by
  intro pre c post hsplit _
  have hpre : ∀ c' ∈ pre, c' ≠ 0 ∧ c' ≠ tab ∧ c'.toNat < 128 := by
    intro c' hc'
    apply hstr
    rw [hsplit]
    exact List.mem_append_left _ hc'
  have hprint := fbPrint_of_ne_zero font (fun c' hc' => (hpre c' hc').1) t
  have hstart : AtCell t (0, 0) := by
    refine ⟨by rw [hfresh.cursor.1]; rfl, by rw [hfresh.cursor.2]; rfl, ?_⟩
    unfold Terminal.columns
    omega
  have hcell := hstart.putchars hptr hwide hwidth font fun c' hc' => (hpre c' hc').2.1
  obtain ⟨-, hpitch', hwidth', hheight'⟩ := screen_putchars font pre t
  rw [← hprint] at hcell hpitch' hwidth' hheight'
  have hcolumn : (fbPrint font pre t).cursorX.toNat = 8 * (layout t.columns pre).1 := hcell.column
  have hline : (fbPrint font pre t).cursorY.toNat = 10 * (layout t.columns pre).2 % 2 ^ 32 :=
    hcell.line
  have honLine : (layout t.columns pre).1 < t.columns :=
    hcell.onLine.trans_eq (congrArg (fun w : UInt32 => w.toNat / 8) hwidth')
  have hcolumns : 8 * t.columns ≤ t.fbWidth.toNat := Nat.mul_div_le _ 8
  refine ⟨?_, hcolumn, ?_, hline, ?_, ?_⟩
  · exact (hstr c (by rw [hsplit]; exact List.mem_append_right _ List.mem_cons_self)).2.2
  · omega
  · intro hfits
    exact (Nat.add_le_add_right (hline.le.trans (Nat.mod_le _ _)) 8).trans hfits
  · intro s hs
    obtain ⟨y, -, x, -, hs⟩ := mem_gridLoop.mp hs
    split_ifs at hs
    · rw [← hpitch', ← hwidth', ← hheight']
      exact ⟨_, _, mem_drawBlock hs⟩
    · exact absurd hs List.not_mem_nil

/-- A framebuffer of 64 by 30 pixels. -/
def smallScreen : Terminal := (displayInit 0xfd000000 256 64 30 Terminal.boot).2

theorem text_on_grid_small : OnGrid (fun _ _ => 0xff) smallScreen [79, 107, newline] 33 := by
  have hstr : ∀ c ∈ [79, 107, newline, 33], c ≠ 0 ∧ c ≠ tab ∧ c.toNat < 128 := by
    simp [newline, tab]
  exact text_on_grid _ (.init 0xfd000000 256 64 30) (by decide) (by decide) (by decide) hstr
    [79, 107, newline] 33 [] rfl (by decide)

/-! ## Text that leaves the screen -/

/-- Every character of the string other than newlines and tabs is drawn with a glyph of the table
and inside the screen. -/
def Visible (font : Font) (t : Terminal) (str : List UInt8) : Prop :=
  ∀ pre c post, str = pre ++ c :: post → c ≠ newline → c ≠ tab →
    c.toNat < 128 ∧ (fbPrint font pre t).cursorX.toNat + 8 ≤ t.fbWidth.toNat ∧
      (fbPrint font pre t).cursorY.toNat + 8 ≤ t.fbHeight.toNat

/-- On a framebuffer that is too wide for the test of the width the last column is never found. -/
theorem cursorX_of_wide (font : Font) {t : Terminal} (hptr : t.fbPtr ≠ 0)
    (hstart : t.cursorX.toNat = 0) (hwide : 2 ^ 32 ≤ t.fbWidth.toNat + 8) {c : UInt8}
    (hnew : c ≠ newline) (htab : c ≠ tab) {k : ℕ} (hk : k < 2 ^ 29) :
    (putchars font (List.replicate k c) t).cursorX.toNat = 8 * k := by
  induction k with
  | zero => exact hstart
  | succ k ih =>
    obtain ⟨hptr', -, hwidth', -⟩ := screen_putchars font (List.replicate k c) t
    have hcursor := ih (by omega)
    rw [List.replicate_succ', putchars_append]
    generalize putchars font (List.replicate k c) t = t' at hptr' hwidth' hcursor
    have hcolumn : (t'.cursorX + 8 * scale).toNat = 8 * (k + 1) := by
      rw [UInt32.toNat_add, hcursor, show (8 * scale).toNat = 8 by decide]
      omega
    -- behind the last column but one the sum is `2 ^ 32`, which wraps to 0
    have htest : ¬t'.fbWidth < t'.cursorX + 8 * scale + 8 * scale := by
      rw [UInt32.lt_iff_toNat_lt, UInt32.toNat_add, hcolumn, hwidth',
        show (8 * scale).toNat = 8 by decide]
      omega
    change (fbPutchar font c t').cursorX.toNat = _
    rw [fbPutchar_glyph font (by rwa [hptr']) hnew htab, if_neg htest]
    exact hcolumn

theorem not_visible_of_wide (font : Font) {t : Terminal} (hptr : t.fbPtr ≠ 0)
    (hstart : t.cursorX.toNat = 0) (hwide : 2 ^ 32 ≤ t.fbWidth.toNat + 8) :
    ¬Visible font t (List.replicate (2 ^ 29) 65) := by
  intro h
  have hsplit : List.replicate (2 ^ 29) (65 : UInt8) = List.replicate (2 ^ 29 - 1) 65 ++ [65] := by
    rw [← List.replicate_succ', Nat.sub_add_cancel (by decide)]
  have hlast := (h _ 65 [] hsplit (by decide) (by decide)).2.1
  have hglyphs : ∀ c ∈ List.replicate (2 ^ 29 - 1) (65 : UInt8), c ≠ 0 := by
    intro c hc
    rw [List.eq_of_mem_replicate hc]
    decide
  rw [fbPrint_of_ne_zero font hglyphs,
    cursorX_of_wide font hptr hstart hwide (by decide) (by decide) (by omega)] at hlast
  have hlt := t.fbWidth.toNat_lt
  omega

/-- A second line on a screen with one, a tab at the end of a line, a character from 128 on, and a
line so long that the sum in the test of the width overflows. -/
theorem text_leaves_screen :
    ¬Visible (fun _ _ => 0xff) (displayInit 0xfd000000 32 8 8 Terminal.boot).2 [newline, 65] ∧
    ¬Visible (fun _ _ => 0xff) (displayInit 0xfd000000 32 8 8 Terminal.boot).2 [tab, 65] ∧
    ¬Visible (fun _ _ => 0xff) (displayInit 0xfd000000 32 8 8 Terminal.boot).2 [0xe9] ∧
    ¬Visible (fun _ _ => 0xff) (displayInit 0xfd000000 32 0xfffffff8 8 Terminal.boot).2
      (List.replicate (2 ^ 29) 65) := by
  refine ⟨?_, ?_, ?_, ?_⟩
  · intro h
    exact absurd (h [newline] 65 [] rfl (by decide) (by decide)).2.2 (by decide)
  · intro h
    exact absurd (h [tab] 65 [] rfl (by decide) (by decide)).2.1 (by decide)
  · intro h
    exact absurd (h [] 0xe9 [] rfl (by decide) (by decide)).1 (by decide)
  · exact not_visible_of_wide _ (by decide) rfl (by decide)

end MathUnikernel.Display

import Mathlib

/-!
# The framebuffer terminal

The functions of `display.c`.  Coordinates, cursor and indices are `uint32_t`.  The stores through
`fb_ptr` are recorded in order.
-/

namespace MathUnikernel.Display

def displayInitSuccess : UInt8 := (1 : UInt8) <<< 6

/-- `SCALE`. -/
def scale : UInt32 := 1

def newline : UInt8 := 10
def tab : UInt8 := 9

/-- `fb_ptr[index] = color`. -/
structure PixelStore where
  index : UInt32
  color : UInt32
  deriving DecidableEq

/-- The terminal state, with the stores so far. -/
structure Terminal where
  fbPtr : UInt64
  fbPitch : UInt32
  fbWidth : UInt32
  fbHeight : UInt32
  cursorX : UInt32
  cursorY : UInt32
  stores : List PixelStore

/-- The initial values of the static variables. -/
def Terminal.boot : Terminal := ⟨0, 0, 0, 0, 0, 0, []⟩

def Terminal.store (t : Terminal) (stores : List PixelStore) : Terminal :=
  { t with stores := t.stores ++ stores }

def displayInit (addr : UInt64) (pitch width height : UInt32) (t : Terminal) : UInt8 × Terminal :=
  let t := { t with fbPtr := addr, fbPitch := pitch, fbWidth := width, fbHeight := height }
  (displayInitSuccess, t.store ((List.range (pitch / 4 * height).toNat).map fun i =>
    ⟨UInt32.ofNat i, 0x111111⟩))

/-- Two nested loops over `y` and `x`, with what each round appends. -/
def gridLoop {α : Type*} (rows columns : ℕ) (body : UInt32 → UInt32 → List α) : List α :=
  (List.range rows).flatMap fun y => (List.range columns).flatMap fun x =>
    body (UInt32.ofNat y) (UInt32.ofNat x)

/-- The table of glyphs in memory: byte `y` of row `c`.  `font8x8_basic` has 128 rows; a row from
128 on is whatever lies behind the table. -/
abbrev Font := UInt8 → UInt32 → UInt8

section Characters
variable (font : Font)

/-- The two inner loops of `fb_putchar`: the block of pixels for one bit of the glyph. -/
def drawBlock (t : Terminal) (y x : UInt32) : List PixelStore :=
  gridLoop scale.toNat scale.toNat fun sy sx =>
    let drawY := t.cursorY + y * scale + sy
    let drawX := t.cursorX + x * scale + sx
    if drawX < t.fbWidth ∧ drawY < t.fbHeight then
      [⟨drawY * (t.fbPitch / 4) + drawX, 0xFFFFFF⟩]
    else []

/-- The loops over the bits of the glyph. -/
def drawGlyph (c : UInt8) (t : Terminal) : List PixelStore :=
  gridLoop 8 8 fun y x =>
    if (font c y >>> x.toUInt8) &&& 1 ≠ 0 then drawBlock t y x else []

def fbPutchar (c : UInt8) (t : Terminal) : Terminal :=
  let fontWidth := 8 * scale
  let lineHeight := 10 * scale
  -- before `display_init`
  if t.fbPtr = 0 then t
  else if c = newline then { t with cursorX := 0, cursorY := t.cursorY + lineHeight }
  else if c = tab then { t with cursorX := t.cursorX + fontWidth * 4 }
  else
    let t := t.store (drawGlyph font c t)
    let t := { t with cursorX := t.cursorX + fontWidth }
    if t.fbWidth < t.cursorX + fontWidth then
      { t with cursorX := 0, cursorY := t.cursorY + lineHeight }
    else t

/-- The characters of the string up to its `'\0'`. -/
def fbPrint : List UInt8 → Terminal → Terminal
  | [], t => t
  | c :: str, t => if c = 0 then t else fbPrint str (fbPutchar font c t)

/-- `"0123456789ABCDEF"`. -/
def hexChars : List UInt8 :=
  [0x30, 0x31, 0x32, 0x33, 0x34, 0x35, 0x36, 0x37, 0x38, 0x39, 0x41, 0x42, 0x43, 0x44, 0x45, 0x46]

/-- The nibble of the round `i` of `fb_print_hex`. -/
def nibble (val : UInt64) (i : ℕ) : UInt8 := ((val >>> UInt64.ofNat (i * 4)) &&& 0xf).toUInt8

def fbPrintHex (val : UInt64) (t : Terminal) : Terminal :=
  (List.range 16).reverse.foldl
    (fun t i => fbPutchar font (hexChars.getD (nibble val i).toNat 0) t)
    (fbPrint font [0x30, 0x78] t)

/-- The first `while` of `fb_print_dec`: `i` and the buffer when it ends. -/
def fillDigits (val : UInt64) (i : ℕ) (buffer : ℕ → UInt8) : ℕ × (ℕ → UInt8) :=
  if 0 < val then
    fillDigits (val / 10) (i + 1) (Function.update buffer i (val % 10 + 48).toUInt8)
  else (i, buffer)
termination_by val.toNat
decreasing_by
  rename_i hpos
  have hpos' : 0 < val.toNat := UInt64.lt_iff_toNat_lt.mp hpos
  rw [UInt64.toNat_div]
  exact Nat.div_lt_self hpos' (by decide)

/-- The second `while`. -/
def replay (buffer : ℕ → UInt8) : ℕ → Terminal → Terminal
  | 0, t => t
  | i + 1, t => replay buffer i (fbPutchar font (buffer i) t)

/-- `buffer` is not initialised. -/
def fbPrintDec (buffer : ℕ → UInt8) (val : UInt64) (t : Terminal) : Terminal :=
  if val = 0 then fbPutchar font 48 t
  else
    let filled := fillDigits val 0 buffer
    replay font filled.2 filled.1 t

end Characters

def fbClear (t : Terminal) : Terminal :=
  let t := t.store (gridLoop t.fbHeight.toNat t.fbWidth.toNat fun y x =>
    [⟨y * (t.fbPitch / 4) + x, 0x00000000⟩])
  { t with cursorX := 0, cursorY := 0 }

theorem fbPutchar_newline (font : Font) {t : Terminal} (h : t.fbPtr ≠ 0) :
    fbPutchar font newline t = { t with cursorX := 0, cursorY := t.cursorY + 10 * scale } := by
  unfold fbPutchar
  rw [if_neg h, if_pos rfl]

theorem fbPutchar_glyph (font : Font) {c : UInt8} {t : Terminal} (h : t.fbPtr ≠ 0)
    (hnew : c ≠ newline) (htab : c ≠ tab) : fbPutchar font c t =
      if t.fbWidth < t.cursorX + 8 * scale + 8 * scale then
        { t.store (drawGlyph font c t) with cursorX := 0, cursorY := t.cursorY + 10 * scale }
      else { t.store (drawGlyph font c t) with cursorX := t.cursorX + 8 * scale } := by
  unfold fbPutchar
  rw [if_neg h, if_neg hnew, if_neg htab]
  rfl

/-! ## Strings of characters -/

/-- Calls of `fb_putchar`, one for each character. -/
def putchars (font : Font) (str : List UInt8) (t : Terminal) : Terminal :=
  str.foldl (fun t c => fbPutchar font c t) t

theorem putchars_append (font : Font) (str str' : List UInt8) (t : Terminal) :
    putchars font (str ++ str') t = putchars font str' (putchars font str t) :=
  List.foldl_append

theorem fbPrint_eq (font : Font) (str : List UInt8) (t : Terminal) :
    fbPrint font str t = putchars font (str.takeWhile (· ≠ 0)) t := by
  induction str generalizing t with
  | nil => rfl
  | cons c str ih =>
    rw [fbPrint, List.takeWhile_cons]
    by_cases hzero : c = 0
    · rw [if_pos hzero, hzero]
      rfl
    · rw [if_neg hzero, ih, if_pos (decide_eq_true hzero)]
      rfl

theorem replay_eq (font : Font) (buffer : ℕ → UInt8) (n : ℕ) (t : Terminal) :
    replay font buffer n t = putchars font ((List.range n).map buffer).reverse t := by
  induction n generalizing t with
  | zero => rfl
  | succ n ih =>
    rw [replay, ih, List.range_succ, List.map_append, List.reverse_append]
    rfl

end MathUnikernel.Display

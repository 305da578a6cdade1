import MiraOS.Drivers.Keyboard
import MiraOS.Drivers.Pictures

/-! The text of ui/layout/text.c: which pixels it draws, in order. -/

namespace MiraOS

open Machine

/-- A glyph: its size, and its rows of bits. -/
structure FontGlyph where
  width : UInt32
  height : UInt32
  data : Option (Nat → UInt8)

/-- A font, with glyphs for the characters from the blank on. -/
structure Font where
  name : String
  defaultWidth : UInt32
  defaultHeight : UInt32
  glyphs : Fin 96 → FontGlyph

/-- The static variables of the text functions. -/
structure TextStatics where
  currentFont : Option Font
  currentFontWidth : UInt32
  currentFontHeight : UInt32

/-- Before a font is set there is none. -/
def textStart : TextStatics := ⟨none, 8, 16⟩

/-- The rows of the default font; what is missing of a glyph is blank. -/
def defaultFontData : List (List UInt8) := [
  [0, 0, 0, 0, 0, 0, 0, 0, 0, 0, 0, 0, 0, 0, 0, 0],
  [0, 0, 0x18, 0x3C, 0x3C, 0x3C, 0x18, 0x18, 0x18, 0, 0x18, 0x18, 0, 0, 0, 0],
  [0, 0x66, 0x66, 0x66, 0x24, 0, 0, 0, 0, 0, 0, 0, 0, 0, 0, 0],
  [0, 0x36, 0x36, 0x7F, 0x36, 0x36, 0x36, 0x7F, 0x36, 0x36, 0, 0, 0, 0, 0],
  [0x0C, 0x3E, 0x63, 0x60, 0x3C, 0x06, 0x03, 0x63, 0x3E, 0x0C, 0, 0, 0, 0, 0],
  [0, 0x63, 0x63, 0x36, 0x1C, 0x08, 0x1C, 0x36, 0x63, 0x63, 0, 0, 0, 0, 0],
  [0, 0x1C, 0x36, 0x36, 0x1C, 0x3B, 0x66, 0x66, 0x3B, 0x06, 0x03, 0, 0, 0, 0],
  [0, 0x06, 0x06, 0x04, 0, 0, 0, 0, 0, 0, 0, 0, 0, 0, 0, 0],
  [0, 0x18, 0x0C, 0x06, 0x06, 0x06, 0x06, 0x06, 0x06, 0x0C, 0x18, 0, 0, 0, 0],
  [0, 0x06, 0x0C, 0x18, 0x18, 0x18, 0x18, 0x18, 0x18, 0x0C, 0x06, 0, 0, 0, 0],
  [0, 0, 0x66, 0x3C, 0xFF, 0x3C, 0x66, 0, 0, 0, 0, 0, 0, 0, 0, 0],
  [0, 0, 0x0C, 0x0C, 0x3F, 0x0C, 0x0C, 0, 0, 0, 0, 0, 0, 0, 0, 0],
  [0, 0, 0, 0, 0, 0, 0, 0, 0, 0x06, 0x06, 0x0C, 0, 0, 0, 0],
  [0, 0, 0, 0, 0x3F, 0, 0, 0, 0, 0, 0, 0, 0, 0, 0, 0],
  [0, 0, 0, 0, 0, 0, 0, 0, 0, 0, 0x06, 0, 0, 0, 0, 0],
  [0, 0x60, 0x60, 0x30, 0x18, 0x0C, 0x06, 0x03, 0, 0, 0, 0, 0, 0, 0, 0],
  [0, 0x3C, 0x66, 0x63, 0x6B, 0x6B, 0x63, 0x66, 0x3C, 0, 0, 0, 0, 0, 0, 0],
  [0, 0x0C, 0x1C, 0x0C, 0x0C, 0x0C, 0x0C, 0x0C, 0x3F, 0, 0, 0, 0, 0, 0, 0],
  [0, 0x3C, 0x66, 0x06, 0x0C, 0x18, 0x30, 0x60, 0x7E, 0, 0, 0, 0, 0, 0, 0],
  [0x3C, 0x66, 0x06, 0x06, 0x1C, 0x06, 0x06, 0x66, 0x3C, 0, 0, 0, 0, 0, 0, 0],
  [0x0C, 0x1C, 0x2C, 0x6C, 0xCC, 0xFE, 0x0C, 0x0C, 0x1F, 0, 0, 0, 0, 0, 0, 0],
  [0x7E, 0x60, 0x60, 0x7C, 0x06, 0x06, 0x06, 0x66, 0x3C, 0, 0, 0, 0, 0, 0, 0],
  [0x1C, 0x30, 0x60, 0x7C, 0x66, 0x66, 0x66, 0x66, 0x3C, 0, 0, 0, 0, 0, 0, 0],
  [0x7E, 0x06, 0x06, 0x0C, 0x18, 0x30, 0x30, 0x30, 0x30, 0, 0, 0, 0, 0, 0, 0],
  [0x3C, 0x66, 0x66, 0x66, 0x3C, 0x66, 0x66, 0x66, 0x3C, 0, 0, 0, 0, 0, 0, 0],
  [0x3C, 0x66, 0x66, 0x66, 0x3E, 0x06, 0x06, 0x0C, 0x38, 0, 0, 0, 0, 0, 0, 0],
  [0, 0x06, 0x06, 0, 0x06, 0x06, 0, 0, 0, 0, 0, 0, 0, 0, 0, 0],
  [0, 0x06, 0x06, 0, 0x06, 0x06, 0x06, 0x06, 0x0C, 0, 0, 0, 0, 0, 0, 0],
  [0, 0x18, 0x0C, 0x06, 0x03, 0x06, 0x0C, 0x18, 0, 0, 0, 0, 0, 0, 0, 0],
  [0, 0, 0x3F, 0, 0x3F, 0, 0, 0, 0, 0, 0, 0, 0, 0, 0, 0],
  [0, 0x06, 0x0C, 0x18, 0x30, 0x18, 0x0C, 0x06, 0, 0, 0, 0, 0, 0, 0, 0],
  [0x3C, 0x66, 0x06, 0x0C, 0x18, 0x18, 0, 0x18, 0x18, 0, 0, 0, 0, 0, 0, 0],
  [0x3C, 0x66, 0x6E, 0x6A, 0x6E, 0x60, 0x62, 0x66, 0x3C, 0, 0, 0, 0, 0, 0, 0],
  [0x18, 0x3C, 0x66, 0x66, 0x7E, 0x66, 0x66, 0x66, 0x66, 0, 0, 0, 0, 0, 0, 0],
  [0x7C, 0x66, 0x66, 0x7C, 0x66, 0x66, 0x66, 0x66, 0x7C, 0, 0, 0, 0, 0, 0, 0],
  [0x3C, 0x66, 0x60, 0x60, 0x60, 0x60, 0x60, 0x66, 0x3C, 0, 0, 0, 0, 0, 0, 0],
  [0x78, 0x6C, 0x66, 0x66, 0x66, 0x66, 0x66, 0x6C, 0x78, 0, 0, 0, 0, 0, 0, 0],
  [0x7E, 0x60, 0x60, 0x7C, 0x60, 0x60, 0x60, 0x60, 0x7E, 0, 0, 0, 0, 0, 0, 0],
  [0x7E, 0x60, 0x60, 0x7C, 0x60, 0x60, 0x60, 0x60, 0x60, 0, 0, 0, 0, 0, 0, 0],
  [0x3C, 0x66, 0x60, 0x60, 0x6E, 0x66, 0x66, 0x66, 0x3C, 0, 0, 0, 0, 0, 0, 0],
  [0x66, 0x66, 0x66, 0x7E, 0x66, 0x66, 0x66, 0x66, 0x66, 0, 0, 0, 0, 0, 0, 0],
  [0x3C, 0x18, 0x18, 0x18, 0x18, 0x18, 0x18, 0x18, 0x3C, 0, 0, 0, 0, 0, 0, 0],
  [0x1E, 0x0C, 0x0C, 0x0C, 0x0C, 0x0C, 0xCC, 0xCC, 0x78, 0, 0, 0, 0, 0, 0, 0],
  [0x66, 0x66, 0x6C, 0x78, 0x78, 0x6C, 0x66, 0x66, 0x66, 0, 0, 0, 0, 0, 0, 0],
  [0x60, 0x60, 0x60, 0x60, 0x60, 0x60, 0x60, 0x60, 0x7E, 0, 0, 0, 0, 0, 0, 0],
  [0x63, 0x77, 0x7F, 0x6B, 0x63, 0x63, 0x63, 0x63, 0x63, 0, 0, 0, 0, 0, 0, 0],
  [0x66, 0x76, 0x7E, 0x7E, 0x6E, 0x66, 0x66, 0x66, 0x66, 0, 0, 0, 0, 0, 0, 0],
  [0x3C, 0x66, 0x66, 0x66, 0x66, 0x66, 0x66, 0x66, 0x3C, 0, 0, 0, 0, 0, 0, 0],
  [0x7C, 0x66, 0x66, 0x66, 0x7C, 0x60, 0x60, 0x60, 0x60, 0, 0, 0, 0, 0, 0, 0],
  [0x3C, 0x66, 0x66, 0x66, 0x66, 0x66, 0x6A, 0x6C, 0x36, 0, 0, 0, 0, 0, 0, 0],
  [0x7C, 0x66, 0x66, 0x66, 0x7C, 0x6C, 0x66, 0x66, 0x66, 0, 0, 0, 0, 0, 0, 0],
  [0x3C, 0x66, 0x60, 0x30, 0x1C, 0x06, 0x06, 0x66, 0x3C, 0, 0, 0, 0, 0, 0, 0],
  [0x7E, 0x18, 0x18, 0x18, 0x18, 0x18, 0x18, 0x18, 0x18, 0, 0, 0, 0, 0, 0, 0],
  [0x66, 0x66, 0x66, 0x66, 0x66, 0x66, 0x66, 0x66, 0x3C, 0, 0, 0, 0, 0, 0, 0],
  [0x66, 0x66, 0x66, 0x66, 0x66, 0x66, 0x66, 0x3C, 0x18, 0, 0, 0, 0, 0, 0, 0],
  [0x63, 0x63, 0x63, 0x6B, 0x6B, 0x7F, 0x77, 0x63, 0x63, 0, 0, 0, 0, 0, 0, 0],
  [0x66, 0x66, 0x3C, 0x18, 0x18, 0x3C, 0x66, 0x66, 0x66, 0, 0, 0, 0, 0, 0, 0],
  [0x66, 0x66, 0x66, 0x3C, 0x18, 0x18, 0x18, 0x18, 0x18, 0, 0, 0, 0, 0, 0, 0],
  [0x7E, 0x06, 0x0C, 0x18, 0x30, 0x60, 0x60, 0x60, 0x7E, 0, 0, 0, 0, 0, 0, 0],
  [0x3C, 0x0C, 0x0C, 0x0C, 0x0C, 0x0C, 0x0C, 0x0C, 0x3C, 0, 0, 0, 0, 0, 0, 0],
  [0x60, 0x60, 0x30, 0x18, 0x0C, 0x06, 0x03, 0, 0, 0, 0, 0, 0, 0, 0, 0],
  [0x3C, 0x0C, 0x0C, 0x0C, 0x0C, 0x0C, 0x0C, 0x0C, 0x3C, 0, 0, 0, 0, 0, 0, 0],
  [0x10, 0x38, 0x6C, 0xC6, 0, 0, 0, 0, 0, 0, 0, 0, 0, 0, 0, 0],
  [0, 0, 0, 0, 0, 0, 0, 0, 0, 0, 0, 0, 0, 0xFF, 0, 0],
  [0x30, 0x18, 0x0C, 0, 0, 0, 0, 0, 0, 0, 0, 0, 0, 0, 0, 0],
  [0, 0, 0, 0x3C, 0x06, 0x3E, 0x66, 0x3E, 0, 0, 0, 0, 0, 0, 0, 0],
  [0x60, 0x60, 0x7C, 0x66, 0x66, 0x66, 0x66, 0x7C, 0x60, 0x60, 0, 0, 0, 0, 0],
  [0, 0, 0x3C, 0x66, 0x60, 0x60, 0x66, 0x3C, 0, 0, 0, 0, 0, 0, 0, 0],
  [0x06, 0x06, 0x3E, 0x66, 0x66, 0x66, 0x66, 0x3E, 0x06, 0x06, 0, 0, 0, 0, 0],
  [0, 0, 0x3C, 0x66, 0x7E, 0x60, 0x66, 0x3C, 0, 0, 0, 0, 0, 0, 0, 0],
  [0x1C, 0x30, 0x30, 0x7C, 0x30, 0x30, 0x30, 0x30, 0, 0, 0, 0, 0, 0, 0, 0],
  [0, 0, 0x3E, 0x66, 0x66, 0x3E, 0x06, 0x66, 0x3C, 0, 0, 0, 0, 0, 0, 0],
  [0x60, 0x60, 0x7C, 0x66, 0x66, 0x66, 0x66, 0x66, 0, 0, 0, 0, 0, 0, 0, 0],
  [0x18, 0, 0x38, 0x18, 0x18, 0x18, 0x18, 0x3C, 0, 0, 0, 0, 0, 0, 0, 0],
  [0x0C, 0, 0x1C, 0x0C, 0x0C, 0x0C, 0xCC, 0xCC, 0x78, 0, 0, 0, 0, 0, 0, 0],
  [0x60, 0x60, 0x66, 0x6C, 0x78, 0x78, 0x6C, 0x66, 0, 0, 0, 0, 0, 0, 0, 0],
  [0x38, 0x18, 0x18, 0x18, 0x18, 0x18, 0x18, 0x3C, 0, 0, 0, 0, 0, 0, 0, 0],
  [0, 0, 0x76, 0x7F, 0x6B, 0x6B, 0x63, 0x63, 0, 0, 0, 0, 0, 0, 0, 0],
  [0, 0, 0x7C, 0x66, 0x66, 0x66, 0x66, 0x66, 0, 0, 0, 0, 0, 0, 0, 0],
  [0, 0, 0x3C, 0x66, 0x66, 0x66, 0x66, 0x3C, 0, 0, 0, 0, 0, 0, 0, 0],
  [0, 0, 0x7C, 0x66, 0x66, 0x7C, 0x60, 0x60, 0, 0, 0, 0, 0, 0, 0, 0],
  [0, 0, 0x3E, 0x66, 0x66, 0x66, 0x3E, 0x06, 0x06, 0, 0, 0, 0, 0, 0, 0],
  [0, 0, 0x6E, 0x76, 0x60, 0x60, 0x60, 0, 0, 0, 0, 0, 0, 0, 0, 0],
  [0, 0, 0x3E, 0x60, 0x3C, 0x06, 0x7C, 0, 0, 0, 0, 0, 0, 0, 0, 0],
  [0x30, 0x30, 0x7C, 0x30, 0x30, 0x30, 0x1C, 0, 0, 0, 0, 0, 0, 0, 0, 0],
  [0, 0, 0x66, 0x66, 0x66, 0x66, 0x3E, 0x06, 0x3C, 0, 0, 0, 0, 0, 0, 0],
  [0, 0, 0x66, 0x66, 0x66, 0x66, 0x3C, 0x18, 0x18, 0, 0, 0, 0, 0, 0, 0],
  [0, 0, 0x63, 0x6B, 0x6B, 0x7F, 0x36, 0, 0, 0, 0, 0, 0, 0, 0, 0],
  [0, 0, 0x66, 0x3C, 0x18, 0x3C, 0x66, 0, 0, 0, 0, 0, 0, 0, 0, 0],
  [0, 0, 0x66, 0x66, 0x66, 0x3E, 0x06, 0x66, 0x3C, 0, 0, 0, 0, 0, 0, 0],
  [0, 0, 0x7E, 0x0C, 0x18, 0x30, 0x7E, 0, 0, 0, 0, 0, 0, 0, 0, 0],
  [0x0E, 0x18, 0x18, 0x70, 0x18, 0x18, 0x18, 0x0E, 0, 0, 0, 0, 0, 0, 0, 0],
  [0x18, 0x18, 0x18, 0, 0x18, 0x18, 0x18, 0, 0, 0, 0, 0, 0, 0, 0, 0],
  [0x70, 0x18, 0x18, 0x0E, 0x18, 0x18, 0x18, 0x70, 0, 0, 0, 0, 0, 0, 0, 0],
  [0x6C, 0x92, 0, 0, 0, 0, 0, 0, 0, 0, 0, 0, 0, 0, 0, 0]]

/-- A row of a glyph of the default font. -/
def defaultFontRow (glyph row : Nat) : UInt8 := ((defaultFontData[glyph]?.getD [])[row]?).getD 0

/-- The default font. -/
def defaultFont : Font := ⟨"default", 8, 16, fun i => ⟨8, 16, some (defaultFontRow i)⟩⟩

/-- Use a font, if there is one. -/
def textSetFont (text : TextStatics) : Option Font → TextStatics
  | some font => ⟨some font, font.defaultWidth, font.defaultHeight⟩
  | none => text

/-- The font in use. -/
def textGetFont (text : TextStatics) : Option Font := text.currentFont

/-- Prepare the default font and use it. -/
def textInit (text : TextStatics) : TextStatics := textSetFont text (some defaultFont)

/-- The square of a bit, in one color. -/
def glyphSquare (x y : UInt32) (col row : Nat) (color scale : UInt32) : List FbCall :=
  (List.range scale.toNat).flatMap fun sy => (List.range scale.toNat).map fun sx =>
    .putPixel (x + UInt32.ofNat col * scale + UInt32.ofNat sx) (y + UInt32.ofNat row * scale + UInt32.ofNat sy) color

/-- Whether a glyph has a bit. -/
def glyphBit (glyph : FontGlyph) (data : Nat → UInt8) (col row : Nat) : Bool :=
  let byteIdx := UInt32.ofNat row * ((glyph.width + 7) / 8) + UInt32.ofNat col / 8
  let bits := data byteIdx.toNat
  bits &&& (0x80 >>> UInt8.ofNat (col % 8)) ≠ 0

/-- Draw a glyph: the squares of its bits, and those of the others unless the background is transparent. -/
def textDrawGlyph (x y : UInt32) (glyph : FontGlyph) (fg bg scale : UInt32) : List FbCall :=
  match glyph.data with
  | none => []
  | some data =>
    if scale = 0 then []
    else
      (List.range glyph.height.toNat).flatMap fun row => (List.range glyph.width.toNat).flatMap fun col =>
        if glyphBit glyph data col row then glyphSquare x y col row fg scale
        else if bg ≠ 0xFFFFFFFF then glyphSquare x y col row bg scale
        else []

/-- The characters with a glyph are those of the table. -/
theorem Printable.glyph_inside {c : UInt8} (glyph : Printable c) : c.toNat - 32 < 96 := by
  have low := UInt8.lt_iff_toNat_lt.mp glyph.2
  change c.toNat < 128 at low
  omega

section

variable (text : TextStatics)

/-- Draw a character. Bytes from 128 on are negative, and have no glyph either. -/
def textDrawCharScaled (x y : UInt32) (c : UInt8) (fg bg scale : UInt32) : Except Halt (List FbCall) :=
  if glyph : Printable c then
    match text.currentFont with
    | some font => .ok (textDrawGlyph x y (font.glyphs ⟨c.toNat - 32, glyph.glyph_inside⟩) fg bg scale)
    -- The glyphs are looked up behind a null pointer.
    | none => .error .outOfBounds
  else .ok []

/-- Draw a character in its own size. -/
def textDrawChar (x y : UInt32) (c : UInt8) (fg bg : UInt32) : Except Halt (List FbCall) :=
  textDrawCharScaled text x y c fg bg 1

/-- The loop over a text, with the place of the next character. -/
def textDrawLoop (x fg bg scale : UInt32) : List UInt8 → UInt32 → UInt32 → Except Halt (List FbCall)
  | [], _, _ => .ok []
  | c :: rest, cx, cy =>
    if c = 10 then textDrawLoop x fg bg scale rest x (cy + text.currentFontHeight * scale)
    else do
      let glyph ← textDrawCharScaled text cx cy c fg bg scale
      let others ← textDrawLoop x fg bg scale rest (cx + text.currentFontWidth * scale) cy
      return glyph ++ others

/-- Draw a text, with its line ends. -/
def textDrawScaled (x y : UInt32) (str : List UInt8) (fg bg scale : UInt32) : Except Halt (List FbCall) :=
  textDrawLoop text x fg bg scale str x y

/-- Draw a text in its own size. -/
def textDraw (x y : UInt32) (str : List UInt8) (fg bg : UInt32) : Except Halt (List FbCall) :=
  textDrawScaled text x y str fg bg 1

/-- The loop over a text that is wrapped at a width. -/
def textWrapLoop (x maxWidth fg bg : UInt32) : List UInt8 → UInt32 → UInt32 → Except Halt (List FbCall)
  | [], _, _ => .ok []
  | c :: rest, cx, cy =>
    let charWidth := text.currentFontWidth * 1
    if c = 10 then textWrapLoop x maxWidth fg bg rest x (cy + text.currentFontHeight * 1)
    else do
      let (cx, cy) := if x + maxWidth < cx + charWidth then (x, cy + text.currentFontHeight * 1) else (cx, cy)
      let glyph ← textDrawCharScaled text cx cy c fg bg 1
      let others ← textWrapLoop x maxWidth fg bg rest (cx + charWidth) cy
      return glyph ++ others

/-- Draw a text that is wrapped at a width. -/
def textDrawWrapped (x y maxWidth : UInt32) (str : List UInt8) (fg bg : UInt32) : Except Halt (List FbCall) :=
  textWrapLoop text x maxWidth fg bg str x y

/-- The width of the first line of a text. -/
def textWidth (str : Option (List UInt8)) : Nat :=
  match str with
  | none => 0
  | some str => (str.takeWhile (· ≠ 10)).length * text.currentFontWidth.toNat

/-- The width of a character. -/
def textWidthChar (c : UInt8) : Nat := if Printable c then text.currentFontWidth.toNat else 0

/-- The height of a line. -/
def textHeight : Nat := text.currentFontHeight.toNat

end

end MiraOS

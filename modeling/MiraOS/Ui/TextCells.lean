import MiraOS.Ui.Text

/-! Which pixels a text has: one cell for each character, in lines and columns. -/

namespace MiraOS

open Machine

/-- The color of a bit of a glyph, unless it is transparent. -/
def bitColor (glyph : FontGlyph) (data : Nat → UInt8) (fg bg : UInt32) (col row : Nat) : Option UInt32 :=
  if glyphBit glyph data col row then some fg else if bg ≠ 0xFFFFFFFF then some bg else none

/-- The glyph of a character. -/
def Font.glyphOf (font : Font) (c : UInt8) : Option FontGlyph :=
  if glyph : Printable c then some (font.glyphs ⟨c.toNat - 32, glyph.glyph_inside⟩) else none

/-- The calls that draw a character. -/
def Font.charCalls (font : Font) (x y : UInt32) (c : UInt8) (fg bg scale : UInt32) : List FbCall :=
  (font.glyphOf c).elim [] fun glyph => textDrawGlyph x y glyph fg bg scale

/-- The characters of a text with their lines and columns, from a place on. -/
def placed : List UInt8 → Nat → Nat → List (Nat × Nat × UInt8)
  | [], _, _ => []
  | c :: rest, line, col => if c = 10 then placed rest (line + 1) 0 else (line, col, c) :: placed rest line (col + 1)

/-- The character of a line and a column. -/
def cellAt (lines : List (List UInt8)) (line col : Nat) : Option UInt8 := lines[line]?.bind (·[col]?)

/-- The same with the first line in front of a place left out. -/
def cellFrom (lines : List (List UInt8)) (first start line col : Nat) : Option UInt8 :=
  if line < first then none
  else if line = first then (if col < start then none else cellAt lines 0 (col - start))
  else cellAt lines (line - first) col

/-- The characters with their places are those of the lines of the text. -/
theorem mem_placed {str : List UInt8} {first start line col : Nat} {c : UInt8} :
    (line, col, c) ∈ placed str first start ↔ cellFrom (str.splitOn 10) first start line col = some c := by
  induction str generalizing first start with
  | nil =>
    rw [placed, List.splitOn_nil, cellFrom, cellAt, cellAt]
    refine iff_of_false List.not_mem_nil fun found => ?_
    split_ifs at found with before here left
    · cases found
    · obtain ⟨next, more⟩ : ∃ next, line - first = next + 1 := ⟨line - first - 1, by omega⟩
      rw [more] at found
      cases found
  | cons head rest ih =>
    rw [placed, List.splitOn_cons_eq_if_modifyHead]
    by_cases ends : head = 10
    · -- The rest of the text is in the next line.
      rw [if_pos ends, if_pos (beq_iff_eq.mpr ends), ih, cellFrom, cellFrom]
      -- Places in front of the new line belong to the line that has ended.
      rcases Nat.lt_trichotomy line first with before | rfl | behind
      · rw [if_pos before, if_pos (by omega)]
      · rw [if_pos (Nat.lt_succ_self line), if_neg (Nat.lt_irrefl line), if_pos rfl]
        split_ifs <;> exact iff_of_false (by simp) (by simp [cellAt])
      · obtain ⟨next, rfl⟩ : ∃ next, line = first + 1 + next := ⟨line - first - 1, by omega⟩
        rw [if_neg (by omega), if_neg (show ¬ first + 1 + next < first by omega),
          if_neg (show ¬ first + 1 + next = first by omega),
          show first + 1 + next - first = next + 1 by omega]
        cases next with
        | zero => rw [if_pos rfl, if_neg (Nat.not_lt_zero col), Nat.sub_zero]; rfl
        | succ next =>
          rw [if_neg (by omega), show first + 1 + (next + 1) - (first + 1) = next + 1 by omega]
          rfl
    · -- Any other character moves the rest of its line one place on.
      rw [if_neg ends, if_neg (by simpa using ends), List.mem_cons, ih]
      -- A split has a first line, even of an empty text.
      obtain ⟨front, lines, split⟩ : ∃ front lines, rest.splitOn 10 = front :: lines := by
        cases shape : rest.splitOn 10 with
        | nil => exact absurd shape (List.splitOn_ne_nil 10 rest)
        | cons front lines => exact ⟨front, lines, rfl⟩
      rw [split, List.modifyHead_cons, cellFrom, cellFrom]
      rcases Nat.lt_trichotomy line first with before | rfl | behind
      · rw [if_pos before, if_pos before]
        exact iff_of_false (by rintro (same | none) <;> simp_all) (by simp)
      · rw [if_neg (Nat.lt_irrefl line), if_pos rfl, if_neg (Nat.lt_irrefl line), if_pos rfl]
        -- The first character is in front of the others of its line.
        rcases Nat.lt_trichotomy col start with left | rfl | right
        · rw [if_pos (by omega), if_pos left]
          exact iff_of_false (by rintro (same | none) <;> simp_all) (by simp)
        · rw [if_pos (Nat.lt_succ_self col), if_neg (Nat.lt_irrefl col), Nat.sub_self]
          simp [cellAt, eq_comm]
        · obtain ⟨more, rfl⟩ : ∃ more, col = start + 1 + more := ⟨col - start - 1, by omega⟩
          rw [if_neg (by omega), if_neg (by omega), show start + 1 + more - (start + 1) = more by omega,
            show start + 1 + more - start = more + 1 by omega]
          simp [cellAt]
          omega
      · rw [if_neg (by omega), if_neg (by omega), if_neg (by omega), if_neg (by omega)]
        obtain ⟨next, more⟩ : ∃ next, line - first = next + 1 := ⟨line - first - 1, by omega⟩
        rw [more]
        simp [cellAt]
        omega

section

variable {glyph : FontGlyph} {data : Nat → UInt8} {x y fg bg scale : UInt32} {call : FbCall}

/-- The squares of a glyph: one for each bit that has a color. -/
theorem mem_textDrawGlyph (given : glyph.data = some data) :
    call ∈ textDrawGlyph x y glyph fg bg scale ↔
      ∃ row < glyph.height.toNat, ∃ col < glyph.width.toNat, ∃ sy < scale.toNat, ∃ sx < scale.toNat, ∃ color,
        bitColor glyph data fg bg col row = some color ∧
          call = .putPixel (x + UInt32.ofNat col * scale + UInt32.ofNat sx)
            (y + UInt32.ofNat row * scale + UInt32.ofNat sy) color := by
  simp only [textDrawGlyph, given]
  by_cases none : scale = 0
  · -- A glyph without a size has no squares.
    subst none
    rw [if_pos rfl]
    refine iff_of_false List.not_mem_nil ?_
    rintro ⟨row, -, col, -, sy, small, -⟩
    exact Nat.not_lt_zero sy small
  · rw [if_neg none]
    simp only [List.mem_flatMap, List.mem_range]
    refine exists_congr fun row => and_congr_right fun _ => exists_congr fun col => and_congr_right fun _ => ?_
    rw [bitColor]
    split_ifs with bit background
    · simp [glyphSquare, eq_comm]
    · simp [glyphSquare, eq_comm]
    · simp

/-- The dot of a call, if it draws one. -/
def FbCall.dot : FbCall → Option ((Nat × Nat) × UInt32)
  | .putPixel x y color => some ((x.toNat, y.toNat), color)
  | _ => none

/-- Calls that draw dots paint them one after another. -/
theorem foldl_paint_dots {calls : List FbCall} (dots : ∀ call ∈ calls, ∃ x y color, call = .putPixel x y color)
    (picture : Nat × Nat → UInt32) :
    calls.foldl FbCall.paint picture = paintDots picture (calls.filterMap FbCall.dot) := by
  -- Induction on the calls, each of which is one dot.
  induction calls generalizing picture with
  | nil => rfl
  | cons call rest ih =>
    obtain ⟨x, y, color, rfl⟩ := dots call List.mem_cons_self
    exact ih (fun other among => dots other (List.mem_cons_of_mem _ among)) _

/-- The calls that draw a character draw dots. -/
theorem charCalls_dots {font : Font} {c : UInt8} (among : call ∈ font.charCalls x y c fg bg scale) :
    ∃ x y color, call = .putPixel x y color := by
  rw [Font.charCalls] at among
  -- A character without a glyph, or a glyph without data, draws nothing.
  cases shape : font.glyphOf c with
  | none =>
    rw [shape] at among
    cases among
  | some glyph =>
    rw [shape] at among
    change call ∈ textDrawGlyph x y glyph fg bg scale at among
    cases given : glyph.data with
    | none =>
      simp only [textDrawGlyph, given] at among
      cases among
    | some data =>
      -- With data every call paints one dot of the glyph.
      obtain ⟨row, -, col, -, sy, -, sx, -, color, -, rfl⟩ := (mem_textDrawGlyph given).mp among
      exact ⟨_, _, _, rfl⟩

end

section

variable {text : TextStatics} {font : Font} (has : text.currentFont = some font)

include has

/-- Drawing a character makes its calls. -/
theorem textDrawCharScaled_eq (x y : UInt32) (c : UInt8) (fg bg scale : UInt32) :
    textDrawCharScaled text x y c fg bg scale = .ok (font.charCalls x y c fg bg scale) := by
  rw [textDrawCharScaled, Font.charCalls, Font.glyphOf]
  -- A character outside the font draws nothing.
  split_ifs with glyph
  · simp only [has]
    rfl
  · rfl

/-- The calls for a text, one cell after another, wherever the loop starts. -/
theorem textDrawLoop_eq (x y fg bg scale : UInt32) (str : List UInt8) (line col : Nat) :
    textDrawLoop text x fg bg scale str (x + UInt32.ofNat col * (text.currentFontWidth * scale))
        (y + UInt32.ofNat line * (text.currentFontHeight * scale)) =
      .ok ((placed str line col).flatMap fun cell =>
        font.charCalls (x + UInt32.ofNat cell.2.1 * (text.currentFontWidth * scale))
          (y + UInt32.ofNat cell.1 * (text.currentFontHeight * scale)) cell.2.2 fg bg scale) := by
  have next : ∀ (start step : UInt32) (count : Nat),
      start + UInt32.ofNat count * step + step = start + UInt32.ofNat (count + 1) * step := by
    intro start step count
    rw [UInt32.ofNat_add, UInt32.add_mul, UInt32.add_assoc]
    congr 2
    exact (UInt32.one_mul step).symm
  induction str generalizing line col with
  | nil => rfl
  | cons c rest ih =>
    rw [textDrawLoop, placed]
    by_cases ends : c = 10
    · -- The next line starts at the left side.
      have left := ih (line + 1) 0
      rw [show UInt32.ofNat 0 = 0 from rfl, UInt32.zero_mul, UInt32.add_zero] at left
      rw [if_pos ends, if_pos ends, next]
      exact left
    · rw [if_neg ends, if_neg ends, textDrawCharScaled_eq has, ok_bind, next, ih line (col + 1), ok_bind,
        List.flatMap_cons]
      rfl

/-- The calls for a whole text. -/
theorem textDrawScaled_eq (x y fg bg scale : UInt32) (str : List UInt8) :
    textDrawScaled text x y str fg bg scale =
      .ok ((placed str 0 0).flatMap fun cell =>
        font.charCalls (x + UInt32.ofNat cell.2.1 * (text.currentFontWidth * scale))
          (y + UInt32.ofNat cell.1 * (text.currentFontHeight * scale)) cell.2.2 fg bg scale) := by
  have whole := textDrawLoop_eq has x y fg bg scale str 0 0
  rwa [show UInt32.ofNat 0 = 0 from rfl, UInt32.zero_mul, UInt32.zero_mul, UInt32.add_zero, UInt32.add_zero] at whole

end

/-- A font whose glyphs all have the size that the font says, and rows of bits. -/
structure Font.Uniform (font : Font) : Prop where
  width : 0 < font.defaultWidth.toNat
  height : 0 < font.defaultHeight.toNat
  glyphs : ∀ i, (font.glyphs i).width = font.defaultWidth ∧ (font.glyphs i).height = font.defaultHeight ∧
    ∃ data, (font.glyphs i).data = some data

/-- The size of a cell on the screen. -/
def Font.cellWidth (font : Font) (scale : UInt32) : Nat := font.defaultWidth.toNat * scale.toNat
def Font.cellHeight (font : Font) (scale : UInt32) : Nat := font.defaultHeight.toNat * scale.toNat

/-- The color of a pixel inside of the cell of a character. -/
def Font.cellColor (font : Font) (c : UInt8) (fg bg scale : UInt32) (dx dy : Nat) : Option UInt32 :=
  (font.glyphOf c).bind fun glyph => glyph.data.bind fun data =>
    bitColor glyph data fg bg (dx / scale.toNat) (dy / scale.toNat)

/-- What a text is for: the lines of the text, cut into cells, with the glyph of its character in each. -/
def textPicture (font : Font) (x y : UInt32) (str : List UInt8) (fg bg scale : UInt32) (place : Nat × Nat) :
    Option UInt32 :=
  if scale ≠ 0 ∧ x.toNat ≤ place.1 ∧ y.toNat ≤ place.2 then
    (cellAt (str.splitOn 10) ((place.2 - y.toNat) / font.cellHeight scale)
        ((place.1 - x.toNat) / font.cellWidth scale)).bind fun c =>
      font.cellColor c fg bg scale ((place.1 - x.toNat) % font.cellWidth scale)
        ((place.2 - y.toNat) % font.cellHeight scale)
  else none

/-- All cells of a text have places of 32 bits. -/
def TextFits (font : Font) (x y : UInt32) (str : List UInt8) (scale : UInt32) : Prop :=
  ∀ line col c, cellAt (str.splitOn 10) line col = some c →
    x.toNat + (col + 1) * font.cellWidth scale ≤ 2 ^ 32 ∧ y.toNat + (line + 1) * font.cellHeight scale ≤ 2 ^ 32

section

/-- A square of a cell, without a wrap. -/
theorem square_toNat {start size scale : UInt32} {cell bit inner : Nat} (inside : bit < size.toNat)
    (small : inner < scale.toNat) (fits : start.toNat + (cell + 1) * (size.toNat * scale.toNat) ≤ 2 ^ 32) :
    (start + UInt32.ofNat cell * (size * scale) + UInt32.ofNat bit * scale + UInt32.ofNat inner).toNat =
      start.toNat + (cell * (size.toNat * scale.toNat) + (bit * scale.toNat + inner)) := by
  have word : start + UInt32.ofNat cell * (size * scale) + UInt32.ofNat bit * scale + UInt32.ofNat inner =
      UInt32.ofNat (start.toNat + (cell * (size.toNat * scale.toNat) + (bit * scale.toNat + inner))) := by
    simp only [UInt32.ofNat_add, UInt32.ofNat_mul, UInt32.ofNat_toNat, UInt32.add_assoc]
  -- The last bit of the cell ends where the next cell starts.
  have bits := Nat.mul_le_mul_right scale.toNat (show bit + 1 ≤ size.toNat from inside)
  rw [Nat.add_mul, Nat.one_mul] at bits
  rw [Nat.add_mul, Nat.one_mul] at fits
  rw [word, UInt32.toNat_ofNat_of_lt' (by show _ < 2 ^ 32; omega)]

/-- A place in a row of cells is that of one bit in one of them. -/
theorem cell_division {size scale cell bit inner : Nat} (inside : bit < size) (small : inner < scale) :
    (cell * (size * scale) + (bit * scale + inner)) / (size * scale) = cell ∧
      (cell * (size * scale) + (bit * scale + inner)) % (size * scale) / scale = bit := by
  -- The offset inside a cell is below the cell's size, so the division finds the cell and the bit.
  have bits := Nat.mul_le_mul_right scale (show bit + 1 ≤ size from inside)
  rw [Nat.add_mul, Nat.one_mul] at bits
  have rest : bit * scale + inner < size * scale := by omega
  rw [Nat.mul_comm cell, Nat.mul_add_div (by omega), Nat.div_eq_of_lt rest, Nat.mul_add_mod, Nat.mod_eq_of_lt rest,
    Nat.mul_comm bit, Nat.mul_add_div (by omega), Nat.div_eq_of_lt small]
  exact ⟨rfl, rfl⟩

/-- And every place in it is. -/
theorem cell_composition {size scale : Nat} (some : 0 < size) (more : 0 < scale) (n : Nat) :
    n % (size * scale) / scale < size ∧ n % (size * scale) % scale < scale ∧
      n / (size * scale) * (size * scale) + (n % (size * scale) / scale * scale + n % (size * scale) % scale) = n := by
  refine ⟨?_, Nat.mod_lt _ more, ?_⟩
  · exact Nat.div_lt_of_lt_mul (Nat.mul_comm size scale ▸ Nat.mod_lt n (Nat.mul_pos some more))
  · rw [Nat.div_add_mod', Nat.div_add_mod']

variable {text : TextStatics} {font : Font} {x y fg bg scale : UInt32} {str : List UInt8}

/-- The dots of a text are those of its picture. -/
theorem mem_textDots (uniform : font.Uniform) (fits : TextFits font x y str scale) (place : Nat × Nat)
    (color : UInt32) :
    (place, color) ∈ ((placed str 0 0).flatMap fun cell =>
        font.charCalls (x + UInt32.ofNat cell.2.1 * (font.defaultWidth * scale))
          (y + UInt32.ofNat cell.1 * (font.defaultHeight * scale)) cell.2.2 fg bg scale).filterMap FbCall.dot ↔
      textPicture font x y str fg bg scale place = some color := by
  have where_placed : ∀ line col c, (line, col, c) ∈ placed str 0 0 ↔ cellAt (str.splitOn 10) line col = some c := by
    intro line col c
    rw [mem_placed, cellFrom, if_neg (Nat.not_lt_zero line), if_neg (Nat.not_lt_zero col)]
    split_ifs with first
    · rw [first, Nat.sub_zero]
    · rw [Nat.sub_zero]
  rw [List.mem_filterMap]
  constructor
  · rintro ⟨call, among, dot⟩
    obtain ⟨⟨line, col, c⟩, cell, drawn⟩ := List.mem_flatMap.mp among
    have here := (where_placed line col c).mp cell
    obtain ⟨right, bottom⟩ := fits line col c here
    -- The character has a glyph, and the dot is one of its squares.
    rw [Font.charCalls] at drawn
    cases shape : font.glyphOf c with
    | none =>
      rw [shape] at drawn
      cases drawn
    | some glyph =>
      rw [shape] at drawn
      obtain ⟨wide, high, data, given⟩ : glyph.width = font.defaultWidth ∧ glyph.height = font.defaultHeight ∧
          ∃ data, glyph.data = some data := by
        rw [Font.glyphOf] at shape
        split_ifs at shape
        exact Option.some.inj shape ▸ uniform.glyphs _
      -- The call paints one bit of the glyph, at a place inside the square of that bit.
      obtain ⟨row, above, bit, left, sy, smallY, sx, smallX, painted, bitten, rfl⟩ :=
        (mem_textDrawGlyph given).mp drawn
      rw [high] at above
      rw [wide] at left
      have sized : scale ≠ 0 := by
        rintro rfl
        exact Nat.not_lt_zero sx smallX
      obtain ⟨rfl, rfl⟩ := Prod.mk.inj (Option.some.inj dot)
      rw [textPicture, square_toNat left smallX right, square_toNat above smallY bottom,
        if_pos ⟨sized, Nat.le_add_right .., Nat.le_add_right ..⟩, Nat.add_sub_cancel_left, Nat.add_sub_cancel_left,
        Font.cellWidth, Font.cellHeight, (cell_division left smallX).1, (cell_division above smallY).1, here]
      show font.cellColor c fg bg scale _ _ = _
      rw [Font.cellColor, shape]
      show glyph.data.bind _ = _
      rw [given, (cell_division left smallX).2, (cell_division above smallY).2]
      exact bitten
  · intro painted
    rw [textPicture] at painted
    split_ifs at painted with inside
    obtain ⟨c, here, painted⟩ := Option.bind_eq_some_iff.mp painted
    obtain ⟨glyph, shape, painted⟩ := Option.bind_eq_some_iff.mp painted
    obtain ⟨data, given, painted⟩ := Option.bind_eq_some_iff.mp painted
    obtain ⟨right, bottom⟩ := fits _ _ c here
    -- The other way round: the place lies in a cell, and the divisions name its bit and its square.
    obtain ⟨wide, high, -⟩ : glyph.width = font.defaultWidth ∧ glyph.height = font.defaultHeight ∧
        ∃ data, glyph.data = some data := by
      rw [Font.glyphOf] at shape
      split_ifs at shape
      exact Option.some.inj shape ▸ uniform.glyphs _
    have sized : 0 < scale.toNat := Nat.pos_of_ne_zero fun none => inside.1 (UInt32.toNat_inj.mp none)
    rw [Font.cellWidth] at here right painted
    rw [Font.cellHeight] at here bottom painted
    obtain ⟨left, smallX, column⟩ := cell_composition uniform.width sized (place.1 - x.toNat)
    obtain ⟨above, smallY, row⟩ := cell_composition uniform.height sized (place.2 - y.toNat)
    generalize (place.1 - x.toNat) / (font.defaultWidth.toNat * scale.toNat) = col at here right column
    generalize (place.1 - x.toNat) % (font.defaultWidth.toNat * scale.toNat) / scale.toNat = bit at painted left column
    generalize (place.1 - x.toNat) % (font.defaultWidth.toNat * scale.toNat) % scale.toNat = sx at smallX column
    generalize (place.2 - y.toNat) / (font.defaultHeight.toNat * scale.toNat) = line at here bottom row
    generalize (place.2 - y.toNat) % (font.defaultHeight.toNat * scale.toNat) / scale.toNat = tall at painted above row
    generalize (place.2 - y.toNat) % (font.defaultHeight.toNat * scale.toNat) % scale.toNat = sy at smallY row
    -- The square of the place is drawn with the glyph of the cell.
    refine ⟨.putPixel
      (x + UInt32.ofNat col * (font.defaultWidth * scale) + UInt32.ofNat bit * scale + UInt32.ofNat sx)
      (y + UInt32.ofNat line * (font.defaultHeight * scale) + UInt32.ofNat tall * scale + UInt32.ofNat sy) color,
      List.mem_flatMap.mpr ⟨(line, col, c), (where_placed _ _ c).mpr here, ?_⟩, ?_⟩
    · rw [Font.charCalls, shape]
      exact (mem_textDrawGlyph given).mpr
        ⟨tall, high ▸ above, bit, wide ▸ left, sy, smallY, sx, smallX, color, painted, rfl⟩
    · rw [FbCall.dot, square_toNat left smallX right, square_toNat above smallY bottom, column, row,
        Nat.add_sub_cancel' inside.2.1, Nat.add_sub_cancel' inside.2.2]

/-- A text whose lines are short enough fits. -/
theorem TextFits.of_lengths {rows columns : Nat} (lines : (str.splitOn 10).length ≤ rows)
    (short : ∀ line ∈ str.splitOn 10, line.length ≤ columns) (right : x.toNat + columns * font.cellWidth scale ≤ 2 ^ 32)
    (bottom : y.toNat + rows * font.cellHeight scale ≤ 2 ^ 32) : TextFits font x y str scale := by
  intro line col c here
  -- The cell is on one of the lines and inside it, so its far corner lies within the bounds.
  obtain ⟨found, among, inside⟩ := Option.bind_eq_some_iff.mp here
  obtain ⟨below, rfl⟩ := List.getElem?_eq_some_iff.mp among
  obtain ⟨left, -⟩ := List.getElem?_eq_some_iff.mp inside
  have width := Nat.mul_le_mul_right (font.cellWidth scale)
    (show col + 1 ≤ columns from left.trans_le (short _ (List.getElem_mem below)))
  have height := Nat.mul_le_mul_right (font.cellHeight scale) (show line + 1 ≤ rows from below.trans_le lines)
  exact ⟨by omega, by omega⟩

/-- The default font has glyphs of eight by sixteen bits. -/
theorem defaultFont_uniform : defaultFont.Uniform where
  width := by decide
  height := by decide
  glyphs _ := ⟨rfl, rfl, _, rfl⟩

/--
A text is drawn pixel by pixel as its picture: over whatever the framebuffer shows, in any buffer, each character has
its own cell in its line and column, with the bits of its glyph in one color, the others in the other one unless that
is transparent, and nothing else changes.
-/
theorem text_shows_picture {state : Framebuffer} {picture : Nat × Nat → UInt32} (geometry : state.fb.Geometry)
    (ready : fbReady state.fb = true) (shows : state.Shows picture) (uniform : font.Uniform)
    (fits : TextFits font x y str scale) :
    ∃ calls after, textDrawScaled (textSetFont text (some font)) x y str fg bg scale = .ok calls ∧
      fbRun state calls = .ok after ∧ after.fb = state.fb ∧
      after.Shows (overPicture picture (textPicture font x y str fg bg scale)) := by
  -- The text is drawn by dots alone, so the framebuffer shows the dots painted over what was there.
  have calls := @textDrawScaled_eq (textSetFont text (some font)) font rfl x y fg bg scale str
  have dots : ∀ call ∈ (placed str 0 0).flatMap fun cell =>
      font.charCalls (x + UInt32.ofNat cell.2.1 * (font.defaultWidth * scale))
        (y + UInt32.ofNat cell.1 * (font.defaultHeight * scale)) cell.2.2 fg bg scale,
      ∃ x y color, call = .putPixel x y color := by
    intro call among
    obtain ⟨cell, -, drawn⟩ := List.mem_flatMap.mp among
    exact charCalls_dots drawn
  obtain ⟨after, ran, kept, shown⟩ := fbRun_shows geometry ready
    (fun call among => by
      obtain ⟨_, _, _, rfl⟩ := dots call among
      trivial) shows
  -- Inside the bounds every dot is one pixel of the picture, and no two cells share one.
  rw [foldl_paint_dots dots, paintDots_eq_over (mem_textDots uniform fits)] at shown
  exact ⟨_, after, calls, ran, kept, shown⟩

/-- Two lines of text in the default font, on a screen of two by two cells. -/
theorem two_lines_shown :
    let fb : FramebufferInfo := ⟨0xFD000000, 64, 16, 32, 32⟩
    ∃ calls after, textDrawScaled (textInit textStart) 0 0 [72, 105, 10, 33] 0xFFFFFF 0 1 = .ok calls ∧
      fbRun (blackScreen fb) calls = .ok after ∧ after.fb = fb ∧
      after.Shows (overPicture (fun _ => 0) (textPicture defaultFont 0 0 [72, 105, 10, 33] 0xFFFFFF 0 1)) :=
  -- Two lines of at most two characters fit on the 64 by 16 screen.
  have geometry : FramebufferInfo.Geometry ⟨0xFD000000, 64, 16, 32, 32⟩ := ⟨by decide, by decide, by decide⟩
  have fits : TextFits defaultFont 0 0 [72, 105, 10, 33] 1 :=
    @TextFits.of_lengths defaultFont 0 0 1 [72, 105, 10, 33] 2 2 (by decide) (by decide) (by decide) (by decide)
  @text_shows_picture textStart defaultFont 0 0 0xFFFFFF 0 1 [72, 105, 10, 33] (blackScreen _) _ geometry rfl
    (blackScreen_shows geometry) defaultFont_uniform fits

end

end MiraOS

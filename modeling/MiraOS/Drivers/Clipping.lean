import MiraOS.Drivers.DoubleBuffering
import MiraOS.Machine.Strokes

/-! Which rectangles and pictures drivers/framebuffer.c clips to the screen, and which leave it. -/

namespace MiraOS

open Machine

/-- The bytes from the start of a row to the start of the next one. -/
def lineStride (fb : FramebufferInfo) (double : Bool) : Nat :=
  if double then 4 * (fb.pitch.toNat / 4) else fb.pitch.toNat

/-- Where a pixel is, counted without overflow from the start of the buffer on. -/
def pixelPlace (fb : FramebufferInfo) (double : Bool) (px py : Nat) : Nat := py * lineStride fb double + 4 * px

/-- The bytes of the buffer: the framebuffer has all its rows, and the back buffer was asked for with a product of
32 bits. -/
def bufferSize (fb : FramebufferInfo) (double : Bool) : Nat :=
  if double then totalBytes fb else fb.height.toNat * fb.pitch.toNat

/-- The start of a row is a number of 32 bits, in bytes for the framebuffer and in words for the back buffer. -/
def StartReached (fb : FramebufferInfo) (double : Bool) (x row : Nat) : Prop :=
  if double then pixelPlace fb double x row < 2 ^ 34 else row * fb.pitch.toNat < 2 ^ 32

instance (fb : FramebufferInfo) (double : Bool) (x row : Nat) : Decidable (StartReached fb double x row) :=
  inferInstanceAs (Decidable (ite _ _ _))

/-- A part of a row can be drawn: its start is reached, and its end is in the buffer. -/
def RowInReach (fb : FramebufferInfo) (double : Bool) (x past row : Nat) : Prop :=
  StartReached fb double x row ∧ pixelPlace fb double past row ≤ bufferSize fb double

instance (fb : FramebufferInfo) (double : Bool) (x past row : Nat) : Decidable (RowInReach fb double x past row) :=
  inferInstanceAs (Decidable (_ ∧ _))

/-- The pixels of a rectangle that are on the screen, without overflow. -/
def OnScreen (fb : FramebufferInfo) (x y w h : UInt32) (px py : Nat) : Prop :=
  (x.toNat ≤ px ∧ px < min (x.toNat + w.toNat) fb.width.toNat) ∧
    y.toNat ≤ py ∧ py < min (y.toNat + h.toNat) fb.height.toNat

/-- The bytes of some pixels, each at its place in the buffer. -/
def PixelCells (fb : FramebufferInfo) (double : Bool) (inside : Nat → Nat → Prop) (bytes : Nat → Nat → List UInt8)
    (j : Nat) (byte : UInt8) : Prop :=
  ∃ px py k, inside px py ∧ k < 4 ∧ j = pixelPlace fb double px py + k ∧ (bytes px py)[k]? = some byte

/-- The bytes of pixels one behind the other. -/
def lineBytes (bytes : Nat → List UInt8) (w : Nat) : List UInt8 := (List.range w).flatMap bytes

/-- The run of bytes that is drawn for a row. -/
def rowStroke (fb : FramebufferInfo) (double : Bool) (x : UInt32) (w : Nat) (bytes : Nat → Nat → List UInt8)
    (row : Nat) : Stroke :=
  ⟨pixelStart fb double x (UInt32.ofNat row), lineBytes (bytes row) w⟩

/-- The runs of a number of rows. -/
def rowStrokes (fb : FramebufferInfo) (double : Bool) (x : UInt32) (w : Nat) (bytes : Nat → Nat → List UInt8)
    (first count : Nat) : List Stroke :=
  (List.range' first count).map (rowStroke fb double x w bytes)

/-- A length that is cut off at a limit, with a sum that wraps. -/
def clip (limit start length : UInt32) : UInt32 := if limit < start + length then limit - start else length

section

variable {bytes : Nat → List UInt8} (four : ∀ col, (bytes col).length = 4)

include four

/-- Every pixel has four bytes. -/
theorem lineBytes_length (w : Nat) : (lineBytes bytes w).length = 4 * w := by
  -- Induction on the pixels of the line, each of four bytes.
  induction w with
  | zero => rfl
  | succ w ih =>
    rw [lineBytes] at ih ⊢
    rw [List.range_succ, List.flatMap_append, List.length_append, ih, List.flatMap_singleton, four]
    omega

/-- The bytes of a line belong to its pixels in order. -/
theorem lineBytes_getElem? {w t : Nat} (inside : t < 4 * w) :
    (lineBytes bytes w)[t]? = (bytes (t / 4))[t % 4]? := by
  -- Induction on the pixels, the last one apart.
  induction w with
  | zero => omega
  | succ w ih =>
    have length := lineBytes_length four w
    rw [lineBytes] at ih length ⊢
    rw [List.range_succ, List.flatMap_append, List.flatMap_singleton]
    by_cases before : t < 4 * w
    · rw [List.getElem?_append_left (by omega), ih before]
    · -- The last pixel of the line.
      have pixel : t / 4 = w := by omega
      have offset : t - 4 * w = t % 4 := by omega
      rw [List.getElem?_append_right (by omega), length, pixel, offset]

/-- Storing the pixels of a line lays a run over the buffer. -/
theorem storeLine_eq (start w : Nat) (block : List UInt8) :
    storeLine start bytes w block = lay block ⟨start, lineBytes bytes w⟩ := by
  induction w with
  | zero =>
    have none : (⟨start, lineBytes bytes 0⟩ : Stroke).Fits block.length := Or.inl rfl
    have nothing : overlay block start (lineBytes bytes 0) = block := overlay_nil block start
    rw [lay, if_pos none, nothing]
    rfl
  | succ w ih =>
    have some : bytes w ≠ [] := List.ne_nil_of_length_pos (by rw [four]; decide)
    have length := lineBytes_length four w
    have more : lineBytes bytes (w + 1) = lineBytes bytes w ++ bytes w := by
      rw [lineBytes, List.range_succ, List.flatMap_append, List.flatMap_singleton, lineBytes]
    rw [storeLine] at ih ⊢
    rw [List.range_succ, List.foldlM_append, ih, more, lay_append some, length]
    -- The last pixel is a run of its own.
    refine congrArg _ (funext fun middle => ?_)
    simp only [List.foldlM_cons, List.foldlM_nil, bind_pure]
    rw [storePixel, ← four w]
    split_ifs with inside
    · exact (lay_inside inside).symm
    · exact (lay_outside some (Nat.lt_of_not_le inside)).symm

end

section

variable {fb : FramebufferInfo} (wide : 4 * fb.width.toNat ≤ fb.pitch.toNat)

include wide

/-- A row of the screen is not longer than the way to the next one. -/
theorem lineStride_wide (double : Bool) :
    4 * fb.width.toNat ≤ lineStride fb double ∧ lineStride fb double < 2 ^ 32 := by
  have word := fb.pitch.toNat_lt
  rw [lineStride]
  -- The stride is the pitch, for the back buffer without the bytes behind its last whole word.
  split_ifs
  · omega
  · omega

/-- A start that is reached is where the pixel is; one that is not lies far in front of it. -/
theorem pixelStart_place {x : UInt32} {row : Nat} (double : Bool) (column : x.toNat ≤ fb.width.toNat)
    (word : row < 2 ^ 32) :
    (StartReached fb double x.toNat row →
        pixelStart fb double x (UInt32.ofNat row) = pixelPlace fb double x.toNat row) ∧
      (¬ StartReached fb double x.toNat row →
        pixelStart fb double x (UInt32.ofNat row) + 2 ^ 32 ≤ pixelPlace fb double x.toNat row) := by
  have limit := fb.pitch.toNat_lt
  have same : (UInt32.ofNat row).toNat = row := UInt32.toNat_ofNat_of_lt word
  rw [pixelStart, StartReached, pixelPlace, lineStride]
  cases double with
  | true =>
    have words : 4 * (row * (fb.pitch.toNat / 4)) = row * (4 * (fb.pitch.toNat / 4)) := Nat.mul_left_comm 4 _ _
    simp only [if_true]
    rw [UInt32.toNat_add, UInt32.toNat_mul, UInt32.toNat_div, show (4 : UInt32).toNat = 4 from rfl, same]
    -- In words, the product with the row can wrap, and then the sum with the column.
    generalize row * (4 * (fb.pitch.toNat / 4)) = bytes at words ⊢
    constructor
    · omega
    · omega
  -- In bytes, only the product with the row can wrap.
  | false =>
    simp only [Bool.false_eq_true, if_false]
    rw [UInt32.toNat_mul, UInt32.toNat_mul, show (4 : UInt32).toNat = 4 from rfl, same]
    constructor
    · omega
    · omega

/-- A row ends in front of the next one. -/
theorem pixelPlace_row (double : Bool) {px row later : Nat} (shown : px ≤ fb.width.toNat) (before : row < later) :
    pixelPlace fb double px row ≤ later * lineStride fb double := by
  obtain ⟨long, -⟩ := lineStride_wide wide double
  -- A later row starts behind the whole of an earlier one.
  have rows := Nat.mul_le_mul_right (lineStride fb double) (show row + 1 ≤ later from before)
  rw [Nat.add_mul, Nat.one_mul] at rows
  rw [pixelPlace]
  omega

end

/-- Where a start is reached, the starts of the rows before it are. -/
theorem StartReached.earlier {fb : FramebufferInfo} {double : Bool} {x row last : Nat}
    (reached : StartReached fb double x last) (before : row ≤ last) : StartReached fb double x row := by
  -- The product of a smaller row is smaller for either stride.
  rw [StartReached, pixelPlace] at reached ⊢
  have rows := Nat.mul_le_mul_right (lineStride fb double) before
  have bytes := Nat.mul_le_mul_right fb.pitch.toNat before
  split_ifs at reached ⊢
  · omega
  · omega

/-- The place of a pixel, counted from another one of its row. -/
theorem pixelPlace_add (fb : FramebufferInfo) (double : Bool) (px more py : Nat) :
    pixelPlace fb double (px + more) py = pixelPlace fb double px py + 4 * more := by
  rw [pixelPlace, pixelPlace]
  omega

/-- The part of a rectangle in some rows. -/
def InRows (x w first count px py : Nat) : Prop := (x ≤ px ∧ px < x + w) ∧ first ≤ py ∧ py < first + count

section

variable {fb : FramebufferInfo} {double : Bool} {x : UInt32} {w first count : Nat}
  {bytes : Nat → Nat → List UInt8} (wide : 4 * fb.width.toNat ≤ fb.pitch.toNat)
  (four : ∀ row col, (bytes row col).length = 4)

include four

/-- What the run of a row covers. -/
theorem rowStroke_covers (row j : Nat) :
    (rowStroke fb double x w bytes row).Covers j ↔
      pixelStart fb double x (UInt32.ofNat row) ≤ j ∧ j < pixelStart fb double x (UInt32.ofNat row) + 4 * w := by
  rw [Stroke.Covers, rowStroke]
  dsimp only
  rw [lineBytes_length (four row)]

include wide

/-- A rectangle of the screen whose last row is in reach is drawn as it should be. -/
theorem rowStrokes_paint (shown : x.toNat + w ≤ fb.width.toNat) (rows : first + count < 2 ^ 32)
    (reach : ∀ last, last + 1 = first + count → RowInReach fb double x.toNat (x.toNat + w) last) :
    Paints (bufferSize fb double) ((rowStrokes fb double x w bytes first count).foldlM lay)
      (PixelCells fb double (InRows x.toNat w first count) fun px py => bytes py (px - x.toNat)) := by
  have place : ∀ row ∈ List.range' first count,
      pixelStart fb double x (UInt32.ofNat row) = pixelPlace fb double x.toNat row := by
    -- The rows in front of the last one start before it.
    intro row among
    obtain ⟨low, high⟩ := List.mem_range'_1.mp among
    obtain ⟨reached, -⟩ := reach (first + count - 1) (by omega)
    exact (pixelStart_place wide double (by omega) (by omega)).1 (reached.earlier (by omega))
  refine paints_of_strokes ?_ ?_ ?_
  · rintro stroke among
    -- Every row ends where the last one does, or before.
    obtain ⟨row, inside, rfl⟩ := List.mem_map.mp among
    obtain ⟨low, high⟩ := List.mem_range'_1.mp inside
    obtain ⟨-, fits⟩ := reach (first + count - 1) (by omega)
    have rows := Nat.mul_le_mul_right (lineStride fb double) (show row ≤ first + count - 1 by omega)
    refine Or.inr ?_
    rw [rowStroke]
    dsimp only
    rw [lineBytes_length (four row), place row inside, ← pixelPlace_add]
    rw [pixelPlace] at fits ⊢
    omega
  · -- Rows lie one behind the other.
    rw [rowStrokes, List.pairwise_map]
    refine List.Pairwise.imp_of_mem ?_ (List.pairwise_lt_range' 1 (by decide))
    intro row later inside also before j covers again
    rw [rowStroke_covers four, place _ inside] at covers
    rw [rowStroke_covers four, place _ also] at again
    have row := pixelPlace_row wide double shown before
    rw [pixelPlace_add] at row
    rw [pixelPlace] at again
    omega
  · intro j byte
    constructor
    · -- A byte of a pixel is in the run of its row, at the place of its column.
      rintro ⟨px, py, k, ⟨⟨left, right⟩, low, high⟩, few, rfl, same⟩
      have inside : py ∈ List.range' first count := List.mem_range'_1.mpr ⟨low, high⟩
      obtain ⟨col, rfl⟩ : ∃ col, px = x.toNat + col := ⟨px - x.toNat, by omega⟩
      refine ⟨_, List.mem_map_of_mem inside, ?_, ?_⟩
      · rw [rowStroke_covers four, place py inside, pixelPlace_add]
        omega
      · rw [rowStroke]
        dsimp only
        have offset : pixelPlace fb double (x.toNat + col) py + k - pixelPlace fb double x.toNat py = 4 * col + k := by
          rw [pixelPlace_add]
          omega
        rw [place py inside, offset, lineBytes_getElem? (four py) (by omega)]
        dsimp only at same
        rw [Nat.add_sub_cancel_left] at same
        have pixel : (4 * col + k) / 4 = col := by omega
        have part : (4 * col + k) % 4 = k := by omega
        rw [pixel, part, same]
    · -- A byte of a run belongs to the pixel of its column.
      rintro ⟨stroke, among, covers, same⟩
      obtain ⟨row, inside, rfl⟩ := List.mem_map.mp among
      obtain ⟨low, high⟩ := List.mem_range'_1.mp inside
      rw [rowStroke_covers four, place row inside] at covers
      rw [rowStroke] at same
      dsimp only at same
      rw [place row inside, lineBytes_getElem? (four row) (by omega)] at same
      refine ⟨x.toNat + (j - pixelPlace fb double x.toNat row) / 4, row,
        (j - pixelPlace fb double x.toNat row) % 4, ⟨⟨by omega, by omega⟩, low, high⟩, by omega, ?_, ?_⟩
      · rw [pixelPlace_add]
        omega
      · dsimp only
        rw [Nat.add_sub_cancel_left]
        exact same

/-- A rectangle of the screen that is drawn as it should be has its last row in reach. -/
theorem rowStrokes_reach (shown : x.toNat + w ≤ fb.width.toNat) (rows : first + count < 2 ^ 32) (some : 0 < w)
    (paints : Paints (bufferSize fb double) ((rowStrokes fb double x w bytes first count).foldlM lay)
      (PixelCells fb double (InRows x.toNat w first count) fun px py => bytes py (px - x.toNat)))
    {last : Nat} (there : first ≤ last) (final : last + 1 = first + count) :
    RowInReach fb double x.toNat (x.toNat + w) last := by
  obtain ⟨long, word⟩ := lineStride_wide wide double
  -- Every byte of the last row is one of the cells.
  have cell : ∀ col < w, ∀ k < 4, ∃ byte, PixelCells fb double (InRows x.toNat w first count)
      (fun px py => bytes py (px - x.toNat)) (pixelPlace fb double (x.toNat + col) last + k) byte := by
    intro col inside k few
    have enough : k < (bytes last (x.toNat + col - x.toNat)).length := by rw [four]; exact few
    exact ⟨_, x.toNat + col, last, k, ⟨⟨by omega, by omega⟩, there, by omega⟩, few, rfl,
      List.getElem?_eq_getElem enough⟩
  constructor
  · by_contra unreached
    obtain ⟨byte, start⟩ := cell 0 some 0 (by decide)
    obtain ⟨-, stroke, among, covers⟩ := paints.covered start
    obtain ⟨row, inside, rfl⟩ := List.mem_map.mp among
    obtain ⟨low, high⟩ := List.mem_range'_1.mp inside
    rw [rowStroke_covers four, Nat.add_zero, Nat.add_zero] at covers
    obtain ⟨placed, wrapped⟩ := pixelStart_place wide double (show x.toNat ≤ fb.width.toNat by omega)
      (show row < 2 ^ 32 by omega)
    by_cases reached : StartReached fb double x.toNat row
    · -- A row whose start is reached is not the last one, and ends in front of it.
      have before : row < last := by
        refine Nat.lt_of_le_of_ne (by omega) fun same => unreached ?_
        rw [← same]
        exact reached
      have behind := pixelPlace_row wide double shown before
      rw [pixelPlace_add, ← placed reached] at behind
      rw [pixelPlace] at covers
      omega
    · -- A row whose start wrapped is drawn far in front of where it should be.
      have far := wrapped reached
      have rows := Nat.mul_le_mul_right (lineStride fb double) (show row ≤ last by omega)
      rw [pixelPlace] at far covers
      have limit := fb.pitch.toNat_lt
      omega
  · obtain ⟨col, rfl⟩ : ∃ col, w = col + 1 := ⟨w - 1, by omega⟩
    -- The last byte of the last pixel is in the buffer.
    obtain ⟨byte, furthest⟩ := cell col (Nat.lt_succ_self col) 3 (by decide)
    obtain ⟨inside, -⟩ := paints.covered furthest
    rw [pixelPlace_add] at inside ⊢
    omega

/-- A rectangle of the screen is drawn as it should be just when its last row is in reach. -/
theorem rowStrokes_paints_iff (shown : x.toNat + w ≤ fb.width.toNat) (rows : first + count < 2 ^ 32) (some : 0 < w)
    {last : Nat} (there : first ≤ last) (final : last + 1 = first + count) :
    Paints (bufferSize fb double) ((rowStrokes fb double x w bytes first count).foldlM lay)
        (PixelCells fb double (InRows x.toNat w first count) fun px py => bytes py (px - x.toNat)) ↔
      RowInReach fb double x.toNat (x.toNat + w) last := by
  -- The last row reaches furthest, so it alone decides whether the rectangle stays inside.
  refine ⟨fun paints => rowStrokes_reach wide four shown rows some paints there final, fun reach => ?_⟩
  refine rowStrokes_paint wide four shown rows fun other same => ?_
  obtain rfl : other = last := by omega
  exact reach

/-- A run that is not cut off at the right side of the screen leaves its columns. -/
theorem rowStrokes_overrun {cells : Nat → UInt8 → Prop} (beside : 1 ≤ x.toNat) (shown : x.toNat ≤ fb.width.toNat)
    (long : 2 ^ 32 ≤ x.toNat + w) (some : 0 < count)
    (columns : ∀ j byte, cells j byte →
      ∃ px py k, x.toNat ≤ px ∧ px < fb.width.toNat ∧ k < 4 ∧ j = pixelPlace fb double px py + k) :
    ¬ Paints (bufferSize fb double) ((rowStrokes fb double x w bytes first count).foldlM lay) cells := by
  intro paints
  obtain ⟨rowLong, word⟩ := lineStride_wide wide double
  have limit := fb.pitch.toNat_lt
  have among : rowStroke fb double x w bytes first ∈ rowStrokes fb double x w bytes first count :=
    List.mem_map_of_mem (List.mem_range'_1.mpr ⟨Nat.le_refl first, by omega⟩)
  -- The run is so long that it covers the first byte of some row, and no pixel of the columns is there.
  have covers : (rowStroke fb double x w bytes first).Covers
      ((pixelStart fb double x (UInt32.ofNat first) / lineStride fb double + 1) * lineStride fb double) := by
    rw [rowStroke_covers four, Nat.add_mul, Nat.one_mul]
    have positive : 0 < lineStride fb double := by omega
    have below := Nat.div_mul_le_self (pixelStart fb double x (UInt32.ofNat first)) (lineStride fb double)
    have above := Nat.lt_div_mul_add positive (a := pixelStart fb double x (UInt32.ofNat first))
    omega
  obtain ⟨byte, cell⟩ := paints.cell among covers
  obtain ⟨px, py, k, left, right, few, same⟩ := columns _ byte cell
  rw [pixelPlace] at same
  -- The pixels of the rows before end in front of that byte, and those of the rows behind start after it.
  rcases Nat.lt_or_ge py (pixelStart fb double x (UInt32.ofNat first) / lineStride fb double + 1) with before | behind
  · have rows := Nat.mul_le_mul_right (lineStride fb double) (show py + 1 ≤ _ from before)
    rw [Nat.add_mul py, Nat.one_mul] at rows
    omega
  · have rows := Nat.mul_le_mul_right (lineStride fb double) behind
    omega

omit wide in
/-- Where no pixel should be drawn, no run may be. -/
theorem rowStrokes_none {cells : Nat → UInt8 → Prop} (none : ∀ j byte, ¬ cells j byte) (some : 0 < count)
    (paints : Paints (bufferSize fb double) ((rowStrokes fb double x w bytes first count).foldlM lay) cells) :
    w = 0 := by
  by_contra drawn
  have among : rowStroke fb double x w bytes first ∈ rowStrokes fb double x w bytes first count :=
    List.mem_map_of_mem (List.mem_range'_1.mpr ⟨Nat.le_refl first, by omega⟩)
  -- The first byte of a run that is not empty would be a pixel.
  obtain ⟨byte, cell⟩ := paints.cell among ((rowStroke_covers four first _).mpr ⟨Nat.le_refl _, by omega⟩)
  exact none _ byte cell

end

section

variable {limit start length : UInt32} (inside : start ≤ limit)

include inside

/-- Without a wrap a length is cut off exactly. -/
theorem clip_exact (fits : start.toNat + length.toNat < 2 ^ 32) :
    start.toNat + (clip limit start length).toNat = min (start.toNat + length.toNat) limit.toNat := by
  -- Without a wrap the test compares the true end with the limit.
  have below := UInt32.le_iff_toNat_le.mp inside
  have sum : (start + length).toNat = start.toNat + length.toNat := by
    rw [UInt32.toNat_add, Nat.mod_eq_of_lt fits]
  rw [clip]
  split_ifs with past
  · rw [UInt32.lt_iff_toNat_lt, sum] at past
    rw [UInt32.toNat_sub_of_le _ _ inside]
    omega
  · rw [UInt32.lt_iff_toNat_lt, sum] at past
    omega

/-- A length of zero stays zero. -/
theorem clip_zero : clip limit start 0 = 0 := by
  rw [clip, UInt32.add_zero, if_neg (UInt32.not_lt.mpr inside)]

/-- A sum that wraps passes the limit unseen. -/
theorem clip_wrapped (wraps : 2 ^ 32 ≤ start.toNat + length.toNat) : clip limit start length = length := by
  -- A wrapped sum is below the start, so that the test does not see that the end is past the limit.
  have below := UInt32.le_iff_toNat_le.mp inside
  have word := length.toNat_lt
  have other := start.toNat_lt
  have sum : (start + length).toNat < start.toNat := by
    rw [UInt32.toNat_add]
    omega
  rw [clip, if_neg]
  rw [UInt32.lt_iff_toNat_lt]
  omega

end

/-- Rows without pixels, or no rows at all, change nothing. -/
theorem rowStrokes_blank {fb : FramebufferInfo} {double : Bool} {x : UInt32} {w first count : Nat}
    {bytes : Nat → Nat → List UInt8} (empty : w = 0 ∨ count = 0) (block : List UInt8) :
    (rowStrokes fb double x w bytes first count).foldlM lay block = .ok block := by
  refine layAll_blank fun stroke among => ?_
  obtain ⟨row, inside, rfl⟩ := List.mem_map.mp among
  -- Without a column every stroke is empty, and without a row there is no stroke.
  rcases empty with rfl | rfl
  · rfl
  · exact absurd inside List.not_mem_nil

/-- A rectangle that is partly on the screen is drawn row by row. -/
theorem fbFillRect_eq {fb : FramebufferInfo} {double : Bool} {x y w h color : UInt32} (ready : fbReady fb = true)
    (column : x < fb.width) (row : y < fb.height) :
    fbFillRect fb double x y w h color =
      (rowStrokes fb double x (clip fb.width x w).toNat (fun _ _ => colorBytes color) y.toNat
        ((y + clip fb.height y h).toNat - y.toNat)).foldlM lay := by
  -- Both tests on the start fail, and each turn of the loop lays one run of bytes.
  funext block
  rw [fbFillRect, if_neg (by simp [ready, UInt32.not_le.mpr column, UInt32.not_le.mpr row]), rowStrokes,
    List.foldlM_map]
  dsimp only
  refine foldlM_same (fun row _ block => ?_) block
  exact storeLine_eq (fun _ => colorBytes_length color) _ _ block

/-- A rectangle of no pixels on the screen has no cells. -/
theorem no_cells {fb : FramebufferInfo} {double : Bool} {x y w h : UInt32} {bytes : Nat → Nat → List UInt8}
    (none : fb.width ≤ x ∨ fb.height ≤ y ∨ w = 0 ∨ h = 0) (j : Nat) (byte : UInt8) :
    ¬ PixelCells fb double (OnScreen fb x y w h) bytes j byte := by
  -- Outside, or without an extent, no pixel of the rectangle is on the screen.
  rintro ⟨px, py, k, ⟨⟨left, right⟩, low, high⟩, -⟩
  rcases none with aside | below | rfl | rfl
  · have := UInt32.le_iff_toNat_le.mp aside
    omega
  · have := UInt32.le_iff_toNat_le.mp below
    omega
  · rw [show (0 : UInt32).toNat = 0 from rfl] at right
    omega
  · rw [show (0 : UInt32).toNat = 0 from rfl] at high
    omega

/-- The cells of a rectangle are in its columns of the screen. -/
theorem cell_column {fb : FramebufferInfo} {double : Bool} {x y w h : UInt32} {bytes : Nat → Nat → List UInt8}
    {j : Nat} {byte : UInt8} (cell : PixelCells fb double (OnScreen fb x y w h) bytes j byte) :
    ∃ px py k, x.toNat ≤ px ∧ px < fb.width.toNat ∧ k < 4 ∧ j = pixelPlace fb double px py + k := by
  -- The cell names its pixel, whose column is on the screen.
  obtain ⟨px, py, k, ⟨⟨first, last⟩, -⟩, few, rfl, -⟩ := cell
  exact ⟨px, py, k, first, by omega, few, rfl⟩

/-- Of a rectangle whose start is on the screen the first pixel is drawn. -/
theorem first_cell {fb : FramebufferInfo} {double : Bool} {x y w h : UInt32} {bytes : Nat → Nat → List UInt8}
    (four : ∀ px py, (bytes px py).length = 4) (column : x < fb.width) (row : y < fb.height) (columns : w ≠ 0)
    (rows : h ≠ 0) :
    ∃ j byte, PixelCells fb double (OnScreen fb x y w h) bytes j byte := by
  -- The corner where the rectangle starts is on the screen, and its first byte is a cell.
  have left := UInt32.lt_iff_toNat_lt.mp column
  have top := UInt32.lt_iff_toNat_lt.mp row
  have some : w.toNat ≠ 0 := fun none => columns (UInt32.toNat_inj.mp none)
  have more : h.toNat ≠ 0 := fun none => rows (UInt32.toNat_inj.mp none)
  have enough : 0 < (bytes x.toNat y.toNat).length := by rw [four]; decide
  exact ⟨_, _, x.toNat, y.toNat, 0, ⟨⟨Nat.le_refl _, by omega⟩, Nat.le_refl _, by omega⟩, by decide, rfl,
    List.getElem?_eq_getElem enough⟩

/-- The rectangles that are clipped exactly.

Either nothing of them is to be drawn, or no sum of a start and a length wraps and the last row is in reach. -/
def ClipsExactly (fb : FramebufferInfo) (double : Bool) (x y w h : UInt32) : Prop :=
  (fb.width ≤ x ∨ fb.height ≤ y ∨ w = 0 ∨ h = 0) ∨
    (x.toNat + w.toNat < 2 ^ 32 ∧ y.toNat + h.toNat < 2 ^ 32 ∧
      RowInReach fb double x.toNat (min (x.toNat + w.toNat) fb.width.toNat)
        (min (y.toNat + h.toNat) fb.height.toNat - 1))

instance (fb : FramebufferInfo) (double : Bool) (x y w h : UInt32) : Decidable (ClipsExactly fb double x y w h) :=
  inferInstanceAs (Decidable (_ ∨ _))

/-- A rectangle of no pixels on the screen changes nothing. -/
theorem fbFillRect_nothing {fb : FramebufferInfo} {double : Bool} {x y w h color : UInt32} (ready : fbReady fb = true)
    (nothing : fb.width ≤ x ∨ fb.height ≤ y ∨ w = 0 ∨ h = 0) (block : List UInt8) :
    fbFillRect fb double x y w h color block = .ok block := by
  by_cases outside : fb.width ≤ x ∨ fb.height ≤ y
  · rw [fbFillRect, if_pos (Or.inr outside)]
  · simp only [not_or, UInt32.not_le] at outside
    rw [fbFillRect_eq ready outside.1 outside.2]
    -- A clipped length of zero is zero.
    apply rowStrokes_blank
    rcases nothing with aside | below | rfl | rfl
    · exact absurd outside.1 (UInt32.not_lt.mpr aside)
    · exact absurd outside.2 (UInt32.not_lt.mpr below)
    · rw [clip_zero (UInt32.le_of_lt outside.1)]
      exact Or.inl rfl
    · rw [clip_zero (UInt32.le_of_lt outside.2), UInt32.add_zero]
      exact Or.inr (Nat.sub_self _)

/--
A rectangle draws precisely its pixels on the screen just when it is one of those that are clipped exactly.

A width whose sum wraps is not cut off and runs over the right side, and a height whose sum wraps draws nothing.
-/
theorem fill_clipped_iff {fb : FramebufferInfo} {double : Bool} {x y w h color : UInt32} (ready : fbReady fb = true)
    (wide : 4 * fb.width.toNat ≤ fb.pitch.toNat) :
    Paints (bufferSize fb double) (fbFillRect fb double x y w h color)
        (PixelCells fb double (OnScreen fb x y w h) fun _ _ => colorBytes color) ↔
      ClipsExactly fb double x y w h := by
  rw [ClipsExactly]
  by_cases nothing : fb.width ≤ x ∨ fb.height ≤ y ∨ w = 0 ∨ h = 0
  · exact iff_of_true (paints_nothing (fbFillRect_nothing ready nothing) (no_cells nothing)) (Or.inl nothing)
  · rw [or_iff_right nothing]
    simp only [not_or, UInt32.not_le] at nothing
    obtain ⟨column, row, columns, rows⟩ := nothing
    rw [fbFillRect_eq ready column row]
    have four : ∀ row col : Nat, (colorBytes color).length = 4 := fun _ _ => colorBytes_length color
    have left := UInt32.lt_iff_toNat_lt.mp column
    have top := UInt32.lt_iff_toNat_lt.mp row
    have high := fb.height.toNat_lt
    have more : h.toNat ≠ 0 := fun none => rows (UInt32.toNat_inj.mp none)
    have some : w.toNat ≠ 0 := fun none => columns (UInt32.toNat_inj.mp none)
    by_cases tall : 2 ^ 32 ≤ y.toNat + h.toNat
    · -- The last row lies in front of the first one, and nothing is drawn.
      refine iff_of_false (fun paints => ?_) (by omega)
      have below := h.toNat_lt
      have before : (y + h).toNat - y.toNat = 0 := by
        rw [UInt32.toNat_add]
        omega
      rw [clip_wrapped (UInt32.le_of_lt row) tall, before] at paints
      obtain ⟨j, byte, cell⟩ := @first_cell fb double x y w h _ four column row columns rows
      obtain ⟨-, stroke, among, -⟩ := paints.covered cell
      exact absurd among List.not_mem_nil
    have bottom := clip_exact (UInt32.le_of_lt row) (Nat.lt_of_not_le tall)
    have count : (y + clip fb.height y h).toNat - y.toNat = min (y.toNat + h.toNat) fb.height.toNat - y.toNat := by
      rw [UInt32.toNat_add, bottom, Nat.mod_eq_of_lt (by omega)]
    -- The rows are right, and it is the width that decides.
    rw [count]
    by_cases broad : 2 ^ 32 ≤ x.toNat + w.toNat
    · -- The width is not cut off.
      refine iff_of_false ?_ (by omega)
      have below := w.toNat_lt
      rw [clip_wrapped (UInt32.le_of_lt column) broad]
      exact rowStrokes_overrun wide four (by omega) (by omega) broad (by omega) fun j byte => cell_column
    · -- Without a wrap the pixels are those of the clipped rectangle, and its last row decides.
      have right := clip_exact (UInt32.le_of_lt column) (Nat.lt_of_not_le broad)
      have same : OnScreen fb x y w h = InRows x.toNat (clip fb.width x w).toNat y.toNat
          (min (y.toNat + h.toNat) fb.height.toNat - y.toNat) := by
        funext px py
        rw [OnScreen, InRows, right, Nat.add_sub_cancel' (by omega)]
      rw [same, rowStrokes_paints_iff wide four (by omega) (by omega) (by omega)
        (show y.toNat ≤ min (y.toNat + h.toNat) fb.height.toNat - 1 by omega) (by omega), right]
      rw [and_iff_right (show _ < 2 ^ 32 by omega), and_iff_right (show _ < 2 ^ 32 by omega)]

/-- The first row of a screen of two by two pixels is drawn by a rectangle that reaches past its right side. -/
theorem row_clipped :
    let fb : FramebufferInfo := ⟨0xFD000000, 8, 2, 2, 32⟩
    Paints (bufferSize fb true) (fbFillRect fb true 0 0 5 1 0x00FFFFFF)
      (PixelCells fb true (OnScreen fb 0 0 5 1) fun _ _ => colorBytes 0x00FFFFFF) :=
  (@fill_clipped_iff ⟨0xFD000000, 8, 2, 2, 32⟩ true 0 0 5 1 0x00FFFFFF rfl (by decide)).mpr (by decide)

/-- A rectangle whose right side wraps is not cut off. -/
theorem wrapped_rectangle_unclipped :
    ¬ ∀ (fb : FramebufferInfo) (double : Bool) (x y w h color : UInt32), fbReady fb = true →
      4 * fb.width.toNat ≤ fb.pitch.toNat →
      Paints (bufferSize fb double) (fbFillRect fb double x y w h color)
        (PixelCells fb double (OnScreen fb x y w h) fun _ _ => colorBytes color) := by
  intro claim
  -- With x = 1 and a width of 2³² − 1 the sum wraps to 0, so nothing is clipped.
  have paints := claim ⟨0xFD000000, 8, 2, 2, 32⟩ false 1 0 0xFFFFFFFF 1 0 rfl (by decide)
  rw [fbFillRect_eq rfl (by decide) (by decide)] at paints
  exact rowStrokes_overrun (by decide) (fun _ _ => rfl) (by decide) (by decide) (by decide) (by decide)
    (fun j byte => cell_column) paints

/-- The bytes of a pixel of the source, without overflow. -/
def sourceAt (src : Nat → UInt8) (srcPitch : UInt32) (col row : Nat) : List UInt8 :=
  let start := row * srcPitch.toNat + 4 * col
  [src start, src (start + 1), src (start + 2), src (start + 3)]

/-- A length that is cut off stays so. -/
theorem clip_clip (limit start length : UInt32) :
    clip limit start (clip limit start length) = clip limit start length := by
  rw [clip, clip]
  -- A start past the limit clips to nothing, and a clipped length stays as it is.
  split_ifs with past again
  · rfl
  · rfl
  · rfl

/-- The rows of a picture are drawn one by one, all with the width of the first. -/
theorem blitLoop_eq {fb : FramebufferInfo} {double : Bool} {dx dy srcPitch row w : UInt32} {src : Nat → UInt8}
    {turns : Nat} (shown : dy.toNat + row.toNat ≤ fb.height.toNat) (block : List UInt8) :
    blitLoop fb double dx dy src srcPitch turns row w block =
      (rowStrokes fb double dx (clip fb.width dx w).toNat
        (fun py => sourcePixel src srcPitch (UInt32.ofNat (py - dy.toNat))) (dy.toNat + row.toNat)
        (min turns (fb.height.toNat - (dy.toNat + row.toNat)))).foldlM lay block := by
  induction turns generalizing row w block with
  | zero =>
    rw [Nat.zero_min]
    rfl
  | succ turns ih =>
    have limit := fb.height.toNat_lt
    have sum : (dy + row).toNat = dy.toNat + row.toNat := by
      rw [UInt32.toNat_add, Nat.mod_eq_of_lt (by omega)]
    have place : UInt32.ofNat (dy.toNat + row.toNat) = dy + row := by rw [← sum, UInt32.ofNat_toNat]
    rw [blitLoop]
    -- A row above the bottom edge is one stroke, and the loop goes on with one row less.
    by_cases below : dy + row < fb.height
    · have before := UInt32.lt_iff_toNat_lt.mp below
      have next : (row + 1).toNat = row.toNat + 1 := by
        rw [UInt32.toNat_add, show (1 : UInt32).toNat = 1 from rfl, Nat.mod_eq_of_lt (by omega)]
      have fewer : min (turns + 1) (fb.height.toNat - (dy.toNat + row.toNat)) =
          min turns (fb.height.toNat - (dy.toNat + (row.toNat + 1))) + 1 := by omega
      rw [if_pos below, fewer, rowStrokes, List.range'_succ, List.map_cons, List.foldlM_cons]
      dsimp only
      rw [storeLine_eq (fun _ => rfl)]
      -- The stroke of the turn is the first of the rows.
      have first : (⟨pixelStart fb double dx (dy + row),
          lineBytes (sourcePixel src srcPitch row) (clip fb.width dx w).toNat⟩ : Stroke) =
            rowStroke fb double dx (clip fb.width dx w).toNat
              (fun py => sourcePixel src srcPitch (UInt32.ofNat (py - dy.toNat))) (dy.toNat + row.toNat) := by
        rw [rowStroke, place, Nat.add_sub_cancel_left, UInt32.ofNat_toNat]
      -- The next row starts from the width that this one has cut off.
      rw [clip] at first
      rw [first]
      refine congrArg _ (funext fun middle => ?_)
      have rest := @ih (row + 1) (clip fb.width dx w) (by omega) middle
      rw [clip_clip, next, rowStrokes, clip] at rest
      exact rest
    · -- The row behind the last one of the screen ends the loop.
      have last : fb.height.toNat - (dy.toNat + row.toNat) = 0 := by
        rw [UInt32.lt_iff_toNat_lt] at below
        omega
      rw [if_neg below, last, Nat.min_zero]
      rfl

/-- The number of rows that are drawn of a picture that starts on the screen. -/
def blitRows (fb : FramebufferInfo) (dy h : UInt32) : Nat := min h.toNat (fb.height.toNat - dy.toNat)

/-- A picture is drawn row by row. -/
theorem fbBlit_eq {fb : FramebufferInfo} {double : Bool} {dx dy w h srcPitch : UInt32} {src : Nat → UInt8}
    (ready : fbReady fb = true) (row : dy ≤ fb.height) :
    fbBlit fb double dx dy w h (some src) srcPitch =
      (rowStrokes fb double dx (clip fb.width dx w).toNat
        (fun py => sourcePixel src srcPitch (UInt32.ofNat (py - dy.toNat)))
        dy.toNat (blitRows fb dy h)).foldlM lay := by
  -- The loop starts at the first row, and each turn of it lays one run.
  funext block
  have ran := @blitLoop_eq fb double dx dy srcPitch 0 w src h.toNat (UInt32.le_iff_toNat_le.mp row) block
  rw [show (0 : UInt32).toNat = 0 from rfl, Nat.add_zero] at ran
  rw [fbBlit.eq_def]
  dsimp only
  rw [if_pos ready, ran, blitRows]

/-- Pixels with the same bytes have the same cells. -/
theorem pixelCells_congr {fb : FramebufferInfo} {double : Bool} {inside : Nat → Nat → Prop}
    {bytes others : Nat → Nat → List UInt8} (same : ∀ px py, inside px py → bytes px py = others px py) :
    PixelCells fb double inside bytes = PixelCells fb double inside others := by
  funext j byte
  -- A cell reads the bytes of its own pixel only.
  refine propext (exists_congr fun px => exists_congr fun py => exists_congr fun k => ?_)
  refine and_congr_right fun among => ?_
  rw [same px py among]

/-- Where the product does not wrap, the pixel is read from where it is in the source. -/
theorem sourcePixel_eq {src : Nat → UInt8} {srcPitch : UInt32} {row : Nat} (fits : row * srcPitch.toNat < 2 ^ 32)
    (word : row < 2 ^ 32) (col : Nat) :
    sourcePixel src srcPitch (UInt32.ofNat row) col = sourceAt src srcPitch col row := by
  have same : (UInt32.ofNat row).toNat = row := UInt32.toNat_ofNat_of_lt word
  rw [sourcePixel, sourceAt, UInt32.toNat_mul, same, Nat.mod_eq_of_lt fits]

/-- The pictures that are copied exactly.

Either no row of them is on the screen. Or the start is not behind the right side and its sum with the width does not
wrap; and then no column is on the screen, or the last row is in reach, in the buffer and in the source. -/
def BlitsExactly (fb : FramebufferInfo) (double : Bool) (dx dy w h srcPitch : UInt32) : Prop :=
  (fb.height ≤ dy ∨ h = 0) ∨
    ((dx ≤ fb.width ∧ dx.toNat + w.toNat < 2 ^ 32) ∧
      ((dx = fb.width ∨ w = 0) ∨
        (RowInReach fb double dx.toNat (min (dx.toNat + w.toNat) fb.width.toNat)
            (dy.toNat + (blitRows fb dy h - 1)) ∧
          (blitRows fb dy h - 1) * srcPitch.toNat < 2 ^ 32)))

instance (fb : FramebufferInfo) (double : Bool) (dx dy w h srcPitch : UInt32) :
    Decidable (BlitsExactly fb double dx dy w h srcPitch) :=
  inferInstanceAs (Decidable (_ ∨ _))

/-- The cells that a picture should have on the screen. -/
def BlitCells (fb : FramebufferInfo) (double : Bool) (dx dy w h srcPitch : UInt32) (src : Nat → UInt8) :
    Nat → UInt8 → Prop :=
  PixelCells fb double (OnScreen fb dx dy w h) fun px py => sourceAt src srcPitch (px - dx.toNat) (py - dy.toNat)

section

variable {fb : FramebufferInfo} {double : Bool} {dx dy w h srcPitch : UInt32} (ready : fbReady fb = true)
  (wide : 4 * fb.width.toNat ≤ fb.pitch.toNat)

include ready wide

omit wide in
/-- A picture without rows on the screen changes nothing. -/
theorem fbBlit_rowless (rowless : fb.height ≤ dy ∨ h = 0) (src : Nat → UInt8) (block : List UInt8) :
    fbBlit fb double dx dy w h (some src) srcPitch block = .ok block := by
  -- The first row ends the copy already, or there is none.
  rw [fbBlit.eq_def]
  dsimp only
  rw [if_pos ready]
  rcases rowless with below | rfl
  · cases h.toNat with
    | zero => rfl
    | succ turns => rw [blitLoop, UInt32.add_zero, if_neg (UInt32.not_lt.mpr below)]
  · rfl

omit wide in
/-- A picture without columns on the screen changes nothing. -/
theorem fbBlit_columnless (row : dy < fb.height) (column : dx ≤ fb.width) (fits : dx.toNat + w.toNat < 2 ^ 32)
    (columnless : dx = fb.width ∨ w = 0) (src : Nat → UInt8) (block : List UInt8) :
    fbBlit fb double dx dy w h (some src) srcPitch block = .ok block := by
  -- The rows that are drawn have no column: the clipped width is zero.
  rw [fbBlit_eq ready (UInt32.le_of_lt row)]
  refine rowStrokes_blank (Or.inl ?_) block
  have exact := clip_exact column fits
  rcases columnless with rfl | rfl
  · omega
  · rw [clip_zero column]
    rfl

/-- Of a picture with a pixel on the screen and no overflow in front of the rows, the rows decide. -/
theorem blit_rows_iff (row : dy < fb.height) (rows : h ≠ 0) (column : dx < fb.width) (columns : w ≠ 0)
    (fits : dx.toNat + w.toNat < 2 ^ 32) :
    (∀ src, Paints (bufferSize fb double) (fbBlit fb double dx dy w h (some src) srcPitch)
        (BlitCells fb double dx dy w h srcPitch src)) ↔
      RowInReach fb double dx.toNat (min (dx.toNat + w.toNat) fb.width.toNat)
          (dy.toNat + (blitRows fb dy h - 1)) ∧
        (blitRows fb dy h - 1) * srcPitch.toNat < 2 ^ 32 := by
  have left := UInt32.lt_iff_toNat_lt.mp column
  have top := UInt32.lt_iff_toNat_lt.mp row
  have high := fb.height.toNat_lt
  have more : h.toNat ≠ 0 := fun none => rows (UInt32.toNat_inj.mp none)
  have some : w.toNat ≠ 0 := fun none => columns (UInt32.toNat_inj.mp none)
  have right := clip_exact (UInt32.le_of_lt column) fits
  have count : blitRows fb dy h = min h.toNat (fb.height.toNat - dy.toNat) := rfl
  have same : OnScreen fb dx dy w h =
      InRows dx.toNat (clip fb.width dx w).toNat dy.toNat (blitRows fb dy h) := by
    funext px py
    rw [OnScreen, InRows, right, count]
    refine propext (and_congr_right fun _ => ?_)
    omega
  -- Whatever the source is, the rows are drawn where they should be just when the last one is in reach.
  have drawn : ∀ src : Nat → UInt8, Paints (bufferSize fb double) (fbBlit fb double dx dy w h (.some src) srcPitch)
        (PixelCells fb double (OnScreen fb dx dy w h) fun px py =>
          sourcePixel src srcPitch (UInt32.ofNat (py - dy.toNat)) (px - dx.toNat)) ↔
      RowInReach fb double dx.toNat (min (dx.toNat + w.toNat) fb.width.toNat)
        (dy.toNat + (blitRows fb dy h - 1)) := by
    intro src
    rw [fbBlit_eq ready (UInt32.le_of_lt row), same, ← right]
    exact @rowStrokes_paints_iff fb double dx _ dy.toNat _ (fun py => sourcePixel src srcPitch
      (UInt32.ofNat (py - dy.toNat))) wide (fun _ _ => rfl) (by omega) (by omega) (by omega) _ (by omega) (by omega)
  constructor
  · intro every
    have reach := (drawn fun _ => 0).mp (every fun _ => 0)
    refine ⟨reach, ?_⟩
    by_contra wraps
    -- A source with one byte that differs, where the last row starts, shows that the row is read elsewhere.
    let src : Nat → UInt8 := fun i => if i = (blitRows fb dy h - 1) * srcPitch.toNat then 1 else 0
    have inside : OnScreen fb dx dy w h dx.toNat (dy.toNat + (blitRows fb dy h - 1)) := by
      rw [same]
      exact ⟨⟨by omega, by omega⟩, by omega, by omega⟩
    have read := (every src).unique ((drawn src).mpr reach) ⟨_, _, 0, inside, by decide, rfl, rfl⟩
      ⟨_, _, 0, inside, by decide, rfl, rfl⟩
    have word : (UInt32.ofNat (blitRows fb dy h - 1)).toNat = blitRows fb dy h - 1 :=
      UInt32.toNat_ofNat_of_lt (show _ < 2 ^ 32 by omega)
    rw [Nat.add_sub_cancel_left, Nat.sub_self, Nat.mul_zero, Nat.add_zero, Nat.add_zero, UInt32.toNat_mul,
      word] at read
    have elsewhere : (blitRows fb dy h - 1) * srcPitch.toNat % 2 ^ 32 ≠ (blitRows fb dy h - 1) * srcPitch.toNat := by
      omega
    simp only [src, if_neg elsewhere, if_true] at read
    exact absurd read (by decide)
  · rintro ⟨reach, fits⟩ src
    have cells : BlitCells fb double dx dy w h srcPitch src = PixelCells fb double (OnScreen fb dx dy w h)
        fun px py => sourcePixel src srcPitch (UInt32.ofNat (py - dy.toNat)) (px - dx.toNat) := by
      refine pixelCells_congr fun px py inside => ?_
      rw [same] at inside
      obtain ⟨-, low, high⟩ := inside
      -- The rows in front of the last one start before it in the source.
      have earlier := Nat.mul_le_mul_right srcPitch.toNat (show py - dy.toNat ≤ blitRows fb dy h - 1 by omega)
      exact (sourcePixel_eq (by omega) (by omega) _).symm
    rw [cells]
    exact (drawn src).mpr reach

/--
A picture is copied precisely to its pixels on the screen just when it is one of those that are copied exactly.

A start behind the right side makes the clipped width wrap, a sum of start and width that wraps is not cut off, and
the start of a row of the source is a product of 32 bits.
-/
theorem blit_clipped_iff :
    (∀ src, Paints (bufferSize fb double) (fbBlit fb double dx dy w h (some src) srcPitch)
        (BlitCells fb double dx dy w h srcPitch src)) ↔
      BlitsExactly fb double dx dy w h srcPitch := by
  rw [BlitsExactly]
  by_cases rowless : fb.height ≤ dy ∨ h = 0
  · refine iff_of_true (fun src => ?_) (Or.inl rowless)
    exact paints_nothing (fbBlit_rowless ready rowless src) (no_cells (by tauto))
  rw [or_iff_right rowless]
  simp only [not_or, UInt32.not_le] at rowless
  obtain ⟨row, rows⟩ := rowless
  have top := UInt32.lt_iff_toNat_lt.mp row
  have more : h.toNat ≠ 0 := fun none => rows (UInt32.toNat_inj.mp none)
  have count : 0 < blitRows fb dy h := by
    rw [blitRows]
    omega
  have drawn := fun src => @fbBlit_eq fb double dx dy w h srcPitch src ready (UInt32.le_of_lt row)
  -- The loop reaches a row, and there the start and the width decide.
  by_cases shown : dx ≤ fb.width ∧ dx.toNat + w.toNat < 2 ^ 32
  · obtain ⟨column, fits⟩ := id shown
    rw [and_iff_right shown]
    by_cases columnless : dx = fb.width ∨ w = 0
    · refine iff_of_true (fun src => ?_) (Or.inl columnless)
      refine paints_nothing (fbBlit_columnless ready row column fits columnless src) (no_cells ?_)
      rcases columnless with rfl | rfl
      · exact Or.inl (UInt32.le_refl _)
      · exact Or.inr (Or.inr (Or.inl rfl))
    · rw [or_iff_right columnless]
      simp only [not_or] at columnless
      exact blit_rows_iff ready wide row rows (UInt32.lt_of_le_of_ne column columnless.1) columnless.2 fits
  · refine iff_of_false (fun every => ?_) fun other => shown other.1
    have paints := every fun _ => 0
    rw [drawn] at paints
    by_cases column : dx ≤ fb.width
    · -- The width is not cut off.
      have wraps : 2 ^ 32 ≤ dx.toNat + w.toNat := Nat.le_of_not_lt fun fits => shown ⟨column, fits⟩
      have word := w.toNat_lt
      have inside := UInt32.le_iff_toNat_le.mp column
      rw [clip_wrapped column wraps] at paints
      exact rowStrokes_overrun wide (fun _ _ => rfl) (by omega) inside wraps count (fun j byte => cell_column) paints
    · -- The width is cut off to a number that wraps, or its sum with the start did.
      have behind := UInt32.lt_iff_toNat_lt.mp (UInt32.not_le.mp column)
      have none := rowStrokes_none (fun _ _ => rfl) (no_cells (Or.inl (UInt32.le_of_lt (UInt32.not_le.mp column))))
        count paints
      have word := dx.toNat_lt
      rw [clip] at none
      split_ifs at none with past
      · rw [UInt32.toNat_sub] at none
        omega
      · rw [UInt32.lt_iff_toNat_lt, UInt32.toNat_add] at past
        omega

end

/-- A picture of two by two pixels, with a number in each byte. -/
def countedPicture (address : Nat) : UInt8 := UInt8.ofNat address

/-- That picture is moved out to the lower right of a screen of its size. -/
theorem corner_blit : Paints 16 (fbBlit ⟨0xFD000000, 8, 2, 2, 32⟩ false 1 1 2 2 (some countedPicture) 8)
    (BlitCells ⟨0xFD000000, 8, 2, 2, 32⟩ false 1 1 2 2 8 countedPicture) :=
  (@blit_clipped_iff ⟨0xFD000000, 8, 2, 2, 32⟩ false 1 1 2 2 8 rfl (by decide)).mpr (by decide) countedPicture

/-- A picture that starts behind the right side is not kept from the screen. -/
theorem blit_behind_side :
    ¬ ∀ (fb : FramebufferInfo) (double : Bool) (dx dy w h srcPitch : UInt32), fbReady fb = true →
      4 * fb.width.toNat ≤ fb.pitch.toNat → ∀ src,
      Paints (bufferSize fb double) (fbBlit fb double dx dy w h (some src) srcPitch)
        (BlitCells fb double dx dy w h srcPitch src) := by
  intro claim
  -- The column 3 lies behind a width of 2, where the width that is left wraps below zero.
  have paints := claim ⟨0xFD000000, 8, 2, 2, 32⟩ false 3 0 1 1 4 rfl (by decide) fun _ => 0
  rw [fbBlit_eq rfl (by decide)] at paints
  have none := rowStrokes_none (fun _ _ => rfl) (no_cells (Or.inl (by decide))) (by decide) paints
  exact absurd none (by decide)

end MiraOS

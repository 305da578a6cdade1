import MiraOS.Drivers.Framebuffer
import MiraOS.Machine.DigitalCircle
import MiraOS.Machine.Signed

/-! Circles on the screen, as in drivers/framebuffer.c: which radii are drawn within a pixel of the circle. -/

namespace MiraOS

open Machine

/-- The loop over an octant of a circle, with the offsets that it visits. -/
def circleLoop : Nat → Int → Int → Int → Except Halt (List (Int × Int))
  | 0, _, _, _ => .error .outOfFuel
  | fuel + 1, x, y, err =>
    if y ≤ x then do
      -- The row counts up before it is used for the error.
      let row := wrap32 (y + 1)
      -- The second test reads the error that the first one may have changed.
      let err := if err ≤ 0 then wrap32 (err + (2 * row + 1)) else err
      let (column, err) :=
        if 0 < err then (wrap32 (x - 1), wrap32 (err - (2 * wrap32 (x - 1) + 1))) else (x, err)
      let rest ← circleLoop fuel column row err
      return (x, y) :: rest
    else .ok []

/-- The offsets that are visited for a radius. -/
def circleOffsets (fuel : Nat) (radius : UInt32) : Except Halt (List (Int × Int)) :=
  circleLoop fuel (wrap32 radius.toNat) 0 0

/-- What is drawn for an offset: its eight reflections, or the rows between them. -/
def circleCalls (cx cy color : UInt32) (filled : Bool) (offset : Int × Int) : List FbCall :=
  let x := UInt32.ofInt offset.1
  let y := UInt32.ofInt offset.2
  if filled then
    -- One row for each pair of reflections, from side to side.
    [.fillRect (cx - x) (cy - y) (2 * x + 1) 1 color, .fillRect (cx - x) (cy + y) (2 * x + 1) 1 color,
      .fillRect (cx - y) (cy - x) (2 * y + 1) 1 color, .fillRect (cx - y) (cy + x) (2 * y + 1) 1 color]
  else
    [.putPixel (cx + x) (cy + y) color, .putPixel (cx + y) (cy + x) color, .putPixel (cx - y) (cy + x) color,
      .putPixel (cx - x) (cy + y) color, .putPixel (cx - x) (cy - y) color, .putPixel (cx - y) (cy - x) color,
      .putPixel (cx + y) (cy - x) color, .putPixel (cx + x) (cy - y) color]

/-- Draw a circle. -/
def fbDrawCircle (fuel : Nat) (fb : FramebufferInfo) (double : Bool) (cx cy radius color : UInt32) (filled : Bool)
    (block : List UInt8) : Except Halt (List UInt8) :=
  if fbReady fb then do
    let offsets ← circleOffsets fuel radius
    (offsets.flatMap (circleCalls cx cy color filled)).foldlM (fun block call => fbDraw fb double call block) block
  else .ok block

/-- The error that the loop carries at an offset. -/
def circleErr (r x y : Nat) : Int := x ^ 2 + y ^ 2 + 2 * y - r ^ 2

/-- What holds in front of every turn of the loop. -/
structure CircleState (r x y : Nat) : Prop where
  -- A column further out would be past the error, and while the loop goes on the column itself is not.
  outside : r ^ 2 < (x + 1) ^ 2 + y ^ 2 + 2 * y
  inside : y ≤ x → x ^ 2 + y ^ 2 + 2 * y ≤ r ^ 2
  column : x ≤ r
  positive : 0 < x ∨ x < y

/-- While the loop goes on, it is at a point of the octant. -/
theorem CircleState.point {r x y : Nat} (state : CircleState r x y) (onward : y ≤ x) : CirclePoint r x y :=
  ⟨onward, state.inside onward, state.outside⟩

/-- Points of the octant in the row of the loop or behind it are visited only while it goes on. -/
theorem CircleState.onward {r x y column row : Nat} (state : CircleState r x y) (point : CirclePoint r column row)
    (behind : y ≤ row) : y ≤ x := by
  obtain ⟨steep, inside, -⟩ := point
  -- Otherwise the column of the point is further out than that of the loop.
  by_contra ended
  have outside := state.outside
  have far : x + 1 ≤ column := by omega
  have squares := Nat.pow_le_pow_left far 2
  have rows := Nat.pow_le_pow_left behind 2
  omega

/-- A row more. -/
theorem circleErr_row (r x y : Nat) : circleErr r x y + (2 * ((y + 1 : Nat) : Int) + 1) = circleErr r x (y + 1) := by
  rw [circleErr, circleErr]
  push_cast
  ring

/-- A column less. -/
theorem circleErr_column (r x y : Nat) : circleErr r (x + 1) y - (2 * (x : Int) + 1) = circleErr r x y := by
  rw [circleErr, circleErr]
  push_cast
  ring

/-- The error is positive once a point is past it. -/
theorem circleErr_pos_iff {r x y : Nat} : 0 < circleErr r x y ↔ r ^ 2 < x ^ 2 + y ^ 2 + 2 * y := by
  rw [circleErr, sub_pos]
  norm_cast

/-- Behind a turn the column is the same one, or the next one inwards where the error would be positive. -/
theorem CircleState.next {r x y : Nat} (state : CircleState r (x + 1) y) (onward : y ≤ x + 1) :
    CircleState r (if 0 < circleErr r (x + 1) (y + 1) then x else x + 1) (y + 1) := by
  have inside := state.inside onward
  have outside := state.outside
  have far := state.column
  have wider : (x + 1 + 1) ^ 2 = x ^ 2 + 4 * x + 4 := by ring
  have wide : (x + 1) ^ 2 = x ^ 2 + 2 * x + 1 := by ring
  have high : (y + 1) ^ 2 = y ^ 2 + 2 * y + 1 := by ring
  -- What the error is at the new row decides whether the column is left.
  split_ifs with past
  · rw [circleErr_pos_iff] at past
    exact ⟨by omega, by omega, by omega, by omega⟩
  · rw [circleErr_pos_iff] at past
    exact ⟨by omega, by omega, by omega, by omega⟩

section

variable {r : Nat} (bound : r < 2 ^ 14)

include bound

/-- The errors of the octant do not overflow. -/
theorem circleErr_fits {x y : Nat} (far : x ≤ r) (high : y ≤ r + 1) : Signed32 (circleErr r x y) := by
  -- Both squares stay below 2^30, so that no sum of them leaves 32 bits.
  have area : r ^ 2 ≤ (2 ^ 14) ^ 2 := Nat.pow_le_pow_left (Nat.le_of_lt bound) 2
  have wide := Nat.pow_le_pow_left far 2
  have rows : y ^ 2 ≤ (2 ^ 14) ^ 2 := Nat.pow_le_pow_left (show y ≤ 2 ^ 14 by omega) 2
  rw [circleErr]
  zify at area wide rows
  have column := sq_nonneg (x : Int)
  have row := sq_nonneg (y : Int)
  exact ⟨by omega, by omega⟩

/-- A turn of the loop at a point of the octant, and where it leads. -/
theorem circleLoop_turn {x y : Nat} (state : CircleState r x y) (onward : y ≤ x) :
    ∃ column, CircleState r column (y + 1) ∧ ∀ fuel, circleLoop (fuel + 1) x y (circleErr r x y) =
      (circleLoop fuel column (y + 1 : Nat) (circleErr r column (y + 1)) >>=
        fun rest => pure (((x : Int), (y : Int)) :: rest)) := by
  have far := state.column
  have positive : 0 < x := state.positive.resolve_right (by omega)
  have inside : ¬ 0 < circleErr r x y := by
    rw [circleErr_pos_iff, Nat.not_lt]
    exact state.inside onward
  -- The column is positive, and so the one further inwards is a number as well.
  obtain ⟨x, rfl⟩ : ∃ less, x = less + 1 := ⟨x - 1, by omega⟩
  refine ⟨_, state.next onward, fun fuel => ?_⟩
  have row : wrap32 ((y : Int) + 1) = (y + 1 : Nat) := wrap32_of_fits ⟨by omega, by omega⟩
  have column : wrap32 ((x + 1 : Nat) - 1) = x := by
    rw [wrap32_of_fits ⟨by omega, by omega⟩]
    omega
  have higher := wrap32_of_fits (circleErr_fits bound far (show y + 1 ≤ r + 1 by omega))
  have inwards := wrap32_of_fits (circleErr_fits bound (show x ≤ r by omega) (show y + 1 ≤ r + 1 by omega))
  rw [circleLoop, if_pos (by omega)]
  dsimp only
  -- In front of a turn the error is not positive, so the row always counts up.
  rw [row, if_pos (Int.not_lt.mp inside), circleErr_row, higher, column, circleErr_column, inwards]
  split_ifs with past
  · rfl
  · rfl

/-- From a state on, the loop visits the points of the octant in the rows that are left, and ends. -/
theorem circleLoop_settles {turns x y : Nat} (state : CircleState r x y) (left : r + 1 ≤ y + turns) :
    ∃ offsets, Settles (fun fuel => circleLoop fuel x y (circleErr r x y)) offsets ∧
      ∀ offset, offset ∈ offsets ↔
        ∃ column row : Nat, CirclePoint r column row ∧ y ≤ row ∧ offset = ((column : Int), (row : Int)) := by
  by_cases onward : y ≤ x
  · -- Every turn takes a row, and the rows up to the radius are enough.
    have far := state.column
    obtain ⟨turns, rfl⟩ : ∃ less, turns = less + 1 := ⟨turns - 1, by omega⟩
    obtain ⟨column, next, turn⟩ := circleLoop_turn bound state onward
    obtain ⟨offsets, settles, every⟩ := @circleLoop_settles turns column (y + 1) next (by omega)
    refine ⟨((x : Int), (y : Int)) :: offsets, ?_, fun offset => ?_⟩
    · exact Settles.later turn (settles.bind (Settles.now fun _ => rfl))
    · rw [List.mem_cons, every]
      constructor
      · rintro (rfl | ⟨outer, row, point, below, rfl⟩)
        · exact ⟨x, y, state.point onward, Nat.le_refl y, rfl⟩
        · exact ⟨outer, row, point, by omega, rfl⟩
      · rintro ⟨outer, row, point, below, rfl⟩
        rcases Nat.eq_or_lt_of_le below with rfl | behind
        · -- The row of the loop has no other point than its own.
          rw [point.unique (state.point onward)]
          exact Or.inl rfl
        · exact Or.inr ⟨outer, row, point, behind, rfl⟩
  · -- Behind the octant the loop ends, and no point is left.
    refine ⟨[], Settles.after 1 fun fuel => ?_, fun offset => ?_⟩
    · rw [circleLoop, if_neg (by omega)]
    · constructor
      · intro among
        exact absurd among List.not_mem_nil
      · rintro ⟨column, row, point, below, -⟩
        exact absurd (state.onward point below) onward

/-- The offsets that are visited for a radius are the points of the octant. -/
theorem circleOffsets_settles (proper : 1 ≤ r) :
    ∃ offsets, Settles (fun fuel => circleOffsets fuel (UInt32.ofNat r)) offsets ∧
      ∀ offset, offset ∈ offsets ↔
        ∃ column row : Nat, CirclePoint r column row ∧ offset = ((column : Int), (row : Int)) := by
  have start : CircleState r r 0 := by
    have wider : (r + 1) ^ 2 = r ^ 2 + 2 * r + 1 := by ring
    exact ⟨by omega, by omega, Nat.le_refl r, Or.inl proper⟩
  obtain ⟨offsets, settles, every⟩ := @circleLoop_settles r bound (r + 1) r 0 start (by omega)
  have word : (UInt32.ofNat r).toNat = r := UInt32.toNat_ofNat_of_lt (show r < 2 ^ 32 by omega)
  have radius : wrap32 r = r := wrap32_of_fits ⟨by omega, by omega⟩
  -- At the first point the error is the zero that the loop starts with.
  have exact : circleErr r r 0 = 0 := by
    rw [circleErr]
    push_cast
    ring
  refine ⟨offsets, ?_, fun offset => ?_⟩
  · simp only [circleOffsets, word, radius]
    rw [exact] at settles
    exact settles
  · rw [every]
    simp only [Nat.zero_le, true_and]

end

/-- An offset within one pixel of the circle. -/
def OffsetNear (radius : UInt32) (offset : Int × Int) : Prop :=
  ((radius.toNat : Int) - 1) ^ 2 ≤ offset.1 ^ 2 + offset.2 ^ 2 ∧
    offset.1 ^ 2 + offset.2 ^ 2 ≤ ((radius.toNat : Int) + 1) ^ 2

instance (radius : UInt32) (offset : Int × Int) : Decidable (OffsetNear radius offset) :=
  inferInstanceAs (Decidable (_ ∧ _))

/-- An offset of the octant is near the circle just when its point is. -/
theorem offsetNear_iff {radius : UInt32} (proper : 1 ≤ radius.toNat) (column row : Nat) :
    OffsetNear radius ((column : Int), (row : Int)) ↔ NearCircle radius.toNat column row := by
  rw [OffsetNear, NearCircle, ← Nat.cast_pred proper]
  dsimp only
  norm_cast

/--
The circle of a radius from one up to 2^14 is accurate just when it is one of seven small ones.

The loop adds two too much to the error in every row, so the points of the other circles drift inwards.
-/
theorem circle_accurate_iff {radius : UInt32} (proper : 1 ≤ radius.toNat) (bound : radius.toNat < 2 ^ 14) :
    (∃ offsets, Settles (fun fuel => circleOffsets fuel radius) offsets ∧
      ∀ offset ∈ offsets, OffsetNear radius offset) ↔ radius.toNat ∈ nearRadii := by
  obtain ⟨visited, ran, every⟩ := circleOffsets_settles bound proper
  rw [UInt32.ofNat_toNat] at ran
  constructor
  · rintro ⟨offsets, settles, near⟩
    -- The loop has one result only, so its offsets are the points of the octant.
    obtain rfl := settles.unique ran
    by_contra other
    -- All of the first three radii are small ones.
    have large : 4 ≤ radius.toNat := by
      by_contra small
      have few : ∀ r ∈ List.range 4, 1 ≤ r → r ∈ nearRadii := by decide
      exact other (few _ (List.mem_range.mpr (by omega)) proper)
    obtain ⟨x, y, point, far⟩ := exists_far large bound other
    exact far ((offsetNear_iff proper x y).mp (near _ ((every _).mpr ⟨x, y, point, rfl⟩)))
  · intro small
    refine ⟨visited, ran, fun offset among => ?_⟩
    obtain ⟨x, y, point, rfl⟩ := (every offset).mp among
    exact (offsetNear_iff proper x y).mpr (near_of_nearRadii small point)

/-- The circle of radius eight is accurate. -/
theorem circle_eight_accurate : ∃ offsets, Settles (fun fuel => circleOffsets fuel 8) offsets ∧
    ∀ offset ∈ offsets, OffsetNear 8 offset :=
  (@circle_accurate_iff 8 (by decide) (by decide)).mpr (by decide)

/-- The circle of radius four is not: its last point is more than a pixel inside. -/
theorem circle_four_inaccurate : circleOffsets 4 4 = .ok [(4, 0), (3, 1), (2, 2)] ∧
    ¬ ∃ offsets, Settles (fun fuel => circleOffsets fuel 4) offsets ∧ ∀ offset ∈ offsets, OffsetNear 4 offset := by
  constructor
  · decide +kernel
  · -- The point (2, 2) is drawn for the radius of 4, and is more than one pixel off.
    rintro ⟨offsets, settles, near⟩
    obtain ⟨visited, ran, every⟩ := @circleOffsets_settles 4 (by decide) (by decide)
    obtain rfl := settles.unique ran
    exact absurd (near (2, 2) ((every _).mpr ⟨2, 2, by decide, rfl⟩)) (by decide)

end MiraOS

import MiraOS.Drivers.Framebuffer
import MiraOS.Machine.DigitalLine
import MiraOS.Machine.Signed

/-! Lines on the screen, as in drivers/framebuffer.c: the points that are drawn follow the straight line. -/

namespace MiraOS

open Machine

/-- The absolute value of a word with a sign. -/
def absInt (x : Int) : Int := if x < 0 then wrap32 (-x) else x

/-- The loop that draws a line, with the points that it draws. -/
def lineLoop (x1 y1 : UInt32) (dx dy : Int) (sx sy : UInt32) :
    Nat → UInt32 → UInt32 → Int → Except Halt (List (UInt32 × UInt32))
  | 0, _, _, _ => .error .outOfFuel
  | fuel + 1, x0, y0, err =>
    if x0 = x1 ∧ y0 = y1 then .ok [(x0, y0)]
    else do
      -- Both steps are decided by the error in front of the first of them.
      let e2 := wrap32 (2 * err)
      let (err, x) := if -dy < e2 then (wrap32 (err - dy), x0 + sx) else (err, x0)
      let (err, y) := if e2 < dx then (wrap32 (err + dx), y0 + sy) else (err, y0)
      let rest ← lineLoop x1 y1 dx dy sx sy fuel x y err
      return (x0, y0) :: rest

/-- The points of a line. -/
def linePoints (fuel : Nat) (x0 y0 x1 y1 : UInt32) : Except Halt (List (UInt32 × UInt32)) :=
  let dx := absInt (wrap32 (wrap32 x1.toNat - wrap32 x0.toNat))
  let dy := absInt (wrap32 (wrap32 y1.toNat - wrap32 y0.toNat))
  -- The directions are added to words without a sign, where minus one is the largest word.
  let sx : UInt32 := if x0 < x1 then 1 else -1
  let sy : UInt32 := if y0 < y1 then 1 else -1
  lineLoop x1 y1 dx dy sx sy fuel x0 y0 (wrap32 (dx - dy))

/-- Draw a line: each of its points, if it is on the screen. -/
def fbDrawLine (fuel : Nat) (fb : FramebufferInfo) (double : Bool) (x0 y0 x1 y1 color : UInt32)
    (block : List UInt8) : Except Halt (List UInt8) := do
  let points ← linePoints fuel x0 y0 x1 y1
  points.foldlM (fun block point => fbWritePixel fb double point.1 point.2 color block) block

/-- The distance of two coordinates. -/
def distance (a b : UInt32) : Nat := ((b.toNat : Int) - a.toNat).natAbs

/-- The coordinate that is a number of steps away from the first one in the direction of the second. -/
def towards (a b : UInt32) (steps : Nat) : UInt32 :=
  if a < b then a + UInt32.ofNat steps else a - UInt32.ofNat steps

/-- Coordinates that are far from overflowing. -/
def SmallCoordinate (a : UInt32) : Prop := a.toNat < 2 ^ 29

instance (a : UInt32) : Decidable (SmallCoordinate a) := inferInstanceAs (Decidable (_ < _))

section

variable {a b : UInt32}

/-- One more step is one more addition of the direction. -/
theorem towards_succ (a b : UInt32) (steps : Nat) :
    towards a b steps + (if a < b then 1 else -1) = towards a b (steps + 1) := by
  rw [towards, towards, UInt32.ofNat_add, show UInt32.ofNat 1 = 1 from rfl]
  split_ifs
  · exact UInt32.add_assoc _ _ _
  · -- Taking one off is adding minus one.
    rw [UInt32.sub_eq_add_neg, UInt32.sub_eq_add_neg, UInt32.neg_add, UInt32.sub_eq_add_neg, UInt32.add_assoc]

/-- Up to the second coordinate the steps stay between both. -/
theorem towards_toNat {steps : Nat} (inside : steps ≤ distance a b) :
    (towards a b steps).toNat = if a < b then a.toNat + steps else a.toNat - steps := by
  have word := a.toNat_lt
  have limit := b.toNat_lt
  rw [distance] at inside
  -- So few steps are a word, and their sum with the start is one as well.
  have small : (UInt32.ofNat steps).toNat = steps := UInt32.toNat_ofNat_of_lt (show steps < 2 ^ 32 by omega)
  rw [towards]
  split_ifs with ordered
  · have := UInt32.lt_iff_toNat_lt.mp ordered
    rw [UInt32.toNat_add, small]
    omega
  · have := UInt32.le_iff_toNat_le.mp (UInt32.not_lt.mp ordered)
    rw [UInt32.toNat_sub, small]
    omega

/-- The steps that lead to the second coordinate are as many as the distance. -/
theorem towards_eq_iff {steps : Nat} (inside : steps ≤ distance a b) :
    towards a b steps = b ↔ steps = distance a b := by
  -- As numbers, the steps and the distance are compared in the same direction.
  rw [← UInt32.toNat_inj, towards_toNat inside]
  rw [distance] at inside ⊢
  split_ifs with ordered
  · have := UInt32.lt_iff_toNat_lt.mp ordered
    omega
  · have := UInt32.le_iff_toNat_le.mp (UInt32.not_lt.mp ordered)
    omega

/-- No step leaves the first coordinate. -/
theorem towards_zero (a b : UInt32) : towards a b 0 = a := by
  rw [towards]
  -- In either direction, no steps lead nowhere.
  split_ifs
  · exact UInt32.add_zero a
  · exact UInt32.sub_zero a

/-- The distance as the source computes it. -/
theorem absInt_distance (small : SmallCoordinate a) (other : SmallCoordinate b) :
    absInt (wrap32 (wrap32 b.toNat - wrap32 a.toNat)) = distance a b := by
  rw [SmallCoordinate] at small other
  -- Neither the casts to signed words nor the difference overflow.
  have left : wrap32 a.toNat = a.toNat := wrap32_of_fits ⟨by omega, by omega⟩
  have right : wrap32 b.toNat = b.toNat := wrap32_of_fits ⟨by omega, by omega⟩
  have difference : wrap32 ((b.toNat : Int) - a.toNat) = (b.toNat : Int) - a.toNat :=
    wrap32_of_fits ⟨by omega, by omega⟩
  rw [left, right, difference, absInt, distance]
  split_ifs with negative
  · rw [wrap32_of_fits ⟨by omega, by omega⟩]
    omega
  · omega

/-- Small coordinates are not far from each other. -/
theorem distance_lt (small : SmallCoordinate a) (other : SmallCoordinate b) : distance a b < 2 ^ 29 := by
  rw [SmallCoordinate] at small other
  rw [distance]
  omega

end

/-- The error behind a turn of the loop. -/
def lineErr (dx dy e2 err : Int) : Int :=
  let err := if -dy < e2 then wrap32 (err - dy) else err
  if e2 < dx then wrap32 (err + dx) else err

/-- A turn of the loop in front of the end. -/
theorem lineLoop_turn {x0 y0 x1 y1 sx sy : UInt32} (differs : ¬ (x0 = x1 ∧ y0 = y1)) (dx dy err : Int) (fuel : Nat) :
    lineLoop x1 y1 dx dy sx sy (fuel + 1) x0 y0 err =
      (lineLoop x1 y1 dx dy sx sy fuel (if -dy < wrap32 (2 * err) then x0 + sx else x0)
        (if wrap32 (2 * err) < dx then y0 + sy else y0) (lineErr dx dy (wrap32 (2 * err)) err) >>=
          fun rest => pure ((x0, y0) :: rest)) := by
  rw [lineLoop, if_neg differs, lineErr]
  dsimp only
  -- The two steps do not depend on each other.
  by_cases aside : -dy < wrap32 (2 * err)
  · by_cases up : wrap32 (2 * err) < dx
    · simp only [if_pos aside, if_pos up]
    · simp only [if_pos aside, if_neg up]
  · by_cases up : wrap32 (2 * err) < dx
    · simp only [if_neg aside, if_pos up]
    · simp only [if_neg aside, if_neg up]

/-- A step in a direction, if it is asked for. -/
theorem towards_step (a b : UInt32) (steps : Nat) (asked : Prop) [Decidable asked] :
    (if asked then towards a b steps + (if a < b then 1 else -1) else towards a b steps) =
      towards a b (steps + if asked then 1 else 0) := by
  -- A step is taken in this axis or it is not.
  by_cases taken : asked
  · rw [if_pos taken, if_pos taken, towards_succ]
  · rw [if_neg taken, if_neg taken, Nat.add_zero]

/-- Along the line no error overflows, and each turn leaves the error of the next point. -/
theorem lineErr_next {dx dy k : Nat} {point : Nat × Nat} (smallX : dx < 2 ^ 29) (smallY : dy < 2 ^ 29)
    (follows : FollowsLine dx dy k point) :
    wrap32 (2 * (dx - dy + lineError dx dy point)) = 2 * (dx - dy + lineError dx dy point) ∧
      lineErr dx dy (2 * (dx - dy + lineError dx dy point)) (dx - dy + lineError dx dy point) =
        dx - dy + lineError dx dy (lineNext dx dy point) := by
  have low := follows.low
  have high := follows.high
  constructor
  · exact wrap32_of_fits ⟨by omega, by omega⟩
  · obtain ⟨x, y⟩ := point
    rw [lineErr, lineNext]
    dsimp only
    rw [lineError_add]
    generalize lineError dx dy (x, y) = error at low high ⊢
    -- Half a step of error either way keeps all sums far from overflowing.
    have first : wrap32 (dx - dy + error - dy) = dx - dy + error - dy := wrap32_of_fits ⟨by omega, by omega⟩
    have second : wrap32 (dx - dy + error + dx) = dx - dy + error + dx := wrap32_of_fits ⟨by omega, by omega⟩
    have third : wrap32 (dx - dy + error - dy + dx) = dx - dy + error - dy + dx :=
      wrap32_of_fits ⟨by omega, by omega⟩
    -- The code takes the same steps as the line, and adds what they cost.
    by_cases aside : -(dy : Int) < 2 * (dx - dy + error)
    · by_cases up : 2 * (dx - dy + error) < (dx : Int)
      · rw [if_pos aside, if_pos up, if_pos aside, if_pos up, first, third]
        omega
      · rw [if_pos aside, if_neg up, if_pos aside, if_neg up, first]
        omega
    · by_cases up : 2 * (dx - dy + error) < (dx : Int)
      · rw [if_neg aside, if_pos up, if_neg aside, if_pos up, second]
        omega
      · rw [if_neg aside, if_neg up, if_neg aside, if_neg up]
        omega

/-- The point of a line after a number of steps. -/
def pointAt (x0 y0 x1 y1 : UInt32) (k : Nat) : UInt32 × UInt32 :=
  let offsets := linePoint (distance x0 x1) (distance y0 y1) k
  (towards x0 x1 offsets.1, towards y0 y1 offsets.2)

/-- A line starts at its first end. -/
theorem pointAt_first (x0 y0 x1 y1 : UInt32) : pointAt x0 y0 x1 y1 0 = (x0, y0) := by
  rw [pointAt]
  dsimp only [linePoint, Function.iterate_zero_apply]
  rw [towards_zero, towards_zero]

/-- After the steps of the longer direction a line is at its second end. -/
theorem pointAt_last (x0 y0 x1 y1 : UInt32) :
    pointAt x0 y0 x1 y1 (max (distance x0 x1) (distance y0 y1)) = (x1, y1) := by
  rw [pointAt, linePoint_end]
  dsimp only
  rw [(towards_eq_iff (Nat.le_refl _)).mpr rfl, (towards_eq_iff (Nat.le_refl _)).mpr rfl]

section

variable {x0 y0 x1 y1 : UInt32} (smallX0 : SmallCoordinate x0) (smallX1 : SmallCoordinate x1)
  (smallY0 : SmallCoordinate y0) (smallY1 : SmallCoordinate y1)

include smallX0 smallX1 smallY0 smallY1

/-- From each of its points on, the loop draws the rest of the line. -/
theorem lineLoop_eq {fuel more k : Nat} (left : k + more = max (distance x0 x1) (distance y0 y1))
    (enough : more < fuel) :
    lineLoop x1 y1 (distance x0 x1) (distance y0 y1) (if x0 < x1 then 1 else -1) (if y0 < y1 then 1 else -1) fuel
        (pointAt x0 y0 x1 y1 k).1 (pointAt x0 y0 x1 y1 k).2
        (distance x0 x1 - distance y0 y1 +
          lineError (distance x0 x1) (distance y0 y1) (linePoint (distance x0 x1) (distance y0 y1) k)) =
      .ok ((List.range' k (more + 1)).map (pointAt x0 y0 x1 y1)) := by
  have follows := linePoint_follows (show k ≤ max (distance x0 x1) (distance y0 y1) by omega)
  obtain ⟨insideX, insideY⟩ := follows.box (by omega)
  -- Every turn takes the loop to the next point; the error goes with it.
  induction more generalizing fuel k with
  | zero =>
    obtain ⟨fuel, rfl⟩ : ∃ less, fuel = less + 1 := ⟨fuel - 1, by omega⟩
    obtain rfl : k = max (distance x0 x1) (distance y0 y1) := by omega
    have last := pointAt_last x0 y0 x1 y1
    rw [lineLoop, last, if_pos ⟨rfl, rfl⟩, List.range'_one, List.map_singleton, last]
  | succ more ih =>
    obtain ⟨fuel, rfl⟩ : ∃ less, fuel = less + 1 := ⟨fuel - 1, by omega⟩
    have before : k < max (distance x0 x1) (distance y0 y1) := by omega
    -- The end is not reached yet, in one direction at least.
    have differs : ¬ ((pointAt x0 y0 x1 y1 k).1 = x1 ∧ (pointAt x0 y0 x1 y1 k).2 = y1) := by
      rintro ⟨sameX, sameY⟩
      refine linePoint_ne_end before (Prod.ext ?_ ?_)
      · exact (towards_eq_iff insideX).mp sameX
      · exact (towards_eq_iff insideY).mp sameY
    -- The next point follows the line too, and the error of the turn is its error.
    have onward := ih (show k + 1 + more = _ by omega) (show more < fuel by omega)
    have next := follows.next before
    rw [← linePoint_succ] at next
    obtain ⟨nextX, nextY⟩ := next.box (by omega)
    obtain ⟨exactly, error⟩ := lineErr_next (distance_lt smallX0 smallX1) (distance_lt smallY0 smallY1) follows
    rw [lineLoop_turn differs, exactly, error, pointAt]
    dsimp only
    rw [towards_step, towards_step]
    have same := onward next nextX nextY
    rw [pointAt, linePoint_succ] at same
    dsimp only at same
    rw [lineNext] at same ⊢
    dsimp only at same ⊢
    rw [same, ok_bind, List.range'_succ, List.map_cons]
    rfl

end

/-- The steps towards the other end are the distance from the first one. -/
theorem distance_towards {a b : UInt32} {steps : Nat} (inside : steps ≤ distance a b) :
    distance a (towards a b steps) = steps := by
  -- Towards the end both orders count the same steps, one up and one down.
  have place := towards_toNat inside
  rw [distance] at inside
  rw [distance, place]
  split_ifs with ordered
  · omega
  · have := UInt32.le_iff_toNat_le.mp (UInt32.not_lt.mp ordered)
    omega

/-- The steps towards the other end stay between both. -/
theorem towards_between {a b : UInt32} {steps : Nat} (inside : steps ≤ distance a b) :
    min a.toNat b.toNat ≤ (towards a b steps).toNat ∧ (towards a b steps).toNat ≤ max a.toNat b.toNat := by
  -- Whatever the order, no step goes past the end.
  have place := towards_toNat inside
  rw [distance] at inside
  rw [place]
  split_ifs with ordered
  · have := UInt32.lt_iff_toNat_lt.mp ordered
    omega
  · have := UInt32.le_iff_toNat_le.mp (UInt32.not_lt.mp ordered)
    omega

/-- One more step is one more place away. -/
theorem distance_towards_le {a b : UInt32} {steps more : Nat} (inside : more ≤ distance a b) (first : steps ≤ more)
    (last : more ≤ steps + 1) : distance (towards a b steps) (towards a b more) ≤ 1 := by
  -- Two points of one direction are as far apart as their steps.
  have place := towards_toNat (Nat.le_trans first inside)
  have other := towards_toNat inside
  rw [distance] at inside ⊢
  rw [place, other]
  split_ifs with ordered
  · omega
  · have := UInt32.le_iff_toNat_le.mp (UInt32.not_lt.mp ordered)
    omega

/-- The point of a line is off the straight line through its ends by half a step at most, and between them. -/
structure OnLine (x0 y0 x1 y1 : UInt32) (point : UInt32 × UInt32) : Prop where
  column : min x0.toNat x1.toNat ≤ point.1.toNat ∧ point.1.toNat ≤ max x0.toNat x1.toNat
  row : min y0.toNat y1.toNat ≤ point.2.toNat ∧ point.2.toNat ≤ max y0.toNat y1.toNat
  accurate : 2 * |(distance x0 x1 : Int) * distance y0 point.2 - distance y0 y1 * distance x0 point.1| ≤
    (max (distance x0 x1) (distance y0 y1) : Nat)

section

variable {x0 y0 x1 y1 : UInt32}

/-- Every point of a line up to its end is on it. -/
theorem pointAt_onLine {k : Nat} (inside : k ≤ max (distance x0 x1) (distance y0 y1)) :
    OnLine x0 y0 x1 y1 (pointAt x0 y0 x1 y1 k) := by
  have follows := linePoint_follows inside
  obtain ⟨insideX, insideY⟩ := follows.box inside
  have low := follows.low
  have high := follows.high
  rw [lineError] at low high
  refine ⟨towards_between insideX, towards_between insideY, ?_⟩
  rw [pointAt]
  dsimp only
  rw [distance_towards insideX, distance_towards insideY]
  generalize (distance x0 x1 : Int) * _ - _ = error at low high ⊢
  -- Both signs of the error have their own bound.
  rcases abs_cases error with ⟨same, -⟩ | ⟨same, -⟩
  · omega
  · omega

/-- Points next to each other are one step apart at most in each direction. -/
theorem pointAt_near {k : Nat} (inside : k < max (distance x0 x1) (distance y0 y1)) :
    distance (pointAt x0 y0 x1 y1 k).1 (pointAt x0 y0 x1 y1 (k + 1)).1 ≤ 1 ∧
      distance (pointAt x0 y0 x1 y1 k).2 (pointAt x0 y0 x1 y1 (k + 1)).2 ≤ 1 := by
  -- One step of the loop moves each coordinate by at most one inside the box.
  obtain ⟨insideX, insideY⟩ := (linePoint_follows (show k + 1 ≤ _ from inside)).box inside
  obtain ⟨⟨firstX, lastX⟩, firstY, lastY⟩ :=
    lineNext_near (distance x0 x1) (distance y0 y1) (linePoint (distance x0 x1) (distance y0 y1) k)
  rw [← linePoint_succ] at firstX lastX firstY lastY
  exact ⟨distance_towards_le insideX firstX lastX, distance_towards_le insideY firstY lastY⟩

/--
A line of small coordinates ends at its second end.

It has as many points as the longer direction has steps and one more, it starts and ends at its ends, each point
is next to the one before, and all of them are within half a pixel of the straight line between the ends.
-/
theorem line_reaches_end (smallX0 : SmallCoordinate x0) (smallY0 : SmallCoordinate y0)
    (smallX1 : SmallCoordinate x1) (smallY1 : SmallCoordinate y1) :
    ∃ points, (∀ fuel, max (distance x0 x1) (distance y0 y1) < fuel →
        linePoints fuel x0 y0 x1 y1 = .ok points) ∧
      points.length = max (distance x0 x1) (distance y0 y1) + 1 ∧
      points.head? = some (x0, y0) ∧ points.getLast? = some (x1, y1) ∧
      points.IsChain (fun one two => distance one.1 two.1 ≤ 1 ∧ distance one.2 two.2 ≤ 1) ∧
      ∀ point ∈ points, OnLine x0 y0 x1 y1 point := by
  have start := pointAt_first x0 y0 x1 y1
  have last := pointAt_last x0 y0 x1 y1
  refine ⟨(List.range (max (distance x0 x1) (distance y0 y1) + 1)).map (pointAt x0 y0 x1 y1), ?_, ?_, ?_, ?_, ?_, ?_⟩
  · -- The loop starts at the first point, where the line has no error.
    intro fuel enough
    have ran := lineLoop_eq smallX0 smallX1 smallY0 smallY1 (Nat.zero_add _) enough
    rw [start, ← List.range_eq_range'] at ran
    have far := distance_lt smallX0 smallX1
    have high := distance_lt smallY0 smallY1
    rw [linePoints, absInt_distance smallX0 smallX1, absInt_distance smallY0 smallY1,
      wrap32_of_fits ⟨by omega, by omega⟩]
    rw [← ran]
    simp [linePoint, lineError]
  · rw [List.length_map, List.length_range]
  · rw [List.head?_map, List.head?_range]
    simp [start]
  · rw [List.getLast?_map, List.range_succ, List.getLast?_concat, Option.map_some, last]
  · -- Neighbours of the list are points one step after the other.
    rw [List.isChain_iff_getElem]
    intro k inside
    rw [List.length_map, List.length_range] at inside
    simp only [List.getElem_map, List.getElem_range]
    exact pointAt_near (by omega)
  · intro point among
    obtain ⟨k, inside, rfl⟩ := List.mem_map.mp among
    exact pointAt_onLine (Nat.le_of_lt_succ (List.mem_range.mp inside))

end

/-- A line up to the left has three points, the middle one half a pixel off the straight line. -/
theorem line_up_left : ∃ points, (∀ fuel, 2 < fuel → linePoints fuel 5 3 3 2 = .ok points) ∧
    points.head? = some (5, 3) ∧ points.getLast? = some (3, 2) := by
  obtain ⟨points, ran, -, first, last, -⟩ :=
    @line_reaches_end 5 3 3 2 (by decide) (by decide) (by decide) (by decide)
  exact ⟨points, ran, first, last⟩

end MiraOS

import MiraOS.Machine.Blocks

/-! Runs of bytes that are laid over a block one after another, and what they leave there. -/

namespace Machine

/-- A run of bytes with the index that it starts at. -/
structure Stroke where
  start : Nat
  bytes : List UInt8

/-- The indices of a run. -/
def Stroke.Covers (stroke : Stroke) (j : Nat) : Prop := stroke.start ≤ j ∧ j < stroke.start + stroke.bytes.length

instance (stroke : Stroke) (j : Nat) : Decidable (stroke.Covers j) := inferInstanceAs (Decidable (_ ∧ _))

/-- A run inside a block; a run of no bytes is inside wherever it starts. -/
def Stroke.Fits (stroke : Stroke) (size : Nat) : Prop :=
  stroke.bytes = [] ∨ stroke.start + stroke.bytes.length ≤ size

instance (stroke : Stroke) (size : Nat) : Decidable (stroke.Fits size) := inferInstanceAs (Decidable (_ ∨ _))

/-- Lay a run over a block. -/
def lay (block : List UInt8) (stroke : Stroke) : Except Halt (List UInt8) :=
  if stroke.Fits block.length then .ok (overlay block stroke.start stroke.bytes) else .error .outOfBounds

/-- Drawing gives every block of a size these bytes and keeps the others. -/
def Paints (size : Nat) (draw : List UInt8 → Except Halt (List UInt8)) (cells : Nat → UInt8 → Prop) : Prop :=
  ∀ block : List UInt8, block.length = size → ∃ after, draw block = .ok after ∧ after.length = size ∧
    (∀ j byte, cells j byte → after[j]? = some byte) ∧ ∀ j, (∀ byte, ¬ cells j byte) → after[j]? = block[j]?

section

variable {stroke : Stroke} {strokes : List Stroke} {block other after drawn : List UInt8} {j size : Nat}

/-- Laying a run keeps the length. -/
theorem lay_length (laid : lay block stroke = .ok after) : after.length = block.length := by
  rw [lay] at laid
  -- A stroke that fits replaces bytes and adds none.
  split_ifs at laid with fits
  rw [← Except.ok.inj laid]
  rcases fits with none | inside
  · rw [none, overlay_nil]
  · rw [overlay_length (by omega)]
    omega

/-- The bytes behind a run: its own where it covers the block, and those of the block elsewhere. -/
theorem lay_getElem? (laid : lay block stroke = .ok after) (j : Nat) :
    after[j]? = if stroke.Covers j then stroke.bytes[j - stroke.start]? else block[j]? := by
  rw [lay] at laid
  split_ifs at laid with fits
  rw [← Except.ok.inj laid]
  rcases fits with none | inside
  · -- A run of no bytes covers nothing.
    have nowhere : ¬ stroke.Covers j := by
      rintro ⟨low, high⟩
      rw [none, List.length_nil] at high
      omega
    rw [none, overlay_nil, ← none, if_neg nowhere]
  · exact overlay_getElem? inside j

/-- A run that is inside is laid. -/
theorem lay_inside {bytes : List UInt8} {start : Nat} (inside : start + bytes.length ≤ block.length) :
    lay block ⟨start, bytes⟩ = .ok (overlay block start bytes) := if_pos (Or.inr inside)

/-- A run that reaches past the end is not. -/
theorem lay_outside {bytes : List UInt8} {start : Nat} (some : bytes ≠ [])
    (outside : block.length < start + bytes.length) : lay block ⟨start, bytes⟩ = .error .outOfBounds := by
  refine if_neg ?_
  -- The stroke neither is empty nor ends inside the block.
  rintro (none | inside)
  · exact some none
  · exact absurd inside (Nat.not_le.mpr outside)

/-- One run right behind another is one longer run. -/
theorem overlay_append {front back : List UInt8} {start : Nat} (inside : start ≤ block.length) :
    overlay (overlay block start front) (start + front.length) back = overlay block start (front ++ back) := by
  -- What stands in front of the second run is the front of the block and the first run.
  have before : (block.take start ++ front).length = start + front.length := by
    rw [List.length_append, List.length_take, Nat.min_eq_left inside]
  rw [overlay, overlay, overlay, List.take_left' before, List.append_assoc _ back, List.append_assoc _ _ (back ++ _),
    List.append_assoc _ (front ++ back), List.append_assoc front back, ← before, List.drop_length_add_append,
    List.drop_drop, before, List.length_append, Nat.add_assoc]

/-- Laying both runs is laying the longer one. -/
theorem lay_append {front back : List UInt8} {start : Nat} (some : back ≠ []) :
    lay block ⟨start, front ++ back⟩ =
      lay block ⟨start, front⟩ >>= fun middle => lay middle ⟨start + front.length, back⟩ := by
  have longer : 0 < back.length := List.length_pos_iff.mpr some
  have both : (front ++ back).length = front.length + back.length := List.length_append
  -- The longer run is inside just when the second one is.
  by_cases inside : start + (front.length + back.length) ≤ block.length
  · have first := @lay_inside block front start (by omega)
    have length : (overlay block start front).length = block.length := lay_length first
    rw [lay_inside (by omega), first, ok_bind, lay_inside (by omega), overlay_append (by omega)]
  · rw [lay_outside (by simp [some]) (by omega)]
    -- Where the first run can still be laid, the second one can not.
    cases laid : lay block ⟨start, front⟩ with
    | ok middle =>
      have length := lay_length laid
      rw [ok_bind, lay_outside some (by omega)]
    | error halt =>
      rw [lay] at laid
      split_ifs at laid
      obtain rfl := Except.error.inj laid
      rfl

/-- Laying runs keeps the length. -/
theorem layAll_length (laid : strokes.foldlM lay block = .ok after) : after.length = block.length :=
  @foldlM_keeps _ _ _ _ (fun state => state.length = block.length) _ _ _ laid rfl
    fun _ _ _ _ same one => (lay_length one).trans same

/-- Runs that are inside a block can be laid over it. -/
theorem layAll_fits (fits : ∀ stroke ∈ strokes, stroke.Fits block.length) :
    ∃ after, strokes.foldlM lay block = .ok after := by
  -- Laying a stroke keeps the length, so that the others still fit.
  induction strokes generalizing block with
  | nil => exact ⟨block, rfl⟩
  | cons stroke rest ih =>
    have first : lay block stroke = .ok (overlay block stroke.start stroke.bytes) :=
      if_pos (fits stroke List.mem_cons_self)
    have length := lay_length first
    obtain ⟨after, others⟩ := @ih (overlay block stroke.start stroke.bytes)
      fun other among => by rw [length]; exact fits other (List.mem_cons_of_mem stroke among)
    rw [List.foldlM_cons]
    exact ⟨after, bind_eq_ok.mpr ⟨_, first, others⟩⟩

/-- Runs of no bytes change nothing. -/
theorem layAll_blank (blank : ∀ stroke ∈ strokes, stroke.bytes = []) : strokes.foldlM lay block = .ok block := by
  -- A stroke without bytes fits anywhere and changes nothing.
  induction strokes with
  | nil => rfl
  | cons stroke rest ih =>
    have none := blank stroke List.mem_cons_self
    have fits : stroke.Fits block.length := Or.inl none
    have first : lay block stroke = .ok block := by
      rw [lay, if_pos fits, none, overlay_nil]
    rw [List.foldlM_cons, first, ok_bind]
    exact ih fun other among => blank other (List.mem_cons_of_mem stroke among)

/-- Runs that could be laid were inside. -/
theorem layAll_inside (laid : strokes.foldlM lay block = .ok after) (among : stroke ∈ strokes) :
    stroke.Fits block.length := by
  -- Either it is the first stroke, or one of the rest over a block of the same length.
  induction strokes generalizing block with
  | nil => exact absurd among List.not_mem_nil
  | cons first rest ih =>
    rw [List.foldlM_cons] at laid
    obtain ⟨middle, one, others⟩ := bind_eq_ok.mp laid
    rcases List.mem_cons.mp among with rfl | behind
    · by_contra outside
      rw [lay, if_neg outside] at one
      exact absurd one (by simp)
    · rw [← lay_length one]
      exact ih others behind

/-- What no run covers is kept. -/
theorem layAll_uncovered (laid : strokes.foldlM lay block = .ok after)
    (uncovered : ∀ stroke ∈ strokes, ¬ stroke.Covers j) : after[j]? = block[j]? := by
  -- Induction on the strokes, none of which covers the place.
  induction strokes generalizing block with
  | nil => rw [← Except.ok.inj laid]
  | cons first rest ih =>
    rw [List.foldlM_cons] at laid
    obtain ⟨middle, one, others⟩ := bind_eq_ok.mp laid
    rw [ih others fun stroke among => uncovered stroke (List.mem_cons_of_mem first among), lay_getElem? one,
      if_neg (uncovered first List.mem_cons_self)]

/-- What a run covers does not depend on what was there. -/
theorem layAll_covered (laid : strokes.foldlM lay block = .ok after) (also : strokes.foldlM lay other = .ok drawn)
    (covered : ∃ stroke ∈ strokes, stroke.Covers j) : after[j]? = drawn[j]? := by
  -- Either the bytes are equal already, or a run that covers them is still to come.
  have still : block[j]? = other[j]? ∨ ∃ stroke ∈ strokes, stroke.Covers j := Or.inr covered
  clear covered
  induction strokes generalizing block other with
  | nil =>
    rw [← Except.ok.inj laid, ← Except.ok.inj also]
    rcases still with same | ⟨stroke, among, -⟩
    · exact same
    · exact absurd among List.not_mem_nil
  | cons first rest ih =>
    rw [List.foldlM_cons] at laid also
    obtain ⟨middle, one, others⟩ := bind_eq_ok.mp laid
    obtain ⟨between, two, more⟩ := bind_eq_ok.mp also
    apply ih others more
    rw [lay_getElem? one, lay_getElem? two]
    -- A run that covers the place makes both bytes its own.
    by_cases covers : first.Covers j
    · rw [if_pos covers, if_pos covers]
      exact Or.inl rfl
    · rw [if_neg covers, if_neg covers]
      rcases still with same | ⟨stroke, among, later⟩
      · exact Or.inl same
      · rcases List.mem_cons.mp among with rfl | behind
        · exact absurd later covers
        · exact Or.inr ⟨stroke, behind, later⟩

/-- Of runs that lie apart each leaves its own bytes. -/
theorem layAll_getElem? (laid : strokes.foldlM lay block = .ok after)
    (apart : strokes.Pairwise fun one two => ∀ j, one.Covers j → ¬ two.Covers j) (among : stroke ∈ strokes)
    (covers : stroke.Covers j) : after[j]? = stroke.bytes[j - stroke.start]? := by
  induction strokes generalizing block with
  | nil => exact absurd among List.not_mem_nil
  | cons first rest ih =>
    rw [List.foldlM_cons] at laid
    obtain ⟨middle, one, others⟩ := bind_eq_ok.mp laid
    obtain ⟨separate, behind⟩ := List.pairwise_cons.mp apart
    rcases List.mem_cons.mp among with rfl | later
    · -- The runs behind it do not reach its bytes.
      rw [layAll_uncovered others fun other laid => separate other laid j covers, lay_getElem? one, if_pos covers]
    · exact ih others behind later

end

section

variable {size : Nat} {strokes : List Stroke} {cells : Nat → UInt8 → Prop}

/-- Runs that lie apart and inside paint their bytes. -/
theorem paints_of_strokes (fits : ∀ stroke ∈ strokes, stroke.Fits size)
    (apart : strokes.Pairwise fun one two => ∀ j, one.Covers j → ¬ two.Covers j)
    (exact : ∀ j byte, cells j byte ↔
      ∃ stroke ∈ strokes, stroke.Covers j ∧ stroke.bytes[j - stroke.start]? = some byte) :
    Paints size (strokes.foldlM lay) cells := by
  rintro block rfl
  obtain ⟨after, laid⟩ := layAll_fits fits
  refine ⟨after, laid, layAll_length laid, fun j byte cell => ?_, fun j none => ?_⟩
  · obtain ⟨stroke, among, covers, same⟩ := (exact j byte).mp cell
    rw [layAll_getElem? laid apart among covers, same]
  · refine layAll_uncovered laid fun stroke among covers => ?_
    -- A byte of the run would be one of the cells.
    have inside : j - stroke.start < stroke.bytes.length := by
      obtain ⟨low, high⟩ := covers
      omega
    exact none _ ((exact j _).mpr ⟨stroke, among, covers, List.getElem?_eq_getElem inside⟩)

/-- Where no byte should change, a drawing that changes nothing is right. -/
theorem paints_nothing {draw : List UInt8 → Except Halt (List UInt8)} (kept : ∀ block, draw block = .ok block)
    (none : ∀ j byte, ¬ cells j byte) : Paints size draw cells := by
  intro block length
  exact ⟨block, kept block, length, fun j byte cell => absurd cell (none j byte), fun _ _ => rfl⟩

/-- What is painted is one thing only. -/
theorem Paints.unique {draw : List UInt8 → Except Halt (List UInt8)} {others : Nat → UInt8 → Prop}
    (one : Paints size draw cells) (two : Paints size draw others) {j : Nat} {byte other : UInt8}
    (cell : cells j byte) (also : others j other) : byte = other := by
  -- Both say what stands in the same drawn block.
  obtain ⟨after, drawn, -, painted, -⟩ := one (List.replicate size 0) (List.length_replicate)
  obtain ⟨again, same, -, too, -⟩ := two (List.replicate size 0) (List.length_replicate)
  obtain rfl := Except.ok.inj (drawn.symm.trans same)
  exact Option.some.inj ((painted j byte cell).symm.trans (too j other also))

variable (paints : Paints size (strokes.foldlM lay) cells)

include paints

/-- What is painted is covered by a run inside the block. -/
theorem Paints.covered {j : Nat} {byte : UInt8} (cell : cells j byte) :
    j < size ∧ ∃ stroke ∈ strokes, stroke.Covers j := by
  -- The same is drawn over two blocks that differ everywhere.
  obtain ⟨zeros, one, length, painted, -⟩ := paints (List.replicate size 0) (List.length_replicate)
  obtain ⟨ones, two, -, again, -⟩ := paints (List.replicate size 1) (List.length_replicate)
  have there := painted j byte cell
  have inside : j < size := by
    rw [← length]
    exact (List.getElem?_eq_some_iff.mp there).1
  refine ⟨inside, ?_⟩
  by_contra none
  -- Without a run the byte would be what it was, and that differs.
  have uncovered : ∀ stroke ∈ strokes, ¬ stroke.Covers j := fun stroke among covers => none ⟨stroke, among, covers⟩
  have first := (layAll_uncovered one uncovered).symm.trans there
  have second := (layAll_uncovered two uncovered).symm.trans (again j byte cell)
  rw [List.getElem?_replicate, if_pos inside] at first second
  exact absurd (first.trans second.symm) (by decide)

/-- What a run covers is painted. -/
theorem Paints.cell {j : Nat} {stroke : Stroke} (among : stroke ∈ strokes) (covers : stroke.Covers j) :
    ∃ byte, cells j byte := by
  obtain ⟨zeros, one, -, -, kept⟩ := paints (List.replicate size 0) (List.length_replicate)
  obtain ⟨ones, two, -, -, also⟩ := paints (List.replicate size 1) (List.length_replicate)
  have inside : j < size := by
    obtain ⟨low, high⟩ := covers
    rcases layAll_inside one among with none | fits
    · rw [none, List.length_nil] at high
      omega
    · rw [List.length_replicate] at fits
      omega
  by_contra none
  -- A byte that is kept would be both of two different bytes.
  have unpainted : ∀ byte, ¬ cells j byte := fun byte cell => none ⟨byte, cell⟩
  have same := layAll_covered one two ⟨stroke, among, covers⟩
  rw [kept j unpainted, also j unpainted, List.getElem?_replicate, if_pos inside, List.getElem?_replicate,
    if_pos inside] at same
  exact absurd same (by decide)

end

end Machine

import Mathlib.Logic.Function.Basic

/-! Pictures that are painted dot by dot, later dots over earlier ones, and what the whole of them shows. -/

namespace Machine

section

variable {Place Color : Type} [DecidableEq Place]

/-- A picture with one dot painted. -/
def paintDot (picture : Place → Color) (dot : Place × Color) : Place → Color :=
  Function.update picture dot.1 dot.2

/-- A picture with dots painted one after another. -/
def paintDots (picture : Place → Color) (dots : List (Place × Color)) : Place → Color := dots.foldl paintDot picture

/-- A picture laid over another one; it may leave out places. -/
def overPicture (picture : Place → Color) (upper : Place → Option Color) : Place → Color := fun place =>
  (upper place).getD (picture place)

variable {picture : Place → Color} {dots later : List (Place × Color)} {place : Place}

/-- A place without a dot keeps its color. -/
theorem paintDots_untouched (apart : ∀ dot ∈ dots, dot.1 ≠ place) : paintDots picture dots place = picture place := by
  -- No dot of the list changes the place, the first one included.
  induction dots generalizing picture with
  | nil => rfl
  | cons dot rest ih =>
    show paintDots (paintDot picture dot) rest place = _
    rw [ih fun other among => apart other (List.mem_cons_of_mem dot among)]
    exact Function.update_of_ne (apart dot List.mem_cons_self).symm _ _

/-- A place whose dots agree gets their color. -/
theorem paintDots_agreed {color : Color} (some : ∃ dot ∈ dots, dot.1 = place)
    (agreed : ∀ dot ∈ dots, dot.1 = place → dot.2 = color) : paintDots picture dots place = color := by
  induction dots generalizing picture with
  | nil =>
    obtain ⟨dot, among, -⟩ := some
    cases among
  | cons dot rest ih =>
    show paintDots (paintDot picture dot) rest place = _
    -- Either a later dot decides, or this one is the last.
    by_cases again : ∃ other ∈ rest, other.1 = place
    · exact ih again fun other among => agreed other (List.mem_cons_of_mem dot among)
    · rw [paintDots_untouched fun other among same => again ⟨other, among, same⟩]
      obtain ⟨other, among, same⟩ := some
      rcases List.mem_cons.mp among with rfl | behind
      · rw [paintDot, same, Function.update_self]
        exact agreed other List.mem_cons_self same
      · exact absurd ⟨other, behind, same⟩ again

/-- Dots that are those of an upper picture lay it over the picture. -/
theorem paintDots_eq_over {upper : Place → Option Color}
    (exactly : ∀ place color, (place, color) ∈ dots ↔ upper place = some color) :
    paintDots picture dots = overPicture picture upper := by
  funext place
  rw [overPicture]
  -- Where nothing lies above, no dot is at the place.
  cases shown : upper place with
  | none =>
    refine paintDots_untouched fun dot among same => ?_
    have painted := (exactly dot.1 dot.2).mp among
    rw [same, shown] at painted
    cases painted
  -- Dots that agree on a place leave their color there.
  | some color =>
    refine paintDots_agreed ⟨(place, color), (exactly place color).mpr shown, rfl⟩ fun dot among same => ?_
    have painted := (exactly dot.1 dot.2).mp among
    rw [same, shown] at painted
    exact (Option.some.inj painted).symm

end

section

variable {Place Color : Type} {picture : Place → Color}

/-- Laying pictures over one another: the upper one wins. -/
theorem over_over {lower upper : Place → Option Color} :
    overPicture (overPicture picture lower) upper =
      overPicture picture fun place => (upper place).or (lower place) := by
  funext place
  simp only [overPicture]
  -- The upper picture covers the lower one where it has a color.
  cases upper place <;> rfl

/-- Areas of one color laid over a picture one after another are laid over it as one. -/
theorem over_areas {Area : Type} {areas : List Area} {inside : Area → Place → Prop}
    [∀ area place, Decidable (inside area place)] (color : Color) :
    areas.foldl (fun picture area => overPicture picture fun place => if inside area place then some color else none)
        picture =
      overPicture picture fun place => if ∃ area ∈ areas, inside area place then some color else none := by
  induction areas generalizing picture with
  | nil =>
    funext place
    rw [overPicture, if_neg (by simp)]
    rfl
  | cons area rest ih =>
    rw [List.foldl_cons, ih, over_over]
    congr 1
    funext place
    simp only [List.mem_cons, exists_eq_or_imp]
    -- The area is the first or among the rest.
    by_cases own : inside area place
    · rw [if_pos own, if_pos (show inside area place ∨ ∃ other ∈ rest, inside other place from .inl own)]
      split <;> rfl
    · rw [if_neg own, Option.or_none]
      simp only [own, false_or]

end

end Machine

import Mathlib.Data.List.Infix
import Mathlib.Order.Bounds.Basic

/-! Where a part occurs in a text, and where it does first. -/

namespace Machine

section

variable {α : Type}

/-- A part occurs in a text from a place on. -/
def OccursAt (text part : List α) (place : Nat) : Prop := place ≤ text.length ∧ part <+: text.drop place

variable {text part : List α}

/-- A part occurs somewhere exactly when it lies inside the text. -/
theorem exists_occursAt : (∃ place, OccursAt text part place) ↔ part <:+: text := by
  rw [List.infix_iff_prefix_suffix]
  constructor
  · rintro ⟨place, -, front⟩
    exact ⟨text.drop place, front, List.drop_suffix place text⟩
  · -- What is left at an end of the text is what is left at its place.
    rintro ⟨rest, front, whole, rfl⟩
    refine ⟨whole.length, ?_, ?_⟩
    · rw [List.length_append]
      exact Nat.le_add_right _ _
    · rw [List.drop_left]
      exact front

variable [DecidableEq α]

instance (text part : List α) (place : Nat) : Decidable (OccursAt text part place) :=
  inferInstanceAs (Decidable (_ ∧ _))

/-- The first place where a part occurs. -/
def firstOccurrence (text part : List α) : Option Nat := text.tails.findIdx? (part.isPrefixOf ·)

/-- It is the least of all these places. -/
theorem firstOccurrence_eq_some {place : Nat} :
    firstOccurrence text part = some place ↔ IsLeast {place | OccursAt text part place} place := by
  rw [firstOccurrence, List.findIdx?_eq_some_iff_getElem]
  simp only [List.length_tails, List.getElem_tails, List.isPrefixOf_iff_prefix]
  constructor
  · rintro ⟨inside, here, before⟩
    refine ⟨⟨Nat.le_of_lt_succ inside, here⟩, fun other ⟨_, also⟩ => ?_⟩
    -- An earlier place would have been found before.
    by_contra earlier
    exact before other (Nat.lt_of_not_le earlier) also
  · rintro ⟨⟨inside, here⟩, least⟩
    refine ⟨Nat.lt_succ_of_le inside, here, fun other earlier also => ?_⟩
    exact absurd (least ⟨by omega, also⟩) (Nat.not_le_of_lt earlier)

/-- There is none exactly when the part does not occur. -/
theorem firstOccurrence_eq_none : firstOccurrence text part = none ↔ ¬ ∃ place, OccursAt text part place := by
  rw [firstOccurrence, List.findIdx?_eq_none_iff, exists_occursAt, List.infix_iff_prefix_suffix]
  simp only [List.mem_tails, Bool.eq_false_iff, ne_eq, List.isPrefixOf_iff_prefix, not_exists, not_and]
  exact forall_congr' fun rest => imp_not_comm

/-- A part that is not empty does not occur in the empty text. -/
theorem firstOccurrence_nil (some : part ≠ []) : firstOccurrence [] part = none := by
  rw [firstOccurrence_eq_none, exists_occursAt, List.infix_nil]
  exact some

/-- A part at the start occurs there first. -/
theorem firstOccurrence_front (front : part <+: text) : firstOccurrence text part = some 0 :=
  firstOccurrence_eq_some.mpr ⟨⟨Nat.zero_le _, front⟩, fun _ _ => Nat.zero_le _⟩

/-- Another part occurs first where it does behind the first character. -/
theorem firstOccurrence_behind {c : α} {rest : List α} (other : ¬ part <+: c :: rest) :
    firstOccurrence (c :: rest) part = (firstOccurrence rest part).map (· + 1) := by
  rw [firstOccurrence, List.tails_cons, List.findIdx?_cons, if_neg (by simpa using other), firstOccurrence]

/-- How many characters two texts have in common from their starts on. -/
def agreed : List α → List α → Nat
  | c :: rest, d :: others => if c = d then agreed rest others + 1 else 0
  | _, _ => 0

/-- Two texts agree on no more characters than the second one has, and on all of them where it is the front of the
first one. -/
theorem agreed_le (text part : List α) :
    agreed text part ≤ part.length ∧ (agreed text part = part.length ↔ part <+: text) := by
  induction text generalizing part with
  | nil => cases part <;> simp [agreed]
  | cons c rest ih =>
    cases part with
    | nil => simp [agreed]
    | cons d others =>
      obtain ⟨short, whole⟩ := ih others
      rw [agreed, List.cons_prefix_cons, List.length_cons]
      split_ifs with same
      · -- The characters behind equal ones decide.
        rw [← whole]
        exact ⟨by omega, by simp [same]⟩
      · exact ⟨Nat.zero_le _, by simp [Ne.symm same]⟩

end

end Machine

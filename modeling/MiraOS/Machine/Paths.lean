import Mathlib.Data.List.Basic

/-! Paths as sequences of names between separators, and names cut into pieces of a bounded length. -/

namespace Machine

variable {α : Type}

/-- A text cut into pieces of a length, of which only the last may be shorter. -/
def cutInto (size : Nat) (text : List α) : List (List α) :=
  if text = [] then []
  else if text.length ≤ size ∨ size = 0 then [text]
  else text.take size :: cutInto size (text.drop size)
termination_by text.length
decreasing_by
  rw [List.length_drop]
  omega

/-- A text that is short enough is one piece. -/
theorem cutInto_short {size : Nat} {text : List α} (some : text ≠ []) (short : text.length ≤ size) :
    cutInto size text = [text] := by
  rw [cutInto, if_neg some, if_pos (.inl short)]

/-- The first piece of a longer text. -/
theorem cutInto_append {size : Nat} {first rest : List α} (full : first.length = size) (positive : 0 < size)
    (some : rest ≠ []) : cutInto size (first ++ rest) = first :: cutInto size rest := by
  have more := List.length_pos_iff.mpr some
  have filled : first ++ rest ≠ [] := by simp [some]
  -- The text is longer than a piece, so it is cut behind the first one.
  have long : ¬ ((first ++ rest).length ≤ size ∨ size = 0) := by
    rw [List.length_append]
    omega
  rw [cutInto, if_neg filled, if_neg long]
  simp [← full]

variable [DecidableEq α] {sep : α}

/-- The names of a path: what stands between its separators, where that is not empty. -/
def components (sep : α) (path : List α) : List (List α) :=
  (path.splitOn sep).filter fun name => decide (name ≠ [])

/-- The names of a path, those that are too long cut into pieces. -/
def pieces (sep : α) (size : Nat) (path : List α) : List (List α) :=
  (components sep path).flatMap (cutInto size)

/-- An empty path has no names. -/
@[simp] theorem components_nil : components sep [] = [] := by
  simp [components]

/-- A separator in front adds no name. -/
@[simp] theorem components_sep (path : List α) : components sep (sep :: path) = components sep path := by
  -- The empty name in front of the separator is left out.
  have split := List.splitOn_append_cons_self_of_not_mem (List.not_mem_nil (a := sep)) path
  rw [List.nil_append] at split
  simp [components, split]

/-- A name in front of a separator is the first one of the path. -/
theorem components_append_sep {name : List α} (plain : sep ∉ name) (some : name ≠ []) (rest : List α) :
    components sep (name ++ sep :: rest) = name :: components sep rest := by
  simp [components, List.splitOn_append_cons_self_of_not_mem plain, some]

/-- A path without a separator is one name. -/
theorem components_plain {name : List α} (plain : sep ∉ name) (some : name ≠ []) :
    components sep name = [name] := by
  simp [components, List.splitOn_eq_singleton plain, some]

/-- A path is its bytes up to the first separator, and the rest from there on. -/
theorem split_first (sep : α) (path : List α) :
    ∃ name rest, path = name ++ rest ∧ sep ∉ name ∧ (rest = [] ∨ ∃ more, rest = sep :: more) := by
  -- The first separator is at the front, or it is found in the rest.
  induction path with
  | nil => exact ⟨[], [], rfl, List.not_mem_nil, .inl rfl⟩
  | cons byte path ih =>
    by_cases here : byte = sep
    · exact ⟨[], byte :: path, rfl, List.not_mem_nil, .inr ⟨path, by rw [here]⟩⟩
    · obtain ⟨name, rest, rfl, plain, ends⟩ := ih
      refine ⟨byte :: name, rest, rfl, ?_, ends⟩
      intro among
      rcases List.mem_cons.mp among with same | among
      · exact here same.symm
      · exact plain among

/-- A name in front of a rest that ends it is the first one of the path. -/
theorem components_append {name rest : List α} (plain : sep ∉ name) (some : name ≠ [])
    (ends : rest = [] ∨ ∃ more, rest = sep :: more) :
    components sep (name ++ rest) = name :: components sep rest := by
  -- The name is the whole path, or a separator follows it.
  rcases ends with rfl | ⟨more, rfl⟩
  · rw [List.append_nil, components_plain plain some, components_nil]
  · rw [components_append_sep plain some, components_sep]

@[simp] theorem pieces_nil (sep : α) (size : Nat) : pieces sep size [] = [] := by
  simp [pieces]

@[simp] theorem pieces_sep (size : Nat) (path : List α) :
    pieces sep size (sep :: path) = pieces sep size path := by
  simp [pieces]

/-- A name that a separator or the end of the path follows, or that is as long as a piece, is the first
piece. -/
theorem pieces_append {size : Nat} {name rest : List α} (plain : sep ∉ name) (some : name ≠ [])
    (short : name.length ≤ size)
    (ends : name.length = size ∨ rest = [] ∨ ∃ more, rest = sep :: more) :
    pieces sep size (name ++ rest) = name :: pieces sep size rest := by
  have positive := List.length_pos_iff.mpr some
  -- The name goes on up to the first separator behind it.
  obtain ⟨more, last, rfl, plainMore, lastEnds⟩ := split_first sep rest
  by_cases none : more = []
  · subst none
    rw [List.nil_append, pieces, components_append plain some lastEnds, List.flatMap_cons,
      cutInto_short some short]
    rfl
  · -- A name that goes on is cut, which only happens at the length of a piece.
    have full : name.length = size := by
      rcases ends with full | nothing | ⟨other, starts⟩
      · exact full
      · exact absurd (List.append_eq_nil_iff.mp nothing).1 none
      · cases more with
        | nil => exact absurd rfl none
        | cons byte more =>
          rw [List.cons_append, List.cons.injEq] at starts
          rw [starts.1] at plainMore
          exact absurd List.mem_cons_self plainMore
    have whole : sep ∉ name ++ more := by simp [plain, plainMore]
    rw [← List.append_assoc, pieces, components_append whole (by simp [some]) lastEnds,
      List.flatMap_cons, cutInto_append full (by omega) none, pieces, components_append plainMore none lastEnds,
      List.flatMap_cons]
    rfl

/-- A path of short names has no others. -/
theorem pieces_of_short {size : Nat} {path : List α}
    (short : ∀ name ∈ components sep path, name.length ≤ size) :
    pieces sep size path = components sep path := by
  -- No name is empty, so each one is exactly one piece.
  have each : ∀ names : List (List α), (∀ name ∈ names, name ≠ [] ∧ name.length ≤ size) →
      names.flatMap (cutInto size) = names := by
    intro names
    induction names with
    | nil => exact fun _ => rfl
    | cons name names ih =>
      intro all
      obtain ⟨some, fits⟩ := all name List.mem_cons_self
      rw [List.flatMap_cons, cutInto_short some fits,
        ih fun other among => all other (List.mem_cons_of_mem _ among)]
      rfl
  apply each
  intro name among
  refine ⟨?_, short name among⟩
  simpa using (List.mem_filter.mp among).2

end Machine

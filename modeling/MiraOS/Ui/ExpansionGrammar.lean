import MiraOS.Ui.Expansion

/-! The grammar of expanded text in ui/shell.c, and the expansion as the front of what it gives. -/

namespace MiraOS

open Machine

/-- A piece of a text that is expanded. -/
inductive ExpansionPiece where
  | variable (name : List UInt8)
  | home
  | byte (c : UInt8)
  deriving DecidableEq

/-- The piece that starts with a character, and the text behind it. -/
def nextPiece (c : UInt8) (rest : List UInt8) : ExpansionPiece × List UInt8 :=
  if c = '$'.toUInt8 then
    if rest.head? = some openBrace then
      -- The closing brace belongs to the piece, if there is one.
      (.variable (rest.tail.takeWhile (· ≠ closeBrace)), (rest.tail.dropWhile (· ≠ closeBrace)).tail)
    else (.variable (rest.takeWhile isNameChar), rest.dropWhile isNameChar)
  else if c = '~'.toUInt8 ∧ (rest = [] ∨ rest.head? = some '/'.toUInt8) then (.home, rest)
  else (.byte c, rest)

/-- A piece leaves a suffix of the text. -/
theorem nextPiece_suffix (c : UInt8) (rest : List UInt8) : (nextPiece c rest).2 <:+ rest := by
  -- Every kind of piece ends at a later place of the input.
  fun_cases nextPiece c rest with
  | case1 =>
    exact (List.tail_suffix _).trans ((List.dropWhile_suffix _).trans (List.tail_suffix rest))
  | case2 => exact List.dropWhile_suffix _
  | case3 | case4 => exact List.suffix_rfl

/-- The pieces of a text, in order. -/
def expansionPieces : List UInt8 → List ExpansionPiece
  | [] => []
  | c :: rest => (nextPiece c rest).1 :: expansionPieces (nextPiece c rest).2
termination_by input => input.length
decreasing_by
  have shorter := (nextPiece_suffix c rest).length_le
  simp only [List.length_cons]
  omega

/-- The name of a variable that a piece stands for. -/
def ExpansionPiece.name? : ExpansionPiece → Option (List UInt8)
  | .variable name => some name
  | _ => none

/-- What a piece is replaced by. -/
def ExpansionPiece.text (value : List UInt8 → List UInt8) : ExpansionPiece → List UInt8
  | .variable name => value name
  | .home => value (asciiBytes "HOME")
  | .byte c => [c]

/-- The names of variables in a text. -/
def variableNames (input : List UInt8) : List (List UInt8) :=
  (expansionPieces input).filterMap ExpansionPiece.name?

/-- The whole expansion of a text; the values that are put in are not looked at again. -/
def fullExpansion (value : List UInt8 → List UInt8) (input : List UInt8) : List UInt8 :=
  (expansionPieces input).flatMap (ExpansionPiece.text value)

/-- The value of a variable among others, which is empty when it is not set. -/
def valueAmong (items : List ShellVar) (name : List UInt8) : List UInt8 :=
  ((keyed (·.name) items name).map (·.value)).getD []

/-- The text without its first pieces. -/
theorem expansionPieces_cons (c : UInt8) (rest : List UInt8) :
    expansionPieces (c :: rest) = (nextPiece c rest).1 :: expansionPieces (nextPiece c rest).2 := by
  rw [expansionPieces]

/-- The names of a text are that of its first piece and those behind it. -/
theorem variableNames_cons (c : UInt8) (rest : List UInt8) :
    variableNames (c :: rest) = (nextPiece c rest).1.name?.toList ++ variableNames (nextPiece c rest).2 := by
  rw [variableNames, expansionPieces_cons, List.filterMap_cons]
  -- A piece has a name or is plain.
  cases (nextPiece c rest).1.name? with
  | none => rfl
  | some name => rfl

/-- The expansion of a text is that of its first piece and that of the text behind it. -/
theorem fullExpansion_cons (value : List UInt8 → List UInt8) (c : UInt8) (rest : List UInt8) :
    fullExpansion value (c :: rest) =
      (nextPiece c rest).1.text value ++ fullExpansion value (nextPiece c rest).2 := by
  rw [fullExpansion, expansionPieces_cons, List.flatMap_cons]
  rfl

/-- The loop over a name in braces takes the whole name, if it fits. -/
theorem bracedName_eq (input name : List UInt8)
    (fits : name.length + (input.takeWhile (· ≠ closeBrace)).length ≤ 255) :
    bracedName input name =
      (name ++ input.takeWhile (· ≠ closeBrace), input.dropWhile (· ≠ closeBrace)) := by
  induction input generalizing name with
  | nil => simp [bracedName]
  | cons c rest ih =>
    rw [bracedName]
    by_cases closes : c = closeBrace
    · -- The brace ends the name.
      rw [if_neg (by simp [closes])]
      simp [closes]
    · have taken : (c :: rest).takeWhile (· ≠ closeBrace) = c :: rest.takeWhile (· ≠ closeBrace) :=
        List.takeWhile_cons_of_pos (by simpa using closes)
      have left : (c :: rest).dropWhile (· ≠ closeBrace) = rest.dropWhile (· ≠ closeBrace) :=
        List.dropWhile_cons_of_pos (by simpa using closes)
      rw [taken, List.length_cons] at fits
      have room : name.length < varNameSize - 1 := by
        rw [varNameSize]
        omega
      -- The character is stored, and the name goes on behind it.
      rw [if_pos ⟨closes, room⟩, taken, left, ih]
      · rw [List.append_assoc]
        rfl
      · rw [List.length_append, List.length_singleton]
        omega

/-- What is left behind a name starts with the closing brace, or there is nothing. -/
theorem skipChar_dropWhile (input : List UInt8) :
    skipChar closeBrace (input.dropWhile (· ≠ closeBrace)) = (input.dropWhile (· ≠ closeBrace)).tail := by
  -- Induction on the text: a byte other than the brace is dropped by both sides.
  induction input with
  | nil => rfl
  | cons c rest ih =>
    by_cases closes : c = closeBrace
    · rw [List.dropWhile_cons_of_neg (by simpa using closes), skipChar, if_pos closes, List.tail_cons]
    · rw [List.dropWhile_cons_of_pos (by simpa using closes)]
      exact ih

/-- The look at the next character sees the terminator at the end only. -/
theorem headD_eq_iff {rest : List UInt8} {c : UInt8} (solid : c ≠ 0) :
    rest.headD 0 = c ↔ rest.head? = some c := by
  -- The terminator is none of the bytes asked for.
  cases rest with
  | nil => simp [Ne.symm solid]
  | cons first others => simp

/-- The loop cuts the text into the pieces of the grammar, whose names it has room for. -/
theorem pieceAt_eq (vars : ShellVars) {c : UInt8} {rest : List UInt8} (solid : 0 ∉ rest)
    (short : ∀ name ∈ (nextPiece c rest).1.name?, name.length ≤ 255) :
    (pieceAt vars c rest).copied = (nextPiece c rest).1.text (shellGetVariable vars) ∧
      (pieceAt vars c rest).rest = (nextPiece c rest).2 ∧
      ∀ name ∈ (pieceAt vars c rest).bare, name.length < varNameSize := by
  -- Both look at the same characters, one of them with the terminator behind the text.
  unfold nextPiece at short ⊢
  unfold pieceAt
  by_cases dollar : c = '$'.toUInt8
  · simp only [if_pos dollar] at short ⊢
    by_cases brace : rest.head? = some openBrace
    · -- A name in braces.
      have look : rest.headD 0 = openBrace := (headD_eq_iff (by decide)).mpr brace
      simp only [if_pos brace] at short ⊢
      have whole := bracedName_eq rest.tail [] (by simpa [ExpansionPiece.name?] using short)
      simp only [if_pos look, whole, List.nil_append]
      exact ⟨rfl, skipChar_dropWhile _, fun _ among => by cases among⟩
    · -- A bare name.
      have look : rest.headD 0 ≠ openBrace := fun same => brace ((headD_eq_iff (by decide)).mp same)
      simp only [if_neg brace] at short ⊢
      simp only [if_neg look]
      refine ⟨rfl, trivial, fun name among => ?_⟩
      exact Nat.lt_succ_of_le (short name among)
  · simp only [if_neg dollar] at short ⊢
    -- The end of the text is the only place where the next character is the terminator.
    have ending : rest.headD 0 = 0 ↔ rest = [] := by
      cases rest with
      | nil => simp
      | cons first others =>
        have nonzero : first ≠ 0 := fun same => solid (by simp [same])
        simp [nonzero]
    have same : (c = '~'.toUInt8 ∧ (rest.headD 0 = '/'.toUInt8 ∨ rest.headD 0 = 0)) ↔
        c = '~'.toUInt8 ∧ (rest = [] ∨ rest.head? = some '/'.toUInt8) := by
      rw [ending, headD_eq_iff (by decide), or_comm]
    by_cases tilde : c = '~'.toUInt8 ∧ (rest = [] ∨ rest.head? = some '/'.toUInt8)
    · simp only [if_pos tilde, if_pos (same.mpr tilde)]
      exact ⟨rfl, trivial, fun _ among => by cases among⟩
    · simp only [if_neg tilde, if_neg fun both => tilde (same.mp both)]
      exact ⟨rfl, trivial, fun _ among => by cases among⟩

/-- The front of a text whose first part was cut already. -/
theorem take_append_take {α : Type} (count : Nat) (front back : List α) :
    (front.take count ++ back).take count = (front ++ back).take count := by
  rw [List.take_append, List.take_append, List.take_take, Nat.min_self, List.length_take]
  congr 2
  omega

/-- The loop gives the front of the text so far and the whole expansion of the input. -/
theorem expansion_eq_take (vars : ShellVars) (input resolved : List UInt8) (solid : 0 ∉ input)
    (short : ∀ name ∈ variableNames input, name.length ≤ 255) (fits : resolved.length ≤ 8191) :
    (expansion vars input resolved).1 = (resolved ++ fullExpansion (shellGetVariable vars) input).take 8191 ∧
      ∀ name ∈ (expansion vars input resolved).2, name.length < varNameSize := by
  -- The cut is the invariant: what is copied is cut, and cutting it once more changes nothing.
  fun_induction expansion vars input resolved with
  | case1 resolved =>
    refine ⟨?_, fun _ among => by cases among⟩
    rw [fullExpansion, expansionPieces, List.flatMap_nil, List.append_nil, List.take_of_length_le fits]
  | case2 resolved c rest full =>
    -- A full text is the front whatever follows.
    have exact_ : resolved.length = 8191 := by
      rw [resolvedSize] at full
      omega
    refine ⟨?_, fun _ among => by cases among⟩
    rw [List.take_append_of_le_length (by omega), List.take_of_length_le fits]
  | case3 resolved c rest room piece later ih =>
    rw [variableNames_cons] at short
    -- The next piece is the one of the grammar.
    obtain ⟨copied, left, bare⟩ := pieceAt_eq vars (fun zero => solid (List.mem_cons_of_mem c zero))
      fun name among => short name (List.mem_append_left _ (Option.mem_toList.mpr among))
    -- What the buffer has no room for is dropped.
    have cut : copyValue resolved piece.copied = (resolved ++ piece.copied).take 8191 := by
      rw [copyValue, List.take_append, List.take_of_length_le fits]
      rfl
    have inner := ih
      (fun zero => solid (List.mem_cons_of_mem c ((pieceAt_suffix vars c rest).subset zero)))
      (fun name among => short name (List.mem_append_right _ (left ▸ among)))
      (by
        rw [cut, List.length_take]
        omega)
    obtain ⟨text, names⟩ := inner
    constructor
    · rw [fullExpansion_cons, ← copied, ← left]
      change later.1 = _
      rw [text, cut, take_append_take, List.append_assoc]
    · intro name among
      rcases List.mem_append.mp among with here | there
      · exact bare name (Option.mem_toList.mp here)
      · exact names name there

/--
The expansion of a text is the front of its whole expansion, as far as the buffer goes.

Where the table stands for variables, the values are theirs, and that of any other name is empty.
-/
theorem shellResolveVariables_eq (vars : ShellVars) {input : List UInt8} (solid : 0 ∉ input)
    (short : ∀ name ∈ variableNames input, name.length ≤ 255) :
    shellResolveVariables vars input =
        .ok ((fullExpansion (shellGetVariable vars) input).take 8191) ∧
      ∀ items, vars.Holds items → ∀ name, 0 ∉ name → shellGetVariable vars name = valueAmong items name := by
  -- The text that fits in the buffer is a prefix of the expansion, and every name is looked up whole.
  obtain ⟨text, names⟩ := expansion_eq_take vars input [] solid short (Nat.zero_le _)
  constructor
  · rw [shellResolveVariables, resolveLoop_eq, if_pos names, text, List.nil_append]
  · intro items holds name noZero
    exact holds.get noZero

/-- Two variables that are set, one of them the home directory. -/
def twoVars : ShellVars :=
  shellSetVariable (shellSetVariable (noVars fun _ => 0) (asciiBytes "HOME") (asciiBytes "/root"))
    (asciiBytes "D") (asciiBytes "a$D")

theorem twoVars_holds :
    twoVars.Holds [⟨asciiBytes "HOME", asciiBytes "/root", false⟩, ⟨asciiBytes "D", asciiBytes "a$D", false⟩] := by
  -- Both names and values end inside their fields.
  have home : NameFits (asciiBytes "HOME") ∧ ValueFits (asciiBytes "/root") := by
    unfold NameFits ValueFits
    decide +kernel
  have second : NameFits (asciiBytes "D") ∧ ValueFits (asciiBytes "a$D") := by
    unfold NameFits ValueFits
    decide +kernel
  have first := (noVars_holds fun _ => 0).set_new home.1 home.2 (by simp) (by decide)
  exact first.set_new second.1 second.2 (by decide +kernel) (by decide)

/-- Set variables give their values, which are not expanded again, and an unset one gives nothing. -/
theorem variables_and_home_expand :
    let input := asciiBytes "~/$D-$\x7bD\x7d$X"
    variableNames input = [asciiBytes "D", asciiBytes "D", asciiBytes "X"] ∧
      shellResolveVariables twoVars input = .ok (asciiBytes "/root/a$D-a$D") ∧
      shellGetVariable twoVars (asciiBytes "D") = asciiBytes "a$D" := by
  intro input
  -- The names of the input are computed once; none is longer than the buffer of the source.
  have names : variableNames input = [asciiBytes "D", asciiBytes "D", asciiBytes "X"] := by decide +kernel
  have short : ∀ name ∈ variableNames input, name.length ≤ 255 := by
    rw [names]
    decide +kernel
  have solid : 0 ∉ input := by decide +kernel
  obtain ⟨expanded, values⟩ := shellResolveVariables_eq twoVars solid short
  refine ⟨names, ?_, ?_⟩
  · rw [expanded]
    decide +kernel
  · rw [values _ twoVars_holds _ (by decide +kernel)]
    decide +kernel

end MiraOS

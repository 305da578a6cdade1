import MiraOS.Ui.Tokenizer
import MiraOS.Ui.Variables

/-! The expansion of variables in ui/shell.c, and which commands stay inside its buffers and those of
the tokenizer. -/

namespace MiraOS

open Machine

/-- Size of the buffer for the name of a variable. -/
def varNameSize : Nat := 256

/-- Size of the buffer for the expanded text. -/
def resolvedSize : Nat := 8192

/-- The loop over a bare name behind a dollar sign. -/
def bareName (input : List UInt8) : Except Halt (List UInt8 × List UInt8) :=
  uncheckedLoop varNameSize isNameChar input []

/-- The loop over a name in braces, which keeps room for the terminator. -/
def bracedName : List UInt8 → List UInt8 → List UInt8 × List UInt8
  | [], name => (name, [])
  | c :: rest, name =>
    if c ≠ closeBrace ∧ name.length < varNameSize - 1 then bracedName rest (name ++ [c])
    else (name, c :: rest)

/-- Copy a value behind the expanded text as far as there is room. -/
def copyValue (resolved value : List UInt8) : List UInt8 :=
  resolved ++ value.take (resolvedSize - 1 - resolved.length)

/-- The loop over a name in braces leaves a suffix of the input. -/
theorem bracedName_suffix (input name : List UInt8) : (bracedName input name).2 <:+ input := by
  -- Induction along the name: each byte is taken off the front.
  fun_induction bracedName input name with
  | case1 | case3 => exact List.suffix_rfl
  | case2 _ _ _ _ ih => exact ih.trans (List.suffix_cons ..)

/-- The loop over a bare name leaves a suffix of the input. -/
theorem bareName_suffix {input : List UInt8} {taken : List UInt8 × List UInt8}
    (ran : bareName input = .ok taken) : taken.2 <:+ input :=
  uncheckedLoop_suffix ran

/-- The loop over the input, with the text expanded so far. -/
def resolveLoop (vars : ShellVars) (input resolved : List UInt8) : Except Halt (List UInt8) :=
  match input with
  | [] => .ok resolved
  | c :: rest =>
    if resolvedSize - 1 ≤ resolved.length then .ok resolved
    else if c = '$'.toUInt8 then
      if rest.headD 0 = openBrace then
        let taken := bracedName rest.tail []
        resolveLoop vars (skipChar closeBrace taken.2)
          (copyValue resolved (shellGetVariable vars taken.1))
      else
        match _named : bareName rest with
        | .error halt => .error halt
        | .ok taken =>
          resolveLoop vars taken.2 (copyValue resolved (shellGetVariable vars taken.1))
    -- A tilde stands for the home directory at the end and in front of a slash.
    else if c = '~'.toUInt8 ∧ (rest.headD 0 = '/'.toUInt8 ∨ rest.headD 0 = 0) then
      resolveLoop vars rest (copyValue resolved (shellGetVariable vars (asciiBytes "HOME")))
    else resolveLoop vars rest (resolved ++ [c])
termination_by input.length
decreasing_by
  · have shorter := ((skipChar_suffix closeBrace _).trans
      ((bracedName_suffix rest.tail []).trans (List.tail_suffix rest))).length_le
    simp only [List.length_cons]
    omega
  · have shorter := (bareName_suffix _named).length_le
    simp only [List.length_cons]
    omega
  · simp
  · simp

/-- The text of a command with its variables expanded. -/
def shellResolveVariables (vars : ShellVars) (input : List UInt8) : Except Halt (List UInt8) :=
  resolveLoop vars input []

/-- A text without a dollar sign and a tilde is expanded to itself. -/
theorem shellResolveVariables_plain (vars : ShellVars) {text : List UInt8}
    (bytes : ∀ c ∈ text, c ≠ '$'.toUInt8 ∧ c ≠ '~'.toUInt8) (short : text.length < resolvedSize) :
    shellResolveVariables vars text = .ok text := by
  -- The bytes move one by one from the input to the text behind them.
  have loop : ∀ resolved : List UInt8, resolved.length + text.length < resolvedSize →
      resolveLoop vars text resolved = .ok (resolved ++ text) := by
    induction text with
    | nil =>
      intro resolved _
      rw [resolveLoop, List.append_nil]
    | cons c rest ih =>
      intro resolved room
      rw [List.length_cons] at room short
      obtain ⟨dollar, tilde⟩ := bytes c List.mem_cons_self
      have later := ih (fun other among => bytes other (List.mem_cons_of_mem _ among)) (by omega)
        (resolved ++ [c]) (by rw [List.length_append, List.length_singleton]; omega)
      -- The byte is neither of the two that are expanded, so it is copied.
      rw [resolveLoop, if_neg (by omega), if_neg dollar, if_neg (fun both => tilde both.1), later,
        List.append_assoc]
      rfl
  exact loop [] (by simpa using short)

/-- What the expansion makes of the next character: what it copies, the bare name it reads for that,
and the input after it. -/
structure TextPiece where
  copied : List UInt8
  bare : Option (List UInt8)
  rest : List UInt8

/-- The next piece of the input, for names of any length. -/
def pieceAt (vars : ShellVars) (c : UInt8) (rest : List UInt8) : TextPiece :=
  if c = '$'.toUInt8 then
    if rest.headD 0 = openBrace then
      let taken := bracedName rest.tail []
      ⟨shellGetVariable vars taken.1, none, skipChar closeBrace taken.2⟩
    else
      let name := rest.takeWhile isNameChar
      ⟨shellGetVariable vars name, some name, rest.dropWhile isNameChar⟩
  else if c = '~'.toUInt8 ∧ (rest.headD 0 = '/'.toUInt8 ∨ rest.headD 0 = 0) then
    ⟨shellGetVariable vars (asciiBytes "HOME"), none, rest⟩
  else ⟨[c], none, rest⟩

/-- A piece takes at least its first character. -/
theorem pieceAt_suffix (vars : ShellVars) (c : UInt8) (rest : List UInt8) :
    (pieceAt vars c rest).rest <:+ rest := by
  -- Every branch reads on from a later place of the input.
  fun_cases pieceAt vars c rest with
  | case1 =>
    exact (skipChar_suffix ..).trans ((bracedName_suffix ..).trans (List.tail_suffix rest))
  | case2 => exact List.dropWhile_suffix _
  | case3 | case4 => exact List.suffix_rfl

/-- The expanded text of a command and the bare names that are read for it, in order. -/
def expansion (vars : ShellVars) (input resolved : List UInt8) : List UInt8 × List (List UInt8) :=
  match input with
  | [] => (resolved, [])
  | c :: rest =>
    -- Once the text is full the rest of the input is left.
    if resolvedSize - 1 ≤ resolved.length then (resolved, [])
    else
      let piece := pieceAt vars c rest
      let later := expansion vars piece.rest (copyValue resolved piece.copied)
      (later.1, piece.bare.toList ++ later.2)
termination_by input.length
decreasing_by
  have shorter := (pieceAt_suffix vars c rest).length_le
  simp only [List.length_cons]
  omega

/-- The text that the expansion of a command gives. -/
def expandedText (vars : ShellVars) (cmd : List UInt8) : List UInt8 := (expansion vars cmd []).1

/-- The bare names that the expansion of a command reads. -/
def bareNames (vars : ShellVars) (cmd : List UInt8) : List (List UInt8) := (expansion vars cmd []).2

/-- One turn of the loop takes the next piece, if its bare name fits. -/
theorem resolveLoop_cons (vars : ShellVars) (c : UInt8) (rest resolved : List UInt8)
    (room : ¬ resolvedSize - 1 ≤ resolved.length) :
    resolveLoop vars (c :: rest) resolved =
      if ∀ name ∈ (pieceAt vars c rest).bare, name.length < varNameSize then
        resolveLoop vars (pieceAt vars c rest).rest
          (copyValue resolved (pieceAt vars c rest).copied)
      else .error .outOfBounds := by
  rw [resolveLoop, if_neg room, pieceAt]
  -- The branches are those of the source: a name in braces, a bare name, a tilde and any other byte.
  by_cases dollar : c = '$'.toUInt8
  · rw [if_pos dollar, if_pos dollar]
    by_cases brace : rest.headD 0 = openBrace
    · rw [if_pos brace, if_pos brace]
      simp
    · rw [if_neg brace, if_neg brace]
      split
      · -- A name that does not fit stops the code.
        rename_i halt stopped
        rw [bareName, uncheckedLoop_eq] at stopped
        split_ifs at stopped with fits
        cases stopped
        rw [if_neg (by simpa using fits)]
      · rename_i taken named
        rw [bareName, uncheckedLoop_eq] at named
        split_ifs at named with fits
        cases named
        rw [if_pos (by simpa using fits)]
        rfl
  · rw [if_neg dollar, if_neg dollar]
    by_cases tilde : c = '~'.toUInt8 ∧ (rest.headD 0 = '/'.toUInt8 ∨ rest.headD 0 = 0)
    · rw [if_pos tilde, if_pos tilde]
      simp
    · -- There is room for one byte, so copying it is appending it.
      have single : copyValue resolved [c] = resolved ++ [c] := by
        rw [copyValue, List.take_of_length_le]
        rw [List.length_singleton]
        omega
      rw [if_neg tilde, if_neg tilde]
      simp [single]

/-- The loop gives the expanded text exactly when every bare name it reads fits. -/
theorem resolveLoop_eq (vars : ShellVars) (input resolved : List UInt8) :
    resolveLoop vars input resolved =
      if ∀ name ∈ (expansion vars input resolved).2, name.length < varNameSize then
        .ok (expansion vars input resolved).1
      else .error .outOfBounds := by
  -- The names of the whole input are those of the first piece and those of the rest.
  fun_induction expansion vars input resolved with
  | case1 resolved => simp [resolveLoop]
  | case2 resolved c rest full =>
    rw [resolveLoop, if_pos full]
    simp
  | case3 resolved c rest room piece later ih =>
    rw [resolveLoop_cons vars c rest resolved room]
    change (if ∀ name ∈ piece.bare, name.length < varNameSize then
      resolveLoop vars piece.rest (copyValue resolved piece.copied) else _) = _
    rw [ih]
    -- The name of the first piece stops the loop, or those of the rest decide.
    by_cases fits : ∀ name ∈ piece.bare, name.length < varNameSize
    · rw [if_pos fits]
      refine if_congr ?_ rfl rfl
      simp only [List.mem_append, Option.mem_toList]
      constructor
      · rintro others name (here | there)
        · exact fits name here
        · exact others name there
      · intro all name there
        exact all name (.inr there)
    · rw [if_neg fits, if_neg]
      intro all
      exact fits fun name here => all name (by simp [Option.mem_def.mp here])

/-- The expanded text never fills its buffer. -/
theorem expansion_length (vars : ShellVars) (input resolved : List UInt8)
    (room : resolved.length < resolvedSize) :
    (expansion vars input resolved).1.length < resolvedSize := by
  fun_induction expansion vars input resolved with
  | case1 resolved => exact room
  | case2 resolved c rest full => exact room
  | case3 resolved c rest free piece later ih =>
    -- A value is cut to what leaves room for the terminator.
    refine ih ?_
    rw [copyValue, List.length_append, List.length_take]
    omega

end MiraOS

import MiraOS.Ui.Expansion

/-! Which commands keep the expansion and the tokenizer inside their buffers. -/

namespace MiraOS

open Machine

/-- The text of a token that is stored without a look at the buffer's end, if it is one. -/
def plainRun (c : UInt8) (rest : List UInt8) : Option (List UInt8) :=
  match lexOperator c rest with
  | some _ => none
  | none =>
    if c = doubleQuote ∨ c = singleQuote then none
    else if c = '$'.toUInt8 then
      if rest.headD 0 = openBrace then none else some (rest.takeWhile isNameChar)
    else if isWordStart c then some ((c :: rest).takeWhile isWordChar)
    else if isDigit c then some ((c :: rest).takeWhile isDigit)
    else none

/-- The input behind a token, for tokens of any length. -/
def restAfter (c : UInt8) (rest : List UInt8) : List UInt8 :=
  match lexOperator c rest with
  | some lexeme => lexeme.rest
  | none =>
    if c = doubleQuote ∨ c = singleQuote then skipChar c (quotedLoop c rest []).2
    else if c = '$'.toUInt8 then
      if rest.headD 0 = openBrace then skipChar closeBrace (bracedLoop rest.tail []).2
      else rest.dropWhile isNameChar
    else if isWordStart c then (c :: rest).dropWhile isWordChar
    else if isDigit c then (c :: rest).dropWhile isDigit
    else (lexArithmetic c rest).rest

/-- A token whose text is a run of characters is made exactly when the run fits the buffer. -/
theorem plainLoop_token (type : TokenType) (belongs : UInt8 → Bool) (input : List UInt8) :
    (plainLoop belongs input [] >>= fun taken => pure (⟨type, taken.1, taken.2⟩ : Lexeme)) =
      if (input.takeWhile belongs).length < tokenBufSize then
        .ok ⟨type, input.takeWhile belongs, input.dropWhile belongs⟩
      else .error .outOfBounds := by
  rw [plainLoop, uncheckedLoop_eq, List.length_nil, Nat.zero_add]
  -- The run fits into the buffer or ends the loop.
  split_ifs
  · rfl
  · rfl

/-- A token is made exactly when its text fits the buffer, and the input behind it is then known. -/
theorem lexToken_cases (c : UInt8) (rest : List UInt8) :
    (∃ lexeme, lexToken c rest = .ok lexeme ∧ lexeme.rest = restAfter c rest ∧
        ∀ run ∈ plainRun c rest, run.length < tokenBufSize) ∨
      (lexToken c rest = .error .outOfBounds ∧
        ∃ run ∈ plainRun c rest, ¬ run.length < tokenBufSize) := by
  -- A run of characters either fits or stops the code at the end of the buffer.
  have runs : ∀ (type : TokenType) (belongs : UInt8 → Bool) (input : List UInt8),
      (∃ lexeme : Lexeme,
        (plainLoop belongs input [] >>= fun taken => pure (⟨type, taken.1, taken.2⟩ : Lexeme)) =
          .ok lexeme ∧ lexeme.rest = input.dropWhile belongs ∧
        ∀ run ∈ some (input.takeWhile belongs), run.length < tokenBufSize) ∨
      ((plainLoop belongs input [] >>= fun taken => pure (⟨type, taken.1, taken.2⟩ : Lexeme)) =
          .error .outOfBounds ∧
        ∃ run ∈ some (input.takeWhile belongs), ¬ run.length < tokenBufSize) := by
    intro type belongs input
    rw [plainLoop_token]
    by_cases fits : (input.takeWhile belongs).length < tokenBufSize
    · rw [if_pos fits]
      exact .inl ⟨_, rfl, rfl, by simpa using fits⟩
    · rw [if_neg fits]
      exact .inr ⟨rfl, _, rfl, fits⟩
  rw [lexToken, plainRun, restAfter]
  -- The branches follow the tokenizer: only three of them hold a run of characters.
  cases lexOperator c rest with
  | some lexeme => exact .inl ⟨lexeme, rfl, rfl, by simp⟩
  | none =>
    by_cases quote : c = doubleQuote ∨ c = singleQuote
    · -- The loops over quoted and braced texts stop before the end of the buffer.
      simp only [if_pos quote]
      exact .inl ⟨_, rfl, rfl, by simp⟩
    simp only [if_neg quote]
    by_cases dollar : c = '$'.toUInt8
    · simp only [if_pos dollar]
      by_cases brace : rest.headD 0 = openBrace
      · simp only [if_pos brace]
        exact .inl ⟨_, rfl, rfl, by simp⟩
      · simp only [if_neg brace]
        exact runs .word isNameChar rest
    simp only [if_neg dollar]
    by_cases word : isWordStart c = true
    · simp only [if_pos word]
      exact runs .word isWordChar (c :: rest)
    simp only [if_neg word]
    by_cases digit : isDigit c = true
    · simp only [if_pos digit]
      exact runs .number isDigit (c :: rest)
    · simp only [if_neg digit]
      exact .inl ⟨_, rfl, rfl, by simp⟩

/-- A token takes at least its first character, however long it is. -/
theorem restAfter_suffix (c : UInt8) (rest : List UInt8) : restAfter c rest <:+ rest := by
  -- A run starts with a character that belongs to it.
  have run : ∀ belongs : UInt8 → Bool, belongs c = true →
      (c :: rest).dropWhile belongs <:+ rest := by
    intro belongs here
    rw [List.dropWhile_cons_of_pos here]
    exact List.dropWhile_suffix _
  fun_cases restAfter c rest with
  | case1 lexeme found => exact lexOperator_suffix found
  | case2 => exact (skipChar_suffix ..).trans (quotedLoop_suffix ..)
  | case3 => exact (skipChar_suffix ..).trans ((bracedLoop_suffix ..).trans (List.tail_suffix rest))
  | case4 => exact List.dropWhile_suffix _
  | case5 _ _ _ starts => exact run _ (isWordStart_belongs starts)
  | case6 _ _ _ _ digit => exact run _ digit
  | case7 => exact lexArithmetic_suffix ..

/-- The texts of all tokens of an input that are stored without a look at the buffer's end. -/
def plainRuns (input : List UInt8) : List (List UInt8) :=
  match input with
  | [] => []
  | c :: rest =>
    if c = 10 ∨ c = ' '.toUInt8 ∨ c = 9 then plainRuns rest
    else (plainRun c rest).toList ++ plainRuns (restAfter c rest)
termination_by input.length
decreasing_by
  · simp
  · have shorter := (restAfter_suffix c rest).length_le
    simp only [List.length_cons]
    omega

/-- The loop of the tokenizer ends well exactly when every run fits the buffer. -/
theorem tokenizeLoop_ok_iff (supply : Nat → Nat) (input : List UInt8) (tokens : List Token)
    (heap : HeapCalls) :
    (∃ made, tokenizeLoop supply input tokens heap = .ok made) ↔
      ∀ run ∈ plainRuns input, run.length < tokenBufSize := by
  -- The runs of the input are the one of the first token and those behind it.
  fun_induction plainRuns input generalizing tokens heap with
  | case1 => simp [tokenizeLoop]
  | case2 c rest blank ih =>
    rw [tokenizeLoop, if_pos blank]
    exact ih tokens heap
  | case3 c rest solid ih =>
    rw [tokenizeLoop, if_neg solid]
    rcases lexToken_cases c rest with ⟨lexeme, made, behind, fits⟩ | ⟨stopped, run, here, long⟩
    · -- The token is made, so the runs behind it decide.
      split
      · rename_i halt failed
        cases failed.symm.trans made
      · rename_i other lexed
        obtain rfl : other = lexeme := Except.ok.inj (lexed.symm.trans made)
        rw [behind, ih]
        simp only [List.mem_append, Option.mem_toList]
        constructor
        · rintro others run (first | later)
          · exact fits run first
          · exact others run later
        · intro all run later
          exact all run (.inr later)
    · split
      · -- The token is too long, and its run is one of those asked about.
        constructor
        · rintro ⟨made, ran⟩
          cases ran
        · intro all
          exact absurd (all run (by simp [Option.mem_def.mp here])) long
      · rename_i lexeme lexed
        cases lexed.symm.trans stopped

/-- The tokenizer ends well exactly when every run fits the buffer. -/
theorem tokenize_ok_iff (supply : Nat → Nat) (input : List UInt8) (heap : HeapCalls) :
    (∃ made, tokenize supply input heap = .ok made) ↔
      ∀ run ∈ plainRuns input, run.length < tokenBufSize := by
  -- The token for the end of input is always made, so the loop alone decides.
  rw [← tokenizeLoop_ok_iff supply input [] heap]
  constructor
  · rintro ⟨made, ran⟩
    obtain ⟨loop, first, -⟩ := bind_eq_ok.mp ran
    exact ⟨loop, first⟩
  · rintro ⟨loop, ran⟩
    exact ⟨_, bind_eq_ok.mpr ⟨loop, ran, rfl⟩⟩

/-- A command stays inside the buffers: the expansion ends with a text that leaves room for its
terminator, and the tokenizer ends on that text. -/
def StaysInBuffers (vars : ShellVars) (supply : Nat → Nat) (cmd : List UInt8) (heap : HeapCalls) :
    Prop :=
  ∃ resolved tokens, shellResolveVariables vars cmd = .ok resolved ∧
    resolved.length < resolvedSize ∧ tokenize supply resolved heap = .ok tokens

/-- A command stays inside the buffers exactly when the bare names it expands are shorter than the
buffer for names, and the names, words and numbers of the expanded text are shorter than the buffer
for tokens. -/
theorem stays_in_buffers_iff (vars : ShellVars) (supply : Nat → Nat) (cmd : List UInt8)
    (heap : HeapCalls) :
    StaysInBuffers vars supply cmd heap ↔
      (∀ name ∈ bareNames vars cmd, name.length < varNameSize) ∧
        ∀ run ∈ plainRuns (expandedText vars cmd), run.length < tokenBufSize := by
  -- The expansion ends with the text that buffers without an end would give.
  have expands : shellResolveVariables vars cmd =
      if ∀ name ∈ bareNames vars cmd, name.length < varNameSize then .ok (expandedText vars cmd)
      else .error .outOfBounds := resolveLoop_eq vars cmd []
  constructor
  · rintro ⟨resolved, tokens, ran, -, made⟩
    rw [expands] at ran
    split_ifs at ran with fits
    obtain rfl : expandedText vars cmd = resolved := Except.ok.inj ran
    exact ⟨fits, (tokenize_ok_iff supply _ heap).mp ⟨tokens, made⟩⟩
  · rintro ⟨fits, runs⟩
    obtain ⟨tokens, made⟩ := (tokenize_ok_iff supply _ heap).mpr runs
    -- The loop looks at the end of the resolved buffer before every byte.
    refine ⟨expandedText vars cmd, tokens, ?_, expansion_length vars cmd [] (by decide), made⟩
    rw [expands, if_pos fits]

/-- A bare name as long as the buffer for it. -/
def longName : List UInt8 := '$'.toUInt8 :: List.replicate varNameSize 'a'.toUInt8

/-- The expansion of the long name writes behind its buffer. -/
theorem long_name_leaves_buffer :
    ¬ StaysInBuffers (noVars fun _ => 0) (fun _ => 0) longName ⟨0, []⟩ := by
  rintro ⟨resolved, tokens, ran, -, -⟩
  rw [shellResolveVariables, longName, resolveLoop_cons _ _ _ _ (by decide)] at ran
  have name : (List.replicate varNameSize 'a'.toUInt8).takeWhile isNameChar =
      List.replicate varNameSize 'a'.toUInt8 := by
    rw [List.takeWhile_replicate, if_pos (by decide)]
  -- The name alone is as long as the buffer, which leaves no byte for its terminator.
  have long : ¬ ∀ name ∈ (pieceAt (noVars fun _ => 0) '$'.toUInt8
      (List.replicate varNameSize 'a'.toUInt8)).bare, name.length < varNameSize := by
    intro fits
    have short := fits (List.replicate varNameSize 'a'.toUInt8) (by
      rw [pieceAt, if_pos rfl, if_neg (by decide), name]
      rfl)
    rw [List.length_replicate] at short
    exact absurd short (by decide)
  rw [if_neg long] at ran
  cases ran

end MiraOS

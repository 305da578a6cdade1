import MiraOS.Machine.Run
import MiraOS.Machine.Text
import MiraOS.Ui.Executor

/-! The tokenizer of ui/shell.c, and a command from its text to the memory given back. -/

namespace MiraOS

open Machine

/-- Characters that have no plain literal. -/
def doubleQuote : UInt8 := 34
def singleQuote : UInt8 := 39
def backslash : UInt8 := 92
def openBrace : UInt8 := 123
def closeBrace : UInt8 := 125

/-- Size of the buffer for the text of a token. -/
def tokenBufSize : Nat := 1024

/-- A letter. -/
def isLetter (c : UInt8) : Bool :=
  ('a'.toUInt8 ≤ c && c ≤ 'z'.toUInt8) || ('A'.toUInt8 ≤ c && c ≤ 'Z'.toUInt8)

/-- A decimal digit. -/
def isDigit (c : UInt8) : Bool := '0'.toUInt8 ≤ c && c ≤ '9'.toUInt8

/-- A character of a variable's name. -/
def isNameChar (c : UInt8) : Bool := isLetter c || isDigit c || c == '_'.toUInt8

/-- A character that starts a word. -/
def isWordStart (c : UInt8) : Bool := isLetter c || c == '_'.toUInt8 || c == '.'.toUInt8

/-- A character of a word. -/
def isWordChar (c : UInt8) : Bool :=
  isNameChar c || c == '.'.toUInt8 || c == '-'.toUInt8 || c == '/'.toUInt8

/-- What an escaped character stands for. -/
def unescape (c : UInt8) : UInt8 :=
  if c = 'n'.toUInt8 then 10 else if c = 't'.toUInt8 then 9 else c

/-- The loop over a quoted text, which keeps room for the terminator. -/
def quotedLoop (quote : UInt8) : List UInt8 → List UInt8 → List UInt8 × List UInt8
  | [], buf => (buf, [])
  | c :: rest, buf =>
    if c ≠ quote ∧ buf.length < tokenBufSize - 1 then
      -- A backslash at the end of the input stands for itself.
      match rest with
      | escaped :: after =>
        if c = backslash then quotedLoop quote after (buf ++ [unescape escaped])
        else quotedLoop quote (escaped :: after) (buf ++ [c])
      | [] => quotedLoop quote [] (buf ++ [c])
    else (buf, c :: rest)

/-- The loop over the name in braces, which keeps room for the terminator. -/
def bracedLoop : List UInt8 → List UInt8 → List UInt8 × List UInt8
  | [], buf => (buf, [])
  | c :: rest, buf =>
    if c ≠ closeBrace ∧ buf.length < tokenBufSize - 1 then bracedLoop rest (buf ++ [c])
    else (buf, c :: rest)

/-- A loop that stores characters in a buffer of some size without a look at its end. -/
def uncheckedLoop (size : Nat) (belongs : UInt8 → Bool) : List UInt8 → List UInt8 →
    Except Halt (List UInt8 × List UInt8)
  -- The terminator is stored behind the text, so it needs a place as well.
  | [], buf => if buf.length < size then .ok (buf, []) else .error .outOfBounds
  | c :: rest, buf =>
    if buf.length < size then
      if belongs c then uncheckedLoop size belongs rest (buf ++ [c]) else .ok (buf, c :: rest)
    else .error .outOfBounds

/-- The loop over a name, a word or a number, which stores without a look at the buffer's end. -/
def plainLoop (belongs : UInt8 → Bool) (input buf : List UInt8) :
    Except Halt (List UInt8 × List UInt8) :=
  uncheckedLoop tokenBufSize belongs input buf

/-- Skip a character if it is the next one. -/
def skipChar (c : UInt8) : List UInt8 → List UInt8
  | [] => []
  | first :: rest => if first = c then rest else first :: rest

/-- One token's kind and text, and the input after it. -/
structure Lexeme where
  type : TokenType
  value : List UInt8
  rest : List UInt8
  deriving DecidableEq, Repr

/-- The tokens of one or two fixed characters that are tried first. -/
def lexOperator (c : UInt8) (rest : List UInt8) : Option Lexeme :=
  -- Past the end of the input the next character is the terminator.
  let next := rest.headD 0
  if c = '|'.toUInt8 ∧ next = '|'.toUInt8 then some ⟨.or, asciiBytes "||", rest.tail⟩
  else if c = '&'.toUInt8 ∧ next = '&'.toUInt8 then some ⟨.and, asciiBytes "&&", rest.tail⟩
  else if c = '>'.toUInt8 ∧ next = '>'.toUInt8 then
    some ⟨.redirectAppend, asciiBytes ">>", rest.tail⟩
  else if c = '<'.toUInt8 ∧ next = '<'.toUInt8 then some ⟨.redirectIn, asciiBytes "<<", rest.tail⟩
  else if c = '|'.toUInt8 then some ⟨.pipe, asciiBytes "|", rest⟩
  else if c = '>'.toUInt8 then some ⟨.redirectOut, asciiBytes ">", rest⟩
  else if c = '<'.toUInt8 then some ⟨.redirectIn, asciiBytes "<", rest⟩
  else if c = '&'.toUInt8 then some ⟨.background, asciiBytes "&", rest⟩
  else if c = ';'.toUInt8 then some ⟨.semicolon, asciiBytes ";", rest⟩
  else if c = '('.toUInt8 then some ⟨.lparen, asciiBytes "(", rest⟩
  else if c = ')'.toUInt8 then some ⟨.rparen, asciiBytes ")", rest⟩
  else none

/-- The tokens that are tried last: arithmetic operators, and anything else as an error. -/
def lexArithmetic (c : UInt8) (rest : List UInt8) : Lexeme :=
  if c = '='.toUInt8 then ⟨.operator, asciiBytes "=", rest⟩
  else if c = '+'.toUInt8 ∨ c = '-'.toUInt8 ∨ c = '*'.toUInt8 ∨ c = '/'.toUInt8 ∨ c = '%'.toUInt8 then
    ⟨.operator, [c], rest⟩
  else if c = '!'.toUInt8 ∧ rest.headD 0 = '='.toUInt8 then ⟨.operator, asciiBytes "!=", rest.tail⟩
  else ⟨.error, asciiBytes "Unexpected character: " ++ [c], rest⟩

/-- The token that starts with a character that is no blank. -/
def lexToken (c : UInt8) (rest : List UInt8) : Except Halt Lexeme :=
  match lexOperator c rest with
  | some lexeme => .ok lexeme
  | none =>
    if c = doubleQuote ∨ c = singleQuote then
      let taken := quotedLoop c rest []
      .ok ⟨.string, taken.1, skipChar c taken.2⟩
    else if c = '$'.toUInt8 then
      -- The dollar sign itself is dropped in both forms.
      if rest.headD 0 = openBrace then
        let taken := bracedLoop rest.tail []
        .ok ⟨.word, taken.1, skipChar closeBrace taken.2⟩
      else do
        let taken ← plainLoop isNameChar rest []
        return ⟨.word, taken.1, taken.2⟩
    else if isWordStart c then do
      let taken ← plainLoop isWordChar (c :: rest) []
      return ⟨.word, taken.1, taken.2⟩
    else if isDigit c then do
      let taken ← plainLoop isDigit (c :: rest) []
      return ⟨.number, taken.1, taken.2⟩
    else .ok (lexArithmetic c rest)

/-- A token on the heap, if there is memory for it and for its text. -/
def tokenizerCreateToken (supply : Nat → Nat) (type : TokenType) (value : List UInt8)
    (heap : HeapCalls) : Option Token × HeapCalls :=
  let tok := heap.kmalloc supply
  if tok.1 = 0 then (none, tok.2)
  else
    -- The structure is given back where there is no memory for its text.
    let text := tok.2.kmalloc supply
    if text.1 = 0 then (none, text.2.kfree tok.1)
    else (some ⟨tok.1, type, ⟨text.1, value⟩⟩, text.2)

/-- A token that is made has the kind and the text asked for. -/
theorem tokenizerCreateToken_eq {supply : Nat → Nat} {type : TokenType} {value : List UInt8}
    {heap : HeapCalls} {token : Token}
    (made : (tokenizerCreateToken supply type value heap).1 = some token) :
    token = ⟨supply heap.requests, type, ⟨supply (heap.requests + 1), value⟩⟩ := by
  revert made
  -- A refused request for the token or for its text gives no token.
  fun_cases tokenizerCreateToken supply type value heap with
  | case1 | case2 =>
    intro made
    cases made
  | case3 =>
    intro made
    cases made
    rfl

/-- The loop over a quoted text leaves a suffix of the input. -/
theorem quotedLoop_suffix (quote : UInt8) (input buf : List UInt8) :
    (quotedLoop quote input buf).2 <:+ input := by
  -- Each turn drops one character, or two where the first escapes the second.
  fun_induction quotedLoop quote input buf
  all_goals first
    | exact List.suffix_rfl
    | exact List.nil_suffix
    | exact List.IsSuffix.trans (by assumption) (List.suffix_cons ..)
    | exact List.IsSuffix.trans (by assumption)
        ((List.suffix_cons ..).trans (List.suffix_cons ..))

/-- The loop over a name in braces leaves a suffix of the input. -/
theorem bracedLoop_suffix (input buf : List UInt8) : (bracedLoop input buf).2 <:+ input := by
  -- Induction along the name: each byte is taken off the front.
  fun_induction bracedLoop input buf with
  | case1 | case3 => exact List.suffix_rfl
  | case2 _ _ _ _ ih => exact ih.trans (List.suffix_cons ..)

/-- A loop without a look at the buffer's end stops where the run of characters ends, if the run fits. -/
theorem uncheckedLoop_eq (size : Nat) (belongs : UInt8 → Bool) (input buf : List UInt8) :
    uncheckedLoop size belongs input buf =
      if buf.length + (input.takeWhile belongs).length < size then
        .ok (buf ++ input.takeWhile belongs, input.dropWhile belongs)
      else .error .outOfBounds := by
  -- Induction on the input: one byte moves from the input to the buffer, so the sum stays.
  induction input generalizing buf with
  | nil => simp [uncheckedLoop]
  | cons c rest ih =>
    rw [uncheckedLoop]
    by_cases here : belongs c = true
    · rw [if_pos here, ih, List.takeWhile_cons_of_pos here, List.dropWhile_cons_of_pos here]
      have counted : (buf ++ [c]).length + (rest.takeWhile belongs).length =
          buf.length + (c :: rest.takeWhile belongs).length := by
        rw [List.length_append, List.length_singleton, List.length_cons]
        omega
      rw [counted, List.append_assoc, List.singleton_append]
      -- The buffer fills exactly when the whole run does not fit.
      by_cases room : buf.length < size
      · rw [if_pos room]
      · rw [if_neg room, if_neg (by omega)]
    · rw [if_neg here, List.takeWhile_cons_of_neg here, List.dropWhile_cons_of_neg here]
      -- The run ends here, and what is in the buffer is what the test sees.
      simp

/-- A loop without a look at the buffer's end leaves a suffix of the input. -/
theorem uncheckedLoop_suffix {size : Nat} {belongs : UInt8 → Bool} {input buf : List UInt8}
    {taken : List UInt8 × List UInt8} (ran : uncheckedLoop size belongs input buf = .ok taken) :
    taken.2 <:+ input := by
  -- The loop drops the run from the front.
  rw [uncheckedLoop_eq] at ran
  split_ifs at ran
  cases ran
  exact List.dropWhile_suffix _

/-- Skipping a character leaves a suffix of the input. -/
theorem skipChar_suffix (c : UInt8) (input : List UInt8) : skipChar c input <:+ input := by
  -- One byte is taken off, or none.
  fun_cases skipChar c input with
  | case1 | case3 => exact List.suffix_rfl
  | case2 => exact List.suffix_cons ..

/-- A character that starts a word belongs to it. -/
theorem isWordStart_belongs {c : UInt8} (starts : isWordStart c = true) : isWordChar c = true := by
  simp only [isWordStart, isWordChar, isNameChar, Bool.or_eq_true] at starts ⊢
  tauto

/-- The loop over a word takes the character it starts with. -/
theorem plainLoop_first {belongs : UInt8 → Bool} {c : UInt8} {rest : List UInt8}
    {taken : List UInt8 × List UInt8} (first : belongs c = true)
    (ran : plainLoop belongs (c :: rest) [] = .ok taken) : taken.2 <:+ rest := by
  -- An empty buffer has room, so the first turn stores the character.
  rw [plainLoop, uncheckedLoop, if_pos (by decide), if_pos first] at ran
  exact uncheckedLoop_suffix ran

/-- The fixed tokens take their own characters. -/
theorem lexOperator_suffix {c : UInt8} {rest : List UInt8} {lexeme : Lexeme}
    (found : lexOperator c rest = some lexeme) : lexeme.rest <:+ rest := by
  -- A token of two characters also takes the one that was looked ahead to.
  revert found
  fun_cases lexOperator c rest
  all_goals
    intro found
    cases found
  all_goals first
    | exact List.suffix_rfl
    | exact List.tail_suffix rest

/-- The last tokens take their own characters. -/
theorem lexArithmetic_suffix (c : UInt8) (rest : List UInt8) :
    (lexArithmetic c rest).rest <:+ rest := by
  -- The second byte is taken off where the lexeme has two.
  fun_cases lexArithmetic c rest with
  | case1 | case2 | case4 => exact List.suffix_rfl
  | case3 => exact List.tail_suffix rest

/-- A token takes at least its first character. -/
theorem lexToken_suffix {c : UInt8} {rest : List UInt8} {lexeme : Lexeme}
    (ran : lexToken c rest = .ok lexeme) : lexeme.rest <:+ rest := by
  -- The cases are the tests of the code, in order.
  revert ran
  fun_cases lexToken c rest with
  | case1 lexeme found =>
    intro ran
    cases ran
    exact lexOperator_suffix found
  | case2 =>
    intro ran
    cases ran
    exact (skipChar_suffix ..).trans (quotedLoop_suffix ..)
  | case3 =>
    intro ran
    cases ran
    exact (skipChar_suffix ..).trans ((bracedLoop_suffix ..).trans (List.tail_suffix rest))
  -- The words and the numbers are the unchecked loops, whose rest is a later place of the input.
  | case4 =>
    intro ran
    obtain ⟨taken, name, same⟩ := bind_eq_ok.mp ran
    cases same
    exact uncheckedLoop_suffix name
  | case5 _ _ _ starts =>
    intro ran
    obtain ⟨taken, word, same⟩ := bind_eq_ok.mp ran
    cases same
    exact plainLoop_first (isWordStart_belongs starts) word
  | case6 _ _ _ _ digit =>
    intro ran
    obtain ⟨taken, number, same⟩ := bind_eq_ok.mp ran
    cases same
    exact plainLoop_first digit number
  | case7 =>
    intro ran
    cases ran
    exact lexArithmetic_suffix ..

/-- The loop over the input, with the tokens made so far. -/
def tokenizeLoop (supply : Nat → Nat) (input : List UInt8) (tokens : List Token)
    (heap : HeapCalls) : Except Halt (List Token × HeapCalls) :=
  match input with
  | [] => .ok (tokens, heap)
  | c :: rest =>
    if c = 10 ∨ c = ' '.toUInt8 ∨ c = 9 then tokenizeLoop supply rest tokens heap
    else
      match _ : lexToken c rest with
      | .error halt => .error halt
      | .ok lexeme =>
        -- A token that there is no memory for is left out.
        let made := tokenizerCreateToken supply lexeme.type lexeme.value heap
        tokenizeLoop supply lexeme.rest (tokens ++ made.1.toList) made.2
termination_by input.length
decreasing_by
  · simp
  · have shorter := (lexToken_suffix ‹lexToken c rest = .ok lexeme›).length_le
    simp only [List.length_cons]
    omega

/-- One turn of the tokenizer makes the token that starts with a character that is no blank. -/
theorem tokenizeLoop_token (supply : Nat → Nat) {c : UInt8} {rest : List UInt8} {lexeme : Lexeme}
    (noBlank : ¬ (c = 10 ∨ c = ' '.toUInt8 ∨ c = 9)) (lexed : lexToken c rest = .ok lexeme)
    (tokens : List Token) (heap : HeapCalls) :
    let made := tokenizerCreateToken supply lexeme.type lexeme.value heap
    tokenizeLoop supply (c :: rest) tokens heap =
      tokenizeLoop supply lexeme.rest (tokens ++ made.1.toList) made.2 := by
  intro made
  conv_lhs => unfold tokenizeLoop
  rw [if_neg noBlank]
  split
  · -- An error would contradict the lexeme that was read.
    next halt stopped =>
    rw [lexed] at stopped
    cases stopped
  · next same again =>
    obtain rfl : lexeme = same := Except.ok.inj (lexed.symm.trans again)
    rfl

/-- The tokens of a text, with the end token last. -/
def tokenize (supply : Nat → Nat) (input : List UInt8) (heap : HeapCalls) :
    Except Halt (List Token × HeapCalls) := do
  let (tokens, heap) ← tokenizeLoop supply input [] heap
  let eof := tokenizerCreateToken supply .eof [] heap
  return (tokens ++ eof.1.toList, eof.2)

/-- Give back every token and its text. -/
def tokenizerFreeTokens (tokens : List Token) (heap : HeapCalls) : HeapCalls :=
  tokens.foldl (fun heap token => (heap.kfree token.value.address).kfree token.address) heap

/-- What is given back once a command has run: its tree, then its tokens. -/
def releaseCommand (node : Option Node) (tokens : List Token) (heap : HeapCalls) : HeapCalls :=
  match node with
  | none => tokenizerFreeTokens tokens heap
  | some ast => tokenizerFreeTokens tokens (astFree ast heap)

/-- Run the text of a command. -/
def shellExecuteCommand {World : Type} (interp : Interpreter World) (supply : Nat → Nat)
    (cmd : List UInt8) (ctx : ShellCtx World) (heap : HeapCalls) :
    Except Halt (ShellCtx World × HeapCalls) :=
  if cmd = [] then .ok (ctx, heap)
  else do
    let resolved := interp.resolveVariables ctx.world cmd
    let (tokens, heap) ← tokenize supply resolved heap
    let parsed := parseTokens supply tokens heap
    -- Without a tree nothing runs, and the tokens are given back all the same.
    let ctx :=
      match parsed.node with
      | none => ctx
      | some ast => (shellExecuteAst interp ast ctx).ctx
    return (ctx, releaseCommand parsed.node tokens parsed.heap)

end MiraOS

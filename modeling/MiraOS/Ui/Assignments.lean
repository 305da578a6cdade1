import Mathlib.Data.List.TakeWhile
import MiraOS.Machine.Histories
import MiraOS.Ui.Builtins
import MiraOS.Ui.LexBounds
import MiraOS.Ui.SingleCommands

/-! Assignments at the prompt of ui/shell.c: what the builtins would do with one, and what they are given. -/

namespace MiraOS

open Machine

/-- One argument of the builtin: an assignment if it has an equals sign. -/
def setArgument (vars : ShellVars) (arg : List UInt8) : ShellVars :=
  match strchr arg 0x3D with
  | some eq => shellSetVariable vars (arg.take eq) (arg.drop (eq + 1))
  | none => vars

/-- Assign the variables of the arguments behind the command. -/
def builtinSet (vars : ShellVars) (args : List (List UInt8)) : ShellVars :=
  (args.drop 1).foldl setArgument vars

/-- One argument of the builtin: the variable is marked, after an assignment if there is one. -/
def exportArgument (vars : ShellVars) (arg : List UInt8) : ShellVars :=
  match strchr arg 0x3D with
  | some eq => shellExportVariable (shellSetVariable vars (arg.take eq) (arg.drop (eq + 1))) (arg.take eq)
  | none => shellExportVariable vars arg

/-- Export the variables of the arguments behind the command. -/
def builtinExport (vars : ShellVars) (args : List (List UInt8)) : ShellVars :=
  (args.drop 1).foldl exportArgument vars

/-- The texts of the arguments of a command. -/
def argTexts (node : Node) : List (List UInt8) := node.cmd.args.map fun arg => arg.bytes

section

variable {Rest : Type}

/-- The builtin that assigns variables, in the shell's context. -/
def setHandler : BuiltinHandler (ShellWorld Rest) := fun ctx node =>
  (0, { ctx with world := { ctx.world with vars := builtinSet ctx.world.vars (argTexts node) } })

/-- The builtin that exports variables, in the shell's context. -/
def exportHandler : BuiltinHandler (ShellWorld Rest) := fun ctx node =>
  (0, { ctx with world := { ctx.world with vars := builtinExport ctx.world.vars (argTexts node) } })

/-- The builtin that defines aliases, which shows them when it has no arguments. -/
def aliasHandler (showAliases : ShellAliases → Rest → Rest) : BuiltinHandler (ShellWorld Rest) :=
  fun ctx node =>
    let shown :=
      if (argTexts node).length = 1 then showAliases ctx.world.aliases ctx.world.rest else ctx.world.rest
    let aliases := builtinAlias ctx.world.aliases (argTexts node)
    (0, { ctx with world := { ctx.world with aliases := aliases, rest := shown } })

/-- The builtins of the shell: those that assign, and the others as they are given. -/
def shellHandlers (showAliases : ShellAliases → Rest → Rest)
    (others : String → BuiltinHandler (ShellWorld Rest)) (name : String) : BuiltinHandler (ShellWorld Rest) :=
  if name = "set" then setHandler
  else if name = "export" then exportHandler
  else if name = "alias" then aliasHandler showAliases
  else others name

/-- The walk at the prompt, over the builtins that the shell registers. -/
def promptInterpreter (showAliases : ShellAliases → Rest → Rest)
    (others : String → BuiltinHandler (ShellWorld Rest)) (shellPrintError : Rest → List UInt8 → Rest) :
    Interpreter (ShellWorld Rest) :=
  shellInterpreter (shellRegisterBuiltins (shellHandlers showAliases others)) shellPrintError

end

/-- An assignment as it is typed: a name that fits a record, and a word that does. -/
structure Assignment where
  name : List UInt8
  value : List UInt8
  -- A name starts with a letter or an underscore, and a value is not empty.
  starts : ∃ first rest, name = first :: rest ∧ isNameChar first = true ∧ isDigit first = false
  nameChars : ∀ c ∈ name, isNameChar c = true
  nameFits : name.length < 64
  valueNonempty : value ≠ []
  valueChars : ∀ c ∈ value, isNameChar c = true
  valueFits : value.length < 256

/-- The line that is typed: a command, a blank and the assignment. -/
def Assignment.line (assignment : Assignment) (command : List UInt8) : List UInt8 :=
  command ++ ' '.toUInt8 :: (assignment.name ++ '='.toUInt8 :: assignment.value)

/-- Characters of which only one belongs differ. -/
theorem ne_of_belongs {belongs : UInt8 → Bool} {c other : UInt8} (here : belongs c = true)
    (apart : belongs other = false) : c ≠ other := by
  -- One byte belongs and the other does not.
  intro same
  rw [same, apart] at here
  cases here

/-- A byte of such a line. -/
def IsLineByte (c : UInt8) : Prop := isNameChar c = true ∨ c = ' '.toUInt8 ∨ c = '='.toUInt8

/-- A text of characters of words. -/
def IsWordText (text : List UInt8) : Prop := ∀ c ∈ text, isWordChar c = true

/-- What an assignment is cut into: texts of words, and operators. -/
def PlainToken (token : Token) : Prop :=
  token.type = .operator ∨ (token.type.isArgument = true ∧ IsWordText token.value.bytes)

/-- A text of words has no equals sign in it. -/
theorem IsWordText.strchr_none {text : List UInt8} (words : IsWordText text) : strchr text 0x3D = none := by
  -- A word byte is never '=', so the search runs to the terminator.
  have absent : text.findIdx? (· = 0x3D) = none := by
    rw [List.findIdx?_eq_none_iff]
    intro c among
    simpa using ne_of_belongs (words c among) (by decide)
  rw [strchr, absent]
  rfl

/-- A text of words has no terminator in it. -/
theorem IsWordText.solid {text : List UInt8} (words : IsWordText text) : 0 ∉ text :=
  fun zero => absurd (words 0 zero) (by decide)

/-- A byte of an assignment starts no fixed token. -/
theorem lexOperator_plain {c : UInt8} (byte : IsLineByte c) (rest : List UInt8) : lexOperator c rest = none := by
  -- None of the characters that are asked for is a byte of an assignment.
  have apart : ∀ other, isNameChar other = false → other ≠ ' '.toUInt8 → other ≠ '='.toUInt8 → c ≠ other := by
    intro other noName noBlank noEquals same
    rcases byte with name | blank | equals
    · exact ne_of_belongs name noName same
    · exact noBlank (same ▸ blank)
    · exact noEquals (same ▸ equals)
  have bar := apart '|'.toUInt8 (by decide) (by decide) (by decide)
  have ampersand := apart '&'.toUInt8 (by decide) (by decide) (by decide)
  have greater := apart '>'.toUInt8 (by decide) (by decide) (by decide)
  have less := apart '<'.toUInt8 (by decide) (by decide) (by decide)
  have semicolon := apart ';'.toUInt8 (by decide) (by decide) (by decide)
  have opening := apart '('.toUInt8 (by decide) (by decide) (by decide)
  have closing := apart ')'.toUInt8 (by decide) (by decide) (by decide)
  simp [lexOperator, bar, ampersand, greater, less, semicolon, opening, closing]

/-- A character of a name starts a word or a number. -/
theorem isNameChar_starts {c : UInt8} (name : isNameChar c = true) :
    isWordStart c = true ∨ isDigit c = true := by
  simp only [isNameChar, isWordStart, Bool.or_eq_true] at name ⊢
  tauto

/-- A digit belongs to a word. -/
theorem isDigit_belongs {c : UInt8} (digit : isDigit c = true) : isWordChar c = true := by
  simp only [isWordChar, isNameChar, digit, Bool.or_true, Bool.true_or]

/-- A character of a name starts a token that is a run of characters of words. -/
theorem lexToken_run {c : UInt8} {rest : List UInt8} (name : isNameChar c = true)
    (short : (c :: rest).length < tokenBufSize) :
    ∃ type belongs, lexToken c rest =
        .ok ⟨type, (c :: rest).takeWhile belongs, (c :: rest).dropWhile belongs⟩ ∧
      type.isArgument = true ∧ (∀ other, belongs other = true → isWordChar other = true) ∧
      (isWordStart c = true → type = .word ∧ belongs = isWordChar) := by
  -- The run is part of the input, so it fits the buffer.
  have fits : ∀ belongs : UInt8 → Bool, ((c :: rest).takeWhile belongs).length < tokenBufSize :=
    fun belongs => Nat.lt_of_le_of_lt (List.takeWhile_prefix belongs).length_le short
  have quotes : ¬ (c = doubleQuote ∨ c = singleQuote) :=
    not_or.mpr ⟨ne_of_belongs name (by decide), ne_of_belongs name (by decide)⟩
  have dollar : c ≠ '$'.toUInt8 := ne_of_belongs name (by decide)
  rw [lexToken, lexOperator_plain (.inl name)]
  dsimp only
  rw [if_neg quotes, if_neg dollar]
  by_cases starts : isWordStart c = true
  · rw [if_pos starts, plainLoop_token, if_pos (fits _)]
    exact ⟨.word, isWordChar, rfl, rfl, fun _ belongs => belongs, fun _ => ⟨rfl, rfl⟩⟩
  · have digit : isDigit c = true := (isNameChar_starts name).resolve_left starts
    rw [if_neg starts, if_pos digit, plainLoop_token, if_pos (fits _)]
    exact ⟨.number, isDigit, rfl, rfl, fun _ => isDigit_belongs, fun here => absurd here starts⟩

/-- An equals sign is a token of its own. -/
theorem lexToken_equals (rest : List UInt8) :
    lexToken '='.toUInt8 rest = .ok ⟨.operator, asciiBytes "=", rest⟩ := by
  rw [lexToken, lexOperator_plain (.inr (.inr rfl))]
  rfl

/-- A byte of an assignment that is no blank starts an operator or a text of words. -/
theorem lexToken_plain {c : UInt8} {rest : List UInt8} (byte : IsLineByte c) (noBlank : c ≠ ' '.toUInt8)
    (short : (c :: rest).length < tokenBufSize) :
    ∃ lexeme, lexToken c rest = .ok lexeme ∧
      (lexeme.type = .operator ∨ (lexeme.type.isArgument = true ∧ IsWordText lexeme.value)) := by
  -- The bytes that are no blank are those of names and the equals sign.
  rcases byte with name | blank | equals
  · obtain ⟨type, belongs, lexed, argument, words, -⟩ := lexToken_run name short
    exact ⟨_, lexed, .inr ⟨argument, fun other among => words other (List.mem_takeWhile_imp among)⟩⟩
  · exact absurd blank noBlank
  · rw [equals]
    exact ⟨_, lexToken_equals rest, .inl rfl⟩

/-- A text of names, blanks and equals signs is cut into plain tokens, whatever memory there is. -/
theorem tokenizeLoop_plain (supply : Nat → Nat) (input : List UInt8) (tokens : List Token) (heap : HeapCalls)
    (bytes : ∀ c ∈ input, IsLineByte c) (short : input.length < tokenBufSize) :
    ∃ more after, tokenizeLoop supply input tokens heap = .ok (tokens ++ more, after) ∧
      ∀ token ∈ more, PlainToken token := by
  -- Each turn leaves a suffix of the input, whose bytes are of the same kind.
  fun_induction tokenizeLoop supply input tokens heap with
  | case1 tokens heap => exact ⟨[], heap, by rw [List.append_nil], fun _ among => absurd among List.not_mem_nil⟩
  | case2 tokens heap c rest blank ih =>
    rw [List.length_cons] at short
    exact ih (fun other among => bytes other (List.mem_cons_of_mem _ among)) (by omega)
  | case3 tokens heap c rest noBlank halt stopped =>
    -- A token of such bytes fits its buffer, so the tokenizer does not stop.
    obtain ⟨lexeme, lexed, -⟩ := lexToken_plain (bytes c List.mem_cons_self)
      (fun blank => noBlank (.inr (.inl blank))) short
    rw [lexed] at stopped
    cases stopped
  | case4 tokens heap c rest noBlank lexeme ran made ih =>
    obtain ⟨same, lexed, plain⟩ := lexToken_plain (bytes c List.mem_cons_self)
      (fun blank => noBlank (.inr (.inl blank))) short
    obtain rfl : same = lexeme := Except.ok.inj (lexed.symm.trans ran)
    have left := lexToken_suffix ran
    have length := left.length_le
    rw [List.length_cons] at short
    obtain ⟨more, after, cut, kinds⟩ :=
      ih (fun other among => bytes other (List.mem_cons_of_mem _ (left.subset among))) (by omega)
    -- The token just made comes before those of the rest, if there was memory for it.
    refine ⟨made.1.toList ++ more, after, by rw [cut, List.append_assoc], fun token among => ?_⟩
    rcases List.mem_append.mp among with here | later
    · rw [tokenizerCreateToken_eq (Option.mem_toList.mp here)]
      exact plain
    · exact kinds token later

/-- A text without a dollar sign and a tilde is expanded to itself. -/
theorem resolvedText_plain (vars : ShellVars) {text : List UInt8}
    (bytes : ∀ c ∈ text, c ≠ '$'.toUInt8 ∧ c ≠ '~'.toUInt8) (short : text.length < resolvedSize) :
    resolvedText vars text = text := by
  rw [resolvedText, shellResolveVariables_plain vars bytes short]

/-- A word in front of a blank is one token. -/
theorem lexToken_word {c : UInt8} {word rest : List UInt8} (starts : isWordStart c = true)
    (name : isNameChar c = true) (words : IsWordText word)
    (short : (c :: (word ++ ' '.toUInt8 :: rest)).length < tokenBufSize) :
    lexToken c (word ++ ' '.toUInt8 :: rest) = .ok ⟨.word, c :: word, ' '.toUInt8 :: rest⟩ := by
  obtain ⟨type, belongs, lexed, -, -, kind⟩ := lexToken_run name short
  obtain ⟨rfl, rfl⟩ := kind starts
  -- The run ends at the blank, which belongs to no word.
  have all : ∀ other ∈ c :: word, isWordChar other = true :=
    List.forall_mem_cons.mpr ⟨isWordStart_belongs starts, words⟩
  have blank : ¬ isWordChar ' '.toUInt8 = true := by decide
  rw [lexed, ← List.cons_append, List.takeWhile_append_of_pos all, List.dropWhile_append_of_pos all,
    List.takeWhile_cons_of_neg blank, List.dropWhile_cons_of_neg blank, List.append_nil]

/-- A command word, a blank and an assignment give the token of the word and plain ones behind it. -/
theorem tokenize_assignment {supply : Nat → Nat} {heap : HeapCalls} (memory : Granted supply heap.requests 2)
    {c : UInt8} {word text : List UInt8} (starts : isWordStart c = true) (name : isNameChar c = true)
    (words : IsWordText word) (bytes : ∀ other ∈ text, IsLineByte other)
    (short : (c :: (word ++ ' '.toUInt8 :: text)).length < tokenBufSize) :
    ∃ first more after, tokenize supply (c :: (word ++ ' '.toUInt8 :: text)) heap = .ok (first :: more, after) ∧
      first.type = .word ∧ first.value.bytes = c :: word ∧
      ∀ token ∈ more, PlainToken token ∨ token.type = .eof := by
  have noBlank : ¬ (c = 10 ∨ c = ' '.toUInt8 ∨ c = 9) :=
    not_or.mpr ⟨ne_of_belongs name (by decide),
      not_or.mpr ⟨ne_of_belongs name (by decide), ne_of_belongs name (by decide)⟩⟩
  -- There is memory for the token of the command word and for its text.
  have made : tokenizerCreateToken supply .word (c :: word) heap =
      (some ⟨supply heap.requests, .word, ⟨supply (heap.requests + 1), c :: word⟩⟩,
        ⟨heap.requests + 2, heap.freed⟩) := by
    rw [tokenizerCreateToken]
    exact (if_neg (memory 0 (by decide))).trans (if_neg (memory 1 (by decide)))
  have turn := tokenizeLoop_token supply noBlank (lexToken_word starts name words short) [] heap
  simp only [made, List.nil_append, Option.toList] at turn
  -- What is left of the line is plain.
  have left : ∀ other ∈ ' '.toUInt8 :: text, IsLineByte other :=
    List.forall_mem_cons.mpr ⟨.inr (.inl rfl), bytes⟩
  rw [List.length_cons, List.length_append] at short
  obtain ⟨more, after, cut, plain⟩ := tokenizeLoop_plain supply (' '.toUInt8 :: text)
    [⟨supply heap.requests, .word, ⟨supply (heap.requests + 1), c :: word⟩⟩] ⟨heap.requests + 2, heap.freed⟩
    left (by omega)
  let eof := tokenizerCreateToken supply .eof [] after
  refine ⟨⟨supply heap.requests, .word, ⟨supply (heap.requests + 1), c :: word⟩⟩, more ++ eof.1.toList, eof.2,
    ?_, rfl, rfl, fun token among => ?_⟩
  · rw [tokenize, turn, cut]
    rfl
  · rcases List.mem_append.mp among with here | last
    · exact .inl (plain token here)
    · rw [tokenizerCreateToken_eq (Option.mem_toList.mp last)]
      exact .inr rfl

/-- Arguments that are texts of words assign nothing. -/
theorem builtinSet_words (vars : ShellVars) {args : List (List UInt8)}
    (words : ∀ arg ∈ args.drop 1, IsWordText arg) : builtinSet vars args = vars := by
  -- No argument has an equals sign, so each of them is passed over.
  refine @foldl_keeps _ _ setArgument vars (args.drop 1) (· = vars) rfl fun after arg among same => ?_
  rw [setArgument, (words arg among).strchr_none, same]

/-- Arguments that are texts of words define no alias. -/
theorem builtinAlias_words (aliases : ShellAliases) {args : List (List UInt8)}
    (words : ∀ arg ∈ args.drop 1, IsWordText arg) : builtinAlias aliases args = aliases := by
  rw [builtinAlias]
  -- A word has no '=', so every argument leaves the store as it is.
  split_ifs
  · rfl
  · refine @foldl_keeps _ _ aliasArgument aliases (args.drop 1) (· = aliases) rfl fun after arg among same => ?_
    rw [aliasArgument, (words arg among).strchr_none, same]

/-- A mark keeps the values of all variables. -/
theorem ShellVars.Holds.export_values {vars : ShellVars} {items : List ShellVar} (holds : vars.Holds items)
    {name : List UInt8} (solid : 0 ∉ name) :
    ∃ after, (shellExportVariable vars name).Holds after ∧
      ∀ other, 0 ∉ other →
        shellGetVariable (shellExportVariable vars name) other = shellGetVariable vars other := by
  by_cases old : name ∈ items.map (·.name)
  · have marked := holds.export_old solid old
    refine ⟨_, marked, fun other solidOther => ?_⟩
    rw [marked.get solidOther, holds.get solidOther,
      @keyed_changeKey _ _ _ _ items name (fun var => { var with exported := true }) (fun _ => rfl)]
    -- Only the mark of the variable itself is changed.
    by_cases same : other = name
    · rw [if_pos same, same, Option.map_map]
      rfl
    · rw [if_neg same]
  · rw [holds.export_absent solid old]
    exact ⟨items, holds, fun _ _ => rfl⟩

/-- Arguments that are texts of words are marked and keep the values of all variables. -/
theorem builtinExport_words {vars : ShellVars} {items : List ShellVar} (holds : vars.Holds items)
    {args : List (List UInt8)} (words : ∀ arg ∈ args.drop 1, IsWordText arg) {name : List UInt8}
    (solid : 0 ∉ name) : shellGetVariable (builtinExport vars args) name = shellGetVariable vars name := by
  -- Along the arguments the table stands for variables with the values of the first ones.
  have kept : (∃ after, (builtinExport vars args).Holds after) ∧
      shellGetVariable (builtinExport vars args) name = shellGetVariable vars name := by
    refine @foldl_keeps _ _ exportArgument vars (args.drop 1) (fun later => (∃ after, later.Holds after) ∧
      shellGetVariable later name = shellGetVariable vars name) ⟨⟨items, holds⟩, rfl⟩ ?_
    rintro later arg among ⟨⟨after, stands⟩, same⟩
    rw [exportArgument, (words arg among).strchr_none]
    obtain ⟨marked, keeps, values⟩ := stands.export_values (words arg among).solid
    exact ⟨⟨marked, keeps⟩, (values name solid).trans same⟩
  exact kept.2

/-- A command word of letters that is short. -/
structure IsCommandWord (command : List UInt8) : Prop where
  nonempty : command ≠ []
  letters : ∀ c ∈ command, isLetter c = true
  short : command.length < 64

/-- A letter starts a word and is a character of names and of words. -/
theorem isLetter_kinds {c : UInt8} (letter : isLetter c = true) :
    isWordStart c = true ∧ isNameChar c = true ∧ isWordChar c = true := by
  simp [isWordStart, isNameChar, isWordChar, letter]

/-- The tokens of a line with an assignment join nothing. -/
theorem joinsNothing_plain {first : Token} {more : List Token} (word : first.type = .word)
    (plain : ∀ token ∈ more, PlainToken token ∨ token.type = .eof) : JoinsNothing (first :: more) := by
  -- Words and quoted texts never join onto the token in front of them.
  have argument : ∀ {type : TokenType}, type.isArgument = true → type.joinsNothing = true := by
    intro type
    cases type <;> decide
  refine List.forall_mem_cons.mpr ⟨by rw [word]; rfl, fun token among => ?_⟩
  -- Behind the first word come operators and arguments, then the end of input.
  rcases plain token among with (operator | ⟨isArgument, -⟩) | ends
  · rw [operator]
    rfl
  · exact argument isArgument
  · rw [ends]
    rfl

/-- The arguments at the front of such a line are its first word and texts of words. -/
theorem argumentsOf_plain {first : Token} {more : List Token} {cmdName : HeapString} {others : List HeapString}
    (plain : ∀ token ∈ more, PlainToken token ∨ token.type = .eof)
    (taken : ArgumentsOf (first :: more) (cmdName :: others)) :
    cmdName = first.value ∧ ∀ arg ∈ others, IsWordText arg.bytes := by
  obtain ⟨front, start, arguments, same⟩ := taken
  cases front with
  | nil => cases same
  | cons head tail =>
    obtain ⟨rfl, within⟩ := List.cons_prefix_cons.mp start
    obtain ⟨rfl, rfl⟩ := List.cons_eq_cons.mp same
    refine ⟨rfl, fun arg among => ?_⟩
    obtain ⟨token, listed, rfl⟩ := List.mem_map.mp among
    have argument := arguments token (List.mem_cons_of_mem _ listed)
    -- Operators and the end are no arguments.
    rcases plain token (within.subset listed) with (operator | ⟨-, words⟩) | ends
    · rw [operator] at argument
      cases argument
    · exact words
    · rw [ends] at argument
      cases argument

section

variable {Rest : Type} {registrations : List (List UInt8 × BuiltinHandler (ShellWorld Rest))}
  {shellPrintError : Rest → List UInt8 → Rest} {command : List UInt8}
  {handler : BuiltinHandler (ShellWorld Rest)}

/-- The bytes of a line with an assignment. -/
theorem Assignment.line_bytes (assignment : Assignment) :
    ∀ c ∈ assignment.name ++ '='.toUInt8 :: assignment.value, IsLineByte c := by
  -- Both halves are letters and digits, and the '=' between them is the one line byte beside them.
  intro c among
  rcases List.mem_append.mp among with name | value
  · exact .inl (assignment.nameChars c name)
  · rcases List.mem_cons.mp value with equals | value
    · exact .inr (.inr equals)
    · exact .inl (assignment.valueChars c value)

/-- A line with an assignment is short. -/
theorem Assignment.line_short (assignment : Assignment) (word : IsCommandWord command) :
    (assignment.line command).length < 400 := by
  -- A command word and the two halves of the assignment are short.
  have name := assignment.nameFits
  have value := assignment.valueFits
  have short := word.short
  simp only [Assignment.line, List.length_append, List.length_cons]
  omega

/-- A byte of a line is neither a dollar sign nor a tilde. -/
theorem IsLineByte.unexpanded {c : UInt8} (byte : IsLineByte c) : c ≠ '$'.toUInt8 ∧ c ≠ '~'.toUInt8 := by
  -- Neither a name byte nor a blank nor '=' is expanded.
  rcases byte with name | rfl | rfl
  · exact ⟨ne_of_belongs name (by decide), ne_of_belongs name (by decide)⟩
  · decide
  · decide

/-- A line that is tokenized is parsed and walked. -/
theorem shellExecuteCommand_eq {World : Type} {interp : Interpreter World} {supply : Nat → Nat}
    {cmd : List UInt8} {ctx : ShellCtx World} {heap : HeapCalls} {tokens : List Token} {left : HeapCalls}
    (solid : cmd ≠ []) (cut : tokenize supply (interp.resolveVariables ctx.world cmd) heap = .ok (tokens, left)) :
    ∃ released, shellExecuteCommand interp supply cmd ctx heap =
      .ok ((executeParsed interp (parseTokens supply tokens left) ctx).ctx, released) := by
  rw [shellExecuteCommand, if_neg solid]
  simp only [cut]
  -- The tree is walked if the parser made one, and the tokens are released in any case.
  refine ⟨_, congrArg Except.ok (Prod.ext ?_ rfl)⟩
  rw [executeParsed]
  cases (parseTokens supply tokens left).node <;> rfl

/-- What a line with an assignment does to the shell: nothing, or what the builtin of its first word
makes of arguments that are texts of words. -/
theorem shellExecuteCommand_line (assignment : Assignment) {supply : Nat → Nat} {heap : HeapCalls}
    (memory : Granted supply heap.requests 2) (word : IsCommandWord command)
    (found : keyed Prod.fst (registerAll registrations) command = some (command, handler))
    (ctx : ShellCtx (ShellWorld Rest)) (unaliased : shellResolveAlias ctx.world.aliases command = command) :
    ∃ after, shellExecuteCommand (shellInterpreter registrations shellPrintError) supply
        (assignment.line command) ctx heap = .ok after ∧
      (after.1.world = ctx.world ∨ ∃ node, (∀ arg ∈ (argTexts node).drop 1, IsWordText arg) ∧
        after.1.world = (handler ctx node).2.world) := by
  -- The word is taken apart, as the tokenizer decides on its first letter.
  obtain ⟨c, rest, rfl⟩ := List.exists_cons_of_ne_nil word.nonempty
  have kinds := fun {other} (among : other ∈ c :: rest) => isLetter_kinds (word.letters other among)
  have short := assignment.line_short word
  have bytes : ∀ other ∈ assignment.line (c :: rest), IsLineByte other := by
    intro other among
    rcases List.mem_append.mp among with here | later
    · exact .inl (kinds here).2.1
    · exact List.forall_mem_cons.mpr ⟨.inr (.inl rfl), assignment.line_bytes⟩ other later
  -- The line and its first word are expanded to themselves.
  have expanded : resolvedText ctx.world.vars (assignment.line (c :: rest)) = assignment.line (c :: rest) :=
    resolvedText_plain _ (fun other among => (bytes other among).unexpanded) (by rw [resolvedSize]; omega)
  have expandedWord : resolvedText ctx.world.vars (c :: rest) = c :: rest :=
    resolvedText_plain _ (fun other among => (bytes other (List.mem_append_left _ among)).unexpanded)
      (by have := word.short; rw [resolvedSize]; omega)
  obtain ⟨first, more, left, cut, type, text, plain⟩ := tokenize_assignment memory (kinds List.mem_cons_self).1
    (kinds List.mem_cons_self).2.1 (fun other among => (kinds (List.mem_cons_of_mem _ among)).2.2)
    assignment.line_bytes (Nat.lt_trans short (by decide))
  have read : tokenize supply ((shellInterpreter registrations shellPrintError).resolveVariables ctx.world
      (assignment.line (c :: rest))) heap = .ok (first :: more, left) :=
    (congrArg (tokenize supply · heap) expanded).trans cut
  obtain ⟨released, ran⟩ := shellExecuteCommand_eq (List.cons_ne_nil _ _) read
  -- The tree may be missing for want of memory, and then nothing runs.
  refine ⟨_, ran, ?_⟩
  rw [executeParsed]
  cases tree : (parseTokens supply (first :: more) left).node with
  | none => exact .inl rfl
  | some node =>
    rcases parseTokens_runsOne supply left (joinsNothing_plain type plain) node tree ctx with
      same | ⟨walked, cmdName, others, taken, args, ran⟩
    · exact .inl same
    · -- The command that runs is the first word, with texts of words behind it.
      obtain ⟨rfl, words⟩ := argumentsOf_plain plain taken
      refine .inr ⟨walked, fun arg among => ?_, ran.trans ?_⟩
      · rw [argTexts, args] at among
        obtain ⟨other, listed, rfl⟩ := List.mem_map.mp among
        exact words other listed
      · have called : builtinFor (shellInterpreter registrations shellPrintError) ctx.world first.value.bytes =
            some (c :: rest, handler) := by
          have named : shellResolveAlias ctx.world.aliases (resolvedText ctx.world.vars first.value.bytes) =
              c :: rest := by
            rw [text, expandedWord, unaliased]
          exact (congrArg (keyed Prod.fst (registerAll registrations)) named).trans found
        rw [executeCommandNode_eq, called]

end

section

variable {Rest : Type} (showAliases : ShellAliases → Rest → Rest)
  (others : String → BuiltinHandler (ShellWorld Rest)) (shellPrintError : Rest → List UInt8 → Rest)

/-- The commands that assign are words of letters, and registered among the first. -/
theorem assigning_commands {command : String} (assigns : command ∈ ["set", "export", "alias"]) :
    IsCommandWord (asciiBytes command) ∧ ∃ position < maxBuiltins, shellBuiltinNames[position]? = some command := by
  -- The three commands are spelled with letters only and stand among the registered names.
  have words : ∀ command ∈ ["set", "export", "alias"], asciiBytes command ≠ [] ∧
      (∀ c ∈ asciiBytes command, isLetter c = true) ∧ (asciiBytes command).length < 64 := by
    decide +kernel
  have places : ∀ command ∈ ["set", "export", "alias"],
      ∃ position < maxBuiltins, shellBuiltinNames[position]? = some command := by
    decide +kernel
  obtain ⟨nonempty, letters, short⟩ := words command assigns
  exact ⟨⟨nonempty, letters, short⟩, places command assigns⟩

/-- What an assignment does at the prompt: nothing, or what the builtin makes of texts of words. -/
theorem shellExecuteCommand_prompt (assignment : Assignment) {supply : Nat → Nat} {heap : HeapCalls}
    (memory : Granted supply heap.requests 2) (ctx : ShellCtx (ShellWorld Rest)) {command : String}
    (assigns : command ∈ ["set", "export", "alias"])
    (unaliased : shellResolveAlias ctx.world.aliases (asciiBytes command) = asciiBytes command) :
    ∃ after, shellExecuteCommand (promptInterpreter showAliases others shellPrintError) supply
        (assignment.line (asciiBytes command)) ctx heap = .ok after ∧
      (after.1.world = ctx.world ∨ ∃ node, (∀ arg ∈ (argTexts node).drop 1, IsWordText arg) ∧
        after.1.world = (shellHandlers showAliases others command ctx node).2.world) := by
  -- The command is registered under its name, in front of any other of that name.
  obtain ⟨word, position, early, listed⟩ := assigning_commands assigns
  have registered := shellRegisterBuiltins_getElem? (shellHandlers showAliases others) listed
  have found := keyed_registerAll (shellRegisterBuiltins_distinct _) registered early
  exact shellExecuteCommand_line assignment memory word found ctx unaliased

section

variable (assignment : Assignment) {supply : Nat → Nat} {heap : HeapCalls}
  (memory : Granted supply heap.requests 2) {ctx : ShellCtx (ShellWorld Rest)}
  (unaliased : ∀ command ∈ ["set", "export", "alias"],
    shellResolveAlias ctx.world.aliases (asciiBytes command) = asciiBytes command)

include memory unaliased

/-- An assignment by the first of the commands leaves the variables as they are. -/
theorem set_line_ignored :
    ∃ after, shellExecuteCommand (promptInterpreter showAliases others shellPrintError) supply
        (assignment.line (asciiBytes "set")) ctx heap = .ok after ∧
      after.1.world.vars = ctx.world.vars := by
  -- Either the parser stops before the command runs, or the words reach `set`, which ignores them.
  obtain ⟨after, ran, same | ⟨node, words, same⟩⟩ := shellExecuteCommand_prompt showAliases others
    shellPrintError assignment memory ctx (List.mem_cons_self) (unaliased "set" (by simp))
  · exact ⟨after, ran, by rw [same]⟩
  · refine ⟨after, ran, ?_⟩
    rw [same]
    exact builtinSet_words _ words

/-- An assignment by the second one marks variables and leaves their values. -/
theorem export_line_ignored {items : List ShellVar} (holds : ctx.world.vars.Holds items) :
    ∃ after, shellExecuteCommand (promptInterpreter showAliases others shellPrintError) supply
        (assignment.line (asciiBytes "export")) ctx heap = .ok after ∧
      shellGetVariable after.1.world.vars assignment.name =
        shellGetVariable ctx.world.vars assignment.name := by
  -- A name of letters holds no zero, so the lookup compares it to its end.
  have solid : 0 ∉ assignment.name := fun zero => absurd (assignment.nameChars 0 zero) (by decide)
  -- `export` marks a name but writes no value, so the lookup of the name is as before.
  obtain ⟨after, ran, same | ⟨node, words, same⟩⟩ := shellExecuteCommand_prompt showAliases others
    shellPrintError assignment memory ctx (by simp) (unaliased "export" (by simp))
  · exact ⟨after, ran, by rw [same]⟩
  · refine ⟨after, ran, ?_⟩
    rw [same]
    exact builtinExport_words holds words solid

/-- An assignment by the third one leaves the aliases as they are. -/
theorem alias_line_ignored :
    ∃ after, shellExecuteCommand (promptInterpreter showAliases others shellPrintError) supply
        (assignment.line (asciiBytes "alias")) ctx heap = .ok after ∧
      after.1.world.aliases = ctx.world.aliases := by
  -- `alias` finds no '=' within one word and lists what is there.
  obtain ⟨after, ran, same | ⟨node, words, same⟩⟩ := shellExecuteCommand_prompt showAliases others
    shellPrintError assignment memory ctx (by simp) (unaliased "alias" (by simp))
  · exact ⟨after, ran, by rw [same]⟩
  · refine ⟨after, ran, ?_⟩
    rw [same]
    exact builtinAlias_words _ words

end

/--
An assignment typed at the prompt takes effect exactly when there is nothing to change.

The equals sign is a token of its own at which the arguments end, so no builtin ever sees one.
-/
theorem assignment_effective_iff (assignment : Assignment) {supply : Nat → Nat} {heap : HeapCalls}
    (memory : Granted supply heap.requests 2) {ctx : ShellCtx (ShellWorld Rest)} {items : List ShellVar}
    (holds : ctx.world.vars.Holds items)
    (unaliased : ∀ command ∈ ["set", "export", "alias"],
      shellResolveAlias ctx.world.aliases (asciiBytes command) = asciiBytes command) :
    let run := fun command : String => shellExecuteCommand (promptInterpreter showAliases others shellPrintError)
      supply (assignment.line (asciiBytes command)) ctx heap
    (∃ after, run "set" = .ok after ∧
        (shellGetVariable after.1.world.vars assignment.name = assignment.value ↔
          shellGetVariable ctx.world.vars assignment.name = assignment.value)) ∧
      (∃ after, run "export" = .ok after ∧
        (shellGetVariable after.1.world.vars assignment.name = assignment.value ↔
          shellGetVariable ctx.world.vars assignment.name = assignment.value)) ∧
      (recordNamed aliasSize ctx.world.aliases.globalAliases ctx.world.aliases.globalAliasCount
          assignment.name = none →
        ∃ after, run "alias" = .ok after ∧
          (shellResolveAlias after.1.world.aliases assignment.name = assignment.value ↔
            assignment.name = assignment.value)) := by
  intro run
  refine ⟨?_, ?_, fun unnamed => ?_⟩
  · obtain ⟨after, ran, same⟩ := set_line_ignored showAliases others shellPrintError assignment memory
      unaliased
    exact ⟨after, ran, by rw [same]⟩
  · obtain ⟨after, ran, same⟩ := export_line_ignored showAliases others shellPrintError assignment memory
      unaliased holds
    exact ⟨after, ran, by rw [same]⟩
  · -- Without an alias the name stands for itself, before and after.
    have alone : shellResolveAlias ctx.world.aliases assignment.name = assignment.name := by
      rw [shellResolveAlias, unnamed]
    obtain ⟨after, ran, same⟩ := alias_line_ignored showAliases others shellPrintError assignment memory
      unaliased
    exact ⟨after, ran, by rw [same, alone]⟩

end

/-- The assignment of one digit to a variable of one letter. -/
def oneAssignment : Assignment where
  name := asciiBytes "A"
  value := asciiBytes "1"
  starts := ⟨0x41, [], by decide +kernel, by decide, by decide⟩
  nameChars := by decide +kernel
  nameFits := by decide +kernel
  valueNonempty := by decide +kernel
  valueChars := by decide +kernel
  valueFits := by decide +kernel

/-- The walk at the prompt of a shell whose other builtins do nothing. -/
def idlePrompt : Interpreter (ShellWorld Nat) :=
  promptInterpreter (fun _ shown => shown + 1) (fun _ => idleHandler) fun reports _ => reports + 1

/-- At the start no command is an alias, and there are no variables. -/
theorem startCtx_plain :
    startCtx.world.vars.Holds [] ∧ ∀ command ∈ ["set", "export", "alias"],
      shellResolveAlias startCtx.world.aliases (asciiBytes command) = asciiBytes command := by
  refine ⟨noVars_holds _, ?_⟩
  decide +kernel

/-- The shell once the variable has the value of the assignment. -/
def agreedCtx : ShellCtx (ShellWorld Nat) :=
  { startCtx with
    world := { startCtx.world with
      vars := shellSetVariable startCtx.world.vars (asciiBytes "A") (asciiBytes "1") } }

theorem agreedCtx_holds : agreedCtx.world.vars.Holds [⟨asciiBytes "A", asciiBytes "1", false⟩] := by
  -- The one-letter name and value are shorter than their fields.
  have named : NameFits (asciiBytes "A") := by
    unfold NameFits
    decide +kernel
  have fits : ValueFits (asciiBytes "1") := by
    unfold ValueFits
    decide +kernel
  exact startCtx_plain.1.set_new named fits (by simp) (by decide)

/-- The assignment takes no effect at the start, and seems to where the variable has the value already. -/
theorem one_assignment_effective_iff :
    let run := fun (ctx : ShellCtx (ShellWorld Nat)) command =>
      shellExecuteCommand idlePrompt (fun n => n + 1) (oneAssignment.line (asciiBytes command)) ctx ⟨0, []⟩
    Granted (fun n => n + 1) 0 2 ∧ startCtx.world.vars.Holds [] ∧
      (∀ command ∈ ["set", "export"],
        (∃ after, run startCtx command = .ok after ∧
          shellGetVariable after.1.world.vars (asciiBytes "A") ≠ asciiBytes "1") ∧
        ∃ after, run agreedCtx command = .ok after ∧
          shellGetVariable after.1.world.vars (asciiBytes "A") = asciiBytes "1") ∧
      ∃ after, run startCtx "alias" = .ok after ∧
        shellResolveAlias after.1.world.aliases (asciiBytes "A") ≠ asciiBytes "1" := by
  intro run
  -- This allocator numbers its answers from one, so no request is refused.
  have memory : Granted (fun n => n + 1) (HeapCalls.mk 0 []).requests 2 := fun n _ => Nat.succ_ne_zero _
  obtain ⟨holds, plain⟩ := startCtx_plain
  have unset : shellGetVariable startCtx.world.vars (asciiBytes "A") ≠ asciiBytes "1" := by decide +kernel
  have agreed : shellGetVariable agreedCtx.world.vars (asciiBytes "A") = asciiBytes "1" := by decide +kernel
  -- The empty store: `A` is not "1" before, and the line does not make it so.
  obtain ⟨⟨set, setRan, setSame⟩, ⟨exported, exportRan, exportSame⟩, renamed⟩ :=
    assignment_effective_iff (fun _ shown => shown + 1) (fun _ => idleHandler) (fun reports _ => reports + 1)
      oneAssignment memory holds plain
  -- The store where `A` already is "1": the ignored line leaves the agreement in place.
  obtain ⟨⟨kept, keptRan, keptSame⟩, ⟨marked, markedRan, markedSame⟩, -⟩ :=
    assignment_effective_iff (fun _ shown => shown + 1) (fun _ => idleHandler) (fun reports _ => reports + 1)
      oneAssignment memory agreedCtx_holds plain
  obtain ⟨named, namedRan, namedSame⟩ := renamed (by decide +kernel)
  refine ⟨memory, holds, ?_, named, namedRan, fun same => ?_⟩
  · simp only [List.mem_cons, List.not_mem_nil, or_false]
    rintro command (rfl | rfl)
    · exact ⟨⟨set, setRan, fun same => unset (setSame.mp same)⟩, kept, keptRan, keptSame.mpr agreed⟩
    · exact ⟨⟨exported, exportRan, fun same => unset (exportSame.mp same)⟩, marked, markedRan,
        markedSame.mpr agreed⟩
  · exact absurd (namedSame.mp same) (by decide +kernel)

/-- At the start of a shell the three commands lose the assignment. -/
theorem one_assignment_lost :
    (∃ after, shellExecuteCommand idlePrompt (fun n => n + 1) (asciiBytes "set A=1") startCtx ⟨0, []⟩ =
          .ok after ∧
        shellGetVariable after.1.world.vars (asciiBytes "A") ≠ asciiBytes "1") ∧
      (∃ after, shellExecuteCommand idlePrompt (fun n => n + 1) (asciiBytes "export A=1") startCtx ⟨0, []⟩ =
          .ok after ∧
        shellGetVariable after.1.world.vars (asciiBytes "A") ≠ asciiBytes "1") ∧
      ∃ after, shellExecuteCommand idlePrompt (fun n => n + 1) (asciiBytes "alias A=1") startCtx ⟨0, []⟩ =
          .ok after ∧
        shellResolveAlias after.1.world.aliases (asciiBytes "A") ≠ asciiBytes "1" := by
  have memory : Granted (fun n => n + 1) (HeapCalls.mk 0 []).requests 2 := fun n _ => Nat.succ_ne_zero _
  obtain ⟨holds, plain⟩ := startCtx_plain
  have unset : shellGetVariable startCtx.world.vars (asciiBytes "A") ≠ asciiBytes "1" := by decide +kernel
  have unnamed : shellResolveAlias startCtx.world.aliases (asciiBytes "A") ≠ asciiBytes "1" := by decide +kernel
  -- Each line leaves what it was to change, and that was not the value.
  refine ⟨?_, ?_, ?_⟩
  · obtain ⟨after, ran, same⟩ := set_line_ignored (fun _ shown => shown + 1) (fun _ => idleHandler)
      (fun reports _ => reports + 1) oneAssignment memory plain
    refine ⟨after, ?_, by rw [same]; exact unset⟩
    rw [show asciiBytes "set A=1" = oneAssignment.line (asciiBytes "set") by decide +kernel]
    exact ran
  · obtain ⟨after, ran, same⟩ := export_line_ignored (fun _ shown => shown + 1) (fun _ => idleHandler)
      (fun reports _ => reports + 1) oneAssignment memory plain holds
    refine ⟨after, ?_, fun set => unset (same.symm.trans set)⟩
    rw [show asciiBytes "export A=1" = oneAssignment.line (asciiBytes "export") by decide +kernel]
    exact ran
  · obtain ⟨after, ran, same⟩ := alias_line_ignored (fun _ shown => shown + 1) (fun _ => idleHandler)
      (fun reports _ => reports + 1) oneAssignment memory plain
    refine ⟨after, ?_, by rw [same]; exact unnamed⟩
    rw [show asciiBytes "alias A=1" = oneAssignment.line (asciiBytes "alias") by decide +kernel]
    exact ran

end MiraOS

import Mathlib.Algebra.GroupWithZero.Nat
import MiraOS.Ui.ParserLaws

/-! Lists of simple commands, and what the parser makes of one of their commands. -/

namespace MiraOS

/-- The operators that join the commands of a list. -/
inductive ListOp where
  | semicolon | and | or
  deriving DecidableEq, Repr

/-- The token of an operator. -/
def ListOp.tokenType : ListOp → TokenType
  | .semicolon => .semicolon
  | .and => .and
  | .or => .or

/-- A command that is one or more arguments. -/
structure SimpleCommand where
  words : List Token
  -- Without a word there is nothing to run, and only arguments can follow one another.
  nonempty : words ≠ []
  arguments : ∀ token ∈ words, token.type.isArgument = true

/-- The strings that the command is run with. -/
def SimpleCommand.args (command : SimpleCommand) : List HeapString :=
  command.words.map fun token => token.value

/-- A command of a list with the operator before it. -/
structure JoinedCommand where
  op : ListOp
  token : Token
  kind : token.type = op.tokenType
  command : SimpleCommand

/-- The tokens of the commands after the first. -/
def joinedTokens : List JoinedCommand → List Token
  | [] => []
  | joined :: rest => joined.token :: (joined.command.words ++ joinedTokens rest)

/-- A list of simple commands, ended by the end token unless there was no memory for it. -/
structure CommandLine where
  first : SimpleCommand
  rest : List JoinedCommand
  ending : Option Token
  ended : ∀ token ∈ ending, token.type = .eof

/-- The tokens of a list. -/
def CommandLine.tokens (line : CommandLine) : List Token :=
  line.first.words ++ (joinedTokens line.rest ++ line.ending.toList)

/-- How many arguments the commands of a list have. -/
def argumentsOf (first : SimpleCommand) (rest : List JoinedCommand) : Nat :=
  first.words.length + (rest.map fun joined => joined.command.words.length).sum

/-- How often the argument array is replaced while more arguments are stored. -/
def growths : Nat → Nat → Nat → Nat
  | 0, _, _ => 0
  | more + 1, argCount, argCap =>
    if argCap ≤ argCount then growths more (argCount + 1) (argCap * 2) + 1
    else growths more (argCount + 1) argCap

/-- How many requests for memory a command takes: two nodes and two arrays, and the array's growth. -/
def SimpleCommand.requests (command : SimpleCommand) : Nat := growths command.words.length 0 8 + 4

/-- How many requests for memory an operator takes. -/
def ListOp.requests : ListOp → Nat
  | .semicolon => 1
  -- A node for the operator and an array for each of its two children.
  | .and | .or => 3

/-- How many requests for memory the commands after the first take. -/
def joinedRequests : List JoinedCommand → Nat
  | [] => 0
  | joined :: rest => joined.command.requests + (joined.op.requests + joinedRequests rest)

/-- How many requests for memory a whole list takes. -/
def CommandLine.requests (line : CommandLine) : Nat :=
  1 + (line.first.requests + (1 + joinedRequests line.rest))

/-- The allocator answers a number of requests with memory. -/
def Granted (supply : Nat → Nat) (start count : Nat) : Prop := ∀ i < count, supply (start + i) ≠ 0

/-- Requests answered in two groups. -/
theorem granted_add {supply : Nat → Nat} {start count more : Nat} :
    Granted supply start (count + more) ↔
      Granted supply start count ∧ Granted supply (start + count) more := by
  -- A request of the second group is counted from the end of the first.
  constructor
  · intro all
    refine ⟨fun i inside => all i (by omega), fun i inside => ?_⟩
    rw [Nat.add_assoc]
    exact all (count + i) (by omega)
  · rintro ⟨front, back⟩ i inside
    by_cases early : i < count
    · exact front i early
    · have later := back (i - count) (by omega)
      rwa [show start + count + (i - count) = start + i by omega] at later

/-- One request. -/
theorem granted_one {supply : Nat → Nat} {start : Nat} : Granted supply start 1 ↔ supply start ≠ 0 :=
  ⟨fun all => all 0 Nat.one_pos, fun first i inside => by
    have zero : i = 0 := by omega
    rwa [zero]⟩

/-- A command has an argument. -/
theorem SimpleCommand.length_pos (command : SimpleCommand) : 0 < command.words.length :=
  List.length_pos_iff.mpr command.nonempty

/-- A list has an argument. -/
theorem argumentsOf_pos (first : SimpleCommand) (rest : List JoinedCommand) :
    0 < argumentsOf first rest :=
  Nat.lt_of_lt_of_le first.length_pos (Nat.le_add_right ..)

/-- One more command adds its arguments. -/
theorem argumentsOf_snoc (first : SimpleCommand) (done : List JoinedCommand)
    (joined : JoinedCommand) (rest : List JoinedCommand) :
    argumentsOf first (done ++ joined :: rest) =
      argumentsOf first done + joined.command.words.length +
        (rest.map fun joined => joined.command.words.length).sum := by
  simp only [argumentsOf, List.map_append, List.map_cons, List.sum_append, List.sum_cons]
  omega

/-- All the words of a command are arguments. -/
theorem argumentTokens_words (command : SimpleCommand) (after : List Token) :
    argumentTokens (command.words ++ after) = command.words.length + argumentTokens after := by
  rw [argumentTokens, List.countP_append, List.countP_eq_length.mpr command.arguments]
  rfl

/-- An operator is not an argument and joins commands. -/
theorem JoinedCommand.token_kind (joined : JoinedCommand) :
    joined.token.type.isArgument = false ∧ joined.token.type.joinsCommands = true ∧
      joined.token.type.endsCommand = true := by
  rw [joined.kind]
  -- The operators that join commands are the same three kinds of token.
  cases joined.op <;> decide

/-- The arguments among the tokens of a list are those of its commands. -/
theorem argumentTokens_joined (rest : List JoinedCommand) (ending : Option Token)
    (ended : ∀ token ∈ ending, token.type = .eof) :
    argumentTokens (joinedTokens rest ++ ending.toList) =
      (rest.map fun joined => joined.command.words.length).sum := by
  -- The operators and the end token are no arguments.
  induction rest with
  | nil =>
    cases ending with
    | none => rfl
    | some eof =>
      rw [joinedTokens, List.nil_append, Option.toList, argumentTokens_cons, ended eof rfl]
      rfl
  | cons joined rest ih =>
    rw [joinedTokens, List.cons_append, List.append_assoc, argumentTokens_cons,
      argumentTokens_words, ih, joined.token_kind.1, List.map_cons, List.sum_cons]
    simp

/-- What follows a command of a list: nothing, an operator or the end. -/
def EndsSimple (after : List Token) : Prop :=
  ∀ token ∈ after.head?, token.type.endsCommand = true ∧ token.type ≠ .pipe

/-- The rest of a list follows a command. -/
theorem endsSimple_joined (rest : List JoinedCommand) (ending : Option Token)
    (ended : ∀ token ∈ ending, token.type = .eof) :
    EndsSimple (joinedTokens rest ++ ending.toList) := by
  -- The next token is the end or an operator.
  intro token head
  cases rest with
  | nil =>
    cases ending with
    | none => simp [joinedTokens] at head
    | some eof =>
      obtain rfl : eof = token := by simpa [joinedTokens] using head
      rw [ended eof rfl]
      decide
  | cons joined rest =>
    obtain rfl : joined.token = token := by simpa [joinedTokens] using head
    rw [joined.kind]
    cases joined.op <;> decide

/-- An argument neither ends a command nor joins two. -/
theorem isArgument_plain {type : TokenType} (argument : type.isArgument = true) :
    type.endsCommand = false ∧ type.joinsCommands = false ∧ type ≠ .lparen ∧ type ≠ .eof := by
  cases type <;> revert argument <;> decide

section

variable {supply : Nat → Nat} {curr : Token} {rest : List Token} {argCap : Nat} {cmd : CommandData}
  {heap : HeapCalls}

/-- The argument loop stops at a token that ends the command. -/
theorem commandLoop_stop (ends : curr.type.endsCommand = true) :
    commandLoop supply (curr :: rest) argCap cmd heap = ⟨cmd, curr :: rest, heap⟩ := by
  unfold commandLoop
  rw [if_pos ends]

/-- The argument loop stops at every token that is not an argument. -/
theorem commandLoop_other (other : curr.type.isArgument = false) :
    commandLoop supply (curr :: rest) argCap cmd heap = ⟨cmd, curr :: rest, heap⟩ := by
  by_cases ends : curr.type.endsCommand = true
  · exact commandLoop_stop ends
  · -- The branches for redirections are never reached, as these tokens end a command.
    have noIn : curr.type ≠ .redirectIn := fun type => ends (by rw [type]; rfl)
    have noOut : curr.type ≠ .redirectOut := fun type => ends (by rw [type]; rfl)
    have noAppend : curr.type ≠ .redirectAppend := fun type => ends (by rw [type]; rfl)
    unfold commandLoop
    rw [if_neg ends, if_neg (by simp [other]), if_neg noIn, if_neg noOut, if_neg noAppend]

/-- The argument loop stores an argument that the array has room for. -/
theorem commandLoop_store (argument : curr.type.isArgument = true)
    (room : ¬ argCap ≤ cmd.args.length) :
    commandLoop supply (curr :: rest) argCap cmd heap =
      commandLoop supply rest argCap { cmd with args := cmd.args ++ [curr.value] } heap := by
  have plain : ¬ curr.type.endsCommand = true := by simp [(isArgument_plain argument).1]
  conv_lhs => unfold commandLoop
  rw [if_neg plain, if_pos argument, if_neg room]

/-- The argument loop stores an argument in a larger array. -/
theorem commandLoop_grow (argument : curr.type.isArgument = true) (full : argCap ≤ cmd.args.length)
    (memory : supply heap.requests ≠ 0) :
    commandLoop supply (curr :: rest) argCap cmd heap =
      commandLoop supply rest (argCap * 2)
        { cmd with args := cmd.args ++ [curr.value], argsAddress := supply heap.requests }
        ⟨heap.requests + 1, heap.freed ++ [cmd.argsAddress]⟩ := by
  -- An argument ends no command, and the array is full, so a larger one is asked for.
  have plain : ¬ curr.type.endsCommand = true := by simp [(isArgument_plain argument).1]
  conv_lhs => unfold commandLoop
  rw [if_neg plain, if_pos argument, if_pos full]
  exact if_neg memory

/-- The argument loop stops when there is no memory for a larger array. -/
theorem commandLoop_stuck (argument : curr.type.isArgument = true) (full : argCap ≤ cmd.args.length)
    (memory : supply heap.requests = 0) :
    commandLoop supply (curr :: rest) argCap cmd heap =
      ⟨cmd, curr :: rest, ⟨heap.requests + 1, heap.freed⟩⟩ := by
  -- An argument ends no command, and the larger array is refused.
  have plain : ¬ curr.type.endsCommand = true := by simp [(isArgument_plain argument).1]
  conv_lhs => unfold commandLoop
  rw [if_neg plain, if_pos argument, if_pos full]
  exact if_pos memory

end

/-- The argument loop over words that there is memory for. -/
theorem commandLoop_words {supply : Nat → Nat} {words after : List Token} {argCap : Nat}
    {cmd : CommandData} {heap : HeapCalls} (arguments : ∀ token ∈ words, token.type.isArgument = true)
    (ends : EndsSimple after)
    (granted : Granted supply heap.requests (growths words.length cmd.args.length argCap)) :
    let taken := commandLoop supply (words ++ after) argCap cmd heap
    taken.cmd.args = cmd.args ++ words.map (fun token => token.value) ∧ taken.tokens = after ∧
      taken.heap.requests = heap.requests + growths words.length cmd.args.length argCap := by
  -- Each word is stored at once or after the array has grown, as the count of requests says.
  induction words generalizing argCap cmd heap with
  | nil =>
    cases after with
    | nil => simp [commandLoop, growths]
    | cons token rest => simp [commandLoop_stop (ends token rfl).1, growths]
  | cons word rest ih =>
    have argument := arguments word List.mem_cons_self
    have others := fun token among => arguments token (List.mem_cons_of_mem word among)
    rw [List.length_cons, growths] at granted ⊢
    have values : cmd.args ++ (word :: rest).map (fun token => token.value) =
        cmd.args ++ [word.value] ++ rest.map (fun token => token.value) := by simp
    rw [List.cons_append, values]
    by_cases full : argCap ≤ cmd.args.length
    · rw [if_pos full, Nat.add_comm] at granted
      -- The growth takes the first of the requests that are left.
      obtain ⟨first, later⟩ := granted_add.mp granted
      rw [if_pos full, commandLoop_grow argument full (granted_one.mp first)]
      have tail := @ih (argCap * 2)
        { cmd with args := cmd.args ++ [word.value], argsAddress := supply heap.requests }
        ⟨heap.requests + 1, heap.freed ++ [cmd.argsAddress]⟩ others (by simpa using later)
      rw [List.length_append, List.length_singleton] at tail
      refine ⟨tail.1, tail.2.1, tail.2.2.trans ?_⟩
      show heap.requests + 1 + _ = _
      omega
    · rw [if_neg full] at granted
      rw [if_neg full, commandLoop_store argument full]
      have tail := @ih argCap { cmd with args := cmd.args ++ [word.value] } heap others
        (by simpa using granted)
      rw [List.length_append, List.length_singleton] at tail
      exact tail

/-- The next token is an argument. -/
def StartsWithArgument (tokens : List Token) : Prop :=
  ∃ word rest, tokens = word :: rest ∧ word.type.isArgument = true

/-- A simple command starts with an argument. -/
theorem SimpleCommand.starts (command : SimpleCommand) (after : List Token) :
    StartsWithArgument (command.words ++ after) := by
  obtain ⟨word, rest, shape⟩ := List.exists_cons_of_ne_nil command.nonempty
  -- A command has words, so it starts with one.
  have argument := command.arguments word (by rw [shape]; exact List.mem_cons_self)
  exact ⟨word, rest ++ after, by rw [shape, List.cons_append], argument⟩

/-- No command is joined at an argument. -/
theorem StartsWithArgument.joinable {tokens : List Token} (starts : StartsWithArgument tokens) :
    joinableTokens tokens = 0 := by
  obtain ⟨word, rest, rfl, argument⟩ := starts
  -- A word joins nothing.
  rw [joinableTokens, (isArgument_plain argument).2.1]
  rfl

/-- The argument loop without enough memory stops in front of an argument. -/
theorem commandLoop_short {supply : Nat → Nat} {words after : List Token} {argCap : Nat}
    {cmd : CommandData} {heap : HeapCalls} (arguments : ∀ token ∈ words, token.type.isArgument = true)
    (short : ¬ Granted supply heap.requests (growths words.length cmd.args.length argCap)) :
    let taken := commandLoop supply (words ++ after) argCap cmd heap
    taken.cmd.args.length < cmd.args.length + words.length ∧ StartsWithArgument taken.tokens := by
  -- The first request that fails is one for a larger array, so a word is next there.
  induction words generalizing argCap cmd heap with
  | nil => exact absurd (fun i inside => absurd inside (Nat.not_lt_zero i)) short
  | cons word rest ih =>
    have argument := arguments word List.mem_cons_self
    have others := fun token among => arguments token (List.mem_cons_of_mem word among)
    rw [List.length_cons, growths] at short
    rw [List.cons_append, List.length_cons]
    by_cases full : argCap ≤ cmd.args.length
    · rw [if_pos full, Nat.add_comm, granted_add, granted_one] at short
      by_cases memory : supply heap.requests = 0
      · -- The array cannot grow, and the word that was next stays unread.
        rw [commandLoop_stuck argument full memory]
        exact ⟨by simp, word, rest ++ after, rfl, argument⟩
      · rw [commandLoop_grow argument full memory]
        have tail := @ih (argCap * 2)
          { cmd with args := cmd.args ++ [word.value], argsAddress := supply heap.requests }
          ⟨heap.requests + 1, heap.freed ++ [cmd.argsAddress]⟩ others
          (by simpa [memory] using short)
        rw [List.length_append, List.length_singleton] at tail
        exact ⟨Nat.lt_of_lt_of_eq tail.1 (by omega), tail.2⟩
    · rw [if_neg full] at short
      rw [commandLoop_store argument full]
      have tail := @ih argCap { cmd with args := cmd.args ++ [word.value] } heap others
        (by simpa using short)
      rw [List.length_append, List.length_singleton] at tail
      exact ⟨Nat.lt_of_lt_of_eq tail.1 (by omega), tail.2⟩

/-- A command node with the given arguments. -/
def IsCommand (node : Node) (args : List HeapString) : Prop :=
  node.type = .command ∧ node.cmd.args = args

/-- A pipeline of one command with the given arguments. -/
def IsSimple (node : Node) (args : List HeapString) : Prop :=
  node.type = .pipeline ∧ ∃ command, node.children = [command] ∧ IsCommand command args

section

variable {supply : Nat → Nat} {heap : HeapCalls}

/-- A new node when there is memory. -/
theorem astCreateNode_granted (type : NodeType) (memory : supply heap.requests ≠ 0) :
    astCreateNode supply type heap =
      (some (.mk (supply heap.requests) type 0 [] 0 {}), ⟨heap.requests + 1, heap.freed⟩) :=
  if_neg memory

/-- No node when there is no memory. -/
theorem astCreateNode_denied (type : NodeType) (memory : supply heap.requests = 0) :
    astCreateNode supply type heap = (none, ⟨heap.requests + 1, heap.freed⟩) :=
  if_pos memory

/-- One more child when there is memory for the array. -/
theorem astAddChild_granted (parent child : Node) (memory : supply heap.requests ≠ 0) :
    ∃ node, (astAddChild supply (some parent) (some child) heap).1 = some node ∧
      node.type = parent.type ∧ node.children = parent.children ++ [child] ∧
      (astAddChild supply (some parent) (some child) heap).2.requests = heap.requests + 1 := by
  -- The array is copied and the child stands last.
  obtain ⟨address, type, array, children, value, cmd⟩ := parent
  refine ⟨.mk address type (supply heap.requests) (children ++ [child]) value cmd, ?_, rfl, rfl, ?_⟩
  · exact congrArg Prod.fst (if_neg memory)
  · exact congrArg (fun pair : Option Node × HeapCalls => pair.2.requests) (if_neg memory)

/-- The same children when there is no memory for the array. -/
theorem astAddChild_denied (parent : Node) (child : Option Node) (memory : supply heap.requests = 0) :
    (astAddChild supply (some parent) child heap).1 = some parent := by
  obtain ⟨address, type, array, children, value, cmd⟩ := parent
  -- Without a child or without memory the parent stays as it is.
  cases child with
  | none => rfl
  | some child => exact congrArg Prod.fst (if_pos memory)

/-- A command whose node and array there is memory for. -/
theorem parseCommand_granted {curr : Token} {rest : List Token} (plain : curr.type ≠ .eof)
    (create : supply heap.requests ≠ 0) (array : supply (heap.requests + 1) ≠ 0) :
    parseCommand supply (curr :: rest) heap =
      let taken := commandLoop supply (curr :: rest) 8 { argsAddress := supply (heap.requests + 1) }
        ⟨heap.requests + 2, heap.freed⟩
      ⟨some (.mk (supply heap.requests) .command 0 [] 0 taken.cmd), taken.tokens, taken.heap⟩ := by
  unfold parseCommand
  -- Both requests of the command are granted, so its arguments are read.
  simp only [if_neg plain, astCreateNode_granted .command create]
  exact if_neg array

/-- A command whose node or array there is no memory for. -/
theorem parseCommand_denied {curr : Token} {rest : List Token} (plain : curr.type ≠ .eof)
    (denied : ¬ (supply heap.requests ≠ 0 ∧ supply (heap.requests + 1) ≠ 0)) :
    (parseCommand supply (curr :: rest) heap).node = none ∧
      (parseCommand supply (curr :: rest) heap).tokens = curr :: rest := by
  -- Either the node is missing, or it is given back for want of an array.
  unfold parseCommand
  by_cases create : supply heap.requests = 0
  · simp only [if_neg plain, astCreateNode_denied .command create]
    exact ⟨trivial, trivial⟩
  · have array : supply (heap.requests + 1) = 0 := by
      by_contra memory
      exact denied ⟨create, memory⟩
    simp only [if_neg plain, astCreateNode_granted .command create]
    constructor
    · exact congrArg Parsed.node (if_pos array)
    · exact congrArg Parsed.tokens (if_pos array)

/-- A simple command that there is memory for. -/
theorem parseCommand_simple (command : SimpleCommand) {after : List Token} (ends : EndsSimple after)
    (granted : Granted supply heap.requests (2 + growths command.words.length 0 8)) :
    ∃ node, (parseCommand supply (command.words ++ after) heap).node = some node ∧
      IsCommand node command.args ∧
      (parseCommand supply (command.words ++ after) heap).tokens = after ∧
      (parseCommand supply (command.words ++ after) heap).heap.requests =
        heap.requests + (2 + growths command.words.length 0 8) := by
  -- Two requests are for the node and its array, the others for the growth.
  obtain ⟨made, grow⟩ := granted_add.mp granted
  obtain ⟨word, rest, shape, argument⟩ := command.starts after
  have loop := @commandLoop_words supply command.words after 8
    { argsAddress := supply (heap.requests + 1) } ⟨heap.requests + 2, heap.freed⟩ command.arguments
    ends grow
  rw [shape] at loop ⊢
  rw [parseCommand_granted (isArgument_plain argument).2.2.2 (made 0 (by omega)) (made 1 (by omega))]
  refine ⟨_, rfl, ⟨rfl, loop.1⟩, loop.2.1, loop.2.2.trans ?_⟩
  show heap.requests + 2 + growths command.words.length 0 8 = _
  omega

/-- A simple command that there is not enough memory for. -/
theorem parseCommand_short (command : SimpleCommand) {after : List Token}
    (short : ¬ Granted supply heap.requests (2 + growths command.words.length 0 8)) :
    reachOf (parseCommand supply (command.words ++ after) heap).node < command.words.length ∧
      StartsWithArgument (parseCommand supply (command.words ++ after) heap).tokens := by
  -- With both of the first two requests granted, the loop is what runs short.
  have starts := command.starts after
  obtain ⟨word, rest, shape, argument⟩ := starts
  have plain := (isArgument_plain argument).2.2.2
  by_cases made : supply heap.requests ≠ 0 ∧ supply (heap.requests + 1) ≠ 0
  · have first : Granted supply heap.requests 2 :=
      granted_add.mpr ⟨granted_one.mpr made.1, granted_one.mpr made.2⟩
    have loop := @commandLoop_short supply command.words after 8
      { argsAddress := supply (heap.requests + 1) } ⟨heap.requests + 2, heap.freed⟩
      command.arguments (fun grow => short (granted_add.mpr ⟨first, grow⟩))
    rw [shape] at loop ⊢
    rw [parseCommand_granted plain made.1 made.2]
    exact ⟨Nat.lt_of_lt_of_eq loop.1 (Nat.zero_add _), loop.2⟩
  · -- Without a node the tokens stay as they are, with an argument in front.
    rw [shape]
    obtain ⟨missing, kept⟩ := @parseCommand_denied supply heap word rest plain made
    -- Neither the end nor a token that joins commands is a bar.
    rw [missing, kept]
    exact ⟨command.length_pos, word, rest, rfl, argument⟩

/-- The loop of a pipeline stops at the end of a simple command. -/
theorem pipelineLoop_stop (pipeline : Option Node) {after : List Token} (ends : EndsSimple after) :
    pipelineLoop supply pipeline after heap = ⟨pipeline, after, heap⟩ := by
  unfold pipelineLoop
  cases after with
  | nil => rfl
  | cons token rest => exact if_neg (ends token rfl).2

/-- The loop of a pipeline stops at an argument. -/
theorem pipelineLoop_argument (pipeline : Option Node) {tokens : List Token}
    (starts : StartsWithArgument tokens) :
    pipelineLoop supply pipeline tokens heap = ⟨pipeline, tokens, heap⟩ := by
  -- An argument is no bar.
  obtain ⟨word, rest, rfl, argument⟩ := starts
  unfold pipelineLoop
  apply if_neg
  intro bar
  -- The words start with an argument, which is no parenthesis.
  rw [bar] at argument
  cases argument

/-- An expression that is not in parentheses. -/
theorem parseExpression_words (command : SimpleCommand) (after : List Token) :
    parseExpression supply (command.words ++ after) heap =
      parsePipeline supply (command.words ++ after) heap := by
  obtain ⟨word, rest, shape, argument⟩ := command.starts after
  rw [shape]
  -- The requests of a command are its pipeline's, its own and the slot it is put into.
  exact if_neg (isArgument_plain argument).2.2.1

/-- The requests of a simple command: its pipeline, the command itself and the pipeline's array. -/
theorem granted_command {command : SimpleCommand} :
    Granted supply heap.requests command.requests ↔ supply heap.requests ≠ 0 ∧
      Granted supply (heap.requests + 1) (2 + growths command.words.length 0 8) ∧
      supply (heap.requests + 1 + (2 + growths command.words.length 0 8)) ≠ 0 := by
  have parts : command.requests = 1 + ((2 + growths command.words.length 0 8) + 1) := by
    rw [SimpleCommand.requests]
    omega
  rw [parts, granted_add, granted_add, granted_one, granted_one]

/-- An expression that is a simple command with enough memory. -/
theorem parseExpression_simple (command : SimpleCommand) {after : List Token}
    (ends : EndsSimple after) (granted : Granted supply heap.requests command.requests) :
    ∃ node, (parseExpression supply (command.words ++ after) heap).node = some node ∧
      IsSimple node command.args ∧
      (parseExpression supply (command.words ++ after) heap).tokens = after ∧
      (parseExpression supply (command.words ++ after) heap).heap.requests =
        heap.requests + command.requests := by
  -- The pipeline asks first, then the command, and at last the array of the pipeline.
  obtain ⟨create, parse, add⟩ := granted_command.mp granted
  obtain ⟨inner, found, isCommand, left, used⟩ :=
    @parseCommand_simple supply ⟨heap.requests + 1, heap.freed⟩ command after ends parse
  obtain ⟨node, added, type, children, last⟩ := @astAddChild_granted supply
    (parseCommand supply (command.words ++ after) ⟨heap.requests + 1, heap.freed⟩).heap
    (.mk (supply heap.requests) .pipeline 0 [] 0 {}) inner (by rw [used]; exact add)
  rw [parseExpression_words, parsePipeline]
  simp only [astCreateNode_granted .pipeline create, found, added, left]
  rw [pipelineLoop_stop _ ends]
  refine ⟨node, rfl, ⟨type, inner, children, isCommand⟩, rfl, last.trans ?_⟩
  rw [used, SimpleCommand.requests]
  show heap.requests + 1 + _ + 1 = _
  omega

/-- An expression that is a simple command without enough memory. -/
theorem parseExpression_short (command : SimpleCommand) {after : List Token}
    (ends : EndsSimple after) (short : ¬ Granted supply heap.requests command.requests) :
    reachOf (parseExpression supply (command.words ++ after) heap).node +
        joinableTokens (parseExpression supply (command.words ++ after) heap).tokens <
      command.words.length + argumentTokens after := by
  -- One of the three groups of requests is where the memory ends.
  have positive := command.length_pos
  have following := joinableTokens_le after
  rw [granted_command] at short
  rw [parseExpression_words, parsePipeline]
  by_cases create : supply heap.requests = 0
  · simp only [astCreateNode_denied .pipeline create, (command.starts after).joinable, reachOf]
    omega
  · simp only [astCreateNode_granted .pipeline create]
    by_cases parse : Granted supply (heap.requests + 1) (2 + growths command.words.length 0 8)
    · -- The command is there, but the pipeline has no room for it.
      have add : supply (heap.requests + 1 + (2 + growths command.words.length 0 8)) = 0 := by
        by_contra memory
        exact short ⟨create, parse, memory⟩
      obtain ⟨inner, found, -, left, used⟩ :=
        @parseCommand_simple supply ⟨heap.requests + 1, heap.freed⟩ command after ends parse
      simp only [found, left]
      rw [pipelineLoop_stop _ ends, astAddChild_denied _ _ (by rw [used]; exact add)]
      show 0 + joinableTokens after < _
      omega
    -- The command has too few arguments, and the pipeline stops at the next one.
    · obtain ⟨fewer, starts⟩ :=
        @parseCommand_short supply ⟨heap.requests + 1, heap.freed⟩ command after parse
      cases found : (parseCommand supply (command.words ++ after)
          ⟨heap.requests + 1, heap.freed⟩).node with
      | none =>
        simp only [starts.joinable, reachOf]
        omega
      | some inner =>
        rw [found] at fewer
        simp only
        rw [pipelineLoop_argument _ starts, starts.joinable]
        have grown := astAddChild_reach supply (some (.mk (supply heap.requests) .pipeline 0 [] 0 {}))
          (some inner) (parseCommand supply (command.words ++ after)
            ⟨heap.requests + 1, heap.freed⟩).heap
        have empty : reachOf (some (.mk (supply heap.requests) .pipeline 0 [] 0 {})) = 0 := rfl
        refine Nat.lt_of_le_of_lt (Nat.add_le_add_right grown 0) ?_
        omega

end

end MiraOS

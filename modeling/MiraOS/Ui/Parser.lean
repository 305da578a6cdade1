import Mathlib.Data.List.Basic

/-! The recursive-descent parser of ui/shell.c, with the memory it asks for and gives back. -/

namespace MiraOS

/-- The kinds of tokens. -/
inductive TokenType where
  | word | string | number | operator | pipe | redirectIn | redirectOut | redirectAppend
  | background | semicolon | and | or | lparen | rparen | eof | error
  deriving DecidableEq, Repr

/-- The kinds of nodes, most of which the parser never creates. -/
inductive NodeType where
  | command | pipeline | redirect | background | sequence | and | or | subshell
  | for | while | if | function | varAssign | export | alias
  deriving DecidableEq, Repr

/-- A string on the heap: where it is and its bytes before the terminator. -/
structure HeapString where
  address : Nat
  bytes : List UInt8
  deriving DecidableEq, Repr

/-- A token; the links to the next one are the order of a list. -/
structure Token where
  address : Nat
  type : TokenType
  value : HeapString
  deriving DecidableEq, Repr

/-- The command part of a node, cleared at first. -/
structure CommandData where
  argsAddress : Nat := 0
  args : List HeapString := []
  inputRedirect : Option HeapString := none
  outputRedirect : Option HeapString := none
  appendOutput : Bool := false
  background : Bool := false
  deriving DecidableEq, Repr

/-- A node of the syntax tree with its array of children. -/
inductive Node where
  | mk (address : Nat) (type : NodeType) (childrenAddress : Nat) (children : List Node) (value : Nat)
      (cmd : CommandData)

/-- The kind of a node. -/
def Node.type : Node → NodeType
  | .mk _ type _ _ _ _ => type

/-- The children of a node. -/
def Node.children : Node → List Node
  | .mk _ _ _ children _ _ => children

/-- The command part of a node. -/
def Node.cmd : Node → CommandData
  | .mk _ _ _ _ _ cmd => cmd

/-- A node with another command part. -/
def Node.setCmd : Node → CommandData → Node
  | .mk address type childrenAddress children value _, cmd =>
    .mk address type childrenAddress children value cmd

/-- The calls made to the allocator: how many requests so far, and the pointers given back. -/
structure HeapCalls where
  requests : Nat
  freed : List Nat
  deriving DecidableEq, Repr

/-- One request, answered by an address or by zero. -/
def HeapCalls.kmalloc (supply : Nat → Nat) (heap : HeapCalls) : Nat × HeapCalls :=
  (supply heap.requests, { heap with requests := heap.requests + 1 })

/-- One pointer given back. -/
def HeapCalls.kfree (heap : HeapCalls) (pointer : Nat) : HeapCalls :=
  { heap with freed := heap.freed ++ [pointer] }

/-- The token ends a simple command. -/
def TokenType.endsCommand : TokenType → Bool
  | .eof | .pipe | .redirectIn | .redirectOut | .redirectAppend | .semicolon | .and | .or
  | .background => true
  | _ => false

/-- The token is an argument of a command. -/
def TokenType.isArgument : TokenType → Bool
  | .word | .string | .number => true
  | _ => false

/-- The token joins two commands of a list. -/
def TokenType.joinsCommands : TokenType → Bool
  | .semicolon | .and | .or => true
  | _ => false

/-- A new node without children. -/
def astCreateNode (supply : Nat → Nat) (type : NodeType) (heap : HeapCalls) :
    Option Node × HeapCalls :=
  let (node, heap) := heap.kmalloc supply
  if node = 0 then (none, heap) else (some (.mk node type 0 [] 0 {}), heap)

/-- Append a child to a copy of the array of children; the new parent is returned. -/
def astAddChild (supply : Nat → Nat) : Option Node → Option Node → HeapCalls →
    Option Node × HeapCalls
  | some (.mk address type childrenAddress children value cmd), some child, heap =>
    let (newChildren, heap) := heap.kmalloc supply
    -- Without memory the child is dropped and the parent stays as it is.
    if newChildren = 0 then (some (.mk address type childrenAddress children value cmd), heap)
    else
      (some (.mk address type newChildren (children ++ [child]) value cmd),
        heap.kfree childrenAddress)
  | parent, _, heap => (parent, heap)

mutual

/-- Give back a node and everything below it. -/
def astFree : Node → HeapCalls → HeapCalls
  | .mk address type childrenAddress children value cmd, heap =>
    -- The array is given back even where there is none, as a null pointer.
    let heap := (astFreeAll children heap).kfree childrenAddress
    let heap := if value = 0 then heap else heap.kfree value
    let heap :=
      if type = .command ∧ cmd.argsAddress ≠ 0 then
        (cmd.args.foldl (fun heap arg => heap.kfree arg.address) heap).kfree cmd.argsAddress
      else heap
    heap.kfree address

/-- The loop over the children. -/
def astFreeAll : List Node → HeapCalls → HeapCalls
  | [], heap => heap
  | child :: rest, heap => astFreeAll rest (astFree child heap)

end

/-- What the argument loop leaves: the command part, the tokens not taken and the calls made. -/
structure Arguments where
  cmd : CommandData
  tokens : List Token
  heap : HeapCalls
  deriving DecidableEq, Repr

/-- The loop that collects the arguments of a command into an array of a capacity. -/
def commandLoop (supply : Nat → Nat) : List Token → Nat → CommandData → HeapCalls → Arguments
  | [], _, cmd, heap => ⟨cmd, [], heap⟩
  | curr :: rest, argCap, cmd, heap =>
    if curr.type.endsCommand then ⟨cmd, curr :: rest, heap⟩
    else if curr.type.isArgument then
      if argCap ≤ cmd.args.length then
        -- The array is full and is copied to one of twice the size.
        let newArgs := heap.kmalloc supply
        if newArgs.1 = 0 then ⟨cmd, curr :: rest, newArgs.2⟩
        else
          commandLoop supply rest (argCap * 2)
            { cmd with args := cmd.args ++ [curr.value], argsAddress := newArgs.1 }
            (newArgs.2.kfree cmd.argsAddress)
      else commandLoop supply rest argCap { cmd with args := cmd.args ++ [curr.value] } heap
    -- The loop has already stopped at the redirections, so the next three branches are never taken.
    else if curr.type = .redirectIn then
      match rest with
      | file :: after =>
        if file.type = .word then
          commandLoop supply after argCap { cmd with inputRedirect := some file.value } heap
        else commandLoop supply (file :: after) argCap cmd heap
      | [] => ⟨cmd, [], heap⟩
    else if curr.type = .redirectOut then
      match rest with
      | file :: after =>
        if file.type = .word then
          commandLoop supply after argCap
            { cmd with outputRedirect := some file.value, appendOutput := false } heap
        else commandLoop supply (file :: after) argCap cmd heap
      | [] => ⟨cmd, [], heap⟩
    else if curr.type = .redirectAppend then
      match rest with
      | file :: after =>
        if file.type = .word then
          commandLoop supply after argCap
            { cmd with outputRedirect := some file.value, appendOutput := true } heap
        else commandLoop supply (file :: after) argCap cmd heap
      | [] => ⟨cmd, [], heap⟩
    else ⟨cmd, curr :: rest, heap⟩

/-- What a parsing function returns: a node or nothing, the tokens left and the calls made. -/
structure Parsed where
  node : Option Node
  tokens : List Token
  heap : HeapCalls

/-- A simple command. -/
def parseCommand (supply : Nat → Nat) (tokens : List Token) (heap : HeapCalls) : Parsed :=
  match tokens with
  | [] => ⟨none, tokens, heap⟩
  | curr :: _ =>
    if curr.type = .eof then ⟨none, tokens, heap⟩
    else
      let made := astCreateNode supply .command heap
      match made.1 with
      | none => ⟨none, tokens, made.2⟩
      | some cmd =>
        let args := made.2.kmalloc supply
        if args.1 = 0 then ⟨none, tokens, astFree cmd args.2⟩
        else
          -- The array starts with room for eight arguments.
          let taken := commandLoop supply tokens 8 { cmd.cmd with argsAddress := args.1 } args.2
          ⟨some (cmd.setCmd taken.cmd), taken.tokens, taken.heap⟩

/-- The argument loop leaves a suffix of the tokens. -/
theorem commandLoop_suffix (supply : Nat → Nat) (tokens : List Token) (argCap : Nat)
    (cmd : CommandData) (heap : HeapCalls) :
    (commandLoop supply tokens argCap cmd heap).tokens <:+ tokens := by
  -- Every branch either stops at the current token or drops one or two of them.
  fun_induction commandLoop supply tokens argCap cmd heap
  all_goals first
    | exact List.suffix_rfl
    | exact List.nil_suffix
    | exact List.IsSuffix.trans (by assumption) (List.suffix_cons ..)
    | exact List.IsSuffix.trans (by assumption)
        ((List.suffix_cons ..).trans (List.suffix_cons ..))

/-- A simple command leaves a suffix of the tokens. -/
theorem parseCommand_suffix (supply : Nat → Nat) (tokens : List Token) (heap : HeapCalls) :
    (parseCommand supply tokens heap).tokens <:+ tokens := by
  -- Only the argument loop takes tokens.
  fun_cases parseCommand supply tokens heap
  all_goals first
    | exact List.suffix_rfl
    | exact commandLoop_suffix ..

/-- The loop that collects the commands of a pipeline. -/
def pipelineLoop (supply : Nat → Nat) (pipeline : Option Node) (tokens : List Token)
    (heap : HeapCalls) : Parsed :=
  match tokens with
  | [] => ⟨pipeline, [], heap⟩
  | bar :: rest =>
    if bar.type = .pipe then
      let parsed := parseCommand supply rest heap
      match parsed.node with
      -- A bar without a command after it ends the pipeline.
      | none => ⟨pipeline, parsed.tokens, parsed.heap⟩
      | some cmd =>
        let added := astAddChild supply pipeline (some cmd) parsed.heap
        pipelineLoop supply added.1 parsed.tokens added.2
    else ⟨pipeline, bar :: rest, heap⟩
termination_by tokens.length
decreasing_by
  have shorter := (parseCommand_suffix supply rest heap).length_le
  simp only [List.length_cons]
  omega

/-- A pipeline of one or more simple commands. -/
def parsePipeline (supply : Nat → Nat) (tokens : List Token) (heap : HeapCalls) : Parsed :=
  let made := astCreateNode supply .pipeline heap
  match made.1 with
  | none => ⟨none, tokens, made.2⟩
  | some pipeline =>
    let parsed := parseCommand supply tokens made.2
    match parsed.node with
    | none => ⟨none, parsed.tokens, astFree pipeline parsed.heap⟩
    | some cmd =>
      let added := astAddChild supply (some pipeline) (some cmd) parsed.heap
      pipelineLoop supply added.1 parsed.tokens added.2

/-- Skip a token of a kind if it is the next one. -/
def skipToken (type : TokenType) : List Token → List Token
  | [] => []
  | curr :: rest => if curr.type = type then rest else curr :: rest

/-- An expression: a parenthesised one or a pipeline. -/
def parseExpression (supply : Nat → Nat) : List Token → HeapCalls → Parsed
  | [], heap => ⟨none, [], heap⟩
  | curr :: rest, heap =>
    if curr.type = .lparen then
      let made := astCreateNode supply .subshell heap
      let inner := parseExpression supply rest made.2
      -- An empty pair of parentheses leaves a node without children.
      let added :=
        if inner.node.isSome then astAddChild supply made.1 inner.node inner.heap
        else (made.1, inner.heap)
      ⟨added.1, skipToken .rparen inner.tokens, added.2⟩
    else parsePipeline supply (curr :: rest) heap

/-- The loop of a pipeline leaves a suffix of the tokens. -/
theorem pipelineLoop_suffix (supply : Nat → Nat) (pipeline : Option Node) (tokens : List Token)
    (heap : HeapCalls) : (pipelineLoop supply pipeline tokens heap).tokens <:+ tokens := by
  -- Each turn takes the bar and the command behind it.
  fun_induction pipelineLoop supply pipeline tokens heap with
  | case1 | case4 => exact List.suffix_rfl
  | case2 => exact (parseCommand_suffix ..).trans (List.suffix_cons ..)
  | case3 _ heap _ rest _ _ _ _ _ ih =>
    exact ih.trans ((parseCommand_suffix supply rest heap).trans (List.suffix_cons ..))

/-- A pipeline leaves a suffix of the tokens. -/
theorem parsePipeline_suffix (supply : Nat → Nat) (tokens : List Token) (heap : HeapCalls) :
    (parsePipeline supply tokens heap).tokens <:+ tokens := by
  -- No node, no first command, or the loop behind it.
  fun_cases parsePipeline supply tokens heap
  · exact List.suffix_rfl
  · exact parseCommand_suffix ..
  · exact (pipelineLoop_suffix ..).trans (parseCommand_suffix ..)

/-- Skipping a token leaves a suffix of the tokens. -/
theorem skipToken_suffix (type : TokenType) (tokens : List Token) :
    skipToken type tokens <:+ tokens := by
  -- A token of this type is taken, any other stays.
  fun_cases skipToken type tokens
  · exact List.suffix_rfl
  · exact List.suffix_cons ..
  · exact List.suffix_rfl

/-- An expression leaves a suffix of the tokens. -/
theorem parseExpression_suffix (supply : Nat → Nat) (tokens : List Token) (heap : HeapCalls) :
    (parseExpression supply tokens heap).tokens <:+ tokens := by
  -- The parentheses take one token each around what is inside them.
  fun_induction parseExpression supply tokens heap with
  | case1 => exact List.suffix_rfl
  | case2 _ _ _ _ _ _ _ ih =>
    exact (skipToken_suffix ..).trans (ih.trans (List.suffix_cons ..))
  | case3 => exact parsePipeline_suffix ..

/-- The node for two joined commands, with whatever of it there was memory for. -/
def joinNodes (supply : Nat → Nat) (type : NodeType) (seq next : Option Node) (heap : HeapCalls) :
    Option Node × HeapCalls :=
  let made := astCreateNode supply type heap
  let first := astAddChild supply made.1 seq made.2
  astAddChild supply first.1 next first.2

/-- The loop that joins the expressions of a list to the tree so far. -/
def sequenceLoop (supply : Nat → Nat) (seq : Option Node) (tokens : List Token)
    (heap : HeapCalls) : Parsed :=
  match tokens with
  | [] => ⟨seq, [], heap⟩
  | op :: rest =>
    if op.type.joinsCommands then
      let parsed := parseExpression supply rest heap
      match parsed.node with
      | none => ⟨seq, parsed.tokens, parsed.heap⟩
      | some next =>
        -- The tree so far becomes the left side of the operator, or the parent of what follows.
        let joined :=
          if op.type = .and then joinNodes supply .and seq (some next) parsed.heap
          else if op.type = .or then joinNodes supply .or seq (some next) parsed.heap
          else astAddChild supply seq (some next) parsed.heap
        sequenceLoop supply joined.1 parsed.tokens joined.2
    else ⟨seq, op :: rest, heap⟩
termination_by tokens.length
decreasing_by
  have shorter := (parseExpression_suffix supply rest heap).length_le
  simp only [List.length_cons]
  omega

/-- A list followed by an ampersand is marked as sent to the background. -/
def takeBackground (whole : Parsed) : Parsed :=
  match whole.tokens with
  | [] => whole
  | curr :: rest =>
    if curr.type = .background then
      ⟨whole.node.map fun seq => seq.setCmd { seq.cmd with background := true }, rest, whole.heap⟩
    else whole

/-- A list of expressions, which may be sent to the background. -/
def parseSequence (supply : Nat → Nat) (tokens : List Token) (heap : HeapCalls) : Parsed :=
  let made := astCreateNode supply .sequence heap
  match made.1 with
  | none => ⟨none, tokens, made.2⟩
  | some seq =>
    let parsed := parseExpression supply tokens made.2
    match parsed.node with
    | none => ⟨none, parsed.tokens, astFree seq parsed.heap⟩
    | some expr =>
      let added := astAddChild supply (some seq) (some expr) parsed.heap
      takeBackground (sequenceLoop supply added.1 parsed.tokens added.2)

/-- The tree of a list of tokens. -/
def parseTokens (supply : Nat → Nat) (tokens : List Token) (heap : HeapCalls) : Parsed :=
  parseSequence supply tokens heap

end MiraOS

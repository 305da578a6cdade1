import MiraOS.Ui.ParseRequests
import MiraOS.Ui.Tokenizer

/-! Which tokens end up in the tree: the parser takes arguments until a token it has no use for. -/

namespace MiraOS

open Machine

mutual

/-- The strings that a tree accounts for, in order: arguments and targets of redirections. -/
def Node.accounted : Node → List HeapString
  | .mk _ type _ children _ cmd =>
    (if type = .command then cmd.args ++ cmd.inputRedirect.toList ++ cmd.outputRedirect.toList
      else []) ++ accountedAll children

/-- The strings of several trees. -/
def accountedAll : List Node → List HeapString
  | [] => []
  | child :: rest => child.accounted ++ accountedAll rest

end

/-- Where a reader of a command line is: before an expression, inside a command, or after the
parenthesis that closed an expression. -/
inductive Spot where
  | expression | command | closed
  deriving DecidableEq, Repr

/-- The arguments that come before the first token that does not fit its place: an opening
parenthesis elsewhere than before an expression, a closing one without an open one, an argument or a
bar after a closing one, a redirection, an arithmetic operator or an ampersand.  An operator that joins
commands closes all parentheses. -/
def takenTokens : Spot → Nat → List Token → List Token
  | _, _, [] => []
  | spot, depth, token :: rest =>
    -- The loop over a list goes on here, whatever parentheses are open.
    if token.type.joinsCommands then takenTokens .expression 0 rest
    else if token.type = .rparen then
      if 0 < depth then takenTokens .closed (depth - 1) rest else []
    -- After a closing parenthesis only an operator that joins commands goes on.
    else if spot = .closed then []
    else if spot = .expression ∧ token.type = .lparen then takenTokens .expression (depth + 1) rest
    else if token.type.isArgument then token :: takenTokens .command depth rest
    else if token.type = .pipe then takenTokens .command depth rest
    else []

/-- The arguments of a command line. -/
def argumentsIn (tokens : List Token) : List Token := tokens.filter fun token => token.type.isArgument

/-- Nothing that is an argument comes after a token that does not fit its place. -/
def AllTaken (tokens : List Token) : Prop := takenTokens .expression 0 tokens = argumentsIn tokens

/-- The tokens taken are among the arguments, in order. -/
theorem takenTokens_sublist (spot : Spot) (depth : Nat) (tokens : List Token) :
    List.Sublist (takenTokens spot depth tokens) (argumentsIn tokens) := by
  -- Every token is skipped, ends the reading, or is an argument that is kept.
  unfold argumentsIn
  fun_induction takenTokens spot depth tokens with
  | case1 => exact List.Sublist.refl _
  | case2 _ _ _ _ _ ih | case3 _ _ _ _ _ _ _ ih | case6 _ _ _ _ _ _ _ _ ih
  | case8 _ _ _ _ _ _ _ _ _ _ ih =>
    exact ih.trans ((List.sublist_cons_self ..).filter _)
  | case4 | case5 | case9 => exact List.nil_sublist _
  | case7 _ _ _ _ _ _ _ _ argument ih =>
    have kept := @List.filter_cons_of_pos _ (fun token : Token => token.type.isArgument) _
      (by assumption) argument
    rw [kept]
    exact ih.cons_cons _

/-- At the end of a command only what may follow it matters. -/
theorem takenTokens_end {tokens : List Token} (depth : Nat)
    (ends : ∀ token ∈ tokens.head?, token.type.isArgument = false ∧ token.type ≠ .pipe) :
    takenTokens .command depth tokens = takenTokens .closed depth tokens := by
  -- Neither an argument nor a bar follows, which is all that sets the two places apart.
  cases tokens with
  | nil => rfl
  | cons token rest =>
    obtain ⟨plain, noPipe⟩ := ends token rfl
    simp [takenTokens, plain, noPipe]

/-- The tokens are at their end. -/
def AtEnd (tokens : List Token) : Prop := ∀ token ∈ tokens.head?, token.type = .eof

/-- Nothing is taken at the end. -/
theorem takenTokens_atEnd {tokens : List Token} (spot : Spot) (depth : Nat) (ends : AtEnd tokens) :
    takenTokens spot depth tokens = [] := by
  -- The end takes no part in any spot of the grammar.
  cases tokens with
  | nil => rfl
  | cons token rest => simp [takenTokens, ends token rfl, TokenType.joinsCommands, TokenType.isArgument]

/-- In a command the next arguments are taken. -/
theorem takenTokens_words (depth : Nat) (tokens : List Token) :
    takenTokens .command depth tokens =
      (tokens.takeWhile fun token => token.type.isArgument) ++
        takenTokens .command depth (tokens.dropWhile fun token => token.type.isArgument) := by
  -- The next token is an argument, which is taken, or the reading is where it was.
  induction tokens with
  | nil => rfl
  | cons token rest ih =>
    by_cases argument : token.type.isArgument = true
    · obtain ⟨-, single, -, -⟩ := isArgument_plain argument
      have plain : token.type ≠ .rparen := by
        intro type
        rw [type] at argument
        cases argument
      simp only [takenTokens, single, plain, argument, List.takeWhile_cons, List.dropWhile_cons,
        if_true, if_false, Bool.false_eq_true, List.cons_append]
      simp [← ih]
    · simp [argument]

/-- Before an expression that is not in parentheses the reader is in a command. -/
theorem takenTokens_plain {token : Token} (depth : Nat) (rest : List Token)
    (plain : token.type ≠ .lparen) :
    takenTokens .expression depth (token :: rest) = takenTokens .command depth (token :: rest) := by
  simp [takenTokens, plain]

/-- An opening parenthesis before an expression. -/
theorem takenTokens_open {token : Token} (depth : Nat) (rest : List Token)
    (type : token.type = .lparen) :
    takenTokens .expression depth (token :: rest) = takenTokens .expression (depth + 1) rest := by
  simp [takenTokens, type, TokenType.joinsCommands]

/-- A closing parenthesis is skipped after an expression, if it is there. -/
theorem takenTokens_skip (depth : Nat) (tokens : List Token) :
    takenTokens .closed (depth + 1) tokens = takenTokens .closed depth (skipToken .rparen tokens) := by
  -- Without the closing parenthesis nothing that could be skipped is there.
  cases tokens with
  | nil => rfl
  | cons token rest =>
    by_cases close : token.type = .rparen
    · simp [takenTokens, skipToken, close, TokenType.joinsCommands]
    · simp [takenTokens, skipToken, close]

/-- The strings of the trees of two lists. -/
theorem accountedAll_append (front back : List Node) :
    accountedAll (front ++ back) = accountedAll front ++ accountedAll back := by
  -- Induction on the front.
  induction front with
  | nil => rfl
  | cons child rest ih => rw [List.cons_append, accountedAll, accountedAll, ih, List.append_assoc]

/-- Sending a list to the background keeps its strings. -/
theorem takeBackground_accounted {whole : Parsed} {node : Node} (found : whole.node = some node) :
    ∃ marked, (takeBackground whole).node = some marked ∧ marked.accounted = node.accounted := by
  -- Only the mark of the command data changes.
  obtain ⟨address, type, array, children, value, cmd⟩ := node
  fun_cases takeBackground whole with
  | case1 | case3 => exact ⟨_, found, rfl⟩
  | case2 =>
    rw [found]
    refine ⟨_, rfl, ?_⟩
    simp only [Node.setCmd, Node.cmd, Node.accounted]

section

variable {supply : Nat → Nat} (memory : ∀ n, supply n ≠ 0)

include memory

/-- With memory a child is appended to the array of children. -/
theorem astAddChild_memory (address : Nat) (type : NodeType) (array : Nat) (children : List Node)
    (value : Nat) (cmd : CommandData) (child : Node) (heap : HeapCalls) :
    astAddChild supply (some (.mk address type array children value cmd)) (some child) heap =
      (some (.mk address type (supply heap.requests) (children ++ [child]) value cmd),
        ⟨heap.requests + 1, heap.freed ++ [array]⟩) :=
  if_neg (memory heap.requests)

/-- With memory a child adds its own strings at the end. -/
theorem astAddChild_accounted (parent child : Node) (heap : HeapCalls) :
    ∃ node, (astAddChild supply (some parent) (some child) heap).1 = some node ∧
      node.accounted = parent.accounted ++ child.accounted := by
  -- The child stands last among the children.
  obtain ⟨address, type, array, children, value, cmd⟩ := parent
  rw [astAddChild_memory memory]
  refine ⟨_, rfl, ?_⟩
  simp only [Node.accounted, accountedAll_append, accountedAll, List.append_nil, List.append_assoc]

/-- With memory two joined trees keep their strings. -/
theorem joinNodes_accounted (type : NodeType) (other : type ≠ .command) (seq next : Node)
    (heap : HeapCalls) :
    ∃ node, (joinNodes supply type (some seq) (some next) heap).1 = some node ∧
      node.accounted = seq.accounted ++ next.accounted := by
  -- The new node has no strings of its own.
  simp only [joinNodes, astCreateNode_granted type (memory heap.requests)]
  rw [astAddChild_memory memory, astAddChild_memory memory]
  refine ⟨_, rfl, ?_⟩
  simp [Node.accounted, accountedAll, other]

/-- With memory the argument loop takes the arguments up to the first other token. -/
theorem commandLoop_memory (tokens : List Token) (argCap : Nat) (cmd : CommandData)
    (heap : HeapCalls) :
    let taken := commandLoop supply tokens argCap cmd heap
    taken.cmd.args = cmd.args ++
        (tokens.takeWhile fun token => token.type.isArgument).map (fun token => token.value) ∧
      taken.cmd.inputRedirect = cmd.inputRedirect ∧
      taken.cmd.outputRedirect = cmd.outputRedirect ∧
      taken.tokens = tokens.dropWhile fun token => token.type.isArgument := by
  -- With memory a full array grows, so no argument stops the loop.
  induction tokens generalizing argCap cmd heap with
  | nil => simp [commandLoop]
  | cons curr rest ih =>
    by_cases argument : curr.type.isArgument = true
    · have values : cmd.args ++ ((curr :: rest).takeWhile fun token => token.type.isArgument).map
          (fun token => token.value) = cmd.args ++ [curr.value] ++
          (rest.takeWhile fun token => token.type.isArgument).map (fun token => token.value) := by
        simp [argument]
      have left : ((curr :: rest).dropWhile fun token => token.type.isArgument) =
          rest.dropWhile fun token => token.type.isArgument := by
        simp [argument]
      rw [values, left]
      by_cases full : argCap ≤ cmd.args.length
      · rw [commandLoop_grow argument full (memory heap.requests)]
        exact ih ..
      · rw [commandLoop_store argument full]
        exact ih ..
    · rw [commandLoop_other (by simpa using argument)]
      simp [argument]

/-- With memory a command is parsed unless the tokens are at their end. -/
theorem parseCommand_memory {tokens : List Token} (heap : HeapCalls) (more : ¬ AtEnd tokens) :
    ∃ node, (parseCommand supply tokens heap).node = some node ∧
      node.accounted =
        (tokens.takeWhile fun token => token.type.isArgument).map (fun token => token.value) ∧
      (parseCommand supply tokens heap).tokens =
        tokens.dropWhile fun token => token.type.isArgument := by
  -- The loop starts at the first token, which is not the end.
  cases tokens with
  | nil => exact absurd (fun token found => by simp at found) more
  | cons curr rest =>
    have plain : curr.type ≠ .eof := fun type => more (fun token found => by
      obtain rfl : curr = token := by simpa using found
      exact type)
    -- The command has no redirections, so its strings are its arguments.
    rw [parseCommand_granted plain (memory _) (memory _)]
    obtain ⟨args, input, output, left⟩ := commandLoop_memory memory (curr :: rest) 8
      { argsAddress := supply (heap.requests + 1) } ⟨heap.requests + 2, heap.freed⟩
    refine ⟨_, rfl, ?_, left⟩
    simp only [Node.accounted, accountedAll, args, input, output]
    simp

omit memory in
/-- At the end of the tokens there is no command. -/
theorem parseCommand_atEnd {tokens : List Token} (heap : HeapCalls) (ends : AtEnd tokens) :
    parseCommand supply tokens heap = ⟨none, tokens, heap⟩ := by
  -- No command starts at the end.
  cases tokens with
  | nil => rfl
  | cons curr rest => exact if_pos (ends curr rfl)

omit memory in
/-- The first token after the arguments is not an argument. -/
theorem dropWhile_head (tokens : List Token) :
    ∀ token ∈ (tokens.dropWhile fun token => token.type.isArgument).head?,
      token.type.isArgument = false := by
  intro token found
  -- The dropping stops at the first token that is no argument.
  have last := List.head?_dropWhile_not (fun token : Token => token.type.isArgument) tokens
  rw [Option.mem_def.mp found] at last
  exact last

/-- With memory the loop of a pipeline takes the arguments up to its end. -/
theorem pipelineLoop_memory {tokens : List Token} {heap : HeapCalls} (pipeline : Node)
    (head : ∀ token ∈ tokens.head?, token.type.isArgument = false) :
    ∃ node taken, (pipelineLoop supply (some pipeline) tokens heap).node = some node ∧
      node.accounted = pipeline.accounted ++ taken.map (fun token => token.value) ∧
      ∀ depth, takenTokens .command depth tokens =
        taken ++ takenTokens .closed depth
          (pipelineLoop supply (some pipeline) tokens heap).tokens := by
  -- Each turn takes the arguments of one command; between two commands stands a bar.
  generalize begun : some pipeline = start
  fun_induction pipelineLoop supply start tokens heap generalizing pipeline with
  | case1 =>
    subst begun
    exact ⟨pipeline, [], rfl, by simp, fun depth => rfl⟩
  | case2 _ heap bar rest bars parsed missing =>
    subst begun
    -- After the bar a command is missing only at the end of the tokens.
    have ends : AtEnd rest := by
      by_contra more
      obtain ⟨node, found, -⟩ := parseCommand_memory memory heap more
      rw [found] at missing
      cases missing
    refine ⟨pipeline, [], rfl, by simp, fun depth => ?_⟩
    have step : takenTokens .command depth (bar :: rest) = takenTokens .command depth rest := by
      simp [takenTokens, bars, TokenType.joinsCommands, TokenType.isArgument]
    have left : parsed.tokens = rest := by
      show (parseCommand supply rest heap).tokens = rest
      rw [parseCommand_atEnd heap ends]
    rw [step, left, takenTokens_atEnd _ _ ends, takenTokens_atEnd _ _ ends, List.nil_append]
  | case3 _ heap bar rest bars parsed cmd some added ih =>
    subst begun
    -- With a command behind the bar the loop takes its arguments and goes on.
    have more : ¬ AtEnd rest := by
      intro ends
      have missing : parsed.node = none := by
        show (parseCommand supply rest heap).node = none
        rw [parseCommand_atEnd heap ends]
      rw [missing] at some
      cases some
    obtain ⟨command, found, accounted, left⟩ := parseCommand_memory memory heap more
    obtain rfl : command = cmd := Option.some.inj (found.symm.trans some)
    obtain ⟨grown, addedNode, grownAccounted⟩ :=
      astAddChild_accounted memory pipeline command parsed.heap
    -- The tokens behind the arguments do not start with one.
    have starts : ∀ token ∈ parsed.tokens.head?, token.type.isArgument = false := by
      show ∀ token ∈ (parseCommand supply rest heap).tokens.head?, _
      rw [left]
      exact dropWhile_head rest
    obtain ⟨node, taken, result, nodeAccounted, later⟩ := ih grown starts addedNode.symm
    refine ⟨node, (rest.takeWhile fun token => token.type.isArgument) ++ taken, result, ?_,
      fun depth => ?_⟩
    · rw [nodeAccounted, grownAccounted, accounted, List.map_append, List.append_assoc]
    · have step : takenTokens .command depth (bar :: rest) = takenTokens .command depth rest := by
        simp [takenTokens, bars, TokenType.joinsCommands, TokenType.isArgument]
      have next : takenTokens .command depth (rest.dropWhile fun token => token.type.isArgument) =
          takenTokens .command depth parsed.tokens := by rw [← left]
      rw [step, takenTokens_words, next, later, List.append_assoc]
  | case4 _ _ bar rest noBar =>
    subst begun
    refine ⟨pipeline, [], rfl, by simp, fun depth => ?_⟩
    rw [takenTokens_end depth (fun token found => ⟨head token found, ?_⟩), List.nil_append]
    obtain rfl : bar = token := by simpa using found
    exact noBar

/-- With memory a pipeline takes the arguments up to its end. -/
theorem parsePipeline_memory {tokens : List Token} (heap : HeapCalls) (more : ¬ AtEnd tokens) :
    ∃ node taken, (parsePipeline supply tokens heap).node = some node ∧
      node.accounted = taken.map (fun token => token.value) ∧
      ∀ depth, takenTokens .command depth tokens =
        taken ++ takenTokens .closed depth (parsePipeline supply tokens heap).tokens := by
  -- The first command is parsed before the loop over the bars.
  obtain ⟨command, found, accounted, left⟩ := parseCommand_memory memory
    ⟨heap.requests + 1, heap.freed⟩ more
  rw [parsePipeline]
  simp only [astCreateNode_granted .pipeline (memory heap.requests), found, left]
  rw [astAddChild_memory memory]
  obtain ⟨node, taken, result, nodeAccounted, later⟩ := @pipelineLoop_memory supply memory _
    ⟨(parseCommand supply tokens ⟨heap.requests + 1, heap.freed⟩).heap.requests + 1,
      (parseCommand supply tokens ⟨heap.requests + 1, heap.freed⟩).heap.freed ++ [0]⟩
    (.mk (supply heap.requests) .pipeline
      (supply (parseCommand supply tokens ⟨heap.requests + 1, heap.freed⟩).heap.requests)
      ([] ++ [command]) 0 {})
    (dropWhile_head tokens)
  refine ⟨node, (tokens.takeWhile fun token => token.type.isArgument) ++ taken, result, ?_,
    fun depth => ?_⟩
  · rw [nodeAccounted, List.map_append, ← accounted]
    simp [Node.accounted, accountedAll]
  · rw [takenTokens_words, later, List.append_assoc]

omit memory in
/-- At the end of the tokens there is no pipeline. -/
theorem parsePipeline_atEnd {tokens : List Token} (heap : HeapCalls) (ends : AtEnd tokens) :
    (parsePipeline supply tokens heap).node = none ∧
      (parsePipeline supply tokens heap).tokens = tokens := by
  unfold parsePipeline
  -- With or without memory for the pipeline, no command starts at the end.
  by_cases create : supply heap.requests = 0
  · simp only [astCreateNode_denied .pipeline create]
    exact ⟨trivial, trivial⟩
  · simp only [astCreateNode_granted .pipeline create, parseCommand_atEnd _ ends]
    exact ⟨trivial, trivial⟩

/-- With memory an expression takes the arguments up to its end. -/
theorem parseExpression_memory (tokens : List Token) (heap : HeapCalls) :
    ∃ taken, (∀ depth, takenTokens .expression depth tokens =
        taken ++ takenTokens .closed depth (parseExpression supply tokens heap).tokens) ∧
      match (parseExpression supply tokens heap).node with
      | none => taken = [] ∧ AtEnd tokens
      | some node => node.accounted = taken.map (fun token => token.value) ∧ ¬ AtEnd tokens := by
  -- A parenthesis opens one level for the reader and one for the recursion.
  fun_induction parseExpression supply tokens heap with
  | case1 => exact ⟨[], fun depth => rfl, rfl, fun token found => by simp at found⟩
  | case2 curr rest heap opens made inner added ih =>
    obtain ⟨taken, later, result⟩ := ih
    have more : ¬ AtEnd (curr :: rest) := by
      intro ends
      have type := ends curr rfl
      rw [opens] at type
      cases type
    have subshell : made.1 = some (.mk (supply heap.requests) .subshell 0 [] 0 {}) :=
      congrArg Prod.fst (astCreateNode_granted .subshell (memory heap.requests))
    refine ⟨taken, fun depth => ?_, ?_⟩
    · rw [takenTokens_open depth rest opens, later, takenTokens_skip]
    · -- The inner expression, if there is one, is the only child of the subshell.
      cases found : inner.node with
      | none =>
        have same : added.1 = made.1 := by simp only [added, found]; rfl
        rw [found] at result
        rw [same, subshell, result.1]
        exact ⟨rfl, more⟩
      | some expr =>
        rw [found] at result
        obtain ⟨grown, addedNode, accounted⟩ := astAddChild_accounted memory
          (.mk (supply heap.requests) .subshell 0 [] 0 {}) expr inner.heap
        have grew : added.1 = some grown := by
          simp only [added, found, subshell]
          exact addedNode
        rw [grew]
        refine ⟨?_, more⟩
        rw [accounted, result.1]
        rfl
  | case3 curr rest heap plain =>
    have spot := fun depth => takenTokens_plain depth rest plain
    by_cases ends : AtEnd (curr :: rest)
    · obtain ⟨missing, left⟩ := @parsePipeline_atEnd supply _ heap ends
      refine ⟨[], fun depth => ?_, ?_⟩
      · rw [left, takenTokens_atEnd _ _ ends, takenTokens_atEnd _ _ ends, List.nil_append]
      · rw [missing]
        exact ⟨rfl, ends⟩
    · obtain ⟨node, taken, found, accounted, later⟩ := parsePipeline_memory memory heap ends
      refine ⟨taken, fun depth => (spot depth).trans (later depth), ?_⟩
      rw [found]
      exact ⟨accounted, ends⟩

/-- With memory the loop over a list takes the arguments up to its end. -/
theorem sequenceLoop_memory {tokens : List Token} {heap : HeapCalls} (seq : Node) :
    ∃ node, (sequenceLoop supply (some seq) tokens heap).node = some node ∧
      node.accounted = seq.accounted ++
        (takenTokens .closed 0 tokens).map (fun token => token.value) := by
  -- Each turn reads one operator and one expression, with all parentheses closed.
  generalize begun : some seq = start
  fun_induction sequenceLoop supply start tokens heap generalizing seq with
  | case1 =>
    subst begun
    exact ⟨seq, rfl, by simp [takenTokens]⟩
  | case2 _ heap op rest joins parsed missing =>
    subst begun
    obtain ⟨taken, -, result⟩ := parseExpression_memory memory rest heap
    have result : match parsed.node with
      | none => taken = [] ∧ AtEnd rest
      | some node => node.accounted = taken.map (fun token => token.value) ∧ ¬ AtEnd rest := result
    rw [missing] at result
    refine ⟨seq, rfl, ?_⟩
    simp only [takenTokens, joins, if_true, takenTokens_atEnd _ _ result.2, List.map_nil,
      List.append_nil]
  | case3 _ heap op rest joins parsed next made joined ih =>
    subst begun
    obtain ⟨taken, later, result⟩ := parseExpression_memory memory rest heap
    have result : match parsed.node with
      | none => taken = [] ∧ AtEnd rest
      | some node => node.accounted = taken.map (fun token => token.value) ∧ ¬ AtEnd rest := result
    rw [made] at result
    have grown : ∃ node, joined.1 = some node ∧
        node.accounted = seq.accounted ++ next.accounted := by
      simp only [joined]
      split_ifs
      · exact joinNodes_accounted memory .and (by decide) ..
      · exact joinNodes_accounted memory .or (by decide) ..
      · exact astAddChild_accounted memory ..
    obtain ⟨tree, joinedNode, treeAccounted⟩ := grown
    obtain ⟨node, found, accounted⟩ := ih tree joinedNode.symm
    refine ⟨node, found, ?_⟩
    rw [accounted, treeAccounted, result.1, List.append_assoc, ← List.map_append]
    -- The first tokens are those of the next expression, the others those of the rest.
    have split : takenTokens .closed 0 (op :: rest) = taken ++ takenTokens .closed 0 parsed.tokens := by
      rw [← later 0]
      simp only [takenTokens, joins, if_true]
    rw [split]
  | case4 _ _ op rest alone =>
    subst begun
    refine ⟨seq, rfl, ?_⟩
    simp [takenTokens, alone]

/-- With memory the tree of a command line accounts for the tokens taken, and only of an empty
command line there is no tree. -/
theorem parseTokens_memory (tokens : List Token) (heap : HeapCalls) :
    match (parseTokens supply tokens heap).node with
    | none => AtEnd tokens
    | some node => ¬ AtEnd tokens ∧ node.accounted =
        (takenTokens .expression 0 tokens).map (fun token => token.value) := by
  -- The first expression is parsed before the loop over the operators.
  obtain ⟨taken, later, result⟩ := parseExpression_memory memory tokens
    ⟨heap.requests + 1, heap.freed⟩
  rw [parseTokens, parseSequence]
  simp only [astCreateNode_granted .sequence (memory heap.requests)]
  cases found : (parseExpression supply tokens ⟨heap.requests + 1, heap.freed⟩).node with
  | none =>
    rw [found] at result
    exact result.2
  | some expr =>
    rw [found] at result
    simp only
    rw [astAddChild_memory memory]
    obtain ⟨node, whole, accounted⟩ := @sequenceLoop_memory supply memory
      (parseExpression supply tokens ⟨heap.requests + 1, heap.freed⟩).tokens
      ⟨(parseExpression supply tokens ⟨heap.requests + 1, heap.freed⟩).heap.requests + 1,
        (parseExpression supply tokens ⟨heap.requests + 1, heap.freed⟩).heap.freed ++ [0]⟩
      (.mk (supply heap.requests) .sequence
        (supply (parseExpression supply tokens ⟨heap.requests + 1, heap.freed⟩).heap.requests)
        ([] ++ [expr]) 0 {})
    obtain ⟨marked, background, same⟩ := takeBackground_accounted whole
    rw [background]
    refine ⟨result.2, ?_⟩
    rw [same, accounted, later 0, List.map_append, ← result.1]
    simp [Node.accounted, accountedAll]

end

/-- The fixed tokens are never the end. -/
theorem lexOperator_type {c : UInt8} {rest : List UInt8} {lexeme : Lexeme}
    (found : lexOperator c rest = some lexeme) : lexeme.type ≠ .eof := by
  revert found
  -- Every operator has a type of its own, none of them the end.
  fun_cases lexOperator c rest
  all_goals
    intro found
    cases found
  all_goals simp

/-- A token of the input is never the end. -/
theorem lexToken_type {c : UInt8} {rest : List UInt8} {lexeme : Lexeme}
    (ran : lexToken c rest = .ok lexeme) : lexeme.type ≠ .eof := by
  -- Only the call after the loop makes the end token.
  revert ran
  fun_cases lexToken c rest with
  | case1 lexeme found =>
    intro ran
    cases ran
    exact lexOperator_type found
  | case2 | case3 =>
    intro ran
    cases ran
    simp
  | case4 | case5 | case6 =>
    intro ran
    obtain ⟨taken, -, same⟩ := bind_eq_ok.mp ran
    cases same
    simp
  | case7 =>
    intro ran
    cases ran
    fun_cases lexArithmetic c rest <;> simp

/-- The loop of the tokenizer adds tokens that are not the end. -/
theorem tokenizeLoop_body {supply : Nat → Nat} {input : List UInt8} {tokens result : List Token}
    {heap after : HeapCalls} (ran : tokenizeLoop supply input tokens heap = .ok (result, after)) :
    ∃ body, result = tokens ++ body ∧ ∀ token ∈ body, token.type ≠ .eof := by
  -- Each turn adds one token or none.
  fun_induction tokenizeLoop supply input tokens heap with
  | case1 =>
    cases ran
    exact ⟨[], by simp, by simp⟩
  | case2 _ _ _ _ _ ih => exact ih ran
  | case3 => cases ran
  | case4 tokens heap c rest _ lexeme lexed made ih =>
    obtain ⟨body, rfl, plain⟩ := ih ran
    refine ⟨made.1.toList ++ body, by rw [List.append_assoc], fun token among => ?_⟩
    rcases List.mem_append.mp among with first | later
    · have token_eq := tokenizerCreateToken_eq (Option.mem_toList.mp first)
      rw [token_eq]
      exact lexToken_type lexed
    · exact plain token later

/-- Only the last token is the end. -/
theorem tokenize_body {supply : Nat → Nat} {input : List UInt8} {tokens : List Token}
    {heap after : HeapCalls} (ran : tokenize supply input heap = .ok (tokens, after)) :
    ∃ body eof, tokens = body ++ Option.toList eof ∧ (∀ token ∈ body, token.type ≠ .eof) ∧
      ∀ token ∈ eof, token.type = .eof := by
  obtain ⟨⟨found, middle⟩, looped, same⟩ := bind_eq_ok.mp ran
  cases same
  -- The loop makes the body, and one token for the end is put behind it if memory allows.
  obtain ⟨body, begun, plain⟩ := tokenizeLoop_body looped
  obtain rfl : found = body := begun
  refine ⟨found, (tokenizerCreateToken supply .eof [] middle).1, rfl, plain, fun token made => ?_⟩
  rw [tokenizerCreateToken_eq made]

/-- A text of which the first token is the end has no arguments. -/
theorem tokenize_atEnd {supply : Nat → Nat} {input : List UInt8} {tokens : List Token}
    {heap after : HeapCalls} (ran : tokenize supply input heap = .ok (tokens, after))
    (ends : AtEnd tokens) : argumentsIn tokens = [] := by
  -- The first token is the end only when the loop made none.
  obtain ⟨body, eof, rfl, plain, last⟩ := tokenize_body ran
  cases body with
  | cons first rest => exact absurd (ends first rfl) (plain first List.mem_cons_self)
  | nil =>
    cases eof with
    | none => rfl
    | some token => simp [argumentsIn, last token rfl, TokenType.isArgument]

/-- There is no tree, or the tree accounts for every argument among the tokens, in order. -/
def Accounts (parsed : Parsed) (tokens : List Token) : Prop :=
  match parsed.node with
  | none => True
  | some node => node.accounted = (argumentsIn tokens).map fun token => token.value

/-- An allocator that answers a number of requests, and refuses all others. -/
def shortSupply (n : Nat) : Nat := if n < 64 then n + 1 else 0

end MiraOS

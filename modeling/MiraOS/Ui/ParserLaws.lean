import MiraOS.Ui.Parser
import Mathlib.Tactic.Common

/-! No parsing function puts more arguments into a tree than it takes from the tokens. -/

namespace MiraOS

/-- How many of the tokens are arguments. -/
def argumentTokens (tokens : List Token) : Nat := tokens.countP fun token => token.type.isArgument

/-- How many arguments the loop over a list may still take: those after a joining token. -/
def joinableTokens : List Token → Nat
  | [] => 0
  | op :: rest => if op.type.joinsCommands then argumentTokens rest else 0

mutual

/-- How many arguments belong to commands that a walk of the tree can come to. -/
def Node.reach : Node → Nat
  | .mk _ type _ children _ cmd =>
    match type with
    | .command => cmd.args.length
    | .sequence | .pipeline => reachAll children
    -- The walk looks at two children of a conditional and at one of a subshell.
    | .and | .or =>
      match children with
      | [] => 0
      | [first] => first.reach
      | first :: second :: _ => first.reach + second.reach
    | .subshell =>
      match children with
      | [] => 0
      | first :: _ => first.reach
    | _ => 0

/-- The arguments of several trees. -/
def reachAll : List Node → Nat
  | [] => 0
  | child :: rest => child.reach + reachAll rest

end

/-- The arguments of a tree that may be missing. -/
def reachOf : Option Node → Nat
  | none => 0
  | some node => node.reach

/-- The arguments of the trees of two lists. -/
theorem reachAll_append (front back : List Node) :
    reachAll (front ++ back) = reachAll front + reachAll back := by
  -- Induction on the front.
  induction front with
  | nil => simp [reachAll]
  | cons child rest ih => simp only [List.cons_append, reachAll, ih, Nat.add_assoc]

/-- One more child adds at most its own arguments. -/
theorem reach_snoc (address : Nat) (type : NodeType) (oldArray newArray : Nat)
    (children : List Node) (value : Nat) (cmd : CommandData) (child : Node) :
    (Node.mk address type newArray (children ++ [child]) value cmd).reach ≤
      (Node.mk address type oldArray children value cmd).reach + child.reach := by
  -- The kind of the node says which of its children the walk looks at.
  cases type with
  | sequence | pipeline => simp only [Node.reach, reachAll_append, reachAll]; omega
  | and | or =>
    -- From the third child on nothing is added.
    rcases children with _ | ⟨first, _ | ⟨second, rest⟩⟩
    · simp [Node.reach]
    · simp [Node.reach]
    · simp [Node.reach]
  | subshell => cases children <;> simp [Node.reach]
  | _ => simp [Node.reach]

/-- Adding a child adds at most its own arguments. -/
theorem astAddChild_reach (supply : Nat → Nat) (parent child : Option Node) (heap : HeapCalls) :
    reachOf (astAddChild supply parent child heap).1 ≤ reachOf parent + reachOf child := by
  -- Without memory, or without a child, the parent stays as it was.
  fun_cases astAddChild supply parent child heap with
  | case1 => exact Nat.le_add_right ..
  | case2 => exact reach_snoc ..
  | case3 => exact Nat.le_add_right ..

/-- A new node has no arguments. -/
theorem astCreateNode_reach (supply : Nat → Nat) (type : NodeType) (heap : HeapCalls) :
    reachOf (astCreateNode supply type heap).1 = 0 := by
  -- A new node has no children and no arguments yet.
  fun_cases astCreateNode supply type heap with
  | case1 => rfl
  | case2 => cases type <;> rfl

/-- Joining two trees keeps at most their arguments. -/
theorem joinNodes_reach (supply : Nat → Nat) (type : NodeType) (seq next : Option Node)
    (heap : HeapCalls) :
    reachOf (joinNodes supply type seq next heap).1 ≤ reachOf seq + reachOf next := by
  -- The new node is empty, and each of the two calls adds one tree at most.
  unfold joinNodes
  have made := astCreateNode_reach supply type heap
  have first := astAddChild_reach supply (astCreateNode supply type heap).1 seq
    (astCreateNode supply type heap).2
  exact Nat.le_trans (astAddChild_reach ..) (by omega)

/-- The tokens in front of a suffix only add arguments. -/
theorem argumentTokens_cons (token : Token) (rest : List Token) :
    argumentTokens (token :: rest) =
      argumentTokens rest + if token.type.isArgument then 1 else 0 :=
  List.countP_cons ..

/-- The arguments of a suffix are among those of the whole. -/
theorem argumentTokens_suffix {tokens whole : List Token} (suffix : tokens <:+ whole) :
    argumentTokens tokens ≤ argumentTokens whole :=
  List.Sublist.countP_le suffix.sublist

/-- The loop over a list takes at most the arguments that are there. -/
theorem joinableTokens_le (tokens : List Token) : joinableTokens tokens ≤ argumentTokens tokens := by
  -- The joining token itself is no argument.
  fun_cases joinableTokens tokens with
  | case1 => exact Nat.le_refl _
  | case2 op rest => rw [argumentTokens_cons]; omega
  | case3 => exact Nat.zero_le _

/-- The argument loop takes an argument for each one it stores. -/
theorem commandLoop_reach (supply : Nat → Nat) (tokens : List Token) (argCap : Nat)
    (cmd : CommandData) (heap : HeapCalls) :
    (commandLoop supply tokens argCap cmd heap).cmd.args.length +
        argumentTokens (commandLoop supply tokens argCap cmd heap).tokens ≤
      cmd.args.length + argumentTokens tokens := by
  -- Each argument that is stored was taken off the tokens.
  fun_induction commandLoop supply tokens argCap cmd heap with
  | case1 | case2 | case3 | case15 => exact Nat.le_refl _
  | case4 curr rest _ _ _ _ argument _ _ _ ih | case5 curr rest _ _ _ _ argument _ ih =>
    simp only [List.length_append, List.length_singleton] at ih
    rw [argumentTokens_cons, if_pos argument]
    omega
  -- The branches for redirections drop tokens and store none.
  | case6 _ _ _ _ _ _ _ _ _ _ ih | case9 _ _ _ _ _ _ _ _ _ _ _ ih
  | case12 _ _ _ _ _ _ _ _ _ _ _ _ ih =>
    exact Nat.le_trans ih (Nat.add_le_add_left (argumentTokens_suffix
      ((List.suffix_cons ..).trans (List.suffix_cons ..))) _)
  | case7 _ _ _ _ _ _ _ _ _ _ ih | case10 _ _ _ _ _ _ _ _ _ _ _ ih
  | case13 _ _ _ _ _ _ _ _ _ _ _ _ ih =>
    exact Nat.le_trans ih (Nat.add_le_add_left (argumentTokens_suffix (List.suffix_cons ..)) _)
  | case8 | case11 | case14 =>
    exact Nat.add_le_add_left (argumentTokens_suffix List.nil_suffix) _

/-- A command node keeps the arguments it is given. -/
theorem setCmd_reach {node : Node} (command : node.type = .command) (cmd : CommandData) :
    (node.setCmd cmd).reach = cmd.args.length := by
  obtain ⟨address, type, childrenAddress, children, value, old⟩ := node
  cases command
  rfl

/-- A node that was created has the kind asked for and nothing else. -/
theorem astCreateNode_eq {supply : Nat → Nat} {type : NodeType} {heap : HeapCalls} {node : Node}
    (made : (astCreateNode supply type heap).1 = some node) :
    node = .mk (supply heap.requests) type 0 [] 0 {} := by
  unfold astCreateNode HeapCalls.kmalloc at made
  -- A null answer makes no node.
  by_cases null : supply heap.requests = 0
  · simp [null] at made
  · simpa [null] using made.symm

/-- A simple command has at most the arguments it took. -/
theorem parseCommand_reach (supply : Nat → Nat) (tokens : List Token) (heap : HeapCalls) :
    reachOf (parseCommand supply tokens heap).node +
      argumentTokens (parseCommand supply tokens heap).tokens ≤ argumentTokens tokens := by
  fun_cases parseCommand supply tokens heap with
  | case1 | case2 | case3 | case4 => exact Nat.le_of_eq (Nat.zero_add _)
  | case5 curr rest _ made cmd created args _ =>
    have fresh := astCreateNode_eq created
    have none : cmd.cmd.args.length = 0 := by rw [fresh]; rfl
    have command : cmd.type = .command := by rw [fresh]; rfl
    -- The new node starts without arguments, so the loop accounts for all of them.
    have start : cmd.cmd.args.length + argumentTokens (curr :: rest) ≤ argumentTokens (curr :: rest) := by
      omega
    simp only [reachOf, setCmd_reach command]
    exact Nat.le_trans (commandLoop_reach ..) start

/-- The loop of a pipeline adds at most the arguments it took. -/
theorem pipelineLoop_reach (supply : Nat → Nat) (pipeline : Option Node) (tokens : List Token)
    (heap : HeapCalls) :
    reachOf (pipelineLoop supply pipeline tokens heap).node +
        argumentTokens (pipelineLoop supply pipeline tokens heap).tokens ≤
      reachOf pipeline + argumentTokens tokens := by
  -- Each turn adds the arguments of one command, all taken behind the bar.
  fun_induction pipelineLoop supply pipeline tokens heap with
  | case1 | case4 => exact Nat.le_refl _
  | case2 pipeline heap bar rest _ parsed none =>
    have bound : argumentTokens parsed.tokens ≤ argumentTokens (bar :: rest) :=
      argumentTokens_suffix ((parseCommand_suffix supply rest heap).trans (List.suffix_cons ..))
    exact Nat.add_le_add_left bound _
  | case3 pipeline heap bar rest _ parsed cmd some added ih =>
    -- What the command has and what it left were all behind the bar.
    have bound : reachOf parsed.node + argumentTokens parsed.tokens ≤ argumentTokens rest :=
      parseCommand_reach ..
    have longer := argumentTokens_suffix (List.suffix_cons bar rest)
    have grown : reachOf added.1 ≤ reachOf pipeline + reachOf (Option.some cmd) :=
      astAddChild_reach ..
    rw [some] at bound
    omega

/-- A pipeline has at most the arguments it took. -/
theorem parsePipeline_reach (supply : Nat → Nat) (tokens : List Token) (heap : HeapCalls) :
    reachOf (parsePipeline supply tokens heap).node +
      argumentTokens (parsePipeline supply tokens heap).tokens ≤ argumentTokens tokens := by
  -- By the ways through the parser: no node, no first command, or a first command and the loop behind it.
  fun_cases parsePipeline supply tokens heap with
  | case1 => exact Nat.le_of_eq (Nat.zero_add _)
  | case2 made pipeline created parsed none =>
    have bound := argumentTokens_suffix (parseCommand_suffix supply tokens made.2)
    exact Nat.le_trans (Nat.le_of_eq (Nat.zero_add _)) bound
  | case3 made pipeline created parsed cmd some added =>
    -- The new pipeline is empty, so what it reaches is what the command brought plus what the loop adds.
    have empty : reachOf made.1 = 0 := astCreateNode_reach ..
    have bound : reachOf parsed.node + argumentTokens parsed.tokens ≤ argumentTokens tokens :=
      parseCommand_reach ..
    have grown : reachOf added.1 ≤ reachOf (Option.some pipeline) + reachOf (Option.some cmd) :=
      astAddChild_reach ..
    have loop := pipelineLoop_reach supply added.1 parsed.tokens added.2
    rw [created] at empty
    rw [some] at bound
    omega

/-- An expression has at most the arguments it took. -/
theorem parseExpression_reach (supply : Nat → Nat) (tokens : List Token) (heap : HeapCalls) :
    reachOf (parseExpression supply tokens heap).node +
      argumentTokens (parseExpression supply tokens heap).tokens ≤ argumentTokens tokens := by
  -- The parentheses themselves are no arguments.
  fun_induction parseExpression supply tokens heap with
  | case1 => exact Nat.le_of_eq (Nat.zero_add _)
  | case2 curr rest heap _ made inner added ih =>
    have empty : reachOf made.1 = 0 := astCreateNode_reach ..
    have bound : reachOf inner.node + argumentTokens inner.tokens ≤ argumentTokens rest := ih
    have left := argumentTokens_suffix (skipToken_suffix .rparen inner.tokens)
    have longer := argumentTokens_suffix (List.suffix_cons curr rest)
    have grown : reachOf added.1 ≤ reachOf made.1 + reachOf inner.node := by
      by_cases some : inner.node.isSome
      · simp only [added, if_pos some]
        exact astAddChild_reach ..
      · simp only [added, if_neg some]
        exact Nat.le_add_right ..
    show reachOf added.1 + argumentTokens (skipToken .rparen inner.tokens) ≤ _
    omega
  | case3 => exact parsePipeline_reach ..

/-- The loop over a list adds at most the arguments after the joining tokens. -/
theorem sequenceLoop_reach (supply : Nat → Nat) (seq : Option Node) (tokens : List Token)
    (heap : HeapCalls) :
    reachOf (sequenceLoop supply seq tokens heap).node ≤ reachOf seq + joinableTokens tokens := by
  -- After the joining token everything is still to be taken; behind the expression, its rest.
  fun_induction sequenceLoop supply seq tokens heap with
  | case1 | case4 => exact Nat.le_add_right ..
  | case2 => exact Nat.le_add_right ..
  | case3 seq heap op rest joins parsed next some joined ih =>
    have bound : reachOf parsed.node + argumentTokens parsed.tokens ≤ argumentTokens rest :=
      parseExpression_reach ..
    have later := joinableTokens_le parsed.tokens
    rw [some] at bound
    have grown : reachOf joined.1 ≤ reachOf seq + reachOf (Option.some next) := by
      simp only [joined]
      split_ifs
      · exact joinNodes_reach ..
      · exact joinNodes_reach ..
      · exact astAddChild_reach ..
    rw [joinableTokens, if_pos joins]
    omega

/-- Sending a list to the background keeps its arguments. -/
theorem takeBackground_reach (whole : Parsed) :
    reachOf (takeBackground whole).node = reachOf whole.node := by
  fun_cases takeBackground whole with
  | case1 | case3 => rfl
  | case2 =>
    cases whole.node with
    | none => rfl
    | some seq =>
      obtain ⟨address, type, array, children, value, cmd⟩ := seq
      -- Only the first two children can matter, and the arguments stay the same.
      rcases children with _ | ⟨first, _ | ⟨second, rest⟩⟩
      all_goals cases type <;> simp [reachOf, Node.setCmd, Node.cmd, Node.reach]

end MiraOS

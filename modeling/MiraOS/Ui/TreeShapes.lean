import MiraOS.Ui.ParserLaws

/-! The shapes of the trees that the parser of ui/shell.c builds, whatever memory it has. -/

namespace MiraOS

/-- A simple command, which has no children. -/
def Node.IsCommand (node : Node) : Prop := node.type = .command ∧ node.children = []

/-- A pipeline of simple commands, or parentheses around an expression. -/
inductive Node.IsExpression : Node → Prop where
  | pipeline {node : Node} (kind : node.type = .pipeline)
      (commands : ∀ child ∈ node.children, child.IsCommand) : IsExpression node
  | parentheses {node : Node} (kind : node.type = .subshell)
      (inside : ∀ child ∈ node.children, child.IsExpression) : IsExpression node

/-- The kind of a node that joins two sides. -/
def NodeType.Joins (type : NodeType) : Prop := type = .and ∨ type = .or

/-- Expressions one after another, or a list with what is joined to it. -/
inductive Node.IsList : Node → Prop where
  -- Where memory was short, an operator has expressions only.
  | flat {node : Node} (kind : node.type = .sequence ∨ node.type.Joins)
      (expressions : ∀ child ∈ node.children, child.IsExpression) : IsList node
  | joined {node first : Node} {rest : List Node} (kind : node.type.Joins)
      (children : node.children = first :: rest) (list : first.IsList)
      (expressions : ∀ child ∈ rest, child.IsExpression) : IsList node

/-- Induction over lists: a sequence, an operator that is short of a side, or one with two sides. -/
@[elab_as_elim]
theorem Node.IsList.sides {motive : (node : Node) → node.IsList → Prop}
    (sequence : ∀ {address array children value cmd}
      (list : Node.IsList (.mk address .sequence array children value cmd)),
      (∀ child ∈ children, Node.IsExpression child) → motive _ list)
    (short : ∀ {address type array children value cmd}
      (list : Node.IsList (.mk address type array children value cmd)),
      type.Joins → children.length < 2 → motive _ list)
    (both : ∀ {address type array first second rest value cmd}
      (list : Node.IsList (.mk address type array (first :: second :: rest) value cmd)), type.Joins →
      second.IsExpression → (first.IsExpression ∨ ∃ left : first.IsList, motive first left) → motive _ list)
    {node : Node} (list : node.IsList) : motive node list := by
  induction list with
  | @flat node kind expressions =>
    obtain ⟨address, type, array, children, value, cmd⟩ := node
    rcases id kind with rfl | joins
    · exact sequence _ expressions
    -- The first side is an expression where there was no memory for the list.
    rcases children with _ | ⟨first, _ | ⟨second, rest⟩⟩
    · exact short _ joins (by simp)
    · exact short _ joins (by simp)
    · exact both _ joins (expressions second (by simp [Node.children]))
        (.inl (expressions first (by simp [Node.children])))
  | @joined node first rest joins children list expressions ih =>
    obtain ⟨address, type, array, under, value, cmd⟩ := node
    obtain rfl : under = first :: rest := children
    rcases rest with _ | ⟨second, rest⟩
    · exact short _ joins (by simp)
    · exact both _ joins (expressions second (by simp)) (.inr ⟨list, ih⟩)

/-- A tree that may be missing has a shape. -/
def TreeShaped (shape : Node → Prop) (node : Option Node) : Prop := ∀ tree ∈ node, shape tree

/-- A node of a kind over children of a shape. -/
def Node.Over (kind : NodeType → Prop) (shape : Node → Prop) (node : Node) : Prop :=
  kind node.type ∧ ∀ child ∈ node.children, shape child

/-- No tree at all has every shape. -/
theorem treeShaped_none (shape : Node → Prop) : TreeShaped shape none := fun _ among => by cases among

section

variable (supply : Nat → Nat) {kind : NodeType → Prop} {shape : Node → Prop}

/-- A new node has no children. -/
theorem astCreateNode_over {type : NodeType} (same : kind type) (heap : HeapCalls) :
    TreeShaped (Node.Over kind shape) (astCreateNode supply type heap).1 := by
  intro node made
  -- A new node has no children yet.
  rw [astCreateNode_eq made]
  exact ⟨same, fun child among => by cases among⟩

/-- A child is appended, unless there is no memory for it or no child. -/
theorem astAddChild_cases (parent child : Option Node) (heap : HeapCalls) :
    (astAddChild supply parent child heap).1 = parent ∨
      ∃ node tree grown, parent = some node ∧ child = some tree ∧
        (astAddChild supply parent child heap).1 = some grown ∧ grown.type = node.type ∧
        grown.children = node.children ++ [tree] := by
  -- Without memory or without a child the parent stays as it is.
  fun_cases astAddChild supply parent child heap with
  | case1 => exact .inl rfl
  | case2 => exact .inr ⟨_, _, _, rfl, rfl, rfl, rfl, rfl⟩
  | case3 => exact .inl rfl

/-- Adding a child of the shape keeps the shape of all children. -/
theorem TreeShaped.addChild {parent child : Option Node} (held : TreeShaped (Node.Over kind shape) parent)
    (fits : TreeShaped shape child) (heap : HeapCalls) :
    TreeShaped (Node.Over kind shape) (astAddChild supply parent child heap).1 := by
  -- Without memory the parent stays as it is.
  rcases astAddChild_cases supply parent child heap with
    same | ⟨node, tree, grown, rfl, rfl, result, type, children⟩
  · rwa [same]
  · intro other among
    obtain rfl := Option.some.inj (result.symm.trans among)
    obtain ⟨first, others⟩ := held node rfl
    refine ⟨type ▸ first, fun last within => ?_⟩
    rw [children, List.mem_append, List.mem_singleton] at within
    -- A child is an old one or the new one.
    rcases within with before | rfl
    · exact others last before
    · exact fits last rfl

/-- A simple command of the parser has no children. -/
theorem parseCommand_shape (tokens : List Token) (heap : HeapCalls) :
    TreeShaped Node.IsCommand (parseCommand supply tokens heap).node := by
  -- Four ways to fail leave no tree; the fifth makes a command node.
  fun_cases parseCommand supply tokens heap with
  | case1 | case2 | case3 | case4 => exact treeShaped_none _
  | case5 _ _ _ made cmd created =>
    rintro tree ⟨⟩
    rw [astCreateNode_eq created]
    exact ⟨rfl, rfl⟩

/-- The loop of a pipeline adds simple commands. -/
theorem pipelineLoop_shape {pipeline : Option Node} (tokens : List Token) (heap : HeapCalls)
    (held : TreeShaped (Node.Over (· = .pipeline) Node.IsCommand) pipeline) :
    TreeShaped (Node.Over (· = .pipeline) Node.IsCommand) (pipelineLoop supply pipeline tokens heap).node := by
  -- The loop adds one command a turn, and ends with what it has.
  fun_induction pipelineLoop supply pipeline tokens heap with
  | case1 | case2 | case4 => exact held
  | case3 pipeline heap bar rest _ parsed cmd found added ih =>
    have command := parseCommand_shape supply rest heap
    exact ih (held.addChild supply (found ▸ command) _)

/-- A pipeline of the parser is an expression. -/
theorem parsePipeline_shape (tokens : List Token) (heap : HeapCalls) :
    TreeShaped Node.IsExpression (parsePipeline supply tokens heap).node := by
  fun_cases parsePipeline supply tokens heap with
  | case1 | case2 => exact treeShaped_none _
  | case3 made pipeline created parsed cmd found added =>
    -- The new node takes the first command, and the loop the others.
    have fresh := @astCreateNode_over supply (· = .pipeline) Node.IsCommand _ rfl heap
    have command := parseCommand_shape supply tokens made.2
    have whole := pipelineLoop_shape supply parsed.tokens added.2
      ((created ▸ fresh).addChild supply (found ▸ command) parsed.heap)
    intro tree among
    obtain ⟨kind, commands⟩ := whole tree among
    exact .pipeline kind commands

/-- An expression of the parser. -/
theorem parseExpression_shape (tokens : List Token) (heap : HeapCalls) :
    TreeShaped Node.IsExpression (parseExpression supply tokens heap).node := by
  -- Parentheses are parsed with what is inside them.
  fun_induction parseExpression supply tokens heap with
  | case1 => exact treeShaped_none _
  | case2 curr rest heap _ made inner added ih =>
    have fresh := @astCreateNode_over supply (· = .subshell) Node.IsExpression _ rfl heap
    -- What is inside the parentheses becomes the only child, if it is there.
    have held : TreeShaped (Node.Over (· = .subshell) Node.IsExpression) added.1 := by
      by_cases present : inner.node.isSome
      · simp only [added, if_pos present]
        exact fresh.addChild supply ih inner.heap
      · simp only [added, if_neg present]
        exact fresh
    intro tree among
    obtain ⟨kind, inside⟩ := held tree among
    exact .parentheses kind inside
  | case3 => exact parsePipeline_shape supply _ _

/-- An expression added to a list makes a list. -/
theorem TreeShaped.append {seq : Option Node} (held : TreeShaped Node.IsList seq) {next : Option Node}
    (expression : TreeShaped Node.IsExpression next) (heap : HeapCalls) :
    TreeShaped Node.IsList (astAddChild supply seq next heap).1 := by
  rcases astAddChild_cases supply seq next heap with
    same | ⟨node, tree, grown, rfl, rfl, result, type, children⟩
  · rwa [same]
  · intro other among
    obtain rfl := Option.some.inj (result.symm.trans among)
    have last := expression tree rfl
    -- A list with one more expression is of the kind it was.
    cases held node rfl with
    | flat kind expressions =>
      refine .flat (type ▸ kind) fun child within => ?_
      rw [children, List.mem_append, List.mem_singleton] at within
      rcases within with before | rfl
      · exact expressions child before
      · exact last
    | joined kind first list expressions =>
      refine .joined (type ▸ kind) (by rw [children, first, List.cons_append]) list fun child within => ?_
      rw [List.mem_append, List.mem_singleton] at within
      rcases within with before | rfl
      · exact expressions child before
      · exact last

/-- A list and an expression that are joined make a list. -/
theorem joinNodes_shape {type : NodeType} (kind : type.Joins) {seq next : Option Node}
    (held : TreeShaped Node.IsList seq) (expression : TreeShaped Node.IsExpression next) (heap : HeapCalls) :
    TreeShaped Node.IsList (joinNodes supply type seq next heap).1 := by
  rw [joinNodes]
  refine TreeShaped.append supply ?_ expression _
  have fresh := @astCreateNode_over supply (· = type) Node.IsExpression _ rfl heap
  rcases astAddChild_cases supply (astCreateNode supply type heap).1 seq (astCreateNode supply type heap).2 with
    same | ⟨node, tree, grown, made, rfl, result, sameType, children⟩
  · -- Without the list the new node has no children yet.
    rw [same]
    intro node made
    obtain ⟨ofType, expressions⟩ := fresh node made
    exact .flat (.inr (ofType ▸ kind)) expressions
  · intro other among
    obtain rfl := Option.some.inj (result.symm.trans among)
    have bare := astCreateNode_eq made
    rw [bare] at sameType children
    exact .joined (sameType ▸ kind) children (held tree rfl) fun child within => by cases within

/-- The loop of a list joins expressions to it. -/
theorem sequenceLoop_shape {seq : Option Node} (tokens : List Token) (heap : HeapCalls)
    (held : TreeShaped Node.IsList seq) : TreeShaped Node.IsList (sequenceLoop supply seq tokens heap).node := by
  fun_induction sequenceLoop supply seq tokens heap with
  | case1 | case2 | case4 => exact held
  | case3 seq heap op rest _ parsed next found joined ih =>
    have expression : TreeShaped Node.IsExpression (some next) :=
      found ▸ parseExpression_shape supply rest heap
    refine ih ?_
    simp only [joined]
    -- Operators join, and any other separator appends.
    split_ifs
    · exact joinNodes_shape supply (.inl rfl) held expression _
    · exact joinNodes_shape supply (.inr rfl) held expression _
    · exact held.append supply expression _

/-- Every tree that the parser returns is a list of expressions. -/
theorem parseTokens_shape (tokens : List Token) (heap : HeapCalls) :
    TreeShaped Node.IsList (parseTokens supply tokens heap).node := by
  rw [parseTokens]
  fun_cases parseSequence supply tokens heap with
  | case1 | case2 => exact treeShaped_none _
  | case3 made seq created parsed expr found added =>
    have fresh := @astCreateNode_over supply (· = .sequence) Node.IsExpression _ rfl heap
    have expression := parseExpression_shape supply tokens made.2
    -- The new sequence has no children.
    have start : TreeShaped Node.IsList (some seq) := by
      intro node same
      obtain ⟨kind, expressions⟩ := (created ▸ fresh) node same
      exact .flat (.inl kind) expressions
    have whole := sequenceLoop_shape supply parsed.tokens added.2
      (start.append supply (found ▸ expression) parsed.heap)
    -- Being sent to the background leaves the kind and the children.
    fun_cases takeBackground (sequenceLoop supply added.1 parsed.tokens added.2) with
    | case1 | case3 => exact whole
    | case2 =>
      intro tree among
      obtain ⟨node, list, rfl⟩ := Option.map_eq_some_iff.mp among
      obtain ⟨address, type, array, children, value, cmd⟩ := node
      cases whole _ list with
      | flat kind expressions => exact .flat kind expressions
      | joined kind first list expressions => exact .joined kind first list expressions

end

end MiraOS

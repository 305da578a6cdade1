import MiraOS.Ui.CommandLists
import MiraOS.Ui.ExecutorLaws

/-! Running the tree of a command list against the left-to-right reading of the list. -/

namespace MiraOS

open Machine

/-- The command after an operator is run, given the status so far. -/
def ListOp.Runs : ListOp → Int → Prop
  | .semicolon, _ => True
  | .and, status => status = 0
  | .or, status => status ≠ 0

instance (op : ListOp) (status : Int) : Decidable (op.Runs status) :=
  match op with
  | .semicolon => inferInstanceAs (Decidable True)
  | .and => inferInstanceAs (Decidable (status = 0))
  | .or => inferInstanceAs (Decidable (status ≠ 0))

/-- The kind of node that the parser makes for an operator. -/
def ListOp.nodeType : ListOp → NodeType
  | .semicolon => .sequence
  | .and => .and
  | .or => .or

/-- The commands that were run after the first are those the reading runs, whatever their statuses
were, and the final status is that of the last command run. -/
def Reads : Int → List JoinedCommand → List Ran → Int → Prop
  | status, [], ran, final => ran = [] ∧ final = status
  | status, joined :: rest, ran, final =>
    if joined.op.Runs status then
      ∃ next later, ran = (joined.command.args, next) :: later ∧ Reads next rest later final
    -- A command that is skipped leaves the status.
    else Reads status rest ran final

/-- The commands that were run and the final status are those of the left-to-right reading. -/
def ReadsList (first : SimpleCommand) (rest : List JoinedCommand) (ran : List Ran) (final : Int) :
    Prop :=
  ∃ status later, ran = (first.args, status) :: later ∧ Reads status rest later final

/-- No semicolon comes after a conditional operator. -/
def NoLateSemicolon (rest : List JoinedCommand) : Prop :=
  rest.Pairwise fun earlier later => later.op = .semicolon → earlier.op = .semicolon

/-- A reading goes on with one more command, run or skipped. -/
theorem Reads.snoc {status final : Int} {done : List JoinedCommand} {ran : List Ran}
    (reads : Reads status done ran final) (joined : JoinedCommand) (next : Int) :
    if joined.op.Runs final then
      Reads status (done ++ [joined]) (ran ++ [(joined.command.args, next)]) next
    else Reads status (done ++ [joined]) ran final := by
  -- The earlier commands are read as before, and the status they leave decides about the last.
  induction done generalizing status ran with
  | nil =>
    obtain ⟨rfl, rfl⟩ := reads
    by_cases runs : joined.op.Runs final
    · rw [if_pos runs, List.nil_append, List.nil_append, Reads, if_pos runs]
      exact ⟨next, [], rfl, rfl, rfl⟩
    · rw [if_neg runs, List.nil_append, Reads, if_neg runs]
      exact ⟨rfl, rfl⟩
  | cons earlier rest ih =>
    rw [Reads] at reads
    by_cases ranEarlier : earlier.op.Runs status
    · rw [if_pos ranEarlier] at reads
      obtain ⟨value, later, rfl, tail⟩ := reads
      have extended := ih tail
      simp only [List.cons_append, Reads, if_pos ranEarlier]
      by_cases runs : joined.op.Runs final
      · rw [if_pos runs] at extended ⊢
        exact ⟨value, _, rfl, extended⟩
      · rw [if_neg runs] at extended ⊢
        exact ⟨value, _, rfl, extended⟩
    · -- A command that was skipped leaves the reading of the rest as it is.
      rw [if_neg ranEarlier] at reads
      have extended := ih reads
      simp only [List.cons_append, Reads, if_neg ranEarlier]
      exact extended

/-- The reading of a list goes on with a command that is run. -/
theorem ReadsList.run {first : SimpleCommand} {done : List JoinedCommand} {ran : List Ran}
    {final : Int} (reads : ReadsList first done ran final) {joined : JoinedCommand}
    (runs : joined.op.Runs final) (next : Int) :
    ReadsList first (done ++ [joined]) (ran ++ [(joined.command.args, next)]) next := by
  -- The first command always runs, so the reading goes on behind it.
  obtain ⟨status, later, rfl, tail⟩ := reads
  have extended := tail.snoc joined next
  rw [if_pos runs] at extended
  exact ⟨status, _, rfl, extended⟩

/-- The reading of a list goes on with a command that is skipped. -/
theorem ReadsList.skip {first : SimpleCommand} {done : List JoinedCommand} {ran : List Ran}
    {final : Int} (reads : ReadsList first done ran final) {joined : JoinedCommand}
    (skips : ¬ joined.op.Runs final) : ReadsList first (done ++ [joined]) ran final := by
  obtain ⟨status, later, rfl, tail⟩ := reads
  -- A skipped command runs nothing and keeps the status.
  have extended := tail.snoc joined 0
  rw [if_neg skips] at extended
  exact ⟨status, _, rfl, extended⟩

section

variable {World : Type} (interp : Interpreter World)

/-- A sequence node is walked by its loop. -/
theorem shellExecuteAst_sequence {node : Node} (type : node.type = .sequence)
    (ctx : ShellCtx World) :
    shellExecuteAst interp node ctx = executeSequence interp node.children 0 ctx := by
  obtain ⟨address, kind, array, children, value, cmd⟩ := node
  cases type
  rw [shellExecuteAst, Node.children]

/-- A simple command runs once. -/
theorem shellExecuteAst_simple {node : Node} {args : List HeapString} (simple : IsSimple node args)
    (some : args ≠ []) (ctx : ShellCtx World) :
    (shellExecuteAst interp node ctx).ran = [(args, (shellExecuteAst interp node ctx).status)] := by
  -- The pipeline walks its only command, which has a name to run.
  obtain ⟨address, kind, array, children, value, cmd⟩ := node
  obtain ⟨type, command, only, commandType, commandArgs⟩ := simple
  cases type
  obtain ⟨address, kind, array, inner, value, cmd⟩ := command
  cases commandType
  obtain rfl : children = _ := only
  obtain rfl : cmd.args = args := commandArgs
  obtain ⟨name, others, shape⟩ := List.exists_cons_of_ne_nil some
  simp [shellExecuteAst, executePipeline, shape]

/-- A conditional node runs its second child depending on the status of its first. -/
theorem shellExecuteAst_join {node left right : Node} {op : ListOp} (conditional : op ≠ .semicolon)
    (type : node.type = op.nodeType) (children : node.children = [left, right])
    (ctx : ShellCtx World) :
    let first := shellExecuteAst interp left ctx
    let second := shellExecuteAst interp right first.ctx
    (shellExecuteAst interp node ctx).ran =
        (if op.Runs first.status then first.ran ++ second.ran else first.ran) ∧
      (shellExecuteAst interp node ctx).status =
        (if op.Runs first.status then second.status else first.status) := by
  obtain ⟨address, kind, array, all, value, cmd⟩ := node
  obtain rfl : all = _ := children
  obtain rfl : kind = _ := type
  -- The walk tests the status of the first child just as the operator says.
  cases op with
  | semicolon => exact absurd rfl conditional
  | and | or =>
    simp only [shellExecuteAst, ListOp.Runs, ListOp.nodeType]
    by_cases success : (shellExecuteAst interp left ctx).status = 0
    · simp [success]
    · simp [success]

end

/-- A tree that reads a list: running it is the left-to-right reading of the list. -/
structure Builds (node : Node) (first : SimpleCommand) (done : List JoinedCommand) : Prop where
  reads : ∀ {World : Type} (interp : Interpreter World) (ctx : ShellCtx World),
    ReadsList first done (shellExecuteAst interp node ctx).ran (shellExecuteAst interp node ctx).status
  reach : node.reach ≤ argumentsOf first done
  ordered : NoLateSemicolon done
  -- The root is a sequence until the first conditional operator, which leaves two children.
  shape : (node.type = .sequence ∧ ∀ joined ∈ done, joined.op = .semicolon) ∨
    ((node.type = .and ∨ node.type = .or) ∧ 2 ≤ node.children.length ∧
      ∃ joined ∈ done, joined.op ≠ .semicolon)

/-- The arguments of a simple command. -/
theorem IsSimple.reach {node : Node} {args : List HeapString} (simple : IsSimple node args) :
    node.reach = args.length := by
  obtain ⟨address, kind, array, children, value, cmd⟩ := node
  obtain ⟨type, command, only, commandType, commandArgs⟩ := simple
  -- A simple expression is a pipeline around one command, whose reach is its argument count.
  cases type
  obtain ⟨address, kind, array, inner, value, cmd⟩ := command
  cases commandType
  obtain rfl : children = _ := only
  obtain rfl : cmd.args = args := commandArgs
  simp [Node.reach, reachAll]

/-- The strings of a command, counted. -/
theorem SimpleCommand.args_length (command : SimpleCommand) :
    command.args.length = command.words.length :=
  List.length_map ..

/-- A command has strings to run. -/
theorem SimpleCommand.args_ne_nil (command : SimpleCommand) : command.args ≠ [] := by
  intro empty
  exact command.nonempty (List.map_eq_nil_iff.mp empty)

/-- The sequence of one simple command reads the list of it. -/
theorem builds_first {node next : Node} {first : SimpleCommand} (type : node.type = .sequence)
    (children : node.children = [next]) (simple : IsSimple next first.args) :
    Builds node first [] := by
  -- A sequence of one child runs just that child.
  refine ⟨fun interp ctx => ?_, ?_, List.Pairwise.nil, .inl ⟨type, by simp⟩⟩
  · rw [shellExecuteAst_sequence interp type, children]
    simp only [executeSequence, List.append_nil]
    exact ⟨_, [], shellExecuteAst_simple interp simple first.args_ne_nil ctx, rfl, rfl⟩
  · obtain ⟨address, kind, array, all, value, cmd⟩ := node
    cases type
    obtain rfl : all = _ := children
    simp [Node.reach, reachAll, simple.reach, first.args_length, argumentsOf]

/-- A semicolon after semicolons only: one more child of the sequence. -/
theorem Builds.semicolon {node grown next : Node} {first : SimpleCommand}
    {done : List JoinedCommand} (builds : Builds node first done) (type : node.type = .sequence)
    {joined : JoinedCommand} (op : joined.op = .semicolon) (same : grown.type = node.type)
    (children : grown.children = node.children ++ [next])
    (simple : IsSimple next joined.command.args)
    (reach : grown.reach ≤ node.reach + next.reach) :
    Builds grown first (done ++ [joined]) := by
  -- One more child of the sequence runs after the others, whatever their statuses.
  have grownType : grown.type = .sequence := same.trans type
  -- A sequence at the root means that only semicolons came before.
  have all : ∀ earlier ∈ done, earlier.op = .semicolon := by
    rcases builds.shape with ⟨-, all⟩ | ⟨other, -⟩
    · exact all
    · rw [type] at other
      rcases other with other | other <;> cases other
  refine ⟨fun interp ctx => ?_, ?_, ?_, .inl ⟨grownType, fun member among => ?_⟩⟩
  · have before := builds.reads interp ctx
    rw [shellExecuteAst_sequence interp type] at before
    rw [shellExecuteAst_sequence interp grownType, children,
      executeSequence_snoc interp node.children next 0 ctx,
      shellExecuteAst_simple interp simple joined.command.args_ne_nil]
    exact before.run (by rw [op]; trivial) _
  · -- The new command's arguments are counted once more.
    have bound := builds.reach
    rw [argumentsOf_snoc]
    rw [simple.reach, joined.command.args_length] at reach
    simp only [List.map_nil, List.sum_nil]
    omega
  · refine List.pairwise_append.mpr ⟨builds.ordered, List.pairwise_singleton .., ?_⟩
    intro earlier among _ _ _
    exact all earlier among
  · rcases List.mem_append.mp among with earlier | last
    · exact all member earlier
    · rw [List.mem_singleton.mp last, op]

/-- A conditional operator: a node for it above the tree so far. -/
theorem Builds.conditional {node root next : Node} {first : SimpleCommand}
    {done : List JoinedCommand} (builds : Builds node first done) {joined : JoinedCommand}
    (op : joined.op ≠ .semicolon) (type : root.type = joined.op.nodeType)
    (children : root.children = [node, next]) (simple : IsSimple next joined.command.args) :
    Builds root first (done ++ [joined]) := by
  -- The tree so far becomes the first child, and its status decides about the second.
  refine ⟨fun interp ctx => ?_, ?_, ?_, ?_⟩
  · have before := builds.reads interp ctx
    obtain ⟨ran, status⟩ := shellExecuteAst_join interp op type children ctx
    rw [ran, status]
    by_cases runs : joined.op.Runs (shellExecuteAst interp node ctx).status
    · rw [if_pos runs, if_pos runs,
        shellExecuteAst_simple interp simple joined.command.args_ne_nil]
      exact before.run runs _
    · rw [if_neg runs, if_neg runs]
      exact before.skip runs
  · -- The root reaches what its two children reach.
    have bound := builds.reach
    have counted : root.reach = node.reach + next.reach := by
      obtain ⟨address, kind, array, all, value, cmd⟩ := root
      obtain rfl : all = _ := children
      obtain rfl : kind = _ := type
      cases shape : joined.op with
      | semicolon => exact absurd shape op
      | and | or => rfl
    rw [argumentsOf_snoc, counted, simple.reach, joined.command.args_length]
    simp only [List.map_nil, List.sum_nil]
    omega
  · -- The operator is no semicolon, so nothing is asked of its place.
    refine List.pairwise_append.mpr ⟨builds.ordered, List.pairwise_singleton .., ?_⟩
    intro earlier among last here late
    rw [List.mem_singleton.mp here] at late
    exact absurd late op
  · refine .inr ⟨?_, by rw [children]; simp, joined, by simp, op⟩
    rw [type]
    cases shape : joined.op with
    | semicolon => exact absurd shape op
    | and => exact .inl rfl
    | or => exact .inr rfl

section

variable {supply : Nat → Nat} {heap : HeapCalls}

/-- Adding a child takes one request. -/
theorem astAddChild_requests (parent child : Node) :
    (astAddChild supply (some parent) (some child) heap).2.requests = heap.requests + 1 := by
  obtain ⟨address, type, array, children, value, cmd⟩ := parent
  -- The slot is asked for once, granted or not.
  by_cases memory : supply heap.requests = 0
  · exact congrArg (fun pair : Option Node × HeapCalls => pair.2.requests) (if_pos memory)
  · exact congrArg (fun pair : Option Node × HeapCalls => pair.2.requests) (if_neg memory)

/-- Two trees joined under a new node. -/
theorem joinNodes_granted (type : NodeType) (seq next : Node)
    (granted : Granted supply heap.requests 3) :
    ∃ root, (joinNodes supply type (some seq) (some next) heap).1 = some root ∧
      root.type = type ∧ root.children = [seq, next] ∧
      (joinNodes supply type (some seq) (some next) heap).2.requests = heap.requests + 3 := by
  -- The three requests are for the node and for its array, which is replaced once.
  have create : supply heap.requests ≠ 0 := granted 0 (by omega)
  obtain ⟨middle, added, middleType, middleChildren, used⟩ := @astAddChild_granted supply
    ⟨heap.requests + 1, heap.freed⟩ (.mk (supply heap.requests) type 0 [] 0 {}) seq
    (granted 1 (by omega))
  have last : supply (astAddChild supply (some (.mk (supply heap.requests) type 0 [] 0 {}))
      (some seq) ⟨heap.requests + 1, heap.freed⟩).2.requests ≠ 0 := by
    rw [used]
    exact granted 2 (by omega)
  obtain ⟨root, addedToo, rootType, rootChildren, usedToo⟩ := astAddChild_granted middle next last
  simp only [joinNodes, astCreateNode_granted type create, added]
  refine ⟨root, addedToo, rootType.trans middleType, ?_, ?_⟩
  · rw [rootChildren, middleChildren]
    rfl
  · rw [usedToo, used]

/-- Two trees joined without enough memory: one of them is lost. -/
theorem joinNodes_short (type : NodeType) (seq next : Node)
    (short : ¬ Granted supply heap.requests 3) :
    reachOf (joinNodes supply type (some seq) (some next) heap).1 ≤ max seq.reach next.reach := by
  -- Whichever request fails, at most one of the two trees is left below the node.
  rw [show 3 = 1 + (1 + 1) from rfl, granted_add, granted_add, granted_one, granted_one,
    granted_one] at short
  by_cases create : supply heap.requests = 0
  · simp only [joinNodes, astCreateNode_denied type create]
    exact Nat.zero_le _
  · -- The node is there, but has no child yet.
    have empty : reachOf (some (.mk (supply heap.requests) type 0 [] 0 {})) = 0 := by
      have fresh := astCreateNode_reach supply type heap
      rwa [astCreateNode_granted type create] at fresh
    simp only [joinNodes, astCreateNode_granted type create]
    by_cases left : supply (heap.requests + 1) = 0
    · rw [@astAddChild_denied supply ⟨heap.requests + 1, heap.freed⟩ _ _ left]
      have bound := astAddChild_reach supply (some (.mk (supply heap.requests) type 0 [] 0 {}))
        (some next) (astAddChild supply (some (.mk (supply heap.requests) type 0 [] 0 {})) (some seq)
          ⟨heap.requests + 1, heap.freed⟩).2
      rw [empty, Nat.zero_add] at bound
      exact Nat.le_trans bound (Nat.le_max_right ..)
    · -- The first child is there, so it is the last request that fails.
      have right : supply (heap.requests + 1 + 1) = 0 := by
        by_contra memory
        exact short ⟨create, left, memory⟩
      have bound := astAddChild_reach supply (some (.mk (supply heap.requests) type 0 [] 0 {}))
        (some seq) ⟨heap.requests + 1, heap.freed⟩
      rw [empty, Nat.zero_add] at bound
      obtain ⟨middle, added, -⟩ := @astAddChild_granted supply ⟨heap.requests + 1, heap.freed⟩
        (.mk (supply heap.requests) type 0 [] 0 {}) seq left
      rw [added] at bound ⊢
      rw [astAddChild_denied middle _ (by rw [astAddChild_requests]; exact right)]
      exact Nat.le_trans bound (Nat.le_max_left ..)

/-- A child added to a conditional node is never looked at. -/
theorem astAddChild_late {node next : Node} (type : node.type = .and ∨ node.type = .or)
    (two : 2 ≤ node.children.length) :
    reachOf (astAddChild supply (some node) (some next) heap).1 = node.reach := by
  -- The walk looks at the first two children only, and they stay where they are.
  obtain ⟨address, kind, array, children, value, cmd⟩ := node
  obtain ⟨left, right, rest, rfl⟩ : ∃ left right rest, children = left :: right :: rest := by
    rcases children with _ | ⟨left, _ | ⟨right, rest⟩⟩
    · simp [Node.children] at two
    · simp [Node.children] at two
    · exact ⟨left, right, rest, rfl⟩
  by_cases memory : supply heap.requests = 0
  · rw [astAddChild_denied _ _ memory]
    rfl
  · obtain ⟨grown, added, grownType, grownChildren, -⟩ := astAddChild_granted
      (.mk address kind array (left :: right :: rest) value cmd) next memory
    rw [added]
    obtain ⟨address', kind', array', children', value', cmd'⟩ := grown
    obtain rfl : kind' = kind := grownType
    obtain rfl : children' = _ := grownChildren
    rcases type with type | type
    · cases type
      rfl
    · cases type
      rfl

/-- What the loop over a list does with the next expression. -/
def joinOp (supply : Nat → Nat) (op : ListOp) (seq next : Option Node) (heap : HeapCalls) :
    Option Node × HeapCalls :=
  match op with
  | .semicolon => astAddChild supply seq next heap
  | .and => joinNodes supply .and seq next heap
  | .or => joinNodes supply .or seq next heap

/-- One round of the loop over a list. -/
theorem sequenceLoop_join (seq : Option Node) (joined : JoinedCommand) (rest : List Token) :
    sequenceLoop supply seq (joined.token :: rest) heap =
      let parsed := parseExpression supply rest heap
      match parsed.node with
      | none => ⟨seq, parsed.tokens, parsed.heap⟩
      | some next =>
        let result := joinOp supply joined.op seq (some next) parsed.heap
        sequenceLoop supply result.1 parsed.tokens result.2 := by
  -- The operator decides how the next expression is joined.
  conv_lhs => unfold sequenceLoop
  rw [if_pos joined.token_kind.2.1, joined.kind]
  cases joined.op <;> rfl

/-- The loop over a list stops at its end. -/
theorem sequenceLoop_end (seq : Option Node) {ending : Option Token}
    (ended : ∀ token ∈ ending, token.type = .eof) :
    sequenceLoop supply seq ending.toList heap = ⟨seq, ending.toList, heap⟩ := by
  unfold sequenceLoop
  cases ending with
  -- Without a token left, or in front of the end, no operator continues the list.
  | none => rfl
  | some eof =>
    apply if_neg
    rw [ended eof rfl]
    decide

/-- The operator can be added to the tree: it is not a semicolon after a conditional one. -/
def Fits (node : Node) (op : ListOp) : Prop := op = .semicolon → node.type = .sequence

/-- Joining a simple command to a tree, with enough memory. -/
theorem joinOp_builds {node next : Node} {first : SimpleCommand} {done : List JoinedCommand}
    (builds : Builds node first done) {joined : JoinedCommand}
    (simple : IsSimple next joined.command.args) (fits : Fits node joined.op)
    (granted : Granted supply heap.requests joined.op.requests) :
    ∃ root, (joinOp supply joined.op (some node) (some next) heap).1 = some root ∧
      Builds root first (done ++ [joined]) ∧
      (joinOp supply joined.op (some node) (some next) heap).2.requests =
        heap.requests + joined.op.requests := by
  -- A semicolon needs a sequence at the root, the other operators make a new root.
  cases op : joined.op with
  | semicolon =>
    rw [op] at granted fits
    obtain ⟨root, added, type, children, used⟩ :=
      astAddChild_granted node next (granted_one.mp granted)
    have bound := astAddChild_reach supply (some node) (some next) heap
    rw [added] at bound
    exact ⟨root, added, builds.semicolon (fits rfl) op type children simple bound, used⟩
  | and | or =>
    rw [op] at granted
    obtain ⟨root, added, type, children, used⟩ := joinNodes_granted _ node next granted
    exact ⟨root, added, builds.conditional (by rw [op]; decide) (by rw [op]; exact type) children
      simple, used⟩

/-- Joining a simple command to a tree, without enough memory or too late: a command is lost. -/
theorem joinOp_short {node next : Node} {first : SimpleCommand} {done : List JoinedCommand}
    (builds : Builds node first done) {joined : JoinedCommand}
    (simple : IsSimple next joined.command.args)
    (short : ¬ (Fits node joined.op ∧ Granted supply heap.requests joined.op.requests)) :
    reachOf (joinOp supply joined.op (some node) (some next) heap).1 <
      argumentsOf first done + joined.command.words.length := by
  -- Counting arguments is enough to see that a command is missing.
  have bound := builds.reach
  have positive := joined.command.length_pos
  have before := argumentsOf_pos first done
  have counted : next.reach = joined.command.words.length := by
    rw [simple.reach, joined.command.args_length]
  cases op : joined.op with
  | semicolon =>
    rw [op] at short
    simp only [joinOp]
    rcases builds.shape with ⟨type, -⟩ | ⟨type, two, -⟩
    · have memory : supply heap.requests = 0 := by
        by_contra memory
        exact short ⟨fun _ => type, granted_one.mpr memory⟩
      rw [astAddChild_denied _ _ memory, reachOf]
      omega
    -- A semicolon that comes too late adds a child that is never looked at.
    · rw [astAddChild_late type two]
      omega
  | and | or =>
    rw [op] at short
    have denied : ¬ Granted supply heap.requests 3 := by
      intro granted
      apply short
      refine ⟨fun semicolon => ?_, granted⟩
      cases semicolon
    exact Nat.lt_of_le_of_lt (joinNodes_short _ node next denied) (by omega)

/-- Joining adds at most the arguments of the new tree. -/
theorem joinOp_reach (op : ListOp) (seq next : Option Node) :
    reachOf (joinOp supply op seq next heap).1 ≤ reachOf seq + reachOf next := by
  -- A semicolon adds to the list, the other two make a new node.
  cases op with
  | semicolon => exact astAddChild_reach ..
  | and | or => exact joinNodes_reach ..

/-- In a list without a late semicolon the next operator can be added. -/
theorem Builds.fits {node : Node} {first : SimpleCommand} {done rest : List JoinedCommand}
    (builds : Builds node first done) {joined : JoinedCommand}
    (ordered : NoLateSemicolon (done ++ joined :: rest)) : Fits node joined.op := by
  intro semicolon
  -- The tree is a plain sequence, or it ends in a conditional that no semicolon may follow.
  rcases builds.shape with ⟨type, -⟩ | ⟨-, -, earlier, among, conditional⟩
  · exact type
  · have later := (List.pairwise_append.mp ordered).2.2 earlier among joined List.mem_cons_self
    exact absurd (later semicolon) conditional

/-- The loop over the rest of a list, with enough memory and no late semicolon. -/
theorem sequenceLoop_whole {node : Node} {first : SimpleCommand} {done rest : List JoinedCommand}
    (builds : Builds node first done) {ending : Option Token}
    (ended : ∀ token ∈ ending, token.type = .eof)
    (granted : Granted supply heap.requests (joinedRequests rest))
    (ordered : NoLateSemicolon (done ++ rest)) :
    ∃ whole, (sequenceLoop supply (some node) (joinedTokens rest ++ ending.toList) heap).node =
        some whole ∧ Builds whole first (done ++ rest) ∧
      (sequenceLoop supply (some node) (joinedTokens rest ++ ending.toList) heap).tokens =
        ending.toList := by
  -- Each turn joins one command to a tree that reads the list so far.
  induction rest generalizing node done heap with
  | nil =>
    rw [joinedTokens, List.nil_append, List.append_nil, sequenceLoop_end _ ended]
    exact ⟨node, rfl, builds, rfl⟩
  | cons joined rest ih =>
    rw [joinedRequests, granted_add, granted_add] at granted
    obtain ⟨parse, join, later⟩ := granted
    obtain ⟨next, found, simple, left, used⟩ :=
      parseExpression_simple joined.command (endsSimple_joined rest ending ended) parse
    rw [← used] at join
    obtain ⟨root, rooted, built, usedToo⟩ := joinOp_builds builds simple (builds.fits ordered) join
    -- The tree with this command joined to it goes on with the rest of the list.
    rw [joinedTokens, List.cons_append, List.append_assoc, sequenceLoop_join]
    simp only [found, left, rooted]
    rw [List.append_cons] at ordered ⊢
    exact ih built (by rw [usedToo, used]; exact later) ordered

/-- The loop over the rest of a list, without enough memory or with a late semicolon. -/
theorem sequenceLoop_lost {node : Node} {first : SimpleCommand} {done rest : List JoinedCommand}
    (builds : Builds node first done) {ending : Option Token}
    (ended : ∀ token ∈ ending, token.type = .eof)
    (lost : ¬ (Granted supply heap.requests (joinedRequests rest) ∧ NoLateSemicolon (done ++ rest))) :
    reachOf (sequenceLoop supply (some node) (joinedTokens rest ++ ending.toList) heap).node <
      argumentsOf first (done ++ rest) := by
  -- The first command that is not joined is lost, and later ones cannot make up for it.
  induction rest generalizing node done heap with
  | nil =>
    rw [List.append_nil] at lost
    exact absurd ⟨fun i inside => absurd inside (Nat.not_lt_zero i), builds.ordered⟩ lost
  | cons joined rest ih =>
    have counted := argumentTokens_joined rest ending ended
    have ends := endsSimple_joined rest ending ended
    have bound := builds.reach
    have positive := joined.command.length_pos
    rw [joinedRequests, granted_add, granted_add] at lost
    rw [joinedTokens, List.cons_append, List.append_assoc, sequenceLoop_join]
    by_cases parse : Granted supply heap.requests joined.command.requests
    · obtain ⟨next, found, simple, left, used⟩ := parseExpression_simple joined.command ends parse
      simp only [found, left]
      by_cases join : Fits node joined.op ∧
          Granted supply (heap.requests + joined.command.requests) joined.op.requests
      · -- This command is joined to the tree, so a later one is lost.
        rw [← used] at join
        obtain ⟨root, rooted, built, usedToo⟩ := joinOp_builds builds simple join.1 join.2
        rw [rooted, List.append_cons]
        apply ih built
        rw [usedToo, used, ← List.append_cons]
        rw [used] at join
        exact fun fine => lost ⟨⟨parse, join.2, fine.1⟩, fine.2⟩
      · -- This command is lost, and the rest of the list adds no more than its own arguments.
        rw [← used] at join
        have fewer := joinOp_short builds simple join
        have later := joinableTokens_le (joinedTokens rest ++ ending.toList)
        rw [argumentsOf_snoc]
        exact Nat.lt_of_le_of_lt (sequenceLoop_reach ..) (by omega)
    -- The command itself is parsed short, and the loop stops there or goes on with less.
    · have fewer := parseExpression_short joined.command ends parse
      rw [argumentsOf_snoc]
      cases found : (parseExpression supply
          (joined.command.words ++ (joinedTokens rest ++ ending.toList)) heap).node with
      | none =>
        simp only [found, reachOf]
        omega
      | some next =>
        rw [found] at fewer
        simp only [found]
        have grown := @joinOp_reach supply (parseExpression supply
          (joined.command.words ++ (joinedTokens rest ++ ending.toList)) heap).heap joined.op
          (some node) (some next)
        have same : reachOf (some node) = node.reach := rfl
        exact Nat.lt_of_le_of_lt (sequenceLoop_reach ..) (by omega)

/-- Nothing is sent to the background at the end of a list. -/
theorem takeBackground_end {ending : Option Token} (ended : ∀ token ∈ ending, token.type = .eof)
    {whole : Parsed} (left : whole.tokens = ending.toList) : takeBackground whole = whole := by
  -- The list ends with the end token or with nothing.
  unfold takeBackground
  rw [left]
  cases ending with
  | none => rfl
  | some eof =>
    apply if_neg
    rw [ended eof rfl]
    decide

/-- The parse of a list, with enough memory and no late semicolon. -/
theorem parseTokens_whole (line : CommandLine) (granted : Granted supply heap.requests line.requests)
    (ordered : NoLateSemicolon line.rest) :
    ∃ whole, (parseTokens supply line.tokens heap).node = some whole ∧
      Builds whole line.first line.rest := by
  -- The requests are those of the root, the first command, its array and the loop.
  rw [CommandLine.requests, granted_add, granted_add, granted_add, granted_one, granted_one] at granted
  obtain ⟨create, parse, add, loop⟩ := granted
  obtain ⟨next, found, simple, left, used⟩ :=
    @parseExpression_simple supply ⟨heap.requests + 1, heap.freed⟩ line.first _
      (endsSimple_joined line.rest line.ending line.ended) parse
  obtain ⟨root, rooted, type, children, usedToo⟩ := @astAddChild_granted supply
    (parseExpression supply line.tokens ⟨heap.requests + 1, heap.freed⟩).heap
    (.mk (supply heap.requests) .sequence 0 [] 0 {}) next (by rw [CommandLine.tokens, used]; exact add)
  have builds := builds_first type children simple
  obtain ⟨whole, parsed, built, rest⟩ := @sequenceLoop_whole supply
    (astAddChild supply (some (.mk (supply heap.requests) .sequence 0 [] 0 {})) (some next)
      (parseExpression supply line.tokens ⟨heap.requests + 1, heap.freed⟩).heap).2
    root line.first [] line.rest builds line.ending line.ended
    (by rw [usedToo, CommandLine.tokens, used]; exact loop) ordered
  refine ⟨whole, ?_, built⟩
  rw [CommandLine.tokens] at rooted parsed rest
  rw [parseTokens, parseSequence, CommandLine.tokens]
  simp only [astCreateNode_granted .sequence create, found, rooted, left]
  rw [takeBackground_end line.ended rest]
  exact parsed

/-- The parse of a list, without enough memory or with a late semicolon. -/
theorem parseTokens_lost (line : CommandLine)
    (lost : ¬ (Granted supply heap.requests line.requests ∧ NoLateSemicolon line.rest)) :
    reachOf (parseTokens supply line.tokens heap).node < argumentsOf line.first line.rest := by
  -- The requests are gone through in order, up to the one that fails.
  have positive := argumentsOf_pos line.first line.rest
  have ends := endsSimple_joined line.rest line.ending line.ended
  have counted := argumentTokens_joined line.rest line.ending line.ended
  have whole : argumentsOf line.first line.rest = line.first.words.length +
      argumentTokens (joinedTokens line.rest ++ line.ending.toList) := by rw [counted, argumentsOf]
  rw [CommandLine.requests, granted_add, granted_add, granted_add, granted_one, granted_one] at lost
  rw [parseTokens, parseSequence, CommandLine.tokens]
  by_cases create : supply heap.requests = 0
  · simp only [astCreateNode_denied .sequence create, reachOf]
    exact positive
  · simp only [astCreateNode_granted .sequence create]
    by_cases parse : Granted supply (heap.requests + 1) line.first.requests
    · obtain ⟨next, found, simple, left, used⟩ :=
        @parseExpression_simple supply ⟨heap.requests + 1, heap.freed⟩ line.first _ ends parse
      simp only [found, left, takeBackground_reach]
      by_cases add : supply (heap.requests + 1 + line.first.requests) = 0
      · -- The first command is lost, and the rest adds no more than its own arguments.
        rw [astAddChild_denied _ _ (by rw [used]; exact add)]
        have later := joinableTokens_le (joinedTokens line.rest ++ line.ending.toList)
        have first := line.first.length_pos
        refine Nat.lt_of_le_of_lt (sequenceLoop_reach ..) ?_
        show 0 + joinableTokens _ < _
        omega
      · -- The first command is there, so something else of the list is lost.
        obtain ⟨root, rooted, type, children, usedToo⟩ := @astAddChild_granted supply
          (parseExpression supply (line.first.words ++ (joinedTokens line.rest ++ line.ending.toList))
            ⟨heap.requests + 1, heap.freed⟩).heap
          (.mk (supply heap.requests) .sequence 0 [] 0 {}) next (by rw [used]; exact add)
        have builds := builds_first type children simple
        rw [rooted]
        apply @sequenceLoop_lost supply _ root line.first [] line.rest builds line.ending line.ended
        rw [usedToo, used]
        exact fun fine => lost ⟨⟨create, parse, add, fine.1⟩, fine.2⟩
    · -- The first command is short of memory, and the list cannot make up for it.
      have fewer := @parseExpression_short supply ⟨heap.requests + 1, heap.freed⟩ line.first _ ends parse
      cases found : (parseExpression supply
          (line.first.words ++ (joinedTokens line.rest ++ line.ending.toList))
          ⟨heap.requests + 1, heap.freed⟩).node with
      | none =>
        simp only [reachOf]
        exact positive
      | some next =>
        rw [found] at fewer
        simp only [takeBackground_reach]
        have grown := astAddChild_reach supply
          (some (.mk (supply heap.requests) .sequence 0 [] 0 {})) (some next)
          (parseExpression supply (line.first.words ++ (joinedTokens line.rest ++ line.ending.toList))
            ⟨heap.requests + 1, heap.freed⟩).heap
        have empty : reachOf (some (.mk (supply heap.requests) .sequence 0 [] 0 {})) = 0 := rfl
        exact Nat.lt_of_le_of_lt (sequenceLoop_reach ..) (by omega)

end

/-- The script under which the reading runs every command of a list. -/
def runAllScript (rest : List JoinedCommand) (i : Nat) : Int :=
  match rest[i]? with
  -- The command before a disjunction has to fail, every other one has to succeed.
  | some joined => if joined.op = .or then 1 else 0
  | none => 0

/-- Under that script every operator runs its command. -/
theorem runAllScript_runs {rest : List JoinedCommand} {i : Nat} {joined : JoinedCommand}
    (found : rest[i]? = some joined) : joined.op.Runs (runAllScript rest i) := by
  -- The entry of the script is the status that the operator asks for.
  simp only [runAllScript, found]
  cases joined.op with
  | semicolon => trivial
  | and => rfl
  | or => exact Int.one_ne_zero

/-- A reading in which every operator runs its command runs all arguments. -/
theorem Reads.all_arguments {script : Nat → Int} {start : Nat} {rest : List JoinedCommand}
    {ran : List Ran} {final : Int} (reads : Reads (script start) rest ran final)
    (statuses : ∀ i entry, ran[i]? = some entry → entry.2 = script (start + 1 + i))
    (runs : ∀ i (joined : JoinedCommand), rest[i]? = some joined → joined.op.Runs (script (start + i))) :
    ranArguments ran = (rest.map fun joined => joined.command.words.length).sum := by
  -- Every operator runs its command, so the reading takes the commands one by one.
  induction rest generalizing start ran with
  | nil =>
    obtain ⟨rfl, -⟩ := reads
    rfl
  | cons joined rest ih =>
    have runsHere : joined.op.Runs (script start) := runs 0 joined rfl
    rw [Reads, if_pos runsHere] at reads
    obtain ⟨next, later, rfl, tail⟩ := reads
    -- The status that was returned is the next entry of the script.
    have here : next = script (start + 1) := statuses 0 _ rfl
    rw [here] at tail
    have counted := ih tail
      (fun i entry found => by rw [statuses (i + 1) entry found]; congr 1; omega)
      (fun i other found => by
        have after := runs (i + 1) other found
        rwa [show start + (i + 1) = start + 1 + i by omega] at after)
    rw [List.map_cons, List.sum_cons, ← counted, ← joined.command.args_length]
    rfl

/-- An interpreter with one builtin, which succeeds. -/
def trueInterpreter : Interpreter Unit where
  resolveVariables _ text := text
  resolveAlias _ text := text
  builtins := [(asciiBytes "true", fun ctx _ => (0, ctx))]
  printError world _ := world

/-- The command that the builtin stands for. -/
def trueCommand : SimpleCommand where
  words := [⟨1, .word, ⟨2, asciiBytes "true"⟩⟩]
  nonempty := by simp
  arguments := by simp [TokenType.isArgument]

/-- A conditional operator with a semicolon after it. -/
def lateSemicolonLine : CommandLine where
  first := trueCommand
  rest := [⟨.and, ⟨3, .and, ⟨4, asciiBytes "&&"⟩⟩, rfl, trueCommand⟩,
    ⟨.semicolon, ⟨5, .semicolon, ⟨6, asciiBytes ";"⟩⟩, rfl, trueCommand⟩]
  ending := some ⟨7, .eof, ⟨8, []⟩⟩
  ended := by simp

end MiraOS

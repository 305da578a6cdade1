import MiraOS.Ui.CommandLists

/-! The requests of a parse: what the parser does is decided by the answers to them. -/

namespace MiraOS

/-- Two allocators answer the requests from one count to another in the same way. -/
def Alike (supply other : Nat → Nat) (first last : Nat) : Prop :=
  ∀ n, first ≤ n → n < last → other n = supply n

/-- What a parsing function does is decided by the answers to the requests that it makes. -/
structure Decided {α : Type} (supply : Nat → Nat) (before : HeapCalls) (run : (Nat → Nat) → α)
    (calls : α → HeapCalls) : Prop where
  more : before.requests ≤ (calls (run supply)).requests
  same : ∀ {other}, Alike supply other before.requests (calls (run supply)).requests → run other = run supply

/-- Giving back a pointer makes no request. -/
theorem kfree_requests (heap : HeapCalls) (pointer : Nat) : (heap.kfree pointer).requests = heap.requests := rfl

/-- Giving back the texts of arguments makes no request. -/
theorem freeTexts_requests (texts : List HeapString) (heap : HeapCalls) :
    (texts.foldl (fun heap text => heap.kfree text.address) heap).requests = heap.requests := by
  -- Releasing asks for nothing.
  induction texts generalizing heap with
  | nil => rfl
  | cons text rest ih => exact ih _

mutual

/-- Giving back a tree makes no request. -/
theorem astFree_requests : ∀ (node : Node) (heap : HeapCalls), (astFree node heap).requests = heap.requests
  | .mk address type array children value cmd, heap => by
    have below := astFreeAll_requests children heap
    rw [astFree]
    -- Whatever the node itself holds is given back after its children.
    by_cases args : type = .command ∧ cmd.argsAddress ≠ 0
    · by_cases text : value = 0
      · simpa [args, text, kfree_requests, freeTexts_requests] using below
      · simpa [args, text, kfree_requests, freeTexts_requests] using below
    · by_cases text : value = 0
      · simpa [args, text, kfree_requests] using below
      · simpa [args, text, kfree_requests] using below

/-- Giving back several trees makes no request. -/
theorem astFreeAll_requests : ∀ (children : List Node) (heap : HeapCalls),
    (astFreeAll children heap).requests = heap.requests
  | [], _ => rfl
  | child :: rest, heap => by
    rw [astFreeAll, astFreeAll_requests rest, astFree_requests child]

end

section

variable {α β : Type} {supply : Nat → Nat} {heap : HeapCalls}

/-- A part that makes no request. -/
theorem Decided.const (value : α) {calls : α → HeapCalls} (more : heap.requests ≤ (calls value).requests) :
    Decided supply heap (fun _ => value) calls := ⟨more, fun _ => rfl⟩

/-- One part after another. -/
theorem Decided.bind {run : (Nat → Nat) → α} {calls : α → HeapCalls} {after : β → HeapCalls}
    (next : (Nat → Nat) → α → β) (first : Decided supply heap run calls)
    (second : Decided supply (calls (run supply)) (fun supply' => next supply' (run supply)) after) :
    Decided supply heap (fun supply' => next supply' (run supply')) after where
  more := Nat.le_trans first.more second.more
  same := by
    intro other alike
    -- The requests of either part are among all of them.
    have ran := first.same fun n low high => alike n low (Nat.lt_of_lt_of_le high second.more)
    have rest := second.same fun n low high => alike n (Nat.le_trans first.more low) high
    exact (congrArg (next other) ran).trans rest

/-- What follows a part that may make a node. -/
abbrev withNode (node : Option Node) (without : β) (next : Node → β) : β :=
  match node with
  | none => without
  | some made => next made

/-- A part that may make a node, and what follows with the node and without it. -/
theorem Decided.bindNode {run : (Nat → Nat) → α} {calls : α → HeapCalls} (after : β → HeapCalls)
    (node : α → Option Node) (without : α → β) (next : (Nat → Nat) → α → Node → β) (first : Decided supply heap run calls)
    (missing : node (run supply) = none → (calls (run supply)).requests ≤ (after (without (run supply))).requests)
    (found : ∀ made, node (run supply) = some made →
      Decided supply (calls (run supply)) (fun supply' => next supply' (run supply) made) after) :
    Decided supply heap (fun supply' => withNode (node (run supply')) (without (run supply')) (next supply' (run supply')))
      after := by
  refine first.bind (fun supply' value => withNode (node value) (without value) (next supply' value)) ?_
  -- Whether there is a node is settled by the first part.
  cases here : node (run supply) with
  | none => exact .const _ (missing here)
  | some made => exact found made here

/-- One request. -/
theorem kmalloc_decided (heap : HeapCalls) :
    Decided supply heap (fun supply' => heap.kmalloc supply') Prod.snd := by
  refine ⟨Nat.le_succ _, fun {other} alike => ?_⟩
  rw [HeapCalls.kmalloc, HeapCalls.kmalloc, alike _ (Nat.le_refl _) (Nat.lt_succ_self _)]

/-- A new node is one request. -/
theorem astCreateNode_decided (type : NodeType) (heap : HeapCalls) :
    Decided supply heap (fun supply' => astCreateNode supply' type heap) Prod.snd := by
  -- The node depends on the one answer it asks for.
  refine (kmalloc_decided heap).bind (fun _ answer =>
    if answer.1 = 0 then (none, answer.2) else (some (Node.mk answer.1 type 0 [] 0 {}), answer.2)) ?_
  split
  · exact .const _ (Nat.le_refl _)
  · exact .const _ (Nat.le_refl _)

/-- Adding a child is one request, if there is a child and a parent. -/
theorem astAddChild_decided (parent child : Option Node) (heap : HeapCalls) :
    Decided supply heap (fun supply' => astAddChild supply' parent child heap) Prod.snd := by
  -- A missing parent or child asks for nothing.
  cases parent with
  | none => exact .const (none, heap) (Nat.le_refl _)
  | some parent =>
    obtain ⟨address, type, array, children, value, cmd⟩ := parent
    cases child with
    | none => exact .const (some (Node.mk address type array children value cmd), heap) (Nat.le_refl _)
    | some child =>
      -- The one request is the longer child array; what follows depends on its answer only.
      refine (kmalloc_decided heap).bind (fun _ answer =>
        if answer.1 = 0 then (some (Node.mk address type array children value cmd), answer.2)
        else (some (Node.mk address type answer.1 (children ++ [child]) value cmd), answer.2.kfree array)) ?_
      split
      · exact .const _ (Nat.le_refl _)
      · exact .const _ (Nat.le_refl _)

/-- The argument loop makes a request for each larger array. -/
theorem commandLoop_decided (tokens : List Token) (argCap : Nat) (cmd : CommandData) (heap : HeapCalls) :
    Decided supply heap (fun supply' => commandLoop supply' tokens argCap cmd heap) Arguments.heap := by
  induction tokens generalizing argCap cmd heap with
  | nil => exact .const (Arguments.mk cmd [] heap) (Nat.le_refl _)
  | cons curr rest ih =>
    by_cases argument : curr.type.isArgument = true
    swap
    · simp only [commandLoop_other (eq_false_of_ne_true argument)]
      exact .const _ (Nat.le_refl _)
    by_cases full : argCap ≤ cmd.args.length
    · -- The array is full, so the answer decides whether the loop goes on.
      have turn : ∀ supply', commandLoop supply' (curr :: rest) argCap cmd heap =
          if (heap.kmalloc supply').1 = 0 then ⟨cmd, curr :: rest, (heap.kmalloc supply').2⟩
          else commandLoop supply' rest (argCap * 2)
            { cmd with args := cmd.args ++ [curr.value], argsAddress := (heap.kmalloc supply').1 }
            ((heap.kmalloc supply').2.kfree cmd.argsAddress) := by
        intro supply'
        by_cases memory : supply' heap.requests = 0
        · rw [commandLoop_stuck argument full memory]
          exact (if_pos memory).symm
        · rw [commandLoop_grow argument full memory]
          exact (if_neg memory).symm
      simp only [turn]
      refine (kmalloc_decided heap).bind (fun supply' answer =>
        if answer.1 = 0 then ⟨cmd, curr :: rest, answer.2⟩
        else commandLoop supply' rest (argCap * 2)
          { cmd with args := cmd.args ++ [curr.value], argsAddress := answer.1 }
          (answer.2.kfree cmd.argsAddress)) ?_
      split
      · exact .const _ (Nat.le_refl _)
      · -- Giving back the old array makes no request.
        have later := ih (argCap * 2)
          { cmd with args := cmd.args ++ [curr.value], argsAddress := (heap.kmalloc supply).1 }
          ((heap.kmalloc supply).2.kfree cmd.argsAddress)
        exact ⟨later.more, later.same⟩
    · simp only [commandLoop_store argument full]
      exact ih ..

/-- The requests of a command are those for its node, its array and the larger ones. -/
theorem parseCommand_decided (tokens : List Token) (heap : HeapCalls) :
    Decided supply heap (fun supply' => parseCommand supply' tokens heap) Parsed.heap := by
  cases tokens with
  | nil => exact .const (Parsed.mk none [] heap) (Nat.le_refl _)
  | cons curr rest =>
    by_cases ends : curr.type = .eof
    · simp only [parseCommand, if_pos ends]
      exact .const _ (Nat.le_refl _)
    simp only [parseCommand, if_neg ends]
    refine (astCreateNode_decided .command heap).bindNode Parsed.heap Prod.fst
      (fun made => Parsed.mk none (curr :: rest) made.2)
      (fun supply' made cmd =>
        if (made.2.kmalloc supply').1 = 0 then
          Parsed.mk none (curr :: rest) (astFree cmd (made.2.kmalloc supply').2)
        else
          let taken := commandLoop supply' (curr :: rest) 8
            { cmd.cmd with argsAddress := (made.2.kmalloc supply').1 } (made.2.kmalloc supply').2
          Parsed.mk (some (cmd.setCmd taken.cmd)) taken.tokens taken.heap) (fun _ => Nat.le_refl _) fun cmd _ => ?_
    refine (kmalloc_decided _).bind (fun supply' args =>
      if args.1 = 0 then Parsed.mk none (curr :: rest) (astFree cmd args.2)
      else
        let taken := commandLoop supply' (curr :: rest) 8 { cmd.cmd with argsAddress := args.1 } args.2
        Parsed.mk (some (cmd.setCmd taken.cmd)) taken.tokens taken.heap) ?_
    -- Without an array the node is given back, and the argument loop never starts.
    split
    · exact .const _ (Nat.le_of_eq (astFree_requests ..).symm)
    · refine (commandLoop_decided _ 8 _ _).bind (fun _ taken =>
        Parsed.mk (some (cmd.setCmd taken.cmd)) taken.tokens taken.heap) ?_
      exact .const _ (Nat.le_refl _)

/-- The requests of the loop of a pipeline are those of its commands, and one for each child. -/
theorem pipelineLoop_decided (pipeline : Option Node) (tokens : List Token) (heap : HeapCalls) :
    Decided supply heap (fun supply' => pipelineLoop supply' pipeline tokens heap) Parsed.heap := by
  -- Each turn asks for a command, and for a larger array of children if there is one.
  fun_induction pipelineLoop supply pipeline tokens heap with
  | case1 =>
    simp only [pipelineLoop]
    exact .const _ (Nat.le_refl _)
  | case2 pipeline heap bar rest bars parsed missing =>
    simp only [pipelineLoop, if_pos bars]
    exact (parseCommand_decided rest heap).bindNode Parsed.heap Parsed.node
      (fun parsed => Parsed.mk pipeline parsed.tokens parsed.heap)
      (fun supply' parsed cmd => pipelineLoop supply' (astAddChild supply' pipeline (some cmd) parsed.heap).1
        parsed.tokens (astAddChild supply' pipeline (some cmd) parsed.heap).2)
      (fun _ => Nat.le_refl _) fun cmd there => absurd (there.symm.trans missing) (Option.some_ne_none cmd)
  | case3 pipeline heap bar rest bars parsed cmd found added ih =>
    simp only [pipelineLoop, if_pos bars]
    refine (parseCommand_decided rest heap).bindNode Parsed.heap Parsed.node
      (fun parsed => Parsed.mk pipeline parsed.tokens parsed.heap)
      (fun supply' parsed cmd => pipelineLoop supply' (astAddChild supply' pipeline (some cmd) parsed.heap).1
        parsed.tokens (astAddChild supply' pipeline (some cmd) parsed.heap).2)
      (fun _ => Nat.le_refl _) fun other there => ?_
    obtain rfl := Option.some.inj (found.symm.trans there)
    exact (astAddChild_decided ..).bind (fun supply' added => pipelineLoop supply' added.1 _ added.2) ih
  | case4 _ _ bar rest other =>
    simp only [pipelineLoop, if_neg other]
    exact .const _ (Nat.le_refl _)

/-- The requests of a pipeline are that for its node and those of its commands. -/
theorem parsePipeline_decided (tokens : List Token) (heap : HeapCalls) :
    Decided supply heap (fun supply' => parsePipeline supply' tokens heap) Parsed.heap := by
  -- The node is asked for first, then the first command, then the array for it.
  refine (astCreateNode_decided .pipeline heap).bindNode Parsed.heap Prod.fst (fun made => Parsed.mk none tokens made.2)
    (fun supply' made pipeline => withNode (parseCommand supply' tokens made.2).node
      (Parsed.mk none (parseCommand supply' tokens made.2).tokens
        (astFree pipeline (parseCommand supply' tokens made.2).heap))
      fun cmd =>
        let added := astAddChild supply' (some pipeline) (some cmd) (parseCommand supply' tokens made.2).heap
        pipelineLoop supply' added.1 (parseCommand supply' tokens made.2).tokens added.2)
    (fun _ => Nat.le_refl _) fun pipeline _ => ?_
  refine (parseCommand_decided tokens _).bindNode Parsed.heap Parsed.node
    (fun parsed => Parsed.mk none parsed.tokens (astFree pipeline parsed.heap))
    (fun supply' parsed cmd =>
      let added := astAddChild supply' (some pipeline) (some cmd) parsed.heap
      pipelineLoop supply' added.1 parsed.tokens added.2)
    (fun _ => Nat.le_of_eq (astFree_requests ..).symm) fun cmd _ => ?_
  exact (astAddChild_decided ..).bind (fun supply' added => pipelineLoop supply' added.1 _ added.2)
    (pipelineLoop_decided ..)

/-- The requests of an expression are those of what is inside its parentheses, or of a pipeline. -/
theorem parseExpression_decided (tokens : List Token) (heap : HeapCalls) :
    Decided supply heap (fun supply' => parseExpression supply' tokens heap) Parsed.heap := by
  induction tokens generalizing heap with
  | nil => exact .const (Parsed.mk none [] heap) (Nat.le_refl _)
  | cons curr rest ih =>
    by_cases opens : curr.type = .lparen
    swap
    · simp only [parseExpression, if_neg opens]
      exact parsePipeline_decided ..
    simp only [parseExpression, if_pos opens]
    refine (astCreateNode_decided .subshell heap).bind (fun supply' made =>
      let inner := parseExpression supply' rest made.2
      let added := if inner.node.isSome then astAddChild supply' made.1 inner.node inner.heap
        else (made.1, inner.heap)
      Parsed.mk added.1 (skipToken .rparen inner.tokens) added.2) ?_
    refine (ih _).bind (fun supply' inner =>
      let added := if inner.node.isSome then
          astAddChild supply' (astCreateNode supply .subshell heap).1 inner.node inner.heap
        else ((astCreateNode supply .subshell heap).1, inner.heap)
      Parsed.mk added.1 (skipToken .rparen inner.tokens) added.2) ?_
    dsimp only
    -- An empty pair of parentheses has no child to add.
    split
    · refine (astAddChild_decided ..).bind (fun _ added => Parsed.mk added.1 _ added.2) ?_
      exact .const _ (Nat.le_refl _)
    · exact .const _ (Nat.le_refl _)

/-- Joining two trees makes the requests for the new node and its children. -/
theorem joinNodes_decided (type : NodeType) (seq next : Option Node) (heap : HeapCalls) :
    Decided supply heap (fun supply' => joinNodes supply' type seq next heap) Prod.snd := by
  -- A new node and the slots for its two children, each asked for in turn.
  refine (astCreateNode_decided type heap).bind (fun supply' made =>
    let first := astAddChild supply' made.1 seq made.2
    astAddChild supply' first.1 next first.2) ?_
  exact (astAddChild_decided ..).bind (fun supply' first => astAddChild supply' first.1 next first.2)
    (astAddChild_decided ..)

/-- The requests of the loop over a list are those of its expressions and of joining them. -/
theorem sequenceLoop_decided (seq : Option Node) (tokens : List Token) (heap : HeapCalls) :
    Decided supply heap (fun supply' => sequenceLoop supply' seq tokens heap) Parsed.heap := by
  -- Each turn asks for an expression, and for what joins it to the tree so far.
  fun_induction sequenceLoop supply seq tokens heap with
  | case1 =>
    simp only [sequenceLoop]
    exact .const _ (Nat.le_refl _)
  | case2 seq heap op rest joins parsed missing =>
    simp only [sequenceLoop, if_pos joins]
    exact (parseExpression_decided rest heap).bindNode Parsed.heap Parsed.node
      (fun parsed => Parsed.mk seq parsed.tokens parsed.heap)
      (fun supply' parsed next =>
        let joined := if op.type = TokenType.and then joinNodes supply' NodeType.and seq (some next) parsed.heap
          else if op.type = TokenType.or then joinNodes supply' NodeType.or seq (some next) parsed.heap
          else astAddChild supply' seq (some next) parsed.heap
        sequenceLoop supply' joined.1 parsed.tokens joined.2)
      (fun _ => Nat.le_refl _) fun next there => absurd (there.symm.trans missing) (Option.some_ne_none next)
  | case3 seq heap op rest joins parsed next found joined ih =>
    simp only [sequenceLoop, if_pos joins]
    refine (parseExpression_decided rest heap).bindNode Parsed.heap Parsed.node
      (fun parsed => Parsed.mk seq parsed.tokens parsed.heap)
      (fun supply' parsed next =>
        let joined := if op.type = TokenType.and then joinNodes supply' NodeType.and seq (some next) parsed.heap
          else if op.type = TokenType.or then joinNodes supply' NodeType.or seq (some next) parsed.heap
          else astAddChild supply' seq (some next) parsed.heap
        sequenceLoop supply' joined.1 parsed.tokens joined.2)
      (fun _ => Nat.le_refl _) fun other there => ?_
    obtain rfl := Option.some.inj (found.symm.trans there)
    refine @Decided.bind _ _ _ _ (fun supply' =>
        if op.type = TokenType.and then joinNodes supply' NodeType.and seq (some next) (parseExpression supply rest heap).heap
        else if op.type = TokenType.or then joinNodes supply' NodeType.or seq (some next) (parseExpression supply rest heap).heap
        else astAddChild supply' seq (some next) (parseExpression supply rest heap).heap)
      Prod.snd _ (fun supply' joined => sequenceLoop supply' joined.1 _ joined.2) ?_ ih
    split
    · exact joinNodes_decided ..
    · split
      · exact joinNodes_decided ..
      · exact astAddChild_decided ..
  | case4 _ _ op rest alone =>
    simp only [sequenceLoop, if_neg alone]
    exact .const _ (Nat.le_refl _)

/-- A mark for the background makes no request. -/
theorem takeBackground_heap (whole : Parsed) : (takeBackground whole).heap = whole.heap := by
  fun_cases takeBackground whole <;> rfl

/-- The requests of a parse. -/
theorem parseTokens_decided (tokens : List Token) (heap : HeapCalls) :
    Decided supply heap (fun supply' => parseTokens supply' tokens heap) Parsed.heap := by
  -- The parser asks for the root list, the first expression and its slot, then for the rest of the list.
  refine (astCreateNode_decided .sequence heap).bindNode Parsed.heap Prod.fst (fun made => Parsed.mk none tokens made.2)
    (fun supply' made seq => withNode (parseExpression supply' tokens made.2).node
      (Parsed.mk none (parseExpression supply' tokens made.2).tokens
        (astFree seq (parseExpression supply' tokens made.2).heap))
      fun expr =>
        let added := astAddChild supply' (some seq) (some expr) (parseExpression supply' tokens made.2).heap
        takeBackground (sequenceLoop supply' added.1 (parseExpression supply' tokens made.2).tokens added.2))
    (fun _ => Nat.le_refl _) fun seq _ => ?_
  -- Without an expression the list is given back, which asks for nothing.
  refine (parseExpression_decided tokens _).bindNode Parsed.heap Parsed.node
    (fun parsed => Parsed.mk none parsed.tokens (astFree seq parsed.heap))
    (fun supply' parsed expr =>
      let added := astAddChild supply' (some seq) (some expr) parsed.heap
      takeBackground (sequenceLoop supply' added.1 parsed.tokens added.2))
    (fun _ => Nat.le_of_eq (astFree_requests ..).symm) fun expr _ => ?_
  refine (astAddChild_decided ..).bind (fun supply' added =>
    takeBackground (sequenceLoop supply' added.1 _ added.2)) ?_
  refine (sequenceLoop_decided ..).bind (fun _ whole => takeBackground whole) ?_
  -- Marking the background job asks for nothing.
  exact .const _ (Nat.le_of_eq (congrArg HeapCalls.requests (takeBackground_heap _).symm))

end

end MiraOS

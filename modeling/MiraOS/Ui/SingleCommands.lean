import MiraOS.Ui.CommandLists
import MiraOS.Ui.Executor

/-! A line whose tokens join nothing runs at most one command, whatever memory there is for its tree. -/

namespace MiraOS

/-- The token neither joins commands nor opens a parenthesis nor sends a list to the background. -/
def TokenType.joinsNothing : TokenType → Bool
  | .word | .string | .number | .operator | .eof => true
  | _ => false

/-- The tokens of a line of one command. -/
def JoinsNothing (tokens : List Token) : Prop := ∀ token ∈ tokens, token.type.joinsNothing = true

/-- The arguments are those at the front of the tokens. -/
def ArgumentsOf (tokens : List Token) (args : List HeapString) : Prop :=
  ∃ front, front <+: tokens ∧ (∀ token ∈ front, token.type.isArgument = true) ∧
    args = front.map fun token => token.value

/-- A walk of the node runs at most one command, with arguments at the front of the tokens. -/
def RunsOne {World : Type} (interp : Interpreter World) (tokens : List Token) (node : Node) : Prop :=
  ∀ ctx, (shellExecuteAst interp node ctx).ctx.world = ctx.world ∨
    ∃ command cmdName more, ArgumentsOf tokens (cmdName :: more) ∧ command.cmd.args = cmdName :: more ∧
      (shellExecuteAst interp node ctx).ctx.world =
        (executeCommandNode interp command cmdName ctx).2.world

/-- The argument loop takes arguments from the front of the tokens. -/
theorem commandLoop_front (supply : Nat → Nat) (tokens : List Token) (argCap : Nat) (cmd : CommandData)
    (heap : HeapCalls) :
    ∃ args, ArgumentsOf tokens args ∧
      (commandLoop supply tokens argCap cmd heap).cmd.args = cmd.args ++ args := by
  -- Nothing is taken where the loop stops.
  have nothing : ∀ tokens, ArgumentsOf tokens [] :=
    fun tokens => ⟨[], List.nil_prefix, fun _ among => absurd among List.not_mem_nil, rfl⟩
  -- Each turn that stores an argument puts it before those of the turns behind it.
  have store : ∀ {curr : Token} {rest : List Token} {args : List HeapString}, curr.type.isArgument = true →
      ArgumentsOf rest args → ArgumentsOf (curr :: rest) (curr.value :: args) := by
    rintro curr rest args argument ⟨front, start, arguments, same⟩
    refine ⟨curr :: front, List.cons_prefix_cons.mpr ⟨rfl, start⟩, ?_, by rw [same, List.map_cons]⟩
    exact List.forall_mem_cons.mpr ⟨argument, arguments⟩
  induction tokens generalizing argCap cmd heap with
  | nil => exact ⟨[], nothing [], by rw [commandLoop, List.append_nil]⟩
  | cons curr rest ih =>
    -- An argument is stored, in a larger array if need be; without memory, or at any other token, the loop
    -- stops.
    by_cases argument : curr.type.isArgument = true
    · by_cases full : argCap ≤ cmd.args.length
      · by_cases memory : supply heap.requests = 0
        · rw [commandLoop_stuck argument full memory]
          exact ⟨[], nothing _, by rw [List.append_nil]⟩
        · rw [commandLoop_grow argument full memory]
          obtain ⟨args, taken, stored⟩ := ih (argCap * 2)
            { cmd with args := cmd.args ++ [curr.value], argsAddress := supply heap.requests }
            ⟨heap.requests + 1, heap.freed ++ [cmd.argsAddress]⟩
          exact ⟨curr.value :: args, store argument taken, by rw [stored, List.append_assoc]; rfl⟩
      · rw [commandLoop_store argument full]
        obtain ⟨args, taken, stored⟩ := ih argCap { cmd with args := cmd.args ++ [curr.value] } heap
        exact ⟨curr.value :: args, store argument taken, by rw [stored, List.append_assoc]; rfl⟩
    · rw [commandLoop_other (by simpa using argument)]
      exact ⟨[], nothing _, by rw [List.append_nil]⟩

section

variable {World : Type} {interp : Interpreter World} {tokens : List Token}

/-- A command with arguments at the front of the tokens. -/
theorem runsOne_command {address childrenAddress value : Nat} {children : List Node} {cmd : CommandData}
    (taken : ArgumentsOf tokens cmd.args) :
    RunsOne interp tokens (.mk address .command childrenAddress children value cmd) := by
  intro ctx
  rw [shellExecuteAst]
  -- Without arguments nothing runs.
  cases args : cmd.args with
  | nil => exact .inl rfl
  | cons cmdName more =>
    rw [args] at taken
    exact .inr
      ⟨.mk address .command childrenAddress children value cmd, cmdName, more, taken, args, rfl⟩

/-- A pipeline or a sequence without children, or with one that runs at most one command. -/
theorem runsOne_parent {type : NodeType} (listed : type = .pipeline ∨ type = .sequence)
    {address childrenAddress value : Nat} {children : List Node} {cmd : CommandData}
    (few : children = [] ∨ ∃ child, children = [child] ∧ RunsOne interp tokens child) :
    RunsOne interp tokens (.mk address type childrenAddress children value cmd) := by
  intro ctx
  -- The loops over the children keep what the only child leaves, but for the last status.
  have walked : ∀ child,
      (shellExecuteAst interp (.mk address type childrenAddress [child] value cmd) ctx).ctx.world =
        (shellExecuteAst interp child ctx).ctx.world := by
    intro child
    rcases listed with rfl | rfl
    · rw [shellExecuteAst, executePipeline, executePipeline]
    · rw [shellExecuteAst, executeSequence, executeSequence]
  rcases few with rfl | ⟨child, rfl, runs⟩
  · rcases listed with rfl | rfl
    · exact .inl (by rw [shellExecuteAst, executePipeline])
    · exact .inl (by rw [shellExecuteAst, executeSequence])
  · rw [walked]
    exact runs ctx

/-- A child added to a fresh pipeline or sequence. -/
theorem astAddChild_runsOne (interp : Interpreter World) {supply : Nat → Nat} {type : NodeType}
    {address : Nat} {child : Node} {heap : HeapCalls} (listed : type = .pipeline ∨ type = .sequence)
    (runs : RunsOne interp tokens child) :
    ∃ node, (astAddChild supply (some (.mk address type 0 [] 0 {})) (some child) heap).1 = some node ∧
      RunsOne interp tokens node := by
  -- Without memory for the array the child is lost.
  by_cases memory : supply heap.requests = 0
  · exact ⟨_, astAddChild_denied _ _ memory, runsOne_parent listed (.inl rfl)⟩
  · refine ⟨.mk address type (supply heap.requests) [child] 0 {}, congrArg Prod.fst (if_neg memory), ?_⟩
    exact runsOne_parent listed (.inr ⟨child, rfl, runs⟩)

/-- A simple command. -/
theorem parseCommand_runsOne (supply : Nat → Nat) (heap : HeapCalls) :
    ∀ node ∈ (parseCommand supply tokens heap).node, RunsOne interp tokens node := by
  -- The end gives no command, and neither does a lack of memory for the node or its array.
  intro node found
  cases tokens with
  | nil => cases found
  | cons curr rest =>
    by_cases ends : curr.type = .eof
    · rw [parseCommand, if_pos ends] at found
      cases found
    · by_cases memory : supply heap.requests ≠ 0 ∧ supply (heap.requests + 1) ≠ 0
      · rw [parseCommand_granted ends memory.1 memory.2] at found
        obtain rfl := Option.some.inj found
        obtain ⟨args, taken, stored⟩ := commandLoop_front supply (curr :: rest) 8
          { argsAddress := supply (heap.requests + 1) } ⟨heap.requests + 2, heap.freed⟩
        rw [List.nil_append] at stored
        exact runsOne_command (stored ▸ taken)
      · rw [(parseCommand_denied ends memory).1] at found
        cases found

/-- Tokens left of a line that joins nothing join nothing. -/
theorem JoinsNothing.suffix {left : List Token} (plain : JoinsNothing tokens) (rest : left <:+ tokens) :
    JoinsNothing left :=
  fun token among => plain token (rest.subset among)

/-- The loop of a pipeline finds no bar. -/
theorem pipelineLoop_joinsNothing (supply : Nat → Nat) (pipeline : Option Node) (heap : HeapCalls)
    (plain : JoinsNothing tokens) :
    pipelineLoop supply pipeline tokens heap = ⟨pipeline, tokens, heap⟩ := by
  cases tokens with
  | nil => rw [pipelineLoop]
  | cons curr rest =>
    -- A bar would join commands, which no token here does.
    have noBar : curr.type ≠ .pipe := by
      intro bar
      have joins := plain curr List.mem_cons_self
      rw [bar] at joins
      cases joins
    rw [pipelineLoop, if_neg noBar]

/-- The loop of a list finds no operator. -/
theorem sequenceLoop_joinsNothing (supply : Nat → Nat) (seq : Option Node) (heap : HeapCalls)
    (plain : JoinsNothing tokens) :
    sequenceLoop supply seq tokens heap = ⟨seq, tokens, heap⟩ := by
  cases tokens with
  | nil => rw [sequenceLoop]
  | cons op rest =>
    -- An operator would join commands, which no token here does.
    have noOperator : ¬ op.type.joinsCommands = true := by
      have joins := plain op List.mem_cons_self
      revert joins
      cases op.type <;> decide
    rw [sequenceLoop, if_neg noOperator]

/-- Nothing is sent to the background. -/
theorem takeBackground_joinsNothing (node : Option Node) (heap : HeapCalls) (plain : JoinsNothing tokens) :
    takeBackground ⟨node, tokens, heap⟩ = ⟨node, tokens, heap⟩ := by
  cases tokens with
  | nil => rfl
  | cons curr rest =>
    -- The background mark joins commands too, so it is not there.
    refine if_neg fun background => ?_
    have joins := plain curr List.mem_cons_self
    rw [background] at joins
    cases joins

/-- A pipeline of a line that joins nothing. -/
theorem parsePipeline_runsOne (supply : Nat → Nat) (heap : HeapCalls) (plain : JoinsNothing tokens) :
    ∀ node ∈ (parsePipeline supply tokens heap).node, RunsOne interp tokens node := by
  intro node found
  by_cases memory : supply heap.requests = 0
  · simp only [parsePipeline, astCreateNode_denied .pipeline memory] at found
    cases found
  · simp only [parsePipeline, astCreateNode_granted .pipeline memory] at found
    -- The command is all there is, and it may be lost again for want of an array.
    cases parsed : (parseCommand supply tokens ⟨heap.requests + 1, heap.freed⟩).node with
    | none =>
      rw [parsed] at found
      cases found
    | some command =>
      have runs : RunsOne interp tokens command := parseCommand_runsOne supply _ command parsed
      simp only [parsed] at found
      rw [pipelineLoop_joinsNothing supply _ _ (plain.suffix (parseCommand_suffix ..))] at found
      obtain ⟨pipeline, added, one⟩ := astAddChild_runsOne interp (.inl rfl) runs
      rw [added] at found
      obtain rfl := Option.some.inj found
      exact one

/-- The tree of a line that joins nothing runs at most one command. -/
theorem parseTokens_runsOne (supply : Nat → Nat) (heap : HeapCalls) (plain : JoinsNothing tokens) :
    ∀ node ∈ (parseTokens supply tokens heap).node, RunsOne interp tokens node := by
  intro node found
  rw [parseTokens] at found
  by_cases memory : supply heap.requests = 0
  · simp only [parseSequence, astCreateNode_denied .sequence memory] at found
    cases found
  · simp only [parseSequence, astCreateNode_granted .sequence memory] at found
    cases parsed : (parseExpression supply tokens ⟨heap.requests + 1, heap.freed⟩).node with
    | none =>
      rw [parsed] at found
      cases found
    | some expr =>
      -- No parenthesis opens, so the expression is a pipeline.
      have runs : RunsOne interp tokens expr := by
        cases tokens with
        | nil =>
          rw [parseExpression] at parsed
          cases parsed
        | cons curr rest =>
          have noParenthesis : curr.type ≠ .lparen := by
            intro opens
            have joins := plain curr List.mem_cons_self
            rw [opens] at joins
            cases joins
          rw [parseExpression, if_neg noParenthesis] at parsed
          exact parsePipeline_runsOne supply _ plain expr parsed
      have left := plain.suffix (parseExpression_suffix supply tokens ⟨heap.requests + 1, heap.freed⟩)
      simp only [parsed] at found
      rw [sequenceLoop_joinsNothing supply _ _ left, takeBackground_joinsNothing _ _ left] at found
      obtain ⟨seq, added, one⟩ := astAddChild_runsOne interp (.inr rfl) runs
      rw [added] at found
      obtain rfl := Option.some.inj found
      exact one

end

end MiraOS

import Mathlib.Data.List.Induction
import MiraOS.Ui.ExecutorLaws
import MiraOS.Ui.Tokenizer
import MiraOS.Ui.TreeShapes

/-! When ui/shell.c records the status that a command line returns. -/

namespace MiraOS

open Machine

mutual

/-- A walk of the node ends with a command that has arguments, and returns its status. -/
def Node.answers : Node → Bool
  | .mk _ type _ children _ cmd =>
    match type with
    | .command => !cmd.args.isEmpty
    | .sequence | .pipeline => answersLast children
    | .subshell =>
      match children with
      | [] => false
      | first :: _ => first.answers
    | _ => false

/-- The last of several trees ends with such a command. -/
def answersLast : List Node → Bool
  | [] => false
  | [child] => child.answers
  | _ :: second :: rest => answersLast (second :: rest)

end

/-- No command of the list has arguments, but for those behind an operator that is never satisfied. -/
def Node.RunsNothing : Node → Prop
  | .mk _ type _ children _ _ =>
    match type, children with
    | .sequence, children => children ≠ [] ∧ reachAll children = 0
    | .and, first :: second :: _ => first.RunsNothing ∧ second.reach = 0
    -- The status is zero, so the second side of a disjunction is left out.
    | .or, first :: _ :: _ => first.RunsNothing
    | _, _ => False

/-- The list ends with a command that has arguments, but for empty sides of conjunctions behind it. -/
def Node.EndsAnswering : Node → Prop
  | .mk _ type _ children _ _ =>
    match type, children with
    | .sequence, children => answersLast children = true
    | .and, first :: second :: _ => first.EndsAnswering ∧ second.reach = 0
    | _, _ => False

/-- The condition on a tree under which its status is recorded. -/
def Node.RecordsStatus (node : Node) : Prop := node.RunsNothing ∨ node.EndsAnswering

/-- The recorded status is this one, and so is that of the last command that ran, if any. -/
def RecordedAs (recorded : Int) (ran : List Ran) (status : Int) : Prop :=
  recorded = status ∧ ∀ last ∈ ran.getLast?, last.2 = status

/-- After a walk the recorded status is the one returned, which is that of the last command that ran. -/
def Outcome.Recorded {World : Type} (outcome : Outcome World) : Prop :=
  RecordedAs outcome.ctx.lastExitStatus outcome.ran outcome.status

/-- No builtin sets the recorded status itself. -/
def Interpreter.KeepsStatus {World : Type} (interp : Interpreter World) : Prop :=
  ∀ builtin ∈ interp.builtins, ∀ ctx node, (builtin.2 ctx node).2.lastExitStatus = ctx.lastExitStatus

section

variable {World : Type} {interp : Interpreter World}

/-- The last tree of a list is the one that counts. -/
theorem answersLast_snoc (front : List Node) (last : Node) : answersLast (front ++ [last]) = last.answers := by
  -- The recursion looks for the last tree, so the front is taken off one by one.
  induction front with
  | nil => rw [List.nil_append, answersLast]
  | cons first rest ih =>
    cases rest with
    | nil => rw [List.singleton_append, answersLast, answersLast]
    | cons second more =>
      rw [List.cons_append, List.cons_append, answersLast]
      exact ih

/-- A walk that leaves the recorded status, of a tree that ends with a command with arguments or not. -/
structure PlainWalk (answers : Bool) (reach : Nat) (before : Int) (outcome : Outcome World) : Prop where
  kept : outcome.ctx.lastExitStatus = before
  answered : answers = true → ∃ last ∈ outcome.ran.getLast?, last.2 = outcome.status
  silent : answers = false → outcome.status = 0
  idle : outcome.ran = [] ↔ reach = 0

/-- A simple command. -/
theorem command_walk (keeps : interp.KeepsStatus) {node : Node} (command : node.IsCommand)
    (ctx : ShellCtx World) :
    PlainWalk node.answers node.reach ctx.lastExitStatus (shellExecuteAst interp node ctx) := by
  obtain ⟨address, type, array, children, value, cmd⟩ := node
  obtain ⟨rfl, -⟩ := command
  cases args : cmd.args with
  | nil =>
    -- Without arguments nothing runs.
    simp only [shellExecuteAst, args, Node.answers, Node.reach]
    exact ⟨rfl, by simp, by simp, by simp⟩
  | cons cmdName more =>
    simp only [shellExecuteAst, args, Node.answers, Node.reach]
    refine ⟨?_, by simp, by simp, by simp⟩
    rw [executeCommandNode]
    dsimp only
    -- A name that is not found returns a status without a call.
    split
    · next builtin found => exact keeps _ (List.mem_of_find?_eq_some found) _ _
    · rfl

/-- Commands run before those of a walk do not change what is last, if the walk runs any. -/
theorem PlainWalk.behind {answers : Bool} {reach more : Nat} {before : Int} {outcome : Outcome World}
    (walk : PlainWalk answers reach before outcome) {ran : List Ran} (idle : ran = [] ↔ more = 0) :
    PlainWalk answers (more + reach) before { outcome with ran := ran ++ outcome.ran } where
  kept := walk.kept
  answered asked := by
    obtain ⟨last, among, same⟩ := walk.answered asked
    refine ⟨last, ?_, same⟩
    -- What was run before stands in front, so the last entry is still the one that answered.
    rw [List.getLast?_append, Option.mem_def.mp among]
    rfl
  silent := walk.silent
  idle := by
    -- Nothing ran on either side exactly if nothing was reached on either side.
    rw [List.append_eq_nil_iff, idle, walk.idle]
    omega

/-- A walk without arguments runs nothing and returns zero. -/
theorem PlainWalk.nothing {answers : Bool} {before : Int} {outcome : Outcome World}
    (walk : PlainWalk answers 0 before outcome) : outcome.ran = [] ∧ outcome.status = 0 := by
  have ran := walk.idle.mpr rfl
  refine ⟨ran, ?_⟩
  -- A command with arguments would have run.
  cases answers with
  | true =>
    obtain ⟨last, among, -⟩ := walk.answered rfl
    rw [ran] at among
    cases among
  | false => exact walk.silent rfl

/-- A pipeline of simple commands. -/
theorem pipeline_walk (keeps : interp.KeepsStatus) {children : List Node}
    (commands : ∀ child ∈ children, child.IsCommand) (ctx : ShellCtx World) :
    PlainWalk (answersLast children) (reachAll children) ctx.lastExitStatus
      (executePipeline interp children 0 ctx) := by
  -- The last command is the one whose status is returned.
  induction children using List.reverseRecOn with
  | nil => exact ⟨rfl, by simp [answersLast], by simp [executePipeline], by simp [executePipeline, reachAll]⟩
  | append_singleton front last ih =>
    have earlier := ih fun child among => commands child (List.mem_append_left _ among)
    have here := command_walk keeps (commands last (by simp)) (executePipeline interp front 0 ctx).ctx
    rw [earlier.kept] at here
    rw [executePipeline_snoc, answersLast_snoc, reachAll_append, reachAll, reachAll, Nat.add_zero]
    exact here.behind earlier.idle

/-- An expression. -/
theorem expression_walk (keeps : interp.KeepsStatus) {node : Node} (expression : node.IsExpression)
    (ctx : ShellCtx World) :
    PlainWalk node.answers node.reach ctx.lastExitStatus (shellExecuteAst interp node ctx) := by
  -- Parentheses have the walk of what is inside them.
  induction expression with
  | @pipeline node kind commands =>
    obtain ⟨address, type, array, children, value, cmd⟩ := node
    obtain rfl : type = .pipeline := kind
    rw [shellExecuteAst, Node.answers, Node.reach]
    exact pipeline_walk keeps commands ctx
  | @parentheses node kind inside ih =>
    obtain ⟨address, type, array, children, value, cmd⟩ := node
    obtain rfl : type = .subshell := kind
    cases children with
    | nil => exact ⟨rfl, by simp [Node.answers], by simp [shellExecuteAst], by simp [shellExecuteAst, Node.reach]⟩
    | cons first rest =>
      rw [shellExecuteAst, Node.answers, Node.reach]
      exact ih first List.mem_cons_self

/-- The loop of a sequence records the status of its last expression. -/
theorem sequence_walk (keeps : interp.KeepsStatus) {children : List Node}
    (expressions : ∀ child ∈ children, child.IsExpression) (some : children ≠ []) (ctx : ShellCtx World) :
    PlainWalk (answersLast children) (reachAll children) (executeSequence interp children 0 ctx).status
      (executeSequence interp children 0 ctx) := by
  induction children using List.reverseRecOn with
  | nil => exact absurd rfl some
  | append_singleton front last ih =>
    -- What the earlier expressions ran is only needed for whether anything ran.
    have idle : (executeSequence interp front 0 ctx).ran = [] ↔ reachAll front = 0 := by
      by_cases empty : front = []
      · simp [empty, executeSequence, reachAll]
      · exact (ih (fun child among => expressions child (List.mem_append_left _ among)) empty).idle
    have here := expression_walk keeps (expressions last (by simp)) (executeSequence interp front 0 ctx).ctx
    rw [executeSequence_snoc, answersLast_snoc, reachAll_append, reachAll, reachAll, Nat.add_zero]
    have whole := here.behind idle
    exact ⟨rfl, whole.answered, whole.silent, whole.idle⟩

/-- An expression is not a list. -/
theorem Node.IsExpression.notList {node : Node} (expression : node.IsExpression) :
    ¬ node.RunsNothing ∧ ¬ node.EndsAnswering := by
  obtain ⟨address, type, array, children, value, cmd⟩ := node
  -- A pipeline or a pair of parentheses is neither kind of list.
  cases expression with
  | pipeline kind | parentheses kind =>
    obtain rfl := kind
    exact ⟨fun none => none, fun ends => ends⟩

/-- An operator that is short of a side is not a list either. -/
theorem notList_of_short {address array value : Nat} {type : NodeType} {children : List Node} {cmd : CommandData}
    (joins : type.Joins) (few : children.length < 2) :
    ¬ (Node.mk address type array children value cmd).RunsNothing ∧
      ¬ (Node.mk address type array children value cmd).EndsAnswering := by
  -- A list with a second side would have two children.
  rcases children with _ | ⟨first, _ | ⟨second, rest⟩⟩
  · rcases joins with rfl | rfl <;> exact ⟨fun none => none, fun ends => ends⟩
  · rcases joins with rfl | rfl <;> exact ⟨fun none => none, fun ends => ends⟩
  · simp only [List.length_cons] at few
    omega

/-- A list that runs nothing returns zero and records it. -/
theorem runsNothing_walk (keeps : interp.KeepsStatus) {node : Node} (list : node.IsList)
    (nothing : node.RunsNothing) (ctx : ShellCtx World) :
    (shellExecuteAst interp node ctx).status = 0 ∧ (shellExecuteAst interp node ctx).ran = [] ∧
      (shellExecuteAst interp node ctx).ctx.lastExitStatus = 0 := by
  induction list using Node.IsList.sides generalizing ctx with
  | sequence list expressions =>
    -- A sequence of expressions without arguments records its zero.
    obtain ⟨some, idle⟩ := nothing
    have walk := sequence_walk keeps expressions some ctx
    rw [idle] at walk
    obtain ⟨ran, status⟩ := walk.nothing
    rw [shellExecuteAst]
    exact ⟨status, ran, walk.kept.trans status⟩
  | short list joins few => exact absurd nothing (notList_of_short joins few).1
  | @both _ _ _ first second _ _ _ list joins expression left =>
    rcases joins with rfl | rfl
    · obtain ⟨nothing, idle⟩ := nothing
      rcases left with other | ⟨-, ih⟩
      · exact absurd nothing other.notList.1
      -- The second side runs, and does nothing.
      obtain ⟨status, ran, recorded⟩ := ih nothing ctx
      have walk := expression_walk keeps expression (shellExecuteAst interp first ctx).ctx
      rw [idle] at walk
      obtain ⟨nothingRan, zero⟩ := walk.nothing
      rw [shellExecuteAst]
      simp only [status, if_true, ran, List.nil_append]
      exact ⟨zero, nothingRan, walk.kept.trans recorded⟩
    · rcases left with other | ⟨-, ih⟩
      · exact absurd nothing other.notList.1
      obtain ⟨status, ran, recorded⟩ := ih nothing ctx
      -- The first side succeeds, so the second one is left out.
      have skipped : ¬ (shellExecuteAst interp first ctx).status ≠ 0 := by simp [status]
      simp only [shellExecuteAst, if_neg skipped]
      exact ⟨status, ran, recorded⟩

/-- A list that ends with a command that has arguments records the status of that command, and returns it. -/
theorem endsAnswering_walk (keeps : interp.KeepsStatus) {node : Node} (list : node.IsList)
    (ends : node.EndsAnswering) (ctx : ShellCtx World) :
    (shellExecuteAst interp node ctx).ctx.lastExitStatus = (shellExecuteAst interp node ctx).status ∧
      ∃ last ∈ (shellExecuteAst interp node ctx).ran.getLast?,
        last.2 = (shellExecuteAst interp node ctx).status := by
  induction list using Node.IsList.sides generalizing ctx with
  | @sequence _ _ children _ _ list expressions =>
    -- In a sequence the last status is recorded and returned.
    have answers : answersLast children = true := ends
    have some : children ≠ [] := by
      rintro rfl
      simp [answersLast] at answers
    have walk := sequence_walk keeps expressions some ctx
    rw [shellExecuteAst]
    exact ⟨walk.kept, walk.answered answers⟩
  | short list joins few => exact absurd ends (notList_of_short joins few).2
  | @both _ _ _ first second _ _ _ list joins expression left =>
    rcases joins with rfl | rfl
    · obtain ⟨ends, idle⟩ := ends
      rcases left with other | ⟨-, ih⟩
      · exact absurd ends other.notList.2
      obtain ⟨recorded, last, among, same⟩ := ih ends ctx
      rw [shellExecuteAst]
      by_cases success : (shellExecuteAst interp first ctx).status = 0
      · -- The second side runs nothing and returns the zero that is recorded already.
        have walk := expression_walk keeps expression (shellExecuteAst interp first ctx).ctx
        rw [idle] at walk
        obtain ⟨nothingRan, zero⟩ := walk.nothing
        simp only [success, if_true, nothingRan, List.append_nil]
        exact ⟨by rw [walk.kept, recorded, success, zero], last, among, by rw [same, success, zero]⟩
      · -- A first side that fails is all there is.
        simp only [if_neg success]
        exact ⟨recorded, last, among, same⟩
    · exact absurd ends fun ends => ends

/-- So the condition on the tree is enough. -/
theorem recordsStatus_walk (keeps : interp.KeepsStatus) {node : Node} (list : node.IsList)
    (records : node.RecordsStatus) (ctx : ShellCtx World) : (shellExecuteAst interp node ctx).Recorded := by
  -- One way to meet the condition leaves zero, the other the status of a command.
  rcases records with nothing | ends
  · obtain ⟨status, ran, recorded⟩ := runsNothing_walk keeps list nothing ctx
    refine ⟨recorded.trans status.symm, fun last among => ?_⟩
    rw [ran] at among
    cases among
  · obtain ⟨recorded, last, among, same⟩ := endsAnswering_walk keeps list ends ctx
    refine ⟨recorded, fun other within => ?_⟩
    obtain rfl := Option.some.inj (Eq.trans (Option.mem_def.mp among).symm within)
    exact same

end

/-- An interpreter of one builtin under every name, which answers with the next of a list of replies. -/
def replyInterpreter (text : List UInt8) : Interpreter (List Int) where
  -- Every text stands for one and the same.
  resolveVariables _ _ := text
  resolveAlias _ _ := []
  builtins := [([], fun ctx _ => (ctx.world.headD 0, { ctx with world := ctx.world.tail }))]
  printError replies _ := replies

/-- Its builtin leaves the recorded status. -/
theorem replyInterpreter_keeps (text : List UInt8) : (replyInterpreter text).KeepsStatus := by
  intro builtin among ctx node
  -- The one builtin answers and leaves the context alone.
  obtain rfl := List.mem_singleton.mp among
  rfl

section

variable {text : List UInt8}

/-- A walk uses up these replies, whatever more there are. -/
def Uses (text : List UInt8) (node : Node) (before : Int) (replies : List Int) (status after : Int)
    (ran : List Ran) : Prop :=
  ∀ more, shellExecuteAst (replyInterpreter text) node ⟨before, replies ++ more⟩ = ⟨status, ⟨after, more⟩, ran⟩

/-- The first of two sides fails or succeeds, and decides about the second. -/
theorem Uses.stop {address array value : Nat} {type : NodeType} {first second : Node} {rest : List Node}
    {cmd : CommandData} {before status after : Int} {replies : List Int} {ran : List Ran}
    (uses : Uses text first before replies status after ran)
    (stops : type = .and ∧ status ≠ 0 ∨ type = .or ∧ status = 0) :
    Uses text (.mk address type array (first :: second :: rest) value cmd) before replies status after ran := by
  intro more
  -- `and` stops at a failure, `or` at a success.
  rcases stops with ⟨rfl, failed⟩ | ⟨rfl, success⟩
  · simp only [shellExecuteAst, uses more, if_neg failed]
  · simp only [shellExecuteAst, uses more, success, ne_eq, not_true_eq_false, if_false]

/-- The second side goes on behind the first. -/
theorem Uses.go {address array value : Nat} {type : NodeType} {first second : Node} {rest : List Node}
    {cmd : CommandData} {before status after last final : Int} {replies others : List Int} {ran later : List Ran}
    (uses : Uses text first before replies status after ran)
    (goes : type = .and ∧ status = 0 ∨ type = .or ∧ status ≠ 0)
    (next : Uses text second after others last final later) :
    Uses text (.mk address type array (first :: second :: rest) value cmd) before (replies ++ others) last final
      (ran ++ later) := by
  intro more
  -- What the first side leaves of the replies goes to the second one.
  rcases goes with ⟨rfl, success⟩ | ⟨rfl, failed⟩
  · simp only [shellExecuteAst, List.append_assoc, uses (others ++ more), success, if_true, next more]
  · simp only [shellExecuteAst, List.append_assoc, uses (others ++ more), if_pos failed, next more]

/-- All commands of a walk get the same reply. -/
def UsesOnly (reply : Int) (walk : ShellCtx (List Int) → Outcome (List Int)) (before : Int) : Prop :=
  ∃ count status after ran,
    (∀ more, walk ⟨before, List.replicate count reply ++ more⟩ = ⟨status, ⟨after, more⟩, ran⟩) ∧
      ∀ entry ∈ ran, entry.2 = reply

/-- Both sides of an operator get the same reply. -/
theorem UsesOnly.sides {address array value : Nat} {type : NodeType} {first second : Node} {rest : List Node}
    {cmd : CommandData} {reply before : Int} (joins : type.Joins)
    (left : UsesOnly reply (shellExecuteAst (replyInterpreter text) first) before)
    (right : ∀ after, UsesOnly reply (shellExecuteAst (replyInterpreter text) second) after) :
    UsesOnly reply
      (shellExecuteAst (replyInterpreter text) (.mk address type array (first :: second :: rest) value cmd))
      before := by
  obtain ⟨count, status, after, ran, uses, same⟩ := left
  obtain ⟨more, last, final, later, next, equal⟩ := right after
  -- The second side runs or not, as the status of the first one decides.
  by_cases stops : type = .and ∧ status ≠ 0 ∨ type = .or ∧ status = 0
  · exact ⟨count, status, after, ran, Uses.stop uses stops, same⟩
  · have goes : type = .and ∧ status = 0 ∨ type = .or ∧ status ≠ 0 := by
      rcases joins with rfl | rfl
      · simpa using stops
      · simpa using stops
    refine ⟨count + more, last, final, ran ++ later, ?_, fun entry among => ?_⟩
    · rw [← List.replicate_append_replicate]
      exact Uses.go uses goes next
    · exact (List.mem_append.mp among).elim (same entry) (equal entry)

mutual

/-- Some number of equal replies is enough for a walk. -/
theorem shellExecuteAst_constant (text : List UInt8) (reply : Int) : ∀ (node : Node) (before : Int),
    UsesOnly reply (shellExecuteAst (replyInterpreter text) node) before
  | .mk _ type _ children _ cmd, before => by
    -- By the type of the node: lists recurse on the children, the rest ends here.
    cases type with
    | sequence =>
      simpa only [UsesOnly, shellExecuteAst] using executeSequence_constant text reply children 0 before
    | pipeline =>
      simpa only [UsesOnly, shellExecuteAst] using executePipeline_constant text reply children 0 before
    | and =>
      match children with
      -- With fewer than two sides `and` answers 1 and `or` answers 0 without running anything.
      | [] | [_] => exact ⟨0, 1, before, [], fun more => rfl, by simp⟩
      | first :: second :: _ =>
        exact .sides (.inl rfl) (shellExecuteAst_constant text reply first before)
          (shellExecuteAst_constant text reply second)
    | or =>
      match children with
      | [] | [_] => exact ⟨0, 0, before, [], fun more => rfl, by simp⟩
      -- The second side runs or not by the first status, which `sides` covers.
      | first :: second :: _ =>
        exact .sides (.inr rfl) (shellExecuteAst_constant text reply first before)
          (shellExecuteAst_constant text reply second)
    | command =>
      cases args : cmd.args with
      -- A command without words answers 0 and records nothing.
      | nil => exact ⟨0, 0, before, [], fun more => by simp [shellExecuteAst, args], by simp⟩
      | cons cmdName others =>
        -- One word reaches the interpreter, whose only reply is `reply`.
        exact ⟨1, reply, before, [(cmd.args, reply)], fun more => by
          simp [shellExecuteAst, args, executeCommandNode, replyInterpreter], by simp⟩
    | subshell =>
      match children with
      | [] => exact ⟨0, 0, before, [], fun more => rfl, by simp⟩
      | first :: _ =>
        simpa only [UsesOnly, shellExecuteAst] using shellExecuteAst_constant text reply first before
    -- No other type is executed: the walk answers 0.
    | _ => exact ⟨0, 0, before, [], fun more => rfl, by simp⟩

/-- Some number of equal replies is enough for the loop of a sequence. -/
theorem executeSequence_constant (text : List UInt8) (reply : Int) :
    ∀ (children : List Node) (status before : Int),
    UsesOnly reply (executeSequence (replyInterpreter text) children status) before
  | [], status, before => ⟨0, status, before, [], fun more => rfl, by simp⟩
  | child :: rest, _, before => by
    -- The first child, then the rest with its status recorded.
    obtain ⟨count, status, after, ran, left, same⟩ := shellExecuteAst_constant text reply child before
    obtain ⟨more, last, final, later, right, equal⟩ := executeSequence_constant text reply rest status status
    refine ⟨count + more, last, final, ran ++ later, fun behind => ?_, fun entry among => ?_⟩
    · -- Both runs use as many replies as were taken together.
      simp only [executeSequence, ← List.replicate_append_replicate, List.append_assoc, left, right]
    · exact (List.mem_append.mp among).elim (same entry) (equal entry)

/-- Some number of equal replies is enough for the loop of a pipeline. -/
theorem executePipeline_constant (text : List UInt8) (reply : Int) :
    ∀ (children : List Node) (status before : Int),
    UsesOnly reply (executePipeline (replyInterpreter text) children status) before
  | [], status, before => ⟨0, status, before, [], fun more => rfl, by simp⟩
  | child :: rest, _, before => by
    -- As for the sequence, but a pipeline leaves the recording to its caller.
    obtain ⟨count, status, after, ran, left, same⟩ := shellExecuteAst_constant text reply child before
    obtain ⟨more, last, final, later, right, equal⟩ := executePipeline_constant text reply rest status after
    refine ⟨count + more, last, final, ran ++ later, fun behind => ?_, fun entry among => ?_⟩
    · -- Both runs use as many replies as were taken together.
      simp only [executePipeline, ← List.replicate_append_replicate, List.append_assoc, left, right]
    · exact (List.mem_append.mp among).elim (same entry) (equal entry)

end

/-- An expression whose commands all get the same reply. -/
theorem expression_uses (text : List UInt8) {node : Node} (expression : node.IsExpression) (before reply : Int) :
    ∃ replies status ran, Uses text node before replies status before ran ∧ (status = reply ∨ status = 0) ∧
      (node.reach = 0 → status = 0 ∧ ran = []) ∧
      (node.reach ≠ 0 → ∃ last ∈ ran.getLast?, last.2 = reply) := by
  obtain ⟨count, status, after, ran, uses, same⟩ := shellExecuteAst_constant text reply node before
  -- The walk leaves the recorded status, and returns the last reply or zero.
  have walk := expression_walk (replyInterpreter_keeps text) expression
    ⟨before, List.replicate count reply ++ []⟩
  rw [uses []] at walk
  obtain rfl : after = before := walk.kept
  refine ⟨_, status, ran, uses, ?_, fun idle => ?_, fun runs => ?_⟩
  · -- What is returned is the reply to the last command, or zero.
    cases answers : node.answers with
    | true =>
      obtain ⟨last, among, value⟩ := walk.answered answers
      exact .inl (value.symm.trans (same last (List.mem_of_getLast? among)))
    | false => exact .inr (walk.silent answers)
  · rw [idle] at walk
    exact walk.nothing.symm
  · have some : ran ≠ [] := fun none => runs (walk.idle.mp none)
    exact ⟨ran.getLast some, List.getLast?_eq_some_getLast some, same _ (List.getLast_mem some)⟩

/-- The list has a walk after which neither the returned status nor zero is recorded. -/
def Strays (text : List UInt8) (node : Node) : Prop :=
  ∃ before replies status after ran, Uses text node before replies status after ran ∧
    ¬ RecordedAs after ran status ∧ ¬ RecordedAs after ran 0

/-- The second side of an operator that goes on from a status which it can change leaves one unrecorded. -/
theorem strays_of_go {address array value : Nat} {type : NodeType} {first second : Node} {rest : List Node}
    {cmd : CommandData} {before status after : Int} {replies : List Int} {ran : List Ran}
    (uses : Uses text first before replies status after ran)
    (goes : type = .and ∧ status = 0 ∨ type = .or ∧ status ≠ 0) (expression : second.IsExpression)
    (unrecorded : second.reach ≠ 0 ∨ ¬ RecordedAs after ran 0) :
    Strays text (.mk address type array (first :: second :: rest) value cmd) := by
  -- A reply that is neither zero nor what is recorded.
  obtain ⟨others, last, later, next, value, idle, runs⟩ :=
    expression_uses text expression after (after.natAbs + 1)
  refine ⟨before, _, last, after, ran ++ later, uses.go goes next, ?_⟩
  by_cases nothing : second.reach = 0
  · -- Nothing more runs, and the status becomes zero.
    obtain ⟨rfl, rfl⟩ := idle nothing
    have zero := unrecorded.resolve_left (not_not.mpr nothing)
    rw [List.append_nil]
    exact ⟨zero, zero⟩
  · obtain ⟨entry, among, reply⟩ := runs nothing
    -- The last command of the second side is the last of all.
    have behind : entry ∈ (ran ++ later).getLast? := by
      rw [List.getLast?_append, Option.mem_def.mp among]
      rfl
    have zero : ¬ RecordedAs after (ran ++ later) 0 := by
      rintro ⟨-, ends⟩
      have none := ends entry behind
      omega
    refine ⟨?_, zero⟩
    rcases value with rfl | rfl
    · rintro ⟨same, -⟩
      omega
    · exact zero

/-- A list that records what it returns ends with this status, if all its commands return it. -/
theorem recorded_uses {node : Node} (list : node.IsList) (reply : Int)
    (ends : node.RunsNothing ∧ reply = 0 ∨ node.EndsAnswering) :
    ∃ replies ran, Uses text node 0 replies reply reply ran := by
  obtain ⟨count, status, after, ran, uses, same⟩ := shellExecuteAst_constant text reply node 0
  refine ⟨List.replicate count reply, ran, ?_⟩
  -- Either nothing runs and zero is recorded, or the last command returns the reply.
  rcases ends with ⟨nothing, rfl⟩ | ends
  · have walk := runsNothing_walk (replyInterpreter_keeps text) list nothing ⟨0, List.replicate count 0 ++ []⟩
    rw [uses []] at walk
    obtain ⟨rfl, -, rfl⟩ := walk
    exact uses
  · have walk := endsAnswering_walk (replyInterpreter_keeps text) list ends ⟨0, List.replicate count reply ++ []⟩
    rw [uses []] at walk
    obtain ⟨recorded, last, among, value⟩ := walk
    have replied := same last (List.mem_of_getLast? among)
    obtain rfl : status = reply := value.symm.trans replied
    obtain rfl : after = status := recorded
    exact uses

/-- A list that does not meet the condition has a walk whose status is not recorded. -/
theorem strays_of_not_records (text : List UInt8) {node : Node} (list : node.IsList)
    (unmet : ¬ node.RecordsStatus) : Strays text node := by
  -- The root decides, and a first side that strays lets the whole stray.
  induction list using Node.IsList.sides with
  | @sequence _ _ children _ _ list expressions =>
    by_cases empty : children = []
    · -- Nothing runs and nothing is recorded, so what was recorded before stays.
      subst empty
      exact ⟨1, [], 0, 1, [], fun more => rfl, by simp [RecordedAs], by simp [RecordedAs]⟩
    · -- Something runs, but not in the end.
      have idle : reachAll children ≠ 0 := fun idle => unmet (.inl ⟨empty, idle⟩)
      have silent : answersLast children = false := Bool.eq_false_iff.mpr fun answers => unmet (.inr answers)
      obtain ⟨count, status, after, ran, uses, same⟩ := executeSequence_constant text 1 children 0 0
      have walk := sequence_walk (replyInterpreter_keeps text) expressions empty
        ⟨0, List.replicate count 1 ++ []⟩
      rw [uses []] at walk
      obtain rfl : status = 0 := walk.silent silent
      have some : ran ≠ [] := fun none => idle (walk.idle.mp none)
      have unrecorded : ¬ RecordedAs after ran 0 := by
        rintro ⟨-, ends⟩
        have one := same _ (List.getLast_mem some)
        have zero := ends _ (List.getLast?_eq_some_getLast some)
        omega
      refine ⟨0, List.replicate count 1, 0, after, ran, fun more => ?_, unrecorded, unrecorded⟩
      rw [shellExecuteAst]
      exact uses more
  | @short address type array children value cmd list joins few =>
    -- An operator that is short of a side returns a status of its own.
    have stays : ∃ status : Int, status < 2 ∧
        Uses text (.mk address type array children value cmd) 2 [] status 2 [] := by
      rcases children with _ | ⟨first, _ | ⟨second, rest⟩⟩
      · rcases joins with rfl | rfl
        · exact ⟨1, by decide, fun more => rfl⟩
        · exact ⟨0, by decide, fun more => rfl⟩
      · rcases joins with rfl | rfl
        · exact ⟨1, by decide, fun more => rfl⟩
        · exact ⟨0, by decide, fun more => rfl⟩
      · simp only [List.length_cons] at few
        omega
    obtain ⟨status, small, uses⟩ := stays
    refine ⟨2, [], status, 2, [], uses, ?_, by simp [RecordedAs]⟩
    rintro ⟨same, -⟩
    omega
  | @both address type array first second rest value cmd list joins expression left =>
    -- A first side that leaves its status unrecorded leaves that of the whole unrecorded.
    have onward : Strays text first →
        Strays text (.mk address type array (first :: second :: rest) value cmd) := by
      rintro ⟨before, replies, status, after, ran, uses, unrecorded, zero⟩
      by_cases stops : type = .and ∧ status ≠ 0 ∨ type = .or ∧ status = 0
      · exact ⟨before, replies, status, after, ran, uses.stop stops, unrecorded, zero⟩
      · refine strays_of_go uses ?_ expression (.inr zero)
        rcases joins with rfl | rfl
        · simpa using stops
        · simpa using stops
    rcases left with other | ⟨left, ih⟩
    · -- An expression alone records nothing, whatever it returns.
      obtain ⟨replies, status, ran, uses, value, -, -⟩ := expression_uses text other 1 2
      refine onward ⟨1, replies, status, 1, ran, uses, ?_, by simp [RecordedAs]⟩
      rintro ⟨same, -⟩
      omega
    · by_cases records : first.RecordsStatus
      swap
      · exact onward (ih records)
      rcases joins with rfl | rfl
      · -- The first side succeeds, and something runs behind it.
        obtain ⟨replies, ran, uses⟩ := recorded_uses left 0 (records.imp_left fun nothing => ⟨nothing, rfl⟩)
        refine strays_of_go uses (.inl ⟨rfl, rfl⟩) expression (.inl fun idle => unmet ?_)
        exact records.imp (fun nothing => ⟨nothing, idle⟩) fun ends => ⟨ends, idle⟩
      · -- The first side fails, so its status is recorded and another one returned.
        have ends : first.EndsAnswering := records.resolve_left fun nothing => unmet (.inl nothing)
        obtain ⟨replies, ran, uses⟩ := recorded_uses left 1 (.inr ends)
        exact strays_of_go uses (.inr ⟨rfl, by decide⟩) expression (.inr (by simp [RecordedAs]))

end

/-- A command line that parses leaves what the walk of its tree leaves. -/
theorem shellExecuteCommand_parsed {World : Type} (interp : Interpreter World) {supply : Nat → Nat}
    {text cmd : List UInt8} {heap middle : HeapCalls} {tokens : List Token} {root : Node} {ctx : ShellCtx World}
    (lexed : tokenize supply text heap = .ok (tokens, middle))
    (parsed : (parseTokens supply tokens middle).node = some root) (nonempty : cmd ≠ [])
    (expands : interp.resolveVariables ctx.world cmd = text) :
    ∃ last, shellExecuteCommand interp supply cmd ctx heap =
      .ok ((shellExecuteAst interp root ctx).ctx, last) := by
  -- The line is expanded, cut into tokens and parsed before the tree is walked; then everything is freed.
  refine ⟨releaseCommand (some root) tokens (parseTokens supply tokens middle).heap, ?_⟩
  rw [shellExecuteCommand, if_neg nonempty]
  dsimp only
  rw [expands, lexed, ok_bind]
  dsimp only
  rw [parsed]
  rfl

/--
After a command line that parses, the recorded status is the one returned, which is that of the last command that
ran, whatever the builtins return, exactly when the tree meets the condition.
-/
theorem exit_status_recorded_iff {supply : Nat → Nat} {text : List UInt8} {heap middle : HeapCalls}
    {tokens : List Token} {root : Node} (lexed : tokenize supply text heap = .ok (tokens, middle))
    (parsed : (parseTokens supply tokens middle).node = some root) :
    (∀ (World : Type) (interp : Interpreter World) (cmd : List UInt8) (ctx : ShellCtx World), cmd ≠ [] →
      interp.KeepsStatus → interp.resolveVariables ctx.world cmd = text →
      ∃ after last, shellExecuteCommand interp supply cmd ctx heap = .ok (after, last) ∧
        RecordedAs after.lastExitStatus (shellExecuteAst interp root ctx).ran
          (shellExecuteAst interp root ctx).status) ↔
      root.RecordsStatus := by
  have list : root.IsList := parseTokens_shape supply tokens middle root parsed
  constructor
  · intro always
    by_contra unmet
    -- A tree without the condition has a walk against it.
    obtain ⟨before, replies, status, recorded, entries, uses, unrecorded, -⟩ :=
      strays_of_not_records text list unmet
    obtain ⟨after, last, executed, same⟩ :=
      always _ (replyInterpreter text) [0] ⟨before, replies ++ []⟩ (by simp)
      (replyInterpreter_keeps text) rfl
    -- The command line does what the walk does.
    obtain ⟨other, again⟩ := @shellExecuteCommand_parsed _ (replyInterpreter text) _ _ [0] _ _ _ _
      ⟨before, replies ++ []⟩ lexed parsed (by simp) rfl
    obtain ⟨rfl, -⟩ := Prod.mk.inj (Except.ok.inj (executed.symm.trans again))
    rw [uses []] at same
    exact unrecorded same
  · intro records World interp cmd ctx nonempty keeps expands
    -- A tree with the condition records what it returns in every walk.
    obtain ⟨last, executed⟩ := shellExecuteCommand_parsed interp lexed parsed nonempty expands
    exact ⟨_, last, executed, recordsStatus_walk keeps list records ctx⟩

/-- After two commands with a semicolon between them, the status of the second one is recorded. -/
theorem false_then_true_recorded :
    ∃ root after last, shellExecuteCommand (replyInterpreter (asciiBytes "false;true")) (fun n => n + 1)
        (asciiBytes "false;true") ⟨0, [1, 0]⟩ ⟨0, []⟩ = .ok (after, last) ∧
      RecordedAs after.lastExitStatus
        (shellExecuteAst (replyInterpreter (asciiBytes "false;true")) root ⟨0, [1, 0]⟩).ran
        (shellExecuteAst (replyInterpreter (asciiBytes "false;true")) root ⟨0, [1, 0]⟩).status := by
  -- The line is lexed and parsed by evaluation, and has a tree that meets the condition.
  obtain ⟨⟨tokens, middle⟩, lexed, checked⟩ := @exists_ok Halt _
    (tokenize (fun n => n + 1) (asciiBytes "false;true") ⟨0, []⟩)
    (fun result =>
      match (parseTokens (fun n => n + 1) result.1 result.2).node with
      | some root => root.type = .sequence ∧ answersLast root.children
      | none => false)
    (by decide +kernel)
  cases parsed : (parseTokens (fun n => n + 1) tokens middle).node with
  | none => simp [parsed] at checked
  | some root =>
    simp only [parsed, Bool.decide_and, Bool.and_eq_true, decide_eq_true_eq] at checked
    obtain ⟨address, type, array, children, value, cmd⟩ := root
    obtain ⟨rfl, answers⟩ : type = .sequence ∧ answersLast children = true := checked
    obtain ⟨after, last, executed, recorded⟩ := (exit_status_recorded_iff lexed parsed).mpr (.inr answers) _
      (replyInterpreter (asciiBytes "false;true")) (asciiBytes "false;true") ⟨0, [1, 0]⟩ (by decide)
      (replyInterpreter_keeps _) rfl
    exact ⟨_, after, last, executed, recorded⟩

/-- After a conjunction whose second side fails, the status of the first side is still recorded. -/
theorem true_and_false_unrecorded :
    ∃ root tokens middle after last,
      tokenize (fun n => n + 1) (asciiBytes "true&&false") ⟨0, []⟩ = .ok (tokens, middle) ∧
      (parseTokens (fun n => n + 1) tokens middle).node = some root ∧
      (replyInterpreter (asciiBytes "true&&false")).KeepsStatus ∧
      shellExecuteCommand (replyInterpreter (asciiBytes "true&&false")) (fun n => n + 1) (asciiBytes "true&&false")
        ⟨0, [0, 1]⟩ ⟨0, []⟩ = .ok (after, last) ∧
      after.lastExitStatus = 0 ∧
      (shellExecuteAst (replyInterpreter (asciiBytes "true&&false")) root ⟨0, [0, 1]⟩).status = 1 := by
  -- The text is parsed once, and both results are read from that one tree.
  obtain ⟨⟨tokens, middle⟩, lexed, checked⟩ := @exists_ok Halt _
    (tokenize (fun n => n + 1) (asciiBytes "true&&false") ⟨0, []⟩)
    (fun result =>
      match (parseTokens (fun n => n + 1) result.1 result.2).node with
      | some root =>
        let outcome := shellExecuteAst (replyInterpreter (asciiBytes "true&&false")) root ⟨0, [0, 1]⟩
        outcome.ctx.lastExitStatus = 0 ∧ outcome.status = 1
      | none => false)
    (by decide +kernel)
  cases parsed : (parseTokens (fun n => n + 1) tokens middle).node with
  | none => simp [parsed] at checked
  | some root =>
    -- `false` returned 1 within the list, and the status recorded is still the 0 of `true`.
    simp only [parsed, decide_eq_true_eq] at checked
    obtain ⟨last, executed⟩ := @shellExecuteCommand_parsed _ (replyInterpreter (asciiBytes "true&&false")) _ _
      (asciiBytes "true&&false") _ _ _ _ ⟨0, [0, 1]⟩ lexed parsed (by decide) rfl
    exact ⟨root, tokens, middle, _, last, lexed, parsed, replyInterpreter_keeps _, executed, checked⟩

end MiraOS

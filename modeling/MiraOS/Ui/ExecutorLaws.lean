import MiraOS.Ui.Executor
import MiraOS.Ui.ParserLaws

/-! What the tree walk can run, and a walk whose commands answer from a script. -/

namespace MiraOS

/-- The arguments of the commands that were run, counted. -/
def ranArguments (ran : List Ran) : Nat := (ran.map fun entry => entry.1.length).sum

/-- The arguments of two groups of commands. -/
theorem ranArguments_append (ran later : List Ran) :
    ranArguments (ran ++ later) = ranArguments ran + ranArguments later := by
  simp [ranArguments]

section

variable {World : Type} (interp : Interpreter World)

mutual

/-- A walk runs commands of the tree, each at most once. -/
theorem shellExecuteAst_reach : ∀ (node : Node) (ctx : ShellCtx World),
    ranArguments (shellExecuteAst interp node ctx).ran ≤ node.reach
  | .mk _ type _ children _ cmd, ctx => by
    cases type with
    | sequence => simpa [shellExecuteAst, Node.reach] using executeSequence_reach children 0 ctx
    | pipeline => simpa [shellExecuteAst, Node.reach] using executePipeline_reach children 0 ctx
    | and | or =>
      match children with
      | [] | [_] => simp [shellExecuteAst, ranArguments]
      | first :: second :: _ =>
        -- The second child runs after the first or not at all.
        have left := shellExecuteAst_reach first ctx
        have right := shellExecuteAst_reach second (shellExecuteAst interp first ctx).ctx
        simp only [shellExecuteAst, Node.reach]
        split
        · simp only [ranArguments_append]
          omega
        · omega
    -- A command without arguments runs nothing.
    | command =>
      simp only [shellExecuteAst, Node.reach]
      split
      · simp [ranArguments]
      · simp [ranArguments]
    | subshell =>
      match children with
      | [] => simp [shellExecuteAst, ranArguments]
      | first :: _ => simpa [shellExecuteAst, Node.reach] using shellExecuteAst_reach first ctx
    | _ => simp [shellExecuteAst, ranArguments]

/-- The loop of a sequence runs commands of the children. -/
theorem executeSequence_reach : ∀ (children : List Node) (status : Int) (ctx : ShellCtx World),
    ranArguments (executeSequence interp children status ctx).ran ≤ reachAll children
  | [], _, _ => by simp [executeSequence, ranArguments]
  | child :: rest, _, ctx => by
    -- The child and the rest reach what they run.
    simp only [executeSequence, reachAll, ranArguments_append]
    exact Nat.add_le_add (shellExecuteAst_reach child ctx) (executeSequence_reach rest _ _)

/-- The loop of a pipeline runs commands of the children. -/
theorem executePipeline_reach : ∀ (children : List Node) (status : Int) (ctx : ShellCtx World),
    ranArguments (executePipeline interp children status ctx).ran ≤ reachAll children
  | [], _, _ => by simp [executePipeline, ranArguments]
  | child :: rest, _, ctx => by
    -- The child and the rest reach what they run.
    simp only [executePipeline, reachAll, ranArguments_append]
    exact Nat.add_le_add (shellExecuteAst_reach child ctx) (executePipeline_reach rest _ _)

end

/-- The loop of a pipeline goes through the last command in the end. -/
theorem executePipeline_snoc (children : List Node) (child : Node) (status : Int) (ctx : ShellCtx World) :
    let before := executePipeline interp children status ctx
    let here := shellExecuteAst interp child before.ctx
    executePipeline interp (children ++ [child]) status ctx =
      ⟨here.status, here.ctx, before.ran ++ here.ran⟩ := by
  -- The children before the last one run as they would without it.
  induction children generalizing status ctx with
  | nil => simp [executePipeline]
  | cons first rest ih =>
    simp only [List.cons_append, executePipeline, ih, List.append_assoc]

/-- So does the loop of a sequence, which records its status. -/
theorem executeSequence_snoc (children : List Node) (child : Node) (status : Int) (ctx : ShellCtx World) :
    let before := executeSequence interp children status ctx
    let here := shellExecuteAst interp child before.ctx
    executeSequence interp (children ++ [child]) status ctx =
      ⟨here.status, { here.ctx with lastExitStatus := here.status }, before.ran ++ here.ran⟩ := by
  -- Induction on the children in front: each records its status before the next one runs.
  induction children generalizing status ctx with
  | nil => simp [executeSequence]
  | cons first rest ih =>
    simp only [List.cons_append, executeSequence, ih, List.append_assoc]

end

/-- An interpreter whose commands answer from a script, one entry after another. -/
def scriptInterpreter (script : Nat → Int) : Interpreter Nat where
  resolveVariables _ text := text
  -- Every name stands for the one builtin, which counts how often it was called.
  resolveAlias _ _ := []
  builtins := [([], fun ctx _ => (script ctx.world, { ctx with world := ctx.world + 1 }))]
  printError count _ := count

/-- The statuses of a walk are the next entries of the script. -/
def FollowsScript (script : Nat → Int) (start : Nat) (outcome : Outcome Nat) : Prop :=
  outcome.ctx.world = start + outcome.ran.length ∧
    ∀ i entry, outcome.ran[i]? = some entry → entry.2 = script (start + i)

/-- A walk that runs nothing uses nothing of the script. -/
theorem followsScript_nothing (script : Nat → Int) (status : Int) (ctx : ShellCtx Nat) :
    FollowsScript script ctx.world ⟨status, ctx, []⟩ :=
  ⟨rfl, fun i entry found => by simp at found⟩

/-- Two walks one after the other. -/
theorem FollowsScript.append {script : Nat → Int} {start : Nat} {left right : Outcome Nat}
    (first : FollowsScript script start left) (second : FollowsScript script left.ctx.world right) :
    FollowsScript script start { right with ran := left.ran ++ right.ran } := by
  obtain ⟨count, entries⟩ := first
  obtain ⟨more, later⟩ := second
  refine ⟨by simp only [List.length_append, more, count]; omega, fun i entry found => ?_⟩
  by_cases inside : i < left.ran.length
  · exact entries i entry (by rwa [List.getElem?_append_left inside] at found)
  · -- The entries of the second walk follow those of the first in the script too.
    have shifted := later (i - left.ran.length) entry
      (by rwa [List.getElem?_append_right (by omega)] at found)
    rw [shifted, count]
    congr 1
    omega

mutual

/-- Every walk follows the script. -/
theorem shellExecuteAst_script (script : Nat → Int) : ∀ (node : Node) (ctx : ShellCtx Nat),
    FollowsScript script ctx.world (shellExecuteAst (scriptInterpreter script) node ctx)
  | .mk _ type _ children _ cmd, ctx => by
    cases type with
    | sequence => simpa only [shellExecuteAst] using executeSequence_script script children 0 ctx
    | pipeline => simpa only [shellExecuteAst] using executePipeline_script script children 0 ctx
    -- Whether the second child runs or not, its statuses come after those of the first.
    | and | or =>
      match children with
      | [] | [_] => exact followsScript_nothing ..
      | first :: second :: _ =>
        have left := shellExecuteAst_script script first ctx
        simp only [shellExecuteAst]
        split
        · exact left.append (shellExecuteAst_script script second _)
        · exact left
    | command =>
      simp only [shellExecuteAst]
      split
      · exact followsScript_nothing ..
      -- One command uses one entry of the script.
      · refine ⟨rfl, fun i entry found => ?_⟩
        cases i with
        | zero =>
          cases found
          rfl
        | succ i => simp at found
    | subshell =>
      match children with
      | [] => exact followsScript_nothing ..
      | first :: _ => simpa only [shellExecuteAst] using shellExecuteAst_script script first ctx
    | _ => exact followsScript_nothing ..

/-- The loop of a sequence follows the script. -/
theorem executeSequence_script (script : Nat → Int) :
    ∀ (children : List Node) (status : Int) (ctx : ShellCtx Nat),
    FollowsScript script ctx.world (executeSequence (scriptInterpreter script) children status ctx)
  | [], _, _ => followsScript_nothing ..
  | child :: rest, _, ctx =>
    (shellExecuteAst_script script child ctx).append (executeSequence_script script rest _ _)

/-- The loop of a pipeline follows the script. -/
theorem executePipeline_script (script : Nat → Int) :
    ∀ (children : List Node) (status : Int) (ctx : ShellCtx Nat),
    FollowsScript script ctx.world (executePipeline (scriptInterpreter script) children status ctx)
  | [], _, _ => followsScript_nothing ..
  | child :: rest, _, ctx =>
    (shellExecuteAst_script script child ctx).append (executePipeline_script script rest _ _)

end

end MiraOS

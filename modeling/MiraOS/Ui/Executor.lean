import MiraOS.Ui.Parser
import MiraOS.Machine.Text

/-! The tree walk of ui/shell.c that runs the commands of a syntax tree. -/

namespace MiraOS

open Machine

/-- The part of the shell's context that the walk itself writes, beside the rest of the machine. -/
structure ShellCtx (World : Type) where
  lastExitStatus : Int
  world : World

/-- What the walk uses of the rest of the shell. -/
structure Interpreter (World : Type) where
  -- The text after variable expansion, and what an alias stands for.
  resolveVariables : World → List UInt8 → List UInt8
  resolveAlias : World → List UInt8 → List UInt8
  -- The table of builtins in the order of their registration.
  builtins : List (List UInt8 × (ShellCtx World → Node → Int × ShellCtx World))
  printError : World → List UInt8 → World

/-- A command that was run: its arguments and the status it returned. -/
abbrev Ran := List HeapString × Int

/-- What a walk gives: the status, the context after it and the commands it ran, in order. -/
structure Outcome (World : Type) where
  status : Int
  ctx : ShellCtx World
  ran : List Ran

section

variable {World : Type} (interp : Interpreter World)

/-- Run a command node that has arguments. -/
def executeCommandNode (node : Node) (cmdName : HeapString) (ctx : ShellCtx World) :
    Int × ShellCtx World :=
  let resolved := interp.resolveVariables ctx.world cmdName.bytes
  -- The alias is looked up under the expanded name, and the error names that one.
  let named := interp.resolveAlias ctx.world resolved
  match interp.builtins.find? fun builtin => builtin.1 = named with
  | some builtin => builtin.2 ctx node
  | none =>
    let world := interp.printError ctx.world resolved
    (127, { ctx with world := interp.printError world (asciiBytes ": command not found") })

mutual

/-- Walk a node. -/
def shellExecuteAst : Node → ShellCtx World → Outcome World
  | .mk address type childrenAddress children value cmd, ctx =>
    match type with
    | .sequence => executeSequence children 0 ctx
    | .and =>
      match children with
      | first :: second :: _ =>
        let left := shellExecuteAst first ctx
        -- The second child runs only after success.
        if left.status = 0 then
          let right := shellExecuteAst second left.ctx
          { right with ran := left.ran ++ right.ran }
        else left
      | _ => ⟨1, ctx, []⟩
    | .or =>
      match children with
      | first :: second :: _ =>
        let left := shellExecuteAst first ctx
        -- The second child runs only after failure.
        if left.status ≠ 0 then
          let right := shellExecuteAst second left.ctx
          { right with ran := left.ran ++ right.ran }
        else left
      | _ => ⟨0, ctx, []⟩
    -- The commands of a pipeline are not connected with one another.
    | .pipeline => executePipeline children 0 ctx
    | .command =>
      match cmd.args with
      | [] => ⟨0, ctx, []⟩
      | cmdName :: _ =>
        let result := executeCommandNode interp
          (.mk address .command childrenAddress children value cmd) cmdName ctx
        ⟨result.1, result.2, [(cmd.args, result.1)]⟩
    | .subshell =>
      match children with
      | first :: _ => shellExecuteAst first ctx
      | [] => ⟨0, ctx, []⟩
    | _ => ⟨0, ctx, []⟩

/-- The loop over the children of a sequence, which records every status. -/
def executeSequence : List Node → Int → ShellCtx World → Outcome World
  | [], lastStatus, ctx => ⟨lastStatus, ctx, []⟩
  | child :: rest, _, ctx =>
    let here := shellExecuteAst child ctx
    let later := executeSequence rest here.status { here.ctx with lastExitStatus := here.status }
    { later with ran := here.ran ++ later.ran }

/-- The loop over the children of a pipeline, which are run one after another. -/
def executePipeline : List Node → Int → ShellCtx World → Outcome World
  | [], lastStatus, ctx => ⟨lastStatus, ctx, []⟩
  | child :: rest, _, ctx =>
    let here := shellExecuteAst child ctx
    let later := executePipeline rest here.status here.ctx
    { later with ran := here.ran ++ later.ran }

end

/-- Walk the tree that the parser returned, if any. -/
def executeParsed (parsed : Parsed) (ctx : ShellCtx World) : Outcome World :=
  match parsed.node with
  | none => ⟨1, ctx, []⟩
  | some node => shellExecuteAst interp node ctx

end

end MiraOS

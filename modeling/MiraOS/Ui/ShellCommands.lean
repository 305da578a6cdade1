import MiraOS.Ui.ShellBuiltins

/-! Commands of ui/shell.c from their text to their builtins, which may run commands themselves. -/

namespace MiraOS

open Machine

section

variable {Rest : Type}

/-- Record the status of a command. -/
def recordStatus (status : Int) : ShellRun Rest Unit :=
  Traced.change fun ctx => { ctx with lastExitStatus := status }

section

variable (call : Node → HeapString → ShellRun Rest Int)

mutual

/-- Walk a node, with every element of an array that is read on the way. -/
def walkAst : Node → ShellRun Rest Int
  | .mk address type childrenAddress children value cmd =>
    match type with
    | .sequence => walkSequence children.length 0 children 0
    | .and =>
      match children with
      | first :: second :: rest => do
        access 0 (rest.length + 2)
        let status ← walkAst first
        if status = 0 then
          access 1 (rest.length + 2)
          walkAst second
        else return status
      | _ => return 1
    | .or =>
      match children with
      | first :: second :: rest => do
        access 0 (rest.length + 2)
        let status ← walkAst first
        if status ≠ 0 then
          access 1 (rest.length + 2)
          walkAst second
        else return status
      | _ => return 0
    | .pipeline => walkPipeline children.length 0 children 0
    | .command =>
      match cmd.args with
      | [] => return 0
      | cmdName :: more => do
        access 0 (more.length + 1)
        call (.mk address .command childrenAddress children value cmd) cmdName
    -- Only the first child is walked.
    | .subshell =>
      match children with
      | first :: rest => do
        access 0 (rest.length + 1)
        walkAst first
      | [] => return 0
    | _ => return 0

/-- The loop over the children of a sequence, from one of them on. -/
def walkSequence (count : Nat) : Nat → List Node → Int → ShellRun Rest Int
  | _, [], lastStatus => return lastStatus
  | i, child :: rest, _ => do
    access i count
    let status ← walkAst child
    recordStatus status
    walkSequence count (i + 1) rest status

/-- The loop over the children of a pipeline, from one of them on. -/
def walkPipeline (count : Nat) : Nat → List Node → Int → ShellRun Rest Int
  | _, [], lastStatus => return lastStatus
  | i, child :: rest, _ => do
    access i count
    let status ← walkAst child
    walkPipeline count (i + 1) rest status

end

end

/-- Reading an element in range goes on. -/
theorem access_goes {index count : Nat} (inside : index < count) (ctx : ShellCtx (ShellTables Rest)) :
    (access index count ctx).2 = .ok ((), ctx) := by
  simp only [access, if_pos inside]
  rfl

/-- Every call of a command goes on, as the walk without a record has it. -/
def CallsAs (call : Node → HeapString → ShellRun Rest Int) (interp : Interpreter (ShellTables Rest)) : Prop :=
  ∀ node cmdName ctx, (call node cmdName ctx).2 = .ok (executeCommandNode interp node cmdName ctx)

section

variable {call : Node → HeapString → ShellRun Rest Int} {interp : Interpreter (ShellTables Rest)}

mutual

/-- The walk with a record goes on as the walk without one does, where the calls of commands go on. -/
theorem walkAst_goes (agrees : CallsAs call interp) : ∀ (node : Node) (ctx : ShellCtx (ShellTables Rest)),
    (walkAst call node ctx).2 =
      .ok ((shellExecuteAst interp node ctx).status, (shellExecuteAst interp node ctx).ctx)
  | .mk address type array children value cmd, ctx => by
    cases type with
    | sequence => exact walkSequence_goes agrees children 0 0 ctx (Nat.le_of_eq (Nat.zero_add _))
    | pipeline => exact walkPipeline_goes agrees children 0 0 ctx (Nat.le_of_eq (Nat.zero_add _))
    | and =>
      match children with
      | [] | [_] => rfl
      | first :: second :: rest =>
        have left := walkAst_goes agrees first ctx
        simp only [walkAst, shellExecuteAst]
        rw [Traced.bind_ok (access_goes (by omega) ctx), Traced.bind_ok left]
        -- The second side is walked after success only.
        split_ifs with success
        · rw [Traced.bind_ok (access_goes (by omega) _)]
          exact walkAst_goes agrees second _
        · rfl
    -- The second side is walked after failure only.
    | or =>
      match children with
      | [] | [_] => rfl
      | first :: second :: rest =>
        have left := walkAst_goes agrees first ctx
        simp only [walkAst, shellExecuteAst]
        rw [Traced.bind_ok (access_goes (by omega) ctx), Traced.bind_ok left]
        split_ifs with failure
        · rw [Traced.bind_ok (access_goes (by omega) _)]
          exact walkAst_goes agrees second _
        · rfl
    -- A command without words answers zero, and one with words goes to the dispatcher.
    | command =>
      cases args : cmd.args with
      | nil => simp only [walkAst, shellExecuteAst, args]; rfl
      | cons cmdName more =>
        simp only [walkAst, shellExecuteAst, args]
        rw [Traced.bind_ok (access_goes (by omega) ctx)]
        exact agrees _ _ _
    | subshell =>
      match children with
      | [] => rfl
      | first :: rest =>
        simp only [walkAst, shellExecuteAst]
        rw [Traced.bind_ok (access_goes (by omega) ctx)]
        exact walkAst_goes agrees first ctx
    | _ => rfl

/-- So does the loop of a sequence. -/
theorem walkSequence_goes (agrees : CallsAs call interp) :
    ∀ (children : List Node) (i : Nat) (status : Int) (ctx : ShellCtx (ShellTables Rest)) {count : Nat},
    i + children.length ≤ count → (walkSequence call count i children status ctx).2 =
      .ok ((executeSequence interp children status ctx).status, (executeSequence interp children status ctx).ctx)
  | [], _, _, _, _, _ => rfl
  | child :: rest, i, _, ctx, count, inside => by
    rw [List.length_cons] at inside
    -- The status of each child is recorded before the next one is walked.
    have here := walkAst_goes agrees child ctx
    simp only [walkSequence, executeSequence]
    rw [Traced.bind_ok (access_goes (by omega) ctx), Traced.bind_ok here]
    exact walkSequence_goes agrees rest (i + 1) _ _ (by omega)

/-- So does the loop of a pipeline. -/
theorem walkPipeline_goes (agrees : CallsAs call interp) :
    ∀ (children : List Node) (i : Nat) (status : Int) (ctx : ShellCtx (ShellTables Rest)) {count : Nat},
    i + children.length ≤ count → (walkPipeline call count i children status ctx).2 =
      .ok ((executePipeline interp children status ctx).status, (executePipeline interp children status ctx).ctx)
  | [], _, _, _, _, _ => rfl
  | child :: rest, i, _, ctx, count, inside => by
    -- The index stays inside the child array, so reading the child there succeeds.
    rw [List.length_cons] at inside
    have here := walkAst_goes agrees child ctx
    -- The status of the child is handed to the next one.
    simp only [walkPipeline, executePipeline]
    rw [Traced.bind_ok (access_goes (by omega) ctx), Traced.bind_ok here]
    exact walkPipeline_goes agrees rest (i + 1) _ _ (by omega)

end

end

variable (outside : Surroundings Rest)

/-- Walk the tree of a command, if it has one. -/
def walkParsed (call : Node → HeapString → ShellRun Rest Int) : Option Node → ShellRun Rest Unit
  | none => pure ()
  | some ast => do
    let _ ← walkAst call ast
    pure ()

/-- Run the text of a command, given what runs the commands in it. -/
def runCommand (call : Node → HeapString → ShellRun Rest Int) (cmd : List UInt8) : ShellRun Rest Unit :=
  if cmd = [] then pure ()
  else do
    let resolved ← expand cmd
    let shell ← tables
    let lexed ← Traced.lift (tokenize outside.supply resolved shell.heap)
    -- The text is lexed and parsed before anything of it runs.
    let parsed := parseTokens outside.supply lexed.1 lexed.2
    changeTables fun shell => { shell with heap := parsed.heap }
    walkParsed call parsed.node
    changeTables fun shell => { shell with heap := releaseCommand parsed.node lexed.1 shell.heap }

/-- Call the builtin of a command, which may run commands with less fuel. -/
def callCommand : Nat → Node → HeapString → ShellRun Rest Int
  | 0, _, _ => Traced.stop .outOfFuel
  | fuel + 1, node, cmdName => do
    let resolved ← expand cmdName.bytes
    let shell ← tables
    let named := shellResolveAlias shell.aliases resolved
    match registeredNames.find? fun name => asciiBytes name = named with
    | some name => do
      -- The call is recorded with the tables that the builtin finds.
      Traced.emit (.dispatch name (argTexts node) shell)
      shellBuiltin outside name
        ⟨fuel, walkAst (callCommand fuel), runCommand outside (callCommand fuel)⟩ node
    | none => do
      -- The error names the word before its alias.
      printError outside resolved
      printError outside (asciiBytes ": command not found")
      return 127

/-- Run a command, with an amount of fuel for the commands in it. -/
def executeCommand (fuel : Nat) (cmd : List UInt8) : ShellRun Rest Unit :=
  runCommand outside (callCommand outside fuel) cmd

/-- Run commands one after another. -/
def executeCommands (fuel : Nat) : List (List UInt8) → ShellRun Rest Unit
  | [] => pure ()
  | cmd :: rest => do
    executeCommand outside fuel cmd
    executeCommands fuel rest

end

/-- Surroundings in which nothing happens. -/
def quietSurroundings : Surroundings Unit where
  supply requests := requests + 1
  drawString rest _ := rest
  shellPrintError rest _ := rest
  clearScreen rest := rest
  timerTicks _ := 0
  idle rest := rest
  inputBuffer _ := []
  readScript rest _ := (none, rest)
  showFile rest _ := (none, rest)
  directoryLines _ _ := none
  createFile rest _ := rest
  description _ := []

/-- The shell in them before its first command. -/
def quietShell : ShellCtx (ShellTables Unit) :=
  ⟨0, ⟨noVars fun _ => 0, noAliases fun _ => 0, noJobs fun _ => ⟨0, [], 0, false, false, 0⟩, fun _ => ⟨0, []⟩, 0,
    asciiBytes "/", false, ⟨0, []⟩, ()⟩⟩

end MiraOS

import MiraOS.Machine.Traced
import MiraOS.Ui.Builtins
import MiraOS.Ui.History
import MiraOS.Ui.Jobs
import MiraOS.Ui.Numbers

/-! What the builtins of ui/shell.c work on, with a record of what they access, store and are called for. -/

namespace MiraOS

open Machine

/-- The tables of the shell, its allocator and whatever else there is. -/
structure ShellTables (Rest : Type) where
  vars : ShellVars
  aliases : ShellAliases
  jobs : ShellJobs
  globalHistory : Nat → HeapString
  globalHistoryCount : Nat
  currentDir : List UInt8
  exitRequested : Bool
  heap : HeapCalls
  rest : Rest

/-- What the shell uses of the rest of the system. -/
structure Surroundings (Rest : Type) where
  -- The answers of the allocator.
  supply : Nat → Nat
  drawString : Rest → List UInt8 → Rest
  shellPrintError : Rest → List UInt8 → Rest
  clearScreen : Rest → Rest
  timerTicks : Rest → Nat
  -- One turn of waiting.
  idle : Rest → Rest
  inputBuffer : Rest → List UInt8
  -- The bytes of a script, unless it cannot be opened.
  readScript : Rest → List UInt8 → Option (List UInt8) × Rest
  -- What is shown of a file, unless it cannot be opened.
  showFile : Rest → List UInt8 → Option (List (List UInt8)) × Rest
  -- The lines for the entries of a directory, unless there is none.
  directoryLines : Rest → List UInt8 → Option (List (List UInt8))
  createFile : Rest → List UInt8 → Rest
  -- What is said about a builtin.
  description : String → List UInt8

/-- What the record keeps of a run. -/
inductive ShellEvent (Rest : Type) where
  -- An element of an array of a number of elements is read.
  | access (index count : Nat)
  -- A text of a length is stored with its terminator in a field of a size.
  | copy (length size : Nat)
  -- A builtin is called with arguments.
  | dispatch (name : String) (args : List (List UInt8)) (before : ShellTables Rest)

/-- A part of a run of the shell. -/
abbrev ShellRun (Rest α : Type) : Type := Traced (ShellCtx (ShellTables Rest)) (ShellEvent Rest) α

section

variable {Rest : Type}

/-- Read an element of an array. -/
def access (index count : Nat) : ShellRun Rest Unit := do
  Traced.emit (.access index count)
  if index < count then pure () else Traced.stop .outOfBounds

/-- Read an element of an array that is at hand. -/
def elementOf {α : Type} (items : List α) (index : Nat) : ShellRun Rest α := do
  Traced.emit (.access index items.length)
  match items[index]? with
  | some item => pure item
  | none => Traced.stop .outOfBounds

/-- Read an argument of a command. -/
def argument (node : Node) (index : Nat) : ShellRun Rest (List UInt8) := do
  let arg ← elementOf node.cmd.args index
  return arg.bytes

/-- The number of arguments of a command, with its name. -/
def argCount (node : Node) : Nat := node.cmd.args.length

/-- Read the first argument behind the name of a command, if there is one. -/
def argumentOr (node : Node) (default : List UInt8) : ShellRun Rest (List UInt8) :=
  if 1 < argCount node then argument node 1 else pure default

/-- Read a number from that argument. -/
def numberOr (node : Node) (default : Int) : ShellRun Rest Int :=
  if 1 < argCount node then do
    let number ← argument node 1
    return atoiSimple number
  else pure default

/-- The loop over the arguments from one of them on. -/
def eachArgument (node : Node) (start : Nat) (body : Nat → List UInt8 → ShellRun Rest Unit) :
    ShellRun Rest Unit :=
  Traced.eachFrom
    (fun index arg => do
      access index (argCount node)
      body index arg.bytes)
    start (node.cmd.args.drop start)

/-- Store a text in a field of a size. -/
def storeText (text : List UInt8) (size : Nat) : ShellRun Rest Unit := do
  Traced.emit (.copy text.length size)
  if text.length < size then pure () else Traced.stop .outOfBounds

/-- Build a text in a buffer on the stack. -/
def scratch (text : List UInt8) (size : Nat) : ShellRun Rest Unit :=
  if text.length < size then pure () else Traced.stop .outOfBounds

/-- The tables of the shell. -/
def tables : ShellRun Rest (ShellTables Rest) := do
  let ctx ← Traced.look
  return ctx.world

/-- Change the tables. -/
def changeTables (update : ShellTables Rest → ShellTables Rest) : ShellRun Rest Unit :=
  Traced.change fun ctx => { ctx with world := update ctx.world }

/-- Change what is around the shell. -/
def changeRest (update : Rest → Rest) : ShellRun Rest Unit :=
  changeTables fun shell => { shell with rest := update shell.rest }

/-- Expand the variables of a text. -/
def expand (text : List UInt8) : ShellRun Rest (List UInt8) := do
  let shell ← tables
  Traced.lift (shellResolveVariables shell.vars text)

/-- The copies that setting a variable takes. -/
def variableCopies (vars : ShellVars) (name value : List UInt8) : ShellRun Rest Unit :=
  match recordNamed varSize vars.globalVars vars.globalVarCount name with
  | some _ => storeText value 256
  | none =>
    Traced.onlyIf (vars.globalVarCount < shellMaxVars) do
      storeText name 64
      storeText value 256

/-- Set a variable. -/
def setVariable (name value : List UInt8) : ShellRun Rest Unit := do
  let shell ← tables
  variableCopies shell.vars name value
  changeTables fun shell => { shell with vars := shellSetVariable shell.vars name value }

/-- Set a variable to the text of a number. -/
def setVariableInt (name : List UInt8) (value : Int) : ShellRun Rest Unit := setVariable name (intToStr value)

/-- Add an alias. -/
def addAlias (name value : List UInt8) : ShellRun Rest Unit := do
  let shell ← tables
  Traced.onlyIf (shell.aliases.globalAliasCount < shellMaxAliases) do
    storeText name 64
    storeText value 256
  changeTables fun shell => { shell with aliases := shellAddAlias shell.aliases name value }

end

end MiraOS

import MiraOS.Ui.Assignments
import MiraOS.Ui.Let
import MiraOS.Ui.ShellMachine

/-! The builtins of ui/shell.c that a command can reach. -/

namespace MiraOS

open Machine

/-- How a builtin comes back to the executor, with what is left of the fuel. -/
structure Reentry (Rest : Type) where
  fuel : Nat
  shellExecuteAst : Node → ShellRun Rest Int
  shellExecuteCommand : List UInt8 → ShellRun Rest Unit

/-- A builtin: what it does with the node of its command. -/
abbrev Builtin (Rest : Type) : Type := Reentry Rest → Node → ShellRun Rest Int

/-- Longest command line with its terminator. -/
def shellMaxCmdLen : Nat := 4096

/-- The text that is shown for an argument of the builtin, with its escapes taken out. -/
def echoText : List UInt8 → List UInt8
  | [] => []
  | [c] => [c]
  | c :: next :: rest =>
    if c = '\\'.toUInt8 then
      (if next = 'n'.toUInt8 then 10 else if next = 't'.toUInt8 then 9 else next) :: echoText rest
    else c :: echoText (next :: rest)

/-- The text of a number of 64 bits. -/
def uint64ToStr (value : Nat) : List UInt8 :=
  if value = 0 then asciiBytes "0" else (storeDigits 20 value []).reverse

/-- Whether two numbers compare as an operator says. -/
def numbersCompare (op : List UInt8) (left right : Int) : Bool :=
  if op = asciiBytes "-eq" then left = right
  else if op = asciiBytes "-ne" then left ≠ right
  else if op = asciiBytes "-lt" then left < right
  else right < left

/-- Mark the first job that fits as running or not. -/
def markJob (jobs : ShellJobs) (fits : ShellJob → Bool) (mark : ShellJob → ShellJob) : Option ShellJobs :=
  (jobs.list.findIdx? fits).map fun i =>
    { jobs with globalJobs := Function.update jobs.globalJobs i (mark (jobs.globalJobs i)) }

/-- The names that are registered, up to the limit of the table. -/
def registeredNames : List String := shellBuiltinNames.take maxBuiltins

section

variable {Rest : Type} (outside : Surroundings Rest)

/-- Show a text. -/
def draw (text : List UInt8) : ShellRun Rest Unit := changeRest fun rest => outside.drawString rest text

/-- Show a text and end the line. -/
def drawLine (text : List UInt8) : ShellRun Rest Unit := do
  draw outside text
  draw outside [10]

/-- Show several texts. -/
def drawAll (texts : List (List UInt8)) : ShellRun Rest Unit :=
  Traced.eachFrom (fun _ text => draw outside text) 0 texts

/-- Report an error. -/
def printError (msg : List UInt8) : ShellRun Rest Unit :=
  changeRest fun rest => outside.shellPrintError rest msg

/-- A builtin that does nothing. -/
def answers (status : Int) : Builtin Rest := fun _ _ => return status

/-- A builtin that shows lines. -/
def shows (lines : List String) : Builtin Rest := fun _ _ => do
  drawAll outside (lines.map fun line => asciiBytes line ++ [10])
  return 0

/-- A builtin that reports an error. -/
def refuses (msg : String) : Builtin Rest := fun _ _ => do
  printError outside (asciiBytes msg)
  return 1

/-- Show the arguments. -/
def builtinEcho : Builtin Rest := fun _ node => do
  let first ← argumentOr node []
  let plain := decide (first = asciiBytes "-n")
  let start := if plain then 2 else 1
  -- Every argument is expanded once more.
  eachArgument node start fun i arg => do
    let resolved ← expand arg
    draw outside (echoText resolved)
    Traced.onlyIf (i < argCount node - 1) (draw outside [32])
  Traced.onlyIf (plain = false) (draw outside [10])
  return 0

/-- Change the directory to what the argument expands to, or the home directory. -/
def builtinCd : Builtin Rest := fun _ node => do
  let shell ← tables
  let path ← argumentOr node (shellGetVariable shell.vars (asciiBytes "HOME"))
  let resolved ← expand path
  -- No length is checked before the copies.
  storeText resolved 256
  changeTables fun shell => { shell with currentDir := resolved }
  setVariable (asciiBytes "PWD") resolved
  return 0

/-- Show the directory. -/
def builtinPwd : Builtin Rest := fun _ _ => do
  let shell ← tables
  drawLine outside shell.currentDir
  return 0

/-- Mark a variable as exported. -/
def exportVariable (name : List UInt8) : ShellRun Rest Unit :=
  changeTables fun shell => { shell with vars := shellExportVariable shell.vars name }

/-- Export variables, after assignments. -/
def builtinExportRun : Builtin Rest := fun _ node => do
  eachArgument node 1 fun _ arg =>
    match strchr arg 0x3D with
    | some eq => do
      setVariable (arg.take eq) (arg.drop (eq + 1))
      exportVariable (arg.take eq)
    | none => exportVariable arg
  return 0

/-- Assign variables. -/
def builtinSetRun : Builtin Rest := fun _ node => do
  eachArgument node 1 fun _ arg =>
    match strchr arg 0x3D with
    | some eq => setVariable (arg.take eq) (arg.drop (eq + 1))
    | none => pure ()
  return 0

/-- Remove variables. -/
def builtinUnsetRun : Builtin Rest := fun _ node => do
  eachArgument node 1 fun _ arg =>
    changeTables fun shell => { shell with vars := unsetVariable shell.vars arg }
  return 0

/-- Show the exported variables. -/
def builtinEnv : Builtin Rest := fun _ _ => do
  let shell ← tables
  drawAll outside ((shell.vars.list.filter (·.exported)).map fun var =>
    var.name ++ asciiBytes "=" ++ var.value ++ [10])
  return 0

/-- Show the last commands of the history. -/
def builtinHistory : Builtin Rest := fun _ node => do
  let shell ← tables
  let total : Int := shell.globalHistoryCount
  let asked ← numberOr node total
  let count := if total < asked then total else asked
  let start := wrap32 (total - count)
  -- The start can wrap around to a place in front of the history.
  Traced.onlyIf (start < 0) (Traced.stop .outOfBounds)
  drawAll outside (((List.range shell.globalHistoryCount).drop start.toNat).map fun (i : Nat) =>
    intToStr (i + 1) ++ asciiBytes "  " ++ (shell.globalHistory i).bytes ++ [10])
  return 0

/-- Define aliases, or show them. -/
def builtinAliasRun : Builtin Rest := fun _ node => do
  if argCount node = 1 then
    let shell ← tables
    drawAll outside (shell.aliases.list.map fun item =>
      asciiBytes "alias " ++ item.name ++ asciiBytes "=" ++ item.value ++ [10])
    return 0
  else
    eachArgument node 1 fun _ arg =>
      match strchr arg 0x3D with
      | some eq => addAlias (arg.take eq) (arg.drop (eq + 1))
      | none => pure ()
    return 0

/-- Remove aliases. -/
def builtinUnaliasRun : Builtin Rest := fun _ node => do
  eachArgument node 1 fun _ arg =>
    changeTables fun shell => { shell with aliases := unaliasArgument shell.aliases arg }
  return 0

/-- Show the jobs. -/
def builtinJobs : Builtin Rest := fun _ _ => do
  let shell ← tables
  Traced.eachFrom
    (fun _ job => do
      let line := intToStr (wrap32 job.jobId.toNat) ++ asciiBytes " " ++
        asciiBytes (if job.running then "Running" else "Stopped") ++ asciiBytes " " ++ job.command ++ [10]
      scratch line 256
      draw outside line)
    0 shell.jobs.list
  return 0

/-- Let a job run, in the foreground or in the background. -/
def resumeJob (command : String) : Builtin Rest := fun _ node => do
  if argCount node < 2 then
    printError outside (asciiBytes (command ++ ": missing job spec"))
    return 1
  else
    let spec ← argument node 1
    let shell ← tables
    match markJob shell.jobs (fun job => wrap32 job.jobId.toNat = atoiSimple spec)
        fun job => { job with running := true, stopped := false } with
    | some jobs =>
      changeTables fun shell => { shell with jobs := jobs }
      return 0
    | none =>
      printError outside (asciiBytes (command ++ ": job not found"))
      return 1

def builtinFg : Builtin Rest := resumeJob outside "fg"

def builtinBg : Builtin Rest := resumeJob outside "bg"

/-- Clear the screen. -/
def builtinClear : Builtin Rest := fun _ _ => do
  changeRest outside.clearScreen
  return 0

/-- Ask for the end of the shell. -/
def builtinExit : Builtin Rest := fun _ node => do
  let ctx ← Traced.look
  -- Without an argument the last status is returned.
  let status ← numberOr node ctx.lastExitStatus
  changeTables fun shell => { shell with exitRequested := true }
  return status

/-- Show what the builtins are for. -/
def builtinHelp : Builtin Rest := fun _ _ => do
  drawAll outside [asciiBytes "MiraOS Shell (msh.mex) - Built-in Commands:" ++ [10],
    asciiBytes "===========================================" ++ [10]]
  Traced.eachFrom
    (fun _ name => do
      let line := asciiBytes "  " ++ asciiBytes name ++ asciiBytes " - " ++ outside.description name ++ [10]
      scratch line 128
      draw outside line)
    0 registeredNames
  return 0

/-- Tell for each argument whether it is a builtin. -/
def builtinType : Builtin Rest := fun _ node => do
  eachArgument node 1 fun _ cmd =>
    if registeredNames.any fun name => asciiBytes name = cmd then do
      draw outside cmd
      draw outside (asciiBytes " is a shell builtin" ++ [10])
    else do
      scratch (cmd ++ asciiBytes " is not a builtin" ++ [10]) 128
      draw outside (cmd ++ asciiBytes " is not a builtin" ++ [10])
  return 0

/-- Set a variable to the line that is being typed. -/
def builtinRead : Builtin Rest := fun _ node => do
  if argCount node < 2 then
    printError outside (asciiBytes "read: missing variable name")
    return 1
  else
    let varName ← argument node 1
    let shell ← tables
    setVariable varName ((outside.inputBuffer shell.rest).take 255)
    return 0

/-- Compare two arguments, as the first of them says. -/
def builtinTest : Builtin Rest := fun _ node => do
  if argCount node < 2 then return 1
  else
    let op ← (if 2 < argCount node then argument node 1 else pure [] : ShellRun Rest (List UInt8))
    -- Here there are three arguments at least.
    if op = asciiBytes "-z" then do
      let text ← argument node 2
      return if text.length = 0 then 0 else 1
    else if op = asciiBytes "-n" then do
      let text ← argument node 2
      return if 0 < text.length then 0 else 1
    else if op ∈ [asciiBytes "=", asciiBytes "==", asciiBytes "!="] then do
      let left ← argument node 1
      let right ← argument node 2
      -- What is compared with the last argument is the operator itself.
      return if (left = right ↔ op ≠ asciiBytes "!=") then 0 else 1
    else if op ∈ [asciiBytes "-eq", asciiBytes "-ne", asciiBytes "-lt", asciiBytes "-gt"] then do
      let left ← argument node 1
      let right ← argument node 2
      return if numbersCompare op (atoiSimple left) (atoiSimple right) then 0 else 1
    else return 1

/-- Show the arguments behind a format. -/
def builtinPrintf : Builtin Rest := fun _ node => do
  if argCount node < 2 then return 0
  else
    let fmt ← argument node 1
    eachArgument node 2 fun _ arg =>
      if fmt = asciiBytes "%s" then draw outside arg
      else if fmt = asciiBytes "%d" ∨ fmt = asciiBytes "%i" then draw outside (intToStr (atoiSimple arg))
      else Traced.onlyIf (fmt = asciiBytes "%c") (draw outside [UInt8.ofNat (atoiSimple arg % 256).toNat])
    draw outside [10]
    return 0

/-- The loop that waits for a time. -/
def sleepLoop (ticks : Nat) : Nat → ShellRun Rest Unit
  | 0 => Traced.stop .outOfFuel
  | fuel + 1 => do
    let shell ← tables
    Traced.onlyIf (outside.timerTicks shell.rest < ticks) do
      changeRest outside.idle
      sleepLoop ticks fuel

/-- Wait for a number of hundreds of ticks. -/
def builtinSleep : Builtin Rest := fun again node => do
  if argCount node < 2 then return 0
  else
    let shell ← tables
    let number ← argument node 1
    -- The number is extended to a word of 64 bits with its sign.
    let ticks := add64 (outside.timerTicks shell.rest) (wordOf (atoiSimple number * 100))
    sleepLoop outside ticks again.fuel
    return 0

/-- Show the number of ticks. -/
def builtinDate : Builtin Rest := fun _ _ => do
  let shell ← tables
  draw outside (asciiBytes "Uptime: " ++ uint64ToStr (outside.timerTicks shell.rest) ++ asciiBytes " ticks" ++ [10])
  return 0

/-- Show a variable, or set it to the argument. -/
def showOrSet (name : String) : Builtin Rest := fun _ node => do
  if 1 < argCount node then
    let value ← argument node 1
    setVariable (asciiBytes name) value
    return 0
  else
    let shell ← tables
    drawLine outside (shellGetVariable shell.vars (asciiBytes name))
    return 0

def builtinUmask : Builtin Rest := showOrSet outside "UMASK"

def builtinHostname : Builtin Rest := showOrSet outside "HOSTNAME"

/-- Set the positional parameters to numbers, as often as the argument says. -/
def builtinShift : Builtin Rest := fun _ node => do
  let n ← numberOr node 1
  let parameters : ShellRun Rest Unit := Traced.eachFrom
    (fun _ j => setVariableInt [UInt8.ofNat (48 + j)] (wrap32 (j + n))) 0 [1, 2, 3, 4, 5, 6, 7, 8, 9]
  -- The inner loop does the same in every turn.
  Traced.times parameters n.toNat
  return 0

/-- Mark the job of a process as not running. -/
def builtinKill : Builtin Rest := fun _ node => do
  if argCount node < 2 then
    printError outside (asciiBytes "kill: missing operand")
    return 1
  else
    let number ← argument node 1
    let shell ← tables
    match markJob shell.jobs (fun job => job.pid.toNat = (atoiSimple number % 2 ^ 32).toNat)
        fun job => { job with running := false } with
    | some jobs =>
      changeTables fun shell => { shell with jobs := jobs }
      return 0
    | none =>
      printError outside (asciiBytes "kill: no such process")
      return 1

/-- Run the node's first child, with hangups ignored. -/
def builtinNohup : Builtin Rest := fun again node => do
  if argCount node < 2 then return 1
  else
    setVariable (asciiBytes "HUP_IGNORED") (asciiBytes "1")
    -- The child of a simple command, which has none.
    let child ← elementOf node.children 0
    again.shellExecuteAst child

/-- The loop that waits for a job. -/
def waitLoop (i : Nat) : Nat → ShellRun Rest Unit
  | 0 => Traced.stop .outOfFuel
  | fuel + 1 => do
    let shell ← tables
    Traced.onlyIf ((shell.jobs.globalJobs i).running = true) (waitLoop i fuel)

/-- Wait for every job. -/
def builtinWait : Builtin Rest := fun again _ => do
  let shell ← tables
  Traced.eachFrom (fun _ i => waitLoop i again.fuel) 0 (List.range shell.jobs.globalJobCount)
  return 0

/-- Run the node's first child. -/
def builtinExec : Builtin Rest := fun again node => do
  if argCount node < 2 then return 0
  else
    -- The arguments are not looked at.
    let child ← elementOf node.children 0
    again.shellExecuteAst child

/-- Run the text of a script, up to its first terminator and the limit of a line. -/
def shellRunScript (again : Reentry Rest) (path : List UInt8) : ShellRun Rest Unit := do
  let shell ← tables
  let script := outside.readScript shell.rest path
  changeRest fun _ => script.2
  match script.1 with
  | none => printError outside (asciiBytes "script not found")
  -- The buffer has room for one command line.
  | some bytes => again.shellExecuteCommand ((bytes.take (shellMaxCmdLen - 1)).takeWhile (· ≠ 0))

def builtinDot : Builtin Rest := fun again node => do
  if argCount node < 2 then
    printError outside (asciiBytes ". : filename argument required")
    return 1
  else
    let path ← argument node 1
    shellRunScript outside again path
    return 0

def builtinSource : Builtin Rest := builtinDot outside

/-- The loop that joins the arguments from one of them on with blanks, as far as there is room. -/
def joinLoop (count : Nat) : Nat → List HeapString → List UInt8 → ShellRun Rest (List UInt8)
  | _, [], buf => return buf
  | i, arg :: rest, buf =>
    if buf.length < shellMaxCmdLen - 1 then do
      -- The loop asks for room before it looks at an argument.
      access i count
      let buf := (buf ++ arg.bytes).take (shellMaxCmdLen - 1)
      joinLoop count (i + 1) rest (if i < count - 1 ∧ buf.length < shellMaxCmdLen - 1 then buf ++ [32] else buf)
    else return buf

/-- Run the arguments as a command. -/
def builtinEval : Builtin Rest := fun again node => do
  if argCount node < 2 then return 0
  else
    let buf ← joinLoop (argCount node) 1 (node.cmd.args.drop 1) []
    again.shellExecuteCommand buf
    return 0

/-- Evaluate the argument, and set the variable of its result. -/
def builtinLetRun : Builtin Rest := fun _ node => do
  if argCount node < 2 then return 1
  else
    let expr ← argument node 1
    let result ← Traced.lift (letLoop expr 0)
    setVariable (asciiBytes "?") (intToStr result)
    return if result = 0 then 0 else 1

/-- The loop that shows a text again and again. -/
def yesLoop (text : List UInt8) : Nat → ShellRun Rest Unit
  | 0 => Traced.stop .outOfFuel
  | fuel + 1 => do
    drawLine outside text
    yesLoop text fuel

/-- Show the argument without end. -/
def builtinYes : Builtin Rest := fun again node => do
  let str ← argumentOr node (asciiBytes "y")
  yesLoop outside str again.fuel
  return 0

/-- Show files. -/
def builtinCat : Builtin Rest := fun _ node => do
  eachArgument node 1 fun _ path => do
    let shell ← tables
    let file := outside.showFile shell.rest path
    changeRest fun _ => file.2
    match file.1 with
    | none => do
      let line := asciiBytes "cat: " ++ path ++ asciiBytes ": No such file or directory" ++ [10]
      scratch line 128
      draw outside line
    | some texts => do
      drawAll outside texts
      draw outside [10]
  return 0

/-- Show the entries of a directory. -/
def builtinLs : Builtin Rest := fun _ node => do
  let path ← argumentOr node (asciiBytes "/")
  let shell ← tables
  match outside.directoryLines shell.rest path with
  | none =>
    let line := asciiBytes "ls: cannot access '" ++ path ++ asciiBytes "': No such directory" ++ [10]
    scratch line 128
    draw outside line
    return 1
  | some lines =>
    draw outside (asciiBytes "total 0" ++ [10])
    Traced.eachFrom
      (fun _ line => do
        scratch line 256
        draw outside line)
      0 lines
    return 0

/-- Create a file under the name of the argument. -/
def createsFile (missing : String) : Builtin Rest := fun _ node => do
  if argCount node < 2 then
    printError outside (asciiBytes missing)
    return 1
  else
    let path ← argument node 1
    changeRest fun rest => outside.createFile rest path
    return 0

def builtinMkdir : Builtin Rest := createsFile outside "mkdir: missing operand"

def builtinTouch : Builtin Rest := createsFile outside "touch: missing file operand"

/-- Show the time since the start. -/
def builtinUptime : Builtin Rest := fun _ _ => do
  let shell ← tables
  draw outside (asciiBytes " " ++ uint64ToStr (outside.timerTicks shell.rest / 100) ++ [10])
  return 0

/-- Show the name of the system. -/
def builtinUname : Builtin Rest := fun _ node => do
  eachArgument node 1 fun _ _ => pure ()
  -- One such argument is enough.
  let all := (node.cmd.args.drop 1).any fun arg => arg.bytes = asciiBytes "-a"
  draw outside (asciiBytes (if all then "MiraOS msh.mex 1.0.0 x86_64 GNU/MiraOS" else "MiraOS") ++ [10])
  return 0

/-- Show where a builtin is said to be. -/
def builtinWhich : Builtin Rest := fun _ node => do
  if argCount node < 2 then return 1
  else
    let name ← argument node 1
    if registeredNames.any fun builtin => asciiBytes builtin = name then do
      drawLine outside (asciiBytes "/usr/bin/" ++ name)
      return 0
    else do
      printError outside (asciiBytes "which: not found")
      return 1

/-- The builtins that do more than to report that there is no support for them. -/
def ownBuiltins : List (String × Builtin Rest) :=
  [("echo", builtinEcho outside), ("cd", builtinCd), ("pwd", builtinPwd outside), ("export", builtinExportRun),
   ("set", builtinSetRun), ("unset", builtinUnsetRun), ("env", builtinEnv outside),
   ("history", builtinHistory outside), ("alias", builtinAliasRun outside), ("unalias", builtinUnaliasRun),
   ("jobs", builtinJobs outside), ("fg", builtinFg outside), ("bg", builtinBg outside),
   ("clear", builtinClear outside), ("exit", builtinExit), ("help", builtinHelp outside),
   ("type", builtinType outside), ("read", builtinRead outside), ("test", builtinTest), ("[", builtinTest),
   ("printf", builtinPrintf outside), ("true", answers 0), ("false", answers 1), ("sleep", builtinSleep outside),
   ("date", builtinDate outside), ("umask", builtinUmask outside),
   ("ulimit", shows outside ["ulimit settings:", "  max user processes: 1024", "  open files: 1024",
     "  stack size: 8388608"]),
   ("shift", builtinShift), ("trap", answers 0), ("umount", refuses outside "umount: operation not supported"),
   ("mount", refuses outside "mount: operation not supported"),
   ("df", shows outside ["Filesystem     Size  Used  Avail  Use%", "ramfs          1M    128K  896K   12%"]),
   ("ps", shows outside ["  PID TTY          TIME CMD", "    1 ?        00:00:00 init",
     "    2 ?        00:00:00 kthreadd"]),
   ("kill", builtinKill outside), ("nohup", builtinNohup), ("wait", builtinWait), ("exec", builtinExec),
   (".", builtinDot outside), ("source", builtinSource outside), ("eval", builtinEval), ("let", builtinLetRun),
   ("yes", builtinYes outside), ("cat", builtinCat outside), ("ls", builtinLs outside),
   ("mkdir", builtinMkdir outside), ("touch", builtinTouch outside), ("whoami", shows outside ["root"]),
   ("id", shows outside ["uid=0(root) gid=0(root)"]), ("uptime", builtinUptime outside),
   ("uname", builtinUname outside), ("hostname", builtinHostname outside), ("which", builtinWhich outside),
   ("time", shows outside ["real 0m0.001s"]), ("ssh", refuses outside "ssh: network not available"),
   ("scp", refuses outside "scp: network not available"), ("wget", refuses outside "wget: network not available"),
   ("curl", refuses outside "curl: network not available"), ("ping", refuses outside "ping: network not available"),
   ("ifconfig", shows outside ["eth0: flags=4163<UP,BROADCAST,RUNNING,MULTICAST>"]),
   ("dmesg", shows outside ["[    0.000000] MiraOS 1.0.0 x86_64",
     "[    0.000000] Command line: BOOT_IMAGE=/boot/kernel.elf"])]

/-- The builtin of a registered name. -/
def shellBuiltin (name : String) : Builtin Rest :=
  match (ownBuiltins outside).find? fun entry => entry.1 = name with
  | some entry => entry.2
  | none => refuses outside (name ++ ": unsupported in this build")

end

end MiraOS

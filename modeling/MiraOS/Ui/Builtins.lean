import Mathlib.Data.List.Sort
import MiraOS.Machine.Keyed
import MiraOS.Ui.Aliases
import MiraOS.Ui.Expansion

/-! The table of builtins of ui/shell.c, and which of the registered ones a command can reach. -/

namespace MiraOS

open Machine

/-- Limit of the table of builtins. -/
def maxBuiltins : Nat := 128

/-- What a builtin does with the context and the node of its command. -/
abbrev BuiltinHandler (World : Type) : Type := ShellCtx World → Node → Int × ShellCtx World

section

variable {World : Type}

/-- Register a builtin behind the others, unless the table is full. -/
def shellRegisterBuiltin (builtins : List (List UInt8 × BuiltinHandler World)) (name : List UInt8)
    (handler : BuiltinHandler World) : List (List UInt8 × BuiltinHandler World) :=
  if builtins.length < maxBuiltins then builtins ++ [(name, handler)] else builtins

/-- The table after registrations one after another. -/
def registerAll (registrations : List (List UInt8 × BuiltinHandler World)) :
    List (List UInt8 × BuiltinHandler World) :=
  registrations.foldl (fun builtins entry => shellRegisterBuiltin builtins entry.1 entry.2) []

/-- The names that the shell registers at its start, in order. -/
def shellBuiltinNames : List String :=
  ["echo", "cd", "pwd", "export", "set", "unset", "env", "history", "alias", "unalias", "jobs",
   "fg", "bg", "clear", "exit", "help", "type", "read", "test", "[", "printf", "true", "false",
   "sleep", "date", "umask", "ulimit", "shift", "trap", "umount", "mount", "df", "ps", "kill",
   "nohup", "wait", "exec", ".", "source", "eval", "let", "yes", "head", "tail", "wc", "grep",
   "sed", "awk", "cat", "ls", "mkdir", "rmdir", "rm", "touch", "cp", "mv", "chmod", "chown",
   "whoami", "id", "uptime", "uname", "hostname", "which", "time", "xargs", "find", "sort",
   "uniq", "tr", "cut", "paste", "join", "comm", "diff", "patch", "tar", "gzip", "gunzip",
   "bzip2", "xz", "zip", "unzip", "ssh", "scp", "wget", "curl", "ping", "ifconfig", "route",
   "netstat", "ss", "iptables", "systemctl", "service", "journalctl", "dmesg", "logger", "wall",
   "write", "tee", "less", "more", "vi", "nano", "emacs", "vim", "gcc", "make", "git", "python",
   "perl", "ruby", "node", "rustc", "go", "zig", "docker", "kubectl", "helm", "terraform",
   "ansible", "puppet", "chef", "salt", "vagrant", "virtualbox", "qemu", "vmware", "parallel",
   "timeout", "nice", "renice", "killall", "pgrep", "pkill", "top", "htop", "free", "vmstat",
   "iostat", "mpstat", "sar", "strace", "ltrace", "gdb", "valgrind", "perf", "sysctl", "modprobe",
   "insmod", "rmmod", "lsmod", "lspci", "lsusb", "lsblk", "fdisk", "partprobe", "mkfs", "fsck",
   "dd", "mkswap", "swapon", "swapoff", "brctl", "ip", "ifup", "ifdown", "host", "dig",
   "nslookup", "traceroute", "mtr", "tcpdump", "wireshark", "tshark", "nmap", "netcat", "socat",
   "screen", "tmux", "byobu", "dbus", "systemd"]

/-- The registrations at the start of the shell. -/
def shellRegisterBuiltins (handlers : String → BuiltinHandler World) :
    List (List UInt8 × BuiltinHandler World) :=
  shellBuiltinNames.map fun name => (asciiBytes name, handlers name)

/-- The builtin that the walk calls for a command word. -/
def builtinFor (interp : Interpreter World) (world : World) (word : List UInt8) :
    Option (List UInt8 × BuiltinHandler World) :=
  keyed Prod.fst interp.builtins (interp.resolveAlias world (interp.resolveVariables world word))

/-- The context after the report that a command was not found. -/
def notFound (interp : Interpreter World) (ctx : ShellCtx World) (word : List UInt8) : ShellCtx World :=
  let world := interp.printError ctx.world word
  { ctx with world := interp.printError world (asciiBytes ": command not found") }

/-- A command of one word. -/
def wordNode (address childrenAddress value : Nat) (cmd : CommandData) (word : HeapString) : Node :=
  .mk address .command childrenAddress [] value { cmd with args := [word] }

/-- The table holds the registrations up to its limit. -/
theorem registerAll_eq (registrations : List (List UInt8 × BuiltinHandler World)) :
    registerAll registrations = registrations.take maxBuiltins := by
  -- From a table that is not too long, what is left of the room is filled.
  have fills : ∀ table : List (List UInt8 × BuiltinHandler World), table.length ≤ maxBuiltins →
      registrations.foldl (fun builtins entry => shellRegisterBuiltin builtins entry.1 entry.2) table =
        table ++ registrations.take (maxBuiltins - table.length) := by
    induction registrations with
    | nil =>
      intro table _
      simp
    | cons entry rest ih =>
      intro table short
      rw [List.foldl_cons, shellRegisterBuiltin]
      by_cases room : table.length < maxBuiltins
      -- With room for the entry there is one place less for the others.
      · have longer : (table ++ [(entry.1, entry.2)]).length = table.length + 1 := by simp
        obtain ⟨left, some⟩ : ∃ left, maxBuiltins - table.length = left + 1 :=
          ⟨maxBuiltins - table.length - 1, by omega⟩
        rw [if_pos room, ih _ (by omega), longer, some, List.take_succ_cons,
          show maxBuiltins - (table.length + 1) = left by omega, List.append_assoc]
        rfl
      -- A full table drops the entry.
      · rw [if_neg room, ih table short, show maxBuiltins - table.length = 0 by omega, List.take_zero,
          List.take_zero]
  rw [registerAll, fills [] (Nat.zero_le _)]
  simp

/-- A number that tells short names apart. -/
def nameCode (name : List UInt8) : Nat := name.foldl (fun code c => code * 256 + c.toNat) 0

/-- The names of the builtins are distinct. -/
theorem shellRegisterBuiltins_distinct (handlers : String → BuiltinHandler World) :
    ((shellRegisterBuiltins handlers).map Prod.fst).Nodup := by
  have names : (shellRegisterBuiltins handlers).map Prod.fst = shellBuiltinNames.map asciiBytes := by
    rw [shellRegisterBuiltins, List.map_map]
    rfl
  -- Numbers are compared faster than texts, and in order only with their neighbours.
  have ordered : (((shellBuiltinNames.map asciiBytes).map nameCode).insertionSort (· ≤ ·)).Pairwise (· < ·) :=
    List.isChain_iff_pairwise.mp (by decide +kernel)
  have apart := (List.perm_insertionSort (· ≤ ·) _).nodup_iff.mp (ordered.imp Nat.ne_of_lt)
  rw [names]
  exact List.Nodup.of_map nameCode apart

/-- A registration at the start of the shell. -/
theorem shellRegisterBuiltins_getElem? (handlers : String → BuiltinHandler World) {position : Nat}
    {name : String} (listed : shellBuiltinNames[position]? = some name) :
    (shellRegisterBuiltins handlers)[position]? = some (asciiBytes name, handlers name) := by
  rw [shellRegisterBuiltins, List.getElem?_map, listed]
  rfl

/-- A command calls the builtin of its first word, or reports that there is none. -/
theorem executeCommandNode_eq (interp : Interpreter World) (node : Node) (cmdName : HeapString)
    (ctx : ShellCtx World) :
    executeCommandNode interp node cmdName ctx =
      match builtinFor interp ctx.world cmdName.bytes with
      | some builtin => builtin.2 ctx node
      | none => (127, notFound interp ctx (interp.resolveVariables ctx.world cmdName.bytes)) :=
  rfl

/-- A command of one word calls the builtin of its word, or reports that there is none. -/
theorem shellExecuteAst_word (interp : Interpreter World) (ctx : ShellCtx World)
    (address childrenAddress value : Nat) (cmd : CommandData) (word : HeapString) :
    let outcome := shellExecuteAst interp (wordNode address childrenAddress value cmd word) ctx
    (outcome.status, outcome.ctx) =
      match builtinFor interp ctx.world word.bytes with
      | some builtin => builtin.2 ctx (wordNode address childrenAddress value cmd word)
      | none => (127, notFound interp ctx (interp.resolveVariables ctx.world word.bytes)) := by
  -- The node has one word, so the walk ends in the table of builtins or in 127.
  dsimp only
  rw [wordNode, shellExecuteAst, ← executeCommandNode_eq]

/-- The name of a registration is in the table exactly when it came before the limit. -/
theorem name_mem_registerAll_iff {registrations : List (List UInt8 × BuiltinHandler World)}
    (distinct : (registrations.map Prod.fst).Nodup) {position : Nat} {entry : List UInt8 × BuiltinHandler World}
    (registered : registrations[position]? = some entry) :
    entry.1 ∈ (registerAll registrations).map Prod.fst ↔ position < maxBuiltins := by
  have here : (registrations.map Prod.fst)[position]? = some entry.1 := by
    rw [List.getElem?_map, registered, Option.map_some]
  rw [registerAll_eq, List.map_take]
  constructor
  · intro listed
    obtain ⟨place, found⟩ := List.mem_iff_getElem?.mp listed
    rw [List.getElem?_take] at found
    split_ifs at found with inside
    -- The names are distinct, so a name has one place only.
    obtain ⟨within, -⟩ := List.getElem?_eq_some_iff.mp found
    rwa [← (List.getElem?_inj within distinct).mp (found.trans here.symm)]
  · intro inside
    refine List.mem_iff_getElem?.mpr ⟨position, ?_⟩
    rw [List.getElem?_take_of_lt inside, here]

/-- The entry of a registration is in the table exactly when it came before the limit. -/
theorem mem_registerAll_iff {registrations : List (List UInt8 × BuiltinHandler World)}
    (distinct : (registrations.map Prod.fst).Nodup) {position : Nat} {entry : List UInt8 × BuiltinHandler World}
    (registered : registrations[position]? = some entry) :
    entry ∈ registerAll registrations ↔ position < maxBuiltins := by
  refine ⟨fun listed => ?_, fun inside => ?_⟩
  · -- A registered entry that is listed has its name listed.
    exact (name_mem_registerAll_iff distinct registered).mp (List.mem_map_of_mem listed)
  · -- The table takes the first registrations up to its size.
    rw [registerAll_eq]
    refine List.mem_iff_getElem?.mpr ⟨position, ?_⟩
    rw [List.getElem?_take_of_lt inside, registered]

/-- The names in the table are distinct where the registered ones are. -/
theorem registerAll_distinct {registrations : List (List UInt8 × BuiltinHandler World)}
    (distinct : (registrations.map Prod.fst).Nodup) : ((registerAll registrations).map Prod.fst).Nodup := by
  rw [registerAll_eq, List.map_take]
  exact distinct.sublist (List.take_sublist _ _)

/-- A registration before the limit is the one that is found under its name. -/
theorem keyed_registerAll {registrations : List (List UInt8 × BuiltinHandler World)}
    (distinct : (registrations.map Prod.fst).Nodup) {position : Nat} {entry : List UInt8 × BuiltinHandler World}
    (registered : registrations[position]? = some entry) (early : position < maxBuiltins) :
    keyed Prod.fst (registerAll registrations) entry.1 = some entry :=
  keyed_of_mem (registerAll_distinct distinct) ((mem_registerAll_iff distinct registered).mpr early)

/-- A registration behind the limit leaves a name that no command is found under. -/
theorem shellExecuteAst_dropped (interp : Interpreter World)
    {registrations : List (List UInt8 × BuiltinHandler World)} (distinct : (registrations.map Prod.fst).Nodup)
    (table : interp.builtins = registerAll registrations) {position : Nat}
    {entry : List UInt8 × BuiltinHandler World} (registered : registrations[position]? = some entry)
    (late : maxBuiltins ≤ position) (ctx : ShellCtx World)
    (plain : interp.resolveAlias ctx.world (interp.resolveVariables ctx.world entry.1) = entry.1)
    (address childrenAddress value wordAddress : Nat) (cmd : CommandData) :
    let outcome := shellExecuteAst interp (wordNode address childrenAddress value cmd ⟨wordAddress, entry.1⟩) ctx
    (outcome.status, outcome.ctx) =
      (127, notFound interp ctx (interp.resolveVariables ctx.world entry.1)) := by
  -- The name is not in the table at all, so the search finds nothing.
  have absent : builtinFor interp ctx.world entry.1 = none := by
    rw [builtinFor, plain, keyed_eq_none, table]
    intro listed
    have early := (name_mem_registerAll_iff distinct registered).mp listed
    omega
  have ran := shellExecuteAst_word interp ctx address childrenAddress value cmd ⟨wordAddress, entry.1⟩
  dsimp only at ran
  rw [absent] at ran
  exact ran

/--
A registered builtin is reached by its name exactly when it came among the first that the table has room for.

A command word stands for itself when it expands to itself and is no alias.
-/
theorem builtin_reachable_iff (interp : Interpreter World)
    {registrations : List (List UInt8 × BuiltinHandler World)} (distinct : (registrations.map Prod.fst).Nodup)
    (table : interp.builtins = registerAll registrations) {position : Nat} {name : List UInt8}
    {handler : BuiltinHandler World} (registered : registrations[position]? = some (name, handler))
    (ctx : ShellCtx World) (address childrenAddress value wordAddress : Nat) (cmd : CommandData) :
    let node := wordNode address childrenAddress value cmd ⟨wordAddress, name⟩
    let outcome := shellExecuteAst interp node ctx
    let standsFor := interp.resolveAlias ctx.world (interp.resolveVariables ctx.world name)
    (builtinFor interp ctx.world name = some (name, handler) ↔ position < maxBuiltins ∧ standsFor = name) ∧
      (builtinFor interp ctx.world name = some (name, handler) →
        (outcome.status, outcome.ctx) = handler ctx node) ∧
      (maxBuiltins ≤ position → standsFor = name →
        (outcome.status, outcome.ctx) =
          (127, notFound interp ctx (interp.resolveVariables ctx.world name))) := by
  intro node outcome standsFor
  refine ⟨⟨fun found => ?_, fun ⟨early, same⟩ => ?_⟩, fun found => ?_, fun late same => ?_⟩
  · -- What is found is in the table, under the name that the word stands for.
    have listed : (name, handler) ∈ interp.builtins := List.mem_of_find?_eq_some found
    have named := List.find?_some found
    rw [table, mem_registerAll_iff distinct registered] at listed
    exact ⟨listed, (by simpa using named : name = standsFor).symm⟩
  · -- The entry is in the table, and the first one of its name since there is no other.
    rw [builtinFor, show interp.resolveAlias _ _ = name from same, table]
    exact keyed_registerAll distinct registered early
  · have ran := shellExecuteAst_word interp ctx address childrenAddress value cmd ⟨wordAddress, name⟩
    dsimp only at ran
    rw [found] at ran
    exact ran
  · exact shellExecuteAst_dropped interp distinct table registered late ctx same
      address childrenAddress value wordAddress cmd

end

/-- What the walk reads of the shell's tables, and whatever else there is. -/
structure ShellWorld (Rest : Type) where
  vars : ShellVars
  aliases : ShellAliases
  rest : Rest

/-- The text that the expansion gives, as long as it stays inside its buffers. -/
def resolvedText (vars : ShellVars) (text : List UInt8) : List UInt8 :=
  match shellResolveVariables vars text with
  | .ok resolved => resolved
  | .error _ => []

/-- The walk over the shell's own tables, with the builtins that were registered. -/
def shellInterpreter {Rest : Type} (registrations : List (List UInt8 × BuiltinHandler (ShellWorld Rest)))
    (shellPrintError : Rest → List UInt8 → Rest) : Interpreter (ShellWorld Rest) where
  resolveVariables := fun world text => resolvedText world.vars text
  resolveAlias := fun world name => shellResolveAlias world.aliases name
  builtins := registerAll registrations
  printError := fun world text => { world with rest := shellPrintError world.rest text }

/-- The shell at its start, with the number of reports on its screen. -/
def startCtx : ShellCtx (ShellWorld Nat) :=
  { lastExitStatus := 0, world := ⟨noVars fun _ => 0, noAliases fun _ => 0, 0⟩ }

/-- A builtin that does nothing. -/
def idleHandler : BuiltinHandler (ShellWorld Nat) := fun ctx _ => (0, ctx)

/-- The walk at the start of a shell whose builtins do nothing. -/
def startInterpreter : Interpreter (ShellWorld Nat) :=
  shellInterpreter (shellRegisterBuiltins fun _ => idleHandler) fun reports _ => reports + 1

/-- The table of builtins at the start. -/
theorem startInterpreter_builtins :
    startInterpreter.builtins = registerAll (shellRegisterBuiltins fun _ => idleHandler) := by
  rw [startInterpreter, shellInterpreter]

/-- The builtin of the first registration is reached at the start. -/
theorem echo_reachable :
    ((shellRegisterBuiltins fun _ => idleHandler).map Prod.fst).Nodup ∧
      builtinFor startInterpreter startCtx.world (asciiBytes "echo") =
        some (asciiBytes "echo", idleHandler) := by
  -- The registered names are distinct, so the first entry for "echo" is the only one.
  have distinct := shellRegisterBuiltins_distinct fun _ => idleHandler
  have listed : shellBuiltinNames[0]? = some "echo" := by decide +kernel
  have first := shellRegisterBuiltins_getElem? (fun _ => idleHandler) listed
  -- The word holds neither '$' nor an alias, so both resolutions leave it alone.
  have plain : startInterpreter.resolveAlias startCtx.world
      (startInterpreter.resolveVariables startCtx.world (asciiBytes "echo")) = asciiBytes "echo" := by
    decide +kernel
  obtain ⟨reached, -⟩ := builtin_reachable_iff startInterpreter distinct startInterpreter_builtins first
    startCtx 1 0 0 2 {}
  exact ⟨distinct, reached.mpr ⟨by decide, plain⟩⟩

/-- The name after the first 128 is registered at the start, and its command is not found. -/
theorem vmware_not_found :
    (shellRegisterBuiltins fun _ => idleHandler)[128]? = some (asciiBytes "vmware", idleHandler) ∧
      ((shellRegisterBuiltins fun _ => idleHandler).map Prod.fst).Nodup ∧
      shellResolveAlias startCtx.world.aliases (asciiBytes "vmware") = asciiBytes "vmware" ∧
      let outcome := shellExecuteAst startInterpreter (wordNode 1 0 0 {} ⟨2, asciiBytes "vmware"⟩) startCtx
      (outcome.status, outcome.ctx) = (127, notFound startInterpreter startCtx (asciiBytes "vmware")) ∧
        (outcome.status, outcome.ctx) ≠ idleHandler startCtx (wordNode 1 0 0 {} ⟨2, asciiBytes "vmware"⟩) := by
  have distinct := shellRegisterBuiltins_distinct fun _ => idleHandler
  have listed : shellBuiltinNames[128]? = some "vmware" := by decide +kernel
  have registered := shellRegisterBuiltins_getElem? (fun _ => idleHandler) listed
  have expands : startInterpreter.resolveVariables startCtx.world (asciiBytes "vmware") = asciiBytes "vmware" := by
    decide +kernel
  have named : shellResolveAlias startCtx.world.aliases (asciiBytes "vmware") = asciiBytes "vmware" := by
    decide +kernel
  have dropped := shellExecuteAst_dropped startInterpreter distinct startInterpreter_builtins registered
    (by decide) startCtx (by rw [expands]; exact named) 1 0 0 2 {}
  dsimp only at dropped
  rw [expands] at dropped
  refine ⟨registered, distinct, named, dropped, fun same => ?_⟩
  -- The builtin would have returned zero.
  have status := congrArg Prod.fst (dropped.symm.trans same)
  exact absurd status (by decide)

end MiraOS

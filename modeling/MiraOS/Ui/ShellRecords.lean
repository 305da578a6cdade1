import MiraOS.Ui.ShellCommands
import MiraOS.Ui.TreeShapes

/-! What the record of a run of ui/shell.c holds, for all builtins that store no texts of their arguments. -/

namespace MiraOS

open Machine

/-- A kind of record that elements in range and texts that fit may be added to. -/
class Tolerates {Rest : Type} (kind : List (ShellEvent Rest) → Prop) : Prop extends Composes kind where
  access : ∀ {index count}, index < count → kind [.access index count]
  copy : ∀ {length size}, length < size → kind [.copy length size]

section

variable {Rest : Type} {kind : List (ShellEvent Rest) → Prop} [Tolerates kind]

/-- Reading the tables. -/
theorem tables_logs : Logs kind (tables : ShellRun Rest (ShellTables Rest)) := Logs.look.bind fun _ => .pure _

/-- Changing the tables. -/
theorem changeTables_logs (update : ShellTables Rest → ShellTables Rest) : Logs kind (changeTables update) :=
  Logs.change _

/-- Changing what is around the shell. -/
theorem changeRest_logs (update : Rest → Rest) : Logs kind (changeRest update) := changeTables_logs _

/-- Expanding a text. -/
theorem expand_logs (text : List UInt8) : Logs kind (expand text : ShellRun Rest (List UInt8)) :=
  tables_logs.bind fun _ => .lift _

/-- Building a text on the stack. -/
theorem scratch_logs (text : List UInt8) (size : Nat) : Logs kind (scratch text size : ShellRun Rest Unit) := by
  rw [scratch]
  -- The buffer is large enough or the command stops.
  split_ifs
  · exact .pure ()
  · exact .stop _

/-- Reading an element in range. -/
theorem access_logs {index count : Nat} (inside : index < count) :
    Logs kind (access index count : ShellRun Rest Unit) := by
  refine .bind (fun _ => Tolerates.access inside) fun _ => ?_
  rw [if_pos inside]
  exact .pure ()

/-- Reading an element in range of an array at hand. -/
theorem elementOf_logs {α : Type} {items : List α} {index : Nat} (inside : index < items.length) :
    Logs kind (elementOf items index : ShellRun Rest α) := by
  refine .bind (fun _ => Tolerates.access inside) fun _ => ?_
  rw [List.getElem?_eq_getElem inside]
  exact .pure _

/-- Reading an argument that is there. -/
theorem argument_logs {node : Node} {index : Nat} (inside : index < argCount node) :
    Logs kind (argument node index : ShellRun Rest (List UInt8)) :=
  (elementOf_logs inside).bind fun _ => .pure _

/-- Reading the first argument behind the name, if it is there. -/
theorem argumentOr_logs {node : Node} {default : List UInt8} :
    Logs kind (argumentOr node default : ShellRun Rest (List UInt8)) := by
  rw [argumentOr]
  -- The argument is read only when there is one.
  split_ifs with more
  · exact argument_logs more
  · exact .pure _

/-- Reading a number from it. -/
theorem numberOr_logs {node : Node} {default : Int} :
    Logs kind (numberOr node default : ShellRun Rest Int) := by
  rw [numberOr]
  -- The argument is read only when there is one.
  split_ifs with more
  · exact (argument_logs more).bind fun _ => .pure _
  · exact .pure _

/-- The loop over arguments reads those that are there. -/
theorem eachArgument_logs {node : Node} {start : Nat} {body : Nat → List UInt8 → ShellRun Rest Unit}
    (logs : ∀ i arg, Logs kind (body i arg)) : Logs kind (eachArgument node start body) := by
  refine .eachFrom fun k arg found => ?_
  -- The place of an argument behind the first ones is below the number of all.
  have inside := (List.getElem?_eq_some_iff.mp found).1
  rw [List.length_drop] at inside
  exact (access_logs (by rw [argCount]; omega)).bind fun _ => logs _ _

/-- Storing a text that fits. -/
theorem storeText_logs {text : List UInt8} {size : Nat} (fits : text.length < size) :
    Logs kind (storeText text size : ShellRun Rest Unit) := by
  refine .bind (fun _ => Tolerates.copy fits) fun _ => ?_
  rw [if_pos fits]
  exact .pure ()

/-- Setting a variable whose name and value fit. -/
theorem setVariable_logs {name value : List UInt8} (named : name.length < 64) (fits : value.length < 256) :
    Logs kind (setVariable name value : ShellRun Rest Unit) := by
  refine tables_logs.bind fun shell => .bind ?_ fun _ => changeTables_logs _
  rw [variableCopies]
  -- An old variable takes a value only.
  split
  · exact storeText_logs fits
  · exact .onlyIf fun _ => (storeText_logs named).bind fun _ => storeText_logs fits

/-- The text of a number fits. -/
theorem intToStr_short (value : Int) : (intToStr value).length < 256 := by
  -- Each turn stores one digit at most.
  have digits : ∀ turns magnitude tmp, (storeDigits turns magnitude tmp).length ≤ tmp.length + turns := by
    intro turns
    induction turns with
    | zero => exact fun _ _ => Nat.le_refl _
    | succ turns ih =>
      intro magnitude tmp
      rw [storeDigits]
      split_ifs
      · have more := ih (magnitude / 10) (tmp ++ [UInt8.ofNat (48 + magnitude % 10)])
        rw [List.length_append, List.length_singleton] at more
        omega
      · omega
  -- Ten digits and a sign fit, whatever the number.
  rw [intToStr]
  split_ifs
  · decide
  · rename_i nonzero negative
    have bound := digits 10 (wrap32 (-value)).toNat []
    simp only [List.length_reverse, List.length_append, List.length_singleton, List.length_nil] at bound ⊢
    omega
  · have bound := digits 10 value.toNat []
    simp only [List.length_reverse, List.length_nil] at bound ⊢
    omega

variable (outside : Surroundings Rest)

/-- Showing a text. -/
theorem draw_logs (text : List UInt8) : Logs kind (draw outside text) := changeRest_logs _

/-- Showing a line. -/
theorem drawLine_logs (text : List UInt8) : Logs kind (drawLine outside text) :=
  (draw_logs outside _).bind fun _ => draw_logs outside _

/-- Showing texts. -/
theorem drawAll_logs (texts : List (List UInt8)) : Logs kind (drawAll outside texts) :=
  .eachFrom fun _ _ _ => draw_logs outside _

/-- Reporting an error. -/
theorem printError_logs (msg : List UInt8) : Logs kind (printError outside msg) := changeRest_logs _

variable (again : Reentry Rest) (node : Node)

theorem answers_logs (status : Int) : Logs kind (answers status again node) := .pure status

theorem shows_logs (lines : List String) : Logs kind (shows outside lines again node) :=
  (drawAll_logs outside _).bind fun _ => .pure 0

theorem refuses_logs (msg : String) : Logs kind (refuses outside msg again node) :=
  (printError_logs outside _).bind fun _ => .pure 1

theorem builtinEcho_logs : Logs kind (builtinEcho outside again node) := by
  refine argumentOr_logs.bind fun first => .bind (eachArgument_logs fun _ _ => ?_) fun _ =>
    .bind (.onlyIf fun _ => draw_logs outside _) fun _ => .pure 0
  exact .bind (expand_logs _) fun _ => .bind (draw_logs outside _) fun _ => .onlyIf fun _ => draw_logs outside _

theorem builtinPwd_logs : Logs kind (builtinPwd outside again node) :=
  tables_logs.bind fun _ => .bind (drawLine_logs outside _) fun _ => .pure 0

theorem builtinUnset_logs : Logs kind (builtinUnsetRun again node) :=
  .bind (eachArgument_logs fun _ _ => changeTables_logs _) fun _ => .pure 0

theorem builtinEnv_logs : Logs kind (builtinEnv outside again node) :=
  tables_logs.bind fun _ => .bind (drawAll_logs outside _) fun _ => .pure 0

theorem builtinHistory_logs : Logs kind (builtinHistory outside again node) :=
  tables_logs.bind fun _ => .bind numberOr_logs fun _ => .bind (.onlyIf fun _ => .stop _) fun _ =>
    .bind (drawAll_logs outside _) fun _ => .pure 0

theorem builtinUnalias_logs : Logs kind (builtinUnaliasRun again node) :=
  .bind (eachArgument_logs fun _ _ => changeTables_logs _) fun _ => .pure 0

/-- A line that is built on the stack and shown. -/
theorem scratchLine_logs (line : List UInt8) (size : Nat) :
    Logs kind (do
      scratch line size
      draw outside line) :=
  .bind (scratch_logs _ _) fun _ => draw_logs outside _

theorem builtinJobs_logs : Logs kind (builtinJobs outside again node) :=
  tables_logs.bind fun _ => .bind (.eachFrom fun _ _ _ => scratchLine_logs outside _ _) fun _ => .pure 0

theorem resumeJob_logs (command : String) : Logs kind (resumeJob outside command again node) := by
  rw [resumeJob]
  -- The job is found or not, and nothing is read for that.
  split_ifs with few
  · exact .bind (printError_logs outside _) fun _ => .pure 1
  · refine .bind (argument_logs (by omega)) fun _ => tables_logs.bind fun _ => ?_
    split
    · exact .bind (changeTables_logs _) fun _ => .pure 0
    · exact .bind (printError_logs outside _) fun _ => .pure 1

theorem builtinClear_logs : Logs kind (builtinClear outside again node) :=
  .bind (changeRest_logs _) fun _ => .pure 0

theorem builtinExit_logs : Logs kind (builtinExit again node) :=
  Logs.look.bind fun _ => .bind numberOr_logs fun _ => .bind (changeTables_logs _) fun _ => .pure _

theorem builtinHelp_logs : Logs kind (builtinHelp outside again node) :=
  .bind (drawAll_logs outside _) fun _ => .bind (.eachFrom fun _ _ _ => scratchLine_logs outside _ _) fun _ =>
    .pure 0

theorem builtinType_logs : Logs kind (builtinType outside again node) := by
  refine .bind (eachArgument_logs fun _ _ => ?_) fun _ => .pure 0
  -- The answer is built on the stack only for what is no builtin.
  split_ifs
  · exact .bind (draw_logs outside _) fun _ => draw_logs outside _
  · exact scratchLine_logs outside _ _

theorem builtinTest_logs : Logs kind (builtinTest again node) := by
  unfold builtinTest
  by_cases few : argCount node < 2
  · rw [if_pos few]
    exact .pure 1
  rw [if_neg few]
  by_cases more : 2 < argCount node
  · -- Both arguments are there, whatever the first of them says.
    rw [if_pos more]
    refine .bind (argument_logs (by omega)) fun op => ?_
    have one : Logs kind (argument node 1 : ShellRun Rest (List UInt8)) := argument_logs (by omega)
    have two : Logs kind (argument node 2 : ShellRun Rest (List UInt8)) := argument_logs more
    split_ifs
    · exact two.bind fun _ => .pure _
    · exact two.bind fun _ => .pure _
    · exact one.bind fun _ => two.bind fun _ => .pure _
    · exact one.bind fun _ => two.bind fun _ => .pure _
    · exact .pure 1
  · -- Without a second argument the operator is empty, which is none of those asked for.
    rw [if_neg more, Traced.pure_bind, if_neg (by decide), if_neg (by decide), if_neg (by decide),
      if_neg (by decide)]
    exact .pure 1

theorem builtinPrintf_logs : Logs kind (builtinPrintf outside again node) := by
  rw [builtinPrintf]
  -- Without a format there is nothing to read.
  split_ifs with few
  · exact .pure 0
  · refine .bind (argument_logs (by omega)) fun fmt => .bind (eachArgument_logs fun _ _ => ?_) fun _ =>
      .bind (draw_logs outside _) fun _ => .pure 0
    -- Each directive draws a character, an argument or nothing.
    split_ifs
    · exact draw_logs outside _
    · exact draw_logs outside _
    · exact .onlyIf fun _ => draw_logs outside _

/-- The loop that waits for a time. -/
theorem sleepLoop_logs (ticks fuel : Nat) : Logs kind (sleepLoop outside ticks fuel) := by
  -- Induction on the fuel: the loop waits for the ticks or runs out.
  induction fuel with
  | zero => exact .stop _
  | succ fuel ih => exact tables_logs.bind fun _ => .onlyIf fun _ => .bind (changeRest_logs _) fun _ => ih

theorem builtinSleep_logs : Logs kind (builtinSleep outside again node) := by
  rw [builtinSleep]
  -- The argument is read only when there is one.
  split_ifs with few
  · exact .pure 0
  · exact tables_logs.bind fun _ => .bind (argument_logs (by omega)) fun _ =>
      .bind (sleepLoop_logs outside _ _) fun _ => .pure 0

theorem builtinDate_logs : Logs kind (builtinDate outside again node) :=
  tables_logs.bind fun _ => .bind (draw_logs outside _) fun _ => .pure 0

theorem builtinShift_logs : Logs kind (builtinShift again node) :=
  numberOr_logs.bind fun _ => .bind
    (.times (.eachFrom fun _ _ _ => setVariable_logs (by rw [List.length_singleton]; decide) (intToStr_short _)) _)
    fun _ => .pure 0

theorem builtinKill_logs : Logs kind (builtinKill outside again node) := by
  rw [builtinKill]
  -- `kill` reads its second word only when there is one.
  split_ifs with few
  · exact .bind (printError_logs outside _) fun _ => .pure 1
  · refine .bind (argument_logs (by omega)) fun _ => tables_logs.bind fun _ => ?_
    -- A known job is marked, an unknown one reported.
    split
    · exact .bind (changeTables_logs _) fun _ => .pure 0
    · exact .bind (printError_logs outside _) fun _ => .pure 1

/-- The loop that waits for a job. -/
theorem waitLoop_logs (i fuel : Nat) : Logs kind (waitLoop i fuel : ShellRun Rest Unit) := by
  -- Induction on the fuel: the loop waits for the jobs or runs out.
  induction fuel with
  | zero => exact .stop _
  | succ fuel ih => exact tables_logs.bind fun _ => .onlyIf fun _ => ih

theorem builtinWait_logs : Logs kind (builtinWait again node) :=
  tables_logs.bind fun _ => .bind (.eachFrom fun _ _ _ => waitLoop_logs _ _) fun _ => .pure 0

theorem builtinLet_logs : Logs kind (builtinLetRun again node) := by
  rw [builtinLetRun]
  -- The argument is read only when there is one, and the digits of the result are few.
  split_ifs with few
  · exact .pure 1
  · exact .bind (argument_logs (by omega)) fun _ => .bind (.lift _) fun _ =>
      .bind (setVariable_logs (by decide) (intToStr_short _)) fun _ => .pure _

/-- The loop that shows a text again and again. -/
theorem yesLoop_logs (text : List UInt8) (fuel : Nat) : Logs kind (yesLoop outside text fuel) := by
  -- Induction on the fuel: the loop ends by running out only.
  induction fuel with
  | zero => exact .stop _
  | succ fuel ih => exact .bind (drawLine_logs outside _) fun _ => ih

theorem builtinYes_logs : Logs kind (builtinYes outside again node) :=
  argumentOr_logs.bind fun _ => .bind (yesLoop_logs outside _ _) fun _ => .pure 0

theorem builtinCat_logs : Logs kind (builtinCat outside again node) := by
  refine .bind (eachArgument_logs fun _ _ => tables_logs.bind fun _ => .bind (changeRest_logs _) fun _ => ?_)
    fun _ => .pure 0
  -- A file that is missing is reported, any other is shown.
  split
  · exact scratchLine_logs outside _ _
  · exact .bind (drawAll_logs outside _) fun _ => draw_logs outside _

theorem builtinLs_logs : Logs kind (builtinLs outside again node) := by
  refine argumentOr_logs.bind fun _ => tables_logs.bind fun _ => ?_
  -- A directory that is missing is reported, any other is listed.
  split
  · exact .bind (scratch_logs _ _) fun _ => .bind (draw_logs outside _) fun _ => .pure 1
  · exact .bind (draw_logs outside _) fun _ =>
      .bind (.eachFrom fun _ _ _ => scratchLine_logs outside _ _) fun _ => .pure 0

theorem createsFile_logs (missing : String) : Logs kind (createsFile outside missing again node) := by
  rw [createsFile]
  -- The argument is read only when there is one.
  split_ifs with few
  · exact .bind (printError_logs outside _) fun _ => .pure 1
  · exact .bind (argument_logs (by omega)) fun _ => .bind (changeRest_logs _) fun _ => .pure 0

theorem builtinUptime_logs : Logs kind (builtinUptime outside again node) :=
  tables_logs.bind fun _ => .bind (draw_logs outside _) fun _ => .pure 0

theorem builtinUname_logs : Logs kind (builtinUname outside again node) :=
  .bind (eachArgument_logs fun _ _ => .pure ()) fun _ => .bind (draw_logs outside _) fun _ => .pure 0

theorem builtinWhich_logs : Logs kind (builtinWhich outside again node) := by
  rw [builtinWhich]
  split_ifs with few
  · -- `which` reads its second word only when there is one.
    exact .pure 1
  · refine .bind (argument_logs (by omega)) fun _ => ?_
    -- A builtin is named, anything else reported.
    split_ifs
    · exact .bind (drawLine_logs outside _) fun _ => .pure 0
    · exact .bind (printError_logs outside _) fun _ => .pure 1

/-- The loop that joins arguments reads those that are there. -/
theorem joinLoop_logs {count i : Nat} {args : List HeapString} (inside : i + args.length ≤ count)
    (buf : List UInt8) : Logs kind (joinLoop count i args buf : ShellRun Rest (List UInt8)) := by
  -- The place of an argument and those behind it stay below the number of all.
  induction args generalizing i buf with
  | nil => exact .pure _
  | cons arg rest ih =>
    rw [List.length_cons] at inside
    rw [joinLoop]
    by_cases room : buf.length < shellMaxCmdLen - 1
    · rw [if_pos room]
      exact .bind (access_logs (by omega)) fun _ => ih (by omega) _
    · rw [if_neg room]
      exact .pure _

section

variable (nested : ∀ cmd, Logs kind (again.shellExecuteCommand cmd))

include nested

theorem builtinDot_logs : Logs kind (builtinDot outside again node) := by
  rw [builtinDot]
  -- Only a script that can be opened runs.
  split_ifs with few
  · exact .bind (printError_logs outside _) fun _ => .pure 1
  · refine .bind (argument_logs (by omega)) fun _ => .bind
      (tables_logs.bind fun _ => .bind (changeRest_logs _) fun _ => ?_) fun _ => .pure 0
    split
    · exact printError_logs outside _
    · exact nested _

theorem builtinEval_logs : Logs kind (builtinEval again node) := by
  rw [builtinEval]
  -- Without words there is nothing to join and nothing is run.
  split_ifs with few
  · exact .pure 0
  · -- The words behind the command are joined into one text, and that text is run as a command.
    refine .bind (joinLoop_logs ?_ []) fun _ => .bind (nested _) fun _ => .pure 0
    rw [List.length_drop]
    rw [argCount] at few ⊢
    omega

end

/-- The builtins that store texts of their arguments. -/
def storingBuiltins : List String := ["cd", "export", "set", "alias", "read", "umask", "hostname"]

/-- The builtins that run a child of their node. -/
def askingBuiltins : List String := ["nohup", "exec"]

section

variable (nested : ∀ cmd, Logs kind (again.shellExecuteCommand cmd))

include nested

/-- Every other builtin of its own reads elements in range and stores texts that fit. -/
theorem ownBuiltins_logs :
    ∀ entry ∈ ownBuiltins outside, entry.1 ∉ storingBuiltins ++ askingBuiltins →
      Logs kind (entry.2 again node) := by
  -- One entry after another; those that are told apart do not count.
  simp only [ownBuiltins, List.forall_mem_cons]
  exact
    ⟨fun _ => builtinEcho_logs outside again node, fun apart => absurd (by decide) apart,
      fun _ => builtinPwd_logs outside again node, fun apart => absurd (by decide) apart,
      fun apart => absurd (by decide) apart, fun _ => builtinUnset_logs again node,
      fun _ => builtinEnv_logs outside again node, fun _ => builtinHistory_logs outside again node,
      fun apart => absurd (by decide) apart, fun _ => builtinUnalias_logs again node,
      fun _ => builtinJobs_logs outside again node, fun _ => resumeJob_logs outside again node _,
      fun _ => resumeJob_logs outside again node _, fun _ => builtinClear_logs outside again node,
      fun _ => builtinExit_logs again node, fun _ => builtinHelp_logs outside again node,
      fun _ => builtinType_logs outside again node, fun apart => absurd (by decide) apart,
      fun _ => builtinTest_logs again node, fun _ => builtinTest_logs again node,
      fun _ => builtinPrintf_logs outside again node, fun _ => answers_logs again node _,
      fun _ => answers_logs again node _, fun _ => builtinSleep_logs outside again node,
      fun _ => builtinDate_logs outside again node, fun apart => absurd (by decide) apart,
      fun _ => shows_logs outside again node _, fun _ => builtinShift_logs again node,
      fun _ => answers_logs again node _, fun _ => refuses_logs outside again node _,
      fun _ => refuses_logs outside again node _, fun _ => shows_logs outside again node _,
      fun _ => shows_logs outside again node _, fun _ => builtinKill_logs outside again node,
      fun apart => absurd (by decide) apart, fun _ => builtinWait_logs again node,
      fun apart => absurd (by decide) apart, fun _ => builtinDot_logs outside again node nested,
      fun _ => builtinDot_logs outside again node nested, fun _ => builtinEval_logs again node nested,
      fun _ => builtinLet_logs again node, fun _ => builtinYes_logs outside again node,
      fun _ => builtinCat_logs outside again node, fun _ => builtinLs_logs outside again node,
      fun _ => createsFile_logs outside again node _, fun _ => createsFile_logs outside again node _,
      fun _ => shows_logs outside again node _, fun _ => shows_logs outside again node _,
      fun _ => builtinUptime_logs outside again node, fun _ => builtinUname_logs outside again node,
      fun apart => absurd (by decide) apart, fun _ => builtinWhich_logs outside again node,
      fun _ => shows_logs outside again node _, fun _ => refuses_logs outside again node _,
      fun _ => refuses_logs outside again node _, fun _ => refuses_logs outside again node _,
      fun _ => refuses_logs outside again node _, fun _ => refuses_logs outside again node _,
      fun _ => shows_logs outside again node _, fun _ => shows_logs outside again node _, by simp⟩

/-- So does every other builtin. -/
theorem shellBuiltin_logs {name : String} (usual : name ∉ storingBuiltins ++ askingBuiltins) :
    Logs kind (shellBuiltin outside name again node) := by
  rw [shellBuiltin]
  -- A name without an entry of its own has the handler that reports.
  cases found : (ownBuiltins outside).find? fun entry => entry.1 = name with
  | none => exact refuses_logs outside again node _
  | some entry =>
    have same : entry.1 = name := by simpa using List.find?_some found
    exact ownBuiltins_logs outside again node nested entry (List.mem_of_find?_eq_some found) (same ▸ usual)

end

end

/-- A kind of record that texts of any length may be added to as well. -/
class ToleratesCopies {Rest : Type} (kind : List (ShellEvent Rest) → Prop) : Prop extends Tolerates kind where
  stored : ∀ length size, kind [.copy length size]

section

variable {Rest : Type} {kind : List (ShellEvent Rest) → Prop} [ToleratesCopies kind]

/-- Storing a text, which fits or not. -/
theorem storeText_any (text : List UInt8) (size : Nat) :
    Logs kind (storeText text size : ShellRun Rest Unit) := by
  -- The copy is one event, whatever its length.
  refine .bind (fun _ => ToleratesCopies.stored _ _) fun _ => ?_
  split_ifs
  · exact .pure ()
  · exact .stop _

/-- Setting a variable. -/
theorem setVariable_any (name value : List UInt8) :
    Logs kind (setVariable name value : ShellRun Rest Unit) := by
  refine .bind tables_logs fun shell => .bind ?_ fun _ => changeTables_logs _
  rw [variableCopies]
  -- A known name copies its value, a new one its name as well.
  split
  · exact storeText_any _ _
  · exact .onlyIf fun _ => .bind (storeText_any _ _) fun _ => storeText_any _ _

/-- Adding an alias. -/
theorem addAlias_any (name value : List UInt8) : Logs kind (addAlias name value : ShellRun Rest Unit) :=
  .bind tables_logs fun _ => .bind
    (.onlyIf fun _ => .bind (storeText_any _ _) fun _ => storeText_any _ _) fun _ => changeTables_logs _

variable (outside : Surroundings Rest) (again : Reentry Rest) (node : Node)

theorem builtinCd_any : Logs kind (builtinCd again node) :=
  .bind tables_logs fun _ => .bind argumentOr_logs fun _ => .bind (expand_logs _) fun _ =>
    .bind (storeText_any _ _) fun _ => .bind (changeTables_logs _) fun _ =>
      .bind (setVariable_any _ _) fun _ => .pure 0

theorem builtinExport_any : Logs kind (builtinExportRun again node) := by
  refine .bind (eachArgument_logs fun _ _ => ?_) fun _ => .pure 0
  -- An argument with '=' sets a variable before it is marked.
  split
  · exact .bind (setVariable_any _ _) fun _ => changeTables_logs _
  · exact changeTables_logs _

theorem builtinSet_any : Logs kind (builtinSetRun again node) := by
  refine .bind (eachArgument_logs fun _ _ => ?_) fun _ => .pure 0
  -- An argument with '=' sets a variable, any other is ignored.
  split
  · exact setVariable_any _ _
  · exact .pure ()

theorem builtinAlias_any : Logs kind (builtinAliasRun outside again node) := by
  rw [builtinAliasRun]
  -- Alone it lists the aliases; otherwise each argument with '=' is stored.
  split_ifs
  · exact .bind tables_logs fun _ => .bind (drawAll_logs outside _) fun _ => .pure 0
  · refine .bind (eachArgument_logs fun _ _ => ?_) fun _ => .pure 0
    split
    · exact addAlias_any _ _
    · exact .pure ()

theorem builtinRead_any : Logs kind (builtinRead outside again node) := by
  rw [builtinRead]
  -- The name is read only when there is one.
  split_ifs with few
  · exact .bind (printError_logs outside _) fun _ => .pure 1
  · exact .bind (argument_logs (by omega)) fun _ => .bind tables_logs fun _ =>
      .bind (setVariable_any _ _) fun _ => .pure 0

theorem showOrSet_any (field : String) : Logs kind (showOrSet outside field again node) := by
  rw [showOrSet]
  -- With an argument the field is set, without one it is shown.
  split_ifs with more
  · exact .bind (argument_logs more) fun _ => .bind (setVariable_any _ _) fun _ => .pure 0
  · exact .bind tables_logs fun _ => .bind (drawLine_logs outside _) fun _ => .pure 0

/-- The builtins that store texts of their arguments read arguments that are there, and call no commands. -/
theorem storingBuiltin_any {name : String} (storing : name ∈ storingBuiltins) :
    Logs kind (shellBuiltin outside name again node) := by
  simp only [storingBuiltins, List.mem_cons, List.not_mem_nil, or_false] at storing
  -- The seven builtins that copy a text into a table of fixed size.
  rcases storing with rfl | rfl | rfl | rfl | rfl | rfl | rfl
  · exact builtinCd_any again node
  · exact builtinExport_any again node
  · exact builtinSet_any again node
  · exact builtinAlias_any outside again node
  · exact builtinRead_any outside again node
  · exact showOrSet_any outside again node "UMASK"
  · exact showOrSet_any outside again node "HOSTNAME"

end

/-- The first child of a node without children is read, and is not there. -/
theorem firstChild_missing {Rest α : Type} (next : Node → ShellRun Rest α) {node : Node}
    (bare : node.children = []) (ctx : ShellCtx (ShellTables Rest)) :
    (elementOf node.children 0 >>= next) ctx = ([.access 0 0], .error .outOfBounds) := by
  rw [bare]
  rfl

/-- A text is stored in a field that has no room for it. -/
def ShellEvent.Overflows {Rest : Type} : ShellEvent Rest → Prop
  | .copy length size => ¬ length < size
  | _ => False

/-- The texts that setting a variable stores fit. -/
def VariableFits (vars : ShellVars) (name value : List UInt8) : Prop :=
  match recordNamed varSize vars.globalVars vars.globalVarCount name with
  | some _ => value.length < 256
  | none => vars.globalVarCount < shellMaxVars → name.length < 64 ∧ value.length < 256

/-- Short texts fit, whatever there is. -/
theorem variableFits_of_short {vars : ShellVars} {name value : List UInt8} (named : name.length < 64)
    (fits : value.length < 256) : VariableFits vars name value := by
  rw [VariableFits]
  -- A known name copies its value, a new one its name as well.
  split
  · exact fits
  · exact fun _ => ⟨named, fits⟩

section

variable {Rest : Type}

/-- Storing a text goes on where it fits. -/
theorem storeText_guards (text : List UInt8) (size : Nat) (ctx : ShellCtx (ShellTables Rest)) :
    Guards ShellEvent.Overflows (storeText text size) ctx (text.length < size) () ctx := by
  -- The copy is logged before the bytes are written, so an overflow shows in the log either way.
  by_cases fits : text.length < size
  · have ran : storeText text size ctx = ([.copy text.length size], .ok ((), ctx)) := by
      simp only [storeText, if_pos fits]
      rfl
    exact ⟨fun _ => by rw [ran], by simp [ran, ShellEvent.Overflows, fits]⟩
  · have ran : storeText text size ctx = ([.copy text.length size], .error .outOfBounds) := by
      simp only [storeText, if_neg fits]
      rfl
    exact ⟨fun holds => absurd holds fits, by simp [ran, ShellEvent.Overflows]⟩

/-- So does storing a name and a value, where there is room for both. -/
theorem storeBoth_guards (room : Prop) [Decidable room] (name value : List UInt8)
    (ctx : ShellCtx (ShellTables Rest)) :
    Guards ShellEvent.Overflows
      (Traced.onlyIf room do
        storeText name 64
        storeText value 256)
      ctx (room → name.length < 64 ∧ value.length < 256) () ctx := by
  -- Without room neither text is stored.
  by_cases holds : room
  · rw [Traced.onlyIf, if_pos holds]
    exact ((storeText_guards _ _ _).bind (storeText_guards _ _ _)).congr (by simp [holds])
  · rw [Traced.onlyIf, if_neg holds]
    exact (Guards.pure _ _).congr (by simp [holds])

/-- Changing the tables goes on. -/
theorem changeTables_guards (update : ShellTables Rest → ShellTables Rest) (ctx : ShellCtx (ShellTables Rest)) :
    Guards ShellEvent.Overflows (changeTables update) ctx True () { ctx with world := update ctx.world } :=
  .change _ _

/-- Reading the tables goes on with them. -/
theorem tables_guards {α : Type} {next : ShellTables Rest → ShellRun Rest α}
    {ctx after : ShellCtx (ShellTables Rest)} {fits : Prop} {value : α}
    (guards : Guards ShellEvent.Overflows (next ctx.world) ctx fits value after) :
    Guards ShellEvent.Overflows (tables >>= next) ctx fits value after := ⟨guards.goes, guards.bad_iff⟩

/-- Setting a variable goes on where its texts fit. -/
theorem setVariable_guards (name value : List UInt8) (ctx : ShellCtx (ShellTables Rest)) :
    Guards ShellEvent.Overflows (setVariable name value) ctx (VariableFits ctx.world.vars name value) ()
      { ctx with world := { ctx.world with vars := shellSetVariable ctx.world.vars name value } } := by
  -- What is stored depends on whether the variable exists.
  have copies : Guards ShellEvent.Overflows (variableCopies ctx.world.vars name value) ctx
      (VariableFits ctx.world.vars name value) () ctx := by
    rw [variableCopies, VariableFits]
    cases recordNamed varSize ctx.world.vars.globalVars ctx.world.vars.globalVarCount name with
    | some found => exact storeText_guards _ _ _
    | none => exact storeBoth_guards _ _ _ _
  exact tables_guards ((copies.bind (changeTables_guards _ _)).congr (by rw [and_true]))

end

/-- Recording a status. -/
theorem recordStatus_logs {Rest : Type} {kind : List (ShellEvent Rest) → Prop} [Tolerates kind] (status : Int) :
    Logs kind (recordStatus status : ShellRun Rest Unit) := Logs.change _

section

variable {Rest : Type} {kind : List (ShellEvent Rest) → Prop} [Tolerates kind]
  {call : Node → HeapString → ShellRun Rest Int}
  (calls : ∀ node cmdName, node.IsCommand → Logs kind (call node cmdName))

include calls

/-- A simple command reads its name, and calls what it stands for. -/
theorem walkAst_command {node : Node} (command : node.IsCommand) : Logs kind (walkAst call node) := by
  obtain ⟨address, type, array, children, value, cmd⟩ := node
  obtain ⟨rfl, bare⟩ := id command
  -- Without arguments there is no name to read.
  cases args : cmd.args with
  | nil =>
    simp only [walkAst, args]
    exact .pure 0
  | cons cmdName more =>
    simp only [walkAst, args]
    exact .bind (access_logs (by omega)) fun _ => calls _ _ ⟨rfl, bare⟩

/-- The loop of a pipeline reads children that are there. -/
theorem walkPipeline_logs {children : List Node} (commands : ∀ child ∈ children, child.IsCommand)
    {count i : Nat} (inside : i + children.length ≤ count) (status : Int) :
    Logs kind (walkPipeline call count i children status) := by
  -- Induction on the children: the index stays inside the array and each child is a command.
  induction children generalizing i status with
  | nil => exact .pure _
  | cons child rest ih =>
    rw [List.length_cons] at inside
    exact .bind (access_logs (by omega)) fun _ =>
      .bind (walkAst_command calls (commands child List.mem_cons_self)) fun _ =>
        ih (fun other among => commands other (List.mem_cons_of_mem _ among)) (by omega) _

/-- An expression reads children that are there. -/
theorem walkAst_expression {node : Node} (expression : node.IsExpression) : Logs kind (walkAst call node) := by
  -- Induction on the expression: a pipeline walks its commands, parentheses walk what they hold.
  induction expression with
  | @pipeline node kind commands =>
    obtain ⟨address, type, array, children, value, cmd⟩ := node
    obtain rfl : type = .pipeline := kind
    exact walkPipeline_logs calls commands (Nat.le_of_eq (Nat.zero_add _)) 0
  | @parentheses node kind inside ih =>
    obtain ⟨address, type, array, children, value, cmd⟩ := node
    obtain rfl : type = .subshell := kind
    cases children with
    | nil => exact .pure 0
    | cons first rest => exact .bind (access_logs (by omega)) fun _ => ih first List.mem_cons_self

/-- The loop of a sequence reads children that are there. -/
theorem walkSequence_logs {children : List Node} (expressions : ∀ child ∈ children, child.IsExpression)
    {count i : Nat} (inside : i + children.length ≤ count) (status : Int) :
    Logs kind (walkSequence call count i children status) := by
  -- Induction on the children: after each one its status is recorded.
  induction children generalizing i status with
  | nil => exact .pure _
  | cons child rest ih =>
    rw [List.length_cons] at inside
    exact .bind (access_logs (by omega)) fun _ =>
      .bind (walkAst_expression calls (expressions child List.mem_cons_self)) fun _ =>
        .bind (recordStatus_logs _) fun _ =>
          ih (fun other among => expressions other (List.mem_cons_of_mem _ among)) (by omega) _

/-- A list reads children that are there. -/
theorem walkAst_list {node : Node} (list : node.IsList) : Logs kind (walkAst call node) := by
  -- The first side is an expression or a list of its own.
  induction list using Node.IsList.sides with
  | sequence list expressions => exact walkSequence_logs calls expressions (Nat.le_of_eq (Nat.zero_add _)) 0
  | @short address type array children value cmd list joins few =>
    -- An operator that is short of a side reads none.
    rcases children with _ | ⟨first, _ | ⟨second, rest⟩⟩
    · rcases joins with rfl | rfl
      · exact .pure 1
      · exact .pure 0
    · rcases joins with rfl | rfl
      · exact .pure 1
      · exact .pure 0
    · simp only [List.length_cons] at few
      omega
  | @both address type array first second rest value cmd list joins expression left =>
    have one : Logs kind (walkAst call first) :=
      left.elim (walkAst_expression calls) fun ⟨_, logs⟩ => logs
    have two := walkAst_expression calls expression
    rcases joins with rfl | rfl
    · -- The second side is read only if it is walked.
      refine .bind (access_logs (by omega)) fun _ => one.bind fun status => ?_
      split_ifs
      · exact .bind (access_logs (by omega)) fun _ => two
      · exact .pure _
    · refine .bind (access_logs (by omega)) fun _ => one.bind fun status => ?_
      split_ifs
      · exact .bind (access_logs (by omega)) fun _ => two
      · exact .pure _

/-- The text of a command reads elements in range, but for what its commands read. -/
theorem runCommand_logs (outside : Surroundings Rest) (cmd : List UInt8) :
    Logs kind (runCommand outside call cmd) := by
  rw [runCommand]
  split_ifs
  · exact .pure ()
  -- Nothing in front of the walk reads an array.
  refine .bind (expand_logs _) fun _ => tables_logs.bind fun _ => .bind (.lift _) fun lexed =>
    .bind (changeTables_logs _) fun _ => .bind ?_ fun _ => changeTables_logs _
  -- The parser returns a list of expressions, or nothing.
  have shape := parseTokens_shape outside.supply lexed.1 lexed.2
  cases tree : (parseTokens outside.supply lexed.1 lexed.2).node with
  | none => exact .pure ()
  | some ast => exact .bind (walkAst_list calls (shape ast tree)) fun _ => .pure ()

end

/-- What is logged behind reading the tables is what is logged with them. -/
theorem tables_at {Rest α : Type} {kind : List (ShellEvent Rest) → Prop}
    {next : ShellTables Rest → ShellRun Rest α} {ctx : ShellCtx (ShellTables Rest)}
    (logs : kind (next ctx.world ctx).1) : kind ((tables >>= next) ctx).1 := logs

section

variable {Rest : Type} {kind : List (ShellEvent Rest) → Prop} [Tolerates kind] (outside : Surroundings Rest)
  (dispatches : ∀ name again node ctx, node.children = [] → (∀ cmd, Logs kind (again.shellExecuteCommand cmd)) →
    kind ((do
      Traced.emit (.dispatch name (argTexts node) ctx.world)
      shellBuiltin outside name again node : ShellRun Rest Int) ctx).1)

include dispatches

/-- What holds of the record of every call of a builtin holds of that of a command, however deep commands are in
one another. -/
theorem callCommand_logs (fuel : Nat) {node : Node} (cmdName : HeapString) (command : node.IsCommand) :
    Logs kind (callCommand outside fuel node cmdName) := by
  -- A command in a command has one unit of fuel less.
  induction fuel generalizing node cmdName with
  | zero => exact .stop _
  | succ fuel ih =>
    refine .bind (expand_logs _) fun resolved ctx => ?_
    have nested : ∀ cmd, Logs kind (runCommand outside (callCommand outside fuel) cmd) :=
      runCommand_logs (fun node cmdName command => ih cmdName command) outside
    -- The tables that the call is recorded with are those that the builtin starts from.
    refine tables_at ?_
    cases registeredNames.find? fun name => asciiBytes name = shellResolveAlias ctx.world.aliases resolved with
    | some name => exact dispatches name _ node ctx command.2 nested
    | none =>
      exact Logs.bind (printError_logs outside _)
        (fun _ => .bind (printError_logs outside _) fun _ => .pure 127) ctx

/-- So it does of the record of a command line. -/
theorem executeCommand_logs (fuel : Nat) (cmd : List UInt8) : Logs kind (executeCommand outside fuel cmd) :=
  runCommand_logs (fun _ cmdName command => callCommand_logs outside dispatches fuel cmdName command) outside cmd

/-- So it does of the record of command lines one after another. -/
theorem executeCommands_logs (fuel : Nat) (cmds : List (List UInt8)) :
    Logs kind (executeCommands outside fuel cmds) := by
  -- Induction on the commands.
  induction cmds with
  | nil => exact .pure ()
  | cons cmd rest ih => exact .bind (executeCommand_logs outside dispatches fuel cmd) fun _ => ih

end

end MiraOS

import MiraOS.Ui.ShellRecords

/-! Which children and arguments the commands of ui/shell.c read, and when all of these are there. -/

namespace MiraOS

open Machine

section

variable {Rest : Type}

/-- An element outside its array is read. -/
def ShellEvent.OutOfRange : ShellEvent Rest → Prop
  | .access index count => ¬ index < count
  | _ => False

instance (event : ShellEvent Rest) : Decidable event.OutOfRange :=
  match event with
  | .access index count => inferInstanceAs (Decidable (¬ index < count))
  | .copy _ _ | .dispatch _ _ _ => inferInstanceAs (Decidable False)

/-- A builtin is called that runs a child of its node. -/
def ShellEvent.AsksForChild : ShellEvent Rest → Prop
  | .dispatch name args _ => name ∈ askingBuiltins ∧ 2 ≤ args.length
  | _ => False

/-- Elements outside their arrays are read exactly where such a builtin is called. -/
abbrev ReadsWithCalls : List (ShellEvent Rest) → Prop := Together ShellEvent.OutOfRange ShellEvent.AsksForChild

instance : ToleratesCopies (ReadsWithCalls : List (ShellEvent Rest) → Prop) where
  access inside := together_of_neither (fun wrong => wrong inside) id
  copy _ := together_of_neither id id
  stored _ _ := together_of_neither id id

variable (outside : Surroundings Rest) (again : Reentry Rest) (node : Node)

/-- A builtin that runs a child of a simple command reads one that is not there. -/
theorem asking_reads {name : String} (asking : name ∈ askingBuiltins) (bare : node.children = [])
    (before : ShellTables Rest) :
    Logs ReadsWithCalls (do
      Traced.emit (.dispatch name (argTexts node) before)
      shellBuiltin outside name again node) := by
  have counted : (argTexts node).length = argCount node := List.length_map ..
  by_cases few : argCount node < 2
  · -- Without an argument both come back before they look at a child.
    refine .bind (fun _ => together_of_neither id fun asks => ?_) fun _ => ?_
    · rw [ShellEvent.AsksForChild, counted] at asks
      omega
    · simp only [askingBuiltins, List.mem_cons, List.not_mem_nil, or_false] at asking
      rcases asking with rfl | rfl
      · show Logs ReadsWithCalls (builtinNohup again node)
        rw [builtinNohup, if_pos few]
        exact .pure 1
      · show Logs ReadsWithCalls (builtinExec again node)
        rw [builtinExec, if_pos few]
        exact .pure 0
  · intro ctx
    -- Otherwise both the call and the read are in the record.
    have reads : ShellEvent.access 0 0 ∈ (shellBuiltin outside name again node ctx).1 := by
      simp only [askingBuiltins, List.mem_cons, List.not_mem_nil, or_false] at asking
      rcases asking with rfl | rfl
      · show _ ∈ (builtinNohup again node ctx).1
        rw [builtinNohup, if_neg few]
        have fits : VariableFits ctx.world.vars (asciiBytes "HUP_IGNORED") (asciiBytes "1") :=
          variableFits_of_short (by decide) (by decide)
        rw [Traced.bind_ok ((setVariable_guards _ _ ctx).goes fits), firstChild_missing _ bare]
        exact List.mem_append_right _ List.mem_cons_self
      · show _ ∈ (builtinExec again node ctx).1
        rw [builtinExec, if_neg few, firstChild_missing _ bare]
        exact List.mem_cons_self
    constructor
    · intro _
      refine ⟨.dispatch name (argTexts node) before, List.mem_cons_self, asking, ?_⟩
      rw [counted]
      omega
    · intro _
      exact ⟨.access 0 0, List.mem_cons_of_mem _ reads, Nat.lt_irrefl 0⟩

/-- Every call of a builtin reads elements outside their arrays exactly where it runs a child of its node. -/
theorem dispatch_reads (name : String) (ctx : ShellCtx (ShellTables Rest)) (bare : node.children = [])
    (nested : ∀ cmd, Logs ReadsWithCalls (again.shellExecuteCommand cmd)) :
    ReadsWithCalls ((do
      Traced.emit (.dispatch name (argTexts node) ctx.world)
      shellBuiltin outside name again node : ShellRun Rest Int) ctx).1 := by
  -- Only two builtins look at a child of their node.
  by_cases asking : name ∈ askingBuiltins
  · exact asking_reads outside again node asking bare ctx.world ctx
  · -- The other builtins read arguments that are there, whether they store texts or not.
    refine Logs.bind (fun _ => together_of_neither id fun asks => asking asks.1) (fun _ => ?_) ctx
    by_cases storing : name ∈ storingBuiltins
    · exact storingBuiltin_any outside again node storing
    · exact shellBuiltin_logs outside again node nested (List.not_mem_append storing asking)

/-- The elements that a command reads are all in their arrays exactly when no builtin that runs a child of its
node is called with an argument. -/
theorem reads_in_range_iff (fuel : Nat) (cmd : List UInt8) (ctx : ShellCtx (ShellTables Rest)) :
    (∀ index count, .access index count ∈ (executeCommand outside fuel cmd ctx).1 → index < count) ↔
      ∀ name args before, .dispatch name args before ∈ (executeCommand outside fuel cmd ctx).1 →
        name ∈ askingBuiltins → args.length < 2 := by
  have together : ReadsWithCalls (executeCommand outside fuel cmd ctx).1 :=
    executeCommand_logs outside (fun name again node => dispatch_reads outside again node name) fuel cmd ctx
  -- A read out of range comes with such a call, and the call with such a read.
  constructor
  · intro inside name args before called asking
    by_contra many
    obtain ⟨event, among, wrong⟩ := together.mpr ⟨_, called, asking, Nat.le_of_not_lt many⟩
    cases event with
    | access index count => exact wrong (inside index count among)
    | copy length size => exact wrong
    | dispatch name args before => exact wrong
  · intro few index count among
    by_contra wrong
    obtain ⟨event, called, asks⟩ := together.mp ⟨_, among, wrong⟩
    cases event with
    | access index count => exact asks
    | copy length size => exact asks
    | dispatch name args before => exact absurd (few name args before called asks.1) (Nat.not_lt.mpr asks.2)

/-- The builtin that would run a child of its node reads one that is not there. -/
theorem exec_reads_missing_child :
    ¬ ∀ index count, .access index count ∈
      (executeCommand quietSurroundings 1 (asciiBytes "exec ls") quietShell).1 → index < count := by
  intro inside
  -- `exec` without arguments reads the second child of a node that has only one.
  have missing : ∃ event ∈ (executeCommand quietSurroundings 1 (asciiBytes "exec ls") quietShell).1,
      event.OutOfRange := by decide +kernel
  obtain ⟨event, among, wrong⟩ := missing
  cases event with
  | access index count => exact wrong (inside index count among)
  | copy length size => exact wrong
  | dispatch name args before => exact wrong

end

end MiraOS

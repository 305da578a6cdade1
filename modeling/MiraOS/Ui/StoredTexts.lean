import MiraOS.Ui.ShellRecords

/-! Which texts the commands of ui/shell.c store in fields of a fixed size, and when all of them fit. -/

namespace MiraOS

open Machine

/-- The texts of an assignment fit. -/
def AssignmentFits (vars : ShellVars) (arg : List UInt8) : Prop :=
  match strchr arg 0x3D with
  | some eq => VariableFits vars (arg.take eq) (arg.drop (eq + 1))
  | none => True

/-- The texts of the definition of an alias fit. -/
def AliasFits (aliases : ShellAliases) (arg : List UInt8) : Prop :=
  match strchr arg 0x3D with
  | some eq =>
    aliases.globalAliasCount < shellMaxAliases → (arg.take eq).length < 64 ∧ (arg.drop (eq + 1)).length < 256
  | none => True

section

variable {Rest : Type}

/-- What a builtin stores of its arguments fits, given the tables in front of the call. -/
def TextsFit (outside : Surroundings Rest) (name : String) (args : List (List UInt8))
    (before : ShellTables Rest) : Prop :=
  match name with
  | "set" => InTurn AssignmentFits setArgument before.vars (args.drop 1)
  | "export" => InTurn AssignmentFits exportArgument before.vars (args.drop 1)
  | "alias" => InTurn AliasFits aliasArgument before.aliases (args.drop 1)
  | "cd" => ∀ path,
      shellResolveVariables before.vars (args.getD 1 (shellGetVariable before.vars (asciiBytes "HOME"))) =
        .ok path → path.length < 256
  | "read" => ∀ varName, args[1]? = some varName →
      VariableFits before.vars varName ((outside.inputBuffer before.rest).take 255)
  | "umask" => ∀ value, args[1]? = some value → VariableFits before.vars (asciiBytes "UMASK") value
  | "hostname" => ∀ value, args[1]? = some value → VariableFits before.vars (asciiBytes "HOSTNAME") value
  | _ => True

/-- A builtin is called whose texts do not fit. -/
def ShellEvent.Misfits (outside : Surroundings Rest) : ShellEvent Rest → Prop
  | .dispatch name args before => ¬ TextsFit outside name args before
  | _ => False

instance (event : ShellEvent Rest) : Decidable event.Overflows :=
  match event with
  | .copy length size => inferInstanceAs (Decidable (¬ length < size))
  | .access _ _ | .dispatch _ _ _ => inferInstanceAs (Decidable False)

/-- No builtin is called. -/
def ShellEvent.CallsNothing : ShellEvent Rest → Prop
  | .dispatch _ _ _ => False
  | _ => True

/-- Texts are stored in fields without room for them exactly where a builtin is called whose texts do not fit. -/
abbrev StoresWithCalls (outside : Surroundings Rest) : List (ShellEvent Rest) → Prop :=
  Together ShellEvent.Overflows (ShellEvent.Misfits outside)

instance (outside : Surroundings Rest) : Tolerates (StoresWithCalls outside) where
  access _ := together_of_neither id id
  copy fits := together_of_neither (fun wrong => wrong fits) id

instance : Tolerates (Every fun event : ShellEvent Rest => ¬ event.Overflows) where
  access _ := by simp [Every, ShellEvent.Overflows]
  copy fits := by simp [Every, ShellEvent.Overflows, fits]

instance : ToleratesCopies (Every (ShellEvent.CallsNothing : ShellEvent Rest → Prop)) where
  access _ := by simp [Every, ShellEvent.CallsNothing]
  copy _ := by simp [Every, ShellEvent.CallsNothing]
  stored _ _ := by simp [Every, ShellEvent.CallsNothing]

/-- Adding an alias goes on where its texts fit. -/
theorem addAlias_guards (name value : List UInt8) (ctx : ShellCtx (ShellTables Rest)) :
    Guards ShellEvent.Overflows (addAlias name value) ctx
      (ctx.world.aliases.globalAliasCount < shellMaxAliases → name.length < 64 ∧ value.length < 256) ()
      { ctx with world := { ctx.world with aliases := shellAddAlias ctx.world.aliases name value } } :=
  tables_guards (((storeBoth_guards _ _ _ _).bind (changeTables_guards _ _)).congr (by rw [and_true]))

/-- Reading an element in range goes on. -/
theorem elementOf_guards {α : Type} {items : List α} {index : Nat} {item : α}
    (found : items[index]? = some item) (ctx : ShellCtx (ShellTables Rest)) :
    Guards ShellEvent.Overflows (elementOf items index) ctx True item ctx := by
  -- The element is read inside the array, and reading copies nothing.
  have ran : elementOf items index ctx = ([.access index items.length], .ok (item, ctx)) := by
    simp only [elementOf, found]
    rfl
  exact .quiet ran (by simp [ShellEvent.Overflows])

/-- Reading an argument that is there goes on. -/
theorem argument_guards {node : Node} {index : Nat} {text : List UInt8}
    (found : (argTexts node)[index]? = some text) (ctx : ShellCtx (ShellTables Rest)) :
    Guards ShellEvent.Overflows (argument node index) ctx True text ctx := by
  -- The text of an argument is read from the argument's own record.
  rw [argTexts, List.getElem?_map, Option.map_eq_some_iff] at found
  obtain ⟨arg, found, rfl⟩ := found
  exact ((elementOf_guards found ctx).bind (.pure arg.bytes ctx)).congr (by rw [and_true])

/-- A part of a whole that can be replaced by itself. -/
structure PartOf (Whole Part : Type) where
  get : Whole → Part
  set : Whole → Part → Whole
  get_set : ∀ whole part, get (set whole part) = part
  set_get : ∀ whole, set whole (get whole) = whole
  set_set : ∀ whole one other, set (set whole one) other = set whole other

/-- The variables among the tables. -/
def varsPart : PartOf (ShellTables Rest) ShellVars :=
  ⟨ShellTables.vars, fun shell vars => { shell with vars := vars }, fun _ _ => rfl, fun _ => rfl,
    fun _ _ _ => rfl⟩

/-- The aliases among the tables. -/
def aliasesPart : PartOf (ShellTables Rest) ShellAliases :=
  ⟨ShellTables.aliases, fun shell aliases => { shell with aliases := aliases }, fun _ _ => rfl, fun _ => rfl,
    fun _ _ _ => rfl⟩

section

variable {Part : Type} (part : PartOf (ShellTables Rest) Part) (step : Part → List UInt8 → Part)

/-- A context with the part replaced by what the texts of arguments make of it. -/
def replaced (ctx : ShellCtx (ShellTables Rest)) (texts : List (List UInt8)) : ShellCtx (ShellTables Rest) :=
  { ctx with world := part.set ctx.world (texts.foldl step (part.get ctx.world)) }

/-- Replacing the part argument by argument replaces it by what all of them make of it. -/
theorem foldl_replaced (args : List HeapString) (ctx : ShellCtx (ShellTables Rest)) :
    args.foldl (fun ctx arg => replaced part step ctx [arg.bytes]) ctx =
      replaced part step ctx (args.map fun arg => arg.bytes) := by
  -- A part that is replaced twice is the one of the second time.
  induction args generalizing ctx with
  | nil => simp only [replaced, List.foldl_nil, List.map_nil, part.set_get]
  | cons arg rest ih =>
    rw [List.foldl_cons, ih]
    simp only [replaced, List.map_cons, List.foldl_cons, List.foldl_nil, part.get_set, part.set_set]

/-- The loop over arguments goes on where each of them fits, with what all of them make of the part. -/
theorem eachArgument_guards {fits : Part → List UInt8 → Prop} {body : Nat → List UInt8 → ShellRun Rest Unit}
    (one : ∀ i arg ctx, Guards ShellEvent.Overflows (body i arg) ctx (fits (part.get ctx.world) arg) ()
      (replaced part step ctx [arg]))
    (node : Node) (ctx : ShellCtx (ShellTables Rest)) :
    Guards ShellEvent.Overflows (eachArgument node 1 body) ctx
      (InTurn fits step (part.get ctx.world) ((argTexts node).drop 1)) ()
      (replaced part step ctx ((argTexts node).drop 1)) := by
  rw [argTexts, ← List.map_drop, ← foldl_replaced]
  -- The loop goes over the arguments themselves, whose texts are what has to fit.
  have texts : InTurn
      (fun (ctx : ShellCtx (ShellTables Rest)) (arg : HeapString) => fits (part.get ctx.world) arg.bytes)
      (fun ctx arg => replaced part step ctx [arg.bytes]) ctx (node.cmd.args.drop 1) ↔
      InTurn fits step (part.get ctx.world) ((node.cmd.args.drop 1).map fun arg => arg.bytes) := by
    refine inTurn_map (fun ctx => part.get ctx.world) (fun arg : HeapString => arg.bytes) ?_ ?_ ctx _
    · exact fun _ _ => Iff.rfl
    · exact fun _ _ => part.get_set _ _
  refine Guards.congr (.eachFrom (fun k arg found ctx => ?_) ctx) texts
  have inside := (List.getElem?_eq_some_iff.mp found).1
  rw [List.length_drop] at inside
  -- The argument itself is there.
  have reads : Guards ShellEvent.Overflows (access (1 + k) (argCount node)) ctx True () ctx := by
    have ran : access (1 + k) (argCount node) ctx = ([.access (1 + k) (argCount node)], .ok ((), ctx)) := by
      simp only [access, if_pos (show 1 + k < argCount node by rw [argCount]; omega)]
      rfl
    exact .quiet ran (by simp [ShellEvent.Overflows])
  exact (reads.bind (one _ _ _)).congr (by rw [true_and])

end

/-- Expanding a text goes on if the expansion does. -/
theorem expand_guards {text resolved : List UInt8} {ctx : ShellCtx (ShellTables Rest)}
    (ok : shellResolveVariables ctx.world.vars text = .ok resolved) :
    Guards ShellEvent.Overflows (expand text) ctx True resolved ctx := by
  -- Expanding reads the variables and copies nothing into the tables.
  have ran : Traced.lift (shellResolveVariables ctx.world.vars text) ctx =
      (([] : List (ShellEvent Rest)), .ok (resolved, ctx)) := by
    rw [ok]
    rfl
  exact tables_guards (.quiet ran (by simp))

variable (outside : Surroundings Rest) (again : Reentry Rest) (node : Node) (ctx : ShellCtx (ShellTables Rest))

/-- Changing the directory stores what the path expands to, as the directory and as a variable. -/
theorem builtinCd_overflows :
    (∃ event ∈ (builtinCd again node ctx).1, event.Overflows) ↔
      ¬ TextsFit outside "cd" (argTexts node) ctx.world := by
  have path : Guards ShellEvent.Overflows
      (argumentOr node (shellGetVariable ctx.world.vars (asciiBytes "HOME"))) ctx True
      ((argTexts node).getD 1 (shellGetVariable ctx.world.vars (asciiBytes "HOME"))) ctx := by
    have counted : (argTexts node).length = argCount node := List.length_map ..
    rw [argumentOr, List.getD_eq_getElem?_getD]
    split_ifs with more
    · have found : (argTexts node)[1]? = some (argTexts node)[1] := List.getElem?_eq_getElem (by omega)
      rw [found]
      exact argument_guards found ctx
    · rw [List.getElem?_eq_none (by omega)]
      exact .pure _ _
  show _ ↔ ¬ ∀ resolved, shellResolveVariables ctx.world.vars
    ((argTexts node).getD 1 (shellGetVariable ctx.world.vars (asciiBytes "HOME"))) = .ok resolved →
      resolved.length < 256
  generalize (argTexts node).getD 1 (shellGetVariable ctx.world.vars (asciiBytes "HOME")) = text at path ⊢
  cases expanded : shellResolveVariables ctx.world.vars text with
  | error halt =>
    -- The expansion stops before anything is stored.
    have nothing : ∀ next : List UInt8 → ShellRun Rest Int, ((expand text >>= next) ctx).1 = [] := by
      intro next
      show (((Traced.lift (shellResolveVariables ctx.world.vars text) :
        ShellRun Rest (List UInt8)) >>= next) ctx).1 = []
      rw [expanded]
      rfl
    have look : Guards ShellEvent.Overflows tables ctx True ctx.world ctx := .quiet rfl (by simp)
    rw [builtinCd, look.later, path.later, nothing]
    simp
  | ok resolved =>
    have stores : Guards ShellEvent.Overflows (builtinCd again node) ctx _ _ _ :=
      tables_guards (path.bind ((expand_guards expanded).bind ((storeText_guards _ _ _).bind
        ((changeTables_guards _ _).bind ((setVariable_guards _ _ _).bind (.pure _ _))))))
    rw [stores.bad_iff, not_congr]
    simp only [true_and, and_true, Except.ok.injEq, forall_eq']
    exact ⟨fun both => both.1, fun fits => ⟨fits, variableFits_of_short (by decide) fits⟩⟩

/-- Setting variables goes on where the assignments among the arguments fit in turn. -/
theorem builtinSet_guards :
    Guards ShellEvent.Overflows (builtinSetRun again node) ctx
      (TextsFit outside "set" (argTexts node) ctx.world) 0
      { ctx with world := { ctx.world with vars := builtinSet ctx.world.vars (argTexts node) } } := by
  have one : ∀ arg (ctx : ShellCtx (ShellTables Rest)), Guards ShellEvent.Overflows
      (match strchr arg 0x3D with
        | some eq => setVariable (arg.take eq) (arg.drop (eq + 1))
        | none => pure ())
      ctx (AssignmentFits ctx.world.vars arg) () (replaced varsPart setArgument ctx [arg]) := by
    intro arg ctx
    rw [AssignmentFits, replaced, List.foldl_cons, setArgument]
    -- An argument without an equals sign is passed over.
    cases strchr arg 0x3D with
    | some eq => exact setVariable_guards _ _ _
    | none => exact .pure _ _
  have loop := eachArgument_guards varsPart setArgument (fun _ => one) node ctx
  exact (loop.bind (.pure (0 : Int) _)).congr (by rw [and_true]; rfl)

/-- Exporting variables goes on where the same fits, and marks the variables. -/
theorem builtinExport_guards :
    Guards ShellEvent.Overflows (builtinExportRun again node) ctx
      (TextsFit outside "export" (argTexts node) ctx.world) 0
      { ctx with world := { ctx.world with vars := builtinExport ctx.world.vars (argTexts node) } } := by
  have one : ∀ arg (ctx : ShellCtx (ShellTables Rest)), Guards ShellEvent.Overflows
      (match strchr arg 0x3D with
        | some eq => do
          setVariable (arg.take eq) (arg.drop (eq + 1))
          exportVariable (arg.take eq)
        | none => exportVariable arg)
      ctx (AssignmentFits ctx.world.vars arg) () (replaced varsPart exportArgument ctx [arg]) := by
    intro arg ctx
    rw [AssignmentFits, replaced, List.foldl_cons, exportArgument]
    -- The mark is set behind the copy, or alone.
    cases strchr arg 0x3D with
    | some eq => exact ((setVariable_guards _ _ _).bind (changeTables_guards _ _)).congr (by rw [and_true])
    | none => exact changeTables_guards _ _
  have loop := eachArgument_guards varsPart exportArgument (fun _ => one) node ctx
  exact (loop.bind (.pure (0 : Int) _)).congr (by rw [and_true]; rfl)

/-- Defining aliases goes on where the definitions among the arguments fit in turn. -/
theorem builtinAlias_guards (several : argCount node ≠ 1) :
    Guards ShellEvent.Overflows (builtinAliasRun outside again node) ctx
      (TextsFit outside "alias" (argTexts node) ctx.world) 0
      { ctx with world := { ctx.world with aliases := builtinAlias ctx.world.aliases (argTexts node) } } := by
  -- One argument: with '=' its two halves are copied, without it nothing is.
  have one : ∀ arg (ctx : ShellCtx (ShellTables Rest)), Guards ShellEvent.Overflows
      (match strchr arg 0x3D with
        | some eq => addAlias (arg.take eq) (arg.drop (eq + 1))
        | none => pure ())
      ctx (AliasFits ctx.world.aliases arg) () (replaced aliasesPart aliasArgument ctx [arg]) := by
    intro arg ctx
    rw [AliasFits, replaced, List.foldl_cons, aliasArgument]
    cases strchr arg 0x3D with
    | some eq => exact addAlias_guards _ _ _
    | none => exact .pure _ _
  -- The loop runs over the arguments, and the copies of all of them are asked to fit.
  have counted : (argTexts node).length = argCount node := List.length_map ..
  have loop := eachArgument_guards aliasesPart aliasArgument (fun _ => one) node ctx
  rw [builtinAliasRun, if_neg several, builtinAlias, if_neg (by rw [counted]; exact several)]
  exact (loop.bind (.pure (0 : Int) _)).congr (by rw [and_true]; rfl)

/-- Defining aliases stores texts without room for them where a definition does not fit. -/
theorem builtinAlias_overflows :
    (∃ event ∈ (builtinAliasRun outside again node ctx).1, event.Overflows) ↔
      ¬ TextsFit outside "alias" (argTexts node) ctx.world := by
  by_cases alone : argCount node = 1
  · -- Without arguments the aliases are shown, and nothing is stored.
    have nothing : Logs (Every fun event => ¬ event.Overflows) (builtinAliasRun outside again node) := by
      rw [builtinAliasRun, if_pos alone]
      exact .bind tables_logs fun _ => .bind (drawAll_logs outside _) fun _ => .pure 0
    have texts : (argTexts node).drop 1 = [] := by
      rw [List.drop_eq_nil_iff, argTexts, List.length_map]
      exact Nat.le_of_eq alone
    have fits : TextsFit outside "alias" (argTexts node) ctx.world := by
      show InTurn _ _ _ ((argTexts node).drop 1)
      rw [texts]
      trivial
    constructor
    · intro overflow
      obtain ⟨event, among, wrong⟩ := overflow
      exact absurd wrong (nothing ctx event among)
    · intro wrong
      exact absurd fits wrong
  · exact (builtinAlias_guards outside again node ctx alone).bad_iff

/-- A builtin that stores something only with an argument stores nothing without one. -/
theorem missing_overflows {program : ShellRun Rest Int} {fits : List UInt8 → Prop} (few : argCount node < 2)
    (nothing : Logs (Every fun event => ¬ event.Overflows) program) :
    (∃ event ∈ (program ctx).1, event.Overflows) ↔ ¬ ∀ text, (argTexts node)[1]? = some text → fits text := by
  -- With fewer than two words there is no text to copy, so no copy overflows.
  have counted : (argTexts node).length = argCount node := List.length_map ..
  rw [List.getElem?_eq_none (by omega)]
  simp only [reduceCtorEq, false_implies, implies_true, not_true, iff_false]
  intro overflow
  obtain ⟨event, among, wrong⟩ := overflow
  exact nothing ctx event among wrong

/-- Setting a variable at the end of a builtin stores texts that fit or not. -/
theorem setVariable_overflows (name value : List UInt8) (status : Int) :
    (∃ event ∈ ((do
      setVariable name value
      return status : ShellRun Rest Int) ctx).1, event.Overflows) ↔ ¬ VariableFits ctx.world.vars name value := by
  rw [((setVariable_guards name value ctx).bind (.pure status _)).bad_iff, and_true]

/-- Reading a line stores it under the name of the argument. -/
theorem builtinRead_overflows :
    (∃ event ∈ (builtinRead outside again node ctx).1, event.Overflows) ↔
      ¬ TextsFit outside "read" (argTexts node) ctx.world := by
  have counted : (argTexts node).length = argCount node := List.length_map ..
  rw [builtinRead]
  by_cases few : argCount node < 2
  · rw [if_pos few]
    exact missing_overflows node ctx few (.bind (printError_logs outside _) fun _ => .pure 1)
  · rw [if_neg few]
    -- With an argument the line is stored under it, whatever it holds.
    have found : (argTexts node)[1]? = some (argTexts node)[1] := List.getElem?_eq_getElem (by omega)
    show _ ↔ ¬ ∀ varName, (argTexts node)[1]? = some varName →
      VariableFits ctx.world.vars varName ((outside.inputBuffer ctx.world.rest).take 255)
    have look : Guards ShellEvent.Overflows tables ctx True ctx.world ctx := .quiet rfl (by simp)
    rw [found, (argument_guards found ctx).later, look.later, setVariable_overflows]
    simp only [Option.some.injEq, forall_eq']

/-- Showing or setting a variable stores the argument in it. -/
theorem showOrSet_overflows (field : String) :
    (∃ event ∈ (showOrSet outside field again node ctx).1, event.Overflows) ↔
      ¬ ∀ value, (argTexts node)[1]? = some value → VariableFits ctx.world.vars (asciiBytes field) value := by
  have counted : (argTexts node).length = argCount node := List.length_map ..
  rw [showOrSet]
  -- An argument is stored, and without one nothing is.
  by_cases more : 1 < argCount node
  · rw [if_pos more]
    have found : (argTexts node)[1]? = some (argTexts node)[1] := List.getElem?_eq_getElem (by omega)
    rw [found, (argument_guards found ctx).later, setVariable_overflows]
    simp only [Option.some.injEq, forall_eq']
  · rw [if_neg more]
    exact missing_overflows node ctx (by omega)
      (.bind tables_logs fun _ => .bind (drawLine_logs outside _) fun _ => .pure 0)

/-- A builtin that stores texts of its arguments overflows a field exactly where they do not fit. -/
theorem storing_overflows {name : String} (storing : name ∈ storingBuiltins) :
    (∃ event ∈ (shellBuiltin outside name again node ctx).1, event.Overflows) ↔
      ¬ TextsFit outside name (argTexts node) ctx.world := by
  -- Each of these builtins has been looked at by itself.
  simp only [storingBuiltins, List.mem_cons, List.not_mem_nil, or_false] at storing
  rcases storing with rfl | rfl | rfl | rfl | rfl | rfl | rfl
  · exact builtinCd_overflows outside again node ctx
  · exact (builtinExport_guards outside again node ctx).bad_iff
  · exact (builtinSet_guards outside again node ctx).bad_iff
  · exact builtinAlias_overflows outside again node ctx
  · exact builtinRead_overflows outside again node ctx
  · exact showOrSet_overflows outside again node ctx "UMASK"
  · exact showOrSet_overflows outside again node ctx "HOSTNAME"

/-- A call of such a builtin, with its record, overflows a field exactly where its texts do not fit. -/
theorem storing_stores {name : String} (storing : name ∈ storingBuiltins) :
    StoresWithCalls outside ((do
      Traced.emit (.dispatch name (argTexts node) ctx.world)
      shellBuiltin outside name again node : ShellRun Rest Int) ctx).1 := by
  have calls : Every ShellEvent.CallsNothing (shellBuiltin outside name again node ctx).1 :=
    storingBuiltin_any outside again node storing ctx
  -- Its own copies tell whether its texts fit.
  have overflows := storing_overflows outside again node ctx storing
  show StoresWithCalls outside (.dispatch name (argTexts node) ctx.world ::
    (shellBuiltin outside name again node ctx).1)
  have stored : ¬ (ShellEvent.dispatch name (argTexts node) ctx.world).Overflows := id
  rw [StoresWithCalls, Together, List.exists_mem_cons_iff, List.exists_mem_cons_iff, or_iff_right stored,
    overflows]
  constructor
  · exact .inl
  · rintro (misfits | ⟨event, among, misfits⟩)
    · exact misfits
    · -- No other builtin is called on the way.
      have nothing := calls event among
      cases event with
      | access index count => exact misfits.elim
      | copy length size => exact misfits.elim
      | dispatch name args before => exact nothing.elim

/-- A builtin that runs a child of a simple command stores nothing but a mark that fits. -/
theorem asking_stores {name : String} (asking : name ∈ askingBuiltins) (bare : node.children = []) :
    Logs (StoresWithCalls outside) (shellBuiltin outside name again node) := by
  -- The child that it reads is not there, where the run stops.
  have missing : ∀ next : Node → ShellRun Rest Int,
      Logs (StoresWithCalls outside) (elementOf node.children 0 >>= next) := by
    intro next ctx
    rw [firstChild_missing next bare ctx]
    exact together_of_neither id id
  simp only [askingBuiltins, List.mem_cons, List.not_mem_nil, or_false] at asking
  rcases asking with rfl | rfl
  · show Logs (StoresWithCalls outside) (builtinNohup again node)
    rw [builtinNohup]
    split_ifs
    · exact .pure 1
    · exact .bind (setVariable_logs (by decide) (by decide)) fun _ => missing _
  · show Logs (StoresWithCalls outside) (builtinExec again node)
    rw [builtinExec]
    split_ifs
    · exact .pure 0
    · exact missing _

/-- The texts of a builtin that stores none of its arguments always fit. -/
theorem textsFit_of_not_storing {name : String} (usual : name ∉ storingBuiltins) (args : List (List UInt8))
    (before : ShellTables Rest) : TextsFit outside name args before := by
  -- Every builtin that stores a text is excluded.
  simp only [storingBuiltins, List.mem_cons, List.not_mem_nil, or_false, not_or] at usual
  unfold TextsFit
  split <;> simp_all

/-- Every call of a builtin overflows a field exactly where its texts do not fit. -/
theorem dispatch_stores (name : String) (bare : node.children = [])
    (nested : ∀ cmd, Logs (StoresWithCalls outside) (again.shellExecuteCommand cmd)) :
    StoresWithCalls outside ((do
      Traced.emit (.dispatch name (argTexts node) ctx.world)
      shellBuiltin outside name again node : ShellRun Rest Int) ctx).1 := by
  by_cases storing : name ∈ storingBuiltins
  · exact storing_stores outside again node ctx storing
  · -- The other builtins store short texts only, and what they are called with always fits.
    have fits := textsFit_of_not_storing outside storing (argTexts node) ctx.world
    refine Logs.bind (fun _ => together_of_neither id fun misfits => misfits fits) (fun _ => ?_) ctx
    by_cases asking : name ∈ askingBuiltins
    · exact asking_stores outside again node asking bare
    · exact shellBuiltin_logs outside again node nested (List.not_mem_append storing asking)

/-- The texts that commands store all fit their fields exactly when every builtin is called with texts that fit. -/
theorem texts_fit_iff (fuel : Nat) (cmds : List (List UInt8)) :
    (∀ length size, .copy length size ∈ (executeCommands outside fuel cmds ctx).1 → length < size) ↔
      ∀ name args before, .dispatch name args before ∈ (executeCommands outside fuel cmds ctx).1 →
        TextsFit outside name args before := by
  have together : StoresWithCalls outside (executeCommands outside fuel cmds ctx).1 :=
    executeCommands_logs outside (fun name again node ctx => dispatch_stores outside again node ctx name) fuel
      cmds ctx
  -- A copy without room comes with a call without fit, and the call with such a copy.
  constructor
  · intro inside name args before called
    by_contra misfits
    obtain ⟨event, among, wrong⟩ := together.mpr ⟨_, called, misfits⟩
    cases event with
    | access index count => exact wrong
    | copy length size => exact wrong (inside length size among)
    | dispatch name args before => exact wrong
  · intro fits length size among
    by_contra wrong
    obtain ⟨event, called, misfits⟩ := together.mp ⟨_, among, wrong⟩
    cases event with
    | access index count => exact misfits
    | copy length size => exact misfits
    | dispatch name args before => exact misfits (fits name args before called)

/-- A name of 64 characters is stored in a field of as many. -/
theorem long_variable_name_overflows :
    ¬ ∀ length size, .copy length size ∈ (executeCommands quietSurroundings 1
      [asciiBytes "read " ++ List.replicate 64 97] quietShell).1 → length < size := by
  intro inside
  -- `read` copies the name of 64 letters into a field of 64 bytes.
  have overflow : ∃ event ∈ (executeCommands quietSurroundings 1
      [asciiBytes "read " ++ List.replicate 64 97] quietShell).1, event.Overflows := by decide +kernel
  obtain ⟨event, among, wrong⟩ := overflow
  cases event with
  | access index count => exact wrong
  | copy length size => exact wrong (inside length size among)
  | dispatch name args before => exact wrong

end

end MiraOS

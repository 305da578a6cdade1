import MiraOS.Ui.NamedRecords
import MiraOS.Machine.Keyed

/-! The variables of ui/shell.c: a table of records, and the finite map it stands for. -/

namespace MiraOS

open Machine

/-- Limit of the table of variables. -/
def shellMaxVars : Nat := 1024

/-- Bytes of a variable: its name, its value, its type, two flags and two bytes of padding. -/
def varSize : Nat := 328

/-- The table of variables and their number. -/
structure ShellVars where
  globalVars : Memory
  globalVarCount : Nat

/-- The table before the first variable, over whatever its bytes are. -/
def noVars (globalVars : Memory) : ShellVars := ⟨globalVars, 0⟩

/-- Write a new variable into its record. -/
def writeVariable (mem : Memory) (start : Nat) (name value : List UInt8) : Memory :=
  let mem := dsStrcpy mem start name
  let mem := dsStrcpy mem (start + 64) value
  -- The type of texts is zero, and a new variable is neither exported nor read-only.
  let mem := writeLE mem (start + 320) 4 0
  let mem := Function.update mem (start + 324) 0
  Function.update mem (start + 325) 0

/-- Set a variable, which is added unless the table is full. -/
def shellSetVariable (vars : ShellVars) (name value : List UInt8) : ShellVars :=
  match recordNamed varSize vars.globalVars vars.globalVarCount name with
  | some i => { vars with globalVars := dsStrcpy vars.globalVars (i * varSize + 64) value }
  | none =>
    if vars.globalVarCount < shellMaxVars then
      ⟨writeVariable vars.globalVars (vars.globalVarCount * varSize) name value,
        vars.globalVarCount + 1⟩
    else vars

/-- The value of a variable, which is read up to its end wherever that is. -/
def shellGetVariable (vars : ShellVars) (name : List UInt8) : List UInt8 :=
  match recordNamed varSize vars.globalVars vars.globalVarCount name with
  | some i =>
    readText vars.globalVars (i * varSize + 64) (shellMaxVars * varSize - (i * varSize + 64))
  | none => []

/-- Mark a variable as exported. -/
def shellExportVariable (vars : ShellVars) (name : List UInt8) : ShellVars :=
  match recordNamed varSize vars.globalVars vars.globalVarCount name with
  | some i => { vars with globalVars := Function.update vars.globalVars (i * varSize + 324) 1 }
  | none => vars

/-- Remove one variable, as in the body of the loop over the arguments. -/
def unsetVariable (vars : ShellVars) (name : List UInt8) : ShellVars :=
  match recordNamed varSize vars.globalVars vars.globalVarCount name with
  | some j =>
    ⟨recordRemove varSize vars.globalVars vars.globalVarCount j, vars.globalVarCount - 1⟩
  | none => vars

/-- Remove the variables named by the arguments behind the command. -/
def builtinUnset (vars : ShellVars) (args : List (List UInt8)) : ShellVars :=
  (args.drop 1).foldl unsetVariable vars

/-- A variable as the shell means it. -/
structure ShellVar where
  name : List UInt8
  value : List UInt8
  exported : Bool
  deriving DecidableEq

/-- The bytes of a record stand for a variable. -/
structure ShellVar.At (bytes : Memory) (var : ShellVar) : Prop where
  name : TextAt bytes 0 var.name
  nameFits : var.name.length < 64
  value : TextAt bytes 64 var.value
  valueFits : var.value.length < 256
  exported : bytes 324 = if var.exported then 1 else 0

/-- The variable that the bytes of a record are read as. -/
def ShellVar.read (bytes : Memory) : ShellVar :=
  ⟨readText bytes 0 64, readText bytes 64 256, bytes 324 ≠ 0⟩

/-- The variables that the table stands for, as they are read from it. -/
def ShellVars.list (vars : ShellVars) : List ShellVar :=
  (List.range vars.globalVarCount).map fun i => ShellVar.read (record varSize vars.globalVars i)

/-- The names in the table, in order. -/
def ShellVars.names (vars : ShellVars) : List (List UInt8) := vars.list.map (·.name)

/-- The finite map from names to values and marks. -/
def ShellVars.lookup (vars : ShellVars) (name : List UInt8) : Option (List UInt8 × Bool) :=
  (keyed (·.name) vars.list name).map fun var => (var.value, var.exported)

/-- The table stands for these variables, of distinct names. -/
structure ShellVars.Holds (vars : ShellVars) (items : List ShellVar) : Prop where
  count : vars.globalVarCount = items.length
  records : RecordsHold varSize ShellVar.At vars.globalVars items
  distinct : (items.map (·.name)).Nodup
  bounded : items.length ≤ shellMaxVars

/-- The table without a variable stands for none, whatever bytes it has. -/
theorem noVars_holds (globalVars : Memory) : (noVars globalVars).Holds [] :=
  ⟨rfl, RecordsHold.nil, List.nodup_nil, Nat.zero_le _⟩

/-- A record of a variable depends on its own bytes. -/
theorem shellVar_local : Shape.Local varSize ShellVar.At := by
  intro one two var same at_
  have nameFits := at_.nameFits
  have valueFits := at_.valueFits
  -- The name, the value and the exported mark lie below `varSize`, the mark at offset 324.
  refine ⟨at_.name.congr fun i inside => same _ ?_, nameFits,
    at_.value.congr fun i inside => same _ ?_, valueFits, ?_⟩
  · rw [varSize]
    omega
  · rw [varSize]
    omega
  · rw [same 324 (by decide), at_.exported]

/-- A variable is read as what its record stands for. -/
theorem ShellVar.At.read_eq {bytes : Memory} {var : ShellVar} (at_ : var.At bytes) :
    ShellVar.read bytes = var := by
  -- The mark is stored as a word that is zero or one.
  have exported : decide (bytes 324 ≠ 0) = var.exported := by
    rw [at_.exported]
    cases var.exported <;> rfl
  rw [ShellVar.read, at_.name.read at_.nameFits, at_.value.read at_.valueFits, exported]

/-- What is read from the table is what it stands for. -/
theorem ShellVars.Holds.list_eq {vars : ShellVars} {items : List ShellVar} (holds : vars.Holds items) :
    vars.list = items := by
  -- Position by position: below the count the record is read back, behind it both lists end.
  refine List.ext_getElem? fun i => ?_
  rw [ShellVars.list, holds.count, List.getElem?_map]
  by_cases inside : i < items.length
  · have here : items[i]? = some items[i] := List.getElem?_eq_getElem inside
    rw [List.getElem?_range inside, here, Option.map_some, (holds.records.held here).read_eq]
  · rw [List.getElem?_eq_none (by simpa using inside), List.getElem?_eq_none (by simpa using inside)]
    rfl

/-- The loop finds the first variable of a name. -/
theorem ShellVars.Holds.found {vars : ShellVars} {items : List ShellVar} (holds : vars.Holds items)
    {name : List UInt8} (solid : 0 ∉ name) :
    recordNamed varSize vars.globalVars vars.globalVarCount name =
      items.findIdx? (·.name = name) := by
  rw [holds.count]
  exact recordNamed_eq holds.records ShellVar.At.name solid

/-- A new variable is written inside its record. -/
theorem writeVariable_outside {mem : Memory} {start address : Nat} {name value : List UInt8}
    (named : NameFits name) (fits : ValueFits value)
    (apart : address < start ∨ start + varSize ≤ address) :
    writeVariable mem start name value address = mem address := by
  -- Name, value and mark lie within the record, the terminators included.
  have short := named.2
  have brief := fits.2
  rw [varSize] at apart
  rw [writeVariable, Function.update_of_ne (by omega), Function.update_of_ne (by omega),
    writeLE_outside (by omega), dsStrcpy_outside value (by omega), dsStrcpy_outside name (by omega)]

/-- The record of a new variable stands for it. -/
theorem writeVariable_at (mem : Memory) (index : Nat) {name value : List UInt8}
    (named : NameFits name) (fits : ValueFits value) :
    ShellVar.At (record varSize (writeVariable mem (index * varSize) name value) index)
      ⟨name, value, false⟩ := by
  have short := named.2
  have brief := fits.2
  -- The fields are written one behind the other, so each keeps what was written before it.
  have before : ∀ address, address < index * varSize + 64 →
      writeVariable mem (index * varSize) name value address =
        dsStrcpy mem (index * varSize) name address := by
    intro address low
    rw [writeVariable, Function.update_of_ne (by omega), Function.update_of_ne (by omega),
      writeLE_outside (by omega), dsStrcpy_outside value (by omega)]
  have middle : ∀ address, address < index * varSize + 320 →
      writeVariable mem (index * varSize) name value address =
        dsStrcpy (dsStrcpy mem (index * varSize) name) (index * varSize + 64) value address := by
    intro address low
    rw [writeVariable, Function.update_of_ne (by omega), Function.update_of_ne (by omega),
      writeLE_outside (by omega)]
  refine ⟨?_, short, ?_, brief, ?_⟩
  · have written : TextAt (writeVariable mem (index * varSize) name value) (index * varSize) name :=
      (dsStrcpy_textAt mem (index * varSize) named.1).congr fun i inside => before _ (by omega)
    rwa [textAt_record, Nat.add_zero]
  · have written : TextAt (writeVariable mem (index * varSize) name value) (index * varSize + 64) value :=
      (dsStrcpy_textAt _ (index * varSize + 64) fits.1).congr fun i inside => middle _ (by omega)
    exact textAt_record.mpr written
  · rw [record, writeVariable, Function.update_of_ne (by omega), Function.update_self]
    rfl

section

variable {vars : ShellVars} {items : List ShellVar} (holds : vars.Holds items) {name : List UInt8}

include holds

/-- Writing a value into a record replaces the value of its variable. -/
theorem ShellVars.Holds.write_value {value : List UInt8} (fits : ValueFits value) {i : Nat}
    {var : ShellVar} (here : items[i]? = some var) :
    RecordsHold varSize ShellVar.At (dsStrcpy vars.globalVars (i * varSize + 64) value)
      (items.set i { var with value := value }) := by
  have at_ := holds.records.held here
  have nameFits := at_.nameFits
  have short := fits.2
  have size : varSize = 328 := rfl
  refine holds.records.set shellVar_local (fun address apart => ?_) ⟨?_, nameFits, ?_, short, ?_⟩
  · have far : address < i * varSize + 64 ∨ i * varSize + 64 + value.length < address := by omega
    rw [dsStrcpy_outside value far]
  · -- The name lies before the bytes of the value, and the mark behind them.
    refine at_.name.congr fun k inside => ?_
    rw [record, record, dsStrcpy_outside value (by omega)]
  · rw [textAt_record]
    exact dsStrcpy_textAt _ _ fits.1
  · rw [← at_.exported, record, record, dsStrcpy_outside value (by omega)]

/-- Setting a mark in a record marks its variable. -/
theorem ShellVars.Holds.write_mark {i : Nat} {var : ShellVar} (here : items[i]? = some var) :
    RecordsHold varSize ShellVar.At (Function.update vars.globalVars (i * varSize + 324) 1)
      (items.set i { var with exported := true }) := by
  have at_ := holds.records.held here
  have nameFits := at_.nameFits
  have valueFits := at_.valueFits
  have size : varSize = 328 := rfl
  -- Only the byte of the mark changes; other records, the name and the value lie elsewhere.
  refine holds.records.set shellVar_local (fun address apart => ?_) ⟨?_, nameFits, ?_, valueFits, ?_⟩
  · rw [Function.update_of_ne (by omega)]
  · refine at_.name.congr fun k inside => ?_
    rw [record, record, Function.update_of_ne (by omega)]
  · refine at_.value.congr fun k inside => ?_
    rw [record, record, Function.update_of_ne (by omega)]
  · rw [record, Function.update_self]
    rfl

/-- Changing the variable of a name keeps the table, once its records are written. -/
theorem ShellVars.Holds.change {mem : Memory} {change : ShellVar → ShellVar} {i : Nat}
    {var : ShellVar} (kept : ∀ var, (change var).name = var.name)
    (place : items.findIdx? (·.name = name) = some i) (here : items[i]? = some var)
    (records : RecordsHold varSize ShellVar.At mem (items.set i (change var))) :
    ShellVars.Holds ⟨mem, vars.globalVarCount⟩ (changeKey (·.name) name change items) := by
  -- Names are distinct, so changing the record found is changing the variable of the name.
  rw [set_findIdx? holds.distinct place here] at records
  refine ⟨?_, records, ?_, ?_⟩
  · simpa [changeKey] using holds.count
  · rw [changeKey_keys kept]
    exact holds.distinct
  · simpa [changeKey] using holds.bounded

/-- Setting a variable that exists replaces its value. -/
theorem ShellVars.Holds.set_old {value : List UInt8} (fits : ValueFits value) (solid : 0 ∉ name)
    (old : name ∈ items.map (·.name)) :
    (shellSetVariable vars name value).Holds
      (changeKey (·.name) name (fun var => { var with value := value }) items) := by
  -- The name is listed, so the search finds its record and the value is written there.
  cases place : items.findIdx? (·.name = name) with
  | none => exact absurd old (findIdx?_key_eq_none.mp place)
  | some i =>
    obtain ⟨var, here, -, -⟩ := getElem?_of_findIdx? place
    rw [shellSetVariable, holds.found solid, place]
    exact holds.change (fun _ => rfl) place here (holds.write_value fits here)

/-- Setting a new variable adds it behind the others, while the table has room. -/
theorem ShellVars.Holds.set_new {value : List UInt8} (named : NameFits name) (fits : ValueFits value)
    (fresh : name ∉ items.map (·.name)) (room : items.length < shellMaxVars) :
    (shellSetVariable vars name value).Holds (items ++ [⟨name, value, false⟩]) := by
  have place : items.findIdx? (·.name = name) = none := findIdx?_key_eq_none.mpr fresh
  rw [shellSetVariable, holds.found named.1, place]
  simp only [holds.count, if_pos room]
  refine ⟨by simp, ?_, ?_, ?_⟩
  · exact holds.records.push shellVar_local
      (fun address apart => writeVariable_outside named fits apart)
      (writeVariable_at _ _ named fits)
  · -- The name is new, so the names stay distinct.
    rw [List.map_append, List.nodup_append]
    refine ⟨holds.distinct, by simp, fun other among one single same => fresh ?_⟩
    have here : one = name := by simpa using single
    rwa [← here, ← same]
  · rw [List.length_append, List.length_singleton]
    exact room

/-- Setting a new variable does nothing once the table is full. -/
theorem ShellVars.Holds.set_full {value : List UInt8} (solid : 0 ∉ name)
    (fresh : name ∉ items.map (·.name)) (full : ¬ items.length < shellMaxVars) :
    shellSetVariable vars name value = vars := by
  have place : items.findIdx? (·.name = name) = none := findIdx?_key_eq_none.mpr fresh
  rw [shellSetVariable, holds.found solid, place]
  simp only [holds.count, if_neg full]

/-- Exporting a variable marks it. -/
theorem ShellVars.Holds.export_old (solid : 0 ∉ name) (old : name ∈ items.map (·.name)) :
    (shellExportVariable vars name).Holds
      (changeKey (·.name) name (fun var => { var with exported := true }) items) := by
  -- The name is listed, so the search finds its record and the mark is set there.
  cases place : items.findIdx? (·.name = name) with
  | none => exact absurd old (findIdx?_key_eq_none.mp place)
  | some i =>
    obtain ⟨var, here, -, -⟩ := getElem?_of_findIdx? place
    rw [shellExportVariable, holds.found solid, place]
    exact holds.change (fun _ => rfl) place here (holds.write_mark here)

/-- Exporting a variable that does not exist does nothing. -/
theorem ShellVars.Holds.export_absent (solid : 0 ∉ name) (absent : name ∉ items.map (·.name)) :
    shellExportVariable vars name = vars := by
  have place : items.findIdx? (·.name = name) = none := findIdx?_key_eq_none.mpr absent
  rw [shellExportVariable, holds.found solid, place]

/-- Removing a variable leaves out its name. -/
theorem ShellVars.Holds.unset (solid : 0 ∉ name) :
    (unsetVariable vars name).Holds (dropKey (·.name) name items) := by
  cases place : items.findIdx? (·.name = name) with
  | none =>
    rw [unsetVariable, holds.found solid, place,
      dropKey_absent (findIdx?_key_eq_none.mp place)]
    exact holds
  | some j =>
    -- The records behind the removed one move down by one place.
    obtain ⟨inside, -⟩ := List.findIdx?_eq_some_iff_getElem.mp place
    have bounded := holds.bounded
    rw [unsetVariable, holds.found solid, place, ← eraseIdx_findIdx? holds.distinct place]
    refine ⟨?_, ?_, ?_, ?_⟩
    · rw [List.length_eraseIdx_of_lt inside, holds.count]
    · refine holds.records.erase shellVar_local (fun place short offset within => ?_) inside
      rw [holds.count]
      exact recordRemove_moved _ inside short within
    · rw [eraseIdx_findIdx? holds.distinct place]
      exact holds.distinct.sublist (List.filter_sublist.map _)
    · rw [List.length_eraseIdx_of_lt inside]
      omega

/-- The value of a variable is read as it is. -/
theorem ShellVars.Holds.get (solid : 0 ∉ name) :
    shellGetVariable vars name = ((keyed (·.name) items name).map (·.value)).getD [] := by
  cases place : items.findIdx? (·.name = name) with
  | none =>
    have absent := keyed_eq_none.mpr (findIdx?_key_eq_none.mp place)
    rw [shellGetVariable, holds.found solid, place, absent]
    rfl
  | some i =>
    obtain ⟨var, here, -, found⟩ := getElem?_of_findIdx? place
    have at_ := holds.records.held here
    have inside := (List.getElem?_eq_some_iff.mp here).1
    have bounded := holds.bounded
    have valueFits := at_.valueFits
    -- The record ends before the table does.
    have within : (i + 1) * varSize ≤ shellMaxVars * varSize :=
      Nat.mul_le_mul_right varSize (by omega)
    rw [Nat.succ_mul] at within
    have room : var.value.length < shellMaxVars * varSize - (i * varSize + 64) := by
      have size : varSize = 328 := rfl
      omega
    rw [shellGetVariable, holds.found solid, place, found]
    exact (textAt_record.mp at_.value).read room

/-- Removing several variables leaves out their names. -/
theorem ShellVars.Holds.unset_all {names : List (List UInt8)} (solid : ∀ name ∈ names, 0 ∉ name) :
    (names.foldl unsetVariable vars).Holds
      (names.foldl (fun items name => dropKey (·.name) name items) items) := by
  -- Induction on the names, each dropped in turn.
  induction names generalizing vars items with
  | nil => exact holds
  | cons first rest ih =>
    exact ih (holds.unset (solid first (by simp)))
      (fun name among => solid name (List.mem_cons_of_mem first among))

end

/-- An operation on the variables. -/
inductive VarOp where
  | set (name value : List UInt8)
  | mark (name : List UInt8)
  | get (name : List UInt8)
  | unset (args : List (List UInt8))

/-- An operation whose names and values the variables have room for. -/
def VarOp.Fits : VarOp → Prop
  | .set name value => NameFits name ∧ ValueFits value
  | .mark name => NameFits name
  | .get name => NameFits name
  | .unset args => ∀ name ∈ args.drop 1, NameFits name

/-- The table after an operation. -/
def varStep (vars : ShellVars) : VarOp → ShellVars
  | .set name value => shellSetVariable vars name value
  | .mark name => shellExportVariable vars name
  -- Reading a variable leaves the table.
  | .get _ => vars
  | .unset args => builtinUnset vars args

/-- The table after operations one after another. -/
def varRun (vars : ShellVars) (ops : List VarOp) : ShellVars := ops.foldl varStep vars

/-- One operation keeps a table that stands for variables of distinct names. -/
theorem ShellVars.Holds.step {vars : ShellVars} {items : List ShellVar} (holds : vars.Holds items)
    {op : VarOp} (fits : op.Fits) : ∃ after, (varStep vars op).Holds after := by
  cases op with
  | set name value =>
    by_cases old : name ∈ items.map (·.name)
    · exact ⟨_, holds.set_old fits.2 fits.1.1 old⟩
    · -- A new name needs room, and is dropped silently without.
      by_cases room : items.length < shellMaxVars
      · exact ⟨_, holds.set_new fits.1 fits.2 old room⟩
      · rw [varStep, holds.set_full fits.1.1 old room]
        exact ⟨items, holds⟩
  | mark name =>
    by_cases old : name ∈ items.map (·.name)
    · exact ⟨_, holds.export_old fits.1 old⟩
    · rw [varStep, holds.export_absent fits.1 old]
      exact ⟨items, holds⟩
  | get name => exact ⟨items, holds⟩
  | unset args => exact ⟨_, holds.unset_all fun name among => (fits name among).1⟩

/-- So does a run of operations. -/
theorem varRun_holds {vars : ShellVars} {items : List ShellVar} (holds : vars.Holds items)
    {ops : List VarOp} (fits : ∀ op ∈ ops, op.Fits) : ∃ after, (varRun vars ops).Holds after := by
  -- The variables that the table stands for change along the run.
  induction ops generalizing vars items with
  | nil => exact ⟨items, holds⟩
  | cons op rest ih =>
    obtain ⟨middle, held⟩ := holds.step (fits op (by simp))
    exact ih held fun other among => fits other (List.mem_cons_of_mem op among)

/-- The table acts as a finite map from names to values and marks, whose names have an order. -/
structure ShellVars.ActsAsMap (vars : ShellVars) : Prop where
  distinct : vars.names.Nodup
  bounded : vars.names.length ≤ 1024
  get : ∀ {name}, 0 ∉ name →
    shellGetVariable vars name = ((vars.lookup name).map (·.1)).getD []
  -- An existing name keeps its mark and its place.
  set_old : ∀ {name value old}, NameFits name → ValueFits value → vars.lookup name = some old →
    (shellSetVariable vars name value).names = vars.names ∧
      (shellSetVariable vars name value).lookup =
        Function.update vars.lookup name (some (value, old.2))
  set_new : ∀ {name value}, NameFits name → ValueFits value → vars.lookup name = none →
    vars.names.length < 1024 →
    (shellSetVariable vars name value).names = vars.names ++ [name] ∧
      (shellSetVariable vars name value).lookup =
        Function.update vars.lookup name (some (value, false))
  set_full : ∀ {name value}, NameFits name → ValueFits value → vars.lookup name = none →
    vars.names.length = 1024 → shellSetVariable vars name value = vars
  mark_old : ∀ {name old}, 0 ∉ name → vars.lookup name = some old →
    (shellExportVariable vars name).names = vars.names ∧
      (shellExportVariable vars name).lookup =
        Function.update vars.lookup name (some (old.1, true))
  mark_absent : ∀ {name}, 0 ∉ name → vars.lookup name = none → shellExportVariable vars name = vars
  -- The names that are left keep their order.
  unset : ∀ {args : List (List UInt8)}, (∀ name ∈ args.drop 1, 0 ∉ name) →
    (builtinUnset vars args).names = vars.names.filter (· ∉ args.drop 1) ∧
      ∀ name, (builtinUnset vars args).lookup name =
        if name ∈ args.drop 1 then none else vars.lookup name

section

variable {vars after : ShellVars} {items later : List ShellVar}

/-- The names of a table that stands for variables. -/
theorem ShellVars.Holds.names_eq (holds : vars.Holds items) : vars.names = items.map (·.name) := by
  rw [ShellVars.names, holds.list_eq]

/-- The finite map of a table that stands for variables. -/
theorem ShellVars.Holds.lookup_eq (holds : vars.Holds items) (name : List UInt8) :
    vars.lookup name = (keyed (·.name) items name).map fun var => (var.value, var.exported) := by
  rw [ShellVars.lookup, holds.list_eq]

/-- A name is in the map exactly when it is among the names. -/
theorem ShellVars.Holds.lookup_none (holds : vars.Holds items) {name : List UInt8} :
    vars.lookup name = none ↔ name ∉ items.map (·.name) := by
  rw [holds.lookup_eq, Option.map_eq_none_iff, keyed_eq_none]

/-- Changing the variable of a name changes the map at that name. -/
theorem ShellVars.Holds.changed (holds : vars.Holds items) {name : List UInt8}
    {change : ShellVar → ShellVar} (kept : ∀ var, (change var).name = var.name)
    (held : after.Holds (changeKey (·.name) name change items)) :
    after.names = vars.names ∧
      after.lookup = Function.update vars.lookup name
        ((keyed (·.name) items name).map fun var => ((change var).value, (change var).exported)) := by
  constructor
  · rw [held.names_eq, holds.names_eq, changeKey_keys kept]
  · funext other
    rw [held.lookup_eq, keyed_changeKey kept]
    -- The map changes at this name, and at no other.
    by_cases here : other = name
    · rw [if_pos here, here, Function.update_self, Option.map_map]
      rfl
    · rw [if_neg here, Function.update_of_ne here, holds.lookup_eq]

/-- What is in the map at a name is a variable of the table. -/
theorem ShellVars.Holds.lookup_some (holds : vars.Holds items) {name : List UInt8}
    {old : List UInt8 × Bool} (found : vars.lookup name = some old) :
    name ∈ items.map (·.name) ∧
      ∃ var, keyed (·.name) items name = some var ∧ var.value = old.1 ∧ var.exported = old.2 := by
  constructor
  · -- An absent name would look up to nothing.
    by_contra absent
    rw [holds.lookup_none.mpr absent] at found
    cases found
  · rw [holds.lookup_eq, Option.map_eq_some_iff] at found
    obtain ⟨var, here, same⟩ := found
    exact ⟨var, here, congrArg Prod.fst same, congrArg Prod.snd same⟩

/-- Removing names leaves the map at the others. -/
theorem keyed_dropKeys (names : List (List UInt8)) (items : List ShellVar) (name : List UInt8) :
    keyed (·.name) (names.foldl (fun items name => dropKey (·.name) name items) items) name =
      if name ∈ names then none else keyed (·.name) items name := by
  -- Induction on the names: a name dropped once is looked up to nothing from then on.
  induction names generalizing items with
  | nil => simp
  | cons first rest ih =>
    rw [List.foldl_cons, ih, keyed_dropKey]
    by_cases here : name = first
    · simp [here]
    · simp [here]

/-- Removing names takes them out of the list of names. -/
theorem names_dropKeys (names : List (List UInt8)) (items : List ShellVar) :
    (names.foldl (fun items name => dropKey (·.name) name items) items).map (·.name) =
      (items.map (·.name)).filter (· ∉ names) := by
  -- Induction on the names: the names kept are those that no drop removes.
  induction names generalizing items with
  | nil => simp
  | cons first rest ih =>
    rw [List.foldl_cons, ih, dropKey_keys, List.filter_filter]
    refine List.filter_congr fun name _ => ?_
    by_cases here : name = first
    · simp [here]
    · simp [here]

/-- A table that stands for variables of distinct names acts as a finite map. -/
theorem ShellVars.Holds.actsAsMap (holds : vars.Holds items) : vars.ActsAsMap where
  distinct := holds.names_eq ▸ holds.distinct
  bounded := by
    rw [holds.names_eq, List.length_map]
    exact holds.bounded
  -- The value is the first half of what the lookup answers.
  get solid := by
    rw [holds.get solid, holds.lookup_eq, Option.map_map]
    rfl
  set_old := by
    intro name value old named fits found
    -- Setting a known name keeps its mark and every other entry.
    obtain ⟨among, var, here, -, exported⟩ := holds.lookup_some found
    have changed := holds.changed (by intro var; rfl) (holds.set_old fits named.1 among)
    simpa [here, exported] using changed
  set_new := by
    intro name value named fits absent room
    -- A new name goes behind the others, so it is found there and the others where they were.
    have fresh := holds.lookup_none.mp absent
    rw [holds.names_eq, List.length_map] at room
    have held := holds.set_new named fits fresh room
    constructor
    · rw [held.names_eq, holds.names_eq, List.map_append]
      rfl
    · funext other
      rw [held.lookup_eq, keyed_append]
      -- The new name itself, or a name whose entry stands in front.
      by_cases here : other = name
      · rw [here, Function.update_self, keyed_eq_none.mpr fresh]
        simp
      · rw [Function.update_of_ne here, holds.lookup_eq, if_neg (Ne.symm here), Option.or_none]
  set_full := by
    intro name value named fits absent full
    -- A full table refuses a new name.
    rw [holds.names_eq, List.length_map] at full
    exact holds.set_full named.1 (holds.lookup_none.mp absent) (by rw [full]; decide)
  mark_old := by
    intro name old solid found
    -- Exporting a known name keeps its value and every other entry.
    obtain ⟨among, var, here, value, -⟩ := holds.lookup_some found
    have changed := holds.changed (by intro var; rfl) (holds.export_old solid among)
    simpa [here, value] using changed
  -- Exporting an unknown name changes nothing.
  mark_absent := by
    intro name solid absent
    exact holds.export_absent solid (holds.lookup_none.mp absent)
  unset := by
    intro args solid
    -- `unset` drops each of its arguments in turn; the rest keep their order.
    have held := holds.unset_all solid
    constructor
    · rw [builtinUnset, held.names_eq, holds.names_eq, names_dropKeys]
    · intro name
      rw [builtinUnset, held.lookup_eq, keyed_dropKeys, holds.lookup_eq]
      split_ifs <;> rfl

end

/-- After every run of operations whose names and values fit, the table of variables acts as a
finite map. -/
theorem variable_store_refines_map (globalVars : Memory) {ops : List VarOp}
    (fits : ∀ op ∈ ops, op.Fits) : (varRun (noVars globalVars) ops).ActsAsMap := by
  -- The run starts from the empty table.
  obtain ⟨items, holds⟩ := varRun_holds (noVars_holds globalVars) fits
  exact holds.actsAsMap

/-- Two variables are set, one of them exported and the other removed. -/
theorem variable_store_two :
    (∀ op ∈ [VarOp.set [0x61] [0x31], .set [0x62] [0x32], .mark [0x61], .unset [[0x75], [0x62]]],
      op.Fits) ∧
    (varRun (noVars fun _ => 0)
      [.set [0x61] [0x31], .set [0x62] [0x32], .mark [0x61], .unset [[0x75], [0x62]]]).ActsAsMap := by
  have fits : ∀ op ∈ [VarOp.set [0x61] [0x31], .set [0x62] [0x32], .mark [0x61],
      .unset [[0x75], [0x62]]], op.Fits := by
    simp [VarOp.Fits, NameFits, ValueFits]
  exact ⟨fits, variable_store_refines_map _ fits⟩

end MiraOS

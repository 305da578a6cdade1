import MiraOS.Ui.NamedRecords
import MiraOS.Machine.Keyed
import Mathlib.Data.List.Induction

/-! The aliases of ui/shell.c: a name stands for the oldest of its definitions that are left. -/

namespace MiraOS

open Machine

/-- Limit of the table of aliases. -/
def shellMaxAliases : Nat := 256

/-- Bytes of an alias: its name and its value. -/
def aliasSize : Nat := 320

/-- The table of aliases and their number. -/
structure ShellAliases where
  globalAliases : Memory
  globalAliasCount : Nat

/-- The table before the first alias, over whatever its bytes are. -/
def noAliases (globalAliases : Memory) : ShellAliases := ⟨globalAliases, 0⟩

/-- Add an alias behind the others, unless the table is full. -/
def shellAddAlias (aliases : ShellAliases) (name value : List UInt8) : ShellAliases :=
  if aliases.globalAliasCount < shellMaxAliases then
    let start := aliases.globalAliasCount * aliasSize
    ⟨dsStrcpy (dsStrcpy aliases.globalAliases start name) (start + 64) value,
      aliases.globalAliasCount + 1⟩
  else aliases

/-- What a name stands for, which is itself without an alias. -/
def shellResolveAlias (aliases : ShellAliases) (name : List UInt8) : List UInt8 :=
  match recordNamed aliasSize aliases.globalAliases aliases.globalAliasCount name with
  | some i =>
    readText aliases.globalAliases (i * aliasSize + 64)
      (shellMaxAliases * aliasSize - (i * aliasSize + 64))
  | none => name

/-- One argument of the builtin: a definition if it has an equals sign. -/
def aliasArgument (aliases : ShellAliases) (arg : List UInt8) : ShellAliases :=
  match strchr arg 0x3D with
  -- The body of the loop is that of adding an alias.
  | some eq => shellAddAlias aliases (arg.take eq) (arg.drop (eq + 1))
  | none => aliases

/-- Define the aliases of the arguments behind the command; without arguments they are shown. -/
def builtinAlias (aliases : ShellAliases) (args : List (List UInt8)) : ShellAliases :=
  if args.length = 1 then aliases else (args.drop 1).foldl aliasArgument aliases

/-- One argument of the builtin: the first alias of the name is removed. -/
def unaliasArgument (aliases : ShellAliases) (name : List UInt8) : ShellAliases :=
  match recordNamed aliasSize aliases.globalAliases aliases.globalAliasCount name with
  | some j =>
    ⟨recordRemove aliasSize aliases.globalAliases aliases.globalAliasCount j,
      aliases.globalAliasCount - 1⟩
  | none => aliases

/-- Remove aliases of the names behind the command. -/
def builtinUnalias (aliases : ShellAliases) (args : List (List UInt8)) : ShellAliases :=
  (args.drop 1).foldl unaliasArgument aliases

/-- A use of the table: a definition by the shell or by the builtin, or a removal. -/
inductive AliasUse where
  | add (name value : List UInt8)
  | define (arg : List UInt8)
  | remove (name : List UInt8)

/-- The table after a use, where a builtin has one argument. -/
def aliasStep (aliases : ShellAliases) : AliasUse → ShellAliases
  | .add name value => shellAddAlias aliases name value
  | .define arg => builtinAlias aliases [asciiBytes "alias", arg]
  | .remove name => builtinUnalias aliases [asciiBytes "unalias", name]

/-- The table after uses one after another. -/
def aliasRun (aliases : ShellAliases) (uses : List AliasUse) : ShellAliases :=
  uses.foldl aliasStep aliases

/-- A builtin with several arguments uses the table for one after another. -/
theorem builtinAlias_uses (aliases : ShellAliases) (command : List UInt8) (args : List (List UInt8)) :
    builtinAlias aliases (command :: args) = aliasRun aliases (args.map .define) := by
  rw [aliasRun, List.foldl_map]
  -- The command itself is no definition.
  cases args with
  | nil => rfl
  | cons first rest => rfl

/-- The same for the removal. -/
theorem builtinUnalias_uses (aliases : ShellAliases) (command : List UInt8)
    (names : List (List UInt8)) :
    builtinUnalias aliases (command :: names) = aliasRun aliases (names.map .remove) := by
  rw [aliasRun, List.foldl_map]
  rfl

/-- An alias as the shell means it. -/
structure ShellAlias where
  name : List UInt8
  value : List UInt8
  deriving DecidableEq

/-- The bytes of a record stand for an alias. -/
structure ShellAlias.At (bytes : Memory) (item : ShellAlias) : Prop where
  name : TextAt bytes 0 item.name
  nameFits : item.name.length < 64
  value : TextAt bytes 64 item.value
  valueFits : item.value.length < 256

/-- The aliases that the table stands for, as they are read from it. -/
def ShellAliases.list (aliases : ShellAliases) : List ShellAlias :=
  (List.range aliases.globalAliasCount).map fun i =>
    ⟨readText (record aliasSize aliases.globalAliases i) 0 64,
      readText (record aliasSize aliases.globalAliases i) 64 256⟩

/-- The values of the definitions of a name that are left, oldest first. -/
def aliasValues (items : List ShellAlias) (name : List UInt8) : List (List UInt8) :=
  (items.filter (·.name = name)).map (·.value)

/-- The table stands for these aliases. -/
structure ShellAliases.Holds (aliases : ShellAliases) (items : List ShellAlias) : Prop where
  count : aliases.globalAliasCount = items.length
  records : RecordsHold aliasSize ShellAlias.At aliases.globalAliases items
  bounded : items.length ≤ shellMaxAliases

/-- The definition that a use makes, if any. -/
def AliasUse.defines : AliasUse → Option ShellAlias
  | .add name value => some ⟨name, value⟩
  | .define arg => (strchr arg 0x3D).map fun eq => ⟨arg.take eq, arg.drop (eq + 1)⟩
  | .remove _ => none

/-- The name that a use removes, if any. -/
def AliasUse.removes : AliasUse → Option (List UInt8)
  | .remove name => some name
  | _ => none

/-- The finite map that uses mean: the latest definition of a name that no removal follows. -/
def aliasMeaning (meaning : List UInt8 → Option (List UInt8)) (use : AliasUse) :
    List UInt8 → Option (List UInt8) :=
  match use.defines, use.removes with
  | some item, _ => Function.update meaning item.name (some item.value)
  | none, some name => Function.update meaning name none
  | none, none => meaning

/-- The map after uses one after another. -/
def aliasMeanings (uses : List AliasUse) : List UInt8 → Option (List UInt8) :=
  uses.foldl aliasMeaning fun _ => none

/-- A use whose texts the records have room for. -/
def AliasUse.Fits (use : AliasUse) : Prop :=
  (∀ item, use.defines = some item → NameFits item.name ∧ ValueFits item.value) ∧
    ∀ name, use.removes = some name → 0 ∉ name

/-- Every definition of the uses finds room in the table. -/
def WithinCapacity (start : ShellAliases) (uses : List AliasUse) : Prop :=
  ∀ before use, before ++ [use] <+: uses → use.defines.isSome →
    (aliasRun start before).globalAliasCount < shellMaxAliases

/-- A use that the aliases are ready for: a definition finds no other value under its name, and a
removal leaves no definition that gives its name another meaning. -/
def ReadyFor (items : List ShellAlias) (use : AliasUse) : Prop :=
  (∀ item, use.defines = some item → ∀ value ∈ aliasValues items item.name, value = item.value) ∧
    ∀ name, use.removes = some name → ∀ value ∈ (aliasValues items name).tail, value = name

/-- A record of an alias depends on its own bytes. -/
theorem shellAlias_local : Shape.Local aliasSize ShellAlias.At := by
  intro one two item same at_
  have nameFits := at_.nameFits
  have valueFits := at_.valueFits
  -- The bytes of both fields lie below `aliasSize`, so an item equal on those bytes is read the same way.
  refine ⟨at_.name.congr fun i inside => same _ ?_, nameFits,
    at_.value.congr fun i inside => same _ ?_, valueFits⟩
  · rw [aliasSize]
    omega
  · rw [aliasSize]
    omega

/-- A use defines, removes or does nothing. -/
theorem aliasStep_eq (aliases : ShellAliases) (use : AliasUse) :
    aliasStep aliases use =
      match use.defines, use.removes with
      | some item, _ => shellAddAlias aliases item.name item.value
      | none, some name => unaliasArgument aliases name
      | none, none => aliases := by
  cases use with
  | add name value => rfl
  | define arg =>
    change aliasArgument aliases arg = _
    rw [aliasArgument, AliasUse.defines]
    -- An argument without an equals sign defines nothing.
    cases strchr arg 0x3D with
    | none => rfl
    | some eq => rfl
  | remove name => rfl

section

variable {aliases : ShellAliases} {items : List ShellAlias} (holds : aliases.Holds items)
  {name : List UInt8}

include holds

/-- What is read from the table is what it stands for. -/
theorem ShellAliases.Holds.list_eq : aliases.list = items := by
  -- Position by position: below the count the record written there is read back, behind it both lists end.
  refine List.ext_getElem? fun i => ?_
  rw [ShellAliases.list, holds.count, List.getElem?_map]
  by_cases inside : i < items.length
  · have here : items[i]? = some items[i] := List.getElem?_eq_getElem inside
    -- Both texts end inside their field, so `strcpy` stops at the zero the record holds.
    have at_ := holds.records.held here
    rw [List.getElem?_range inside, here, Option.map_some, at_.name.read at_.nameFits,
      at_.value.read at_.valueFits]
  · rw [List.getElem?_eq_none (by simpa using inside), List.getElem?_eq_none (by simpa using inside)]
    rfl

/-- The loop finds the first alias of a name. -/
theorem ShellAliases.Holds.found (solid : 0 ∉ name) :
    recordNamed aliasSize aliases.globalAliases aliases.globalAliasCount name =
      items.findIdx? (·.name = name) := by
  rw [holds.count]
  exact recordNamed_eq holds.records ShellAlias.At.name solid

/-- Writing a name and a value behind the last record adds an alias. -/
theorem ShellAliases.Holds.write {value : List UInt8} (named : NameFits name)
    (fits : ValueFits value) :
    RecordsHold aliasSize ShellAlias.At
      (dsStrcpy (dsStrcpy aliases.globalAliases (items.length * aliasSize) name)
        (items.length * aliasSize + 64) value)
      (items ++ [⟨name, value⟩]) := by
  have short := named.2
  have brief := fits.2
  have size : aliasSize = 320 := rfl
  refine holds.records.push shellAlias_local (fun address apart => ?_) ⟨?_, short, ?_, brief⟩
  · -- Both texts stay inside the record behind the last one.
    rw [dsStrcpy_outside value (by omega), dsStrcpy_outside name (by omega)]
  · -- The value is written behind the name.
    have written : TextAt (dsStrcpy (dsStrcpy aliases.globalAliases (items.length * aliasSize) name)
        (items.length * aliasSize + 64) value) (items.length * aliasSize) name :=
      (dsStrcpy_textAt aliases.globalAliases (items.length * aliasSize) named.1).congr
        fun i inside => dsStrcpy_outside value (by omega)
    rwa [textAt_record, Nat.add_zero (items.length * aliasSize)]
  · rw [textAt_record]
    exact dsStrcpy_textAt _ _ fits.1

/-- A definition adds an alias behind the others. -/
theorem ShellAliases.Holds.add {value : List UInt8} (named : NameFits name) (fits : ValueFits value)
    (room : aliases.globalAliasCount < shellMaxAliases) :
    (shellAddAlias aliases name value).Holds (items ++ [⟨name, value⟩]) := by
  rw [shellAddAlias, if_pos room]
  -- The new record goes behind the counted ones, and `room` keeps the count within the table.
  refine ⟨?_, ?_, ?_⟩
  · simp [holds.count]
  · rw [holds.count]
    exact holds.write named fits
  · rw [List.length_append, List.length_singleton, ← holds.count]
    exact room

/-- A removal takes out the first alias of the name. -/
theorem ShellAliases.Holds.remove (solid : 0 ∉ name) :
    (unaliasArgument aliases name).Holds (items.eraseP (·.name = name)) := by
  rw [unaliasArgument, holds.found solid, List.eraseP_eq_eraseIdx]
  cases place : items.findIdx? (·.name = name) with
  | none => exact holds
  | some j =>
    -- The records behind the removed one move down, and the count goes down by one.
    obtain ⟨inside, -⟩ := List.findIdx?_eq_some_iff_getElem.mp place
    have bounded := holds.bounded
    refine ⟨?_, ?_, ?_⟩
    · simp only [List.length_eraseIdx_of_lt inside, holds.count]
    · refine holds.records.erase shellAlias_local (fun place short offset within => ?_) inside
      rw [holds.count]
      exact recordRemove_moved _ inside short within
    · simp only [List.length_eraseIdx_of_lt inside]
      omega

/-- A name stands for the oldest of its values. -/
theorem ShellAliases.Holds.resolve (solid : 0 ∉ name) :
    shellResolveAlias aliases name = (aliasValues items name).head?.getD name := by
  rw [aliasValues, List.head?_map, ← keyed_eq_head?]
  cases place : items.findIdx? (·.name = name) with
  | none =>
    have absent := keyed_eq_none.mpr (findIdx?_key_eq_none.mp place)
    rw [shellResolveAlias, holds.found solid, place, absent]
    rfl
  | some i =>
    obtain ⟨item, here, -, found⟩ := getElem?_of_findIdx? place
    have at_ := holds.records.held here
    have inside := (List.getElem?_eq_some_iff.mp here).1
    have bounded := holds.bounded
    have valueFits := at_.valueFits
    -- The text is read up to its terminator, which lies inside the record.
    have within : (i + 1) * aliasSize ≤ shellMaxAliases * aliasSize :=
      Nat.mul_le_mul_right aliasSize (by omega)
    rw [Nat.succ_mul] at within
    have room : item.value.length < shellMaxAliases * aliasSize - (i * aliasSize + 64) := by
      have size : aliasSize = 320 := rfl
      omega
    rw [shellResolveAlias, holds.found solid, place, found]
    exact (textAt_record.mp at_.value).read room

/-- What a use does to the aliases that the table stands for. -/
def aliasItems (items : List ShellAlias) (use : AliasUse) : List ShellAlias :=
  match use.defines, use.removes with
  | some item, _ => items ++ [item]
  | none, some name => items.eraseP (·.name = name)
  | none, none => items

/-- One use of the table. -/
theorem ShellAliases.Holds.step {use : AliasUse} (fits : use.Fits)
    (room : use.defines.isSome → aliases.globalAliasCount < shellMaxAliases) :
    (aliasStep aliases use).Holds (aliasItems items use) := by
  rw [aliasStep_eq, aliasItems]
  -- A use that defines removes nothing, so its definition is looked at first.
  cases defined : use.defines with
  | some item =>
    obtain ⟨named, valued⟩ := fits.1 item defined
    exact holds.add named valued (room (by rw [defined]; rfl))
  | none =>
    cases removed : use.removes with
    | none => exact holds
    | some name => exact holds.remove (fits.2 name removed)

end

/-- The values of a name after a use: a definition comes last, a removal takes the first. -/
theorem aliasValues_step (items : List ShellAlias) (use : AliasUse) (name : List UInt8) :
    aliasValues (aliasItems items use) name =
      match use.defines, use.removes with
      | some item, _ =>
        if name = item.name then aliasValues items name ++ [item.value] else aliasValues items name
      | none, some removed =>
        if name = removed then (aliasValues items name).tail else aliasValues items name
      | none, none => aliasValues items name := by
  rw [aliasItems]
  cases use.defines with
  | some item =>
    by_cases here : name = item.name
    · simp [aliasValues, here]
    · simp [aliasValues, here, Ne.symm here]
  | none =>
    cases use.removes with
    | none => rfl
    | some removed =>
      -- A removal takes the first entry of its name, and other names keep theirs.
      simp only [aliasValues, filter_eraseP]
      by_cases here : name = removed
      · simp [here]
      · simp [here]

/-- The values of a name all give it its meaning, and a name with a meaning has a value. -/
def Agrees (items : List ShellAlias) (meaning : List UInt8 → Option (List UInt8)) : Prop :=
  ∀ name, (∀ value ∈ aliasValues items name, value = (meaning name).getD name) ∧
    (aliasValues items name = [] → meaning name = none)

/-- Where values and meanings agree, names stand for what they mean. -/
theorem Agrees.head {items : List ShellAlias} {meaning : List UInt8 → Option (List UInt8)}
    (agrees : Agrees items meaning) (name : List UInt8) :
    (aliasValues items name).head?.getD name = (meaning name).getD name := by
  obtain ⟨same, none⟩ := agrees name
  -- The first value is the one that counts, and without any the name stands for itself.
  cases values : aliasValues items name with
  | nil => simp [none values]
  | cons first rest => exact same first (by simp [values])

/-- A removal is no definition. -/
theorem AliasUse.removes_none {use : AliasUse} {item : ShellAlias} (defined : use.defines = some item) :
    use.removes = none := by
  -- A use defines a name or removes one.
  cases use with
  | add name value => rfl
  | define arg => rfl
  | remove name => simp [AliasUse.defines] at defined

section

variable {items : List ShellAlias} {meaning : List UInt8 → Option (List UInt8)} {use : AliasUse}

/-- A use that the aliases are ready for keeps values and meanings in agreement. -/
theorem Agrees.step (agrees : Agrees items meaning) (ready : ReadyFor items use) :
    Agrees (aliasItems items use) (aliasMeaning meaning use) := by
  intro name
  obtain ⟨same, none⟩ := agrees name
  rw [aliasValues_step, aliasMeaning]
  cases defined : use.defines with
  | some item =>
    by_cases here : name = item.name
    · -- All values of the name are the new one.
      have former := ready.1 item defined
      simp only [here, if_true, Function.update_self]
      refine ⟨fun value among => ?_, by simp⟩
      rcases List.mem_append.mp among with old | new
      · exact former value old
      · exact List.mem_singleton.mp new
    · simp only [if_neg here, Function.update_of_ne here]
      exact ⟨same, none⟩
  | none =>
    cases removed : use.removes with
    | none => exact ⟨same, none⟩
    | some gone =>
      by_cases here : name = gone
      · -- What is left gives the name itself.
        have left := ready.2 gone removed
        simp only [here, if_true, Function.update_self, Option.getD_none, implies_true, and_true]
        exact left
      · simp only [if_neg here, Function.update_of_ne here]
        exact ⟨same, none⟩

/-- Where names still stand for what they mean after a use, the aliases were ready for it. -/
theorem Agrees.ready (agrees : Agrees items meaning) (fits : use.Fits)
    (after : ∀ name, 0 ∉ name →
      (aliasValues (aliasItems items use) name).head?.getD name =
        (aliasMeaning meaning use name).getD name) :
    ReadyFor items use := by
  constructor
  · intro item defined value among
    have same := (agrees item.name).1
    have shown := after item.name (fits.1 item defined).1.1
    rw [aliasValues_step, aliasMeaning, defined] at shown
    simp only [if_true, Function.update_self, Option.getD_some] at shown
    -- The oldest value stays in front of the new one, and all values are alike.
    cases values : aliasValues items item.name with
    | nil => simp [values] at among
    | cons first rest =>
      have oldest : first = item.value := by simpa [values] using shown
      rw [same value among, ← same first (by simp [values]), oldest]
  · intro name removed value among
    have none : use.defines = none := by
      cases defined : use.defines with
      | none => rfl
      | some item => rw [AliasUse.removes_none defined] at removed; cases removed
    have same := (agrees name).1
    have shown := after name (fits.2 name removed)
    rw [aliasValues_step, aliasMeaning, none, removed] at shown
    simp only [if_true, Function.update_self, Option.getD_none] at shown
    cases values : aliasValues items name with
    | nil => simp [values] at among
    | cons first rest =>
      rw [values, List.tail_cons] at among shown
      -- The value behind the removed one is what the name stands for now.
      cases rest with
      | nil => simp at among
      | cons second others =>
        have next : second = name := by simpa using shown
        rw [same value (by simp [values, among]), ← same second (by simp [values]), next]

end

/-- The aliases that uses leave. -/
def aliasesLeft (uses : List AliasUse) : List ShellAlias := uses.foldl aliasItems []

/-- The table after uses stands for the aliases they leave. -/
theorem aliasRun_holds (globalAliases : Memory) {uses : List AliasUse}
    (fits : ∀ use ∈ uses, use.Fits) (within : WithinCapacity (noAliases globalAliases) uses) :
    (aliasRun (noAliases globalAliases) uses).Holds (aliasesLeft uses) := by
  -- From the last use backwards, since the capacity is asked of the table before each use.
  induction uses using List.reverseRecOn with
  | nil => exact ⟨rfl, RecordsHold.nil, Nat.zero_le _⟩
  | append_singleton front last ih =>
    have held := ih (fun use among => fits use (List.mem_append_left _ among))
      (fun before use inside => within before use (inside.trans (List.prefix_append _ _)))
    rw [aliasRun, aliasesLeft, List.foldl_append, List.foldl_append]
    exact held.step (fits last (by simp)) (within front last List.prefix_rfl)

/-- Names stand for what the uses mean at every moment. -/
def AliasesFaithful (start : ShellAliases) (uses : List AliasUse) : Prop :=
  ∀ before, before <+: uses → ∀ name, 0 ∉ name →
    shellResolveAlias (aliasRun start before) name = (aliasMeanings before name).getD name

/-- Every use finds the aliases ready for it. -/
def AliasesReady (start : ShellAliases) (uses : List AliasUse) : Prop :=
  ∀ before use, before ++ [use] <+: uses → ReadyFor (aliasRun start before).list use

/-- Uses that find the aliases ready leave values that agree with their meanings. -/
theorem agrees_of_ready (globalAliases : Memory) {uses : List AliasUse}
    (fits : ∀ use ∈ uses, use.Fits) (within : WithinCapacity (noAliases globalAliases) uses)
    (ready : AliasesReady (noAliases globalAliases) uses) :
    Agrees (aliasesLeft uses) (aliasMeanings uses) := by
  induction uses using List.reverseRecOn with
  | nil => exact fun name => ⟨by simp [aliasesLeft, aliasValues], fun _ => rfl⟩
  | append_singleton front last ih =>
    have first : ∀ use ∈ front, use.Fits := fun use among => fits use (List.mem_append_left _ among)
    have room : WithinCapacity (noAliases globalAliases) front := fun before use inside =>
      within before use (inside.trans (List.prefix_append _ _))
    have agrees := ih first room fun before use inside =>
      ready before use (inside.trans (List.prefix_append _ _))
    -- The condition is on what is read from the table, which is what the uses left.
    have now := ready front last List.prefix_rfl
    rw [(aliasRun_holds globalAliases first room).list_eq] at now
    rw [aliasesLeft, aliasMeanings, List.foldl_append, List.foldl_append]
    exact agrees.step now

/-- Uses after which names stand for what they mean have found the aliases ready. -/
theorem ready_of_faithful (globalAliases : Memory) {uses : List AliasUse}
    (fits : ∀ use ∈ uses, use.Fits) (within : WithinCapacity (noAliases globalAliases) uses)
    (faithful : AliasesFaithful (noAliases globalAliases) uses) :
    AliasesReady (noAliases globalAliases) uses := by
  -- Up to the last use the aliases were ready, so values and meanings agree before it.
  induction uses using List.reverseRecOn with
  | nil =>
    intro before use inside
    simp at inside
  | append_singleton front last ih =>
    have first : ∀ use ∈ front, use.Fits := fun use among => fits use (List.mem_append_left _ among)
    have room : WithinCapacity (noAliases globalAliases) front := fun before use inside =>
      within before use (inside.trans (List.prefix_append _ _))
    have ready := ih first room fun before inside =>
      faithful before (inside.trans (List.prefix_append _ _))
    intro before use inside
    -- The use in question is the last one or an earlier one.
    rcases List.prefix_concat_iff.mp inside with whole | earlier
    · obtain ⟨rfl, same⟩ := List.append_inj' whole rfl
      obtain rfl : use = last := (List.cons.inj same).1
      rw [(aliasRun_holds globalAliases first room).list_eq]
      refine (agrees_of_ready globalAliases first room ready).ready (fits use (by simp))
        fun name solid => ?_
      have shown := faithful _ List.prefix_rfl name solid
      rw [(aliasRun_holds globalAliases fits within).resolve solid] at shown
      simpa only [aliasesLeft, aliasMeanings, List.foldl_append, List.foldl_cons,
        List.foldl_nil] using shown
    · exact ready before use earlier

/-- Names stand for what the uses mean at every moment exactly when every definition finds no other
value under its name and every removal leaves none that gives its name another meaning. -/
theorem alias_store_refines_iff (globalAliases : Memory) {uses : List AliasUse}
    (fits : ∀ use ∈ uses, use.Fits) (within : WithinCapacity (noAliases globalAliases) uses) :
    AliasesFaithful (noAliases globalAliases) uses ↔ AliasesReady (noAliases globalAliases) uses := by
  refine ⟨ready_of_faithful globalAliases fits within, fun ready before inside name solid => ?_⟩
  -- The front of a run meets the conditions of the run.
  have fit : ∀ use ∈ before, use.Fits := fun use among => fits use (inside.subset among)
  have room : WithinCapacity (noAliases globalAliases) before := fun earlier use there =>
    within earlier use (there.trans inside)
  rw [(aliasRun_holds globalAliases fit room).resolve solid]
  exact (agrees_of_ready globalAliases fit room fun earlier use there =>
    ready earlier use (there.trans inside)).head name

/-- A use adds at most one alias. -/
theorem aliasStep_count (aliases : ShellAliases) (use : AliasUse) :
    (aliasStep aliases use).globalAliasCount ≤ aliases.globalAliasCount + 1 := by
  -- Only `shellAddAlias` can raise the count; unaliasing lowers it or leaves it.
  rw [aliasStep_eq]
  split
  · rw [shellAddAlias]
    split_ifs
    · exact Nat.le_refl _
    · exact Nat.le_succ _
  · rw [unaliasArgument]
    split
    · exact Nat.le_trans (Nat.sub_le _ _) (Nat.le_succ _)
    · exact Nat.le_succ _
  · exact Nat.le_succ _

/-- As many uses as the table has records are within its capacity. -/
theorem withinCapacity_of_few (globalAliases : Memory) {uses : List AliasUse}
    (few : uses.length ≤ shellMaxAliases) : WithinCapacity (noAliases globalAliases) uses := by
  -- The table never holds more aliases than there were uses.
  have count : ∀ uses : List AliasUse,
      (aliasRun (noAliases globalAliases) uses).globalAliasCount ≤ uses.length := by
    intro uses
    induction uses using List.reverseRecOn with
    | nil => exact Nat.le_refl _
    | append_singleton front last ih =>
      rw [aliasRun, List.foldl_append, List.length_append, List.length_singleton]
      exact Nat.le_trans (aliasStep_count _ _) (Nat.add_le_add_right ih 1)
  intro before use inside _
  have shorter := inside.length_le
  rw [List.length_append, List.length_singleton] at shorter
  have counted := count before
  omega

/-- Two definitions of one name. -/
def twoDefinitions : List AliasUse := [.add [0x6C] [0x31], .define [0x6C, 0x3D, 0x32]]

/-- The texts of the two definitions fit. -/
theorem twoDefinitions_fits : ∀ use ∈ twoDefinitions, use.Fits := by
  -- The second use splits at its '='.
  have split : strchr [0x6C, 0x3D, 0x32] 0x3D = some 1 := by decide
  simp [twoDefinitions, AliasUse.Fits, AliasUse.defines, AliasUse.removes, split, NameFits, ValueFits]

/-- A name and another one that is removed again. -/
theorem alias_store_two_names :
    (∀ use ∈ [AliasUse.add [0x6C] [0x31], .define [0x6D, 0x3D, 0x32], .remove [0x6D]], use.Fits) ∧
    (AliasesFaithful (noAliases fun _ => 0)
        [.add [0x6C] [0x31], .define [0x6D, 0x3D, 0x32], .remove [0x6D]] ↔
      AliasesReady (noAliases fun _ => 0)
        [.add [0x6C] [0x31], .define [0x6D, 0x3D, 0x32], .remove [0x6D]]) := by
  -- The definition splits at its '='.
  have split : strchr [0x6D, 0x3D, 0x32] 0x3D = some 1 := by decide
  have fits : ∀ use ∈ [AliasUse.add [0x6C] [0x31], .define [0x6D, 0x3D, 0x32], .remove [0x6D]],
      use.Fits := by
    simp [AliasUse.Fits, AliasUse.defines, AliasUse.removes, split, NameFits, ValueFits]
  exact ⟨fits, alias_store_refines_iff _ fits (withinCapacity_of_few _ (by decide))⟩

/-- After two definitions of one name it still stands for the first. -/
theorem first_definition_stays :
    ¬ AliasesFaithful (noAliases fun _ => 0) twoDefinitions := by
  -- Two definitions of `l` fit the table, and the store answers with the first where the map keeps the last.
  intro faithful
  have within := withinCapacity_of_few (fun _ => 0) (show twoDefinitions.length ≤ _ by decide)
  have shown := faithful _ List.prefix_rfl [0x6C] (by decide)
  rw [(aliasRun_holds _ twoDefinitions_fits within).resolve (by decide)] at shown
  revert shown
  decide

end MiraOS

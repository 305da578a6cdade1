import MiraOS.Ui.ShellCommands

/-! The builtin test of ui/shell.c with two operands, and when it compares them. -/

namespace MiraOS

open Machine

/-- The operators that compare numbers. -/
def numberOperators : List (List UInt8) := [asciiBytes "-eq", asciiBytes "-ne", asciiBytes "-lt", asciiBytes "-gt"]

/-- The operators between two operands. -/
def testOperators : List (List UInt8) :=
  [asciiBytes "=", asciiBytes "==", asciiBytes "!="] ++ numberOperators

/-- The integer that a decimal literal denotes. -/
inductive Denotes : List UInt8 → Int → Prop where
  | plain {digits : List UInt8} (decimal : ∀ c ∈ digits, isDigit c = true) (written : digits ≠ []) :
      Denotes digits (decimalValue digits)
  | plus {digits : List UInt8} (decimal : ∀ c ∈ digits, isDigit c = true) (written : digits ≠ []) :
      Denotes ('+'.toUInt8 :: digits) (decimalValue digits)
  | minus {digits : List UInt8} (decimal : ∀ c ∈ digits, isDigit c = true) (written : digits ≠ []) :
      Denotes ('-'.toUInt8 :: digits) (-decimalValue digits)

/-- The operands have the relation of an operator; the numbers are those that they denote. -/
def OperandsRelate (op a b : List UInt8) (x y : Int) : Prop :=
  if op = asciiBytes "=" ∨ op = asciiBytes "==" then a = b
  else if op = asciiBytes "!=" then a ≠ b
  else if op = asciiBytes "-eq" then x = y
  else if op = asciiBytes "-ne" then x ≠ y
  else if op = asciiBytes "-lt" then x < y
  else y < x

instance (op a b : List UInt8) (x y : Int) : Decidable (OperandsRelate op a b x y) :=
  inferInstanceAs (Decidable (ite _ _ _))

/--
The operands for which the builtin answers as their operator says.

It takes the left operand for the operator: numbers are never found related, and of texts only those that are
operators themselves.
-/
def RelateAsTaken (op a b : List UInt8) (x y : Int) : Prop :=
  if numberOperators.contains op then ¬ OperandsRelate op a b x y
  else if op = asciiBytes "!=" then a = b ↔ a ∉ [asciiBytes "-n", asciiBytes "-eq"]
  else a = b ↔ a ∈ [asciiBytes "-n", asciiBytes "-eq", asciiBytes "!=", op]

instance (op a b : List UInt8) (x y : Int) : Decidable (RelateAsTaken op a b x y) :=
  inferInstanceAs (Decidable (ite _ _ _))

/-- What the builtin answers when its first two arguments are these. -/
def testAnswer (op right : List UInt8) : Int :=
  if op = asciiBytes "-z" then if right.length = 0 then 0 else 1
  else if op = asciiBytes "-n" then if 0 < right.length then 0 else 1
  else if [asciiBytes "=", asciiBytes "==", asciiBytes "!="].contains op then
    if (op = right ↔ op ≠ asciiBytes "!=") then 0 else 1
  else if numberOperators.contains op then if numbersCompare op (atoiSimple op) (atoiSimple right) then 0 else 1
  else 1

/-- A decimal literal has a digit. -/
theorem Denotes.digit {text : List UInt8} {value : Int} (denotes : Denotes text value) :
    ∃ c ∈ text, isDigit c = true := by
  -- The digits are written behind a sign or alone.
  have first : ∀ {digits : List UInt8}, (∀ c ∈ digits, isDigit c = true) → digits ≠ [] →
      ∃ c ∈ digits, isDigit c = true := by
    intro digits decimal written
    obtain ⟨c, among⟩ := List.exists_mem_of_ne_nil digits written
    exact ⟨c, among, decimal c among⟩
  cases denotes with
  | plain decimal written => exact first decimal written
  | plus decimal written =>
    obtain ⟨c, among, digit⟩ := first decimal written
    exact ⟨c, List.mem_cons_of_mem _ among, digit⟩
  | minus decimal written =>
    obtain ⟨c, among, digit⟩ := first decimal written
    exact ⟨c, List.mem_cons_of_mem _ among, digit⟩

/-- An argument of a command that is there is read. -/
theorem argument_goes {Rest : Type} {node : Node} {index : Nat} {text : List UInt8}
    (there : (argTexts node)[index]? = some text) (ctx : ShellCtx (ShellTables Rest)) :
    (argument node index ctx).2 = .ok (text, ctx) := by
  rw [argTexts, List.getElem?_map] at there
  -- The argument is there, so its read stays inside the array.
  obtain ⟨arg, found, rfl⟩ := Option.map_eq_some_iff.mp there
  simp only [argument, elementOf, found]
  rfl

section

variable {Rest : Type} {node : Node} {name a op b : List UInt8} (four : argTexts node = [name, a, op, b])

include four

/-- With two operands the builtin answers by the first two arguments behind its name. -/
theorem builtinTest_goes (again : Reentry Rest) (ctx : ShellCtx (ShellTables Rest)) :
    (builtinTest again node ctx).2 = .ok (testAnswer a op, ctx) := by
  have count : argCount node = 4 := by
    have length := congrArg List.length four
    rw [argTexts, List.length_map] at length
    exact length
  have left := @argument_goes Rest node 1 a (by rw [four]; rfl) ctx
  have right := @argument_goes Rest node 2 op (by rw [four]; rfl) ctx
  -- The branches are those of the source, each with the arguments that it reads.
  have one : ∀ answer : List UInt8 → Int,
      ((argument node 2 >>= fun right => pure (answer right) : ShellRun Rest Int) ctx).2 = .ok (answer op, ctx) := by
    intro answer
    rw [Traced.bind_ok right]
    rfl
  have both : ∀ answer : List UInt8 → List UInt8 → Int,
      ((argument node 1 >>= fun left => argument node 2 >>= fun right => pure (answer left right) :
        ShellRun Rest Int) ctx).2 = .ok (answer a op, ctx) := by
    intro answer
    rw [Traced.bind_ok left]
    exact one (answer a)
  -- Four arguments are enough for the branch with an operator, which it takes from the first operand.
  rw [builtinTest, if_neg (by omega), if_pos (by omega), Traced.bind_ok left, testAnswer]
  dsimp only
  by_cases empty : a = asciiBytes "-z"
  · rw [if_pos empty, if_pos empty]
    exact one fun right => if right.length = 0 then 0 else 1
  rw [if_neg empty, if_neg empty]
  by_cases some : a = asciiBytes "-n"
  · rw [if_pos some, if_pos some]
    exact one fun right => if 0 < right.length then 0 else 1
  rw [if_neg some, if_neg some]
  by_cases texts : a ∈ [asciiBytes "=", asciiBytes "==", asciiBytes "!="]
  · rw [if_pos texts, if_pos (List.contains_iff_mem.mpr texts)]
    exact both fun left right => if (left = right ↔ a ≠ asciiBytes "!=") then 0 else 1
  rw [if_neg texts, if_neg (mt List.contains_iff_mem.mp texts)]
  by_cases numbers : a ∈ [asciiBytes "-eq", asciiBytes "-ne", asciiBytes "-lt", asciiBytes "-gt"]
  · have listed : a ∈ numberOperators := numbers
    rw [if_pos numbers, if_pos (List.contains_iff_mem.mpr listed)]
    exact both fun left right => if numbersCompare a (atoiSimple left) (atoiSimple right) then 0 else 1
  · have unlisted : a ∉ numberOperators := numbers
    rw [if_neg numbers, if_neg (mt List.contains_iff_mem.mp unlisted)]
    rfl

end

/-- The texts that the builtin takes for an operator. -/
def takenOperators : List (List UInt8) := asciiBytes "-z" :: asciiBytes "-n" :: testOperators

/-- The left operands that the builtin answers with success, as it takes them for the operator. -/
def acceptedOperands (op : List UInt8) : List (List UInt8) :=
  if numberOperators.contains op then [asciiBytes "-n", asciiBytes "-eq", asciiBytes "!="]
  else if op = asciiBytes "!=" then [asciiBytes "-n", asciiBytes "-eq"]
  else [asciiBytes "-n", asciiBytes "-eq", asciiBytes "!=", op]

/-- They are all operators themselves. -/
theorem mem_takenOperators {a op : List UInt8} (operator : op ∈ testOperators) (accepted : a ∈ acceptedOperands op) :
    a ∈ takenOperators := by
  have every : ∀ other ∈ testOperators, ∀ left ∈ acceptedOperands other, left ∈ takenOperators := by
    decide +kernel
  exact every op operator a accepted

/-- The builtin answers with success exactly for them. -/
theorem testAnswer_eq_zero {a op : List UInt8} (operator : op ∈ testOperators) :
    testAnswer a op = 0 ↔ a ∈ acceptedOperands op := by
  -- A left operand that is an operator is tried with all operators behind it.
  have every : ∀ left ∈ takenOperators, ∀ other ∈ testOperators,
      (testAnswer left other = 0 ↔ left ∈ acceptedOperands other) := by
    decide +kernel
  by_cases taken : a ∈ takenOperators
  · exact every a taken op operator
  · -- Any other text is no operator, and the answer is a failure.
    have other : ∀ text ∈ takenOperators, a ≠ text := fun text among same => taken (same ▸ among)
    have texts : a ∉ [asciiBytes "=", asciiBytes "==", asciiBytes "!="] := fun among =>
      taken (List.mem_cons_of_mem _ (List.mem_cons_of_mem _ (List.mem_append_left _ among)))
    have numbers : a ∉ numberOperators := fun among =>
      taken (List.mem_cons_of_mem _ (List.mem_cons_of_mem _ (List.mem_append_right _ among)))
    have fails : testAnswer a op = 1 := by
      rw [testAnswer, if_neg (other _ (by decide)), if_neg (other _ (by decide)),
        if_neg (mt List.contains_iff_mem.mp texts), if_neg (mt List.contains_iff_mem.mp numbers)]
    rw [fails]
    constructor
    · intro zero
      cases zero
    · intro accepted
      exact absurd (mem_takenOperators operator accepted) taken

section

variable {Rest : Type} (outside : Surroundings Rest)

/-- Executing a command node returns a status. -/
def Exits (fuel : Nat) (node : Node) (ctx : ShellCtx (ShellTables Rest)) (status : Int) : Prop :=
  ∃ after, (walkAst (callCommand outside fuel) node ctx).2 = .ok (status, after)

/-- No alias stands for the word. -/
def Unaliased (ctx : ShellCtx (ShellTables Rest)) (word : List UInt8) : Prop :=
  shellResolveAlias ctx.world.aliases word = word

instance (ctx : ShellCtx (ShellTables Rest)) (word : List UInt8) : Decidable (Unaliased ctx word) :=
  inferInstanceAs (Decidable (_ = _))

/-- A command node of the builtin is answered by it. -/
theorem walkAst_test {fuel : Nat} {node : Node} {ctx : ShellCtx (ShellTables Rest)} {a op b : List UInt8}
    (command : node.type = .command) (four : argTexts node = [asciiBytes "test", a, op, b])
    (unaliased : Unaliased ctx (asciiBytes "test")) :
    (walkAst (callCommand outside (fuel + 1)) node ctx).2 = .ok (testAnswer a op, ctx) := by
  obtain ⟨address, type, array, children, value, cmd⟩ := node
  obtain rfl : type = .command := command
  -- The first argument is the name of the builtin.
  obtain ⟨cmdName, more, args, name⟩ : ∃ cmdName more, cmd.args = cmdName :: more ∧
      cmdName.bytes = asciiBytes "test" := by
    cases args : cmd.args with
    | nil =>
      rw [argTexts, Node.cmd, args] at four
      cases four
    | cons cmdName more =>
      rw [argTexts, Node.cmd, args] at four
      exact ⟨cmdName, more, rfl, (List.cons.inj four).1⟩
  -- A word without a variable is expanded to itself.
  have plain : (expand cmdName.bytes ctx : List (ShellEvent Rest) × _).2 = .ok (asciiBytes "test", ctx) := by
    have same : shellResolveVariables ctx.world.vars (asciiBytes "test") = .ok (asciiBytes "test") :=
      shellResolveVariables_plain _ (by decide +kernel) (by decide)
    rw [name]
    show (Traced.lift (shellResolveVariables ctx.world.vars (asciiBytes "test")) ctx).2 = _
    rw [same]
    rfl
  have registered : registeredNames.find? (fun name => asciiBytes name = asciiBytes "test") = some "test" := by
    decide +kernel
  have found : shellBuiltin outside "test" = builtinTest := by
    rw [shellBuiltin, ownBuiltins]
    rfl
  simp only [walkAst, args]
  rw [Traced.bind_ok (access_goes (by omega) ctx), callCommand, Traced.bind_ok plain]
  have looked : (tables ctx : List (ShellEvent Rest) × _).2 = .ok (ctx.world, ctx) := rfl
  rw [Traced.bind_ok looked, unaliased, registered]
  dsimp only
  have recorded : (Traced.emit (.dispatch "test" (argTexts (.mk address .command array children value cmd))
      ctx.world) ctx : List (ShellEvent Rest) × _).2 = .ok ((), ctx) := rfl
  rw [Traced.bind_ok recorded, found]
  exact builtinTest_goes four _ ctx

/--
Executing test with two operands succeeds exactly when they have the relation of the operator between them, for
the operands that relate as the builtin takes them, and for no others.
-/
theorem test_compares_iff {fuel : Nat} {node : Node} {ctx : ShellCtx (ShellTables Rest)} {a op b : List UInt8}
    {x y : Int} (command : node.type = .command) (four : argTexts node = [asciiBytes "test", a, op, b])
    (unaliased : Unaliased ctx (asciiBytes "test")) (operator : op ∈ testOperators)
    (numbers : op ∈ numberOperators → (Denotes a x ∧ Signed32 x) ∧ (Denotes b y ∧ Signed32 y)) :
    (Exits outside (fuel + 1) node ctx 0 ↔ OperandsRelate op a b x y) ↔ RelateAsTaken op a b x y := by
  have exits : Exits outside (fuel + 1) node ctx 0 ↔ testAnswer a op = 0 := by
    rw [Exits, walkAst_test outside command four unaliased]
    simp
  -- What is left is to compare the operands that are accepted with those that are related.
  rw [exits, testAnswer_eq_zero operator, RelateAsTaken]
  by_cases number : op ∈ numberOperators
  · -- A number has a digit, and so it is no operator.
    obtain ⟨c, among, digit⟩ := (numbers number).1.1.digit
    have digitless : ∀ text ∈ takenOperators, ∀ other ∈ text, isDigit other = false := by decide +kernel
    have refused : a ∉ acceptedOperands op := by
      intro accepted
      rw [digitless a (mem_takenOperators operator accepted) c among] at digit
      cases digit
    rw [if_pos (List.contains_iff_mem.mpr number)]
    simp only [refused, false_iff]
  have unlisted := mt List.contains_iff_mem.mp number
  rw [if_neg unlisted, acceptedOperands, if_neg unlisted]
  by_cases differ : op = asciiBytes "!="
  · -- Texts are to differ.
    have unequal : ¬ (op = asciiBytes "=" ∨ op = asciiBytes "==") := by
      rw [differ]
      decide
    rw [if_pos differ, if_pos differ, OperandsRelate, if_neg unequal, if_pos differ]
    exact iff_not_comm
  · -- Texts are to be equal.
    have equal : op = asciiBytes "=" ∨ op = asciiBytes "==" := by
      rcases List.mem_append.mp operator with text | other
      · simpa [differ] using text
      · exact absurd other number
    rw [if_neg differ, if_neg differ, OperandsRelate, if_pos equal]
    exact Iff.comm

end

/-- A command node with arguments. -/
def commandNode (texts : List (List UInt8)) : Node :=
  .mk 1 .command 0 [] 0 { args := texts.map fun text => ⟨0, text⟩ }

/-- Different words are told apart, since the first of them is no operator. -/
theorem different_words_compared :
    Exits quietSurroundings 1 (commandNode [asciiBytes "test", asciiBytes "a", asciiBytes "=", asciiBytes "b"])
        quietShell 0 ↔
      OperandsRelate (asciiBytes "=") (asciiBytes "a") (asciiBytes "b") 0 0 :=
  (test_compares_iff quietSurroundings rfl rfl (by decide +kernel) (by decide)
    fun number => absurd number (by decide)).mpr (by decide +kernel)

/-- Five is not found equal to five. -/
theorem five_equals_five_fails :
    ¬ ∀ (node : Node) (ctx : ShellCtx (ShellTables Unit)) (a op b : List UInt8) (x y : Int),
      node.type = .command → argTexts node = [asciiBytes "test", a, op, b] → Unaliased ctx (asciiBytes "test") →
      op ∈ testOperators → (op ∈ numberOperators → (Denotes a x ∧ Signed32 x) ∧ (Denotes b y ∧ Signed32 y)) →
      (Exits quietSurroundings 1 node ctx 0 ↔ OperandsRelate op a b x y) := by
  intro claim
  have five : Denotes (asciiBytes "5") 5 := .plain (by decide +kernel) (by decide)
  have unaliased : Unaliased quietShell (asciiBytes "test") := by decide +kernel
  have same := claim
    (commandNode [asciiBytes "test", asciiBytes "5", asciiBytes "-eq", asciiBytes "5"]) quietShell _ _ _ 5 5 rfl rfl
    unaliased (by decide) fun _ => ⟨⟨five, by decide⟩, five, by decide⟩
  obtain ⟨after, ran⟩ := same.mpr (by decide)
  rw [walkAst_test quietSurroundings rfl rfl unaliased] at ran
  -- The answer is that of a word that is no operator.
  have answer : testAnswer (asciiBytes "5") (asciiBytes "-eq") = 1 := by decide +kernel
  rw [answer] at ran
  cases ran

end MiraOS

import MiraOS.Ui.Let

/-! The value that the arithmetic of ui/shell.c stores for an expression of numbers and operations. -/

namespace MiraOS

open Machine

/-- A decimal number as it is written, with blanks around it. -/
structure LetNumber where
  before : List UInt8
  digits : List UInt8
  after : List UInt8
  blankBefore : ∀ c ∈ before, isNumberBlank c = true
  decimal : ∀ c ∈ digits, isDigit c = true
  written : digits ≠ []
  blankAfter : ∀ c ∈ after, isNumberBlank c = true

/-- The text of a number. -/
def LetNumber.text (number : LetNumber) : List UInt8 := number.before ++ number.digits ++ number.after

/-- The value of a number, of any size. -/
def LetNumber.value (number : LetNumber) : Nat := decimalValue number.digits

/-- The character of an operation. -/
def letChar : ArithOp → UInt8
  | .add => '+'.toUInt8
  | .sub => '-'.toUInt8
  | .mul => '*'.toUInt8
  | .div => '/'.toUInt8

/-- A first number, and operations with the numbers behind them. -/
structure LetExpression where
  first : LetNumber
  steps : List (ArithOp × LetNumber)

/-- The text of operations with their numbers. -/
def letStepsText (steps : List (ArithOp × LetNumber)) : List UInt8 :=
  steps.flatMap fun step => letChar step.1 :: step.2.text

/-- The text of an expression. -/
def LetExpression.text (expr : LetExpression) : List UInt8 := expr.first.text ++ letStepsText expr.steps

/-- The operations of an expression with the exact values of their numbers. -/
def LetExpression.operations (expr : LetExpression) : Operations :=
  expr.steps.map fun step => (step.1, (step.2.value : Int))

/-- The operations of an expression with their numbers in 32-bit words. -/
def letWords (steps : List (ArithOp × LetNumber)) : Operations :=
  steps.map fun step => (step.1, wrap32 step.2.value)

/-- The exact value of an expression, from left to right. -/
def LetExpression.value (expr : LetExpression) : Int := exactRun expr.first.value expr.operations

/-- The value that an expression would have in 32-bit words with another first number. -/
def LetExpression.wordFrom (expr : LetExpression) (first : Int) : Option Int := wordRun first (letWords expr.steps)

/-- An expression without a zero divisor, whose values on the way are all in the range of 32 bits. -/
structure LetExpression.Regular (expr : LetExpression) : Prop where
  nonzero : ∀ step ∈ expr.steps, step.1 = .div → step.2.value ≠ 0
  range : InRange expr.first.value expr.operations

/-- A number written as its digits alone. -/
def LetNumber.bare (digits : List UInt8) (decimal : ∀ c ∈ digits, isDigit c = true) (written : digits ≠ []) :
    LetNumber where
  before := []
  digits := digits
  after := []
  blankBefore := by simp
  decimal := decimal
  written := written
  blankAfter := by simp

/-- A variable of the name can be set: it exists, or the table has room for it. -/
def ShellVars.CanSet (vars : ShellVars) (name : List UInt8) : Prop :=
  name ∈ vars.names ∨ vars.names.length < shellMaxVars

/-- Digits and blanks stand for no operation. -/
theorem arithOp?_none {c : UInt8} (plain : isDigit c = true ∨ isNumberBlank c = true) : arithOp? c = none := by
  -- The four operations have characters of their own.
  have apart : ∀ other : UInt8, isDigit other = false → isNumberBlank other = false → c ≠ other := by
    rintro other digit blank rfl
    simp [digit, blank] at plain
  rw [arithOp?, if_neg (apart _ (by decide) (by decide)), if_neg (apart _ (by decide) (by decide)),
    if_neg (apart _ (by decide) (by decide)), if_neg (apart _ (by decide) (by decide))]

/-- The character of an operation stands for it, and is no digit. -/
theorem arithOp?_letChar (op : ArithOp) : arithOp? (letChar op) = some op ∧ isDigit (letChar op) = false := by
  cases op <;> decide

/-- The loop finds no operation in digits and blanks. -/
theorem letOperations_plain {text : List UInt8} (plain : ∀ c ∈ text, isDigit c = true ∨ isNumberBlank c = true)
    (rest : List UInt8) : letOperations (text ++ rest) = letOperations rest := by
  -- Digits and blanks are passed over one by one.
  induction text with
  | nil => rfl
  | cons c others ih =>
    rw [List.cons_append, letOperations, arithOp?_none (plain c List.mem_cons_self)]
    exact ih fun other among => plain other (List.mem_cons_of_mem c among)

/-- The text of a number has digits and blanks. -/
theorem LetNumber.plain (number : LetNumber) :
    ∀ c ∈ number.text, isDigit c = true ∨ isNumberBlank c = true := by
  intro c among
  rw [LetNumber.text, List.mem_append, List.mem_append] at among
  -- Blanks, digits and blanks again: the three parts of a written number.
  rcases among with (before | digit) | after
  · exact .inr (number.blankBefore c before)
  · exact .inl (number.decimal c digit)
  · exact .inr (number.blankAfter c after)

/-- The number at the front of a text is read past its blanks, in a 32-bit word. -/
theorem LetNumber.read (number : LetNumber) {rest : List UInt8} (stops : ∀ c ∈ rest.head?, isDigit c = false) :
    atoiSimple (number.text ++ rest) = wrap32 number.value := by
  -- Blanks in front are skipped one by one.
  have skipped : ∀ {blanks : List UInt8}, (∀ c ∈ blanks, isNumberBlank c = true) → ∀ text,
      atoiSimple (blanks ++ text) = atoiSimple text := by
    intro blanks all text
    rw [atoiSimple, atoiSimple, List.dropWhile_append_of_pos all]
  -- What follows the digits is a blank or what follows the number.
  have ended : ∀ c ∈ (number.after ++ rest).head?, isDigit c = false := by
    cases blanks : number.after with
    | nil => exact stops
    | cons c others =>
      have blank := number.blankAfter c (by rw [blanks]; exact List.mem_cons_self)
      simp only [isNumberBlank, Bool.or_eq_true, beq_iff_eq] at blank
      rcases blank with rfl | rfl
      · rintro other ⟨⟩
        decide
      · rintro other ⟨⟩
        decide
  rw [LetNumber.text, List.append_assoc, List.append_assoc, skipped number.blankBefore]
  exact atoiSimple_digits number.decimal number.written _ ended

/-- The loop finds the operations of a text with the numbers behind them. -/
theorem letOperations_steps (steps : List (ArithOp × LetNumber)) :
    letOperations (letStepsText steps) = letWords steps := by
  induction steps with
  | nil => rfl
  | cons step rest ih =>
    obtain ⟨op, number⟩ := step
    -- A number ends at the character of the next operation, or at the end.
    have stops : ∀ c ∈ (letStepsText rest).head?, isDigit c = false := by
      cases rest with
      | nil => simp [letStepsText]
      | cons next others =>
        intro c front
        have same : letChar next.1 = c := by simpa [letStepsText] using front
        rw [← same]
        exact (arithOp?_letChar next.1).2
    have text : letStepsText ((op, number) :: rest) = letChar op :: (number.text ++ letStepsText rest) := rfl
    rw [text, letOperations, (arithOp?_letChar op).1, number.read stops, letOperations_plain number.plain, ih]
    rfl

/-- The first number of an expression is no operation, so the loop passes it over. -/
theorem LetExpression.operations_text (expr : LetExpression) : letOperations expr.text = letWords expr.steps := by
  rw [LetExpression.text, letOperations_plain expr.first.plain, letOperations_steps]

/-- The text of a number in range fits into a variable. -/
theorem decimalText_fits {value : Int} (fits : Signed32 value) : ValueFits (decimalText value) := by
  obtain ⟨low, high⟩ := fits
  -- The end of a text is no digit.
  have solid : ∀ magnitude : Nat, 0 ∉ decimalDigits magnitude := by
    intro magnitude among
    have digit := decimalDigits_isDigit magnitude 0 among
    revert digit
    decide
  -- A magnitude of ten digits at most has as many characters.
  have short : ∀ magnitude : Nat, magnitude < 10 ^ 10 → (decimalDigits magnitude).length ≤ 10 := by
    intro magnitude small
    rw [decimalDigits]
    split_ifs
    · decide
    · rw [List.length_reverse, List.length_map]
      exact (Nat.digits_length_le_iff (by decide) magnitude).mpr small
  have brief := short value.natAbs (by omega)
  rw [decimalText]
  split_ifs
  · refine ⟨fun among => ?_, by rw [List.length_cons]; omega⟩
    rcases List.mem_cons.mp among with sign | digit
    · revert sign
      decide
    · exact solid _ digit
  · exact ⟨solid _, by omega⟩

/-- The value of a run in words is a word. -/
theorem wordRun_fits {start value : Int} {ops : Operations} (fits : Signed32 start)
    (ran : wordRun start ops = some value) : Signed32 value := by
  -- Each operation wraps its result.
  induction ops generalizing start with
  | nil =>
    cases ran
    exact fits
  | cons step rest ih =>
    rw [wordRun, ArithOp.word] at ran
    by_cases faults : step.1.Faults start step.2
    · rw [if_pos faults] at ran
      cases ran
    · rw [if_neg faults] at ran
      exact ih (wrap32_fits _) ran

/-- A variable that was set is read back if it could be set, and nothing is read of another one. -/
theorem ShellVars.Holds.get_set {vars : ShellVars} {items : List ShellVar} (holds : vars.Holds items)
    {name value : List UInt8} (named : NameFits name) (fits : ValueFits value) :
    (vars.CanSet name → shellGetVariable (shellSetVariable vars name value) name = value) ∧
      (¬ vars.CanSet name → shellGetVariable (shellSetVariable vars name value) name = []) := by
  rw [ShellVars.CanSet, holds.names_eq, List.length_map]
  -- An old variable has its value replaced, and a new one is added behind the others.
  by_cases old : name ∈ items.map (·.name)
  · obtain ⟨var, found⟩ : ∃ var, keyed (·.name) items name = some var :=
      Option.ne_none_iff_exists'.mp fun absent => (keyed_eq_none.mp absent) old
    refine ⟨fun _ => ?_, fun cannot => absurd (.inl old) cannot⟩
    have kept : ∀ var : ShellVar, ShellVar.name { var with value := value } = var.name := fun _ => rfl
    rw [(holds.set_old fits named.1 old).get named.1, keyed_changeKey kept]
    simp [found]
  · by_cases room : items.length < shellMaxVars
    · refine ⟨fun _ => ?_, fun cannot => absurd (.inr room) cannot⟩
      rw [(holds.set_new named fits old room).get named.1, keyed_append, keyed_eq_none.mpr old]
      simp
    · -- The table is full, and the name is not in it.
      refine ⟨fun can => (can.elim old room).elim, fun _ => ?_⟩
      rw [holds.set_full named.1 old room, holds.get named.1, keyed_eq_none.mpr old]
      rfl

/--
The builtin stores the decimal text of the value of an expression exactly when the variable can be set, the value
is not the smallest number, and the expression would have the same value in words with zero as its first number.
-/
theorem let_stores_value_iff {vars : ShellVars} {items : List ShellVar} (holds : vars.Holds items)
    {expr : LetExpression} (regular : expr.Regular) (command : List UInt8) (more : List (List UInt8)) :
    (∃ status after, builtinLet vars (command :: expr.text :: more) = .ok (status, after) ∧
        shellGetVariable after (asciiBytes "?") = decimalText expr.value) ↔
      vars.CanSet (asciiBytes "?") ∧ expr.value ≠ -2 ^ 31 ∧ expr.wordFrom 0 = some expr.value := by
  have named : NameFits (asciiBytes "?") := ⟨by decide, by decide⟩
  have exact32 : Signed32 expr.value := regular.range _ List.prefix_rfl
  rw [builtinLet, letLoop_eq, expr.operations_text, LetExpression.wordFrom]
  -- A run that is refused stores nothing.
  cases ran : wordRun 0 (letWords expr.steps) with
  | none =>
    constructor
    · rintro ⟨status, after, stored, -⟩
      cases stored
    · rintro ⟨-, -, same⟩
      cases same
  | some result =>
    have fits : Signed32 result := wordRun_fits (by decide) ran
    -- The text that is stored is the decimal text of the result, or a sign alone.
    have least : result = -2 ^ 31 → intToStr result = ['-'.toUInt8] := fun same => same ▸ intToStr_least
    have valueFits : ValueFits (intToStr result) := by
      by_cases smallest : result = -2 ^ 31
      · rw [least smallest]
        exact ⟨by decide, by decide⟩
      · rw [intToStr_eq fits smallest]
        exact decimalText_fits fits
    obtain ⟨stored, full⟩ := holds.get_set named valueFits
    have nonempty : decimalText expr.value ≠ [] := by
      rw [decimalText]
      split_ifs
      · exact List.cons_ne_nil _ _
      · exact decimalDigits_ne_nil _
    constructor
    · rintro ⟨status, after, same, reads⟩
      cases same
      -- Something is read back, so the variable could be set.
      have can : vars.CanSet (asciiBytes "?") := by
        by_contra cannot
        rw [full cannot] at reads
        exact nonempty reads.symm
      rw [stored can] at reads
      -- A sign alone is the text of no number.
      have other : result ≠ -2 ^ 31 := by
        intro smallest
        rw [least smallest] at reads
        exact decimalText_ne_sign _ reads.symm
      rw [intToStr_eq fits other] at reads
      have value := decimalText_inj reads
      exact ⟨can, value ▸ other, by rw [value]⟩
    · rintro ⟨can, other, same⟩
      cases same
      refine ⟨_, _, rfl, ?_⟩
      rw [stored can, intToStr_eq fits other]

/-- The sum of two digits. -/
def LetExpression.sum (left right : UInt8) (one : isDigit left = true) (two : isDigit right = true) :
    LetExpression where
  first := .bare [left] (by simpa using one) (by simp)
  steps := [(.add, .bare [right] (by simpa using two) (by simp))]

/-- The sum of two digits is an expression in range. -/
theorem LetExpression.sum_regular {left right : UInt8} (one : isDigit left = true) (two : isDigit right = true) :
    (LetExpression.sum left right one two).Regular := by
  obtain ⟨lowLeft, highLeft⟩ := isDigit_value one
  obtain ⟨lowRight, highRight⟩ := isDigit_value two
  constructor
  · intro step among
    obtain rfl := List.mem_singleton.mp among
    rintro ⟨⟩
  · intro before front
    -- The values on the way are the first digit and the sum.
    rcases List.prefix_cons_iff.mp front with rfl | ⟨rest, rfl, empty⟩
    · simp only [exactRun, List.foldl_nil, LetExpression.sum, LetNumber.bare, LetNumber.value, decimalValue,
        List.foldl_cons, Signed32]
      omega
    · obtain rfl := List.prefix_nil.mp empty
      simp only [exactRun, List.foldl_nil, LetExpression.sum, LetNumber.bare, LetNumber.value, decimalValue,
        List.foldl_cons, Signed32, ArithOp.exact]
      omega

/-- The sum of zero and seven is stored. -/
theorem let_zero_plus_seven :
    ∃ status after, builtinLet (noVars fun _ => 0) [asciiBytes "let", asciiBytes "0+7"] = .ok (status, after) ∧
      shellGetVariable after (asciiBytes "?") = asciiBytes "7" := by
  have regular : (LetExpression.sum 48 55 (by decide) (by decide)).Regular := LetExpression.sum_regular _ _
  exact (let_stores_value_iff (noVars_holds fun _ => 0) regular (asciiBytes "let") []).mpr
    ⟨.inr (by decide), by decide, by decide +kernel⟩

/-- The sum of five and three is eight, but three is stored. -/
theorem let_five_plus_three :
    ∃ expr : LetExpression, expr.Regular ∧ expr.text = asciiBytes "5+3" ∧
      decimalText expr.value = asciiBytes "8" ∧
      (noVars fun _ => 0).CanSet (asciiBytes "?") ∧
      ∃ after, builtinLet (noVars fun _ => 0) [asciiBytes "let", asciiBytes "5+3"] = .ok (1, after) ∧
        shellGetVariable after (asciiBytes "?") = asciiBytes "3" := by
  have can : (noVars fun _ => 0).CanSet (asciiBytes "?") := .inr (by decide)
  -- The loop skips the 5 in front of the operator and reads 3 behind it.
  have ran : letLoop (asciiBytes "5+3") 0 = .ok 3 := by decide +kernel
  refine ⟨.sum 53 51 (by decide) (by decide), LetExpression.sum_regular _ _, by decide, by decide +kernel, can,
    shellSetVariable (noVars fun _ => 0) (asciiBytes "?") (asciiBytes "3"), ?_, ?_⟩
  · rw [builtinLet, ran]
    have text : intToStr 3 = asciiBytes "3" := by decide +kernel
    rw [ok_bind, text]
    rfl
  · exact ((noVars_holds _).get_set ⟨by decide, by decide⟩ ⟨by decide, by decide⟩).1 can

end MiraOS

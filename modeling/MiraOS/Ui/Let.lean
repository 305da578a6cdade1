import MiraOS.Machine.Arithmetic
import MiraOS.Ui.Numbers
import MiraOS.Ui.Variables

/-! Arithmetic at the prompt of ui/shell.c: when it faults, and when it gives the value that is meant. -/

namespace MiraOS

open Machine

/-- A division in 32-bit arithmetic; one that the processor refuses is an exception, which ends in a panic. -/
def divide32 (left right : Int) : Except Halt Int :=
  if DivisionFaults left right then .error (.panic "cpu exception") else .ok (wrap32 (left.tdiv right))

/-- The loop over the characters of an expression, each of which may be an operator. -/
def letLoop : List UInt8 → Int → Except Halt Int
  | [], result => .ok result
  | c :: rest, result =>
    if c = '+'.toUInt8 then letLoop rest (wrap32 (result + atoiSimple rest))
    else if c = '-'.toUInt8 then letLoop rest (wrap32 (result - atoiSimple rest))
    else if c = '*'.toUInt8 then letLoop rest (wrap32 (result * atoiSimple rest))
    else if c = '/'.toUInt8 then do
      let result ← divide32 result (atoiSimple rest)
      letLoop rest result
    -- The digits themselves are passed over.
    else letLoop rest result

/-- The builtin, with its status: the variable is set unless there is no expression. -/
def builtinLet (vars : ShellVars) (args : List (List UInt8)) : Except Halt (Int × ShellVars) :=
  match args with
  | _ :: expr :: _ => do
    let result ← letLoop expr 0
    return (if result = 0 then 0 else 1, shellSetVariable vars (asciiBytes "?") (intToStr result))
  | _ => .ok (1, vars)

/-- The operation that a character stands for. -/
def arithOp? (c : UInt8) : Option ArithOp :=
  if c = '+'.toUInt8 then some .add
  else if c = '-'.toUInt8 then some .sub
  else if c = '*'.toUInt8 then some .mul
  else if c = '/'.toUInt8 then some .div
  else none

/-- The operations of a text, each with the number behind its character. -/
def letOperations : List UInt8 → Operations
  | [] => []
  | c :: rest => ((arithOp? c).map fun op => (op, atoiSimple rest)).toList ++ letOperations rest

/-- The value of a text as the loop takes it: its operations from zero on, in 32-bit arithmetic. -/
def letValue (expr : List UInt8) : Int := wordValue 0 (letOperations expr)

/-- No division of a text is refused: none is by zero, and none by minus one of the smallest number. -/
def DividesSafely (expr : List UInt8) : Prop :=
  ∀ before after, expr = before ++ '/'.toUInt8 :: after →
    atoiSimple after ≠ 0 ∧ ¬ (atoiSimple after = -1 ∧ letValue before = -2 ^ 31)

/-- The loop runs the operations of its text. -/
theorem letLoop_eq (expr : List UInt8) (result : Int) :
    letLoop expr result =
      match wordRun result (letOperations expr) with
      | some value => .ok value
      | none => .error (.panic "cpu exception") := by
  induction expr generalizing result with
  | nil => rfl
  | cons c rest ih =>
    -- The loop and the list of operations ask for the same characters.
    rw [letLoop, letOperations, arithOp?]
    by_cases plus : c = '+'.toUInt8
    · rw [if_pos plus, if_pos plus, ih]
      rfl
    by_cases minus : c = '-'.toUInt8
    · rw [if_neg plus, if_neg plus, if_pos minus, if_pos minus, ih]
      rfl
    by_cases times : c = '*'.toUInt8
    · rw [if_neg plus, if_neg plus, if_neg minus, if_neg minus, if_pos times, if_pos times, ih]
      rfl
    -- Only the division can fault, and it is decided by the same divisor on both sides.
    by_cases slash : c = '/'.toUInt8
    · rw [if_neg plus, if_neg plus, if_neg minus, if_neg minus, if_neg times, if_neg times, if_pos slash,
        if_pos slash, divide32]
      simp only [Option.map_some, Option.toList, List.singleton_append, wordRun, ArithOp.word, ArithOp.Faults,
        true_and]
      by_cases faults : DivisionFaults result (atoiSimple rest)
      · rw [if_pos faults, if_pos faults]
        rfl
      · rw [if_neg faults, if_neg faults, ok_bind, ih]
        rfl
    · -- Any other character is passed over.
      rw [if_neg plus, if_neg plus, if_neg minus, if_neg minus, if_neg times, if_neg times, if_neg slash,
        if_neg slash, ih]
      rfl

/-- A number stops in front of a character that is no part of one. -/
theorem digitLoop_stop {stop : UInt8} (other : isDigit stop = false) (text rest : List UInt8) (result : Int) :
    digitLoop (text ++ stop :: rest) result = digitLoop text result := by
  -- Induction on the text in front of the stop: a non-digit there ends both loops at the same result.
  induction text generalizing result with
  | nil => simp [digitLoop, other]
  | cons c others ih =>
    rw [List.cons_append, digitLoop, digitLoop]
    split_ifs
    · exact ih _
    · rfl

/-- The number in front of a slash is that of the text before it. -/
theorem atoiSimple_slash (text rest : List UInt8) :
    atoiSimple (text ++ '/'.toUInt8 :: rest) = atoiSimple text := by
  have other : isDigit '/'.toUInt8 = false := by decide
  induction text with
  | nil =>
    -- The slash is neither a blank nor a sign nor a digit.
    have kept : ('/'.toUInt8 :: rest).dropWhile isNumberBlank = '/'.toUInt8 :: rest :=
      List.dropWhile_cons_of_neg (by decide)
    rw [List.nil_append, atoiSimple, kept]
    dsimp only
    rw [if_neg (by decide), if_neg (by decide), digitLoop, if_neg (by simp [other])]
    rfl
  | cons c others ih =>
    by_cases blank : isNumberBlank c = true
    · -- A blank in front is skipped by both.
      rw [atoiSimple, atoiSimple, List.cons_append, List.dropWhile_cons_of_pos blank,
        List.dropWhile_cons_of_pos blank]
      exact ih
    · rw [atoiSimple, atoiSimple, List.cons_append, List.dropWhile_cons_of_neg blank,
        List.dropWhile_cons_of_neg blank]
      dsimp only
      rw [digitLoop_stop other, ← List.cons_append, digitLoop_stop other]

/-- The operations of a text with a slash in it. -/
theorem letOperations_slash (before after : List UInt8) :
    letOperations (before ++ '/'.toUInt8 :: after) =
      letOperations before ++ (.div, atoiSimple after) :: letOperations after := by
  -- Induction on the text in front of the slash.
  induction before with
  | nil => rfl
  | cons c others ih =>
    rw [List.cons_append, letOperations, letOperations, ih, atoiSimple_slash, List.append_assoc]

/-- A division among the operations of a text comes from one of its slashes. -/
theorem letOperations_split {expr : List UInt8} {front back : Operations} {right : Int}
    (split : letOperations expr = front ++ (.div, right) :: back) :
    ∃ before after, expr = before ++ '/'.toUInt8 :: after ∧ letOperations before = front ∧
      atoiSimple after = right := by
  -- The first character is an operation of its own or none, and the others are those of the rest.
  induction expr generalizing front with
  | nil =>
    cases front <;> cases split
  | cons c rest ih =>
    rw [letOperations] at split
    -- The text behind the first character is split, unless that is the slash.
    have onward : ∀ {more : Operations}, letOperations rest = more ++ (.div, right) :: back →
        (((arithOp? c).map fun op => (op, atoiSimple rest)).toList ++ more = front) →
        ∃ before after, c :: rest = before ++ '/'.toUInt8 :: after ∧ letOperations before = front ∧
          atoiSimple after = right := by
      intro more later same
      obtain ⟨before, after, text, ops, number⟩ := ih later
      refine ⟨c :: before, after, by rw [text]; rfl, ?_, number⟩
      rw [letOperations, ops, ← same, text, atoiSimple_slash]
    cases op : arithOp? c with
    | none =>
      rw [op] at split onward
      exact onward split rfl
    | some kind =>
      rw [op] at split onward
      cases front with
      | cons first more =>
        obtain ⟨same, later⟩ := List.cons.inj split
        exact onward later (by rw [← same]; rfl)
      | nil =>
        obtain ⟨same, -⟩ := List.cons.inj split
        obtain ⟨rfl, rfl⟩ := Prod.mk.inj same
        -- Only the slash stands for a division.
        have slash : c = '/'.toUInt8 := by
          unfold arithOp? at op
          split_ifs at op with plus minus times slash
          · cases op
          · cases op
          · cases op
          · exact slash
        exact ⟨[], rest, by rw [slash]; rfl, rfl, rfl⟩

/-- The divisions of a text are those among its operations. -/
theorem dividesSafely_iff (expr : List UInt8) : DividesSafely expr ↔ FaultFree 0 (letOperations expr) := by
  constructor
  · intro safe front right back split
    -- A division among the operations stands at a slash.
    obtain ⟨before, after, text, rfl, rfl⟩ := letOperations_split split
    obtain ⟨nonzero, range⟩ := safe before after text
    rintro (zero | ⟨least, minus⟩)
    · exact nonzero zero
    · exact range ⟨minus, least⟩
  · intro free before after text
    -- A slash stands for a division among the operations.
    have fine := free (letOperations before) (atoiSimple after) (letOperations after)
      (by rw [text, letOperations_slash])
    exact ⟨fun zero => fine (.inl zero), fun ⟨minus, least⟩ => fine (.inr ⟨least, minus⟩)⟩

/--
The builtin returns exactly when every slash of its argument is followed by a number that the value in front of it
can be divided by.
-/
theorem let_faults_iff (vars : ShellVars) (command expr : List UInt8) (more : List (List UInt8)) :
    (∃ after, builtinLet vars (command :: expr :: more) = .ok after) ↔ DividesSafely expr := by
  rw [dividesSafely_iff, builtinLet, letLoop_eq]
  constructor
  · rintro ⟨after, ran⟩
    -- A result means that the operations ran to their end.
    cases value : wordRun 0 (letOperations expr) with
    | none =>
      rw [value] at ran
      cases ran
    | some result => exact (wordRun_eq_some.mp value).1
  · intro free
    have value := wordRun_eq_some.mpr ⟨free, rfl⟩
    rw [value]
    exact ⟨_, rfl⟩

/-- One divided by zero is a panic. -/
theorem let_one_by_zero :
    builtinLet (noVars fun _ => 0) [asciiBytes "let", asciiBytes "1/0"] = .error (.panic "cpu exception") := by
  have stopped : letLoop (asciiBytes "1/0") 0 = .error (.panic "cpu exception") := by decide +kernel
  rw [builtinLet, stopped]
  rfl

end MiraOS

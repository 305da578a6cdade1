import MiraOS.Ui.ListReading
import MiraOS.Ui.TokensTaken

/-! Arguments written in double quotes come back as they were, through tokenizer and parser. -/

namespace MiraOS

open Machine

/-- A byte inside double quotes: quotes and backslashes are escaped. -/
def escapeByte (c : UInt8) : List UInt8 :=
  if c = backslash ∨ c = doubleQuote then [backslash, c] else [c]

/-- An argument in double quotes. -/
def quoteArg (arg : List UInt8) : List UInt8 :=
  doubleQuote :: (arg.flatMap escapeByte ++ [doubleQuote])

/-- The command line of several arguments, separated by single spaces. -/
def quotedLine : List (List UInt8) → List UInt8
  | [] => []
  | [arg] => quoteArg arg
  | arg :: rest => quoteArg arg ++ ' '.toUInt8 :: quotedLine rest

/-- The loop over a quoted text decodes an escaped argument up to the closing quote. -/
theorem quotedLoop_escaped (arg rest buf : List UInt8)
    (fits : buf.length + arg.length ≤ tokenBufSize - 1) :
    quotedLoop doubleQuote (arg.flatMap escapeByte ++ doubleQuote :: rest) buf =
      (buf ++ arg, doubleQuote :: rest) := by
  -- The argument shrinks as the buffer grows, so the buffer stays quantified over.
  induction arg generalizing buf with
  | nil =>
    rw [List.flatMap_nil, List.nil_append, List.append_nil]
    unfold quotedLoop
    rw [if_neg (fun both => both.1 rfl)]
  | cons c others ih =>
    rw [List.length_cons] at fits
    have room : buf.length < tokenBufSize - 1 := by omega
    have later := ih (buf ++ [c]) (by rw [List.length_append, List.length_singleton]; omega)
    rw [List.append_assoc, List.singleton_append] at later
    rw [List.flatMap_cons, List.append_assoc]
    by_cases special : c = backslash ∨ c = doubleQuote
    -- Quotes and backslashes stand for themselves when escaped.
    · have same : unescape c = c := by
        rcases special with rfl | rfl <;> decide
      rw [escapeByte, if_pos special, List.cons_append, List.singleton_append]
      conv_lhs => unfold quotedLoop
      rw [if_pos ⟨by decide, room⟩]
      simp only [if_true, same]
      exact later
    · -- What follows an unescaped byte is not empty: at least the closing quote is there.
      rw [escapeByte, if_neg special, List.singleton_append]
      obtain ⟨next, after, shape⟩ : ∃ next after,
          others.flatMap escapeByte ++ doubleQuote :: rest = next :: after :=
        List.exists_cons_of_ne_nil (by simp)
      have plain : c ≠ backslash := fun is => special (.inl is)
      have noQuote : c ≠ doubleQuote := fun is => special (.inr is)
      rw [shape] at later ⊢
      conv_lhs => unfold quotedLoop
      rw [if_pos ⟨noQuote, room⟩]
      simp only [if_neg plain]
      exact later

/-- A quote is not one of the fixed tokens. -/
theorem lexOperator_quote (rest : List UInt8) : lexOperator doubleQuote rest = none := by
  -- The quote is compared with every character of the fixed tokens.
  unfold lexOperator
  simp only [doubleQuote, Char.toUInt8]
  simp

/-- A quoted argument is one string token. -/
theorem lexToken_quoted (arg rest : List UInt8) (fits : arg.length ≤ tokenBufSize - 1) :
    lexToken doubleQuote (arg.flatMap escapeByte ++ doubleQuote :: rest) =
      .ok ⟨.string, arg, rest⟩ := by
  unfold lexToken
  rw [lexOperator_quote]
  -- The loop reads the escaped argument back and stops at the closing quote.
  simp only [true_or, if_true, quotedLoop_escaped arg rest [] (by simpa using fits), List.nil_append]
  rfl

section

variable {supply : Nat → Nat} (memory : ∀ n, supply n ≠ 0)

include memory

/-- With memory a token is made. -/
theorem tokenizerCreateToken_memory (type : TokenType) (value : List UInt8) (heap : HeapCalls) :
    tokenizerCreateToken supply type value heap =
      (some ⟨supply heap.requests, type, ⟨supply (heap.requests + 1), value⟩⟩,
        ⟨heap.requests + 2, heap.freed⟩) := by
  -- Both requests, for the token and for its text, are granted.
  have first : (heap.kmalloc supply).1 ≠ 0 := memory _
  have second : ((heap.kmalloc supply).2.kmalloc supply).1 ≠ 0 := memory _
  unfold tokenizerCreateToken
  simp only [if_neg first, if_neg second]
  rfl

/-- A quoted argument is made into one string token. -/
theorem tokenizeLoop_quoted (arg rest : List UInt8) (tokens : List Token) (heap : HeapCalls)
    (fits : arg.length ≤ tokenBufSize - 1) :
    tokenizeLoop supply (quoteArg arg ++ rest) tokens heap =
      tokenizeLoop supply rest
        (tokens ++ [⟨supply heap.requests, .string, ⟨supply (heap.requests + 1), arg⟩⟩])
        ⟨heap.requests + 2, heap.freed⟩ := by
  -- The quote is no blank, and the token it starts is known.
  have shape : quoteArg arg ++ rest =
      doubleQuote :: (arg.flatMap escapeByte ++ doubleQuote :: rest) := by
    simp [quoteArg]
  rw [shape, tokenizeLoop_token supply (by decide) (lexToken_quoted arg rest fits)]
  simp only [tokenizerCreateToken_memory memory, Option.toList]

/-- A quoted command line is made into one string token for each argument. -/
theorem tokenizeLoop_line (args : List (List UInt8)) (tokens : List Token) (heap : HeapCalls)
    (fits : ∀ arg ∈ args, arg.length ≤ tokenBufSize - 1) :
    ∃ made after, tokenizeLoop supply (quotedLine args) tokens heap = .ok (tokens ++ made, after) ∧
      made.map (fun token => (token.type, token.value.bytes)) =
        args.map fun arg => (.string, arg) := by
  -- The tokens already made and the requests grow with each argument.
  induction args generalizing tokens heap with
  | nil => exact ⟨[], heap, by unfold quotedLine tokenizeLoop; simp, rfl⟩
  | cons arg rest ih =>
    have first := fits arg List.mem_cons_self
    have others := fun other among => fits other (List.mem_cons_of_mem arg among)
    obtain ⟨made, after, ran, values⟩ := ih
      (tokens ++ [⟨supply heap.requests, .string, ⟨supply (heap.requests + 1), arg⟩⟩])
      ⟨heap.requests + 2, heap.freed⟩ others
    refine ⟨⟨supply heap.requests, .string, ⟨supply (heap.requests + 1), arg⟩⟩ :: made, after, ?_, ?_⟩
    · rw [List.append_assoc, List.singleton_append] at ran
      cases rest with
      | nil =>
        have alone := tokenizeLoop_quoted memory arg [] tokens heap first
        rw [List.append_nil] at alone
        rw [quotedLine, alone]
        exact ran
      | cons second more =>
        rw [quotedLine, tokenizeLoop_quoted memory arg _ tokens heap first]
        -- The blank between two arguments is skipped.
        · conv_lhs => unfold tokenizeLoop
          rw [if_pos (by decide)]
          exact ran
        · exact fun empty => List.cons_ne_nil second more empty
    · rw [List.map_cons, List.map_cons, values]

/-- A quoted command line is tokenized into its arguments and the end. -/
theorem tokenize_line (args : List (List UInt8)) (heap : HeapCalls)
    (fits : ∀ arg ∈ args, arg.length ≤ tokenBufSize - 1) :
    ∃ tokens eof after, tokenize supply (quotedLine args) heap = .ok (tokens ++ [eof], after) ∧
      eof.type = .eof ∧ tokens.map (fun token => (token.type, token.value.bytes)) =
        args.map fun arg => (.string, arg) := by
  -- The end token is made after all the arguments.
  obtain ⟨made, after, ran, values⟩ := tokenizeLoop_line memory args [] heap fits
  rw [List.nil_append] at ran
  refine ⟨made, ⟨supply after.requests, .eof, ⟨supply (after.requests + 1), []⟩⟩,
    ⟨after.requests + 2, after.freed⟩, ?_, rfl, values⟩
  rw [tokenize, ran]
  simp only [bind, Except.bind, pure, Except.pure, tokenizerCreateToken_memory memory, Option.toList]

/-- With memory all requests are granted. -/
theorem granted_memory (start count : Nat) : Granted supply start count := fun _ _ => memory _

/-- One simple command is parsed into a sequence of it. -/
theorem parseTokens_single (command : SimpleCommand) {eof : Token} (ended : eof.type = .eof)
    (heap : HeapCalls) :
    ∃ node next, (parseTokens supply (command.words ++ [eof]) heap).node = some node ∧
      node.type = .sequence ∧ node.children = [next] ∧ IsSimple next command.args := by
  -- The end token ends the command, the pipeline and the list at once.
  have ends : EndsSimple [eof] := by
    intro token found
    obtain rfl : eof = token := by simpa using found
    rw [ended]
    decide
  obtain ⟨next, found, simple, left, -⟩ := @parseExpression_simple supply
    ⟨heap.requests + 1, heap.freed⟩ command [eof] ends (granted_memory memory _ _)
  rw [parseTokens, parseSequence]
  simp only [astCreateNode_granted .sequence (memory heap.requests), found, left]
  rw [astAddChild_memory memory]
  have last : ∀ token ∈ some eof, token.type = .eof := by
    intro token found
    obtain rfl : eof = token := by simpa using found
    exact ended
  have stop := fun seq heap => @sequenceLoop_end supply heap seq (some eof) last
  simp only [Option.toList] at stop
  rw [stop, takeBackground_end last rfl]
  exact ⟨_, next, rfl, rfl, rfl, simple⟩

end

end MiraOS

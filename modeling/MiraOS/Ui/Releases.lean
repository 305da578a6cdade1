import Mathlib.Data.List.Nodup
import MiraOS.Ui.Quoting

/-! Which pointers a command gives back: the memory of its tree, the memory of its tokens, and the
texts of the arguments, which belong to both. -/

namespace MiraOS

open Machine

mutual

/-- The memory that belongs to a tree alone: nodes, arrays of children and arrays of arguments. -/
def Node.blocks : Node → List Nat
  | .mk address type array children value cmd =>
    [address, value, if type = .command then cmd.argsAddress else 0, array] ++ blocksAll children

/-- The memory of several trees. -/
def blocksAll : List Node → List Nat
  | [] => []
  | child :: rest => child.blocks ++ blocksAll rest

end

mutual

/-- The texts that are given back with a tree. -/
def Node.texts : Node → List Nat
  | .mk _ type _ children _ cmd =>
    (if type = .command ∧ cmd.argsAddress ≠ 0 then cmd.args.map fun arg => arg.address else []) ++
      textsAll children

/-- The texts of several trees. -/
def textsAll : List Node → List Nat
  | [] => []
  | child :: rest => child.texts ++ textsAll rest

end

/-- The memory of a tree that may be missing. -/
def heldBlocks : Option Node → List Nat
  | none => []
  | some node => node.blocks

/-- The pointers that are given back with the tokens. -/
def tokenPointers (tokens : List Token) : List Nat :=
  tokens.flatMap fun token => [token.value.address, token.address]

/-- No pointer other than null is there twice. -/
def FreedOnce (pointers : List Nat) : Prop := (pointers.filter fun pointer => pointer ≠ 0).Nodup

/-- Two lists hold the same pointers other than null. -/
def SamePointers (pointers others : List Nat) : Prop :=
  ∀ pointer, pointer ≠ 0 → pointers.count pointer = others.count pointer

/-- A pointer other than null is there at most once, counted. -/
theorem freedOnce_iff (pointers : List Nat) :
    FreedOnce pointers ↔ ∀ pointer, pointer ≠ 0 → pointers.count pointer ≤ 1 := by
  -- Null is filtered out, and every other pointer keeps its count.
  unfold FreedOnce
  rw [List.nodup_iff_count_le_one]
  constructor
  · intro once pointer solid
    have bound := once pointer
    rwa [List.count_filter (by simpa using solid)] at bound
  · intro once pointer
    by_cases solid : pointer = 0
    · have absent : pointer ∉ pointers.filter fun pointer => pointer ≠ 0 := by simp [solid]
      rw [List.count_eq_zero_of_not_mem absent]
      exact Nat.zero_le 1
    · rw [List.count_filter (by simpa using solid)]
      exact once pointer solid

/-- Null counts for nothing. -/
theorem count_null {pointer : Nat} (solid : pointer ≠ 0) : List.count pointer [0] = 0 :=
  List.count_eq_zero_of_not_mem (by simpa using solid)

/-- The pointers of a list are counted one by one. -/
theorem count_cons_cons (pointer first second : Nat) (rest : List Nat) :
    List.count pointer (first :: second :: rest) =
      List.count pointer [first] + List.count pointer (second :: rest) := by
  rw [← List.count_append]
  rfl

/-- The memory of the trees of two lists. -/
theorem blocksAll_append (front back : List Node) :
    blocksAll (front ++ back) = blocksAll front ++ blocksAll back := by
  -- Induction on the front.
  induction front with
  | nil => rfl
  | cons child rest ih => rw [List.cons_append, blocksAll, blocksAll, ih, List.append_assoc]

/-- The texts of the trees of two lists. -/
theorem textsAll_append (front back : List Node) :
    textsAll (front ++ back) = textsAll front ++ textsAll back := by
  -- Induction on the front.
  induction front with
  | nil => rfl
  | cons child rest ih => rw [List.cons_append, textsAll, textsAll, ih, List.append_assoc]

/-- Giving back texts. -/
theorem freeTexts_log (args : List HeapString) (heap : HeapCalls) :
    args.foldl (fun heap arg => heap.kfree arg.address) heap =
      ⟨heap.requests, heap.freed ++ args.map fun arg => arg.address⟩ := by
  -- Induction on the arguments: each is one release.
  induction args generalizing heap with
  | nil => simp
  | cons arg rest ih =>
    rw [List.foldl_cons, ih]
    simp [HeapCalls.kfree]

/-- Giving back the tokens. -/
theorem tokenizerFreeTokens_log (tokens : List Token) (heap : HeapCalls) :
    tokenizerFreeTokens tokens heap = ⟨heap.requests, heap.freed ++ tokenPointers tokens⟩ := by
  unfold tokenizerFreeTokens tokenPointers
  -- Induction on the tokens: each is released after its text.
  induction tokens generalizing heap with
  | nil => simp
  | cons token rest ih =>
    rw [List.foldl_cons, ih]
    simp [HeapCalls.kfree]

/-- What giving back a node itself adds to the log, after its children. -/
def ownPointers (address : Nat) (type : NodeType) (array value : Nat) (cmd : CommandData) : List Nat :=
  [array] ++ (if value = 0 then [] else [value]) ++
    (if type = .command ∧ cmd.argsAddress ≠ 0 then
      cmd.args.map (fun arg => arg.address) ++ [cmd.argsAddress] else []) ++ [address]

/-- Giving back a node. -/
theorem astFree_own (address : Nat) (type : NodeType) (array : Nat) (children : List Node)
    (value : Nat) (cmd : CommandData) (heap : HeapCalls) :
    astFree (.mk address type array children value cmd) heap =
      ⟨(astFreeAll children heap).requests,
        (astFreeAll children heap).freed ++ ownPointers address type array value cmd⟩ := by
  -- The children are given back first, whatever the node itself holds.
  rw [astFree, ownPointers, freeTexts_log]
  by_cases args : type = .command ∧ cmd.argsAddress ≠ 0
  · by_cases text : value = 0
    · simp [if_pos args, text, HeapCalls.kfree]
    · simp [if_pos args, text, HeapCalls.kfree]
  · by_cases text : value = 0
    · simp [if_neg args, text, HeapCalls.kfree]
    · simp [if_neg args, text, HeapCalls.kfree]

/-- The pointers of a node itself: its own memory and the texts of its arguments. -/
theorem ownPointers_same (address : Nat) (type : NodeType) (array value : Nat) (cmd : CommandData) :
    SamePointers (ownPointers address type array value cmd)
      ([address, value, if type = .command then cmd.argsAddress else 0, array] ++
        if type = .command ∧ cmd.argsAddress ≠ 0 then
          cmd.args.map (fun arg => arg.address) else []) := by
  -- The order in which the code gives back its pointers does not matter for counting them.
  intro pointer solid
  have null := count_null solid
  have text : List.count pointer (if value = 0 then [] else [value]) = List.count pointer [value] := by
    by_cases missing : value = 0
    · rw [if_pos missing, missing, null]
      rfl
    · rw [if_neg missing]
  simp only [ownPointers, List.count_append, text, count_cons_cons]
  by_cases args : type = .command ∧ cmd.argsAddress ≠ 0
  · rw [if_pos args, if_pos args, if_pos args.1, List.count_append]
    omega
  · -- Without an array of arguments its place is null.
    have none : (if type = .command then cmd.argsAddress else 0) = 0 := by
      by_cases command : type = .command
      · rw [if_pos command]
        by_contra array
        exact args ⟨command, array⟩
      · rw [if_neg command]
    rw [if_neg args, if_neg args, none, List.count_nil]
    omega

mutual

/-- Giving back a tree: its own memory and the texts of its arguments. -/
theorem astFree_log : ∀ (node : Node) (heap : HeapCalls),
    ∃ released, astFree node heap = ⟨heap.requests, heap.freed ++ released⟩ ∧
      SamePointers released (node.blocks ++ node.texts)
  -- Children first, then the node's own blocks: the order the source frees them in.
  | .mk address type array children value cmd, heap => by
    obtain ⟨released, log, same⟩ := astFreeAll_log children heap
    have own := ownPointers_same address type array value cmd
    refine ⟨released ++ ownPointers address type array value cmd, ?_, ?_⟩
    · rw [astFree_own, log, List.append_assoc]
    · -- As multisets the released pointers are those the subtree holds.
      intro pointer solid
      have below := same pointer solid
      have here := own pointer solid
      simp only [Node.blocks, Node.texts, List.count_append] at below here ⊢
      omega

/-- Giving back several trees. -/
theorem astFreeAll_log : ∀ (children : List Node) (heap : HeapCalls),
    ∃ released, astFreeAll children heap = ⟨heap.requests, heap.freed ++ released⟩ ∧
      SamePointers released (blocksAll children ++ textsAll children)
  -- No children, nothing released.
  | [], heap => ⟨[], by rw [astFreeAll, List.append_nil], fun pointer solid => rfl⟩
  | child :: rest, heap => by
    obtain ⟨first, log, same⟩ := astFree_log child heap
    obtain ⟨others, laterLog, laterSame⟩ :=
      astFreeAll_log rest ⟨heap.requests, heap.freed ++ first⟩
    refine ⟨first ++ others, ?_, ?_⟩
    · rw [astFreeAll, log, laterLog, List.append_assoc]
    · -- The first child's pointers and those of the rest add up.
      intro pointer solid
      have front := same pointer solid
      have back := laterSame pointer solid
      simp only [blocksAll, textsAll, List.count_append] at front back ⊢
      omega

end

/-- How many of the first requests were answered with a pointer. -/
def answered (supply : Nat → Nat) (requests pointer : Nat) : Nat :=
  ((List.range requests).map supply).count pointer

/-- One more request. -/
theorem answered_succ (supply : Nat → Nat) (requests pointer : Nat) :
    answered supply (requests + 1) pointer =
      answered supply requests pointer + List.count pointer [supply requests] := by
  -- The last answer is counted on its own.
  unfold answered
  rw [List.range_succ, List.map_append, List.count_append]
  rfl

/-- Between two moments of a run the pointers held and given back are covered by those held at
first and the answers in between. -/
def Covered (supply : Nat → Nat) (heap : HeapCalls) (held : List Nat) (after : HeapCalls)
    (kept : List Nat) : Prop :=
  ∀ pointer, pointer ≠ 0 →
    kept.count pointer + after.freed.count pointer + answered supply heap.requests pointer ≤
      held.count pointer + heap.freed.count pointer + answered supply after.requests pointer

/-- A tree gives back the texts it accounts for, all from the pool. -/
def Draws (pool : List HeapString) (node : Option Node) : Prop :=
  ∀ tree ∈ node, tree.texts = tree.accounted.map (fun text => text.address) ∧
    ∀ text ∈ tree.accounted, text ∈ pool

section

variable {supply : Nat → Nat} {heap middle after : HeapCalls} {held kept last : List Nat}
  {pool : List HeapString}

/-- Nothing happened. -/
theorem Covered.refl : Covered supply heap held heap held :=
  fun _ _ => Nat.le_refl _

/-- One stretch of a run after another. -/
theorem Covered.trans (first : Covered supply heap held middle kept)
    (second : Covered supply middle kept after last) : Covered supply heap held after last := by
  intro pointer solid
  -- The bounds of both steps add up.
  have before := first pointer solid
  have later := second pointer solid
  omega

/-- Other pointers are held all along. -/
theorem Covered.frame (covered : Covered supply heap [] after kept) (others : List Nat) :
    Covered supply heap others after (others ++ kept) := by
  -- What is held all along stands on both sides.
  intro pointer solid
  have bound := covered pointer solid
  simp only [List.count_append, List.count_nil] at bound ⊢
  omega

/-- Some of the pointers are lost. -/
theorem Covered.lose (covered : Covered supply heap held after (kept ++ last)) :
    Covered supply heap held after kept := by
  intro pointer solid
  -- Fewer pointers are covered as well.
  have bound := covered pointer solid
  rw [List.count_append] at bound
  omega

/-- No tree draws on nothing. -/
theorem draws_none : Draws pool none := fun _ among => by cases among

/-- A new node. -/
theorem astCreateNode_covered (supply : Nat → Nat) (type : NodeType) (heap : HeapCalls) :
    Covered supply heap [] (astCreateNode supply type heap).2
        (heldBlocks (astCreateNode supply type heap).1) ∧
      Draws pool (astCreateNode supply type heap).1 := by
  -- The answer to the only request becomes the node, or there was none.
  by_cases memory : supply heap.requests = 0
  · rw [astCreateNode_denied type memory]
    refine ⟨fun pointer solid => ?_, draws_none⟩
    have step := answered_succ supply heap.requests pointer
    simp only [heldBlocks]
    omega
  · rw [astCreateNode_granted type memory]
    constructor
    · intro pointer solid
      have step := answered_succ supply heap.requests pointer
      simp only [heldBlocks, Node.blocks, blocksAll, List.append_nil, ite_self, count_cons_cons,
        count_null solid]
      omega
    · intro tree among
      cases among
      simp [Node.texts, Node.accounted, textsAll, accountedAll]

/-- One more child, or a child that is lost. -/
theorem astAddChild_covered (supply : Nat → Nat) (parent child : Option Node) (heap : HeapCalls)
    (parentDraws : Draws pool parent) (childDraws : Draws pool child) :
    Covered supply heap (heldBlocks parent ++ heldBlocks child)
        (astAddChild supply parent child heap).2
        (heldBlocks (astAddChild supply parent child heap).1) ∧
      Draws pool (astAddChild supply parent child heap).1 := by
  -- Without memory for the larger array the child is lost, and the parent stays as it was.
  fun_cases astAddChild supply parent child heap with
  | case1 address type array children value cmd child heap after request =>
    obtain ⟨-, rfl⟩ := Prod.mk.inj request
    refine ⟨fun pointer solid => ?_, parentDraws⟩
    have step := answered_succ supply heap.requests pointer
    simp only [List.count_append]
    omega
  | case2 address type array children value cmd child heap newChildren after request memory =>
    obtain ⟨rfl, rfl⟩ := Prod.mk.inj request
    constructor
    · -- The new array takes the place of the old one.
      intro pointer solid
      have step := answered_succ supply heap.requests pointer
      simp only [heldBlocks, Node.blocks, blocksAll_append, blocksAll, List.append_nil,
        List.count_append, HeapCalls.kfree, count_cons_cons]
      omega
    · intro tree among
      cases among
      -- The texts of the new child follow those of the parent.
      obtain ⟨texts, drawn⟩ := parentDraws _ rfl
      obtain ⟨childTexts, childDrawn⟩ := childDraws _ rfl
      simp only [Node.texts, Node.accounted] at texts drawn
      simp only [Node.texts, Node.accounted, textsAll_append, accountedAll_append, textsAll,
        accountedAll, List.append_nil]
      refine ⟨?_, fun text among => ?_⟩
      · rw [← List.append_assoc, texts, childTexts, ← List.map_append, List.append_assoc]
      · rw [← List.append_assoc] at among
        rcases List.mem_append.mp among with old | new
        · exact drawn text old
        · exact childDrawn text new
  | case3 => exact ⟨(Covered.refl).lose, parentDraws⟩

/-- Two joined trees, or what there was memory for. -/
theorem joinNodes_covered (supply : Nat → Nat) (type : NodeType) (seq next : Option Node)
    (heap : HeapCalls) (seqDraws : Draws pool seq) (nextDraws : Draws pool next) :
    Covered supply heap (heldBlocks seq ++ heldBlocks next) (joinNodes supply type seq next heap).2
        (heldBlocks (joinNodes supply type seq next heap).1) ∧
      Draws pool (joinNodes supply type seq next heap).1 := by
  -- A new node gets the two trees as children; each call may lose what it was given.
  obtain ⟨made, madeDraws⟩ := @astCreateNode_covered pool supply type heap
  obtain ⟨first, firstDraws⟩ := astAddChild_covered supply (astCreateNode supply type heap).1 seq
    (astCreateNode supply type heap).2 madeDraws seqDraws
  obtain ⟨second, secondDraws⟩ := astAddChild_covered supply _ next
    (astAddChild supply (astCreateNode supply type heap).1 seq (astCreateNode supply type heap).2).2
    firstDraws nextDraws
  refine ⟨fun pointer solid => ?_, secondDraws⟩
  have one := made pointer solid
  have two := first pointer solid
  have three := second pointer solid
  unfold joinNodes
  simp only [List.count_append, List.count_nil] at one two three ⊢
  omega

/-- The argument loop keeps one array and takes texts of tokens. -/
theorem commandLoop_covered (supply : Nat → Nat) (tokens : List Token) (argCap : Nat)
    (cmd : CommandData) (heap : HeapCalls) (array : cmd.argsAddress ≠ 0)
    (drawn : ∀ text ∈ cmd.args, text ∈ pool) (among : ∀ token ∈ tokens, token.value ∈ pool)
    (noInput : cmd.inputRedirect = none) (noOutput : cmd.outputRedirect = none) :
    let taken := commandLoop supply tokens argCap cmd heap
    Covered supply heap [cmd.argsAddress] taken.heap [taken.cmd.argsAddress] ∧
      taken.cmd.argsAddress ≠ 0 ∧ (∀ text ∈ taken.cmd.args, text ∈ pool) ∧
      taken.cmd.inputRedirect = none ∧ taken.cmd.outputRedirect = none := by
  -- Each turn takes one argument, and the array may have to grow for it.
  induction tokens generalizing argCap cmd heap with
  | nil => exact ⟨Covered.refl, array, drawn, noInput, noOutput⟩
  | cons curr rest ih =>
    have later : ∀ token ∈ rest, token.value ∈ pool :=
      fun token member => among token (List.mem_cons_of_mem _ member)
    by_cases argument : curr.type.isArgument = true
    · have longer : ∀ text ∈ cmd.args ++ [curr.value], text ∈ pool := by
        intro text member
        rcases List.mem_append.mp member with old | new
        · exact drawn text old
        · rw [List.mem_singleton.mp new]
          exact among curr List.mem_cons_self
      by_cases full : argCap ≤ cmd.args.length
      · by_cases memory : supply heap.requests = 0
        · -- The loop stops when there is no memory for a larger array.
          rw [commandLoop_stuck argument full memory]
          refine ⟨fun pointer solid => ?_, array, drawn, noInput, noOutput⟩
          have step := answered_succ supply heap.requests pointer
          simp only
          omega
        -- The old array is given back as the new one takes its place.
        · rw [commandLoop_grow argument full memory]
          obtain ⟨covered, others⟩ := ih (argCap * 2)
            { cmd with args := cmd.args ++ [curr.value], argsAddress := supply heap.requests }
            ⟨heap.requests + 1, heap.freed ++ [cmd.argsAddress]⟩ memory longer later noInput noOutput
          refine ⟨fun pointer solid => ?_, others⟩
          have step := answered_succ supply heap.requests pointer
          have bound := covered pointer solid
          simp only [List.count_append] at bound ⊢
          omega
      · rw [commandLoop_store argument full]
        exact ih argCap { cmd with args := cmd.args ++ [curr.value] } heap array longer later
          noInput noOutput
    · rw [commandLoop_other (by simpa using argument)]
      exact ⟨Covered.refl, array, drawn, noInput, noOutput⟩

/-- Tokens that are not at their end start with a token. -/
theorem starts_of_not_atEnd {tokens : List Token} (more : ¬ AtEnd tokens) :
    ∃ curr rest, tokens = curr :: rest ∧ curr.type ≠ .eof := by
  -- The end marker and an empty list are the two ends.
  cases tokens with
  | nil => exact absurd (fun token found => by cases found) more
  | cons curr rest =>
    refine ⟨curr, rest, rfl, fun type => more fun token found => ?_⟩
    obtain rfl : curr = token := Option.some.inj found
    exact type

/-- A parsing function holds the memory of the tree it returns, with texts of tokens. -/
structure Keeps (supply : Nat → Nat) (pool : List HeapString) (heap : HeapCalls) (held : List Nat)
    (parsed : Parsed) : Prop where
  covered : Covered supply heap held parsed.heap (heldBlocks parsed.node)
  draws : Draws pool parsed.node

/-- A node without children, arguments or text gives back itself. -/
theorem astFree_fresh (address : Nat) (type : NodeType) (heap : HeapCalls) :
    Covered supply heap [address] (astFree (.mk address type 0 [] 0 {}) heap) [] := by
  -- A fresh node has no array, no text and no arguments to give back.
  intro pointer solid
  obtain ⟨released, log, same⟩ := astFree_log (.mk address type 0 [] 0 {}) heap
  have exactly := same pointer solid
  simp only [Node.blocks, Node.texts, blocksAll, textsAll, ite_self, ne_eq, not_true,
    and_false, if_false, List.append_nil, count_cons_cons, count_null solid] at exactly
  rw [log]
  simp only [List.count_append, List.count_nil]
  omega

/-- After a parsing function that found nothing a fresh node is given back. -/
theorem Covered.discard {parsed : Parsed} {node : Node} {address : Nat} {type : NodeType}
    (covered : Covered supply heap [] parsed.heap (heldBlocks parsed.node))
    (fresh : node = .mk address type 0 [] 0 {}) (missing : parsed.node = none) :
    Covered supply heap node.blocks (astFree node parsed.heap) [] := by
  -- The parsing function kept nothing, so only the fresh node is given back.
  intro pointer solid
  have bound := covered pointer solid
  have freed := @astFree_fresh supply address type parsed.heap pointer solid
  have own : List.count pointer [address] ≤ List.count pointer node.blocks := by
    rw [fresh]
    exact List.Sublist.count_le pointer ((List.nil_sublist _).cons_cons address)
  rw [missing] at bound
  rw [fresh] at own ⊢
  simp only [heldBlocks, List.count_nil] at bound freed ⊢
  omega

/-- The tree a parsing function found becomes a child, or is lost. -/
theorem Keeps.addChild {parsed : Parsed} {parent : Option Node} {child : Node}
    (keeps : Keeps supply pool heap [] parsed) (found : parsed.node = some child)
    (draws : Draws pool parent) :
    Covered supply heap (heldBlocks parent) (astAddChild supply parent (some child) parsed.heap).2
        (heldBlocks (astAddChild supply parent (some child) parsed.heap).1) ∧
      Draws pool (astAddChild supply parent (some child) parsed.heap).1 := by
  -- The parent is held while the child is parsed.
  have childDraws : Draws pool (some child) := by
    rw [← found]
    exact keeps.draws
  obtain ⟨grown, grownDraws⟩ := astAddChild_covered supply parent (some child) parsed.heap draws
    childDraws
  have framed := keeps.covered.frame (heldBlocks parent)
  rw [found] at framed
  exact ⟨framed.trans grown, grownDraws⟩

/-- A simple command. -/
theorem parseCommand_keeps (supply : Nat → Nat) (tokens : List Token) (heap : HeapCalls)
    (among : ∀ token ∈ tokens, token.value ∈ pool) :
    Keeps supply pool heap [] (parseCommand supply tokens heap) := by
  -- The cases follow the requests of the code: no token, no node, no array, or a command.
  by_cases ends : AtEnd tokens
  · rw [parseCommand_atEnd heap ends]
    exact ⟨Covered.refl, draws_none⟩
  obtain ⟨curr, rest, rfl, plain⟩ := starts_of_not_atEnd ends
  by_cases create : supply heap.requests = 0
  · have missing : parseCommand supply (curr :: rest) heap =
        ⟨none, curr :: rest, ⟨heap.requests + 1, heap.freed⟩⟩ := by
      unfold parseCommand
      simp only [if_neg plain, astCreateNode_denied .command create]
    rw [missing]
    refine ⟨fun pointer solid => ?_, draws_none⟩
    have step := answered_succ supply heap.requests pointer
    simp only [heldBlocks]
    omega
  by_cases array : supply (heap.requests + 1) = 0
  · -- Without an array for the arguments the node is given back.
    have missing : parseCommand supply (curr :: rest) heap = ⟨none, curr :: rest,
        astFree (.mk (supply heap.requests) .command 0 [] 0 {}) ⟨heap.requests + 2, heap.freed⟩⟩ := by
      unfold parseCommand
      simp only [if_neg plain, astCreateNode_granted .command create]
      exact if_pos array
    rw [missing]
    refine ⟨fun pointer solid => ?_, draws_none⟩
    have first := answered_succ supply heap.requests pointer
    have second : answered supply (heap.requests + 2) pointer = _ :=
      answered_succ supply (heap.requests + 1) pointer
    have freed := @astFree_fresh supply (supply heap.requests) .command
      ⟨heap.requests + 2, heap.freed⟩ pointer solid
    simp only [heldBlocks, List.count_nil] at freed ⊢
    omega
  · -- With both answers the argument loop goes on from the node.
    rw [parseCommand_granted plain create array]
    obtain ⟨covered, args, drawn, noInput, noOutput⟩ := commandLoop_covered supply (curr :: rest) 8
      { argsAddress := supply (heap.requests + 1) } ⟨heap.requests + 2, heap.freed⟩ array
      (fun text member => by cases member) among rfl rfl
    constructor
    · intro pointer solid
      have first := answered_succ supply heap.requests pointer
      have second : answered supply (heap.requests + 2) pointer = _ :=
        answered_succ supply (heap.requests + 1) pointer
      have bound := covered pointer solid
      simp only [heldBlocks, Node.blocks, blocksAll, List.append_nil, if_true, List.count_nil,
        count_cons_cons, count_null solid]
      simp only at bound
      omega
    · -- The texts of the command are those that its arguments took from the tokens.
      intro tree member
      cases member
      simp only [Node.texts, Node.accounted, textsAll, accountedAll, noInput, noOutput,
        Option.toList_none, List.append_nil, ne_eq, args, not_false_eq_true, and_self, if_true]
      exact ⟨trivial, drawn⟩

/-- The loop of a pipeline. -/
theorem pipelineLoop_keeps (supply : Nat → Nat) (pipeline : Option Node) (tokens : List Token)
    (heap : HeapCalls) (among : ∀ token ∈ tokens, token.value ∈ pool)
    (draws : Draws pool pipeline) :
    Keeps supply pool heap (heldBlocks pipeline) (pipelineLoop supply pipeline tokens heap) := by
  -- Each turn parses one more command and adds it to the pipeline.
  fun_induction pipelineLoop supply pipeline tokens heap with
  | case1 | case4 => exact ⟨Covered.refl, draws⟩
  | case2 pipeline heap bar rest _ parsed missing =>
    have command := parseCommand_keeps supply rest heap
      fun token member => among token (List.mem_cons_of_mem _ member)
    refine ⟨?_, draws⟩
    have framed := command.covered.frame (heldBlocks pipeline)
    exact framed.lose
  | case3 pipeline heap bar rest _ parsed cmd found added ih =>
    have command := parseCommand_keeps supply rest heap
      fun token member => among token (List.mem_cons_of_mem _ member)
    have left : ∀ token ∈ parsed.tokens, token.value ∈ pool := fun token member =>
      among token (List.mem_cons_of_mem _ ((parseCommand_suffix supply rest heap).subset member))
    obtain ⟨grown, grownDraws⟩ := command.addChild found draws
    have rest := ih left grownDraws
    exact ⟨grown.trans rest.covered, rest.draws⟩

/-- A pipeline. -/
theorem parsePipeline_keeps (supply : Nat → Nat) (tokens : List Token) (heap : HeapCalls)
    (among : ∀ token ∈ tokens, token.value ∈ pool) :
    Keeps supply pool heap [] (parsePipeline supply tokens heap) := by
  -- The pipeline is made before its first command is parsed.
  obtain ⟨created, createdDraws⟩ := @astCreateNode_covered pool supply .pipeline heap
  fun_cases parsePipeline supply tokens heap with
  | case1 made missing =>
    rw [show (astCreateNode supply .pipeline heap).1 = none from missing] at created
    exact ⟨created, draws_none⟩
  -- Without a command the pipeline is given back.
  | case2 made pipeline found parsed missing =>
    have command := parseCommand_keeps supply tokens made.2 among
    rw [show (astCreateNode supply .pipeline heap).1 = some pipeline from found] at created
    exact ⟨created.trans (command.covered.discard (astCreateNode_eq found) missing), draws_none⟩
  | case3 made pipeline found parsed cmd some added =>
    have command := parseCommand_keeps supply tokens made.2 among
    have left : ∀ token ∈ parsed.tokens, token.value ∈ pool := fun token member =>
      among token ((parseCommand_suffix supply tokens made.2).subset member)
    rw [show (astCreateNode supply .pipeline heap).1 = _ from found] at created createdDraws
    obtain ⟨grown, grownDraws⟩ := command.addChild some createdDraws
    have rest := pipelineLoop_keeps supply added.1 parsed.tokens added.2 left grownDraws
    exact ⟨(created.trans grown).trans rest.covered, rest.draws⟩

/-- An expression. -/
theorem parseExpression_keeps (supply : Nat → Nat) (tokens : List Token) (heap : HeapCalls)
    (among : ∀ token ∈ tokens, token.value ∈ pool) :
    Keeps supply pool heap [] (parseExpression supply tokens heap) := by
  -- A parenthesis makes a node around what is parsed inside it.
  fun_induction parseExpression supply tokens heap with
  | case1 => exact ⟨Covered.refl, draws_none⟩
  | case2 curr rest heap _ made inner added ih =>
    obtain ⟨created, createdDraws⟩ := @astCreateNode_covered pool supply .subshell heap
    have expression : Keeps supply pool made.2 [] inner :=
      ih fun token member => among token (List.mem_cons_of_mem _ member)
    cases found : inner.node with
    | none =>
      have same : added = (made.1, inner.heap) := by simp only [added, found]; rfl
      have framed := expression.covered.frame (heldBlocks made.1)
      rw [same]
      exact ⟨created.trans framed.lose, createdDraws⟩
    | some expr =>
      have same : added = astAddChild supply made.1 (some expr) inner.heap := by
        simp only [added, found]
        rfl
      obtain ⟨grown, grownDraws⟩ := expression.addChild found createdDraws
      rw [same]
      exact ⟨created.trans grown, grownDraws⟩
  | case3 => exact parsePipeline_keeps supply _ _ among

/-- The loop over a list. -/
theorem sequenceLoop_keeps (supply : Nat → Nat) (seq : Option Node) (tokens : List Token)
    (heap : HeapCalls) (among : ∀ token ∈ tokens, token.value ∈ pool) (draws : Draws pool seq) :
    Keeps supply pool heap (heldBlocks seq) (sequenceLoop supply seq tokens heap) := by
  -- Each turn parses an expression and joins it in one of three ways.
  fun_induction sequenceLoop supply seq tokens heap with
  | case1 | case4 => exact ⟨Covered.refl, draws⟩
  | case2 seq heap op rest _ parsed missing =>
    have expression := parseExpression_keeps supply rest heap
      fun token member => among token (List.mem_cons_of_mem _ member)
    have framed := expression.covered.frame (heldBlocks seq)
    exact ⟨framed.lose, draws⟩
  | case3 seq heap op rest _ parsed next found joined ih =>
    have expression : Keeps supply pool heap [] parsed := parseExpression_keeps supply rest heap
      fun token member => among token (List.mem_cons_of_mem _ member)
    have left : ∀ token ∈ parsed.tokens, token.value ∈ pool := fun token member =>
      among token (List.mem_cons_of_mem _
        ((parseExpression_suffix supply rest heap).subset member))
    have nextDraws : Draws pool (some next) := by
      rw [← found]
      exact expression.draws
    have framed := expression.covered.frame (heldBlocks seq)
    rw [found] at framed
    -- All three ways hold the same pointers.
    have grown : Covered supply parsed.heap (heldBlocks seq ++ heldBlocks (some next)) joined.2
        (heldBlocks joined.1) ∧ Draws pool joined.1 := by
      simp only [joined]
      split_ifs
      · exact joinNodes_covered supply .and seq _ parsed.heap draws nextDraws
      · exact joinNodes_covered supply .or seq _ parsed.heap draws nextDraws
      · exact astAddChild_covered supply seq _ parsed.heap draws nextDraws
    have rest := ih left grown.2
    exact ⟨(framed.trans grown.1).trans rest.covered, rest.draws⟩

/-- Sending a list to the background keeps its memory and its texts. -/
theorem takeBackground_keeps {whole : Parsed} (keeps : Keeps supply pool heap held whole) :
    Keeps supply pool heap held (takeBackground whole) := by
  fun_cases takeBackground whole with
  | case1 | case3 => exact keeps
  | case2 =>
    obtain ⟨covered, draws⟩ := keeps
    cases found : whole.node with
    | none =>
      rw [found] at covered
      exact ⟨covered, draws_none⟩
    | some node =>
      -- The mark changes neither the pointers nor the strings of the node.
      obtain ⟨address, type, array, children, value, cmd⟩ := node
      rw [found] at covered draws
      obtain ⟨texts, drawn⟩ := draws _ rfl
      refine ⟨covered, fun tree among => ?_⟩
      cases among
      exact ⟨texts, drawn⟩

/-- A list of expressions. -/
theorem parseTokens_keeps (supply : Nat → Nat) (tokens : List Token) (heap : HeapCalls)
    (among : ∀ token ∈ tokens, token.value ∈ pool) :
    Keeps supply pool heap [] (parseTokens supply tokens heap) := by
  -- As for a pipeline, with expressions in place of commands.
  obtain ⟨created, createdDraws⟩ := @astCreateNode_covered pool supply .sequence heap
  rw [parseTokens]
  fun_cases parseSequence supply tokens heap with
  | case1 made missing =>
    rw [show (astCreateNode supply .sequence heap).1 = none from missing] at created
    exact ⟨created, draws_none⟩
  | case2 made seq found parsed missing =>
    have expression := parseExpression_keeps supply tokens made.2 among
    rw [show (astCreateNode supply .sequence heap).1 = some seq from found] at created
    exact ⟨created.trans (expression.covered.discard (astCreateNode_eq found) missing), draws_none⟩
  | case3 made seq found parsed expr some added =>
    have expression := parseExpression_keeps supply tokens made.2 among
    have left : ∀ token ∈ parsed.tokens, token.value ∈ pool := fun token member =>
      among token ((parseExpression_suffix supply tokens made.2).subset member)
    rw [show (astCreateNode supply .sequence heap).1 = _ from found] at created createdDraws
    obtain ⟨grown, grownDraws⟩ := expression.addChild some createdDraws
    have rest := sequenceLoop_keeps supply added.1 parsed.tokens added.2 left grownDraws
    exact takeBackground_keeps ⟨(created.trans grown).trans rest.covered, rest.draws⟩

/-- A token, or nothing left of it. -/
theorem tokenizerCreateToken_covered (supply : Nat → Nat) (type : TokenType) (value : List UInt8)
    (heap : HeapCalls) :
    Covered supply heap [] (tokenizerCreateToken supply type value heap).2
        (tokenPointers (tokenizerCreateToken supply type value heap).1.toList) ∧
      ∀ token ∈ (tokenizerCreateToken supply type value heap).1, token.value.address ≠ 0 := by
  -- Both requests may fail; after the second failure the first answer is given back.
  have first := fun pointer => answered_succ supply heap.requests pointer
  have second : ∀ pointer, answered supply (heap.requests + 2) pointer = _ :=
    fun pointer => answered_succ supply (heap.requests + 1) pointer
  unfold tokenizerCreateToken HeapCalls.kmalloc HeapCalls.kfree
  simp only [Nat.add_assoc, Nat.reduceAdd]
  -- The request for the token fails, that for its text, or neither.
  by_cases struct : supply heap.requests = 0
  · simp only [if_pos struct]
    refine ⟨fun pointer solid => ?_, fun token among => by cases among⟩
    have one := first pointer
    simp only [Option.toList_none, tokenPointers, List.flatMap_nil]
    omega
  by_cases text : supply (heap.requests + 1) = 0
  · simp only [if_neg struct, if_pos text]
    refine ⟨fun pointer solid => ?_, fun token among => by cases among⟩
    have one := first pointer
    have two := second pointer
    simp only [Option.toList_none, tokenPointers, List.flatMap_nil, List.count_append, List.count_nil]
    omega
  · simp only [if_neg struct, if_neg text]
    refine ⟨fun pointer solid => ?_, fun token among => by cases among; exact text⟩
    have one := first pointer
    have two := second pointer
    simp only [Option.toList_some, tokenPointers, List.flatMap_cons, List.flatMap_nil,
      List.append_nil, count_cons_cons, List.count_nil]
    omega

/-- The pointers of the tokens of two lists. -/
theorem tokenPointers_append (tokens others : List Token) :
    tokenPointers (tokens ++ others) = tokenPointers tokens ++ tokenPointers others :=
  List.flatMap_append

/-- The loop of the tokenizer. -/
theorem tokenizeLoop_covered {input : List UInt8} {tokens result : List Token}
    (ran : tokenizeLoop supply input tokens heap = .ok (result, after))
    (solid : ∀ token ∈ tokens, token.value.address ≠ 0) :
    Covered supply heap (tokenPointers tokens) after (tokenPointers result) ∧
      ∀ token ∈ result, token.value.address ≠ 0 := by
  -- The tokens made so far are held while the next one is made.
  fun_induction tokenizeLoop supply input tokens heap with
  | case1 =>
    cases ran
    exact ⟨Covered.refl, solid⟩
  | case2 _ _ _ _ _ ih => exact ih ran solid
  | case3 => cases ran
  | case4 tokens heap c rest _ lexeme lexed made ih =>
    obtain ⟨created, text⟩ := tokenizerCreateToken_covered supply lexeme.type lexeme.value heap
    have more : ∀ token ∈ tokens ++ made.1.toList, token.value.address ≠ 0 := by
      intro token among
      rcases List.mem_append.mp among with old | new
      · exact solid token old
      · exact text token (Option.mem_toList.mp new)
    obtain ⟨covered, all⟩ := ih ran more
    have framed := created.frame (tokenPointers tokens)
    rw [← tokenPointers_append] at framed
    exact ⟨framed.trans covered, all⟩

/-- The tokens of a text. -/
theorem tokenize_covered {input : List UInt8} {tokens : List Token}
    (ran : tokenize supply input heap = .ok (tokens, after)) :
    Covered supply heap [] after (tokenPointers tokens) ∧
      ∀ token ∈ tokens, token.value.address ≠ 0 := by
  -- The end marker is made last, like any other token.
  obtain ⟨⟨found, middle⟩, looped, same⟩ := bind_eq_ok.mp ran
  cases same
  obtain ⟨covered, solid⟩ := tokenizeLoop_covered looped (fun token among => by cases among)
  obtain ⟨created, text⟩ := tokenizerCreateToken_covered supply .eof [] middle
  have framed := created.frame (tokenPointers found)
  rw [← tokenPointers_append] at framed
  refine ⟨covered.trans framed, fun token among => ?_⟩
  rcases List.mem_append.mp among with old | new
  · exact solid token old
  · exact text token (Option.mem_toList.mp new)

end

/-- Memory that is given out twice was given back in between: at most one of the answers since a
moment is still out. -/
def OneOut (supply : Nat → Nat) (heap after : HeapCalls) : Prop :=
  ∀ pointer, pointer ≠ 0 →
    answered supply after.requests pointer + heap.freed.count pointer ≤
      answered supply heap.requests pointer + after.freed.count pointer + 1

/-- A tree that may be missing holds no argument. -/
def NoArguments (node : Option Node) : Prop := ∀ tree ∈ node, tree.accounted = []

/-- What is given back after a command: the memory of the tree, its texts and the tokens. -/
theorem releaseCommand_log (node : Option Node) (tokens : List Token) (heap : HeapCalls) :
    ∃ released, releaseCommand node tokens heap = ⟨heap.requests, heap.freed ++ released⟩ ∧
      SamePointers released (heldBlocks node ++ (node.map Node.texts).getD [] ++ tokenPointers tokens) := by
  -- The tree is given back first and the tokens then.
  cases node with
  | none => exact ⟨tokenPointers tokens, tokenizerFreeTokens_log tokens heap, fun _ _ => rfl⟩
  | some tree =>
    obtain ⟨released, log, same⟩ := astFree_log tree heap
    refine ⟨released ++ tokenPointers tokens, ?_, fun pointer solid => ?_⟩
    · rw [releaseCommand, log, tokenizerFreeTokens_log, List.append_assoc]
    · have exactly := same pointer solid
      simp only [heldBlocks, Option.map_some, Option.getD_some, List.count_append] at exactly ⊢
      omega

/-- The texts of the arguments are the pointers given back twice, and the only ones. -/
theorem released_once_iff {supply : Nat → Nat} {heap after : HeapCalls} {node : Option Node}
    {tokens : List Token} {released : List Nat}
    (draws : Draws (tokens.map fun token => token.value) node)
    (covered : Covered supply heap [] after (tokenPointers tokens ++ heldBlocks node))
    (out : OneOut supply heap after) (solid : ∀ token ∈ tokens, token.value.address ≠ 0)
    (same : SamePointers released
      (heldBlocks node ++ (node.map Node.texts).getD [] ++ tokenPointers tokens)) :
    (∀ pointer, pointer ≠ 0 → released.count pointer ≤ 1) ↔ NoArguments node := by
  constructor
  · intro once tree among
    obtain ⟨texts, drawn⟩ := draws tree among
    cases found : tree.accounted with
    | nil => rfl
    | cons text rest =>
      -- The text is given back with the tree and again with its token.
      obtain ⟨token, member, rfl⟩ := List.mem_map.mp (drawn text (by rw [found]; exact List.mem_cons_self))
      have bound := once token.value.address (solid token member)
      have inTree : 0 < List.count token.value.address ((node.map Node.texts).getD []) := by
        rw [Option.mem_def.mp among, Option.map_some, Option.getD_some, texts, found]
        exact List.count_pos_iff.mpr List.mem_cons_self
      have inTokens : 0 < List.count token.value.address (tokenPointers tokens) :=
        List.count_pos_iff.mpr (List.mem_flatMap.mpr ⟨token, member, List.mem_cons_self⟩)
      rw [same _ (solid token member)] at bound
      simp only [List.count_append] at bound
      omega
  · intro none pointer pointerSolid
    -- Without arguments nothing belongs to both, and what is held was answered once.
    have texts : (node.map Node.texts).getD [] = [] := by
      cases node with
      | none => rfl
      | some tree =>
        obtain ⟨texts, -⟩ := draws tree rfl
        rw [Option.map_some, Option.getD_some, texts, none tree rfl]
        rfl
    have held := covered pointer pointerSolid
    have limit := out pointer pointerSolid
    rw [same pointer pointerSolid, texts]
    simp only [List.count_append, List.count_nil] at held ⊢
    omega

/-- While there is memory, a tree holds no argument exactly when none comes before the first token that
does not fit its place. -/
theorem noArguments_iff {supply : Nat → Nat} (memory : ∀ n, supply n ≠ 0) (tokens : List Token)
    (heap : HeapCalls) :
    NoArguments (parseTokens supply tokens heap).node ↔ takenTokens .expression 0 tokens = [] := by
  -- The tree holds exactly the tokens that fit.
  have parsed := parseTokens_memory memory tokens heap
  cases found : (parseTokens supply tokens heap).node with
  | none =>
    rw [found] at parsed
    rw [takenTokens_atEnd _ _ parsed]
    exact ⟨fun _ => rfl, fun _ tree among => by cases among⟩
  | some node =>
    rw [found] at parsed
    constructor
    · intro none
      have empty := none node rfl
      rw [parsed.2] at empty
      exact List.map_eq_nil_iff.mp empty
    · intro nothing tree among
      cases among
      rw [parsed.2, nothing]
      rfl

/-- An allocator that never gives out the same memory again. -/
theorem oneOut_of_injective {supply : Nat → Nat} (injective : Function.Injective supply)
    (after : HeapCalls) : OneOut supply ⟨0, []⟩ after := by
  -- Different requests have different answers, so none is counted twice.
  intro pointer solid
  have once : answered supply after.requests pointer ≤ 1 :=
    List.nodup_iff_count_le_one.mp (List.nodup_range.map injective) pointer
  simp only [List.count_nil]
  omega

end MiraOS

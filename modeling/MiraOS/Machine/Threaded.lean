import Mathlib.Data.List.Nodup
import Mathlib.Logic.Function.Basic

/-! Singly linked nodes with addresses other than zero: lists with a tail, and chains that end at zero. -/

namespace Machine

/-- The address of a node of a list, and zero behind its end. -/
def nodeAt (nodes : List Nat) (i : Nat) : Nat := nodes[i]?.getD 0

/-- The address after following a number of links. -/
def follow (next : Nat → Nat) : Nat → Nat → Nat
  | 0, node => node
  | steps + 1, node => follow next steps (next node)

/-- The nodes are linked in their order, from the head to the tail. -/
structure Threaded (next : Nat → Nat) (head tail : Nat) (nodes : List Nat) : Prop where
  distinct : nodes.Nodup
  real : 0 ∉ nodes
  head : head = nodeAt nodes 0
  tail : tail = nodeAt nodes (nodes.length - 1)
  next : ∀ i, i < nodes.length → next (nodeAt nodes i) = nodeAt nodes (i + 1)

/-- Following the links from a node passes these nodes and ends at zero. -/
def Visits (next : Nat → Nat) : Nat → List Nat → Prop
  | node, [] => node = 0
  | node, first :: rest => node = first ∧ first ≠ 0 ∧ Visits next (next first) rest

section

variable {next next' : Nat → Nat} {head tail : Nat} {nodes : List Nat} {i j : Nat}

theorem nodeAt_mem (inside : i < nodes.length) : nodeAt nodes i ∈ nodes := by
  rw [nodeAt, List.getElem?_eq_getElem inside]
  exact List.getElem_mem inside

theorem nodeAt_past (past : nodes.length ≤ i) : nodeAt nodes i = 0 := by
  rw [nodeAt, List.getElem?_eq_none past]
  rfl

/-- Different places of a list without duplicates have different addresses. -/
theorem nodeAt_inj (distinct : nodes.Nodup) (one : i < nodes.length) (two : j < nodes.length) :
    nodeAt nodes i = nodeAt nodes j ↔ i = j := by
  rw [nodeAt, nodeAt, List.getElem?_eq_getElem one, List.getElem?_eq_getElem two]
  exact distinct.getElem_inj_iff

/-- The addresses with one more node at the end. -/
theorem nodeAt_append (nodes : List Nat) (last i : Nat) :
    nodeAt (nodes ++ [last]) i = if i = nodes.length then last else nodeAt nodes i := by
  rw [nodeAt]
  -- The place behind the old nodes is the new one.
  by_cases here : i = nodes.length
  · rw [if_pos here, here, List.getElem?_concat_length]
    rfl
  · rw [if_neg here, nodeAt]
    by_cases inside : i < nodes.length
    · rw [List.getElem?_append_left inside]
    · rw [List.getElem?_eq_none (by rw [List.length_append, List.length_singleton]; omega),
        List.getElem?_eq_none (by omega)]

/-- The addresses without one of the nodes. -/
theorem nodeAt_eraseIdx (nodes : List Nat) (i j : Nat) :
    nodeAt (nodes.eraseIdx i) j = if j < i then nodeAt nodes j else nodeAt nodes (j + 1) := by
  rw [nodeAt, List.getElem?_eraseIdx]
  -- Places in front of the erased one stay, and the others move up by one.
  split_ifs <;> rfl

/-- Following the links from the head leads along the nodes. -/
theorem Threaded.follow (threaded : Threaded next head tail nodes) (inside : i ≤ nodes.length) :
    Machine.follow next i head = nodeAt nodes i := by
  -- From any node on, as many links lead as many places further.
  have along : ∀ steps start, start + steps ≤ nodes.length →
      Machine.follow next steps (nodeAt nodes start) = nodeAt nodes (start + steps) := by
    intro steps
    induction steps with
    | zero =>
      intro start _
      rfl
    | succ steps ih =>
      intro start more
      rw [Machine.follow, threaded.next start (by omega), ih (start + 1) (by omega)]
      congr 1
      omega
  rw [threaded.head, along i 0 (by omega), Nat.zero_add]

/-- A list has no tail exactly when it is empty. -/
theorem Threaded.tail_eq_zero (threaded : Threaded next head tail nodes) : tail = 0 ↔ nodes = [] := by
  constructor
  · intro none
    -- The tail of a list that is not empty is one of its nodes, which are not zero.
    by_contra some
    have length : 0 < nodes.length := List.length_pos_iff.mpr some
    have last : nodeAt nodes (nodes.length - 1) ∈ nodes := nodeAt_mem (by omega)
    rw [← threaded.tail, none] at last
    exact threaded.real last
  · intro empty
    rw [threaded.tail, empty]
    rfl

/-- Linking a new node behind the tail. -/
theorem Threaded.push (threaded : Threaded next head tail nodes) {node : Nat} (fresh : node ∉ nodes)
    (some : node ≠ 0) (ends : next' node = 0) (linked : nodes ≠ [] → next' tail = node)
    (same : ∀ other ∈ nodes, other ≠ tail → next' other = next other) :
    Threaded next' (if tail = 0 then node else head) node (nodes ++ [node]) := by
  have tail := threaded.tail
  -- The nodes stay distinct and real; the head, the tail and the links are looked at in turn.
  refine ⟨?_, ?_, ?_, ?_, ?_⟩
  · exact List.nodup_append.mpr ⟨threaded.distinct, List.nodup_singleton node, by
      intro one member two only equal
      rw [equal, List.mem_singleton.mp only] at member
      exact fresh member⟩
  · simp [threaded.real, Ne.symm some]
  · rw [nodeAt_append]
    by_cases empty : nodes = []
    · rw [if_pos (threaded.tail_eq_zero.mpr empty), empty]
      rfl
    · have length := List.length_pos_iff.mpr empty
      rw [if_neg (fun none => empty (threaded.tail_eq_zero.mp none)), if_neg (by omega), threaded.head]
  · rw [List.length_append, List.length_singleton, Nat.add_sub_cancel, nodeAt_append, if_pos rfl]
  · intro i inside
    rw [List.length_append, List.length_singleton] at inside
    rw [nodeAt_append, nodeAt_append]
    -- A link belongs to the new node, to the old tail or to another node.
    by_cases last : i = nodes.length
    · rw [if_pos last, if_neg (by omega), ends, nodeAt_past (by omega)]
    · have used : i < nodes.length := by omega
      rw [if_neg last]
      by_cases end_ : i + 1 = nodes.length
      · -- The old tail links to the new node.
        have place : i = nodes.length - 1 := by omega
        have here : nodeAt nodes i = _ := (congrArg (nodeAt nodes) place).trans tail.symm
        rw [if_pos end_, here]
        exact linked (List.length_pos_iff.mp (by omega))
      · have other : nodeAt nodes i ≠ _ := fun equal =>
          absurd ((nodeAt_inj threaded.distinct used (by omega)).mp (equal.trans tail)) (by omega)
        rw [if_neg end_, same _ (nodeAt_mem used) other, threaded.next i used]

/-- Unlinking a node. -/
theorem Threaded.erase (threaded : Threaded next head tail nodes) (inside : i < nodes.length)
    (linked : 0 < i → next' (nodeAt nodes (i - 1)) = next (nodeAt nodes i))
    (same : ∀ other ∈ nodes, (0 < i → other ≠ nodeAt nodes (i - 1)) → next' other = next other) :
    Threaded next' (if 0 < i then head else next (nodeAt nodes i))
      (if nodeAt nodes i = tail then (if 0 < i then nodeAt nodes (i - 1) else 0) else tail)
      (nodes.eraseIdx i) := by
  have length : (nodes.eraseIdx i).length = nodes.length - 1 := List.length_eraseIdx_of_lt inside
  -- A node has one place, so it is the tail exactly at the last one.
  have isTail : nodeAt nodes i = tail ↔ i = nodes.length - 1 := by
    rw [threaded.tail]
    exact nodeAt_inj threaded.distinct inside (by omega)
  refine ⟨threaded.distinct.sublist (List.eraseIdx_sublist _ _), ?_, ?_, ?_, ?_⟩
  · exact fun zero => threaded.real ((List.eraseIdx_sublist _ _).subset zero)
  · rw [nodeAt_eraseIdx]
    -- Without the first node the head is the second one.
    by_cases first : 0 < i
    · rw [if_pos first, if_pos first, threaded.head]
    · rw [if_neg first, if_neg first, threaded.next i inside]
      congr 1
      omega
  · rw [length, nodeAt_eraseIdx]
    -- Without the last node the tail is the one before it, if there is one.
    by_cases last : i = nodes.length - 1
    · rw [if_pos (isTail.mpr last)]
      by_cases first : 0 < i
      · rw [if_pos first, if_pos (by omega)]
        congr 1
        omega
      · rw [if_neg first, if_neg (by omega), nodeAt_past (by omega)]
    · rw [if_neg (fun here => last (isTail.mp here)), if_neg (by omega), threaded.tail]
      congr 1
      omega
  · intro j used
    rw [length] at used
    -- The place of a node that is left tells whether its link is the one that changed.
    have kept : ∀ k, k < nodes.length → (0 < i → k ≠ i - 1) →
        next' (nodeAt nodes k) = nodeAt nodes (k + 1) := by
      intro k among other
      rw [← threaded.next k among]
      refine same _ (nodeAt_mem among) fun first equal => other first ?_
      exact (nodeAt_inj threaded.distinct among (by omega)).mp equal
    rw [nodeAt_eraseIdx, nodeAt_eraseIdx]
    -- Only the node in front of the gap has another link.
    by_cases before : j < i
    · rw [if_pos before]
      by_cases link : j = i - 1
      · rw [link, linked (by omega), threaded.next i inside, if_neg (by omega)]
        congr 1
        omega
      · rw [if_pos (by omega), kept j (by omega) fun _ => link]
    · rw [if_neg before, if_neg (by omega), kept (j + 1) (by omega) fun _ => by omega]

end

section

variable {next next' : Nat → Nat} {node child : Nat} {nodes old new : List Nat}

/-- Following the links gives one list of nodes. -/
theorem Visits.unique {others : List Nat} (one : Visits next node nodes) (two : Visits next node others) :
    nodes = others := by
  -- Both lists start at the node itself and go on from its link.
  induction nodes generalizing node others with
  | nil =>
    cases others with
    | nil => rfl
    | cons first rest => exact absurd (two.1.symm.trans one) two.2.1
  | cons first rest ih =>
    cases others with
    | nil => exact absurd (one.1.symm.trans two) one.2.1
    | cons second more =>
      have same : first = second := one.1.symm.trans two.1
      rw [← same] at two ⊢
      rw [ih one.2.2 two.2.2]

/-- A node other than zero is the first of those that it leads to. -/
theorem Visits.cons_of_ne (linked : Visits next node nodes) (some : node ≠ 0) :
    ∃ rest, nodes = node :: rest ∧ Visits next (next node) rest := by
  -- A start that is not null visits at least itself.
  cases nodes with
  | nil => exact absurd linked some
  | cons first rest =>
    obtain ⟨rfl, -, tail⟩ := linked
    exact ⟨rest, rfl, tail⟩

/-- The links lead along the nodes from the first of them on. -/
theorem Visits.start (linked : Visits next node nodes) : node = nodes.headD 0 := by
  -- A walk starts at its first node, or at null if it has none.
  cases nodes with
  | nil => exact linked
  | cons first rest => exact linked.1

/-- Behind a node that is passed the links lead along the rest. -/
theorem Visits.behind {front : List Nat} (linked : Visits next node (front ++ child :: old)) :
    Visits next (next child) old := by
  -- Induction on the front: the links lead through it to the child.
  induction front generalizing node with
  | nil => exact linked.2.2
  | cons first rest ih => exact ih linked.2.2

/-- Links that lead along the same nodes agree on them. -/
theorem Visits.same_links (one : Visits next node nodes) (two : Visits next' node nodes) :
    ∀ other ∈ nodes, next' other = next other := by
  induction nodes generalizing node with
  | nil => simp
  | cons first rest ih =>
    obtain ⟨-, -, tail⟩ := one
    obtain ⟨-, -, tail'⟩ := two
    -- Behind the first node both go on with the same one.
    have link : next' first = next first := tail'.start.trans tail.start.symm
    rw [link] at tail'
    intro other among
    rcases List.mem_cons.mp among with rfl | later
    · exact link
    · exact ih tail tail' other later

/-- Nodes whose links did not change are still linked. -/
theorem Visits.congr (linked : Visits next node nodes) (same : ∀ other ∈ nodes, next' other = next other) :
    Visits next' node nodes := by
  -- Each node leads to the next one as before.
  induction nodes generalizing node with
  | nil => exact linked
  | cons first rest ih =>
    obtain ⟨here, some, tail⟩ := linked
    refine ⟨here, some, ?_⟩
    rw [same first List.mem_cons_self]
    exact ih tail fun other among => same other (List.mem_cons_of_mem _ among)

/-- When the link of one node changes, the nodes before it stay, and those behind it are other ones. -/
theorem Visits.relink (linked : Visits next node nodes) (before : Visits next (next child) old)
    (after : Visits next' (next' child) new) (same : ∀ other, other ≠ child → next' other = next other) :
    (child ∉ nodes ∧ Visits next' node nodes) ∨
      ∃ front, nodes = front ++ child :: old ∧ Visits next' node (front ++ child :: new) := by
  -- Induction on the way: it comes to the relinked node, or it never does.
  induction nodes generalizing node with
  | nil => exact .inl ⟨List.not_mem_nil, linked⟩
  | cons first rest ih =>
    obtain ⟨rfl, some, tail⟩ := linked
    by_cases here : node = child
    · -- From the node on the old way and the new one are as given.
      subst here
      exact .inr ⟨[], by rw [tail.unique before]; rfl, rfl, some, after⟩
    · have link : next' node = next node := same node here
      rcases ih tail with ⟨absent, linked⟩ | ⟨front, split, linked⟩
      · refine .inl ⟨?_, rfl, some, by rwa [link]⟩
        exact fun among => (List.mem_cons.mp among).elim (fun same => here same.symm) absent
      · refine .inr ⟨node :: front, by rw [split]; rfl, rfl, some, ?_⟩
        rw [link]
        exact linked

/-- No node comes twice where the links lead to zero. -/
theorem Visits.nodup (linked : Visits next node nodes) : nodes.Nodup := by
  induction nodes generalizing node with
  | nil => exact List.nodup_nil
  | cons first rest ih =>
    obtain ⟨rfl, some, tail⟩ := linked
    refine List.nodup_cons.mpr ⟨fun again => ?_, ih tail⟩
    -- From the second time on the way would be as long as from the first time on.
    obtain ⟨front, back, rfl⟩ := List.append_of_mem again
    have longer := tail.unique tail.behind
    have lengths := congrArg List.length longer
    rw [List.length_append, List.length_cons] at lengths
    omega

end

end Machine

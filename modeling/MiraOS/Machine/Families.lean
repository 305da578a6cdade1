import MiraOS.Machine.Regions
import Mathlib.Order.WellFounded

/-! Families: nodes with ordered children, and the trees below them. -/

namespace Machine

/-- A property of all trees, from the children to their parent. -/
@[elab_as_elim]
theorem RoseTree.fromChildren {α : Type} {motive : RoseTree α → Prop}
    (node : ∀ value children, (∀ child ∈ children, motive child) → motive (.node value children)) :
    ∀ tree, motive tree
  | .node value children => node value children fun child _ => RoseTree.fromChildren node child

mutual

/-- The nodes of a tree, each behind those below it. -/
def RoseTree.postorder {α : Type} : RoseTree α → List α
  | .node value children => postorders children ++ [value]

/-- The nodes of several trees, one tree after another. -/
def postorders {α : Type} : List (RoseTree α) → List α
  | [] => []
  | tree :: rest => tree.postorder ++ postorders rest

end

section

variable {α : Type} {kids : α → List α} {node child other : α} {tree : RoseTree α} {trees : List (RoseTree α)}

/-- The nodes from one on downwards. -/
inductive Descends (kids : α → List α) (top : α) : α → Prop where
  | here : Descends kids top top
  | under {node child : α} (above : Descends kids top node) (among : child ∈ kids node) : Descends kids top child

/-- A tree shows the children of each of its nodes. -/
inductive Unfolds (kids : α → List α) : RoseTree α → Prop where
  | node {value : α} {children : List (RoseTree α)} (shown : children.map RoseTree.value = kids value)
      (each : ∀ child ∈ children, Unfolds kids child) : Unfolds kids (.node value children)

/-- The members have their children among them, no child has two parents or one parent twice, and no way down
comes back. -/
structure Kindred (kids : α → List α) (members : Set α) : Prop where
  closed : ∀ node ∈ members, ∀ child ∈ kids node, child ∈ members
  single : ∀ one ∈ members, ∀ two ∈ members, ∀ child ∈ kids one, child ∈ kids two → one = two
  distinct : ∀ node ∈ members, (kids node).Nodup
  grounded : WellFounded fun child node => node ∈ members ∧ child ∈ kids node

/-- A node is in one of several trees. -/
theorem mem_postorders : node ∈ postorders trees ↔ ∃ tree ∈ trees, node ∈ tree.postorder := by
  -- Induction on the trees.
  induction trees with
  | nil => simp [postorders]
  | cons tree rest ih => simp [postorders, ih]

/-- From a child on downwards everything is below the parent. -/
theorem Descends.higher (among : child ∈ kids node) (below : Descends kids child other) : Descends kids node other := by
  -- Induction on the path below the child.
  induction below with
  | here => exact .under .here among
  | under _ among ih => exact .under ih among

/-- What is below a node is below everything above the node. -/
theorem Descends.trans {low : α} (below : Descends kids node other) (further : Descends kids other low) :
    Descends kids node low := by
  -- Induction on the second path.
  induction further with
  | here => exact below
  | under _ among ih => exact .under ih among

/-- Below a node there is the node itself, and what is below one of its children. -/
theorem descends_iff : Descends kids node other ↔ other = node ∨ ∃ child ∈ kids node, Descends kids child other := by
  constructor
  · intro below
    induction below with
    | here => exact .inl rfl
    -- The last step down leads from the node itself or goes on below the same child.
    | under above among ih =>
      rcases ih with rfl | ⟨child, kid, below⟩
      · exact .inr ⟨_, among, .here⟩
      · exact .inr ⟨child, kid, .under below among⟩
  · rintro (rfl | ⟨child, among, below⟩)
    · exact .here
    · exact below.higher among

/-- The nodes of a tree are those from its root on downwards. -/
theorem Unfolds.mem_postorder (grows : Unfolds kids tree) : node ∈ tree.postorder ↔ Descends kids tree.value node := by
  induction tree using RoseTree.fromChildren with
  | node value children ih =>
    obtain ⟨shown, each⟩ := grows
    rw [RoseTree.postorder, List.mem_append, List.mem_singleton, mem_postorders, descends_iff, RoseTree.value, ← shown,
      or_comm]
    -- A child is the root of one of the trees of the children.
    simp only [List.mem_map, exists_exists_and_eq_and]
    exact or_congr_right (exists_congr fun child => and_congr_right fun among => ih child among (each child among))

section

variable {members : Set α} (family : Kindred kids members)

include family

/-- Below a member there are members only. -/
theorem Kindred.below (member : node ∈ members) (below : Descends kids node other) : other ∈ members := by
  -- Induction on the path: children of members are members.
  induction below with
  | here => exact member
  | under _ among ih => exact family.closed _ ih _ among

/-- Every member is the root of a tree. -/
theorem Kindred.exists_tree (member : node ∈ members) : ∃ tree : RoseTree α, tree.value = node ∧ Unfolds kids tree := by
  -- The trees of the children are put below the node.
  induction node using family.grounded.induction with
  | _ node ih =>
    have trees : ∀ child ∈ kids node, ∃ tree : RoseTree α, tree.value = child ∧ Unfolds kids tree := fun child among =>
      ih child ⟨member, among⟩ (family.closed node member child among)
    have : Nonempty (RoseTree α) := ⟨.node node []⟩
    choose! treeOf value grows using trees
    refine ⟨.node node ((kids node).map treeOf), rfl, ?_, ?_⟩
    · rw [List.map_map]
      apply (List.map_congr_left value).trans
      exact List.map_id _
    · intro tree among
      obtain ⟨child, kid, rfl⟩ := List.mem_map.mp among
      exact grows child kid

/-- A member is not below its own children. -/
theorem Kindred.acyclic (member : node ∈ members) (among : child ∈ kids node) : ¬ Descends kids child node := by
  -- On a way down every node is further away from the ground than the ones below it.
  have reaches : ∀ {top low : α}, top ∈ members → Descends kids top low →
      low = top ∨ Relation.TransGen (fun child node => node ∈ members ∧ child ∈ kids node) low top := by
    intro top low inside below
    induction below with
    | here => exact .inl rfl
    | under above among ih =>
      have step := And.intro (family.below inside above) among
      rcases ih with rfl | further
      · exact .inr (.single step)
      · exact .inr (.head step further)
  intro below
  have step := And.intro member among
  have circle : Relation.TransGen (fun child node => node ∈ members ∧ child ∈ kids node) node node := by
    rcases reaches (family.closed node member child among) below with rfl | further
    · exact .single step
    · exact further.tail step
  exact family.grounded.transGen.irrefl.irrefl node circle

/-- Of two nodes above a third one, one is above the other. -/
theorem Kindred.comparable {one two low : α} (first : one ∈ members) (second : two ∈ members)
    (below : Descends kids one low) (also : Descends kids two low) : Descends kids one two ∨ Descends kids two one := by
  -- The ways up from the third one are the same, since no node has two parents.
  induction below with
  | here => exact .inr also
  | @under node child above among ih =>
    cases also with
    | here => exact .inl (.under above among)
    | @under other _ up kid =>
      have same := family.single node (family.below first above) other (family.below second up) child among kid
      exact ih (same ▸ up)

/-- Different children of a member have nothing in common. -/
theorem Kindred.children_apart {one two : α} (member : node ∈ members) (first : one ∈ kids node)
    (second : two ∈ kids node) (differ : one ≠ two) (below : Descends kids one other) : ¬ Descends kids two other := by
  intro also
  have inside := family.closed node member
  -- A child below another one has its parent below that one as well.
  have never : ∀ high ∈ kids node, ∀ low ∈ kids node, high ≠ low → ¬ Descends kids high low := by
    intro high upper low lower differ below
    cases below with
    | here => exact differ rfl
    | @under parent _ above among =>
      have same := family.single parent (family.below (inside high upper) above) node member low among lower
      exact family.acyclic member upper (same ▸ above)
  rcases family.comparable (inside one first) (inside two second) below also with under | above
  · exact never one first two second differ under
  · exact never two second one first differ.symm above

/-- In the postorder of a member no node stands in front of one below it, nor twice. -/
theorem Kindred.postorder_pairwise (grows : Unfolds kids tree) (member : tree.value ∈ members) :
    tree.postorder.Pairwise fun earlier later => ¬ Descends kids earlier later := by
  induction tree using RoseTree.fromChildren with
  | node value children ih =>
    obtain ⟨shown, each⟩ := grows
    replace member : value ∈ members := member
    have inside : ∀ child ∈ children, child.value ∈ kids value := fun child among =>
      shown ▸ List.mem_map_of_mem among
    have apart : (children.map RoseTree.value).Nodup := shown ▸ family.distinct value member
    rw [RoseTree.postorder, List.pairwise_append]
    refine ⟨?_, List.pairwise_singleton _ _, ?_⟩
    · -- The trees of the children come one after another and have nothing in common.
      clear shown
      induction children with
      | nil => exact List.Pairwise.nil
      | cons first rest more =>
        obtain ⟨fresh, distinct⟩ := List.nodup_cons.mp apart
        have early := inside first List.mem_cons_self
        rw [postorders, List.pairwise_append]
        refine ⟨?_, ?_, ?_⟩
        · apply ih first List.mem_cons_self (each first List.mem_cons_self)
          exact family.closed value member first.value early
        · exact more (fun child among => ih child (List.mem_cons_of_mem _ among))
            (fun child among => each child (List.mem_cons_of_mem _ among))
            (fun child among => inside child (List.mem_cons_of_mem _ among)) distinct
        · intro earlier one later two below
          obtain ⟨second, among, two⟩ := mem_postorders.mp two
          have late := inside second (List.mem_cons_of_mem _ among)
          have differ : first.value ≠ second.value := fun same => fresh (same ▸ List.mem_map_of_mem among)
          rw [(each first List.mem_cons_self).mem_postorder] at one
          rw [(each second (List.mem_cons_of_mem _ among)).mem_postorder] at two
          -- What is below the earlier node is below the first child too.
          exact family.children_apart member early late differ (one.trans below) two
    · -- The root is not below any of its children.
      rintro earlier one later two below
      obtain rfl : later = value := List.mem_singleton.mp two
      obtain ⟨child, among, one⟩ := mem_postorders.mp one
      rw [(each child among).mem_postorder] at one
      exact family.acyclic member (inside child among) (one.trans below)

end

end

end Machine
